import Choco.Proofs.Models
import Mathlib.Data.List.TakeDrop

namespace Choco.IR

variable {v : ValueId}

namespace Module

variable {m m' : Module} {id : OpId} {op : Op} {place : Place} {w : ValueId}

section Lists

def relist (m : Module) (place : Place) (g : List OpId → List OpId) : Module :=
  m.modifyRegion place fun r => { r with ops := g r.ops }

variable (g : List OpId → List OpId)

theorem get?_relist (hne : place.owner? ≠ some id) : (m.relist place g).get? id = m.get? id := by
  cases place with
  | top => rfl
  | nested owner index =>
    rw [relist, modifyRegion, get?_updateOp, if_neg]
    exact fun he => hne (congrArg some he.symm)

theorem get?_relist_owner (index : Nat) :
    (m.relist (.nested id index) g).get? id =
      (m.get? id).map fun op =>
      { op with regions := op.regions.modify index fun r => { r with ops := g r.ops } } := by
  rw [relist, modifyRegion, get?_updateOp, if_pos rfl]

theorem head?_relist (place : Place) (id : OpId) : (m.relist place g).head? id = m.head? id := by
  by_cases hne : place.owner? = some id
  · cases place with
    | top => cases hne
    | nested owner index =>
      cases hne
      rw [head?, get?_relist_owner, Option.map_map, head?]
      congr 1
      funext op
      simp only [Function.comp, Op.head, Op.mk.injEq, true_and, and_true]
      apply List.ext_getElem?
      intro i
      rw [List.getElem?_map, List.getElem?_modify, List.getElem?_map]
      cases op.regions[i]? with
      | none => rfl
      | some r => by_cases hi : index = i <;> simp [hi]
  · rw [head?, get?_relist g hne, head?]

theorem ops?_relist (place q : Place) :
    (m.relist place g).ops? q = if q = place then (m.ops? place).map g else m.ops? q := by
  cases q with
  | top =>
    cases place with
    | top => rfl
    | nested owner index => simp [relist, modifyRegion, ops?]
  | nested id i =>
    by_cases hne : place.owner? = some id
    · cases place with
      | top => cases hne
      | nested owner index =>
        cases hne
        rw [ops?, get?_relist_owner]
        cases hop : m.get? id with
        | none => simp [ops?, hop]
        | some op =>
          simp only [ops?, hop, Option.map_some, Option.bind_some, List.getElem?_modify,
            Place.nested.injEq, true_and]
          by_cases hi : index = i
          · subst hi
            cases op.regions[index]? <;> simp
          · rw [if_neg (Ne.symm hi)]
            cases op.regions[i]? <;> simp [hi]
    · have hq : Place.nested id i ≠ place := fun he => hne (he ▸ rfl)
      rw [ops?, get?_relist g hne, if_neg hq, ops?]

theorem sound_relist (h : m.Sound) (place : Place) : (m.relist place g).Sound := by
  cases place with
  | top => exact ⟨h.free_nodup, h.mem_free, h.users, h.results⟩
  | nested owner index => exact h.updateOp _ _ (fun _ _ => rfl) fun _ _ => rfl

@[simp] theorem values_relist (place : Place) : (m.relist place g).values = m.values := by
  cases place <;> rfl

@[simp] theorem bodyArgs_relist (place : Place) : (m.relist place g).body.args = m.body.args := by
  cases place <;> rfl

@[simp] theorem usersOf_relist (place : Place) (v : ValueId) :
    (m.relist place g).usersOf v = m.usersOf v := by
  cases place <;> rfl

end Lists

section Moves

variable (ids : List OpId) (parent : Option Place)

def moved (m : Module) (ids : List OpId) (parent : Option Place) : Module := ids.foldl (setParent · parent) m

theorem get?_moved (id : OpId) :
    (m.moved ids parent).get? id = if id ∈ ids then (m.get? id).map fun op => { op with parent }
      else m.get? id :=
  get?_foldl_setParent ids parent id

theorem head?_moved (id : OpId) :
    (m.moved ids parent).head? id = if id ∈ ids then (m.head? id).map fun op => { op with parent }
      else m.head? id := by
  rw [head?, get?_moved, head?]
  split
  · rw [Option.map_map, Option.map_map]
    rfl
  · rfl

@[simp] theorem ops?_moved (q : Place) : (m.moved ids parent).ops? q = m.ops? q := by
  cases q with
  | top => simp only [ops?, moved, (sameBut_foldl_setParent (m := m) ids parent).body]
  | nested id index =>
    rw [ops?, get?_moved, ops?]
    split
    · cases m.get? id <;> rfl
    · rfl

@[simp] theorem values_moved : (m.moved ids parent).values = m.values := values_foldl_setParent ids parent

@[simp] theorem body_moved : (m.moved ids parent).body = m.body := (sameBut_foldl_setParent ids parent).body

@[simp] theorem usersOf_moved (v : ValueId) : (m.moved ids parent).usersOf v = m.usersOf v := by
  rw [usersOf, moved, (sameBut_foldl_setParent (m := m) ids parent).users, usersOf]

theorem sound_moved (h : m.Sound) : (m.moved ids parent).Sound := by
  rw [moved]
  induction ids generalizing m with
  | nil => exact h
  | cons id ids ih => exact ih (h.updateOp _ _ (fun _ _ => rfl) fun _ _ => rfl)

end Moves

theorem head?_replaceUses (h : m.Sound) (hne : v ≠ w) (id : OpId) :
    (m.replaceUses v w).head? id = (m.head? id).map (Op.rename (ValueId.redirect v w)) := by
  rw [head?, get?_replaceUses h hne, Option.map_map, head?, Option.map_map]
  rfl

theorem ops?_replaceUses (h : m.Sound) (hne : v ≠ w) (q : Place) : (m.replaceUses v w).ops? q = m.ops? q := by
  cases q with
  | top => simp only [ops?, (sameSlots_replaceUses (m := m) hne).2.1]
  | nested id index =>
    rw [ops?, get?_replaceUses h hne, ops?]
    cases m.get? id <;> rfl

theorem head?_released (h : m.get? id = some op) (id' : OpId) :
    (Edit.released m id op).head? id' = if id' = id then none else m.head? id' := by
  rw [head?, get?_released h, head?]
  split <;> rfl

theorem ops?_released (h : m.get? id = some op) {q : Place} (hq : q.owner? ≠ some id) :
    (Edit.released m id op).ops? q = m.ops? q := by
  cases q with
  | top => rfl
  | nested id' index =>
    have hne : id' ≠ id := fun he => hq (congrArg some he)
    rw [ops?, get?_released h, if_neg hne, ops?]

end Module

inductive Emptied (n : Node) (rest : Code) : Code → Prop
  | leaf : Emptied n rest (.leaf n rest)
  | each : Emptied n rest (.each n [] .nil rest)
  | fork : Emptied n rest (.fork n .nil .nil rest)

/-- How uses are renamed when an operation is replaced: those of its result, if it has one, go to the new
value. -/
inductive Redirects (n : Node) : List ValueId → (ValueId → ValueId) → Prop
  | same (h : n.result = none) : Redirects n [] fun v => v
  | swap (r : Def) (w : ValueId) (h : n.result = some r) (hne : r.value ≠ w) :
      Redirects n [w] (.redirect r.value w)

namespace Emptied

variable {m : Module} {n : Node} {rest c : Code} {parent : Option Place}

theorem ids (h : Emptied n rest c) : c.ids = n.id :: rest.ids := by cases h <;> rfl

theorem allIds (h : Emptied n rest c) : c.allIds = n.id :: rest.allIds := by cases h <;> simp

theorem results (h : Emptied n rest c) : c.results = n.results ++ rest.results := by cases h <;> simp

theorem hasNode (h : Emptied n rest c) (hc : m.Holds parent c) :
    ∃ args, m.HasNode parent n args ∧ (∀ index < args.length, m.ops? (.nested n.id index) = some []) ∧
      m.Holds parent rest := by
  cases h with
  | leaf => exact ⟨_, hc.1, by simp, hc.2⟩
  | each => exact ⟨_, hc.1, by simpa [Code.ids] using hc.2.1, hc.2.2.2⟩
  | fork =>
    refine ⟨_, hc.1, fun index hindex => ?_, hc.2.2.2.2.2⟩
    obtain rfl | rfl : index = 0 ∨ index = 1 := by simp at hindex; omega
    · exact hc.2.1
    · exact hc.2.2.1

theorem get? (h : Emptied n rest c) (hc : m.Holds parent c) :
    ∃ regions, m.get? n.id = some (n.op regions parent) ∧ ∀ r ∈ regions, r.ops = [] := by
  obtain ⟨args, hnode, hlists, -⟩ := h.hasNode hc
  obtain ⟨regions, hop, hargs⟩ := hnode.get?
  refine ⟨regions, hop, fun r hr => ?_⟩
  obtain ⟨i, hi, rfl⟩ := List.mem_iff_getElem.mp hr
  have hlist := hlists i (by rw [← hargs, List.length_map]; exact hi)
  simpa [Module.ops?, hop, Node.op, List.getElem?_eq_getElem hi] using hlist

end Emptied

namespace Module

variable {m : Module} {C : Context} {n : Node} {c d rest : Code} {ws : List ValueId}
  {τ : ValueId → ValueId} {op : Op} {id : OpId} {before after new : List OpId} {place : Place}

def swapped (m : Module) (place : Place) (ids new : List OpId) (id : OpId) : Module :=
  ((m.relist place fun _ => ids).moved new (some place)).moved [id] none

section Swapped

variable (place : Place) (ids new : List OpId) (id : OpId)

theorem head?_swapped (id' : OpId) :
    (m.swapped place ids new id).head? id' =
      if id' = id then (m.head? id).map fun op => { op with parent := none }
      else if id' ∈ new then (m.head? id').map fun op => { op with
                                                             parent := some place } else m.head? id' := by
  simp only [swapped, head?_moved, List.mem_singleton, head?_relist]
  by_cases hid : id' = id
  · subst hid
    rw [if_pos rfl, if_pos rfl]
    split
    · rw [Option.map_map]
      rfl
    · rfl
  · rw [if_neg hid, if_neg hid]

theorem ops?_swapped (q : Place) :
    (m.swapped place ids new id).ops? q = if q = place then (m.ops? place).map fun _ => ids
      else m.ops? q := by
  rw [swapped, ops?_moved, ops?_moved, ops?_relist]

theorem get?_swapped_self (hplace : place.owner? ≠ some id) (hop : m.get? id = some op) (hout : id ∉ new) :
    (m.swapped place ids new id).get? id = some { op with parent := none } := by
  rw [swapped, get?_moved, if_pos (List.mem_singleton_self _), get?_moved, if_neg hout,
    get?_relist _ hplace, hop]
  rfl

@[simp] theorem values_swapped : (m.swapped place ids new id).values = m.values := by simp [swapped]

@[simp] theorem bodyArgs_swapped : (m.swapped place ids new id).body.args = m.body.args := by simp [swapped]

@[simp] theorem usersOf_swapped (v : ValueId) : (m.swapped place ids new id).usersOf v = m.usersOf v := by
  simp [swapped]

theorem sound_swapped (h : m.Sound) : (m.swapped place ids new id).Sound :=
  sound_moved _ _ (sound_moved _ _ (sound_relist _ h _))

end Swapped

def redirected (m : Module) (n : Node) (ws : List ValueId) : Module :=
  match n.result, ws with
  | some r, w :: _ => m.replaceUses r.value w
  | _, _ => m

section Redirected

theorem get?_redirected (h : m.Sound) (hτ : Redirects n ws τ) (id : OpId) :
    (m.redirected n ws).get? id = (m.get? id).map (Op.rename τ) := by
  cases hτ with
  | same hr => simp only [redirected, hr, Op.rename_id, Option.map_id']
  | swap r w hr hne =>
    simp only [redirected, hr]
    exact get?_replaceUses h hne id

theorem head?_redirected (h : m.Sound) (hτ : Redirects n ws τ) (id : OpId) :
    (m.redirected n ws).head? id = (m.head? id).map (Op.rename τ) := by
  cases hτ with
  | same hr => simp only [redirected, hr, Op.rename_id, Option.map_id']
  | swap r w hr hne =>
    simp only [redirected, hr]
    exact head?_replaceUses h hne id

theorem ops?_redirected (h : m.Sound) (hτ : Redirects n ws τ) (q : Place) :
    (m.redirected n ws).ops? q = m.ops? q := by
  cases hτ with
  | same hr => simp only [redirected, hr]
  | swap r w hr hne =>
    simp only [redirected, hr]
    exact ops?_replaceUses h hne q

theorem values_redirected : (m.redirected n ws).values = m.values := by
  unfold redirected
  split
  · exact values_replaceUses _ _
  · rfl

theorem body_redirected (hτ : Redirects n ws τ) : (m.redirected n ws).body = m.body := by
  cases hτ with
  | same hr => simp only [redirected, hr]
  | swap r w hr hne =>
    simp only [redirected, hr]
    exact (sameSlots_replaceUses hne).2.1

theorem sound_redirected (h : m.Sound) (hτ : Redirects n ws τ) : (m.redirected n ws).Sound := by
  cases hτ with
  | same hr => simpa only [redirected, hr] using h
  | swap r w hr hne =>
    simp only [redirected, hr]
    exact h.replaceUses hne

theorem unused_redirected (hτ : Redirects n ws τ) (hv : n.result.map Def.value = some v) :
    (m.redirected n ws).usersOf v = [] := by
  cases hτ with
  | same hr => simp [hr] at hv
  | swap r w hr hne =>
    rw [hr] at hv
    cases hv
    simp only [redirected, hr, usersOf_replaceUses hne, if_true]

end Redirected

theorem span_ne (h : id ∉ before) : (before ++ id :: after).span (· ≠ id) = (before, id :: after) := by
  rw [List.span_eq_takeWhile_dropWhile, List.takeWhile_append_of_pos, List.dropWhile_append_of_pos]
  · simp
  · exact fun a ha => by simpa using fun (he : a = id) => h (he ▸ ha)
  · exact fun a ha => by simpa using fun (he : a = id) => h (he ▸ ha)

def rewired (m : Module) (result : Option ValueId) (ws : List ValueId) : Module :=
  match result, ws with
  | some v, w :: _ => m.replaceUses v w
  | _, _ => m

theorem rewired_eq_redirected : m.rewired (n.result.map Def.value) ws = m.redirected n ws := by
  unfold rewired redirected
  cases n.result <;> cases ws <;> rfl

theorem exists_get?_relist (g : List OpId → List OpId) (place : Place) (h : m.get? id = some op) :
    ∃ op', (m.relist place g).get? id = some op' := by
  have hhead := head?_relist (m := m) g place id
  rw [head?, head?, h] at hhead
  obtain ⟨op', hop', -⟩ := Option.map_eq_some_iff.mp hhead
  exact ⟨op', hop'⟩

theorem replaceOp_eq_erase {old : Op} (hop : m.get? id = some old) (hparent : old.parent = some place)
    (hlist : m.ops? place = some (before ++ id :: after)) (hbefore : id ∉ before)
    (hnew : ∀ x ∈ new, ∃ op, m.get? x = some op)
    (hcount : ws.length = if old.result.isSome then 1 else 0) :
    Edit.replaceOp id new ws m = Edit.erase id
      ((m.swapped place (before ++ new ++ after) new id).rewired old.result ws) := by
  obtain ⟨r, hr, hids⟩ := region_eq_ok_of_ops? hlist
  have hquery : Edit.query (fun m => m.region place) m = .ok r m := by simp [Edit.query, hr]
  have hin : r.ops.contains id = true := by simp [hids]
  have hspan : r.ops.span (· ≠ id) = (before, id :: after) := by rw [hids, span_ne hbefore]
  -- The module from step to step: the list, the new operations' parent, the old one's.
  have hlive : ∀ x ∈ new, ∃ op, (m.relist place fun _ => before ++ new ++ after).get? x = some op := by
    intro x hx
    obtain ⟨op, hop⟩ := hnew x hx
    exact exists_get?_relist _ place hop
  have hmoved : ∃ op, ((m.relist place fun _ => before ++ new ++ after).moved new (some place)).get? id =
      some op := by
    obtain ⟨op, hop⟩ := exists_get?_relist (fun _ => before ++ new ++ after) place hop
    rw [get?_moved, hop]
    split
    · exact ⟨_, rfl⟩
    · exact ⟨_, rfl⟩
  obtain ⟨_, hmoved⟩ := hmoved
  -- What is left once the number of results is known to be right.
  have hrest (last : Edit Unit) : (do
        let region ← Edit.query fun m => m.region place
        if !region.ops.contains id then throw (.internal .missingFromParent)
        let parts := region.ops.span (· ≠ id)
        Edit.updateRegion place fun r => { r with ops := parts.1 ++ new ++ parts.2.tail }
        new.forM (Edit.setParent (some place))
        Edit.setParent none id
        last : Edit Unit) m = last (m.swapped place (before ++ new ++ after) new id) := by
    rw [Action.bind_ok hquery]
    simp only [hin, Bool.not_true, Bool.false_eq_true, if_false, hspan, List.tail_cons]
    exact (Action.bind_ok (Edit.updateRegion_run _ hr)).trans ((Action.bind_ok
      (Edit.forM_setParent_run _ new hlive)).trans (Action.bind_ok (Edit.setParent_run none hmoved)))
  obtain ⟨kind, operands, result, regions, parent⟩ := old
  cases hparent
  rw [Edit.replaceOp, Action.bind_ok (Edit.op_run hop)]
  cases result with
  | none =>
    obtain rfl := List.length_eq_zero_iff.mp hcount
    exact hrest (Edit.erase id)
  | some v =>
    obtain ⟨w, rfl⟩ := List.length_eq_one_iff.mp hcount
    exact hrest (do Edit.update fun m => m.replaceUses v w; Edit.erase id)

theorem replaceOp_run {regions : List Region} (h : m.Sound)
    (hop : m.get? n.id = some (n.op regions (some place))) (hregions : ∀ r ∈ regions, r.ops = [])
    (hlist : m.ops? place = some (before ++ n.id :: after)) (hbefore : n.id ∉ before)
    (hplace : place.owner? ≠ some n.id) (hnew : ∀ id ∈ new, ∃ op, m.get? id = some op) (hout : n.id ∉ new)
    (hτ : Redirects n ws τ) :
    Edit.replaceOp n.id new ws m =
      .ok () (Edit.released ((m.swapped place (before ++ new ++ after) new n.id).redirected n ws) n.id
        ((n.op regions none).rename τ)) := by
  have hcount : ws.length = if (n.op regions (some place)).result.isSome then 1 else 0 := by
    cases hτ with
    | same hn => simp [Node.op, hn]
    | swap r w hn hne => simp [Node.op, hn]
  have hdetached := get?_swapped_self place (before ++ new ++ after) new n.id hplace hop hout
  have hsound := sound_swapped place (before ++ new ++ after) new n.id h
  have hlast := (get?_redirected hsound hτ n.id).trans (by rw [hdetached, Option.map_some])
  rw [replaceOp_eq_erase hop rfl hlist hbefore hnew hcount]
  change Edit.erase n.id ((m.swapped place (before ++ new ++ after) new n.id).rewired
    (n.result.map Def.value) ws) = _
  rw [rewired_eq_redirected]
  exact Edit.eraseWithin_run _ hlast (fun v hv => unused_redirected hτ hv) hregions (fun p hp => by cases hp)
    (fun index hp => by cases hp)

theorem Models.replaceOp (h : m.Models (C.plug c) d) (hc : Emptied n rest c) (hτ : Redirects n ws τ) :
    ∃ m', Edit.replaceOp n.id d.ids ws m = .ok () m' ∧
      m'.Models ((C.rename τ).plug ((d ++ rest).rename τ)) .nil ∧ m'.values = m.values := by
  obtain ⟨haround, hholds⟩ := h.around
  obtain ⟨regions, hop, hregions⟩ := hc.get? hholds
  obtain ⟨-, -, -, hrest⟩ := hc.hasNode hholds
  have hnodup := h.nodup_plug
  rw [hc.allIds] at hnodup
  obtain ⟨-, hinner, hapart⟩ := List.nodup_append.mp hnodup
  obtain ⟨hn, hinner⟩ := List.nodup_cons.mp hinner
  obtain ⟨-, hd, hrestd⟩ := List.nodup_append.mp hinner
  have hnC : n.id ∉ C.allIds := fun hin => hapart n.id hin n.id (by simp) rfl
  have hnd : n.id ∉ d.allIds := fun hin => hn (List.mem_append_right _ hin)
  have hCd {id : OpId} (hid : id ∈ C.allIds) : id ∉ d.allIds :=
    fun hin => hapart id hid id (by simp [hin]) rfl
  have hlist := haround.here
  rw [hc.ids] at hlist
  have hplace : C.place.owner? ≠ some n.id := fun ho => hnC (Context.owner_mem ho)
  have hndi : n.id ∉ d.ids := fun hin => hnd (d.ids_subset_allIds hin)
  refine ⟨_, replaceOp_run h.sound hop hregions hlist (fun hin => hnC (C.earlier_subset hin)) hplace
    (fun id hid => h.loose.live (d.ids_subset_allIds hid)) hndi hτ, ?_, ?_⟩
  swap
  · exact values_redirected.trans (values_swapped _ _ _ _)
  generalize hids : C.earlier ++ d.ids ++ rest.ids = ids
  have hsound := sound_swapped C.place ids d.ids n.id h.sound
  have hself : ((m.swapped C.place ids d.ids n.id).redirected n ws).get? n.id =
      some ((n.op regions none).rename τ) := by
    rw [get?_redirected hsound hτ, get?_swapped_self _ _ _ _ hplace hop hndi]
    rfl
  have hhead {id : OpId} (hne : id ≠ n.id) :
      (Edit.released ((m.swapped C.place ids d.ids n.id).redirected n ws) n.id
        ((n.op regions none).rename τ)).head? id = ((m.swapped C.place ids d.ids n.id).head? id).map
        (Op.rename τ) := by
    rw [head?_released hself, if_neg hne, head?_redirected hsound hτ]
  have hops {q : Place} (hne : q.owner? ≠ some n.id) :
      (Edit.released ((m.swapped C.place ids d.ids n.id).redirected n ws) n.id
        ((n.op regions none).rename τ)).ops? q = (m.swapped C.place ids d.ids n.id).ops? q := by
    rw [ops?_released hself hne, ops?_redirected hsound hτ]
  have hswapped : (m.swapped C.place ids d.ids n.id).Holds (some C.place) (d ++ rest) := by
    have hvalues : Settles m.values (m.swapped C.place ids d.ids n.id).values := by
      rw [values_swapped]
      exact .refl _
    have hnested {id : OpId} (hid : id ∉ C.allIds) (index : Nat) :
        (m.swapped C.place ids d.ids n.id).ops? (.nested id index) = m.ops? (.nested id index) := by
      rw [ops?_swapped, if_neg]
      exact fun he => hid (Context.owner_mem (he ▸ rfl))
    refine holds_append.mpr ⟨h.loose.reparent hd (fun id hid => ?_) (fun id hid hout => ?_)
      (fun id hid index => hnested (fun hin => hCd hin hid) index) hvalues, ?_⟩
    · have hne : id ≠ n.id := fun he => hndi (he ▸ hid)
      rw [head?_swapped, if_neg hne, if_pos hid]
    · have hne : id ≠ n.id := fun he => hnd (he ▸ hid)
      rw [head?_swapped, if_neg hne, if_neg hout]
    · rw [← Code.rename_id rest]
      refine hrest.frame (fun id hid => ?_) (fun id hid index => hnested (fun hin => ?_) index) hvalues
      · have hne : id ≠ n.id := fun he => hn (List.mem_append_left _ (he ▸ hid))
        have hout : id ∉ d.ids := fun hin => hrestd id hid id (d.ids_subset_allIds hin) rfl
        rw [head?_swapped, if_neg hne, if_neg hout, Op.rename_id, Option.map_id']
      · exact hapart id hin id (by simp [hid]) rfl
  have hin {id : OpId} (hid : id ∈ (d ++ rest).allIds) : id ≠ n.id := fun he => by
    subst he
    rw [Code.allIds_append, List.mem_append] at hid
    exact hn (List.mem_append.mpr hid.symm)
  refine h.refill τ ?_ ?_ ?_ (fun id hid => ?_) (fun q hq hne => ?_) ?_ ?_ trivial
    (fun id => ?_) (fun v => ?_) (fun id op hop' => ?_)
  · exact (sound_redirected hsound hτ).released hself fun v hv => unused_redirected hτ hv
  · exact (values_redirected.trans (values_swapped _ _ _ _)).symm ▸ .refl _
  · exact (congrArg Region.args (body_redirected hτ)).trans (bodyArgs_swapped _ _ _ _)
  · have hne : id ≠ n.id := fun he => hnC (he ▸ hid)
    have hout : id ∉ d.ids := fun hin => hCd hid (d.ids_subset_allIds hin)
    rw [hhead hne, head?_swapped, if_neg hne, if_neg hout]
  · have howner : q.owner? ≠ some n.id := by
      obtain rfl | ⟨id, hid, ho⟩ := hq
      · exact fun he => by cases he
      · rw [ho]
        exact fun he => hnC (Option.some.inj he ▸ hid)
    rw [hops howner, ops?_swapped, if_neg hne]
  · rw [hops hplace, ops?_swapped, if_pos rfl, hlist, Option.map_some, ← hids, Code.ids_rename,
      Code.ids_append, List.append_assoc]
  · exact hswapped.frame (fun id hid => hhead (hin hid))
      (fun id hid index => hops fun he => hin hid (Option.some.inj he)) (values_redirected.symm ▸ .refl _)
  · rw [hc.allIds]
    simp only [Code.allIds_rename, Code.allIds_append, Code.allIds_nil, List.append_nil, List.count_append,
      List.count_cons]
    omega
  · rw [hc.results]
    simp only [Code.results_rename, Code.results_append, Code.results_nil, List.append_nil, List.count_append]
    omega
  · rw [get?_released hself] at hop'
    split at hop'
    next => cases hop'
    next hne =>
      have hlive : m.get? id ≠ none := by
        intro hnone
        have hthis := head?_eq_none.mpr hnone
        have hthen := @hhead id hne
        rw [head?_released hself, if_neg hne, head?_swapped, if_neg hne, hthis] at hthen
        rw [head?, hop'] at hthen
        split at hthen <;> cases hthen
      obtain ⟨old, hold⟩ := Option.ne_none_iff_exists'.mp hlive
      have hall := h.cover_plug hold
      rw [hc.allIds] at hall
      simp only [Code.allIds_rename, Code.allIds_append, Code.allIds_nil, List.append_nil, List.mem_append,
        List.mem_cons] at hall ⊢
      tauto

end Module

end Choco.IR
