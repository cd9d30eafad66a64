import Choco.Proofs.ExactUsers
import Mathlib.Logic.Relation

namespace Choco.IR

variable {op : Op} {P : OpId → Prop} {v : ValueId}

namespace Module

variable {m m₁ m' : Module} {id x y : OpId} {P Q : OpId → Prop}

/-- The first operation has the second one in one of its regions. -/
def Lists (m : Module) (x y : OpId) : Prop := ∃ op r, m.get? x = some op ∧ r ∈ op.regions ∧ y ∈ r.ops

/-- The second operation is the first one or is nested in it. -/
def Inside (m : Module) : OpId → OpId → Prop := Relation.ReflTransGen m.Lists

structure Without (P : OpId → Prop) (m m' : Module) : Prop where
  gone : ∀ x, P x → m'.get? x = none
  kept : ∀ x, ¬ P x → m'.get? x = m.get? x
  body : m'.body = m.body

theorem lists_congr (h : (m'.get? x).map Op.regions = (m.get? x).map Op.regions) :
    m'.Lists x y ↔ m.Lists x y := by
  have hlists (m : Module) : m.Lists x y ↔ ∃ regions, (m.get? x).map Op.regions = some regions ∧
      ∃ r ∈ regions, y ∈ r.ops := by
    constructor
    · rintro ⟨op, r, hop, hr, hy⟩
      exact ⟨op.regions, congrArg (Option.map Op.regions) hop, r, hr, hy⟩
    · rintro ⟨regions, hregions, r, hr, hy⟩
      obtain ⟨op, hop, rfl⟩ := Option.map_eq_some_iff.mp hregions
      exact ⟨op, r, hop, hr, hy⟩
  rw [hlists, hlists, h]

theorem inside_iff (h : m.get? id = some op) :
    m.Inside id x ↔ x = id ∨ ∃ c ∈ op.regions.flatMap fun r => r.ops.reverse, m.Inside c x := by
  constructor
  · intro hx
    obtain rfl | ⟨c, ⟨op', r, hop', hr, hc⟩, hcx⟩ := Relation.ReflTransGen.cases_head hx
    · exact .inl rfl
    · cases h.symm.trans hop'
      exact .inr ⟨c, List.mem_flatMap.mpr ⟨r, hr, List.mem_reverse.mpr hc⟩, hcx⟩
  · rintro (rfl | ⟨c, hc, hcx⟩)
    · exact .refl
    · obtain ⟨r, hr, hc⟩ := List.mem_flatMap.mp hc
      exact .head ⟨op, r, h, hr, List.mem_reverse.mp hc⟩ hcx

theorem Inside.eq_of_dead (h : m.Inside id x) (hdead : m.get? id = none) : x = id := by
  obtain rfl | ⟨_, ⟨op, r, hop, -⟩, -⟩ := Relation.ReflTransGen.cases_head h
  · rfl
  · cases hdead.symm.trans hop

theorem inside_congr (h : ∀ y, m.Inside id y → ∀ z, m'.Lists y z ↔ m.Lists y z) :
    m'.Inside id x ↔ m.Inside id x := by
  constructor
  · intro hx
    induction hx with
    | refl => exact .refl
    | tail _ hyz ih => exact ih.tail ((h _ ih _).mp hyz)
  · intro hx
    induction hx with
    | refl => exact .refl
    | tail hy hyz ih => exact ih.tail ((h _ hy _).mpr hyz)

namespace Without

theorem refl (h : ∀ x, P x → m.get? x = none) : Without P m m := ⟨h, fun _ _ => rfl, rfl⟩

theorem get? (h : Without P m m') (hop : m'.get? x = some op) : ¬ P x ∧ m.get? x = some op := by
  have hx : ¬ P x := fun hx => by cases (h.gone x hx).symm.trans hop
  exact ⟨hx, (h.kept x hx).symm.trans hop⟩

theorem dead (h : Without P m m') (hx : m.get? x = none) : m'.get? x = none := by
  cases hop : m'.get? x with
  | none => rfl
  | some op => cases hx.symm.trans (h.get? hop).2

theorem inside (h : Without P m m') (hy : m'.Inside x y) : m.Inside x y := by
  induction hy with
  | refl => exact .refl
  | tail _ hyz ih =>
    obtain ⟨op, r, hop, hr, hz⟩ := hyz
    exact ih.tail ⟨op, r, (h.get? hop).2, hr, hz⟩

theorem inside_of_not {c : OpId} (h : Without (m.Inside c) m m') (hx : m.Inside id x) (hc : ¬ m.Inside c x) :
    m'.Inside id x := by
  induction hx with
  | refl => exact .refl
  | tail _ hyz ih =>
    have hy : ¬ m.Inside c _ := fun hy => hc (hy.tail hyz)
    obtain ⟨op, r, hop, hr, hz⟩ := hyz
    exact (ih hy).tail ⟨op, r, (h.kept _ hy).trans hop, hr, hz⟩

end Without

end Module

namespace Edit

open Choco.IR.Module

variable {m m' : Module} {id : OpId} {n : Nat}

theorem eraseUnused_detached (n : Nat) (hop : m.get? id = some op) :
    eraseUnused (eraseWithin n) id none m =
      ((op.regions.flatMap fun r => r.ops.reverse).forM (eraseChild (eraseWithin n)) >>= fun _ => release id)
        m :=
  Action.bind_ok (op_run hop)

theorem without_of_eraseChild {child : OpId}
    (ih : ∀ {id : OpId} {m m' : Module}, (∀ op, m.get? id = some op → op.parent = none) →
      eraseWithin n id m = .ok () m' → Without (m.Inside id) m m')
    (h : eraseChild (eraseWithin n) child m = .ok () m') : Without (m.Inside child) m m' := by
  have hquery : query (fun m => .ok (m.isLive child)) m = .ok (m.isLive child) m := rfl
  rw [eraseChild, Action.bind_ok hquery] at h
  cases hop : m.get? child with
  | none =>
    simp only [isLive, hop, Option.isSome_none, Bool.false_eq_true, if_false] at h
    cases h
    exact .refl fun x hx => hx.eq_of_dead hop ▸ hop
  | some op =>
    simp only [isLive, hop, Option.isSome_some, if_true] at h
    rw [Action.bind_ok (setParent_run none hop)] at h
    have hget (x : OpId) : (m.setParent none child).get? x =
        if x = child then (m.get? child).map fun op => { op with parent := none } else m.get? x :=
          get?_updateOp _ _ _
    have hwithout := ih (fun op' hop' => by rw [hget, if_pos rfl, hop] at hop'; cases hop'; rfl) h
    have hinside (x : OpId) : (m.setParent none child).Inside child x ↔ m.Inside child x := by
      refine inside_congr fun y _ z => lists_congr ?_
      rw [hget]
      split
      next he => rw [he, hop]; rfl
      next => rfl
    refine ⟨fun x hx => hwithout.gone x ((hinside x).mpr hx), fun x hx => ?_, hwithout.body⟩
    have hne : x ≠ child := fun he => hx (he ▸ .refl)
    rw [hwithout.kept x fun hx' => hx ((hinside x).mp hx'), hget, if_neg hne]

theorem without_of_eraseChildren {children : List OpId}
    (hchild : ∀ {child : OpId} {m m' : Module}, eraseChild (eraseWithin n) child m = .ok () m' →
      Without (m.Inside child) m m')
    (h : children.forM (eraseChild (eraseWithin n)) m = .ok () m') :
    Without (fun x => ∃ c ∈ children, m.Inside c x) m m' := by
  induction children generalizing m with
  | nil =>
    cases h
    exact .refl fun x hx => by simp at hx
  | cons c cs ih =>
    obtain ⟨m₁, h₁, h₂⟩ := Action.forM_cons_eq_ok.mp h
    have hfirst := hchild h₁
    have hrest := ih h₂
    refine ⟨fun x hx => ?_, fun x hx => ?_, hrest.body.trans hfirst.body⟩
    · -- what was nested in `c` is gone, and all else is nested in the others as before
      by_cases hc : m.Inside c x
      · exact hrest.dead (hfirst.gone x hc)
      · obtain ⟨d, hd, hdx⟩ := hx
        obtain rfl | hd := List.mem_cons.mp hd
        · exact absurd hdx hc
        · exact hrest.gone x ⟨d, hd, hfirst.inside_of_not hdx hc⟩
    · have hc : ¬ m.Inside c x := fun hc => hx ⟨c, List.mem_cons_self, hc⟩
      rw [hrest.kept x fun hdead => ?_, hfirst.kept x hc]
      obtain ⟨d, hd, hdx⟩ := hdead
      exact hx ⟨d, List.mem_cons_of_mem _ hd, hfirst.inside hdx⟩

theorem release_eq_ok {m₁ : Module} (hop : m.get? id = some op) (hwithout : Without P m m₁)
    (h : release id m₁ = .ok () m') :
    ∃ op₁, m₁.get? id = some op₁ ∧ m' = released m₁ id op₁ := by
  cases hslot : m₁.slots[id.index]? >>= Slot.op with
  | none =>
    simp only [release, hslot] at h
    cases h
  | some op₁ =>
    obtain ⟨⟨g, content⟩, hs, hc⟩ := Option.bind_eq_some_iff.mp hslot
    obtain rfl : content = some op₁ := hc
    have hlive : m₁.get? ⟨id.index, g⟩ = some op₁ := get?_eq_some.mpr hs
    have hid : (⟨id.index, g⟩ : OpId) = id := eq_of_index_eq (hwithout.get? hlive).2 hop rfl
    rw [hid] at hlive
    rw [release_run hlive] at h
    cases h
    exact ⟨op₁, hlive, rfl⟩

theorem without_of_eraseWithin (hparent : ∀ op, m.get? id = some op → op.parent = none)
    (h : eraseWithin n id m = .ok () m') :
    Without (m.Inside id) m m' := by
  induction n generalizing id m m' with
  | zero => cases h
  | succ n ih =>
    cases hop : m.get? id with
    | none =>
      have hstale : Edit.op id m = .error (.internal (.staleHandle id)) m := by
        simp [Edit.op, query, Module.op, hop]
      rw [eraseWithin, Action.bind_error hstale] at h
      cases h
    | some op =>
      by_cases hunused : ∀ v, op.result = some v → m.usersOf v = []
      · rw [eraseWithin_unused n hop hunused, hparent op hop] at h
        rw [eraseUnused_detached n hop] at h
        obtain ⟨_, m₁, hchildren, hrelease⟩ := Action.bind_eq_ok.mp h
        have hwithout := without_of_eraseChildren (without_of_eraseChild ih) hchildren
        obtain ⟨op₁, hop₁, rfl⟩ := release_eq_ok hop hwithout hrelease
        refine ⟨fun x hx => ?_, fun x hx => ?_, hwithout.body⟩
        · rw [get?_released hop₁]
          rcases (inside_iff hop).mp hx with rfl | hx
          · rw [if_pos rfl]
          · rw [hwithout.gone x hx, ite_self]
        · rw [inside_iff hop, not_or] at hx
          rw [get?_released hop₁, if_neg hx.1, hwithout.kept x hx.2]
      · push Not at hunused
        obtain ⟨v, hv, hused⟩ := hunused
        rw [eraseWithin_used n hop hv hused] at h
        cases h

theorem unused_of_eraseWithin (hop : m.get? id = some op) (hv : op.result = some v)
    (h : eraseWithin n id m = .ok () m') :
    m.usersOf v = [] := by
  cases n with
  | zero => cases h
  | succ n =>
    by_contra hused
    rw [eraseWithin_used n hop hv hused] at h
    cases h

theorem length_of_replaceOp {old : Op} {new : List OpId} {ws : List ValueId} (hop : m.get? id = some old)
    (h : replaceOp id new ws m = .ok () m') : ws.length = if old.result.isSome then 1 else 0 := by
  by_contra hcount
  rw [replaceOp, Action.bind_ok (op_run hop)] at h
  simp only [ne_eq, hcount, not_false_eq_true, if_true] at h
  cases h

end Edit

namespace Module

variable {m m₁ m' : Module} {id x y : OpId} {old : Op} {place : Place} {new ids : List OpId}
  {ws : List ValueId}

/-- Each value has one entry among its users for each of its occurrences among the operands of live
operations. -/
def ExactUsers (m : Module) : Prop :=
  ∀ v id, (m.usersOf v).count id = ((m.get? id).map fun op => op.operands.count v).getD 0

/-- Links and lists agree: an operation stands once in the list that its link names, and in none without a
link. -/
structure Linked (m : Module) : Prop where
  attached : ∀ id op, m.get? id = some op → ∀ place, op.parent = some place →
    (m.ops? place).map (List.count id) = some 1
  detached : ∀ id op, m.get? id = some op → op.parent = none → id ∉ m.body.ops ∧ ∀ x, ¬ m.Lists x id

/-- The value that is used in the place of another one when an operation with this result gives way to these
values. -/
def successor (result : Option ValueId) (ws : List ValueId) (v : ValueId) : ValueId :=
  if result = some v then ws.headD v else v

/-- `m'` is `m` with operations in the place of one, which is gone with all that is nested in it. What is left
of an operation without its lists, and every other list, is as before but for the values that are used. -/
structure Spliced (m m' : Module) (id : OpId) (old : Op) (place : Place) (new : List OpId)
    (ws : List ValueId) : Prop where
  list : ∃ before after, m.ops? place = some (before ++ id :: after) ∧
    m'.ops? place = some (before ++ new ++ after)
  placed : ∀ x ∈ new, ∃ op, m'.get? x = some op ∧ op.parent = some place
  gone : ∀ x, m.Inside id x → m'.get? x = none
  unused : ∀ x op v, m'.get? x = some op → old.result = some v → v ∉ op.operands
  heads : ∀ x, ¬ m.Inside id x → m'.head? x = (m.head? x).map fun op =>
    { op with operands := op.operands.map (successor old.result ws),
              parent := if x ∈ new then some place else op.parent }
  lists : ∀ q, q ≠ place → (∀ owner, q.owner? = some owner → ¬ m.Inside id owner) → m'.ops? q = m.ops? q
  args : m'.body.args = m.body.args

section Decide

def live (m : Module) : List (OpId × Op) :=
  m.slots.toList.zipIdx.filterMap fun (slot, index) => slot.op.map fun op => (⟨index, slot.generation⟩, op)

theorem mem_live : (id, op) ∈ m.live ↔ m.get? id = some op := by
  obtain ⟨index, generation⟩ := id
  rw [get?_eq_some, live, List.mem_filterMap]
  constructor
  · rintro ⟨⟨⟨g, content⟩, i⟩, hmem, he⟩
    have hslot : m.slots[i]? = some ⟨g, content⟩ := by simpa using List.mk_mem_zipIdx_iff_getElem?.mp hmem
    obtain ⟨op', rfl, he⟩ := Option.map_eq_some_iff.mp he
    cases he
    exact hslot
  · intro hslot
    exact ⟨(⟨generation, some op⟩, index), List.mk_mem_zipIdx_iff_getElem?.mpr (by simpa using hslot), rfl⟩

theorem linked_iff : m.Linked ↔ ∀ e ∈ m.live,
    (∀ place ∈ e.2.parent, (m.ops? place).map (List.count e.1) = some 1) ∧
      (e.2.parent = none → e.1 ∉ m.body.ops ∧ ∀ e' ∈ m.live, ∀ r ∈ e'.2.regions, e.1 ∉ r.ops) := by
  constructor
  · intro h e he
    have hop := mem_live.mp he
    refine ⟨fun place hplace => h.attached _ _ hop place hplace, fun hnone => ?_⟩
    obtain ⟨hbody, hlists⟩ := h.detached _ _ hop hnone
    exact ⟨hbody, fun e' he' r hr hmem => hlists e'.1 ⟨e'.2, r, mem_live.mp he', hr, hmem⟩⟩
  · intro h
    refine ⟨fun id op hop place hplace => (h _ (mem_live.mpr hop)).1 place hplace, fun id op hop hnone => ?_⟩
    obtain ⟨hbody, hlists⟩ := (h _ (mem_live.mpr hop)).2 hnone
    refine ⟨hbody, fun x hx => ?_⟩
    obtain ⟨op', r, hop', hr, hmem⟩ := hx
    exact hlists _ (mem_live.mpr hop') r hr hmem

instance : DecidablePred Linked := fun _ => decidable_of_iff _ linked_iff.symm

theorem Inside.mem {S : List OpId} (hid : id ∈ S)
    (hclosed : ∀ e ∈ m.live, e.1 ∈ S → ∀ r ∈ e.2.regions, ∀ y ∈ r.ops, y ∈ S)
    (h : m.Inside id x) : x ∈ S := by
  induction h with
  | refl => exact hid
  | tail _ hyz ih =>
    obtain ⟨op, r, hop, hr, hz⟩ := hyz
    exact hclosed _ (mem_live.mpr hop) ih r hr _ hz

end Decide

theorem Without.ops? (h : Without P m m') {q : Place} (hq : ∀ owner, q.owner? = some owner → ¬ P owner) :
    m'.ops? q = m.ops? q := by
  cases q with
  | top => rw [Module.ops?, Module.ops?, h.body]
  | nested owner index => rw [Module.ops?, Module.ops?, h.kept owner (hq owner rfl)]

theorem Linked.not_inside (h : m.Linked) (hop : m.get? x = some op) (hparent : op.parent = none)
    (hne : x ≠ id) :
    ¬ m.Inside id x := by
  intro hx
  obtain rfl | ⟨y, -, hyx⟩ := Relation.ReflTransGen.cases_tail hx
  · exact hne rfl
  · exact (h.detached x op hop hparent).2 y hyx

section Rewired

theorem get?_rewired (husers : m.ExactUsers) (result : Option ValueId) (ws : List ValueId) (x : OpId) :
    (m.rewired result ws).get? x = (m.get? x).map (Op.rename (successor result ws)) := by
  have hsame (h : successor result ws = fun v => v) :
      m.get? x = (m.get? x).map (Op.rename (successor result ws)) := by
    rw [h, Op.rename_id, Option.map_id']
  cases result with
  | none => exact hsame rfl
  | some v =>
    cases ws with
    | nil => exact hsame (funext fun u => by simp [successor])
    | cons w ws =>
      by_cases hne : v = w
      · subst hne
        rw [rewired, replaceUses, if_pos rfl]
        refine hsame (funext fun u => ?_)
        by_cases hu : v = u <;> simp [successor, hu]
      · have hτ : successor (some v) (w :: ws) = ValueId.redirect v w := by
          funext u
          simp [successor, ValueId.redirect, eq_comm]
        rw [hτ]
        exact get?_replaceUses_of_listed hne fun op hop hv => (mem_usersOf (husers v x) hop).mpr hv

theorem head?_rewired (husers : m.ExactUsers) (x : OpId) :
    (m.rewired old.result ws).head? x = (m.head? x).map (Op.rename (successor old.result ws)) := by
  rw [head?, get?_rewired husers, head?, Option.map_map, Option.map_map]
  rfl

theorem body_rewired (result : Option ValueId) (ws : List ValueId) : (m.rewired result ws).body = m.body := by
  cases result with
  | none => rfl
  | some v =>
    cases ws with
    | nil => rfl
    | cons w ws =>
      by_cases hne : v = w
      · rw [rewired, replaceUses, if_pos hne]
      · exact (sameSlots_replaceUses hne).2.1

theorem ops?_rewired (husers : m.ExactUsers) (q : Place) : (m.rewired old.result ws).ops? q = m.ops? q := by
  cases q with
  | top => rw [ops?, body_rewired, ops?]
  | nested owner index =>
    rw [ops?, get?_rewired husers, ops?]
    cases m.get? owner <;> rfl

/-- A value without users is no operand. One that gives way to itself keeps its users, so that is for the test
of them to say. -/
theorem not_mem_operands_rewired (husers : m.ExactUsers) (hunused : (m.rewired (some v) ws).usersOf v = [])
    (hop : (m.rewired (some v) ws).get? x = some op) : v ∉ op.operands := by
  intro hv
  obtain ⟨op, hlive, rfl⟩ := Option.map_eq_some_iff.mp ((get?_rewired husers _ ws x).symm.trans hop)
  obtain ⟨u, hu, huv⟩ := List.mem_map.mp hv
  obtain rfl : v = u := by
    by_contra hne
    have hsame : u = v := by simpa [successor, hne] using huv
    exact hne hsame.symm
  have hsame : m.rewired (some v) ws = m := by
    cases ws with
    | nil => rfl
    | cons w ws =>
      have hw : w = v := by simpa [successor] using huv
      rw [rewired, replaceUses, if_pos hw.symm]
  rw [hsame] at hunused
  exact List.ne_nil_of_mem ((mem_usersOf (husers v x) hlive).mpr hu) hunused

end Rewired

section Swapped

theorem regions_swapped (hne : place.owner? ≠ some x) :
    ((m.swapped place ids new id).get? x).map Op.regions = (m.get? x).map Op.regions := by
  have hmoved (m : Module) (ids : List OpId) (parent : Option Place) :
      ((m.moved ids parent).get? x).map Op.regions = (m.get? x).map Op.regions := by
    rw [get?_moved]
    split
    · rw [Option.map_map]
      rfl
    · rfl
  rw [swapped, hmoved, hmoved, get?_relist _ hne]

theorem ExactUsers.swapped (h : m.ExactUsers) (place : Place) (ids new : List OpId) (id : OpId) :
    (m.swapped place ids new id).ExactUsers := by
  intro v x
  have hcount (m : Module) : (m.get? x).map (fun op => op.operands.count v) = (m.head? x).map fun op =>
      op.operands.count v := by
    rw [head?, Option.map_map]
    rfl
  rw [usersOf_swapped, h v x, hcount, hcount, head?_swapped]
  split
  next he => subst he; rw [Option.map_map]; rfl
  next => split <;> simp [Option.map_map, Function.comp_def]

end Swapped

theorem spliced_of_replaceOp (husers : m.ExactUsers) (hlinked : m.Linked) (hop : m.get? id = some old)
    (hparent : old.parent = some place) (houtside : ∀ owner, place.owner? = some owner → ¬ m.Inside id owner)
    (hnew : ∀ x ∈ new, ∃ op, m.get? x = some op ∧ op.parent = none)
    (h : Edit.replaceOp id new ws m = .ok () m') : Spliced m m' id old place new ws := by
  obtain ⟨list, hlist, hcount⟩ := Option.map_eq_some_iff.mp (hlinked.attached id old hop place hparent)
  obtain ⟨before, after, rfl, hbefore⟩ :=
    List.eq_append_cons_of_mem (List.count_pos_iff.mp (by omega : 0 < list.count id))
  have hself : place.owner? ≠ some id := fun he => houtside id he .refl
  have hout : id ∉ new := by
    intro hmem
    obtain ⟨op, hop', hnone⟩ := hnew id hmem
    cases hop.symm.trans hop'
    cases hparent.symm.trans hnone
  have hnested (x : OpId) (hx : x ∈ new) : ¬ m.Inside id x := by
    obtain ⟨op, hop', hnone⟩ := hnew x hx
    exact hlinked.not_inside hop' hnone fun he => hout (he ▸ hx)
  rw [replaceOp_eq_erase hop hparent hlist hbefore (fun x hx => (hnew x hx).imp fun _ h => h.1)
    (Edit.length_of_replaceOp hop h)] at h
  -- Up to the erasure the lists inside the operation are as they were.
  have husers₁ := husers.swapped place (before ++ new ++ after) new id
  have hself₁ := (get?_rewired husers₁ old.result ws id).trans
    (congrArg (Option.map _) (get?_swapped_self place (before ++ new ++ after) new id hself hop hout))
  have hinside (x : OpId) :
      ((m.swapped place (before ++ new ++ after) new id).rewired old.result ws).Inside id x ↔
      m.Inside id x := by
    refine inside_congr fun y hy z => lists_congr ?_
    rw [get?_rewired husers₁, Option.map_map]
    exact regions_swapped fun he => houtside y he hy
  have hwithout := Edit.without_of_eraseWithin (fun op hop' => by cases hself₁.symm.trans hop'; rfl) h
  have hlists (q : Place) (hq : ∀ owner, q.owner? = some owner → ¬ m.Inside id owner) :
      m'.ops? q = if q = place then some (before ++ new ++ after) else m.ops? q := by
    rw [hwithout.ops? fun owner ho hi => hq owner ho ((hinside owner).mp hi), ops?_rewired husers₁,
      ops?_swapped, hlist]
    rfl
  have hheads (x : OpId) (hx : ¬ m.Inside id x) : m'.head? x = (m.head? x).map fun op =>
      { op with operands := op.operands.map (successor old.result ws),
                parent := if x ∈ new then some place else op.parent } := by
    have hne : x ≠ id := fun he => hx (he ▸ .refl)
    rw [head?, hwithout.kept x fun hi => hx ((hinside x).mp hi), ← head?, head?_rewired husers₁,
      head?_swapped, if_neg hne]
    split
    · rw [Option.map_map]
      rfl
    · rfl
  refine ⟨⟨before, after, hlist, ?_⟩, fun x hx => ?_, fun x hx => hwithout.gone x ((hinside x).mpr hx),
    fun x op v hop' hv => ?_, hheads, fun q hq ho => ?_, ?_⟩
  · rw [hlists place houtside, if_pos rfl]
  · obtain ⟨op, hop', -⟩ := hnew x hx
    have hhead := hheads x (hnested x hx)
    rw [head?, head?, hop'] at hhead
    obtain ⟨op', hop', he⟩ := Option.map_eq_some_iff.mp hhead
    exact ⟨op', hop', (congrArg Op.parent he).trans (if_pos hx)⟩
  · have hunused := Edit.unused_of_eraseWithin (v := v) hself₁ hv h
    rw [hv] at hunused hwithout
    exact not_mem_operands_rewired husers₁ hunused (hwithout.get? hop').2
  · rw [hlists q ho, if_neg hq]
  · rw [hwithout.body, body_rewired, bodyArgs_swapped]

theorem Spliced.outside (h : Spliced m m' id old place new ws) {owner : OpId}
    (ho : place.owner? = some owner) :
    ¬ m.Inside id owner := by
  intro hinside
  obtain ⟨before, after, -, hlist⟩ := h.list
  cases place with
  | top => cases ho
  | nested op index =>
    cases ho
    rw [ops?, h.gone owner hinside] at hlist
    cases hlist

/-- Replacing an operation by others that are in no list is a splice, unless the list that holds the operation
is nested in the operation itself. -/
theorem replaceOp_splices (husers : m.ExactUsers) (hlinked : m.Linked) (hop : m.get? id = some old)
    (hparent : old.parent = some place) (hnew : ∀ x ∈ new, ∃ op, m.get? x = some op ∧ op.parent = none)
    (h : Edit.replaceOp id new ws m = .ok () m') :
    Spliced m m' id old place new ws ↔ ∀ owner, place.owner? = some owner → ¬ m.Inside id owner :=
  ⟨fun hspliced _ ho => hspliced.outside ho,
    fun houtside => spliced_of_replaceOp husers hlinked hop hparent houtside hnew h⟩

/-- A conditional expression with operations in one of its branches, whose value is used twice by one
operation and once by one that is to stand in its place. -/
def sharedChoice : List Call :=
  [.createValue (.literal (.bool true)) [] (.plain .bool) [],
   .createValue (.literal (.int 1)) [] (.plain .int) [],
   .create .yield [⟨1⟩] [],
   .createValue .ifExpr [⟨0⟩] (.plain .int) [⟨[], [⟨1, 0⟩, ⟨2, 0⟩]⟩, {}],
   .createValue (.binary .add) [⟨2⟩, ⟨2⟩] (.plain .int) [],
   .create (.funcDef "main" .none) [] [⟨[], [⟨0, 0⟩, ⟨3, 0⟩, ⟨4, 0⟩]⟩],
   .pushFunction ⟨5, 0⟩,
   .createValue (.literal (.int 7)) [] (.plain .int) [],
   .createValue (.binary .mul) [⟨3⟩, ⟨2⟩] (.plain .int) []]

def sharedChoiceOp : Op := ⟨.ifExpr, [⟨0⟩], some ⟨2⟩, [⟨[], [⟨1, 0⟩, ⟨2, 0⟩]⟩, {}], some (.nested ⟨5, 0⟩ 0)⟩

theorem sharedChoice_spliced :
    (Call.run sharedChoice).ExactUsers ∧ (Call.run sharedChoice).Linked ∧
      (Call.run sharedChoice).get? ⟨3, 0⟩ = some sharedChoiceOp ∧
      ∃ m', Edit.replaceOp ⟨3, 0⟩ [⟨6, 0⟩, ⟨7, 0⟩] [⟨4⟩] (Call.run sharedChoice) = .ok () m' ∧
        Spliced (Call.run sharedChoice) m' ⟨3, 0⟩ sharedChoiceOp (.nested ⟨5, 0⟩ 0) [⟨6, 0⟩, ⟨7, 0⟩]
          [⟨4⟩] := by
  have husers : (Call.run sharedChoice).ExactUsers := (Call.sound_run sharedChoice).users
  have hlinked : (Call.run sharedChoice).Linked := by decide +kernel
  have hop : (Call.run sharedChoice).get? ⟨3, 0⟩ = some sharedChoiceOp := by decide +kernel
  have hnested {x : OpId} (h : (Call.run sharedChoice).Inside ⟨3, 0⟩ x) :
      x ∈ ([⟨1, 0⟩, ⟨2, 0⟩, ⟨3, 0⟩] : List OpId) :=
    h.mem (by decide) (by decide +kernel)
  have hnew : ∀ x ∈ ([⟨6, 0⟩, ⟨7, 0⟩] : List OpId), ((Call.run sharedChoice).get? x).map Op.parent =
      some none := by
    decide +kernel
  obtain ⟨_, h⟩ := Edit.exists_ok_left (x := Edit.replaceOp ⟨3, 0⟩ [⟨6, 0⟩, ⟨7, 0⟩] [⟨4⟩])
    (m := Call.run sharedChoice) (by decide +kernel)
  refine ⟨husers, hlinked, hop, _, h, (replaceOp_splices husers hlinked hop rfl
    (fun x hx => Option.map_eq_some_iff.mp (hnew x hx)) h).mpr fun owner ho hi => ?_⟩
  cases ho
  exact absurd (hnested hi) (by decide)

/-- Two loops, each of them in the body of the other one, and an operation in no list. -/
def selfNested : List Call :=
  [.create .pass [] [],
   .create .whileLoop [] [⟨[], [⟨0, 0⟩]⟩],
   .create .whileLoop [] [⟨[], [⟨1, 0⟩]⟩],
   .replaceOp ⟨0, 0⟩ [⟨2, 0⟩] [],
   .create .pass [] []]

def selfNestedOp : Op := ⟨.whileLoop, [], none, [⟨[], [⟨1, 0⟩]⟩], some (.nested ⟨1, 0⟩ 0)⟩

/-- The list that holds an operation is gone with the operation if it is nested in it, and with the list goes
what was to stand in it. -/
theorem selfNested_not_spliced :
    (Call.run selfNested).ExactUsers ∧ (Call.run selfNested).Linked ∧
      (Call.run selfNested).get? ⟨2, 0⟩ = some selfNestedOp ∧ ¬ (Call.run selfNested).Inside ⟨0, 1⟩ ⟨2, 0⟩ ∧
      ((Call.run selfNested).get? ⟨0, 1⟩).map Op.parent = some none ∧
      ∃ m', Edit.replaceOp ⟨2, 0⟩ [⟨0, 1⟩] [] (Call.run selfNested) = .ok () m' ∧ m'.get? ⟨0, 1⟩ = none ∧
        ¬ Spliced (Call.run selfNested) m' ⟨2, 0⟩ selfNestedOp (.nested ⟨1, 0⟩ 0) [⟨0, 1⟩] [] := by
  have houtside : ¬ (Call.run selfNested).Inside ⟨0, 1⟩ ⟨2, 0⟩ := fun h =>
    absurd (h.mem (S := [⟨0, 1⟩]) (by decide) (by decide +kernel)) (by decide)
  obtain ⟨_, h⟩ := Edit.exists_ok_left (x := Edit.replaceOp ⟨2, 0⟩ [⟨0, 1⟩] []) (m := Call.run selfNested)
    (by decide +kernel)
  have hgone : ((Edit.replaceOp ⟨2, 0⟩ [⟨0, 1⟩] []).left (Call.run selfNested)).get? ⟨0, 1⟩ = none := by
    decide +kernel
  refine ⟨(Call.sound_run selfNested).users, by decide +kernel, by decide +kernel,
    houtside, by decide +kernel, _, h, hgone, fun hspliced => ?_⟩
  obtain ⟨op, hop, -⟩ := hspliced.placed ⟨0, 1⟩ (by decide)
  cases hgone.symm.trans hop

end Module

end Choco.IR
