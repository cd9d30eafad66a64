import Choco.Proofs.ExactUsers

namespace Choco.IR

variable {id : OpId} {v : ValueId} {ty : ValueType} {m : Module}

namespace Module

variable {m m' m'' : Module} {id' : OpId} {kind : Kind} {operands : List ValueId} {result : Option ValueId}
  {regions : List Region}

def Spent (m : Module) (id : OpId) : Prop :=
  ∃ slot, m.slots[id.index]? = some slot ∧ id.generation < slot.generation

theorem Spent.get? (h : m.Spent id) : m.get? id = none := by
  obtain ⟨slot, hslot, hlt⟩ := h
  simp [Module.get?, hslot, Nat.ne_of_gt hlt]

theorem Spent.updateOp (h : m.Spent id') (id : OpId) (f : Op → Op) : (m.updateOp id f).Spent id' := by
  obtain ⟨slot, hslot, hlt⟩ := h
  simp only [Spent, Module.updateOp, Array.getElem?_modify, hslot]
  by_cases hi : id.index = id'.index
  · by_cases hg : slot.generation = id.generation <;> simp [hi, hg, hlt]
    exact hg ▸ hlt
  · simp [hi, hlt]

theorem Spent.adoptAll (h : m.Spent id') (id : OpId) (index : Nat) (regions : List Region) :
    (m.adoptAll id index regions).Spent id' := by
  have hparents (ids : List OpId) (parent : Option Place) {m : Module} (h : m.Spent id') :
      (ids.foldl (setParent · parent) m).Spent id' := by
    induction ids generalizing m with
    | nil => exact h
    | cons x xs ih => exact ih (h.updateOp x _)
  induction regions generalizing m index with
  | nil => exact h
  | cons r rs ih =>
    have hadopt : (m.adopt id index r).Spent id' := hparents r.ops (some (.nested id index)) h
    exact ih hadopt (index + 1)

theorem Spent.fill (h : m.Spent id') : (m.fill id kind operands result regions).Spent id' := by
  have hm : Spent { m with users := operands.foldl (addUser id) m.users } id' := h
  obtain ⟨slot, hslot, hlt⟩ := hm.adoptAll id 0 regions
  simp only [Spent, Module.fill, Array.getElem?_modify, hslot]
  by_cases hi : id.index = id'.index <;> simp [hi, hlt]

theorem Spent.reserve (h : m.Spent id) : m.reserve.2.Spent id := by
  obtain ⟨slot, hslot, hlt⟩ := h
  have hi : id.index ≠ m.slots.size := Nat.ne_of_lt (Array.getElem?_eq_some_iff.mp hslot).1
  unfold Module.reserve
  cases m.free with
  | nil => exact ⟨slot, by simp [Array.getElem?_push, hi, hslot], hlt⟩
  | cons i rest => exact ⟨slot, hslot, hlt⟩

theorem value_eq_ok {info : ValueInfo} : m.value v = .ok info ↔ m.values[v.index]? = some info := by
  unfold value
  cases m.values[v.index]? <;> simp

theorem values_of_setOwners {owner : OpId} {values : Array ValueInfo} {i : Nat} (regions : List Region)
    (h : (regions.foldl (fun values r => r.args.foldl (setOwner owner) values) values)[i]? = some
      ⟨ty, .result id⟩) :
    values[i]? = some ⟨ty, .result id⟩ := by
  have hset (values : Array ValueInfo) (v : ValueId)
      (h : (setOwner owner values v)[i]? = some ⟨ty, .result id⟩) :
      values[i]? = some ⟨ty, .result id⟩ := by
    rw [setOwner, Array.getElem?_modify] at h
    split at h
    · obtain ⟨⟨ty', origin⟩, hinfo, he⟩ := Option.map_eq_some_iff.mp h
      cases origin with
      | result id' =>
        cases he
        exact hinfo
      | arg => cases he
    · exact h
  have hargs (args : List ValueId) (values : Array ValueInfo)
      (h : (args.foldl (setOwner owner) values)[i]? = some ⟨ty, .result id⟩) :
        values[i]? = some ⟨ty, .result id⟩ := by
    induction args generalizing values with
    | nil => exact h
    | cons v vs ih => exact hset values v (ih _ h)
  induction regions generalizing values with
  | nil => exact h
  | cons r rs ih => exact hargs r.args values (ih h)

/-- What calls leave of a module: an operation keeps its result or its handle is spent, spent handles stay so,
and values keep the operations that define them. A value that is new is the result of an operation, unless its
handle is spent. -/
structure Ages (m m' : Module) : Prop where
  live : ∀ id op, m.get? id = some op → (∃ op', m'.get? id = some op' ∧ op'.result = op.result) ∨ m'.Spent id
  spent : ∀ id, m.Spent id → m'.Spent id
  origins : ∀ (i : Nat) (ty : ValueType) (id : OpId), m.values[i]? = some ⟨ty, .result id⟩ →
    m'.values[i]? = some ⟨ty, .result id⟩
  issued : ∀ (v : ValueId) (ty : ValueType) (id : OpId), m'.values[v.index]? = some ⟨ty, .result id⟩ →
    m.values[v.index]? = some ⟨ty, .result id⟩ ∨ (∃ op, m'.get? id = some op ∧ op.result = some v) ∨
      m'.Spent id
  args : m'.body.args = m.body.args

namespace Ages

theorem refl (m : Module) : Ages m m :=
  ⟨fun _ op hop => .inl ⟨op, hop, rfl⟩, fun _ h => h, fun _ _ _ h => h, fun _ _ _ h => .inl h, rfl⟩

theorem trans (h : Ages m m') (h' : Ages m' m'') : Ages m m'' where
  live id op hop := by
    obtain ⟨op', hop', hresult⟩ | hspent := h.live id op hop
    · exact (h'.live id op' hop').imp_left fun ⟨op'', hop'', hresult'⟩ =>
        ⟨op'', hop'', hresult'.trans hresult⟩
    · exact .inr (h'.spent id hspent)
  spent id hspent := h'.spent id (h.spent id hspent)
  origins i ty id hv := h'.origins i ty id (h.origins i ty id hv)
  issued v ty id hv := by
    obtain hv | hnew := h'.issued v ty id hv
    · obtain hold | ⟨op, hop, hresult⟩ | hspent := h.issued v ty id hv
      · exact .inl hold
      · exact .inr ((h'.live id op hop).imp_left fun ⟨op', hop', hresult'⟩ =>
          ⟨op', hop', hresult'.trans hresult⟩)
      · exact .inr (.inr (h'.spent id hspent))
    · exact .inr hnew
  args := h'.args.trans h.args

theorem updateOp (m : Module) (id : OpId) (f : Op → Op) (hresult : ∀ op, (f op).result = op.result) :
    Ages m (m.updateOp id f) where
  live id' op hop := by
    rw [get?_updateOp]
    by_cases hid : id' = id
    · subst hid
      exact .inl ⟨f op, by simp [hop], hresult op⟩
    · exact .inl ⟨op, by rw [if_neg hid, hop], rfl⟩
  spent id' hspent := hspent.updateOp id f
  origins _ _ _ hv := hv
  issued _ _ _ hv := .inl hv
  args := rfl

theorem modifyRegion (m : Module) (place : Place) (f : Region → Region)
    (hargs : (f m.body).args = m.body.args ∨ place ≠ .top) :
    Ages m (m.modifyRegion place f) := by
  cases place with
  | top =>
    have hsame := refl m
    exact ⟨hsame.live, hsame.spent, hsame.origins, hsame.issued, hargs.resolve_right fun hne => hne rfl⟩
  | nested id index => exact .updateOp m id _ fun _ => rfl

theorem replaceUses (m : Module) (old new : ValueId) : Ages m (m.replaceUses old new) := by
  by_cases hne : old = new
  · rw [Module.replaceUses, if_pos hne]
    exact .refl m
  · rw [replaceUses_eq hne]
    have hfold (ids : List OpId) (f : Op → Op) (hf : ∀ op, (f op).result = op.result) (m : Module) :
        Ages m (ids.foldl (fun m id => m.updateOp id f) m) := by
      induction ids generalizing m with
      | nil => exact .refl m
      | cons id ids ih => exact (updateOp m id f hf).trans (ih _)
    have hsame := refl m
    have husers : Ages m { m with users := m.redirectedUsers old new } :=
      ⟨hsame.live, hsame.spent, hsame.origins, hsame.issued, rfl⟩
    apply husers.trans
    apply hfold
    intro _
    rfl

theorem addArg (m : Module) (region : Region) (ty : ValueType) : Ages m (m.addArg region ty).2.2 where
  live _ op hop := .inl ⟨op, hop, rfl⟩
  spent _ hspent := hspent
  origins _ _ _ hv := (Settles.push _ _).result hv
  issued v ty' id hv := by
    simp only [Module.addArg, newValue, Array.getElem?_push] at hv
    split at hv
    · cases hv
    · exact .inl hv
  args := rfl

theorem emptied (m : Module) (i : Nat) (free : List Nat) (users : Std.TreeMap Nat (List OpId)) :
    Ages m { m with slots := m.slots.modify i fun slot => ⟨slot.generation + 1, none⟩, free, users } where
  live id op hop := by
    simp only [Module.get?, Spent, Array.getElem?_modify]
    by_cases hi : i = id.index
    · exact .inr ⟨⟨id.generation + 1, none⟩, by simp [hi, get?_eq_some.mp hop], Nat.lt_succ_self _⟩
    · simp only [if_neg hi]
      exact .inl ⟨op, hop, rfl⟩
  spent id := by
    rintro ⟨slot, hslot, hlt⟩
    simp only [Spent, Array.getElem?_modify, hslot]
    by_cases hi : i = id.index
    · exact ⟨⟨slot.generation + 1, none⟩, by simp [hi], Nat.lt_succ_of_lt hlt⟩
    · exact ⟨slot, by simp [hi], hlt⟩
  origins _ _ _ hv := hv
  issued _ _ _ hv := .inl hv
  args := rfl

theorem fill {m₁ : Module} (hempty : m₁.slots[id.index]? = some ⟨id.generation, none⟩)
    (hget : ∀ id, m₁.get? id = m.get? id) (hspent : ∀ id, m.Spent id → m₁.Spent id) (hbody : m₁.body = m.body)
    (hsettles : Settles m.values m₁.values)
    (hvalues : ∀ (v : ValueId) (ty : ValueType) (id' : OpId), m₁.values[v.index]? = some ⟨ty, .result id'⟩ →
      m.values[v.index]? = some ⟨ty, .result id'⟩ ∨ id' = id ∧ result = some v) :
    Ages m (m₁.fill id kind operands result regions) where
  live id' op hop := by
    have hne : id' ≠ id := by
      rintro rfl
      rw [← hget, get?_eq_some, hempty] at hop
      cases hop
    rw [get?_fill hempty]
    refine .inl ⟨op.moved (placeIn id 0 regions id'), by simp [hne, hget, hop], ?_⟩
    cases placeIn id 0 regions id' <;> rfl
  spent id' h := (hspent id' h).fill
  origins i ty id' hv := by
    rw [values_fill]
    exact result_setOwners regions (hsettles.result hv)
  issued v ty id' hv := by
    rw [values_fill] at hv
    refine (hvalues v ty id' (values_of_setOwners regions hv)).imp_right ?_
    rintro ⟨rfl, hresult⟩
    rw [get?_fill hempty]
    exact .inl ⟨_, if_pos rfl, hresult⟩
  args := by rw [body_fill, hbody]

theorem create (hsound : m.Sound) (kind : Kind) (operands : List ValueId) (regions : List Region) :
    Ages m (m.create kind operands regions).2 := by
  obtain ⟨hvalues, -, hbody⟩ := reserve_rest (m := m)
  rw [create_eq]
  refine .fill (reserve_empty hsound) get?_reserve (fun _ => Spent.reserve) hbody
    (hvalues ▸ .refl _) fun v ty id hv => .inl ?_
  rwa [hvalues] at hv

theorem createValue (hsound : m.Sound) (kind : Kind) (operands : List ValueId) (ty : ValueType)
    (regions : List Region) :
    Ages m (m.createValue kind operands ty regions).2.2 := by
  obtain ⟨hvalues, -, hbody⟩ := reserve_rest (m := m)
  rw [createValue_eq]
  refine .fill (reserve_empty hsound) get?_reserve (fun _ => Spent.reserve) hbody
    (hvalues ▸ .push _ _) fun v ty' id hv => ?_
  simp only [newValue, hvalues, Array.getElem?_push] at hv
  split at hv
  next heq =>
    cases hv
    exact .inr ⟨rfl, by simp [newValue, hvalues, ← heq]⟩
  next => exact .inl hv

end Ages

theorem get?_create_self (hsound : m.Sound) (kind : Kind) (operands : List ValueId) (regions : List Region) :
    (m.create kind operands regions).2.get? m.reserve.1 = some ⟨kind, operands, none, regions, none⟩ := by
  rw [create_eq, get?_fill (reserve_empty hsound), if_pos rfl]

theorem get?_createValue_self (hsound : m.Sound) (kind : Kind) (operands : List ValueId) (ty : ValueType)
    (regions : List Region) :
    (m.createValue kind operands ty regions).2.2.get? m.reserve.1 =
      some ⟨kind, operands, some (m.createValue kind operands ty regions).2.1, regions, none⟩ := by
  have hempty : (m.reserve.2.newValue ty (.result m.reserve.1)).2.slots[m.reserve.1.index]? =
      some ⟨m.reserve.1.generation, none⟩ :=
    reserve_empty hsound
  rw [createValue_eq, get?_fill hempty, if_pos rfl]

/-- A handle that no operation has had yet. -/
def Unissued (m : Module) (id : OpId) : Prop := m.get? id = none ∧ ¬ m.Spent id

theorem Ages.unissued (h : Ages m m') (hid : m'.Unissued id) : m.Unissued id := by
  obtain ⟨hget, hspent⟩ := hid
  refine ⟨?_, fun hs => hspent (h.spent id hs)⟩
  cases hop : m.get? id with
  | none => rfl
  | some op =>
    obtain ⟨op', hop', -⟩ | hs := h.live id op hop
    · cases hget.symm.trans hop'
    · exact absurd hs hspent

theorem unissued_reserve (hsound : m.Sound) : m.Unissued m.reserve.1 := by
  refine ⟨get?_reserve_self hsound, fun hspent => ?_⟩
  obtain ⟨slot, hslot, hlt⟩ := hspent.reserve
  cases (reserve_empty hsound).symm.trans hslot
  exact Nat.lt_irrefl _ hlt

/-- The operation that is recorded as the origin of a value, whether or not it is still there. -/
def origin? (m : Module) (v : ValueId) : Option OpId :=
  match m.value v with
  | .ok ⟨_, .result id⟩ => some id
  | _ => none

end Module

namespace Edit

open Choco.IR.Module

variable {m₀ : Module} {m' : Module}

theorem ages_release (id : OpId) : Keeps (Ages m₀) (release id) := by
  intro m h
  cases hslot : m.slots[id.index]? >>= Slot.op with
  | none =>
    have hrun : release id m = .error (.internal .vanished) m := by simp only [release, hslot]
    rwa [left_error hrun]
  | some op =>
    rw [left]
    simp only [release, hslot]
    exact h.trans (.emptied _ _ _ _)

theorem ages_setParent (parent : Option Place) (id : OpId) : Keeps (Ages m₀) (setParent parent id) :=
  keeps_updateOp fun _ h => h.trans (.updateOp _ _ _ fun _ => rfl)

theorem ages_setKind (id : OpId) (kind : Kind) : Keeps (Ages m₀) (setKind id kind) :=
  keeps_updateOp fun _ h => h.trans (.updateOp _ _ _ fun _ => rfl)

theorem ages_updateOps (place : Place) (f : List OpId → List OpId) :
    Keeps (Ages m₀) (updateRegion place fun r => { r with ops := f r.ops }) :=
  keeps_updateRegion fun _ h => h.trans (.modifyRegion _ place _ (.inl rfl))

theorem ages_pushFunction (id : OpId) : Keeps (Ages m₀) (pushFunction id) :=
  (ages_setParent _ id).bind fun _ => keeps_update fun m h =>
    h.trans (.modifyRegion m .top (fun r => { r with ops := r.ops ++ [id] }) (.inl rfl))

theorem ages_eraseWithin (n : Nat) (id : OpId) : Keeps (Ages m₀) (eraseWithin n id) := by
  refine keeps_eraseWithin_of (fun {m₀ m n id op} h _ _ hnested => ?_) n id m₀
  exact Keeps.eraseUnused (fun place => ages_updateOps place _) (ages_setParent none) (hnested · m₀)
    (ages_release id) m h

theorem get?_of_release (h : release id m = .ok () m') : m'.get? id = none := by
  cases hslot : m.slots[id.index]? >>= Slot.op with
  | none =>
    simp only [release, hslot] at h
    cases h
  | some op =>
    obtain ⟨slot, hs, -⟩ := Option.bind_eq_some_iff.mp hslot
    simp only [release, hslot] at h
    cases h
    simp [Module.get?, Array.getElem?_modify, hs]

/-- An erasure that succeeds had an operation to erase, and its last act was to free the slot. -/
theorem get?_of_erase (h : erase id m = .ok () m') : (∃ op, m.get? id = some op) ∧ m'.get? id = none := by
  rw [erase] at h
  cases hn : m.depthBound with
  | zero =>
    rw [hn] at h
    cases h
  | succ n =>
    rw [hn] at h
    cases hop : m.get? id with
    | none =>
      have hrun : Edit.op id m = .error (.internal (.staleHandle id)) m := by
        simp [Edit.op, query, Module.op, hop]
      cases (Action.bind_error hrun).symm.trans h
    | some op =>
      refine ⟨⟨op, rfl⟩, ?_⟩
      by_cases hresult : ∀ v, op.result = some v → m.usersOf v = []
      · rw [eraseWithin_unused n hop hresult] at h
        have hlast {m : Module} {nested : Op → Edit PUnit}
            (h : (Edit.op id >>= fun op => nested op >>= fun _ => release id) m = .ok () m') :
              m'.get? id = none := by
          obtain ⟨_, m₁, -, h⟩ := Action.bind_eq_ok.mp h
          obtain ⟨_, m₂, -, h⟩ := Action.bind_eq_ok.mp h
          exact get?_of_release h
        cases hparent : op.parent with
        | none =>
          rw [hparent] at h
          exact hlast h
        | some place =>
          rw [hparent] at h
          obtain ⟨_, m₁, -, h⟩ := Action.bind_eq_ok.mp h
          exact hlast h
      · push Not at hresult
        obtain ⟨v, hv, hused⟩ := hresult
        rw [eraseWithin_used n hop hv hused] at h
        cases h

theorem ages_erase (id : OpId) : Keeps (Ages m₀) (erase id) := fun m h => ages_eraseWithin m.depthBound id m h

theorem ages_takeRegion (id : OpId) (index : Nat) : Keeps (Ages m₀) (takeRegion id index) := by
  refine (keeps_query _).bind fun r => ?_
  refine (keeps_updateRegion fun m h => h.trans (.modifyRegion m _ _ (.inr nofun))).bind fun _ => ?_
  exact (Keeps.forM (ages_setParent none)).bind fun _ => keeps_pure r

end Edit

namespace Call

open Choco.IR.Module

theorem ages_action (call : Call) (hsound : m.Sound) : Ages m (call.action.left m) := by
  have h := Ages.refl m
  cases call with
  | addArg region ty => exact .addArg m region ty
  | create kind operands regions => exact .create hsound kind operands regions
  | createValue kind operands ty regions => exact .createValue hsound kind operands ty regions
  | emit block kind operands ty => exact .createValue hsound kind operands ty []
  | emitVoid block kind operands => exact .create hsound kind operands []
  | pushFunction id => exact Edit.ages_pushFunction id m h
  | setKind id kind => exact Edit.ages_setKind id kind m h
  | replaceUses old new => exact .replaceUses m old new
  | replaceOp id newOps newResults =>
    exact Edit.Keeps.replaceOp Edit.ages_setParent (fun place ops => Edit.ages_updateOps place fun _ => ops)
      (fun old new => Edit.keeps_update fun m h => h.trans (.replaceUses m old new))
        (Edit.ages_erase id) newOps newResults m h
  | takeRegion id index => exact ((Edit.ages_takeRegion id index).bind fun _ => Edit.keeps_pure _) m h
  | erase id => exact Edit.ages_erase id m h

theorem run_append (calls later : List Call) :
    run (calls ++ later) = later.foldl (fun m call => call.action.left m) (run calls) := List.foldl_append

theorem ages_run (calls later : List Call) : Ages (run calls) (run (calls ++ later)) := by
  induction later generalizing calls with
  | nil =>
    rw [List.append_nil]
    exact .refl _
  | cons call later ih =>
    rw [List.append_cons]
    refine .trans ?_ (ih (calls ++ [call]))
    rw [run_append]
    exact ages_action call (sound_run calls)

/-- The operation that a value names as its origin has that value as its result, as long as it is there; and
the module's own list has no arguments. -/
theorem result_of_origin {calls : List Call} {op : Op}
    (hv : (run calls).values[v.index]? = some ⟨ty, .result id⟩) (hop : (run calls).get? id = some op) :
    op.result = some v := by
  obtain hold | ⟨op', hop', hresult⟩ | hspent := (ages_run [] calls).issued v ty id hv
  · simp [run] at hold
  · cases hop.symm.trans hop'
    exact hresult
  · cases hop.symm.trans hspent.get?

theorem args_run (calls : List Call) : (run calls).body.args = [] := (ages_run [] calls).args

/-- The handle of the operation that a call makes: the one that the call returns or puts at the end of the
list that is being written, or the recorded origin of the value that it returns. -/
def made? (m : Module) : Call → Option OpId
  | .create kind operands regions => some (m.create kind operands regions).1
  | .createValue kind operands ty regions => some (m.createValue kind operands ty regions).1
  | .emit block kind operands ty =>
    match Build.emit kind operands ty [] ⟨m, block.toArray⟩ with
    | .ok v b => b.module.origin? v
    | .error _ _ => none
  | .emitVoid block kind operands =>
    match Build.emitVoid kind operands [] ⟨m, block.toArray⟩ with
    | .ok _ b => b.block.back?
    | .error _ _ => none
  | _ => none

/-- The handles that a sequence of calls gives out, in order. -/
def handles (m : Module) : List Call → List OpId
  | [] => []
  | call :: calls => (call.made? m).toList ++ handles (call.action.left m) calls

theorem made?_unissued (hsound : m.Sound) {call : Call} (h : call.made? m = some id) :
    m.Unissued id ∧ ∃ op, (call.action.left m).get? id = some op := by
  suffices hid : m.reserve.1 = id ∧ ∃ op, (call.action.left m).get? m.reserve.1 = some op from
    hid.1 ▸ ⟨unissued_reserve hsound, hid.2⟩
  cases call with
  | create kind operands regions =>
    exact ⟨Option.some.inj h, _, get?_create_self hsound kind operands regions⟩
  | createValue kind operands ty regions =>
    exact ⟨Option.some.inj h, _, get?_createValue_self hsound kind operands ty regions⟩
  | emitVoid block kind operands =>
    have hlast : (block.toArray.push m.reserve.1).back? = some id := h
    rw [Array.back?_push] at hlast
    exact ⟨Option.some.inj hlast, _, get?_create_self hsound kind operands []⟩
  | emit block kind operands ty =>
    obtain ⟨-, hv, hvalues⟩ := createValue_made hsound kind operands ty [] nofun
    have horigin : (m.createValue kind operands ty []).2.2.origin? (m.createValue kind operands ty []).2.1 =
        some id := h
    rw [origin?, hv, value, hvalues, Array.getElem?_push_size] at horigin
    exact ⟨Option.some.inj horigin, _, get?_createValue_self hsound kind operands ty []⟩
  | _ => cases h

/-- Handles that are given out are new: none of them is one that an operation has had before. -/
theorem handles_new (hsound : m.Sound) (calls : List Call) :
    (handles m calls).Nodup ∧ ∀ id ∈ handles m calls, m.Unissued id := by
  induction calls generalizing m with
  | nil => exact ⟨List.nodup_nil, nofun⟩
  | cons call calls ih =>
    obtain ⟨hnodup, hnew⟩ := ih (keeps_action call m hsound)
    have hages := ages_action call hsound
    rw [handles]
    cases hmade : call.made? m with
    | none => exact ⟨hnodup, fun id hid => hages.unissued (hnew id hid)⟩
    | some id =>
      obtain ⟨hid, op, hop⟩ := made?_unissued hsound hmade
      refine ⟨List.nodup_cons.mpr ⟨fun hmem => ?_, hnodup⟩, fun id' hid' => ?_⟩
      · cases hop.symm.trans (hnew id hmem).1
      · obtain rfl | hid' := List.mem_cons.mp hid'
        exacts [hid, hages.unissued (hnew id' hid')]

/-- Whatever calls are made, failed ones included, the handles that are given out are distinct, and the free
list holds the empty slots, each once. A handle that was live and no longer is stays stale under all later
calls: to look it up is an error that names it, and a value that it defined has no defining operation, also
where its slot holds a new one. -/
theorem handles_distinct_stale (calls : List Call) :
    (handles {} calls).Nodup ∧
      (run calls).free.Nodup ∧ (∀ i, i ∈ (run calls).free ↔ ∃ g, (run calls).slots[i]? = some ⟨g, none⟩) ∧
      (∀ id, (Edit.erase id).succeeds (run calls) = true →
        (run calls).isLive id = true ∧ (run (calls ++ [.erase id])).isLive id = false) ∧
      ∀ later id, (run calls).isLive id = true → (run (calls ++ later)).isLive id = false → ∀ rest,
        (run (calls ++ later ++ rest)).isLive id = false ∧
        (run (calls ++ later ++ rest)).op id = .error (.internal (.staleHandle id)) ∧
        ∀ v ty, (run calls).value v = .ok ⟨ty, .result id⟩ →
          (run (calls ++ later ++ rest)).value v = .ok ⟨ty, .result id⟩ ∧
          (run (calls ++ later ++ rest)).definingOp? v = none := by
  have hsound := sound_run calls
  refine ⟨(handles_new sound_empty calls).1, hsound.free_nodup, hsound.mem_free, fun id herase => ?_,
    fun later id hlive hgone rest => ?_⟩
  · obtain ⟨_, hrun⟩ := Edit.exists_ok_left herase
    obtain ⟨⟨op, hop⟩, hnone⟩ := Edit.get?_of_erase hrun
    rw [run_append]
    exact ⟨by rw [isLive, hop]; rfl, by rw [isLive, List.foldl_cons, List.foldl_nil, action, hnone]; rfl⟩
  · obtain ⟨op, hop⟩ := Option.isSome_iff_exists.mp hlive
    -- A handle that is gone is spent, and so it stays.
    have hspent : (run (calls ++ later)).Spent id := by
      refine ((ages_run calls later).live id op hop).resolve_left ?_
      rintro ⟨op', hop', -⟩
      rw [isLive, hop'] at hgone
      cases hgone
    have hnone := ((ages_run (calls ++ later) rest).spent id hspent).get?
    refine ⟨by rw [isLive, hnone]; rfl, by rw [Module.op, hnone], fun v ty hv => ?_⟩
    have hages := (ages_run calls later).trans (ages_run (calls ++ later) rest)
    have hvalue := hages.origins _ _ _ (value_eq_ok.mp hv)
    exact ⟨value_eq_ok.mpr hvalue, by rw [definingOp?, hvalue]; exact hnone⟩

theorem reused_slot_stale :
    handles {} [.emit [] (.literal (.int 1)) [] .word, .erase ⟨0, 0⟩, .create .pass [] []] =
      [⟨0, 0⟩, ⟨0, 1⟩] ∧ (run [.emit [] (.literal (.int 1)) [] .word, .erase ⟨0, 0⟩, .create .pass [] []]).op
        ⟨0, 0⟩ = .error (.internal (.staleHandle ⟨0, 0⟩)) ∧
      (run [.emit [] (.literal (.int 1)) [] .word, .erase ⟨0, 0⟩, .create .pass [] []]).definingOp?
        ⟨0⟩ = none := by
  obtain ⟨-, -, -, -, hstale⟩ := handles_distinct_stale [.emit [] (.literal (.int 1)) [] .word]
  obtain ⟨-, hop, hvalue⟩ := hstale [.erase ⟨0, 0⟩] ⟨0, 0⟩ (by decide) (by decide) [.create .pass [] []]
  exact ⟨by decide, hop, (hvalue ⟨0⟩ .word rfl).2⟩

end Call

end Choco.IR
