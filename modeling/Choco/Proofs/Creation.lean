import Choco.Proofs.Slots

namespace Choco.IR

def Op.moved (op : Op) : Option Place → Op
  | some place => { op with parent := some place }
  | none => op

namespace Module

variable {m : Module} {id owner : OpId} {values : Array ValueInfo} {i : Nat} {ty : ValueType}

theorem getD_addUser (users : Std.TreeMap Nat (List OpId)) (id : OpId) (v w : ValueId) :
    (addUser id users v).getD w.index [] =
      if v = w then id :: users.getD w.index [] else users.getD w.index [] := by
  obtain ⟨i⟩ := v
  obtain ⟨j⟩ := w
  simp only [addUser, Std.TreeMap.getD_insert, Nat.compare_eq_eq, ValueId.mk.injEq]
  by_cases h : i = j <;> simp [h]

theorem count_addUsers (operands : List ValueId) (users : Std.TreeMap Nat (List OpId)) (id id' : OpId)
    (v : ValueId) :
    ((operands.foldl (addUser id) users).getD v.index []).count id' =
      (users.getD v.index []).count id' + if id' = id then operands.count v else 0 := by
  induction operands generalizing users with
  | nil => simp
  | cons x xs ih =>
    rw [List.foldl_cons, ih, getD_addUser, List.count_cons]
    by_cases hx : x = v <;> by_cases hid : id' = id
    · subst hid; simp [hx]; omega
    · simp [hx, List.count_cons_of_ne (Ne.symm hid), hid]
    · simp [hx, hid]
    · simp [hx, hid]

def placeIn (owner : OpId) : (index : Nat) → List Region → OpId → Option Place
  | _, [], _ => none
  | index, r :: rs, id =>
    (placeIn owner (index + 1) rs id).or (if id ∈ r.ops then some (.nested owner index) else none)

theorem get?_foldl_setParent (ops : List OpId) (parent : Option Place) (id : OpId) :
    (ops.foldl (setParent · parent) m).get? id =
      if id ∈ ops then (m.get? id).map fun op => { op with parent } else m.get? id := by
  induction ops generalizing m with
  | nil => simp
  | cons x xs ih =>
    rw [List.foldl_cons, ih, setParent, get?_updateOp]
    by_cases hx : id = x
    · subst hx
      by_cases hxs : id ∈ xs
      · cases m.get? id <;> simp [hxs]
      · simp [hxs]
    · simp [hx]

structure SameBut (m m' : Module) : Prop where
  free : m'.free = m.free
  users : m'.users = m.users
  body : m'.body = m.body
  empty : ∀ i g : Nat, m'.slots[i]? = some ⟨g, none⟩ ↔ m.slots[i]? = some ⟨g, none⟩

theorem SameBut.refl (m : Module) : SameBut m m := ⟨rfl, rfl, rfl, fun _ _ => Iff.rfl⟩

theorem SameBut.trans {m₁ m₂ m₃ : Module} (h : SameBut m₁ m₂) (h' : SameBut m₂ m₃) : SameBut m₁ m₃ :=
  ⟨h'.free.trans h.free, h'.users.trans h.users, h'.body.trans h.body,
    fun i g => (h'.empty i g).trans (h.empty i g)⟩

theorem sameBut_updateOp (id : OpId) (f : Op → Op) : SameBut m (m.updateOp id f) :=
  ⟨rfl, rfl, rfl, slots_updateOp_none id f⟩

theorem sameBut_foldl_setParent (ops : List OpId) (parent : Option Place) :
    SameBut m (ops.foldl (setParent · parent) m) := by
  induction ops generalizing m with
  | nil => exact .refl m
  | cons x xs ih => exact (sameBut_updateOp x _).trans ih

theorem values_foldl_setParent (ops : List OpId) (parent : Option Place) :
    (ops.foldl (setParent · parent) m).values = m.values := by
  induction ops generalizing m with
  | nil => rfl
  | cons x xs ih => exact ih.trans rfl

theorem sameBut_adoptAll (id : OpId) (index : Nat) (regions : List Region) :
    SameBut m (m.adoptAll id index regions) := by
  induction regions generalizing m index with
  | nil => exact .refl m
  | cons r rs ih =>
    have hp : SameBut m _ := sameBut_foldl_setParent r.ops (some (.nested id index))
    have ha : SameBut m (m.adopt id index r) := ⟨hp.free, hp.users, hp.body, hp.empty⟩
    exact ha.trans (ih (index + 1))

theorem get?_adoptAll (id : OpId) (index : Nat) (regions : List Region) (id' : OpId) :
    (m.adoptAll id index regions).get? id' = (m.get? id').map fun op =>
      op.moved (placeIn id index regions id') := by
  induction regions generalizing m index with
  | nil => simp [adoptAll, placeIn, Op.moved]
  | cons r rs ih =>
    rw [adoptAll, ih, placeIn]
    have hget : (m.adopt id index r).get? id' =
        if id' ∈ r.ops then (m.get? id').map fun op => { op with parent := some (.nested id index) }
        else m.get? id' := get?_foldl_setParent r.ops (some (.nested id index)) id'
    rw [hget]
    cases hp : placeIn id (index + 1) rs id' <;> cases hm : m.get? id' <;>
      by_cases hr : id' ∈ r.ops <;> simp [hr, Op.moved]

theorem values_adoptAll (id : OpId) (index : Nat) (regions : List Region) :
    (m.adoptAll id index regions).values =
      regions.foldl (fun values r => r.args.foldl (setOwner id) values) m.values := by
  induction regions generalizing m index with
  | nil => rfl
  | cons r rs ih =>
    rw [adoptAll, ih, List.foldl_cons, adopt, values_foldl_setParent]

theorem values_adoptAll_of_no_args (id : OpId) (index : Nat) (regions : List Region)
    (h : ∀ r ∈ regions, r.args = []) : (m.adoptAll id index regions).values = m.values := by
  rw [values_adoptAll]
  generalize m.values = values
  induction regions with
  | nil => rfl
  | cons r rs ih =>
    rw [List.foldl_cons, h r (by simp), List.foldl_nil]
    exact ih fun r' hr' => h r' (by simp [hr'])

theorem get?_fillSlot (h : m.slots[id.index]? = some ⟨id.generation, none⟩) (op : Op) (id' : OpId) :
    ({ m with slots := m.slots.modify id.index fun slot => { slot with op := some op } } : Module).get? id' =
      if id' = id then some op else m.get? id' := by
  obtain ⟨i, g⟩ := id
  obtain ⟨i', g'⟩ := id'
  simp only [get?, Array.getElem?_modify, OpId.mk.injEq]
  by_cases hi : i' = i
  · subst hi
    rw [h]
    by_cases hg : g' = g
    · simp [hg]
    · simp [hg, Ne.symm hg]
  · simp [hi, Ne.symm hi]

theorem reserve_empty (h : m.Sound) :
    m.reserve.2.slots[m.reserve.1.index]? = some ⟨m.reserve.1.generation, none⟩ := by
  unfold reserve
  cases hf : m.free with
  | nil => simp
  | cons i rest =>
    obtain ⟨g, hg⟩ := (h.mem_free i).mp (by simp [hf])
    have hlt : i < m.slots.size := (Array.getElem?_eq_some_iff.mp hg).1
    have he : m.slots[i] = ⟨g, none⟩ := (Array.getElem?_eq_some_iff.mp hg).2
    simp [Array.getD, hlt, he]

theorem get?_reserve (id : OpId) : m.reserve.2.get? id = m.get? id := by
  unfold reserve
  cases hf : m.free with
  | cons i rest => rfl
  | nil =>
    simp only [get?, Array.getElem?_push]
    by_cases hi : id.index = m.slots.size
    · simp [hi]
    · simp [hi]

theorem get?_reserve_self (h : m.Sound) : m.get? m.reserve.1 = none := by
  rw [← get?_reserve]
  unfold get?
  rw [reserve_empty h]
  simp

theorem mem_free_reserve (h : m.Sound) (i : Nat) :
    i ∈ m.reserve.2.free ↔ (∃ g, m.reserve.2.slots[i]? = some ⟨g, none⟩) ∧ i ≠ m.reserve.1.index := by
  unfold reserve
  cases hf : m.free with
  | cons j rest =>
    have hmem := h.mem_free i
    have hnd := h.free_nodup
    rw [hf] at hmem hnd
    simp only [← hmem, List.mem_cons]
    have hj : j ∉ rest := (List.nodup_cons.mp hnd).1
    constructor
    · intro hi
      exact ⟨.inr hi, fun he => hj (he ▸ hi)⟩
    · rintro ⟨rfl | hi, hne⟩
      · exact absurd rfl hne
      · exact hi
  | nil =>
    have hmem := h.mem_free i
    rw [hf] at hmem
    simp only [List.not_mem_nil, false_iff, not_exists] at hmem
    simp only [List.not_mem_nil, Array.getElem?_push, false_iff, not_and]
    rintro ⟨g, hg⟩ hne
    rw [if_neg hne] at hg
    exact hmem g hg

theorem result_setOwner (v : ValueId) (h : values[i]? = some ⟨ty, .result id⟩) :
    (setOwner owner values v)[i]? = some ⟨ty, .result id⟩ := by
  rw [setOwner, Array.getElem?_modify, h]
  split <;> rfl

theorem result_foldl_setOwner (args : List ValueId) (h : values[i]? = some ⟨ty, .result id⟩) :
    (args.foldl (setOwner owner) values)[i]? = some ⟨ty, .result id⟩ := by
  induction args generalizing values with
  | nil => exact h
  | cons v vs ih => exact ih (result_setOwner v h)

theorem result_setOwners (regions : List Region) (h : values[i]? = some ⟨ty, .result id⟩) :
    (regions.foldl (fun values r => r.args.foldl (setOwner owner) values) values)[i]? = some
      ⟨ty, .result id⟩ := by
  induction regions generalizing values with
  | nil => exact h
  | cons r rs ih => exact ih (result_foldl_setOwner r.args h)

section Fill

variable {id : OpId} {kind : Kind} {operands : List ValueId} {result : Option ValueId} {regions : List Region}

theorem get?_fill (hempty : m.slots[id.index]? = some ⟨id.generation, none⟩) (id' : OpId) :
    (m.fill id kind operands result regions).get? id' =
      if id' = id then some ⟨kind, operands, result, regions, none⟩
      else (m.get? id').map fun op => op.moved (placeIn id 0 regions id') := by
  have hslot := (sameBut_adoptAll (m := { m with users := operands.foldl (addUser id) m.users })
    id 0 regions).empty id.index id.generation
  rw [fill, get?_fillSlot (hslot.mpr hempty), get?_adoptAll]
  rfl

theorem usersOf_fill (v : ValueId) :
    (m.fill id kind operands result regions).usersOf v = (operands.foldl (addUser id) m.users).getD
      v.index [] := by
  have h :=
    (sameBut_adoptAll (m := { m with users := operands.foldl (addUser id) m.users }) id 0 regions).users
  exact congrArg (fun users : Std.TreeMap Nat (List OpId) => users.getD v.index []) h

theorem values_fill :
    (m.fill id kind operands result regions).values =
      regions.foldl (fun values r => r.args.foldl (setOwner id) values) m.values :=
  values_adoptAll id 0 regions

theorem body_fill : (m.fill id kind operands result regions).body = m.body :=
  (sameBut_adoptAll id 0 regions).body

theorem free_fill : (m.fill id kind operands result regions).free = m.free :=
  (sameBut_adoptAll id 0 regions).free

theorem empty_fill (hempty : m.slots[id.index]? = some ⟨id.generation, none⟩) (i g : Nat) :
    (m.fill id kind operands result regions).slots[i]? = some ⟨g, none⟩ ↔
      m.slots[i]? = some ⟨g, none⟩ ∧ i ≠ id.index := by
  have hsame := sameBut_adoptAll (m := { m with users := operands.foldl (addUser id) m.users }) id 0 regions
  have hslot := (hsame.empty id.index id.generation).mpr hempty
  simp only [fill, Array.getElem?_modify]
  by_cases hi : id.index = i
  · subst hi
    rw [hslot]
    simp
  · rw [if_neg hi, hsame.empty]
    exact ⟨fun h => ⟨h, Ne.symm hi⟩, fun h => h.1⟩

theorem fill_sound (hempty : m.slots[id.index]? = some ⟨id.generation, none⟩)
    (hnodup : m.free.Nodup)
    (hfree : ∀ i, i ∈ m.free ↔ (∃ g, m.slots[i]? = some ⟨g, none⟩) ∧ i ≠ id.index)
    (husers : ∀ v id, (m.usersOf v).count id = ((m.get? id).map fun op => op.operands.count v).getD 0)
    (hresults : ∀ id op v, m.get? id = some op → op.result = some v →
      ∃ ty, m.values[v.index]? = some ⟨ty, .result id⟩)
    (hresult : ∀ v, result = some v → ∃ ty, m.values[v.index]? = some ⟨ty, .result id⟩) :
    (m.fill id kind operands result regions).Sound where
  free_nodup := by rw [free_fill]; exact hnodup
  mem_free i := by
    rw [free_fill, hfree]
    constructor
    · rintro ⟨⟨g, hg⟩, hi⟩
      exact ⟨g, (empty_fill hempty i g).mpr ⟨hg, hi⟩⟩
    · rintro ⟨g, hg⟩
      obtain ⟨hg, hi⟩ := (empty_fill hempty i g).mp hg
      exact ⟨⟨g, hg⟩, hi⟩
  users v id' := by
    have hold := husers v id'
    have hnone : m.get? id = none := by simp [get?, hempty]
    rw [usersOf_fill, count_addUsers, get?_fill hempty]
    rw [usersOf] at hold
    rw [hold]
    by_cases hid : id' = id
    · subst hid; simp [hnone]
    · cases hop : m.get? id' with
      | none => simp [hid]
      | some op => cases hp : placeIn id 0 regions id' <;> simp [hid, Op.moved]
  results id' op v hop hv := by
    rw [get?_fill hempty] at hop
    rw [values_fill]
    by_cases hid : id' = id
    · subst hid
      rw [if_pos rfl, Option.some.injEq] at hop
      subst hop
      obtain ⟨ty, hty⟩ := hresult v hv
      exact ⟨ty, result_setOwners regions hty⟩
    · rw [if_neg hid, Option.map_eq_some_iff] at hop
      obtain ⟨old, hold, rfl⟩ := hop
      have hr : old.result = some v := by
        cases hp : placeIn id 0 regions id' <;> simpa [Op.moved, hp] using hv
      obtain ⟨ty, hty⟩ := hresults id' old v hold hr
      exact ⟨ty, result_setOwners regions hty⟩

end Fill

end Module

end Choco.IR
