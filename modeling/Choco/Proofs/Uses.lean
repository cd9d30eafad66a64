import Choco.Proofs.Edits

namespace Choco.IR

def ValueId.redirect (old new v : ValueId) : ValueId := if v = old then new else v

theorem ValueId.redirect_idem (old new v : ValueId) (h : old ≠ new) :
    redirect old new (redirect old new v) = redirect old new v := by
  by_cases hv : v = old <;> simp [redirect, hv, Ne.symm h]

theorem ValueId.count_map_redirect (old new : ValueId) (h : old ≠ new) (xs : List ValueId) (v : ValueId) :
    (xs.map (redirect old new)).count v =
      if v = old then 0 else if v = new then xs.count old + xs.count new else xs.count v := by
  induction xs with
  | nil => simp
  | cons x xs ih =>
    rw [List.map_cons, List.count_cons, ih, List.count_cons, List.count_cons, List.count_cons]
    by_cases hv : v = old <;> by_cases hw : v = new <;> by_cases hx : x = old
    · exact absurd (hv.symm.trans hw) h
    · exact absurd (hv.symm.trans hw) h
    · subst hv; simp [redirect, hx, Ne.symm h]
    · subst hv; simp [redirect, hx]
    · subst hw; subst hx; simp [redirect, h, Ne.symm h]; omega
    · subst hw; simp [redirect, hx, Ne.symm h]; omega
    · subst hx; simp [redirect, hv, hw, Ne.symm hv, Ne.symm hw]
    · simp [redirect, hv, hw, hx]

namespace Module

variable {m : Module} {id : OpId} {op : Op} {old new : ValueId}

theorem getD_dropUser (users : Std.TreeMap Nat (List OpId)) (id : OpId) (v w : ValueId) :
    (dropUser id users v).getD w.index [] =
      if v = w then (users.getD w.index []).erase id else users.getD w.index [] := by
  obtain ⟨i⟩ := v
  obtain ⟨j⟩ := w
  simp only [dropUser, ValueId.mk.injEq]
  by_cases hij : i = j
  · subst hij
    cases h : (users.getD i []).erase id with
    | nil => simp
    | cons x xs => simp
  · cases h : (users.getD i []).erase id with
    | nil => simp [Std.TreeMap.getD_erase, hij]
    | cons x xs => simp [Std.TreeMap.getD_insert, hij]

theorem count_dropUsers (operands : List ValueId) (users : Std.TreeMap Nat (List OpId)) (id id' : OpId)
    (v : ValueId) :
    ((operands.foldl (dropUser id) users).getD v.index []).count id' =
      (users.getD v.index []).count id' - if id' = id then operands.count v else 0 := by
  induction operands generalizing users with
  | nil => simp
  | cons x xs ih =>
    rw [List.foldl_cons, ih, getD_dropUser, List.count_cons]
    by_cases hx : x = v <;> by_cases hid : id' = id
    · subst hid; simp [hx, List.count_erase_self]; omega
    · simp [hx, List.count_erase_of_ne hid, hid]
    · simp [hx, hid]
    · simp [hx, hid]

theorem get?_released (h : m.get? id = some op) (id' : OpId) :
    (Edit.released m id op).get? id' = if id' = id then none else m.get? id' := by
  have hs := get?_eq_some.mp h
  obtain ⟨i, g⟩ := id
  obtain ⟨i', g'⟩ := id'
  simp only [Edit.released, get?, Array.getElem?_modify, OpId.mk.injEq]
  by_cases hi : i' = i
  · subst hi
    rw [hs]
    by_cases hg : g' = g
    · simp [hg]
    · simp [hg, Ne.symm hg]
  · simp [hi, Ne.symm hi]

theorem count_usersOf_released (h : m.Sound) (hop : m.get? id = some op)
    (hunused : ∀ v, op.result = some v → m.usersOf v = []) (v : ValueId) (id' : OpId) :
    ((Edit.released m id op).usersOf v).count id' = if id' = id then 0 else (m.usersOf v).count id' := by
  have hcount := h.users v id
  rw [hop, usersOf] at hcount
  have hdrop := count_dropUsers op.operands m.users id id' v
  have hkey : ((op.operands.foldl (dropUser id) m.users).getD v.index []).count id' =
      if id' = id then 0 else (m.usersOf v).count id' := by
    rw [hdrop]
    by_cases hid : id' = id
    · subst hid; simp [hcount]
    · simp [hid, usersOf]
  cases hr : op.result with
  | none => simpa [Edit.released, usersOf, hr] using hkey
  | some w =>
    by_cases hw : w = v
    · subst hw
      have hnil := hunused w hr
      rw [usersOf] at hnil
      simp [Edit.released, usersOf, hr, hnil]
    · have hne : w.index ≠ v.index := fun he => hw (by cases w; cases v; exact congrArg ValueId.mk he)
      simpa [Edit.released, usersOf, hr, Std.TreeMap.getD_erase, hne] using hkey

theorem Sound.released (h : m.Sound) (hop : m.get? id = some op)
    (hunused : ∀ v, op.result = some v → m.usersOf v = []) : (Edit.released m id op).Sound where
  free_nodup := by
    refine List.nodup_cons.mpr ⟨fun hmem => ?_, h.free_nodup⟩
    obtain ⟨g, hg⟩ := (h.mem_free id.index).mp hmem
    rw [get?_eq_some.mp hop] at hg
    simp at hg
  mem_free i := by
    have hs := get?_eq_some.mp hop
    have hfree := h.mem_free i
    simp only [Edit.released, List.mem_cons, Array.getElem?_modify]
    by_cases hi : i = id.index
    · subst hi; simp [hs]
    · simp [hi, Ne.symm hi, hfree]
  users v id' := by
    rw [count_usersOf_released h hop hunused, get?_released hop]
    by_cases hid : id' = id
    · simp [hid]
    · rw [if_neg hid, if_neg hid, h.users]
  results id' op' v hop' hv := by
    rw [get?_released hop] at hop'
    by_cases hid : id' = id
    · simp [hid] at hop'
    · rw [if_neg hid] at hop'
      exact h.results id' op' v hop' hv

def redirectedUsers (m : Module) (old new : ValueId) : Std.TreeMap Nat (List OpId) :=
  let users := m.users.erase old.index
  if (m.usersOf old).isEmpty then users
  else users.insert new.index (m.usersOf old ++ users.getD new.index [])

theorem replaceUses_eq (hne : old ≠ new) :
    m.replaceUses old new = (m.usersOf old).foldl (fun m id => m.updateOp id fun op =>
      { op with operands := op.operands.map (ValueId.redirect old new) })
      { m with users := m.redirectedUsers old new } := by
  simp only [replaceUses, if_neg hne]
  rfl

theorem sameBut_foldl_updateOp (ids : List OpId) (f : Op → Op) :
    SameBut m (ids.foldl (fun m id => m.updateOp id f) m) := by
  induction ids generalizing m with
  | nil => exact .refl m
  | cons x xs ih => exact (sameBut_updateOp x f).trans ih

theorem values_foldl_updateOp (ids : List OpId) (f : Op → Op) :
    (ids.foldl (fun m id => m.updateOp id f) m).values = m.values := by
  induction ids generalizing m with
  | nil => rfl
  | cons x xs ih => exact ih

theorem usersOf_replaceUses (hne : old ≠ new) (v : ValueId) :
    (m.replaceUses old new).usersOf v =
      if v = old then [] else if v = new then m.usersOf old ++ m.usersOf new else m.usersOf v := by
  have husers : (m.replaceUses old new).users = m.redirectedUsers old new := by
    rw [replaceUses_eq hne]
    exact (sameBut_foldl_updateOp _ _).users
  rw [usersOf, husers]
  obtain ⟨i⟩ := old
  obtain ⟨j⟩ := new
  obtain ⟨k⟩ := v
  have hij : i ≠ j := fun he => hne (congrArg ValueId.mk he)
  simp only [redirectedUsers, ValueId.mk.injEq]
  by_cases h : (m.usersOf ⟨i⟩).isEmpty = true
  · rw [if_pos h, List.isEmpty_iff.mp h]
    by_cases hk : k = i
    · subst hk; simp
    · by_cases hk' : k = j
      · subst hk'; simp [usersOf, Std.TreeMap.getD_erase, hij, Ne.symm hij]
      · simp [usersOf, Std.TreeMap.getD_erase, hk, hk', Ne.symm hk]
  · rw [if_neg h]
    by_cases hk : k = i
    · subst hk; simp [Std.TreeMap.getD_insert, Ne.symm hij]
    · by_cases hk' : k = j
      · subst hk'; simp [usersOf, Std.TreeMap.getD_erase, hij, Ne.symm hij]
      · simp [usersOf, Std.TreeMap.getD_insert, Std.TreeMap.getD_erase, hk, hk', Ne.symm hk, Ne.symm hk']

theorem get?_foldl_redirect (hne : old ≠ new) (ids : List OpId) (id' : OpId) :
    (ids.foldl
      (fun m id => m.updateOp id fun op => { op with operands := op.operands.map (ValueId.redirect old new) })
        m).get? id' =
      if id' ∈ ids then (m.get? id').map fun op =>
        { op with operands := op.operands.map (ValueId.redirect old new) }
      else m.get? id' := by
  induction ids generalizing m with
  | nil => simp
  | cons x xs ih =>
    rw [List.foldl_cons, ih, get?_updateOp]
    by_cases hx : id' = x
    · subst hx
      by_cases hxs : id' ∈ xs
      · cases m.get? id' with
        | none => simp [hxs]
        | some op => simp [hxs, Function.comp_def, ValueId.redirect_idem old new _ hne]
      · simp [hxs]
    · simp [hx]

theorem get?_replaceUses_of_listed (hne : old ≠ new) {id' : OpId}
    (h : ∀ op, m.get? id' = some op → old ∈ op.operands → id' ∈ m.usersOf old) :
    (m.replaceUses old new).get? id' =
      (m.get? id').map fun op => { op with operands := op.operands.map (ValueId.redirect old new) } := by
  rw [replaceUses_eq hne, get?_foldl_redirect hne]
  change (if id' ∈ m.usersOf old then (m.get? id').map _ else m.get? id') = _
  by_cases hmem : id' ∈ m.usersOf old
  · rw [if_pos hmem]
  · rw [if_neg hmem]
    cases hop : m.get? id' with
    | none => rfl
    | some op =>
      have hnot : old ∉ op.operands := fun hold => hmem (h op hop hold)
      have hmap : op.operands.map (ValueId.redirect old new) = op.operands := by
        refine (List.map_congr_left fun v hv => ?_).trans (List.map_id _)
        have hv' : v ≠ old := fun he => hnot (he ▸ hv)
        exact if_neg hv'
      simp [hmap]

theorem mem_usersOf {v : ValueId}
    (h : (m.usersOf v).count id = ((m.get? id).map fun op => op.operands.count v).getD 0)
    (hop : m.get? id = some op) : id ∈ m.usersOf v ↔ v ∈ op.operands := by
  rw [hop, Option.map_some, Option.getD_some] at h
  rw [← List.count_pos_iff, ← List.count_pos_iff, h]

theorem get?_replaceUses (h : m.Sound) (hne : old ≠ new) (id' : OpId) :
    (m.replaceUses old new).get? id' =
      (m.get? id').map fun op => { op with operands := op.operands.map (ValueId.redirect old new) } :=
  get?_replaceUses_of_listed hne fun _ hop hold => (mem_usersOf (h.users old id') hop).mpr hold

theorem values_replaceUses (old new : ValueId) : (m.replaceUses old new).values = m.values := by
  by_cases hne : old = new
  · simp [replaceUses, hne]
  · rw [replaceUses_eq hne]
    exact values_foldl_updateOp _ _

theorem sameSlots_replaceUses (hne : old ≠ new) :
    (m.replaceUses old new).free = m.free ∧ (m.replaceUses old new).body = m.body ∧
      ∀ i g : Nat, (m.replaceUses old new).slots[i]? = some ⟨g, none⟩ ↔ m.slots[i]? = some ⟨g, none⟩ := by
  rw [replaceUses_eq hne]
  have hs := sameBut_foldl_updateOp (m := { m with users := m.redirectedUsers old new }) (m.usersOf old)
    fun op => { op with operands := op.operands.map (ValueId.redirect old new) }
  exact ⟨hs.free, hs.body, hs.empty⟩

theorem Sound.replaceUses (h : m.Sound) (hne : old ≠ new) : (m.replaceUses old new).Sound where
  free_nodup := by rw [(sameSlots_replaceUses hne).1]; exact h.free_nodup
  mem_free i := by
    obtain ⟨hfree, -, hempty⟩ := sameSlots_replaceUses (m := m) hne
    rw [hfree, h.mem_free]
    exact exists_congr fun g => (hempty i g).symm
  users v id' := by
    rw [usersOf_replaceUses hne, get?_replaceUses h hne]
    have hold := h.users old id'
    have hnew := h.users new id'
    have hv := h.users v id'
    cases hop : m.get? id' with
    | none =>
      rw [hop] at hold hnew hv
      by_cases h₁ : v = old <;> by_cases h₂ : v = new <;> simp_all
    | some op =>
      rw [hop] at hold hnew hv
      simp only [Option.map_some, Option.getD_some] at hold hnew hv ⊢
      rw [ValueId.count_map_redirect old new hne]
      by_cases h₁ : v = old
      · simp [h₁]
      · by_cases h₂ : v = new
        · simp [h₂, Ne.symm hne, hold, hnew]
        · simp [h₁, h₂, hv]
  results id' op' v hop' hv := by
    rw [get?_replaceUses h hne, Option.map_eq_some_iff] at hop'
    obtain ⟨op, hop, rfl⟩ := hop'
    rw [values_replaceUses]
    exact h.results id' op v hop hv

end Module

end Choco.IR
