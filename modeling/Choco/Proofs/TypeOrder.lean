import Choco.Ty
import Mathlib.Order.Lattice

namespace Choco.Ty

inductive Below : Ty → Ty → Prop
  | refl (a : Ty) : Below a a
  | object (a : Ty) : Below a .object
  | none {t : Ty} : t.admitsNone = true → Below .none t
  | empty (elem : Ty) : Below .empty (.list elem)
  | nones {elem : Ty} : elem.admitsNone = true → Below (.list .none) (.list elem)

variable {a b c : Ty}

theorem isAssignable_iff : a.isAssignable b = true ↔ a.Below b := by
  constructor
  · intro h
    unfold isAssignable isSubtype at h
    rw [Bool.or_eq_true, Bool.or_eq_true, beq_iff_eq, beq_iff_eq] at h
    obtain (rfl | rfl) | h := h
    · exact .refl a
    · exact .object a
    · split at h
      next => exact .none h
      next => exact .empty _
      next elem target =>
        rw [Bool.and_eq_true, beq_iff_eq] at h
        exact h.1 ▸ .nones h.2
      next => cases h
  · intro h
    cases h with
    | refl => simp [isAssignable, isSubtype]
    | object => simp [isAssignable, isSubtype]
    | none h => simp [isAssignable, h]
    | empty => rfl
    | nones h => simp [isAssignable, h]

theorem Below.admitsNone (h : a.Below b) (ha : a.admitsNone = true) : b.admitsNone = true := by
  cases h with
  | refl => exact ha
  | none h => exact h
  | object | empty | nones => rfl

theorem Below.trans (h : a.Below b) (h' : b.Below c) : a.Below c := by
  cases h with
  | refl => exact h'
  | object =>
    cases h' with
    | refl | object => exact .object a
  | none hb => exact .none (h'.admitsNone hb)
  | empty elem =>
    cases h' with
    | refl => exact .empty elem
    | object => exact .object _
    | nones => exact .empty _
  | nones helem =>
    cases h' with
    | refl => exact .nones helem
    | object => exact .object _
    | nones h => exact .nones h

theorem Below.antisymm (h : a.Below b) (h' : b.Below a) : a = b := by
  cases h with
  | refl => rfl
  | object => cases h' <;> rfl
  | none => cases h' <;> rfl
  | empty => cases h'
  | nones => cases h' <;> rfl

theorem Below.eq_object (ha : a.Below c) (hb : b.Below c) (hab : ¬ a.Below b) (hba : ¬ b.Below a) :
    c = .object := by
  cases ha with
  | object => rfl
  | refl => exact absurd hb hba
  | none hc =>
    cases hb with
    | object => rfl
    | refl => exact absurd (.none hc) hab
    | none => exact absurd (.refl _) hab
    | empty => exact absurd (.none rfl) hab
    | nones => exact absurd (.none rfl) hab
  | empty =>
    cases hb with
    | refl | nones => exact absurd (.empty _) hab
    | none => exact absurd (.none rfl) hba
    | empty => exact absurd (.refl _) hab
  | nones helem =>
    cases hb with
    | refl => exact absurd (.nones helem) hab
    | none => exact absurd (.none rfl) hba
    | empty => exact absurd (.empty _) hba
    | nones => exact absurd (.refl _) hab

instance : PartialOrder Ty where
  le a b := a.isAssignable b = true
  le_refl a := isAssignable_iff.mpr (.refl a)
  le_trans _ _ _ h h' := isAssignable_iff.mpr ((isAssignable_iff.mp h).trans (isAssignable_iff.mp h'))
  le_antisymm _ _ h h' := (isAssignable_iff.mp h).antisymm (isAssignable_iff.mp h')

theorem le_iff : a ≤ b ↔ a.Below b := isAssignable_iff

theorem le_object (a : Ty) : a ≤ .object := le_iff.mpr (.object a)

theorem join_cases (a b : Ty) : a ≤ b ∧ a.join b = b ∨ b ≤ a ∧ a.join b = a ∨ (¬ a ≤ b ∧ ¬ b ≤ a) ∧
    a.join b = .object := by
  unfold join
  split
  next h => exact .inl ⟨h, rfl⟩
  next h =>
    split
    next h' => exact .inr (.inl ⟨h', rfl⟩)
    next h' => exact .inr (.inr ⟨⟨h, h'⟩, rfl⟩)

theorem le_join (a b : Ty) : a ≤ a.join b ∧ b ≤ a.join b := by
  obtain ⟨h, heq⟩ | ⟨h, heq⟩ | ⟨-, heq⟩ := join_cases a b
  · exact ⟨h.trans_eq heq.symm, heq.ge⟩
  · exact ⟨heq.ge, h.trans_eq heq.symm⟩
  · exact ⟨(le_object a).trans_eq heq.symm, (le_object b).trans_eq heq.symm⟩

theorem join_le (ha : a ≤ c) (hb : b ≤ c) : a.join b ≤ c := by
  obtain ⟨-, heq⟩ | ⟨-, heq⟩ | ⟨⟨hab, hba⟩, heq⟩ := join_cases a b
  · exact heq.trans_le hb
  · exact heq.trans_le ha
  · rw [le_iff] at ha hb hab hba
    exact (heq.trans (ha.eq_object hb hab hba).symm).le

instance : SemilatticeSup Ty where
  sup := join
  le_sup_left a b := (le_join a b).1
  le_sup_right a b := (le_join a b).2
  sup_le _ _ _ := join_le

/-- Assignability is a partial order on all types that contains subtyping and has `object` on top, and the
join of two types is their least upper bound in it; so the join is commutative, associative and idempotent. -/
theorem join_semilattice :
    ((∀ a : Ty, a.isAssignable a) ∧ (∀ a b c : Ty, a.isAssignable b → b.isAssignable c → a.isAssignable c) ∧
      ∀ a b : Ty, a.isAssignable b → b.isAssignable a → a = b) ∧
    (∀ a b : Ty, a.isSubtype b → a.isAssignable b) ∧ (∀ a : Ty, a.isAssignable .object) ∧
    (∀ a b : Ty, a.isAssignable (a.join b) ∧ b.isAssignable (a.join b) ∧
      ∀ c : Ty, a.isAssignable c → b.isAssignable c → (a.join b).isAssignable c) ∧
    (∀ a b : Ty, a.join b = b.join a) ∧ (∀ a b c : Ty, (a.join b).join c = a.join (b.join c)) ∧ ∀ a :
    Ty, a.join a = a := by
  refine ⟨⟨le_refl, Preorder.le_trans, PartialOrder.le_antisymm⟩, fun a b h => ?_, le_object,
    fun a b => ⟨(le_join a b).1, (le_join a b).2, fun _ => join_le⟩, sup_comm, sup_assoc, sup_idem⟩
  unfold isAssignable
  rw [h, Bool.true_or]

end Choco.Ty
