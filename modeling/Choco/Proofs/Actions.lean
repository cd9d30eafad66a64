import Mathlib.Data.List.Forall2
import Mathlib.Tactic.Common

namespace Choco.Action

variable {ε σ α β : Type} {x : EStateM ε σ α} {f : α → EStateM ε σ β} {s s' : σ}

theorem bind_ok {a : α} (h : x s = .ok a s') : (x >>= f) s = f a s' := by
  simp only [bind, EStateM.bind, h]

theorem bind_error {e : ε} (h : x s = .error e s') : (x >>= f) s = .error e s' := by
  simp only [bind, EStateM.bind, h]

theorem bind_eq_ok {b : β} : (x >>= f) s = .ok b s' ↔ ∃ a s₁, x s = .ok a s₁ ∧ f a s₁ = .ok b s' := by
  cases h : x s with
  | ok a s₁ => simp [bind_ok h]
  | error e s₁ => simp [bind_error h]

theorem pure_eq_ok {a b : α} : (pure a : EStateM ε σ α) s = .ok b s' ↔ a = b ∧ s = s' := by
  simp [pure, EStateM.pure]

theorem forM_cons_eq_ok {y : α} {ys : List α} {g : α → EStateM ε σ PUnit} :
    (y :: ys).forM g s = .ok ⟨⟩ s' ↔ ∃ s₁, g y s = .ok ⟨⟩ s₁ ∧ ys.forM g s₁ = .ok ⟨⟩ s' :=
  bind_eq_ok.trans ⟨fun ⟨_, s₁, h⟩ => ⟨s₁, h⟩, fun ⟨s₁, h⟩ => ⟨⟨⟩, s₁, h⟩⟩

theorem forM_append_eq_ok {xs ys : List α} {g : α → EStateM ε σ PUnit} :
    (xs ++ ys).forM g s = .ok ⟨⟩ s' ↔ ∃ s₁, xs.forM g s = .ok ⟨⟩ s₁ ∧ ys.forM g s₁ = .ok ⟨⟩ s' := by
  induction xs generalizing s with
  | nil => exact ⟨fun h => ⟨s, rfl, h⟩, fun ⟨s₁, h₁, h⟩ => by cases h₁; exact h⟩
  | cons y xs ih =>
    rw [List.cons_append, forM_cons_eq_ok]
    simp only [ih, forM_cons_eq_ok]
    exact ⟨fun ⟨s₁, h₁, s₂, h₂, h⟩ => ⟨s₂, ⟨s₁, h₁, h₂⟩, h⟩, fun ⟨s₂, ⟨s₁, h₁, h₂⟩, h⟩ => ⟨s₁, h₁, s₂, h₂, h⟩⟩

theorem foldlM_append_ok {xs ys : List α} {g : β → α → EStateM ε σ β} {b b' : β}
    (h : xs.foldlM g b s = .ok b' s') :
    (xs ++ ys).foldlM g b s = ys.foldlM g b' s' := by
  induction xs generalizing b s with
  | nil =>
    cases h
    rfl
  | cons y xs ih =>
    obtain ⟨b₁, s₁, hy, hxs⟩ := bind_eq_ok.mp h
    exact (bind_ok hy).trans (ih hxs)

theorem foldlM_append_error {xs ys : List α} {g : β → α → EStateM ε σ β} {b : β} {e : ε}
    (h : xs.foldlM g b s = .error e s') : (xs ++ ys).foldlM g b s = .error e s' := by
  induction xs generalizing b s with
  | nil => cases h
  | cons y xs ih =>
    cases hy : g b y s with
    | ok b₁ s₁ =>
      have hxs : xs.foldlM g b₁ s₁ = .error e s' := (bind_ok hy).symm.trans h
      exact (bind_ok hy).trans (ih hxs)
    | error e₁ s₁ =>
      have he : EStateM.Result.error e₁ s₁ = .error e s' := (bind_error hy).symm.trans h
      exact (bind_error hy).trans he

theorem foldlM_cons_ok {y : α} {ys : List α} {g : β → α → EStateM ε σ β} {b b' : β}
    (h : g b y s = .ok b' s') :
    (y :: ys).foldlM g b s = ys.foldlM g b' s' := bind_ok h

theorem foldlM_cons_error {y : α} {ys : List α} {g : β → α → EStateM ε σ β} {b : β} {e : ε}
    (h : g b y s = .error e s') : (y :: ys).foldlM g b s = .error e s' := bind_error h

theorem foldlM_range_two {g : β → Nat → EStateM ε σ β} {b b' : β} (h : g b 0 s = .ok b' s') :
    (List.range 2).foldlM g b s = g b' 1 s' := by
  change ([0, 1].foldlM g b) s = _
  rw [foldlM_cons_ok h]
  simp only [List.foldlM_cons, List.foldlM_nil, bind_pure]

theorem mapM_range_one {g : Nat → EStateM ε σ α} {a : α} (h : g 0 s = .ok a s') :
    (List.range 1).mapM g s = .ok [a] s' := by
  change ([0].mapM g) s = _
  simp only [List.mapM_cons, List.mapM_nil]
  exact bind_ok h

theorem mapM_range_two {g : Nat → EStateM ε σ α} {a b : α} {s'' : σ} (h : g 0 s = .ok a s')
    (h' : g 1 s' = .ok b s'') :
    (List.range 2).mapM g s = .ok [a, b] s'' := by
  change ([0, 1].mapM g) s = _
  simp only [List.mapM_cons, List.mapM_nil]
  exact (bind_ok h).trans (bind_ok ((bind_ok h').trans rfl))

theorem map_ok {g : α → β} {a : α} (h : x s = .ok a s') : (g <$> x) s = .ok (g a) s' := by
  simp only [Functor.map, EStateM.map, h]

theorem map_error {g : α → β} {e : ε} (h : x s = .error e s') : (g <$> x) s = .error e s' := by
  simp only [Functor.map, EStateM.map, h]

end Choco.Action

namespace Choco.Outcome

variable {ε α β : Type} {x : Except ε α} {f : α → Except ε β}

theorem bind_ok {a : α} (h : x = .ok a) : (x >>= f) = f a := by
  subst h; rfl

theorem bind_eq_ok {b : β} : (x >>= f) = .ok b ↔ ∃ a, x = .ok a ∧ f a = .ok b := by
  cases x with
  | ok a => simp [bind, Except.bind]
  | error e => simp [bind, Except.bind]

theorem bind_eq_error {e : ε} : (x >>= f) = .error e ↔ x = .error e ∨ ∃ a, x = .ok a ∧ f a = .error e := by
  cases x with
  | ok a => simp [bind, Except.bind]
  | error e => simp [bind, Except.bind]

theorem eq_ok_of_toOption {a : α} (h : x.toOption = some a) : x = .ok a := by
  cases x with
  | error _ => cases h
  | ok _ => exact congrArg Except.ok (Option.some.inj h)

theorem mapM_eq_ok {g : α → Except ε β} {xs : List α} {ys : List β} :
    xs.mapM g = .ok ys ↔ List.Forall₂ (fun x y => g x = .ok y) xs ys := by
  induction xs generalizing ys with
  | nil =>
    rw [List.mapM_nil, List.forall₂_nil_left_iff]
    exact ⟨fun h => (Except.ok.inj h).symm, fun h => h ▸ rfl⟩
  | cons x xs ih =>
    rw [List.mapM_cons, bind_eq_ok]
    constructor
    · rintro ⟨y, hy, h⟩
      obtain ⟨ys', hys, h⟩ := bind_eq_ok.mp h
      cases h
      exact .cons hy (ih.mp hys)
    · rintro (_ | ⟨hy, hys⟩)
      exact ⟨_, hy, bind_eq_ok.mpr ⟨_, ih.mpr hys, rfl⟩⟩

theorem mapM_eq_some {g : α → Option β} {xs : List α} {ys : List β} :
    xs.mapM g = some ys ↔ List.Forall₂ (fun x y => g x = some y) xs ys := by
  induction xs generalizing ys with
  | nil =>
    rw [List.mapM_nil, List.forall₂_nil_left_iff]
    exact ⟨fun h => (Option.some.inj h).symm, fun h => h ▸ rfl⟩
  | cons x xs ih =>
    rw [List.mapM_cons]
    constructor
    · intro h
      obtain ⟨y, hy, h⟩ := Option.bind_eq_some_iff.mp h
      obtain ⟨ys', hys, h⟩ := Option.bind_eq_some_iff.mp h
      cases h
      exact .cons hy (ih.mp hys)
    · rintro (_ | ⟨hy, hys⟩)
      exact Option.bind_eq_some_iff.mpr ⟨_, hy, Option.bind_eq_some_iff.mpr ⟨_, ih.mpr hys, rfl⟩⟩

end Choco.Outcome
