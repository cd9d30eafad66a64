import Choco.IR.Optimize
import Choco.Proofs.Labels
import Mathlib.Data.List.Pairwise

namespace Choco.IR

/-- Kinds of operations whose result names storage. -/
def Kind.isAlloc : Kind → Bool
  | .alloc _ | .flat .alloc => true
  | _ => false

/-- Kinds of operations that may use arguments of the region around them. -/
def Kind.isStore : Kind → Bool
  | .store | .flat (.sw _) => true
  | _ => false

/-- The operation uses only values in sight, and arguments only to store them. -/
def Node.Sees (A S : ValueId → Prop) (n : Node) : Prop := ∀ x ∈ n.operands, S x ∨ n.kind.isStore ∧ A x

namespace Code

variable {c : Code} {v : ValueId}

/-- The results of the operations with the property. -/
def resultsOf (p : Kind → Bool) (c : Code) : List ValueId := (c.nodes.filter (p ·.kind)).flatMap Node.results

def tops : Code → List ValueId
  | nil => []
  | leaf n rest | each n _ _ rest | fork n _ _ rest => n.results ++ rest.tops

/-- Each operation uses only values in sight at the start and results of operations before it in its list or
in one around it. Arguments of regions are only stored. -/
def Scoped (A S : ValueId → Prop) : Code → Prop
  | nil => True
  | leaf n rest => n.Sees A S ∧ Scoped A (fun v => v ∈ n.results ∨ S v) rest
  | each n args body rest =>
    n.Sees A S ∧ Scoped (fun v => v ∈ args ∨ A v) S body ∧ Scoped A (fun v => v ∈ n.results ∨ S v) rest
  | fork n first second rest =>
    n.Sees A S ∧ Scoped A S first ∧ Scoped A S second ∧ Scoped A (fun v => v ∈ n.results ∨ S v) rest

/-- Functions that use only their own values, storage of each other and values in sight at the start. -/
def ScopedFunctions (S : ValueId → Prop) : Code → Prop
  | each n args body rest =>
    n.operands = [] ∧ Scoped (· ∈ args) (fun v => S v ∨ v ∈ rest.resultsOf Kind.isAlloc) body ∧
      ScopedFunctions (fun v => S v ∨ v ∈ body.resultsOf Kind.isAlloc) rest
  | nil => True
  | leaf _ _ | fork _ _ _ _ => False

section Results

variable (p : Kind → Bool)

theorem mem_resultsOf : v ∈ c.resultsOf p ↔ ∃ n ∈ c.nodes, p n.kind ∧ v ∈ n.results := by
  simp [resultsOf, and_assoc]

theorem resultsOf_subset (c : Code) : c.resultsOf p ⊆ c.results := fun v hv => by
  obtain ⟨n, hn, -, hv⟩ := (mem_resultsOf p).mp hv
  exact List.mem_flatMap.mpr ⟨n, hn, hv⟩

@[simp] theorem resultsOf_nil : nil.resultsOf p = [] := rfl

@[simp] theorem resultsOf_leaf (n : Node) (rest : Code) :
    (leaf n rest).resultsOf p = (if p n.kind then n.results else []) ++ rest.resultsOf p := by
  by_cases h : p n.kind <;> simp [resultsOf, nodes, h]

@[simp] theorem resultsOf_each (n : Node) (args : List ValueId) (body rest : Code) :
    (each n args body rest).resultsOf p =
      (if p n.kind then n.results else []) ++ (body.resultsOf p ++ rest.resultsOf p) := by
  by_cases h : p n.kind <;> simp [resultsOf, nodes, h]

@[simp] theorem resultsOf_fork (n : Node) (first second rest : Code) :
    (fork n first second rest).resultsOf p =
      (if p n.kind then n.results else []) ++
      (first.resultsOf p ++ (second.resultsOf p ++ rest.resultsOf p)) := by
  by_cases h : p n.kind <;> simp [resultsOf, nodes, h]

@[simp] theorem resultsOf_append (c d : Code) : (c ++ d).resultsOf p = c.resultsOf p ++ d.resultsOf p := by
  simp [resultsOf]

end Results

theorem eq_of_mem_results (h : c.results.Nodup) {n n' : Node} (hn : n ∈ c.nodes) (hn' : n' ∈ c.nodes)
    (hv : v ∈ n.results) (hv' : v ∈ n'.results) : n = n' := by
  by_contra hne
  have : Std.Symm (Function.onFun List.Disjoint Node.results) := ⟨fun _ _ h _ hv hv' => h hv' hv⟩
  exact (List.nodup_flatMap.mp h).2.forall hn hn' hne hv hv'

theorem resultsOf_disjoint {p q : Kind → Bool} (hpq : ∀ k, p k → ¬ q k) (h : c.results.Nodup)
    (hp : v ∈ c.resultsOf p) :
    v ∉ c.resultsOf q := by
  intro hq
  obtain ⟨n, hn, hpn, hvn⟩ := (mem_resultsOf p).mp hp
  obtain ⟨n', hn', hqn', hvn'⟩ := (mem_resultsOf q).mp hq
  obtain rfl := eq_of_mem_results h hn hn' hvn hvn'
  exact hpq _ hpn hqn'

section Scoped

variable {A A' S S' : ValueId → Prop} {c d : Code} {x : ValueId}

theorem tops_append (c d : Code) : (c ++ d).tops = c.tops ++ d.tops := by
  induction c with
  | nil => rfl
  | leaf n rest ih => simp [tops, ih]
  | each n args body rest _ ih => simp [tops, ih]
  | fork n first second rest _ _ ih => simp [tops, ih]

theorem mem_results_of_tops (hv : v ∈ c.tops) : v ∈ c.results := by
  induction c with
  | nil => cases hv
  | leaf n rest ih =>
    simp only [tops, results_leaf, List.mem_append] at hv ⊢
    exact hv.imp_right ih
  | each n args body rest _ ih =>
    simp only [tops, results_each, List.mem_append] at hv ⊢
    exact hv.imp_right fun hv => .inr (ih hv)
  | fork n first second rest _ _ ih =>
    simp only [tops, results_fork, List.mem_append] at hv ⊢
    exact hv.imp_right fun hv => .inr (.inr (ih hv))

theorem Scoped.mono (h : c.Scoped A S) (hA : ∀ v, A v → A' v) (hS : ∀ v, S v → S' v) : c.Scoped A' S' := by
  have hsees {n : Node} {A A' S S' : ValueId → Prop} (h : n.Sees A S) (hA : ∀ v, A v → A' v)
      (hS : ∀ v, S v → S' v) :
      n.Sees A' S' := fun x hx => (h x hx).imp (hS x) (And.imp_right (hA x))
  induction c generalizing A A' S S' with
  | nil => trivial
  | leaf n rest ih => exact ⟨hsees h.1 hA hS, ih h.2 hA fun v => Or.imp_right (hS v)⟩
  | each n args body rest ihb ih =>
    exact ⟨hsees h.1 hA hS, ihb h.2.1 (fun v => Or.imp_right (hA v)) hS,
      ih h.2.2 hA fun v => Or.imp_right (hS v)⟩
  | fork n first second rest iha ihb ih =>
    exact ⟨hsees h.1 hA hS, iha h.2.1 hA hS, ihb h.2.2.1 hA hS, ih h.2.2.2 hA fun v => Or.imp_right (hS v)⟩

theorem scoped_append : (c ++ d).Scoped A S ↔ c.Scoped A S ∧ d.Scoped A fun v => v ∈ c.tops ∨ S v := by
  induction c generalizing S with
  | nil => simp [Scoped, tops]
  | leaf n rest ih =>
    simp only [leaf_append, Scoped, ih, tops, List.mem_append, or_assoc, or_left_comm, and_assoc]
  | each n args body rest _ ih =>
    simp only [each_append, Scoped, ih, tops, List.mem_append, or_assoc, or_left_comm, and_assoc]
  | fork n first second rest _ _ ih =>
    simp only [fork_append, Scoped, ih, tops, List.mem_append, or_assoc, or_left_comm, and_assoc]

theorem Scoped.uses_mem (h : c.Scoped A S) (hx : x ∈ c.uses) : A x ∨ S x ∨ x ∈ c.results ∨ x ∈ c.args := by
  induction c generalizing A S with
  | nil => cases hx
  | leaf n rest ih =>
    have hn := h.1 x
    have hrest := ih h.2
    simp only [uses_leaf, results_leaf, args, List.mem_append] at *
    grind
  | each n args body rest ihb ih =>
    have hn := h.1 x
    have hbody := ihb h.2.1
    have hrest := ih h.2.2
    simp only [uses_each, results_each, Code.args, List.mem_append] at *
    grind
  | fork n first second rest iha ihb ih =>
    have hn := h.1 x
    have hfirst := iha h.2.1
    have hsecond := ihb h.2.2.1
    have hrest := ih h.2.2.2
    simp only [uses_fork, results_fork, args, List.mem_append] at *
    grind

theorem ScopedFunctions.mono (h : c.ScopedFunctions S) (hS : ∀ v, S v → S' v) : c.ScopedFunctions S' := by
  induction c generalizing S S' with
  | nil => trivial
  | each n args body rest _ ih =>
    exact ⟨h.1, h.2.1.mono (fun _ hv => hv) fun v => Or.imp_left (hS v), ih h.2.2 fun v => Or.imp_left (hS v)⟩
  | leaf | fork => exact h

theorem ScopedFunctions.uses_mem (h : c.ScopedFunctions S) (hx : x ∈ c.uses) :
    S x ∨ x ∈ c.results ∨ x ∈ c.args := by
  induction c generalizing S with
  | nil => cases hx
  | each n args body rest _ ih =>
    have hbody := h.2.1.uses_mem (x := x)
    have hrest := ih h.2.2
    have hallocs := rest.resultsOf_subset Kind.isAlloc (a := x)
    have hallocs' := body.resultsOf_subset Kind.isAlloc (a := x)
    simp only [uses_each, h.1, results_each, Code.args, List.mem_append] at *
    grind
  | leaf | fork => cases h

end Scoped

end Code

end Choco.IR
