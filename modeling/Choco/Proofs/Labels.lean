import Choco.Proofs.Context

namespace Choco.IR

variable {f' g' : ValueId → ValueId} {c : Code}

/-- Other names for the operands and for the result. -/
def Node.map (f g : ValueId → ValueId) (n : Node) : Node :=
  { n with operands := n.operands.map f, result := n.result.map fun r => { r with value := g r.value } }

namespace Node

variable (f g : ValueId → ValueId) (n : Node)

@[simp] theorem id_map : (n.map f g).id = n.id := rfl

@[simp] theorem kind_map : (n.map f g).kind = n.kind := rfl

@[simp] theorem operands_map : (n.map f g).operands = n.operands.map f := rfl

@[simp] theorem results_map : (n.map f g).results = n.results.map g := by
  cases h : n.result <;> simp [map, results, h]

theorem rename_map (τ : ValueId → ValueId) : (n.map f g).rename τ = n.map (τ ∘ f) g := by simp [map, rename]

theorem map_map (f' g' : ValueId → ValueId) : (n.map f g).map f' g' = n.map (f' ∘ f) (g' ∘ g) := by
  simp only [map, List.map_map, Option.map_map]
  rfl

@[simp] theorem map_id : n.map (fun v => v) (fun v => v) = n := by simp [map]

theorem map_congr {f g : ValueId → ValueId} {n : Node} (hf : ∀ x ∈ n.operands, f x = f' x)
    (hg : ∀ v ∈ n.results, g v = g' v) :
    n.map f g = n.map f' g' := by
  rw [map, map, List.map_congr_left hf]
  cases h : n.result with
  | none => rfl
  | some r => simp [hg r.value (by simp [results, h])]

end Node

namespace Code

/-- The values that operations of the code use. -/
def uses (c : Code) : List ValueId := c.nodes.flatMap Node.operands

def map (f g : ValueId → ValueId) : Code → Code
  | nil => nil
  | leaf n rest => leaf (n.map f g) (map f g rest)
  | each n vs body rest => each (n.map f g) vs (map f g body) (map f g rest)
  | fork n first second rest => fork (n.map f g) (map f g first) (map f g second) (map f g rest)

/-- The code under other names. -/
def relabel (θ : ValueId → ValueId) (c : Code) : Code := c.map θ θ

section Sets

@[simp, grind =] theorem uses_nil : nil.uses = [] := rfl

@[simp, grind =] theorem uses_leaf (n : Node) (rest : Code) :
    (leaf n rest).uses = n.operands ++ rest.uses := rfl

@[simp, grind =] theorem uses_each (n : Node) (vs : List ValueId) (body rest : Code) :
    (each n vs body rest).uses = n.operands ++ (body.uses ++ rest.uses) := by simp [uses, nodes]

@[simp, grind =] theorem uses_fork (n : Node) (first second rest : Code) :
    (fork n first second rest).uses = n.operands ++ (first.uses ++ (second.uses ++ rest.uses)) := by
  simp [uses, nodes]

@[simp, grind =] theorem uses_append (c d : Code) : (c ++ d).uses = c.uses ++ d.uses := by simp [uses]

end Sets

section Map

variable (f g : ValueId → ValueId)

@[simp] theorem map_nil : map f g nil = nil := rfl

@[simp] theorem map_leaf (n : Node) (rest : Code) :
    map f g (leaf n rest) = leaf (n.map f g) (map f g rest) := rfl

@[simp] theorem map_append (c d : Code) : map f g (c ++ d) = map f g c ++ map f g d := by
  induction c with
  | nil => rfl
  | leaf n rest ih => simp [ih]
  | each n vs body rest _ ih => simp [map, ih]
  | fork n first second rest _ _ ih => simp [map, ih]

theorem nodes_map (c : Code) : (map f g c).nodes = c.nodes.map (Node.map f g) := by
  induction c with
  | nil => rfl
  | leaf n rest ih => simp [nodes, ih]
  | each n vs body rest ihb ih => simp [map, nodes, ihb, ih]
  | fork n first second rest iha ihb ih => simp [map, nodes, iha, ihb, ih]

@[simp] theorem ids_map (c : Code) : (map f g c).ids = c.ids := by
  induction c with
  | nil => rfl
  | leaf n rest ih => simp [ids, ih]
  | each n vs body rest _ ih => simp [map, ids, ih]
  | fork n first second rest _ _ ih => simp [map, ids, ih]

@[simp] theorem allIds_map (c : Code) : (map f g c).allIds = c.allIds := by
  simp [allIds, nodes_map, Function.comp_def]

@[simp] theorem results_map (c : Code) : (map f g c).results = c.results.map g := by
  simp [results, nodes_map, List.flatMap_map, List.map_flatMap]

@[simp, grind =] theorem uses_map (c : Code) : (map f g c).uses = c.uses.map f := by
  simp [uses, nodes_map, List.flatMap_map, List.map_flatMap]

@[simp] theorem args_map (c : Code) : (map f g c).args = c.args := by
  induction c with
  | nil => rfl
  | leaf n rest ih => exact ih
  | each n vs body rest ihb ih => simp [map, ihb, ih]
  | fork n first second rest iha ihb ih => simp [map, iha, ihb, ih]

@[simp] theorem height_map (c : Code) : (map f g c).height = c.height := by
  induction c with
  | nil => rfl
  | leaf n rest ih => simp [height, ih]
  | each n vs body rest ihb ih => simp [map, height, ihb, ih]
  | fork n first second rest iha ihb ih => simp [map, height, iha, ihb, ih]

theorem rename_map (τ : ValueId → ValueId) (c : Code) : (map f g c).rename τ = map (τ ∘ f) g c := by
  induction c with
  | nil => rfl
  | leaf n rest ih => simp [Node.rename_map, ih]
  | each n vs body rest ihb ih => simp [map, rename, Node.rename_map, ihb, ih]
  | fork n first second rest iha ihb ih => simp [map, rename, Node.rename_map, iha, ihb, ih]

theorem map_map (f' g' : ValueId → ValueId) (c : Code) : map f' g' (map f g c) = map (f' ∘ f) (g' ∘ g) c := by
  induction c with
  | nil => rfl
  | leaf n rest ih => simp [Node.map_map, ih]
  | each n vs body rest ihb ih => simp [map, Node.map_map, ihb, ih]
  | fork n first second rest iha ihb ih => simp [map, Node.map_map, iha, ihb, ih]

@[simp] theorem map_id (c : Code) : map (fun v => v) (fun v => v) c = c := by
  induction c with
  | nil => rfl
  | leaf n rest ih => simp [ih]
  | each n vs body rest ihb ih => simp [map, ihb, ih]
  | fork n first second rest iha ihb ih => simp [map, iha, ihb, ih]

variable {f g}

theorem map_congr (hf : ∀ x ∈ c.uses, f x = f' x) (hg : ∀ v ∈ c.results, g v = g' v) :
    map f g c = map f' g' c := by
  induction c with
  | nil => rfl
  | leaf n rest ih =>
    simp only [uses_leaf, results_leaf, List.forall_mem_append] at hf hg
    simp [Node.map_congr hf.1 hg.1, ih hf.2 hg.2]
  | each n vs body rest ihb ih =>
    simp only [uses_each, results_each, List.forall_mem_append] at hf hg
    simp [map, Node.map_congr hf.1 hg.1, ihb hf.2.1 hg.2.1, ih hf.2.2 hg.2.2]
  | fork n first second rest iha ihb ih =>
    simp only [uses_fork, results_fork, List.forall_mem_append] at hf hg
    simp [map, Node.map_congr hf.1 hg.1, iha hf.2.1 hg.2.1, ihb hf.2.2.1 hg.2.2.1, ih hf.2.2.2 hg.2.2.2]

end Map

end Code

namespace Context

variable {C : Context}

def uses (C : Context) : List ValueId := C.nodes.flatMap Node.operands

def args : Context → List ValueId
  | top => []
  | after C b => C.args ++ b.args
  | each C _ vs rest => C.args ++ (vs ++ rest.args)
  | first C _ other rest | second C _ other rest => C.args ++ (other.args ++ rest.args)

def map (f g : ValueId → ValueId) : Context → Context
  | top => top
  | after C b => after (C.map f g) (b.map f g)
  | each C n vs rest => each (C.map f g) (n.map f g) vs (rest.map f g)
  | first C n other rest => first (C.map f g) (n.map f g) (other.map f g) (rest.map f g)
  | second C n other rest => second (C.map f g) (n.map f g) (other.map f g) (rest.map f g)

@[simp, grind =] theorem uses_top : top.uses = [] := rfl

@[simp, grind =] theorem uses_after (C : Context) (b : Code) : (after C b).uses = C.uses ++ b.uses := by
  simp [uses, nodes, Code.uses]

@[simp, grind =] theorem uses_each (C : Context) (n : Node) (vs : List ValueId) (rest : Code) :
    (each C n vs rest).uses = C.uses ++ (n.operands ++ rest.uses) := by
  simp [uses, nodes, Code.uses]

@[simp, grind =] theorem uses_first (C : Context) (n : Node) (other rest : Code) :
    (first C n other rest).uses = C.uses ++ (n.operands ++ (other.uses ++ rest.uses)) := by
  simp [uses, nodes, Code.uses]

@[simp, grind =] theorem uses_second (C : Context) (n : Node) (other rest : Code) :
    (second C n other rest).uses = C.uses ++ (n.operands ++ (other.uses ++ rest.uses)) := by
  simp [uses, nodes, Code.uses]

theorem uses_plug (C : Context) (c : Code) : (C.plug c).uses.Perm (C.uses ++ c.uses) := by
  rw [uses, Code.uses, Code.uses, ← List.flatMap_append]
  exact (C.nodes_plug c).flatMap_right _

theorem mem_uses_plug {x : ValueId} : x ∈ (C.plug c).uses ↔ x ∈ C.uses ∨ x ∈ c.uses := by
  rw [(C.uses_plug c).mem_iff, List.mem_append]

theorem mem_results_plug {v : ValueId} : v ∈ (C.plug c).results ↔ v ∈ C.results ∨ v ∈ c.results := by
  rw [(C.results_plug c).mem_iff, List.mem_append]

theorem mem_args_plug {a : ValueId} : a ∈ (C.plug c).args ↔ a ∈ C.args ∨ a ∈ c.args := by
  induction C generalizing c with
  | top => simp [plug, args]
  | after C b ih => simp [plug, args, ih, or_assoc]
  | each C n vs rest ih => simp only [plug, args, ih, Code.args_each, List.mem_append]; tauto
  | first C n other rest ih => simp only [plug, args, ih, Code.args_fork, List.mem_append]; tauto
  | second C n other rest ih => simp only [plug, args, ih, Code.args_fork, List.mem_append]; tauto

section Map

variable (f g : ValueId → ValueId)

theorem map_plug (C : Context) (c : Code) : (C.plug c).map f g = (C.map f g).plug (c.map f g) := by
  induction C generalizing c with
  | top => rfl
  | after C b ih => rw [plug, ih, map, plug, Code.map_append]
  | each C n vs rest ih => rw [plug, ih, map, plug, Code.map]
  | first C n other rest ih => rw [plug, ih, map, plug, Code.map]
  | second C n other rest ih => rw [plug, ih, map, plug, Code.map]

theorem rename_map (τ : ValueId → ValueId) (C : Context) : (C.map f g).rename τ = C.map (τ ∘ f) g := by
  induction C with
  | top => rfl
  | after C b ih => simp [map, rename, ih, Code.rename_map]
  | each C n vs rest ih => simp [map, rename, ih, Code.rename_map, Node.rename_map]
  | first C n other rest ih => simp [map, rename, ih, Code.rename_map, Node.rename_map]
  | second C n other rest ih => simp [map, rename, ih, Code.rename_map, Node.rename_map]

variable {f g}

theorem map_congr (hf : ∀ x ∈ C.uses, f x = f' x) (hg : ∀ v ∈ C.results, g v = g' v) :
    C.map f g = C.map f' g' := by
  induction C with
  | top => rfl
  | after C b ih =>
    simp only [uses, results, nodes, List.flatMap_append, List.forall_mem_append] at hf hg
    rw [map, ih hf.1 hg.1, Code.map_congr hf.2 hg.2, map]
  | each C n vs rest ih =>
    simp only [uses, results, nodes, List.flatMap_append, List.flatMap_cons, List.forall_mem_append] at hf hg
    rw [map, ih hf.1 hg.1, Node.map_congr hf.2.1 hg.2.1, Code.map_congr hf.2.2 hg.2.2, map]
  | first C n other rest ih =>
    simp only [uses, results, nodes, List.flatMap_append, List.flatMap_cons, List.forall_mem_append] at hf hg
    rw [map, ih hf.1 hg.1, Node.map_congr hf.2.1 hg.2.1, Code.map_congr hf.2.2.1 hg.2.2.1,
      Code.map_congr hf.2.2.2 hg.2.2.2, map]
  | second C n other rest ih =>
    simp only [uses, results, nodes, List.flatMap_append, List.flatMap_cons, List.forall_mem_append] at hf hg
    rw [map, ih hf.1 hg.1, Node.map_congr hf.2.1 hg.2.1, Code.map_congr hf.2.2.1 hg.2.2.1,
      Code.map_congr hf.2.2.2 hg.2.2.2, map]

end Map

end Context

end Choco.IR
