import Choco.Proofs.Uses

namespace Choco.IR

/-- A value with its type. -/
structure Def where
  value : ValueId
  ty : ValueType
deriving DecidableEq

/-- An operation apart from its place and from what is nested in it. -/
structure Node where
  id : OpId
  kind : Kind
  operands : List ValueId
  result : Option Def
deriving DecidableEq

/-- The operations of a list with all that is nested in them. An operation has no regions, one or two, and
`rest` is what follows it in its list. Only a single region may have arguments. -/
inductive Code where
  | nil
  | leaf (n : Node) (rest : Code)
  | each (n : Node) (args : List ValueId) (body rest : Code)
  | fork (n : Node) (first second rest : Code)
deriving DecidableEq

def Op.rename (τ : ValueId → ValueId) (op : Op) : Op := { op with operands := op.operands.map τ }

namespace Node

def op (n : Node) (regions : List Region) (parent : Option Place) : Op :=
  ⟨n.kind, n.operands, n.result.map Def.value, regions, parent⟩

/-- The values that the operation defines. -/
def results (n : Node) : List ValueId := (n.result.map Def.value).toList

def rename (τ : ValueId → ValueId) (n : Node) : Node := { n with operands := n.operands.map τ }

@[simp] theorem id_rename (τ : ValueId → ValueId) (n : Node) : (n.rename τ).id = n.id := rfl

@[simp] theorem kind_rename (τ : ValueId → ValueId) (n : Node) : (n.rename τ).kind = n.kind := rfl

@[simp] theorem operands_rename (τ : ValueId → ValueId) (n : Node) :
    (n.rename τ).operands = n.operands.map τ := rfl

@[simp] theorem result_rename (τ : ValueId → ValueId) (n : Node) : (n.rename τ).result = n.result := rfl

@[simp] theorem results_rename (τ : ValueId → ValueId) (n : Node) : (n.rename τ).results = n.results := rfl

theorem op_rename (τ : ValueId → ValueId) (n : Node) (regions : List Region) (parent : Option Place) :
    (n.rename τ).op regions parent = (n.op regions parent).rename τ := rfl

end Node

@[simp] theorem Node.rename_id (n : Node) : n.rename (fun v => v) = n := by simp [rename]

namespace Code

def append : Code → Code → Code
  | nil, d => d
  | leaf n rest, d => leaf n (append rest d)
  | each n args body rest, d => each n args body (append rest d)
  | fork n first second rest, d => fork n first second (append rest d)

instance : Append Code := ⟨append⟩

@[simp] theorem nil_append (c : Code) : nil ++ c = c := rfl

@[simp] theorem leaf_append (n : Node) (c d : Code) : leaf n c ++ d = leaf n (c ++ d) := rfl

@[simp] theorem each_append (n : Node) (args : List ValueId) (b c d : Code) :
    each n args b c ++ d = each n args b (c ++ d) := rfl

@[simp] theorem fork_append (n : Node) (a b c d : Code) : fork n a b c ++ d = fork n a b (c ++ d) := rfl

@[simp] theorem append_nil (c : Code) : c ++ nil = c := by
  induction c with
  | nil => rfl
  | leaf n rest ih => exact congrArg (leaf n) ih
  | each n args body rest _ ih => exact congrArg (each n args body) ih
  | fork n first second rest _ _ ih => exact congrArg (fork n first second) ih

theorem append_assoc (a b c : Code) : a ++ b ++ c = a ++ (b ++ c) := by
  induction a with
  | nil => rfl
  | leaf n rest ih => exact congrArg (leaf n) ih
  | each n args body rest _ ih => exact congrArg (each n args body) ih
  | fork n first second rest _ _ ih => exact congrArg (fork n first second) ih

/-- The handles of the operations in the list itself. -/
def ids : Code → List OpId
  | nil => []
  | leaf n rest | each n _ _ rest | fork n _ _ rest => n.id :: rest.ids

@[simp] theorem ids_append (c d : Code) : (c ++ d).ids = c.ids ++ d.ids := by
  induction c with
  | nil => rfl
  | leaf n rest ih => exact congrArg (n.id :: ·) ih
  | each n args body rest _ ih => exact congrArg (n.id :: ·) ih
  | fork n first second rest _ _ ih => exact congrArg (n.id :: ·) ih

/-- All operations, each before what is nested in it. -/
def nodes : Code → List Node
  | nil => []
  | leaf n rest => n :: rest.nodes
  | each n _ body rest => n :: (body.nodes ++ rest.nodes)
  | fork n first second rest => n :: (first.nodes ++ (second.nodes ++ rest.nodes))

@[simp] theorem nodes_append (c d : Code) : (c ++ d).nodes = c.nodes ++ d.nodes := by
  induction c with
  | nil => rfl
  | leaf n rest ih => simp [nodes, ih]
  | each n args body rest _ ih => simp [nodes, ih]
  | fork n first second rest _ _ ih => simp [nodes, ih]

def allIds (c : Code) : List OpId := c.nodes.map Node.id

@[simp] theorem allIds_append (c d : Code) : (c ++ d).allIds = c.allIds ++ d.allIds := by simp [allIds]

@[simp] theorem allIds_nil : nil.allIds = [] := rfl

@[simp] theorem allIds_leaf (n : Node) (rest : Code) : (leaf n rest).allIds = n.id :: rest.allIds := rfl

@[simp] theorem allIds_each (n : Node) (args : List ValueId) (body rest : Code) :
    (each n args body rest).allIds = n.id :: (body.allIds ++ rest.allIds) := by simp [allIds, nodes]

@[simp] theorem allIds_fork (n : Node) (first second rest : Code) :
    (fork n first second rest).allIds = n.id :: (first.allIds ++ (second.allIds ++ rest.allIds)) := by
  simp [allIds, nodes]

def results (c : Code) : List ValueId := c.nodes.flatMap Node.results

@[simp] theorem results_append (c d : Code) : (c ++ d).results = c.results ++ d.results := by simp [results]

@[simp] theorem results_nil : nil.results = [] := rfl

@[simp] theorem results_leaf (n : Node) (rest : Code) :
    (leaf n rest).results = n.results ++ rest.results := by
  simp [results, nodes]

@[simp] theorem results_each (n : Node) (args : List ValueId) (body rest : Code) :
    (each n args body rest).results = n.results ++ (body.results ++ rest.results) := by simp [results, nodes]

@[simp] theorem results_fork (n : Node) (first second rest : Code) :
    (fork n first second rest).results = n.results ++
    (first.results ++ (second.results ++ rest.results)) := by
  simp [results, nodes]

def args : Code → List ValueId
  | nil => []
  | leaf _ rest => rest.args
  | each _ vs body rest => vs ++ (body.args ++ rest.args)
  | fork _ first second rest => first.args ++ (second.args ++ rest.args)

@[simp] theorem args_nil : nil.args = [] := rfl

@[simp] theorem args_leaf (n : Node) (rest : Code) : (leaf n rest).args = rest.args := rfl

@[simp] theorem args_each (n : Node) (vs : List ValueId) (body rest : Code) :
    (each n vs body rest).args = vs ++ (body.args ++ rest.args) := rfl

@[simp] theorem args_fork (n : Node) (first second rest : Code) :
    (fork n first second rest).args = first.args ++ (second.args ++ rest.args) := rfl

@[simp] theorem args_append (c d : Code) : (c ++ d).args = c.args ++ d.args := by
  induction c with
  | nil => rfl
  | leaf n rest ih => simpa using ih
  | each n vs body rest _ ih => simp [ih]
  | fork n first second rest _ _ ih => simp [ih]

theorem ids_subset_allIds (c : Code) : c.ids ⊆ c.allIds := by
  induction c with
  | nil => exact List.nil_subset _
  | leaf n rest ih =>
    simp only [ids, allIds_leaf]
    exact List.cons_subset_cons _ ih
  | each n args body rest _ ih =>
    simp only [ids, allIds_each]
    exact List.cons_subset_cons _ fun x hx => List.mem_append_right _ (ih hx)
  | fork n first second rest _ _ ih =>
    simp only [ids, allIds_fork]
    exact List.cons_subset_cons _ fun x hx => List.mem_append_right _ (List.mem_append_right _ (ih hx))

def height : Code → Nat
  | nil => 0
  | leaf _ rest => rest.height
  | each _ _ body rest => max (body.height + 1) rest.height
  | fork _ first second rest => max (max first.height second.height + 1) rest.height

section Rename

def rename (τ : ValueId → ValueId) : Code → Code
  | nil => nil
  | leaf n rest => leaf (n.rename τ) (rename τ rest)
  | each n args body rest => each (n.rename τ) args (rename τ body) (rename τ rest)
  | fork n first second rest => fork (n.rename τ) (rename τ first) (rename τ second) (rename τ rest)

variable (τ τ' : ValueId → ValueId)

@[simp] theorem rename_nil : rename τ nil = nil := rfl

@[simp] theorem rename_leaf (n : Node) (rest : Code) :
    rename τ (leaf n rest) = leaf (n.rename τ) (rename τ rest) := rfl

@[simp] theorem rename_append (c d : Code) : rename τ (c ++ d) = rename τ c ++ rename τ d := by
  induction c with
  | nil => rfl
  | leaf n rest ih => exact congrArg (leaf (n.rename τ)) ih
  | each n args body rest _ ih => exact congrArg (each (n.rename τ) args (rename τ body)) ih
  | fork n first second rest _ _ ih =>
    exact congrArg (fork (n.rename τ) (rename τ first) (rename τ second)) ih

@[simp] theorem ids_rename (c : Code) : (rename τ c).ids = c.ids := by
  induction c with
  | nil => rfl
  | leaf n rest ih => exact congrArg (n.id :: ·) ih
  | each n args body rest _ ih => exact congrArg (n.id :: ·) ih
  | fork n first second rest _ _ ih => exact congrArg (n.id :: ·) ih

theorem nodes_rename (c : Code) : (rename τ c).nodes = c.nodes.map (Node.rename τ) := by
  induction c with
  | nil => rfl
  | leaf n rest ih => simp [rename, nodes, ih]
  | each n args body rest ihb ih => simp [rename, nodes, ihb, ih]
  | fork n first second rest iha ihb ih => simp [rename, nodes, iha, ihb, ih]

@[simp] theorem allIds_rename (c : Code) : (rename τ c).allIds = c.allIds := by
  simp [allIds, nodes_rename, Function.comp_def]

@[simp] theorem results_rename (c : Code) : (rename τ c).results = c.results := by
  simp [results, nodes_rename, List.flatMap_map]

@[simp] theorem rename_id (c : Code) : rename (fun v => v) c = c := by
  induction c with
  | nil => rfl
  | leaf n rest ih => simp [rename, ih]
  | each n args body rest ihb ih => simp [rename, ihb, ih]
  | fork n first second rest iha ihb ih => simp [rename, iha, ihb, ih]

variable {τ τ'}

end Rename

end Code

end Choco.IR
