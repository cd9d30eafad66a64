import Choco.Proofs.Checkpoints
import Choco.Proofs.Collecting

namespace Choco

/-- How many words an object for the literal has behind its length. -/
def Literal.objectSize? : Literal → Option Nat
  | .str s => some (Text.encodeUtf8 s).size
  | .int _ | .bool _ | .none => Option.none

mutual

/-- How many elements the list displays and string literals of an expression have, in the order of
evaluation. -/
def Expr.objects : Expr → List Nat
  | .literal value _ => value.objectSize?.toList
  | .name _ _ => []
  | .unary _ operand _ => operand.objects
  | .binary _ lhs rhs _ => lhs.objects ++ rhs.objects
  | .ifExpr cond onTrue onFalse _ => cond.objects ++ (onTrue.objects ++ onFalse.objects)
  | .list elems _ => Expr.listObjects elems ++ [elems.length]
  | .index base position _ => base.objects ++ position.objects
  | .call _ args _ => Expr.listObjects args

def Expr.listObjects : List Expr → List Nat
  | [] => []
  | e :: es => e.objects ++ Expr.listObjects es

end

mutual

def Stmt.objects : Stmt → List Nat
  | .expr e => e.objects
  | .assign a => a.value.objects ++ Expr.listObjects a.targets
  | .ret (some e) => e.objects
  | .ret none | .pass => []
  | .ifElse cond onTrue onFalse => cond.objects ++ (Stmt.listObjects onTrue ++ Stmt.listObjects onFalse)
  | .whileLoop cond body => cond.objects ++ Stmt.listObjects body
  | .forLoop _ iter body => iter.objects ++ Stmt.listObjects body

def Stmt.listObjects : List Stmt → List Nat
  | [] => []
  | s :: rest => s.objects ++ Stmt.listObjects rest

end

/-- The objects that variables start with. -/
def Decl.initialObjects : List Decl → List Nat
  | [] => []
  | .var v :: rest => v.init.objectSize?.toList ++ Decl.initialObjects rest
  | .func _ :: rest | .global _ :: rest | .nonlocal _ :: rest => Decl.initialObjects rest

mutual

def FuncDef.objects : FuncDef → List Nat
  | ⟨_, _, _, decls, body⟩ =>
    Decl.functionObjects decls ++ (Decl.initialObjects decls ++ Stmt.listObjects body)

def Decl.functionObjects : List Decl → List Nat
  | [] => []
  | .func f :: rest => f.objects ++ Decl.functionObjects rest
  | .var _ :: rest | .global _ :: rest | .nonlocal _ :: rest => Decl.functionObjects rest

end

/-- The objects of a program: those of the entry function and then those of the others. -/
def Program.objects (p : Program) : List Nat :=
  Decl.initialObjects p.decls ++ (Stmt.listObjects p.stmts ++ Decl.functionObjects p.decls)

/-- The most elements that an object has whose offsets all fit an instruction. -/
def maxElements : Nat := 511

/-- The objects with more elements. -/
def large (sizes : List Nat) : List Nat := sizes.filter (maxElements < ·)

@[simp] theorem large_append (sizes sizes' : List Nat) :
    large (sizes ++ sizes') = large sizes ++ large sizes' :=
  List.filter_append ..

theorem large_toList (size? : Option Nat) : large size?.toList = (size?.filter (maxElements < ·)).toList := by
  cases size? with
  | none => rfl
  | some size => by_cases h : maxElements < size <;> simp [large, Option.filter, h]

theorem large_eq_nil {sizes : List Nat} (h : ∀ size ∈ sizes, size ≤ maxElements) : large sizes = [] := by
  rw [large, List.filter_eq_nil_iff]
  exact fun size hsize => by simpa using h size hsize

namespace IR

def Node.objectSize? (n : Node) : Option Nat :=
  match n.kind with
  | .list => some n.operands.length
  | .literal l => l.objectSize?
  | _ => none

def Node.largeObject? (n : Node) : Option Nat := n.objectSize?.filter (maxElements < ·)

namespace Code

def largeObjects (c : Code) : List Nat := c.nodes.filterMap Node.largeObject?

@[simp] theorem largeObjects_nil : largeObjects nil = [] := rfl

@[simp] theorem largeObjects_leaf (n : Node) (rest : Code) :
    (leaf n rest).largeObjects = n.largeObject?.toList ++ rest.largeObjects := collect_leaf n rest

@[simp] theorem largeObjects_each (n : Node) (args : List ValueId) (body rest : Code) :
    (each n args body rest).largeObjects = n.largeObject?.toList ++
    (body.largeObjects ++ rest.largeObjects) :=
  collect_each n args body rest

@[simp] theorem largeObjects_fork (n : Node) (first second rest : Code) :
    (fork n first second rest).largeObjects =
      n.largeObject?.toList ++ (first.largeObjects ++ (second.largeObjects ++ rest.largeObjects)) :=
  collect_fork n first second rest

@[simp] theorem largeObjects_append (c d : Code) : (c ++ d).largeObjects = c.largeObjects ++ d.largeObjects :=
  collect_append c d

theorem largeObjects_relabel (θ : ValueId → ValueId) (c : Code) :
    (c.relabel θ).largeObjects = c.largeObjects := by
  rw [largeObjects, Code.relabel, nodes_map, List.filterMap_map]
  congr 1
  funext n
  simp only [Function.comp, Node.largeObject?, Node.objectSize?, Node.map]
  cases n.kind <;> simp

theorem Maps.largeObjects_eq {R : Node → Code → Prop} {c d : Code} (h : c.Maps R d)
    (hR : ∀ n e, R n e → e.largeObjects = n.largeObject?.toList) : d.largeObjects = c.largeObjects :=
  h.collect_eq hR

theorem nodes_sweep_sublist (c : Code) : c.sweep.nodes.Sublist c.nodes := by
  induction c with
  | nil => exact .refl _
  | leaf n rest ih =>
    obtain ⟨-, -, heq⟩ | heq := sweep_leaf_eq n rest
    · rw [heq]
      exact ih.cons n
    · rw [heq]
      exact ih.cons_cons n
  | each n args body rest ihb ih => exact (ihb.append ih).cons_cons n
  | fork n first second rest iha ihb ih => exact (iha.append (ihb.append ih)).cons_cons n

theorem largeObjects_sweep (c : Code) : c.sweep.largeObjects.Sublist c.largeObjects :=
  (nodes_sweep_sublist c).filterMap _

end Code

open Code

section Generation

variable {types : Types} {names names' : Names} {c : Code} {decls : List Decl}

theorem largeObject?_literal (id : OpId) (l : Literal) (r : Option Def) :
    (⟨id, .literal l, [], r⟩ : Node).largeObject?.toList = large l.objectSize?.toList := (large_toList _).symm

theorem sparse_largeObject : Sparse Node.largeObject? := by
  refine ⟨fun n hliteral hlist hcall hret => ?_, fun _ _ _ _ => rfl, fun _ _ _ => rfl⟩
  cases h : n.kind <;> simp_all [Node.largeObject?, Node.objectSize?]

theorem large_listObjects (es : List Expr) : large (Expr.listObjects es) = es.flatMap fun e =>
    large e.objects := by
  induction es with
  | nil => rw [Expr.listObjects]; rfl
  | cons e es ih => rw [Expr.listObjects, large_append, List.flatMap_cons, ih]

theorem large_stmtObjects (ss : List Stmt) : large (Stmt.listObjects ss) = ss.flatMap fun s =>
    large s.objects := by
  induction ss with
  | nil => rw [Stmt.listObjects]; rfl
  | cons s ss ih => rw [Stmt.listObjects, large_append, List.flatMap_cons, ih]

theorem large_initialObjects (decls : List Decl) :
    large (Decl.initialObjects decls) = (decls.filterMap Decl.init?).flatMap fun l =>
      large l.objectSize?.toList := by
  induction decls with
  | nil => rfl
  | cons decl decls ih =>
    cases decl with
    | var v => simp [Decl.initialObjects, Decl.init?, ih]
    | func f | global x | «nonlocal» x => exact ih

theorem collects_largeObject (names : Names) :
    Collects Node.largeObject? names (fun e => large e.objects) fun s => large s.objects := by
  constructor
  case toSparse => exact sparse_largeObject
  case list =>
    intro id xs r es ty hlength
    have hdisplay : (⟨id, .list, xs, r⟩ : Node).largeObject?.toList = large [xs.length] :=
      (large_toList (some xs.length)).symm
    rw [Expr.objects, large_append, large_listObjects, hdisplay, hlength]
  case call =>
    intro id xs r func label es ty hlabel
    rw [Expr.objects, large_listObjects]
    exact List.append_nil _
  all_goals
    intros
    first
    | rfl
    | simp [Expr.objects, Stmt.objects, large_listObjects, large_stmtObjects, largeObject?_literal]

theorem StmtsCode.largeObjects_eq (ss : List Stmt) (h : StmtsCode types names ss c) :
    c.largeObjects = large (Stmt.listObjects ss) :=
  (StmtsCode.collect_eq (collects_largeObject names) ss h).trans (large_stmtObjects ss).symm

theorem ParamsCode.largeObjects_eq {ps : List Param} {args : List ValueId}
    (h : ParamsCode types names ps args c names') :
    c.largeObjects = [] := h.collect_eq sparse_largeObject

theorem LocalsCode.largeObjects_eq (h : LocalsCode names decls c names') :
    c.largeObjects = large (Decl.initialObjects decls) :=
  (h.collect_eq sparse_largeObject largeObject?_literal).trans (large_initialObjects decls).symm

theorem ReturnCode.largeObjects_eq (h : ReturnCode c) : c.largeObjects = [] :=
  h.collect_eq (fun _ _ _ => rfl) fun _ _ => rfl

theorem FunctionsTree.largeObjects_eq {names : Names} {path : String}
    (h : FunctionsTree types names path decls c) :
    c.largeObjects = large (Decl.functionObjects decls) := by
  induction h with
  | nil =>
    rw [Decl.functionObjects]
    rfl
  | func _ hparams hlocals _ hstmts hreturn _ _ ihInner ih =>
    rw [Decl.functionObjects, FuncDef.objects]
    simp [ihInner, hparams.largeObjects_eq, hlocals.largeObjects_eq, StmtsCode.largeObjects_eq _ hstmts,
      hreturn.largeObjects_eq, ih, Node.largeObject?, Node.objectSize?]
  | var _ _ ih | global _ _ ih | «nonlocal» _ _ ih =>
    rw [Decl.functionObjects]
    exact ih

theorem ProgramCode.largeObjects_eq {p : Program} (h : ProgramCode types p c) :
    c.largeObjects = large p.objects := by
  obtain ⟨names₁, names₂, c₁, c₂, c₃, inner, id, rfl, hglobals, htop, -, hfunctions, hstmts, hreturn⟩ := h
  simp [Program.objects, (hglobals.locals htop).largeObjects_eq, StmtsCode.largeObjects_eq p.stmts hstmts,
    hreturn.largeObjects_eq, hfunctions.tree.largeObjects_eq, Node.largeObject?, Node.objectSize?]

end Generation

section Passes

variable {types : Types} {c c' : Code} {n : Node} {e : Code}

theorem LibraryUse.largeObject?_eq_none {tys : List Ty} {use : LibraryUse} (h : ofOp n.kind tys = .ok use)
    (huse : use ≠ .keep) :
    n.largeObject? = none := by
  unfold Node.largeObject? Node.objectSize?
  split
  next hkind =>
    rw [hkind] at h
    cases h
    exact absurd rfl huse
  next l hkind =>
    rw [hkind] at h
    cases h
    exact absurd rfl huse
  next => rfl

theorem LibraryCode.largeObjects_eq (h : LibraryCode types n e) : e.largeObjects = n.largeObject?.toList := by
  cases h with
  | keep h => simp
  | call routine h =>
    rw [LibraryUse.largeObject?_eq_none h nofun]
    rfl
  | negated routine h id₁ id₂ equal r hr =>
    rw [LibraryUse.largeObject?_eq_none h nofun]
    rfl

theorem FoldCode.largeObjects_eq (h : FoldCode c n e) : e.largeObjects = n.largeObject?.toList := by
  cases h with
  | keep => simp
  | sum id x y j k r hkind hoperands hr hx hy =>
    simp [Node.largeObject?, Node.objectSize?, hkind, Literal.objectSize?]

end Passes

end IR

namespace Options

open IR (Module Code)

variable {options : Options} {p : Program} {m : Module} {c : Code}

theorem StageCode.largeObjects_sublist {stage : Stage} (h : options.StageCode p stage m c) :
    c.largeObjects.Sublist (large p.objects) ∧
      (options.optLevel = 0 ∨ stage ≠ .optimization → c.largeObjects = large p.objects) := by
  induction h with
  | translation _ hcode =>
    have heq := hcode.largeObjects_eq
    exact ⟨heq ▸ .refl _, fun _ => heq⟩
  | loops _ _ hunrolls ih =>
    have heq := (hunrolls.collect_eq IR.sparse_largeObject fun _ _ _ => rfl).trans (ih.2 (.inr nofun))
    exact ⟨heq ▸ .refl _, fun _ => heq⟩
  | libraryUses _ hmaps _ _ ih =>
    have heq := hmaps.largeObjects_eq fun _ _ he => he.largeObjects_eq
    rw [Code.largeObjects_relabel, heq, ih.2 (.inr nofun)]
    exact ⟨.refl _, fun _ => rfl⟩
  | unoptimized _ _ ih =>
    have heq := ih.2 (.inr nofun)
    exact ⟨heq ▸ .refl _, fun _ => heq⟩
  | @optimized _ _ c c₁ θ _ hlevel hmaps _ _ _ ih =>
    have heq := (hmaps.largeObjects_eq fun _ _ he => he.largeObjects_eq).trans (ih.2 (.inr nofun))
    rw [Code.largeObjects_relabel]
    refine ⟨heq ▸ Code.largeObjects_sweep c₁, fun hno => ?_⟩
    obtain hzero | hstage := hno
    · exact absurd hzero hlevel
    · exact absurd rfl hstage

end Options

end Choco
