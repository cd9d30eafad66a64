import Choco.Library
import Choco.Syntax

namespace Choco

/-- A variable: the label of the function that declares it, and its name there. -/
structure Variable where
  owner : String
  name : String
deriving DecidableEq

/-- What a declaration makes of a name. -/
inductive Entity where
  | var (v : Variable)
  | func (label : String)
deriving DecidableEq

/-- The declarations in the scopes around a place, those of the nearest scope first. -/
abbrev Environment := List (List (String × Entity))

/-- A use of a name, where variables are given by `α`. -/
inductive Reference (α : Type) where
  | read (v : α)
  | assigned (v : α)
  | bound (v : α)
  | call (label : String)
  | builtin (func : String)
  /-- No declaration in sight makes the use possible. -/
  | dangling (name : String)
deriving DecidableEq

/-- What is seen of a function: its variables, in the order of their declarations, and the uses of names in
its body. -/
structure Outline (α : Type) where
  label : String
  vars : List (α × Ty)
  references : List (Reference α)
deriving DecidableEq

namespace Reference

variable {α β γ : Type}

def map (f : α → β) : Reference α → Reference β
  | read v => read (f v)
  | assigned v => assigned (f v)
  | bound v => bound (f v)
  | call label => call label
  | builtin func => builtin func
  | dangling name => dangling name

end Reference

def Outline.map {α β : Type} (f : α → β) (o : Outline α) : Outline β :=
  ⟨o.label, o.vars.map (Prod.map f id), o.references.map (Reference.map f)⟩

namespace Environment

/-- The nearest declaration of a name. -/
def nearest? (env : Environment) (x : String) : Option Entity := env.findSome? fun table => table.lookup x

/-- The declaration of a name at the top of the program. -/
def outermost? (env : Environment) (x : String) : Option Entity :=
  env.getLast? >>= fun table => table.lookup x

/-- A use of a name as a variable. -/
def use (env : Environment) (how : Variable → Reference Variable) (x : String) : Reference Variable :=
  match env.nearest? x with
  | some (.var v) => how v
  | _ => .dangling x

/-- A call by a name: a built-in function is meant only if no declaration of the name is in sight. -/
def called (env : Environment) (func : String) : Reference Variable :=
  match env.nearest? func with
  | some (.func label) => .call label
  | some (.var _) => .dangling func
  | none => if builtins.contains func then .builtin func else .dangling func

end Environment

/-- What a declaration in the function with a label declares; functions get labels that start with `path`. -/
def Decl.entity? (env : Environment) (label path : String) : Decl → Option (String × Entity)
  | .var v => some (v.name, .var ⟨label, v.name⟩)
  | .func f => some (f.name, .func (path ++ f.name))
  | .global x => (env.outermost? x).map fun e => (x, e)
  | .nonlocal _ => none

def Decl.var? (label : String) : Decl → Option (Variable × Ty)
  | .var v => some (⟨label, v.name⟩, v.ty)
  | _ => none

/-- The parameters and local variables of the function with a label. -/
def declaredVariables (label : String) (params : List Param) (decls : List Decl) : List (Variable × Ty) :=
  params.map (fun p => (⟨label, p.name⟩, p.ty)) ++ decls.filterMap (Decl.var? label)

/-- What is in sight in the body of a function. -/
def Environment.inside (env : Environment) (label : String) (params : List Param) (decls : List Decl) :
    Environment :=
  (params.map (fun p => (p.name, .var ⟨label, p.name⟩)) ++ decls.filterMap
    (Decl.entity? env label (label ++ "."))) :: env

/-- What is in sight at the top of a program; its variables belong to the entry function. -/
def Program.environment (p : Program) : Environment := [p.decls.filterMap (Decl.entity? [] entryFunction "")]

mutual

/-- The uses of names in an expression: those of its parts from left to right, and then its own. -/
def Expr.references (env : Environment) : Expr → List (Reference Variable)
  | .literal _ _ => []
  | .name x _ => [env.use .read x]
  | .unary _ operand _ => operand.references env
  | .binary _ lhs rhs _ => lhs.references env ++ rhs.references env
  | .ifExpr cond onTrue onFalse _ => cond.references env ++ (onTrue.references env ++ onFalse.references env)
  | .list elems _ => Expr.listReferences env elems
  | .index base position _ => base.references env ++ position.references env
  | .call func args _ => Expr.listReferences env args ++ [env.called func]

def Expr.listReferences (env : Environment) : List Expr → List (Reference Variable)
  | [] => []
  | e :: es => e.references env ++ Expr.listReferences env es

end

/-- The uses of names that finding out the location of an expression takes; that of a variable takes none. -/
def Expr.placeReferences (env : Environment) : Expr → List (Reference Variable)
  | .name _ _ => []
  | e => e.references env

/-- The variable that an assignment to an expression changes. -/
def Expr.assigned (env : Environment) : Expr → List (Reference Variable)
  | .name x _ => [env.use .assigned x]
  | _ => []

mutual

/-- The uses of names in a statement. An assignment evaluates its right side, then the places of its targets,
and then stores; a loop evaluates what it goes through once, and binds its variable before it runs its
body. -/
def Stmt.references (env : Environment) : Stmt → List (Reference Variable)
  | .expr e => e.references env
  | .assign a =>
    a.value.references env ++ (a.targets.flatMap (Expr.placeReferences env) ++ a.targets.flatMap
      (Expr.assigned env))
  | .ret (some e) => e.references env
  | .ret none | .pass => []
  | .ifElse cond onTrue onFalse =>
    cond.references env ++ (Stmt.listReferences env onTrue ++ Stmt.listReferences env onFalse)
  | .whileLoop cond body => cond.references env ++ Stmt.listReferences env body
  | .forLoop x iter body => iter.references env ++ (env.use .bound x :: Stmt.listReferences env body)

def Stmt.listReferences (env : Environment) : List Stmt → List (Reference Variable)
  | [] => []
  | s :: rest => s.references env ++ Stmt.listReferences env rest

end

mutual

def FuncDef.outlines (env : Environment) (label : String) : FuncDef → List (Outline Variable)
  | ⟨_, params, _, decls, body⟩ =>
    Decl.outlines (env.inside label params decls) (label ++ ".") decls ++
      [⟨label, declaredVariables label params decls,
        Stmt.listReferences (env.inside label params decls) body⟩]

def Decl.outlines (env : Environment) (path : String) : List Decl → List (Outline Variable)
  | [] => []
  | .func f :: rest => f.outlines env (path ++ f.name) ++ Decl.outlines env path rest
  | .var _ :: rest | .global _ :: rest | .nonlocal _ :: rest => Decl.outlines env path rest

end

/-- The functions of a program, the entry function first. -/
def Program.outlines (p : Program) : List (Outline Variable) :=
  ⟨entryFunction, declaredVariables entryFunction [] p.decls, Stmt.listReferences p.environment p.stmts⟩ ::
    Decl.outlines p.environment "" p.decls

end Choco
