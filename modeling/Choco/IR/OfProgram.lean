import Choco.IR.Build
import Choco.Library
import Choco.Scopes
import Choco.Syntax

namespace Choco.IR

inductive Symbol where
  | var (location : ValueId)
  | func (label : String)
deriving DecidableEq, Repr, Inhabited

/-- The names that can be used at one place of a program. -/
structure Names where
  tree : Scopes Symbol := {}
  scope : Nat := Scopes.global

namespace Names

def enter (names : Names) : Names :=
  let (scope, tree) := names.tree.enter names.scope
  ⟨tree, scope⟩

def define (names : Names) (name : String) (symbol : Symbol) : Except Error Names := do
  return { names with tree := ← names.tree.define names.scope name symbol }

def lookup? (names : Names) (name : String) : Option Symbol := names.tree.lookup? names.scope name

def location (names : Names) (name : String) : Except Error ValueId := do
  match ← names.tree.resolve names.scope name with
  | .var location => return location
  | .func _ => .error (.internal (.functionAsVariable name))

/-- The label of a function; what the program does not define may be a built-in. -/
def callee (names : Names) (name : String) : Except Error String :=
  match names.lookup? name with
  | some (.func label) => .ok label
  | some (.var _) => .error (.internal (.notAFunction name))
  | none => if builtins.contains name then .ok name else .error (.undefinedName name)

/-- Let a name stand here for what it stands for at the top of the program. -/
def declareGlobal (names : Names) (name : String) : Except Error Names := do
  names.define name (← names.tree.resolve Scopes.global name)

end Names

def resultType (op : BinaryOp) (lhs rhs : Ty) : Except Error Ty :=
  let mismatch := .error (.internal (.mismatchedTypes op lhs rhs))
  if op.isComparison then
    if op = .is ∨ lhs = rhs then .ok .bool else mismatch
  else
    match op, lhs, rhs with
    | .add, .list a, .list b => .ok (.list (a.join b))
    | .add, .empty, .list b => .ok (.list b)
    | .add, .list a, .empty => .ok (.list a)
    | _, _, _ => if lhs = rhs then .ok lhs else mismatch

namespace Build

def literal (value : Literal) (ty : Ty) : Build ValueId := emit (.literal value) [] (.plain ty)

/-- Load what a location holds; other values are as they are. -/
def load (v : ValueId) : Build ValueId := do
  match ← edit (Edit.query fun m => m.valueType v) with
  | .location ty => emit .load [v] (.plain ty)
  | _ => return v

def alloc (ty : Ty) : Build ValueId := emit (.alloc ty) [] (.location ty)

def character (base index : ValueId) : Build ValueId := do
  let address ← emit .indexString [base, index] (.location .int)
  let code ← emit .load [address] (.plain .int)
  emit .list [code] (.plain .str)

mutual

/-- The value of an expression. Names and list elements give their location. -/
def expr (names : Names) : Expr → Build ValueId
  | .literal value ty => literal value ty
  | .name x _ => ofExcept (names.location x)
  | .unary op operand ty => do
    let x ← load (← expr names operand)
    emit (.unary op) [x] (.plain ty)
  | .binary op lhs rhs _ => do
    if op.isShortCircuit then
      let onLeft ← yielding do load (← expr names lhs)
      let onRight ← yielding do load (← expr names rhs)
      emit (.shortCircuit op) [] (.plain .bool) [onLeft, onRight]
    else
      let ty ← ofExcept (resultType op lhs.ty rhs.ty)
      let x ← load (← expr names lhs)
      let y ← load (← expr names rhs)
      emit (.binary op) [x, y] (.plain ty)
  | .ifExpr cond onTrue onFalse ty => do
    let c ← load (← expr names cond)
    let first ← yielding do load (← expr names onTrue)
    let second ← yielding do load (← expr names onFalse)
    emit .ifExpr [c] (.plain ty) [first, second]
  | .list elems ty => do
    emit .list (← values names elems) (.plain ty)
  | .index base position _ => do
    let x ← load (← expr names base)
    let i ← load (← expr names position)
    match base.ty with
    | .str => character x i
    | .list elem => emit .getAddress [x, i] (.location elem)
    | other => throw (.internal (.cannotIndexType other))
  | .call func args ty => do
    let label ← ofExcept (names.callee func)
    emit (.call label) (← values names args) (.plain ty)

def values (names : Names) : List Expr → Build (List ValueId)
  | [] => return []
  | e :: es => do
    let v ← load (← expr names e)
    return v :: (← values names es)

end

def value (names : Names) (e : Expr) : Build ValueId := do load (← expr names e)

def target (names : Names) : Expr → Build ValueId
  | .name x _ => ofExcept (names.location x)
  | .index base position ty =>
    if base.ty.isList then expr names (.index base position ty)
    else throw (.internal (.notAssignable ty))
  | e => throw (.internal (.notAssignable e.ty))

def padded (body : Build Unit) : Build Region := do
  let region ← region body
  if region.ops.isEmpty then Build.region (emitVoid .pass []) else return region

mutual

def stmt (names : Names) : Stmt → Build Unit
  | .expr (.call func args _) => do
    let label ← ofExcept (names.callee func)
    emitVoid (.call label) (← values names args)
  | .expr e => do
    let _ ← value names e
  | .assign a => do
    let v ← value names a.value
    let locations ← a.targets.mapM (target names)
    emitVoid .assign (v :: locations)
  | .ret (some e) => do emitVoid .ret [← value names e]
  | .ret none => do emitVoid .ret [← literal .none .none]
  | .pass => emitVoid .pass []
  | .ifElse cond onTrue onFalse => do
    let c ← value names cond
    let first ← padded (stmts names onTrue)
    let second ← padded (stmts names onFalse)
    emitVoid .ifElse [c] [first, second]
  | .whileLoop cond body => do
    let test ← yielding (value names cond)
    let inner ← padded (stmts names body)
    emitVoid .whileLoop [] [test, inner]
  | .forLoop x iter body => do
    let sequence ← value names iter
    let location ← ofExcept (names.location x)
    let inner ← padded (stmts names body)
    emitVoid .forLoop [sequence, location] [inner]

def stmts (names : Names) : List Stmt → Build Unit
  | [] => return
  | s :: rest => do
    stmt names s
    stmts names rest

end

def varDef (names : Names) (v : VarDef) : Build Names := do
  let location ← alloc v.ty
  let init ← literal v.init v.init.ty
  emitVoid .store [location, init]
  ofExcept (names.define v.name (.var location))

/-- Parameters are stored on entry and are variables from then on. -/
def params (names : Names) (region : Region) : List Param → Build (Names × Region)
  | [] => return (names, region)
  | p :: rest => do
    let (arg, region) ← edit (Edit.make fun m =>
      let (arg, region, m) := m.addArg region (.plain p.ty)
      ((arg, region), m))
    let location ← alloc p.ty
    emitVoid .store [location, arg]
    let names ← ofExcept (names.define p.name (.var location))
    params names region rest

/-- The variables of a function, and the global ones that it declares to use. -/
def locals (names : Names) : List Decl → Build Names
  | [] => return names
  | .var v :: rest => do locals (← varDef names v) rest
  | .global x :: rest => do locals (← ofExcept (names.declareGlobal x)) rest
  | .func _ :: rest | .nonlocal _ :: rest => locals names rest

/-- Bind the functions that are declared side by side; their labels start with `path`. -/
def bindFunctions (names : Names) (path : String) : List Decl → Except Error Names
  | [] => .ok names
  | .func f :: rest => do bindFunctions (← names.define f.name (.func (path ++ f.name))) path rest
  | _ :: rest => bindFunctions names path rest

/-- A function that ends without a `return` returns `None`. -/
def implicitReturn : Build Unit := do emitVoid .ret [← literal .none .none]

mutual

/-- A function and those inside it; the outer one comes last. -/
def function (names : Names) (label : String) : FuncDef → Build (List OpId)
  | ⟨_, ps, returnTy, decls, body⟩ => do
    let ((region, inner), ops) ← block do
      let (names, region) ← params names.enter {} ps
      let names ← locals names decls
      let names ← ofExcept (bindFunctions names (label ++ ".") decls)
      let inner ← functions names (label ++ ".") decls
      stmts names body
      implicitReturn
      return (region, inner)
    let id ← edit (Edit.make fun m => m.create (.funcDef label returnTy) [] [{ region with ops }])
    return inner ++ [id]

def functions (names : Names) (path : String) : List Decl → Build (List OpId)
  | [] => return []
  | .func f :: rest => do
    let first ← function names (path ++ f.name) f
    return first ++ (← functions names path rest)
  | _ :: rest => functions names path rest

end

def globals (names : Names) : List Decl → Build Names
  | [] => return names
  | .var v :: rest => do globals (← varDef names v) rest
  | _ :: rest => globals names rest

/-- At the top, a function may not have the entry function's name, and there is nothing that a
scope declaration could refer to. -/
def checkTop : List Decl → Except Error Unit
  | [] => .ok ()
  | .var _ :: rest => checkTop rest
  | .func f :: rest => if f.name = entryFunction then .error (.duplicateDefinition f.name) else checkTop rest
  | .global x :: _ | .nonlocal x :: _ => .error (.internal (.scopeDeclAtTopLevel x))

/-- The entry function, then the functions of the program in the order in which they end. -/
def program (p : Program) : Build Unit := do
  let (inner, ops) ← block do
    let names ← globals {} p.decls
    ofExcept (checkTop p.decls)
    let names ← ofExcept (bindFunctions names "" p.decls)
    let inner ← functions names "" p.decls
    stmts names p.stmts
    implicitReturn
    return inner
  let main ← edit (Edit.make fun m => m.create (.funcDef entryFunction .none) [] [{ ops }])
  edit ((main :: inner).forM Edit.pushFunction)

end Build

def Module.ofProgram (p : Program) : Except Error Module :=
  match Build.program p {} with
  | .ok () b => .ok b.module
  | .error e _ => .error e

end Choco.IR
