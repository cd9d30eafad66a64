import Choco.Ty

namespace Choco

inductive Literal where
  | int (value : Int32)
  | bool (value : Bool)
  | str (value : String)
  | none
deriving DecidableEq, Repr, Inhabited

inductive UnaryOp where
  | neg
  | not
deriving DecidableEq, Repr, Inhabited

inductive BinaryOp where
  | add | sub | mul | floorDiv | mod
  | eq | notEq | lt | ltEq | gt | gtEq | is
  | and | or
deriving DecidableEq, Repr, Inhabited

/-- The last component of each shape is the static type of the whole expression. -/
inductive Expr where
  | literal (value : Literal) (ty : Ty)
  | name (name : String) (ty : Ty)
  | unary (op : UnaryOp) (operand : Expr) (ty : Ty)
  | binary (op : BinaryOp) (lhs rhs : Expr) (ty : Ty)
  | ifExpr (cond onTrue onFalse : Expr) (ty : Ty)
  | list (elems : List Expr) (ty : Ty)
  | index (base index : Expr) (ty : Ty)
  | call (func : String) (args : List Expr) (ty : Ty)
deriving Repr, Inhabited

/-- The assignment `target = others₀ = others₁ = … = value`; `others` is empty in a plain one. -/
structure Assign where
  target : Expr
  others : List Expr
  value : Expr
deriving Repr, Inhabited

inductive Stmt where
  | expr (value : Expr)
  | assign (assign : Assign)
  | ret (value : Option Expr)
  | pass
  | ifElse (cond : Expr) (onTrue onFalse : List Stmt)
  | whileLoop (cond : Expr) (body : List Stmt)
  | forLoop (target : String) (iter : Expr) (body : List Stmt)
deriving Repr, Inhabited

structure VarDef where
  name : String
  ty : Ty
  init : Literal
deriving DecidableEq, Repr, Inhabited

structure Param where
  name : String
  ty : Ty
deriving DecidableEq, Repr, Inhabited

mutual

inductive Decl where
  | var (def_ : VarDef)
  | func (def_ : FuncDef)
  | global (name : String)
  | nonlocal (name : String)

structure FuncDef where
  name : String
  params : List Param
  returnTy : Ty
  decls : List Decl
  body : List Stmt

end

structure Program where
  decls : List Decl
  stmts : List Stmt

namespace Literal

def ty : Literal → Ty
  | .int _ => .int
  | .bool _ => .bool
  | .str _ => .str
  | .none => .none

end Literal

namespace UnaryOp

def text : UnaryOp → String
  | .neg => "-"
  | .not => "not"

end UnaryOp

namespace BinaryOp

def text : BinaryOp → String
  | .add => "+"
  | .sub => "-"
  | .mul => "*"
  | .floorDiv => "//"
  | .mod => "%"
  | .eq => "=="
  | .notEq => "!="
  | .lt => "<"
  | .ltEq => "<="
  | .gt => ">"
  | .gtEq => ">="
  | .is => "is"
  | .and => "and"
  | .or => "or"

def isComparison : BinaryOp → Bool
  | .eq | .notEq | .lt | .ltEq | .gt | .gtEq | .is => true
  | _ => false

/-- The right operand is evaluated only if the left one does not decide the result. -/
def isShortCircuit : BinaryOp → Bool
  | .and | .or => true
  | _ => false

/-- The operation stops the program when the divisor is zero. -/
def canTrap : BinaryOp → Bool
  | .floorDiv | .mod => true
  | _ => false

end BinaryOp

namespace Expr

def ty : Expr → Ty
  | .literal _ ty | .name _ ty | .unary _ _ ty | .binary _ _ _ ty | .ifExpr _ _ _ ty
  | .list _ ty | .index _ _ ty | .call _ _ ty => ty

def ofInt (n : Int32) : Expr := .literal (.int n) .int

def ofBool (b : Bool) : Expr := .literal (.bool b) .bool

def ofStr (s : String) : Expr := .literal (.str s) .str

def noneLiteral : Expr := .literal .none .none

def ofUnary (op : UnaryOp) (operand : Expr) : Expr := .unary op operand operand.ty

/-- A conditional expression of the join of its arms' types. -/
def ofIf (cond onTrue onFalse : Expr) : Expr :=
  .ifExpr cond onTrue onFalse (onTrue.ty.join onFalse.ty)

end Expr

namespace Assign

def targets (a : Assign) : List Expr := a.target :: a.others

end Assign

namespace Stmt

/-- Without a target the assignment is only an evaluation. -/
def assignAll : List Expr → Expr → Stmt
  | [], value => .expr value
  | target :: others, value => .assign ⟨target, others, value⟩

def print (value : Expr) : Stmt := .expr (.call "print" [value] .none)

end Stmt

namespace FuncDef

def ofBody (name : String) (params : List Param) (returnTy : Ty) (body : List Stmt) : FuncDef :=
  ⟨name, params, returnTy, [], body⟩

end FuncDef

end Choco
