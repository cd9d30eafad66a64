import Choco.Json.Decode
import Choco.Json.Reader
import Choco.Syntax

namespace Choco

open Json (record? tag? variant?)

def Ty.ofTag? : String → Option Ty
  | "Int" => some .int
  | "Bool" => some .bool
  | "Str" => some .str
  | "None" => some .none
  | "Empty" => some .empty
  | "Object" => some .object
  | _ => Option.none

def Ty.decode : Nat → Json → Option Ty
  | n, .str tag => tag? n (.str tag) >>= Ty.ofTag?
  | n + 1, .obj [("List", elem)] => (Ty.decode n elem).map .list
  | n, j => tag? n j >>= Ty.ofTag?

def Literal.decode : Nat → Json → Option Literal
  | _, .str "None" => some .none
  | _ + 1, .obj [("Int", v)] => v.asInt32?.map .int
  | _ + 1, .obj [("Bool", v)] => v.asBool?.map .bool
  | _ + 1, .obj [("Str", v)] => v.asStr?.map .str
  | _ + 1, .obj [("None", .null)] => some .none
  | _, _ => Option.none

def UnaryOp.ofTag? : String → Option UnaryOp
  | "Neg" => some .neg
  | "Not" => some .not
  | _ => none

def UnaryOp.decode (n : Nat) (j : Json) : Option UnaryOp := tag? n j >>= UnaryOp.ofTag?

def BinaryOp.ofTag? : String → Option BinaryOp
  | "Add" => some .add
  | "Sub" => some .sub
  | "Mul" => some .mul
  | "FloorDiv" => some .floorDiv
  | "Mod" => some .mod
  | "Eq" => some .eq
  | "NotEq" => some .notEq
  | "Lt" => some .lt
  | "LtEq" => some .ltEq
  | "Gt" => some .gt
  | "GtEq" => some .gtEq
  | "Is" => some .is
  | "And" => some .and
  | "Or" => some .or
  | _ => none

def BinaryOp.decode (n : Nat) (j : Json) : Option BinaryOp := tag? n j >>= BinaryOp.ofTag?

mutual

/-- An expression is a record of its shape and its type. -/
def Expr.decode : Nat → Json → Option Expr
  | n + 1, j => do
    let [shape, ty] ← record? ["kind", "ty"] j | none
    Expr.decodeShape (← Ty.decode n ty) n shape
  | 0, _ => none

def Expr.decodeShape (ty : Ty) : Nat → Json → Option Expr
  | n + 1, j => do
    match ← j.variant? with
    | ("Literal", v) => return .literal (← Literal.decode n v) ty
    | ("Name", v) => return .name (← v.asStr?) ty
    | ("List", v) => return .list (← Expr.decodeItems n v) ty
    | (tag, v) => Expr.decodeParts ty tag n v
  | 0, _ => none

def Expr.decodeParts (ty : Ty) (tag : String) : Nat → Json → Option Expr
  | n + 1, j =>
    match tag with
    | "Unary" => do
      let [op, operand] ← record? ["op", "operand"] j | none
      return .unary (← UnaryOp.decode n op) (← Expr.decode n operand) ty
    | "Binary" => do
      let [op, lhs, rhs] ← record? ["op", "lhs", "rhs"] j | none
      return .binary (← BinaryOp.decode n op) (← Expr.decode n lhs) (← Expr.decode n rhs) ty
    | "IfExpr" => do
      let [cond, onTrue, onFalse] ← record? ["cond", "then", "orelse"] j | none
      return .ifExpr (← Expr.decode n cond) (← Expr.decode n onTrue) (← Expr.decode n onFalse) ty
    | "Index" => do
      let [base, position] ← record? ["value", "index"] j | none
      return .index (← Expr.decode n base) (← Expr.decode n position) ty
    | "Call" => do
      let [func, args] ← record? ["func", "args"] j | none
      return .call (← func.asStr?) (← Expr.decodeItems n args) ty
    | _ => none
  | 0, _ => none

def Expr.decodeItems : Nat → Json → Option (List Expr)
  | n + 1, .arr items => items.mapM (Expr.decode n)
  | _, _ => none

end

mutual

def Assign.decode : Nat → Json → Option Assign
  | n + 1, j => do
    let [target, value] ← record? ["target", "value"] j | none
    let (others, value) ← Assign.decodeRest n value
    return ⟨← Expr.decode n target, others, value⟩
  | 0, _ => none

/-- The targets after the first one, and what is assigned. -/
def Assign.decodeRest : Nat → Json → Option (List Expr × Expr)
  | n + 1, j => do
    match ← j.variant? with
    | ("Expr", v) => return ([], ← Expr.decode n v)
    | ("Chain", v) =>
      let a ← Assign.decode n v
      return (a.targets, a.value)
    | _ => none
  | 0, _ => none

end

mutual

def Stmt.decode : Nat → Json → Option Stmt
  | _, .str "Pass" => some .pass
  | n + 1, j => do
    match ← j.variant? with
    | ("Expr", v) => return .expr (← Expr.decode n v)
    | ("Assign", v) => return .assign (← Assign.decode n v)
    | ("Return", v) => if v.isNull then return .ret none else return .ret (some (← Expr.decode n v))
    | ("Pass", v) => if v.isNull then return .pass else none
    | (tag, v) => Stmt.decodeParts tag n v
  | 0, _ => none

def Stmt.decodeParts (tag : String) : Nat → Json → Option Stmt
  | n + 1, j =>
    match tag with
    | "If" => do
      let [cond, onTrue, onFalse] ← record? ["cond", "then", "orelse"] j | none
      return .ifElse (← Expr.decode n cond) (← Stmt.decodeItems n onTrue) (← Stmt.decodeItems n onFalse)
    | "While" => do
      let [cond, body] ← record? ["cond", "body"] j | none
      return .whileLoop (← Expr.decode n cond) (← Stmt.decodeItems n body)
    | "For" => do
      let [target, iter, body] ← record? ["target", "iter", "body"] j | none
      return .forLoop (← target.asStr?) (← Expr.decode n iter) (← Stmt.decodeItems n body)
    | _ => none
  | 0, _ => none

def Stmt.decodeItems : Nat → Json → Option (List Stmt)
  | n + 1, .arr items => items.mapM (Stmt.decode n)
  | _, _ => none

end

def VarDef.decode : Nat → Json → Option VarDef
  | n + 1, j => do
    let [name, ty, init] ← record? ["name", "ty", "init"] j | none
    return ⟨← name.asStr?, ← Ty.decode n ty, ← Literal.decode n init⟩
  | 0, _ => none

def Param.decode : Nat → Json → Option Param
  | n + 1, j => do
    let [name, ty] ← record? ["name", "ty"] j | none
    return ⟨← name.asStr?, ← Ty.decode n ty⟩
  | 0, _ => none

def Param.decodeItems : Nat → Json → Option (List Param)
  | n + 1, .arr items => items.mapM (Param.decode n)
  | _, _ => none

mutual

def Decl.decode : Nat → Json → Option Decl
  | n + 1, j => do
    match ← j.variant? with
    | ("Var", v) => return .var (← VarDef.decode n v)
    | ("Func", v) => return .func (← FuncDef.decode n v)
    | ("Global", v) => return .global (← v.asStr?)
    | ("NonLocal", v) => return .nonlocal (← v.asStr?)
    | _ => none
  | 0, _ => none

def FuncDef.decode : Nat → Json → Option FuncDef
  | n + 1, j => do
    let [name, params, returnTy, decls, body] ←
      record? ["name", "params", "return_type", "decls", "body"] j | none
    return ⟨← name.asStr?, ← Param.decodeItems n params, ← Ty.decode n returnTy, ← Decl.decodeItems n decls,
      ← Stmt.decodeItems n body⟩
  | 0, _ => none

def Decl.decodeItems : Nat → Json → Option (List Decl)
  | n + 1, .arr items => items.mapM (Decl.decode n)
  | _, _ => none

end

def Program.decode : Nat → Json → Option Program
  | n + 1, j => do
    let [decls, stmts] ← record? ["decls", "stmts"] j | none
    return ⟨← Decl.decodeItems n decls, ← Stmt.decodeItems n stmts⟩
  | 0, _ => none

/-- Decode a value given as such: its own depth bounds the levels it can need. -/
def Json.decodeWith? (decode : Nat → Json → Option α) (j : Json) : Option α := decode j.depth j

def Program.maxTextDepth : Nat := 127

def Program.ofText? (text : String) : Option Program :=
  Json.parse? text >>= Program.decode Program.maxTextDepth

end Choco
