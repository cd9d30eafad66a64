import Choco.Json.Basic
import Choco.Syntax

namespace Choco

def Json.tagged (tag : String) (contents : Json) : Json := .obj [(tag, contents)]

def Ty.toJson : Ty → Json
  | .int => .str "Int"
  | .bool => .str "Bool"
  | .str => .str "Str"
  | .none => .str "None"
  | .empty => .str "Empty"
  | .object => .str "Object"
  | .list elem => .tagged "List" elem.toJson

def Literal.toJson : Literal → Json
  | .int n => .tagged "Int" (.ofInt32 n)
  | .bool b => .tagged "Bool" (.bool b)
  | .str s => .tagged "Str" (.str s)
  | .none => .str "None"

def UnaryOp.tag : UnaryOp → String
  | .neg => "Neg"
  | .not => "Not"

def BinaryOp.tag : BinaryOp → String
  | .add => "Add"
  | .sub => "Sub"
  | .mul => "Mul"
  | .floorDiv => "FloorDiv"
  | .mod => "Mod"
  | .eq => "Eq"
  | .notEq => "NotEq"
  | .lt => "Lt"
  | .ltEq => "LtEq"
  | .gt => "Gt"
  | .gtEq => "GtEq"
  | .is => "Is"
  | .and => "And"
  | .or => "Or"

def Expr.record (shape : Json) (ty : Ty) : Json := .obj [("kind", shape), ("ty", ty.toJson)]

mutual

def Expr.toJson : Expr → Json
  | .literal value ty => Expr.record (.tagged "Literal" value.toJson) ty
  | .name x ty => Expr.record (.tagged "Name" (.str x)) ty
  | .unary op operand ty =>
    Expr.record (.tagged "Unary" (.obj [("op", .str op.tag), ("operand", operand.toJson)])) ty
  | .binary op lhs rhs ty =>
    Expr.record
      (.tagged "Binary" (.obj [("op", .str op.tag), ("lhs", lhs.toJson), ("rhs", rhs.toJson)])) ty
  | .ifExpr cond onTrue onFalse ty =>
    Expr.record (.tagged "IfExpr" (.obj
      [("cond", cond.toJson), ("then", onTrue.toJson), ("orelse", onFalse.toJson)])) ty
  | .list elems ty => Expr.record (.tagged "List" (.arr (Expr.listToJson elems))) ty
  | .index base position ty =>
    Expr.record (.tagged "Index" (.obj [("value", base.toJson), ("index", position.toJson)])) ty
  | .call func args ty =>
    Expr.record (.tagged "Call" (.obj [("func", .str func), ("args", .arr (Expr.listToJson args))])) ty

def Expr.listToJson : List Expr → List Json
  | [] => []
  | e :: es => e.toJson :: Expr.listToJson es

end

/-- A chain is written from the outside in, one target a level. -/
def Assign.chainToJson (target : Expr) (others : List Expr) (value : Expr) : Json :=
  let rest := match others with
    | [] => .tagged "Expr" value.toJson
    | next :: others => .tagged "Chain" (Assign.chainToJson next others value)
  .obj [("target", target.toJson), ("value", rest)]

def Assign.toJson (a : Assign) : Json := Assign.chainToJson a.target a.others a.value

mutual

def Stmt.toJson : Stmt → Json
  | .expr value => .tagged "Expr" value.toJson
  | .assign a => .tagged "Assign" a.toJson
  | .ret none => .tagged "Return" .null
  | .ret (some value) => .tagged "Return" value.toJson
  | .pass => .str "Pass"
  | .ifElse cond onTrue onFalse =>
    .tagged "If" (.obj [("cond", cond.toJson), ("then", .arr (Stmt.listToJson onTrue)),
      ("orelse", .arr (Stmt.listToJson onFalse))])
  | .whileLoop cond body =>
    .tagged "While" (.obj [("cond", cond.toJson), ("body", .arr (Stmt.listToJson body))])
  | .forLoop target iter body =>
    .tagged "For" (.obj [("target", .str target), ("iter", iter.toJson),
      ("body", .arr (Stmt.listToJson body))])

def Stmt.listToJson : List Stmt → List Json
  | [] => []
  | s :: ss => s.toJson :: Stmt.listToJson ss

end

def VarDef.toJson (v : VarDef) : Json :=
  .obj [("name", .str v.name), ("ty", v.ty.toJson), ("init", v.init.toJson)]

def Param.toJson (p : Param) : Json := .obj [("name", .str p.name), ("ty", p.ty.toJson)]

mutual

def Decl.toJson : Decl → Json
  | .var v => .tagged "Var" v.toJson
  | .func f => .tagged "Func" f.toJson
  | .global name => .tagged "Global" (.str name)
  | .nonlocal name => .tagged "NonLocal" (.str name)

def FuncDef.toJson : FuncDef → Json
  | ⟨name, params, returnTy, decls, body⟩ =>
    .obj [("name", .str name), ("params", .arr (params.map Param.toJson)),
      ("return_type", returnTy.toJson), ("decls", .arr (Decl.listToJson decls)),
      ("body", .arr (Stmt.listToJson body))]

def Decl.listToJson : List Decl → List Json
  | [] => []
  | d :: ds => d.toJson :: Decl.listToJson ds

end

def Program.toJson (p : Program) : Json :=
  .obj [("decls", .arr (Decl.listToJson p.decls)), ("stmts", .arr (Stmt.listToJson p.stmts))]

end Choco
