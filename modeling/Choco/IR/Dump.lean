import Choco.IR.Encode
import Choco.IR.Module

namespace Choco.IR

namespace Module

def typeText? (m : Module) (v : ValueId) : Option String := m.values[v.index]?.map (·.ty.text)

def argText (m : Module) (v : ValueId) : String :=
  match m.typeText? v with
  | some ty => v.text ++ ": " ++ ty
  | none => v.text

def opText (m : Module) (id : OpId) : String :=
  match m.get? id with
  | none => "<erased>"
  | some op =>
    match op.kind with
    | .funcDef name returnTy =>
      let args := (op.regions.head?.map (·.args)).getD []
      "func_def @" ++ name ++ "(" ++ ", ".intercalate (args.map m.argText) ++ ") -> " ++ returnTy.text
    | kind =>
      let result := match op.result with
        | some v => v.text ++ " = "
        | none => ""
      let operands := if op.operands.isEmpty then "" else
        " " ++ ", ".intercalate (op.operands.map ValueId.text)
      let ty := match op.result >>= m.typeText? with
        | some ty => " : " ++ ty
        | none => ""
      result ++ kind.text ++ operands ++ ty

def dumpOp (m : Module) (level : Nat) : (n : Nat) → (id : OpId) → String
  | 0, _ => ""
  | n + 1, id =>
    match m.get? id with
    | none => Text.indent level ++ "<erased>\n"
    | some op =>
      let regions := op.regions.map fun r =>
        " \x7b\n" ++ String.join (r.ops.map (dumpOp m (level + 1) n)) ++ Text.indent level ++ "\x7d"
      Text.indent level ++ m.opText id ++ String.join regions ++ "\n"

def dump (m : Module) : String := String.join (m.body.ops.map (m.dumpOp 0 m.depthBound))

def valueToJson (m : Module) (v : ValueId) : Json :=
  .obj [("id", v.toJson), ("ty", .ofOption (fun info => ValueType.toJson info.ty) m.values[v.index]?)]

def opsToJson (m : Module) : (n : Nat) → (ops : List OpId) → List Json
  | 0, _ => []
  | n + 1, ops =>
    ops.filterMap fun id =>
      (m.get? id).map fun op =>
        .obj [("kind", op.kind.toJson), ("operands", .ofList ValueId.toJson op.operands),
          ("result", .ofOption m.valueToJson op.result),
          ("regions", .arr (op.regions.map fun r =>
            .obj [("args", .ofList m.valueToJson r.args), ("ops", .arr (opsToJson m n r.ops))]))]

def toJson (m : Module) : Json := .arr (m.opsToJson m.depthBound m.body.ops)

end Module

end Choco.IR
