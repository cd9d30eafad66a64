import Choco.IR.Build
import Choco.Library

namespace Choco.IR

inductive LibraryUse where
  | keep
  | call (routine : String)
  | negated (routine : String)
deriving DecidableEq, Repr, Inhabited

namespace LibraryUse

def ofPrint : Ty → Except Error LibraryUse
  | .int => .ok (.call Library.printInt)
  | .bool => .ok (.call Library.printBool)
  | .str => .ok (.call Library.printStr)
  | ty => .error (.unimplemented (.printOfType ty))

def ofOp (kind : Kind) (tys : List Ty) : Except Error LibraryUse :=
  match kind, tys with
  | .call "print", [ty] => ofPrint ty
  | .call "print", tys => .error (.internal (.builtinArity "print" tys.length))
  | .call "input", [] => .ok (.call Library.input)
  | .call "input", tys => .error (.internal (.builtinArity "input" tys.length))
  | .binary .add, [lhs, _] => .ok (if lhs.isSequence then .call Library.concat else .keep)
  | .binary .eq, [.str, .str] => .ok (.call Library.strEq)
  | .binary .notEq, [.str, .str] => .ok (.negated Library.strEq)
  | _, _ => .ok .keep

end LibraryUse

namespace Module

/-- The type of an operand; what is no plain value counts as an object. -/
def operandType (m : Module) (v : ValueId) : Except Error Ty := do
  return (← m.valueType v).source?.getD .object

end Module

namespace Edit

def replaceNegated (id : OpId) (routine : String) : Edit Unit := do
  let operands := (← op id).operands
  let (result, ops) ← Build.collect do
    let equal ← Build.emit (.call routine) operands (.plain .bool)
    Build.emit (.unary .not) [equal] (.plain .bool)
  replaceOp id ops [result]

/-- Make an operation a library call where it is one, and say whether it was. -/
def replaceLibraryUse (id : OpId) : Edit Bool := do
  let old ← op id
  let tys ← query fun m => old.operands.mapM m.operandType
  match ← query fun _ => LibraryUse.ofOp old.kind tys with
  | .keep => return false
  | .call routine =>
    setKind id (.call routine)
    return true
  | .negated routine =>
    replaceNegated id routine
    return true

/-- Replace every use of the library that is live when its turn comes, and count them. -/
def replaceLibraryUses : Edit Nat := do
  let ops ← query fun m => .ok m.walk
  ops.foldlM (fun count id => do
    if ← query fun m => .ok (m.isLive id) then
      return if ← replaceLibraryUse id then count + 1 else count
    else return count) 0

end Edit

end Choco.IR
