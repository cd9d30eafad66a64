import Choco.IR.OfProgram

namespace Choco.IR

namespace Build

def element (sequence : ValueId) (ty : Ty) (index : ValueId) : Build ValueId :=
  match ty with
  | .str => character sequence index
  | .list elem => do
    let address ← emit .getAddress [sequence, index] (.location elem)
    emit .load [address] (.plain elem)
  | other => throw (.internal (.cannotIterate other))

/-- The loop over `sequence` that stores each element to `target` and runs region 0 of `loop`. -/
def whileOfFor (loop : OpId) (sequence target : ValueId) (ty : Ty) : Build Unit := do
  let index ← alloc .int
  let zero ← literal (.int 0) .int
  emitVoid .store [index, zero]
  let test ← yielding do
    let length ← emit (.call "len") [sequence] (.plain .int)
    let current ← emit .load [index] (.plain .int)
    emit (.binary .lt) [current, length] (.plain .bool)
  let body ← region do
    let current ← emit .load [index] (.plain .int)
    let item ← element sequence ty current
    emitVoid .store [target, item]
    append (← edit (Edit.takeRegion loop 0)).ops
    let current ← emit .load [index] (.plain .int)
    let one ← literal (.int 1) .int
    let next ← emit (.binary .add) [current, one] (.plain .int)
    emitVoid .store [index, next]
  emitVoid .whileLoop [] [test, body]

end Build

namespace Edit

def replaceFor (loop : OpId) : Edit Unit := do
  match (← op loop).operands with
  | [sequence, target] =>
    let some ty := (← query fun m => m.valueType sequence).source? | throw (.internal .forOverNonValue)
    let ((), ops) ← Build.collect (Build.whileOfFor loop sequence target ty)
    replaceOp loop ops []
  | operands => throw (.internal (.forOperands operands.length))

def replaceLoops : Edit Nat := do
  let loops ← query fun m => .ok (m.walk.filter fun id => (m.get? id).any (·.kind = .forLoop))
  loops.forM replaceFor
  return loops.length

end Edit

end Choco.IR
