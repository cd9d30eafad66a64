import Choco.IR.Kind

namespace Choco.IR

/-- What a flat operation asks for once its operands are known. -/
inductive Effect (α : Type) where
  /-- The result is this word. -/
  | value (w : Int32)
  /-- The result is what lies at `offset` behind `base`. -/
  | load (base : α) (offset : Int32)
  | store (base : α) (offset : Int32) (value : α)
  | next
  | goto (label : String)
  | call (func : String) (args : List α)
  | ret (value : α)
  /-- The result is the address of the operation's own location. -/
  | cell
deriving DecidableEq, Repr

namespace FlatOp

/-- The operands that an operation reads. -/
def inputs : FlatOp → List ValueId → List ValueId
  | .li _, _ | .jump _, _ | .label _, _ | .alloc, _ => []
  | _, operands => operands

/-- The effect of an operation on inputs that stand for words; without the right number of inputs it
has none. -/
def effect? (word : α → Int32) : FlatOp → List α → Option (Effect α)
  | .li n, _ => some (.value n)
  | .lw offset, [x] => some (.load x offset)
  | .sw offset, [x, y] => some (.store x offset y)
  | .alu op, [x, y] => some (.value (op.eval (word x) (word y)))
  | .addi n, [x] => some (.value (word x + n))
  | .seqz, [x] => some (.value (Word.ofBool (word x == 0)))
  | .snez, [x] => some (.value (Word.ofBool (word x != 0)))
  | .branch cond l, [x, y] => some (if cond.holds (word x) (word y) then .goto l else .next)
  | .jump l, _ => some (.goto l)
  | .label _, _ => some .next
  | .call func, xs => some (.call func xs)
  | .ret, [x] => some (.ret x)
  | .alloc, _ => some .cell
  | _, _ => none

end FlatOp

end Choco.IR
