import Choco.IR.Edit

namespace Choco.IR

/-- An operation of this kind may be dropped when its result is not used: it cannot stop the
program, touches no memory, calls nothing and has no regions. -/
def Kind.isPure : Kind → Bool
  | .literal _ | .unary _ => true
  | .binary op => !op.canTrap
  | _ => false

namespace Module

def intLiteral? (m : Module) (v : ValueId) : Option Int32 :=
  match m.definingOp? v with
  | some ⟨.literal (.int n), _, _, _, _⟩ => some n
  | _ => none

def literalSum? (m : Module) (op : Op) : Option Int32 :=
  match op.kind, op.operands with
  | .binary .add, [lhs, rhs] => do return (← m.intLiteral? lhs) + (← m.intLiteral? rhs)
  | _, _ => none

def isDead (m : Module) (op : Op) : Bool :=
  op.result.any (fun v => !m.hasUsers v) && op.kind.isPure

end Module

namespace Edit

/-- Put a literal in the place of an addition of literals, and say whether it was one. -/
def foldSum (id : OpId) : Edit Bool := do
  let old ← op id
  match ← query fun m => .ok (m.literalSum? old) with
  | some sum =>
    let (literal, v) ← make fun m =>
      let (literal, v, m) := m.createValue (.literal (.int sum)) [] (.plain .int) []
      ((literal, v), m)
    replaceOp id [literal] [v]
    return true
  | none => return false

/-- Fold every addition of literals and count them. The operands of an addition come before it, so
that a chain of additions folds to its end. -/
def foldSums : Edit Nat := do
  let ops ← query fun m => .ok m.walk
  ops.foldlM (fun count id => do
    if ← query fun m => .ok (m.isLive id) then
      return if ← foldSum id then count + 1 else count
    else return count) 0

/-- Drop dead operations of a region and of those nested in it, down to `n` levels, from the last to
the first, so that the operands of a dropped operation can be dropped in turn. -/
def dropDeadWithin : (n : Nat) → Place → Edit Nat
  | 0, _ => throw (.internal .endlessNesting)
  | n + 1, place => do
    let region ← query fun m => m.region place
    region.ops.reverse.foldlM (fun count id => do
      if ← query fun m => .ok (m.isLive id) then
        let nested ← (List.range (← op id).regions.length).mapM fun index =>
          dropDeadWithin n (.nested id index)
        let count := count + nested.sum
        let old ← op id
        if ← query fun m => .ok (m.isDead old) then
          erase id
          return count + 1
        else return count
      else return count) 0

def dropDead : Edit Nat := fun m => dropDeadWithin m.depthBound .top m

end Edit

structure Savings where
  folded : Nat := 0
  eliminated : Nat := 0
deriving DecidableEq, Repr, Inhabited

def Edit.optimize (level : Nat) : Edit Savings := do
  if level = 0 then return {}
  let folded ← foldSums
  let eliminated ← dropDead
  return { folded, eliminated }

end Choco.IR
