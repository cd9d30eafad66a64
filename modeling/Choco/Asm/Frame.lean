import Choco.IR.Module

namespace Choco.Asm

open IR (Module OpId ValueId)

structure Frame where
  /-- Offsets of values. A value that is listed twice has the place of its last mention. -/
  slots : List (ValueId × Int32) := []
  allocs : List (OpId × Int32) := []
  size : Int32 := 0
deriving DecidableEq, Repr, Inhabited

namespace Frame

def wordOffset (index : Nat) : Int32 := Int32.ofNat (4 * index)

/-- Give each member of a list a word, from word `start` on; the last one comes first. -/
def assign (start : Nat) (items : List α) : List (α × Int32) :=
  ((items.zipIdx start).map fun (a, i) => (a, wordOffset i)).reverse

/-- The frame for these values and `alloc` operations; its size must be a word. -/
def ofLists (values : List ValueId) (allocs : List OpId) : Except Error Frame :=
  match Word.ofNat? (4 * (values.length + allocs.length + 1)) with
  | some size => .ok { slots := assign 0 values, allocs := assign values.length allocs, size }
  | none => .error (.unimplemented .largeFrame)

def layout (m : Module) (func : OpId) : Except Error Frame := do
  let some body := (← m.op func).regions.head? | .error (.internal .noBody)
  let ops ← body.ops.mapM m.op
  let allocs := (body.ops.zip ops).filter fun (_, op) => op.kind = .flat .alloc
  ofLists (body.args ++ ops.filterMap (·.result)) (allocs.map (·.1))

def slot? (f : Frame) (v : ValueId) : Option Int32 := f.slots.lookup v

def alloc? (f : Frame) (id : OpId) : Option Int32 := f.allocs.lookup id

def raOffset (f : Frame) : Int32 := f.size - 4

end Frame

end Choco.Asm
