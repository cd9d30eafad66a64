import Choco.IR.Edit

namespace Choco.IR

structure Builder where
  module : Module := {}
  block : Array OpId := #[]
deriving Inhabited

abbrev Build := EStateM Error Builder

namespace Build

def ofExcept : Except Error α → Build α
  | .ok a => pure a
  | .error e => throw e

/-- Edit the module while a list is being written. -/
def edit (e : Edit α) : Build α := fun b =>
  match e b.module with
  | .ok a m => .ok a ⟨m, b.block⟩
  | .error e m => .error e ⟨m, b.block⟩

def append (ops : List OpId) : Build Unit := fun b => .ok () { b with block := b.block ++ ops }

def emit (kind : Kind) (operands : List ValueId) (ty : ValueType) (regions : List Region := []) :
    Build ValueId := fun b =>
  let (id, v, m) := b.module.createValue kind operands ty regions
  .ok v ⟨m, b.block.push id⟩

def emitVoid (kind : Kind) (operands : List ValueId) (regions : List Region := []) : Build Unit := fun b =>
  let (id, m) := b.module.create kind operands regions
  .ok () ⟨m, b.block.push id⟩

/-- Write a list of its own, apart from the current one. -/
def block (body : Build α) : Build (α × List OpId) := fun b =>
  match body ⟨b.module, #[]⟩ with
  | .ok a inner => .ok (a, inner.block.toList) ⟨inner.module, b.block⟩
  | .error e inner => .error e ⟨inner.module, b.block⟩

def region (body : Build Unit) : Build Region := do
  let ((), ops) ← block body
  return { ops }

def yielding (body : Build ValueId) : Build Region :=
  region do emitVoid .yield [← body]

/-- Write a list of operations that no region holds yet. -/
def collect (body : Build α) : Edit (α × List OpId) := fun m =>
  match body ⟨m, #[]⟩ with
  | .ok a b => .ok (a, b.block.toList) b.module
  | .error e b => .error e b.module

end Build

end Choco.IR
