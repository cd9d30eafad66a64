import Choco.Asm.Emit
import Choco.IR.Flatten
import Choco.IR.LibraryUse
import Choco.IR.Loops
import Choco.IR.Optimize
import Choco.IR.Verify
import Choco.Syntax.Decode

namespace Choco

def version : String := "0.1.0"

structure Options where
  optLevel : Nat := 1
  heapSize : UInt32 := Asm.Assembly.defaultHeapSize
  dumps : Bool := false
  verifyIR : Bool := true

structure Compiled where
  asm : Asm.Assembly
  dumps : List (String × String)
  opCount : Nat
  loops : Nat
  calls : Nat
  savings : IR.Savings
  flatCount : Nat

namespace Options

open IR (Edit Module)

def pass (options : Options) (name : String) (run : Edit α) (m : Module) :
    Except Error (α × Module × List (String × String)) :=
  match run m with
  | .error e _ => .error e
  | .ok a m => do
    if options.verifyIR then m.verify
    return (a, m, if options.dumps then [(name, m.dump)] else [])

def compile (options : Options) (p : Program) : Except Error Compiled := do
  let m ← Module.ofProgram p
  let opCount := m.opCount
  let ((), m, dumps₁) ← options.pass "translate" (pure ()) m
  let (loops, m, dumps₂) ← options.pass "for-to-while" Edit.replaceLoops m
  let (calls, m, dumps₃) ← options.pass "library-calls" Edit.replaceLibraryUses m
  let (savings, m, dumps₄) ← options.pass "optimize" (Edit.optimize options.optLevel) m
  let (_, m, dumps₅) ← options.pass "lowering" Edit.flatten m
  let asm ← Asm.Assembly.ofModule options.heapSize m
  return { asm, dumps := dumps₁ ++ dumps₂ ++ dumps₃ ++ dumps₄ ++ dumps₅, opCount, loops, calls, savings,
           flatCount := m.instructionCount }

def compileText (options : Options) (text : String) : Except Error Compiled :=
  match Program.ofText? text with
  | some p => options.compile p
  | none => .error .json

end Options

end Choco
