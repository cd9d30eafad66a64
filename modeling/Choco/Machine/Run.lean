import Choco.Machine.Step

namespace Choco

namespace Machine

/-- Run for at most `n` steps of a budget of `limit`. -/
def runFor (code : Array Line) (stdin : Array UInt8) (limit : Nat) :
    (n : Nat) → Machine → Except Error Outcome
  | 0, _ => .error (.executionLimit limit)
  | n + 1, m =>
    match m.step code stdin with
    | .next m => runFor code stdin limit n m
    | .exit code m => .ok ⟨Text.decodeUtf8 m.stdout, code⟩
    | .fault e _ => .error e

def defaultMaxSteps : Nat := 50000000

end Machine

def Asm.Assembly.run (a : Asm.Assembly) (stdin : Array UInt8 := #[])
    (maxSteps : Nat := Machine.defaultMaxSteps) :
    Except Error Outcome := do
  let image ← Machine.Image.load a
  Machine.runFor image.code stdin maxSteps maxSteps (Machine.ofImage image)

end Choco
