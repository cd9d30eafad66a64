import Choco.Eval.Environment
import Choco.Outcome

namespace Choco.Eval

/-- What a run is given: its input, a budget of loop tests and calls, and a bound on how deep calls
may nest. -/
structure Config where
  stdin : Array UInt8 := #[]
  maxSteps : Nat := 10000000
  maxDepth : Nat := 100

structure State where
  env : Environment := {}
  store : Store := {}
  stdinPos : Nat := 0
  stdout : Array UInt8 := #[]
  steps : Nat := 0
  /-- Active calls of functions of the program. -/
  depth : Nat := 0

end Eval

abbrev Eval := EStateM Error Eval.State

namespace Eval

def ofExcept : Except Error α → Eval α
  | .ok a => pure a
  | .error e => throw e

/-- Run an action, and tidy up whether it fails or not. -/
def ensure (tidy : State → State) (x : Eval α) : Eval α := fun s =>
  match x s with
  | .ok a s => .ok a (tidy s)
  | .error e s => .error e (tidy s)

def tick (cfg : Config) : Eval Unit := fun s =>
  let steps := s.steps + 1
  if steps > cfg.maxSteps then .error (.executionLimit cfg.maxSteps) { s with steps }
  else .ok () { s with steps }

def checkDepth (cfg : Config) : Eval Unit := fun s =>
  if s.depth ≥ cfg.maxDepth then .error (.callDepth cfg.maxDepth) s else .ok () s

def newString (bytes : Array UInt8) : Eval Value := fun s =>
  let (v, store) := s.store.newString bytes
  .ok v { s with store }

def newList (elems : Array Value) : Eval Value := fun s =>
  let (v, store) := s.store.newList elems
  .ok v { s with store }

def newLiteral (literal : Literal) : Eval Value := fun s =>
  let (v, store) := s.store.ofLiteral literal
  .ok v { s with store }

def elems (object : Nat) : Eval (Array Value) := fun s => .ok (s.store.elems object) s

def setElem (object index : Nat) (value : Value) : Eval Unit :=
  modify fun s => { s with store := s.store.setElem object index value }

def updateEnv (f : Environment → Except Error Environment) : Eval Unit := fun s =>
  match f s.env with
  | .ok env => .ok () { s with env }
  | .error e => .error e s

def getVar (record : Nat) (name : String) : Eval Value := fun s =>
  match s.env.get record name with
  | .ok v => .ok v s
  | .error e => .error e s

def setVar (record : Nat) (name : String) (value : Value) : Eval Unit :=
  updateEnv fun env => env.set record name value

def findFunction (record : Nat) (name : String) : Eval (Option (Nat × FuncDef)) := fun s =>
  .ok (s.env.function? record name) s

/-- Open a record for a call. -/
def enter (parent : Nat) : Eval Nat := fun ⟨env, store, stdinPos, stdout, steps, depth⟩ =>
  let (callee, env) := env.push parent
  .ok callee ⟨env, store, stdinPos, stdout, steps, depth + 1⟩

/-- Drop the record of a call. -/
def leave (callee : Nat) : State → State := fun ⟨env, store, stdinPos, stdout, steps, depth⟩ =>
  ⟨env.pop callee, store, stdinPos, stdout, steps, depth - 1⟩

def len : Value → Eval Nat
  | .none => throw (.program .lenOfNone)
  | .str _ bytes => pure bytes.size
  | .list object => return (← elems object).size
  | v => throw (.internal (.lenOf v.kind))

/-- An element of a list, or a new string of one byte of a string. -/
def element (v : Value) (index : Nat) : Eval Value :=
  match v with
  | .str _ bytes => newString (bytes.extract index (index + 1))
  | .list object => return (← elems object).getD index .none
  | v => throw (.internal (.cannotIndex v.kind))

def checkedIndex (index : Int32) (length : Nat) : Except Error Nat :=
  if 0 ≤ index.toInt ∧ index.toInt < length then .ok index.toInt.toNat
  else .error (.program .indexOutOfRange)

def print (v : Value) : Eval Unit :=
  let line (bytes : Array UInt8) : Eval Unit :=
    modify fun s => { s with stdout := (s.stdout ++ bytes).push Input.newline }
  match v with
  | .int n => line (Text.encodeUtf8 (toString n.toInt))
  | .bool b => line (Text.encodeUtf8 (if b then "True" else "False"))
  | .str _ bytes => line bytes
  | v => throw (.unimplemented (.printOfValue v.kind))

/-- The next line of the input without its newline; empty at the end. -/
def input (cfg : Config) : Eval Value := do
  let line := Input.lineAt cfg.stdin (← get).stdinPos Input.lineLimit
  modify fun s => { s with stdinPos := s.stdinPos + line.size }
  newString (Input.stripNewline line)

/-- An evaluation as it is put together from actions, which shows the states that it passes. -/
inductive Script : Type → Type 1
  | act {α : Type} (x : Eval α) : Script α
  | seq {α β : Type} (first : Script α) (rest : α → Script β) : Script β
  | bracket {α β : Type} (opens : Eval β) (closes : β → State → State) (body : β → Script α) : Script α

namespace Script

def run : Script α → Eval α
  | act x => x
  | seq first rest => first.run >>= fun a => (rest a).run
  | bracket opens closes body => opens >>= fun b => ensure (closes b) (body b).run

instance : Monad Script where
  pure a := act (pure a)
  bind := seq

instance : MonadLift Eval Script := ⟨act⟩

def fail (e : Error) : Script α := act (throw e)

end Script

end Eval

end Choco
