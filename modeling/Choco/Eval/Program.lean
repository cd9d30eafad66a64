import Choco.Eval.Stmt

namespace Choco.Eval

def declare (record : Nat) : List Decl → Script Unit
  | [] => pure ()
  | d :: rest => do
    match d with
    | .var v =>
      let value ← newLiteral v.init
      updateEnv fun env => env.define record v.name value
    | .func f => updateEnv fun env => env.defineFunction record f
    | .global name => updateEnv fun env => env.declareGlobal record name
    | .nonlocal _ => pure ()
    declare record rest

def defineParams (record : Nat) : List Param → List Value → Script Unit
  | p :: ps, v :: vs => do
    updateEnv fun env => env.define record p.name v
    defineParams record ps vs
  | _, _ => pure ()

/-- The built-in functions answer by name and number of arguments, before any other function. -/
def builtin? (cfg : Config) : String → List Value → Option (Eval Value)
  | "print", [v] => some do
    print v
    return .none
  | "len", [v] => some do
    match Word.ofNat? (← len v) with
    | some n => return .int n
    | none => throw (.internal .lengthOutOfRange)
  | "input", [] => some (input cfg)
  | _, _ => none

def invoke (cfg : Config) (caller : Caller) (callee : Nat) (func : FuncDef) (args : List Value) :
    Script Value := do
  defineParams callee func.params args
  declare callee func.decls
  match ← block cfg caller callee func.body with
  | .next => return .none
  | .ret v => return v

/-- Open a record for a call, run the call in it, and drop the record however the call ends. -/
def inRecord (parent : Nat) (body : (callee : Nat) → Script Value) : Script Value :=
  .bracket (enter parent) leave body

/-- Call a function. Every call makes the depth larger by one, so that it reaches its bound before `room` runs
out if `room` and the depth add up to the bound. -/
def call (cfg : Config) : (room : Nat) → Caller
  | room, record, name, args =>
    match builtin? cfg name args with
    | some action => .act action
    | none => do
      match ← findFunction record name with
      | none => .fail (.undefinedName name)
      | some (owner, func) =>
        if func.params.length ≠ args.length then
          .fail (.internal (.wrongArity name func.params.length args.length))
        checkDepth cfg
        match room with
        | 0 => .fail (.callDepth cfg.maxDepth)
        | room + 1 =>
          tick cfg
          inRecord owner fun callee => invoke cfg (call cfg room) callee func args

def program (cfg : Config) (p : Program) : Script Unit := do
  declare Environment.global p.decls
  let _ ← block cfg (call cfg cfg.maxDepth) Environment.global p.stmts

end Choco.Eval

namespace Choco

/-- Run a program. A trap prints its diagnostic and ends the program with code one; any other
failure is none of the program's own. -/
def Program.interpret (cfg : Eval.Config) (p : Program) : Except Error Outcome :=
  match (Eval.program cfg p).run {} with
  | .ok _ s => .ok ⟨Text.decodeUtf8 s.stdout, 0⟩
  | .error (.program trap) s =>
    let line := (Text.encodeUtf8 trap.message).push Input.newline
    .ok ⟨Text.decodeUtf8 (s.stdout ++ line), Outcome.trapCode⟩
  | .error e _ => .error e

end Choco
