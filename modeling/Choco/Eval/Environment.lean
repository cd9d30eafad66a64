import Choco.Eval.Value

namespace Choco.Eval

structure Record where
  vars : List (String × Value) := []
  functions : List (String × FuncDef) := []
  globals : List String := []
  parent : Option Nat := none

structure Environment where
  records : Array Record := #[{}]

/-- Bind a key, in place of its earlier binding if there is one. -/
def bindKey (key : String) (value : α) : List (String × α) → List (String × α)
  | [] => [(key, value)]
  | (k, v) :: rest => if k = key then (key, value) :: rest else (k, v) :: bindKey key value rest

namespace Environment

def global : Nat := 0

def push (env : Environment) (parent : Nat) : Nat × Environment :=
  (env.records.size, ⟨env.records.push { parent := some parent }⟩)

/-- Drop a record and all that came after it; the global record stays. -/
def pop (env : Environment) (record : Nat) : Environment :=
  if record > global then ⟨env.records.shrink record⟩ else env

def depth (env : Environment) : Nat := env.records.size

def update (env : Environment) (record : Nat) (f : Record → Record) : Except Error Environment :=
  if record < env.records.size then .ok ⟨env.records.modify record f⟩
  else .error (.internal (.noRecord record))

def define (env : Environment) (record : Nat) (name : String) (value : Value) :
    Except Error Environment :=
  env.update record fun r => { r with vars := bindKey name value r.vars }

def defineFunction (env : Environment) (record : Nat) (func : FuncDef) : Except Error Environment :=
  env.update record fun r => { r with functions := bindKey func.name func r.functions }

/-- From now on `name` means the global variable in this record and those inside it. -/
def declareGlobal (env : Environment) (record : Nat) (name : String) : Except Error Environment :=
  env.update record fun r => { r with globals := name :: r.globals }

/-- Search outward through at most `n` records for the one that holds `name`. -/
def resolveWithin (env : Environment) (name : String) : (n : Nat) → (record : Nat) → Except Error Nat
  | 0, _ => .error (.undefinedName name)
  | n + 1, index =>
    match env.records[index]? with
    | none => .error (.internal (.noRecord index))
    | some record =>
      if record.globals.contains name then .ok global
      else if (record.vars.lookup name).isSome then .ok index
      else match record.parent with
        | some parent => resolveWithin env name n parent
        | none => .error (.undefinedName name)

/-- The record that holds the variable `name` as seen from `record`. A search outward meets every
record at most once, and then perhaps one that does not exist. -/
def resolve (env : Environment) (record : Nat) (name : String) : Except Error Nat :=
  env.resolveWithin name (env.records.size + 1) record

def get (env : Environment) (record : Nat) (name : String) : Except Error Value := do
  let owner ← env.resolve record name
  match env.records[owner]? >>= fun r => r.vars.lookup name with
  | some value => .ok value
  | none => .error (.undefinedName name)

def set (env : Environment) (record : Nat) (name : String) (value : Value) :
    Except Error Environment := do
  let owner ← env.resolve record name
  env.define owner name value

def functionWithin (env : Environment) (name : String) : (n : Nat) → (record : Nat) → Option (Nat × FuncDef)
  | 0, _ => none
  | n + 1, index =>
    match env.records[index]? with
    | none => none
    | some record =>
      match record.functions.lookup name with
      | some func => some (index, func)
      | none => record.parent >>= functionWithin env name n

def function? (env : Environment) (record : Nat) (name : String) : Option (Nat × FuncDef) :=
  env.functionWithin name env.records.size record

end Environment

end Choco.Eval
