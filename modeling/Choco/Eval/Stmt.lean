import Choco.Eval.Expr

namespace Choco.Eval

inductive Flow where
  | next
  | ret (value : Value)

inductive Location where
  | variable (name : String)
  | element (object index : Nat)

/-- The location that a target names; its parts are evaluated here. -/
def location (caller : Caller) (record : Nat) : Expr → Script Location
  | .name x _ => pure (.variable x)
  | .index base position _ => do
    let b ← expr caller record base
    let p ← expr caller record position
    let i ← ofExcept p.asInt
    match b with
    | .none => .fail (.program .indexOfNone)
    | .list object => return .element object (← ofExcept (checkedIndex i (← elems object).size))
    | v => .fail (.internal (.cannotAssignInto v.kind))
  | _ => .fail (.internal .notALocation)

def locations (caller : Caller) (record : Nat) : List Expr → Script (List Location)
  | [] => pure []
  | target :: targets => do
    let l ← location caller record target
    let ls ← locations caller record targets
    return l :: ls

def store (record : Nat) (value : Value) : List Location → Script Unit
  | [] => pure ()
  | .variable name :: rest => do
    setVar record name value
    store record value rest
  | .element object index :: rest => do
    setElem object index value
    store record value rest

/-- The value first, then every target from left to right, then the stores in the same order. -/
def assign (caller : Caller) (record : Nat) (a : Assign) : Script Unit := do
  let value ← expr caller record a.value
  let targets ← locations caller record a.targets
  store record value targets

/-- Take turns `i`, `i + 1`, … until one ends the loop or returns. Every turn counts one step, so
the budget runs out before `fuel` does if `fuel` exceeds it. -/
def loop (cfg : Config) (turn : Nat → Script (Option Flow)) : (fuel : Nat) → (i : Nat) → Script Flow
  | 0, _ => .fail (.executionLimit cfg.maxSteps)
  | fuel + 1, i => do
    tick cfg
    match ← turn i with
    | none => return .next
    | some .next => loop cfg turn fuel (i + 1)
    | some (.ret v) => return .ret v

mutual

def stmt (cfg : Config) (caller : Caller) (record : Nat) : Stmt → Script Flow
  | .expr value => do
    let _ ← expr caller record value
    return .next
  | .assign a => do
    assign caller record a
    return .next
  | .ret none => return .ret .none
  | .ret (some value) => return .ret (← expr caller record value)
  | .pass => return .next
  | .ifElse cond onTrue onFalse => do
    let c ← expr caller record cond
    if ← ofExcept c.asBool then block cfg caller record onTrue else block cfg caller record onFalse
  | .whileLoop cond body =>
    let turn (_ : Nat) : Script (Option Flow) := do
      let c ← expr caller record cond
      if ← ofExcept c.asBool then some <$> block cfg caller record body else return none
    loop cfg turn (cfg.maxSteps + 1) 0
  | .forLoop target iter body => do
    let seq ← expr caller record iter
    let turn (i : Nat) : Script (Option Flow) := do
      if i < (← len seq) then
        setVar record target (← element seq i)
        some <$> block cfg caller record body
      else return none
    loop cfg turn (cfg.maxSteps + 1) 0

def block (cfg : Config) (caller : Caller) (record : Nat) : List Stmt → Script Flow
  | [] => return .next
  | s :: rest => do
    match ← stmt cfg caller record s with
    | .next => block cfg caller record rest
    | .ret v => return .ret v

end

end Choco.Eval
