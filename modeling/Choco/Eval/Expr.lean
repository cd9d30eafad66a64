import Choco.Eval.Basic

namespace Choco.Eval

/-- How to call the function of a name, seen from a record, on evaluated arguments. -/
abbrev Caller := (record : Nat) → (name : String) → (args : List Value) → Script Value

def trapIfNone : Option Int32 → Except Error Int32
  | some n => .ok n
  | none => .error (.program .divisionByZero)

/-- The operator `+` adds numbers and joins two strings or two lists into a new one. -/
def plus : Value → Value → Eval Value
  | .int a, .int b => pure (.int (a + b))
  | .str _ a, .str _ b => newString (a ++ b)
  | .list a, .list b => do newList ((← elems a) ++ (← elems b))
  | a, b => throw (.unimplemented (.plus a.kind b.kind))

/-- An operation on two numbers; the left operand is checked first. -/
def onInts (f : Int32 → Int32 → Except Error Value) (a b : Value) : Except Error Value := do
  let x ← a.asInt
  let y ← b.asInt
  f x y

def binary (op : BinaryOp) (a b : Value) : Eval Value :=
  match op with
  | .add => plus a b
  | .sub => ofExcept (onInts (fun x y => .ok (.int (x - y))) a b)
  | .mul => ofExcept (onInts (fun x y => .ok (.int (x * y))) a b)
  | .floorDiv => ofExcept (onInts (fun x y => .int <$> trapIfNone (Word.floorDiv? x y)) a b)
  | .mod => ofExcept (onInts (fun x y => .int <$> trapIfNone (Word.floorMod? x y)) a b)
  | .lt => ofExcept (onInts (fun x y => .ok (.bool (x < y))) a b)
  | .ltEq => ofExcept (onInts (fun x y => .ok (.bool (x ≤ y))) a b)
  | .gt => ofExcept (onInts (fun x y => .ok (.bool (y < x))) a b)
  | .gtEq => ofExcept (onInts (fun x y => .ok (.bool (y ≤ x))) a b)
  | .eq => pure (.bool (a.equals b))
  | .notEq => pure (.bool (!a.equals b))
  | .is => pure (.bool (a.is b))
  | .and | .or => throw (.internal .eagerShortCircuit)

def unary (op : UnaryOp) (v : Value) : Except Error Value :=
  match op with
  | .neg => return .int (-(← v.asInt))
  | .not => return .bool (!(← v.asBool))

/-- Indexing checks the index's kind, then the base for `None`, then the bounds. -/
def index (base position : Value) : Eval Value := do
  let i ← ofExcept position.asInt
  if base = .none then throw (.program .indexOfNone)
  let length ← len base
  element base (← ofExcept (checkedIndex i length))

mutual

def expr (caller : Caller) (record : Nat) : Expr → Script Value
  | .literal value _ => .act (newLiteral value)
  | .name x _ => .act (getVar record x)
  | .unary op operand _ => do
    let v ← expr caller record operand
    ofExcept (unary op v)
  | .binary op lhs rhs _ => do
    let a ← expr caller record lhs
    match op with
    | .and => if ← ofExcept a.asBool then expr caller record rhs else return .bool false
    | .or => if ← ofExcept a.asBool then return .bool true else expr caller record rhs
    | _ => do
      let b ← expr caller record rhs
      binary op a b
  | .ifExpr cond onTrue onFalse _ => do
    let c ← expr caller record cond
    if ← ofExcept c.asBool then expr caller record onTrue else expr caller record onFalse
  | .list elems _ => do
    let values ← exprs caller record elems
    newList values.toArray
  | .index base position _ => do
    let b ← expr caller record base
    let p ← expr caller record position
    index b p
  | .call func args _ => do
    let values ← exprs caller record args
    caller record func values

def exprs (caller : Caller) (record : Nat) : List Expr → Script (List Value)
  | [] => pure []
  | e :: es => do
    let v ← expr caller record e
    let vs ← exprs caller record es
    return v :: vs

end

end Choco.Eval
