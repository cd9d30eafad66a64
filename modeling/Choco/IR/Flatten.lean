import Choco.IR.Build
import Choco.Library
import Choco.Text.Utf8

namespace Choco.IR

inductive Construct where
  | and | or | ifExpr | ifElse | whileLoop
deriving DecidableEq, Repr, Inhabited

namespace Construct

def text : Construct → String
  | .and => "and"
  | .or => "or"
  | .ifExpr => "ifexpr"
  | .ifElse => "if"
  | .whileLoop => "while"

def ofKind? : Kind → Option Construct
  | .shortCircuit .and => some .and
  | .shortCircuit .or => some .or
  | .ifExpr => some .ifExpr
  | .ifElse => some .ifElse
  | .whileLoop => some .whileLoop
  | _ => none

def label (c : Construct) (role : String) (n : Nat) : String :=
  ".L" ++ c.text ++ "_" ++ role ++ "_" ++ toString n

end Construct

/-- How many constructs of each kind have labels, and how many operations are flat by now. -/
structure Progress where
  ands : Nat := 0
  ors : Nat := 0
  ifExprs : Nat := 0
  ifElses : Nat := 0
  whileLoops : Nat := 0
  flattened : Nat := 0
deriving DecidableEq, Repr, Inhabited

namespace Progress

def next (p : Progress) : Construct → Nat
  | .and => p.ands
  | .or => p.ors
  | .ifExpr => p.ifExprs
  | .ifElse => p.ifElses
  | .whileLoop => p.whileLoops

def count (p : Progress) (kind : Kind) : Progress :=
  let p := { p with flattened := p.flattened + 1 }
  match Construct.ofKind? kind with
  | some .and => { p with ands := p.ands + 1 }
  | some .or => { p with ors := p.ors + 1 }
  | some .ifExpr => { p with ifExprs := p.ifExprs + 1 }
  | some .ifElse => { p with ifElses := p.ifElses + 1 }
  | some .whileLoop => { p with whileLoops := p.whileLoops + 1 }
  | none => p

end Progress

/-- Where element `index` lies behind the start of its object. -/
def elementOffset (index : Nat) : Except Error Int32 :=
  match Word.ofNat? (4 * index + 4) with
  | some offset => .ok offset
  | none => .error (.unimplemented .largeObject)

namespace Build

def word (op : FlatOp) (operands : List ValueId) : Build ValueId := emit (.flat op) operands .word

def act (op : FlatOp) (operands : List ValueId) : Build Unit := emitVoid (.flat op) operands

def li (n : Int32) : Build ValueId := word (.li n) []

def mark (l : String) : Build Unit := act (.label l) []

def jump (l : String) : Build Unit := act (.jump l) []

def branch (cond : Cond) (lhs rhs : ValueId) (l : String) : Build Unit := act (.branch cond l) [lhs, rhs]

def storeWord (offset : Int32) (address value : ValueId) : Build Unit := act (.sw offset) [address, value]

def object (length : Nat) : Build ValueId := do
  let size ← li (← ofExcept (elementOffset length))
  let address ← word (.call Library.malloc) [size]
  let header ← li (Int32.ofNat length)
  storeWord 0 address header
  return address

def fillObject (address : ValueId) : (index : Nat) → List ValueId → Build Unit
  | _, [] => return
  | index, v :: rest => do
    storeWord (← ofExcept (elementOffset index)) address v
    fillObject address (index + 1) rest

/-- Store the bytes of a string as its elements, from number `index` on. -/
def fillString (address : ValueId) : (index : Nat) → List UInt8 → Build Unit
  | _, [] => return
  | index, byte :: rest => do
    let code ← li (Int32.ofNat byte.toNat)
    storeWord (← ofExcept (elementOffset index)) address code
    fillString address (index + 1) rest

def flatLiteral : Literal → Build ValueId
  | .int n => li n
  | .bool b => li (Word.ofBool b)
  | .none => li 0
  | .str s => do
    let bytes := Text.encodeUtf8 s
    let address ← object bytes.size
    fillString address 0 bytes.toList
    return address

def flatUnary (op : UnaryOp) (x : ValueId) : Build ValueId :=
  match op with
  | .neg => do word (.alu .sub) [← li 0, x]
  | .not => word .seqz [x]

/-- The floor of the quotient, or the remainder that goes with it. The machine's quotient goes toward
zero, so both are corrected when the remainder is not zero and its sign is not the divisor's. -/
def flatFloor (quotient : Bool) (lhs rhs : ValueId) : Build ValueId := do
  let zero ← li 0
  branch .eq rhs zero Trap.divisionByZero.routine
  let q ← word (.alu .div) [lhs, rhs]
  let r ← word (.alu .rem) [lhs, rhs]
  let signs ← word (.alu .xor) [r, rhs]
  let differ ← word (.alu .slt) [signs, zero]
  let inexact ← word .snez [r]
  let adjust ← word (.alu .and) [differ, inexact]
  if quotient then word (.alu .sub) [q, adjust]
  else
    let correction ← word (.alu .mul) [rhs, adjust]
    word (.alu .add) [r, correction]

/-- Operators on strings and lists that only a library routine computes. -/
def needsLibrary (op : BinaryOp) (ty : Option Ty) : Option Ty :=
  match op with
  | .add | .eq | .notEq => ty.filter Ty.isSequence
  | _ => none

def flatBinary (op : BinaryOp) (lhs rhs : ValueId) : Build ValueId := do
  let ty := (← edit (Edit.query fun m => m.valueType lhs)).source?
  if let some ty := needsLibrary op ty then throw (.passOrdering (.operator op ty))
  match op with
  | .add => word (.alu .add) [lhs, rhs]
  | .sub => word (.alu .sub) [lhs, rhs]
  | .mul => word (.alu .mul) [lhs, rhs]
  | .floorDiv => flatFloor true lhs rhs
  | .mod => flatFloor false lhs rhs
  | .lt => word (.alu .slt) [lhs, rhs]
  | .gt => word (.alu .slt) [rhs, lhs]
  | .ltEq => do word .seqz [← word (.alu .slt) [rhs, lhs]]
  | .gtEq => do word .seqz [← word (.alu .slt) [lhs, rhs]]
  | .eq | .is => do word .seqz [← word (.alu .sub) [lhs, rhs]]
  | .notEq => do word .snez [← word (.alu .sub) [lhs, rhs]]
  | .and | .or => throw (.internal (.strictShortCircuit op))

def flatLen (x : ValueId) : Build ValueId := do
  let zero ← li 0
  branch .eq x zero Trap.lenOfNone.routine
  word (.lw 0) [x]

def flatAddress (base index : ValueId) : Build ValueId := do
  let zero ← li 0
  branch .eq base zero Trap.indexOfNone.routine
  let length ← word (.lw 0) [base]
  branch .lt index zero Trap.indexOutOfRange.routine
  branch .ge index length Trap.indexOutOfRange.routine
  let position ← word (.addi 1) [index]
  let four ← li 4
  let offset ← word (.alu .mul) [position, four]
  word (.alu .add) [base, offset]

def flatCall (func : String) (args : List ValueId) (wanted : Bool) : Build (Option ValueId) := do
  match func, args with
  | "len", [x] => some <$> flatLen x
  | "len", args => throw (.internal (.operandCount (.call "len") 1 args.length))
  | "print", _ | "input", _ => throw (.passOrdering (.builtin func))
  | _, _ =>
    if wanted then some <$> word (.call func) args
    else
      act (.call func) args
      return none

def takeOps (id : OpId) (index : Nat) : Build (List OpId) := do
  return (← edit (Edit.takeRegion id index)).ops

def takeYielding (id : OpId) (index : Nat) : Build (List OpId × ValueId) := do
  let ops ← takeOps id index
  let fail : Build (List OpId × ValueId) := do
    throw (.internal (.noYield index (← edit (Edit.op id)).kind))
  let some last := ops.getLast? | fail
  match ← edit (Edit.op last) with
  | ⟨.yield, [v], _, _, _⟩ =>
    edit (Edit.erase last)
    return (ops.dropLast, v)
  | _ => fail

/-- The right side runs only if the left one does not decide. -/
def flatShortCircuit (id : OpId) (op : BinaryOp) (n : Nat) : Build ValueId := do
  let (lhsOps, lhs) ← takeYielding id 0
  let (rhsOps, rhs) ← takeYielding id 1
  let (construct, skip) ← match op with
    | .and => pure (Construct.and, Cond.eq)
    | .or => pure (Construct.or, Cond.ne)
    | _ => throw (.internal (.notShortCircuit op))
  let slot ← word .alloc []
  append lhsOps
  storeWord 0 slot lhs
  let zero ← li 0
  branch skip lhs zero (construct.label "after" n)
  mark (construct.label "rhs" n)
  append rhsOps
  storeWord 0 slot rhs
  mark (construct.label "after" n)
  word (.lw 0) [slot]

def flatIfExpr (id : OpId) (cond : ValueId) (n : Nat) : Build ValueId := do
  let (thenOps, onTrue) ← takeYielding id 0
  let (elseOps, onFalse) ← takeYielding id 1
  let slot ← word .alloc []
  let zero ← li 0
  branch .eq cond zero (Construct.ifExpr.label "else" n)
  mark (Construct.ifExpr.label "then" n)
  append thenOps
  storeWord 0 slot onTrue
  jump (Construct.ifExpr.label "after" n)
  mark (Construct.ifExpr.label "else" n)
  append elseOps
  storeWord 0 slot onFalse
  mark (Construct.ifExpr.label "after" n)
  word (.lw 0) [slot]

def flatIfElse (id : OpId) (cond : ValueId) (n : Nat) : Build Unit := do
  let thenOps ← takeOps id 0
  let elseOps ← takeOps id 1
  let zero ← li 0
  branch .eq cond zero (Construct.ifElse.label "else" n)
  mark (Construct.ifElse.label "then" n)
  append thenOps
  jump (Construct.ifElse.label "after" n)
  mark (Construct.ifElse.label "else" n)
  append elseOps
  mark (Construct.ifElse.label "after" n)

def flatWhile (id : OpId) (n : Nat) : Build Unit := do
  let (condOps, cond) ← takeYielding id 0
  let bodyOps ← takeOps id 1
  mark (Construct.whileLoop.label "cond" n)
  append condOps
  let zero ← li 0
  branch .eq cond zero (Construct.whileLoop.label "after" n)
  mark (Construct.whileLoop.label "body" n)
  append bodyOps
  jump (Construct.whileLoop.label "cond" n)
  mark (Construct.whileLoop.label "after" n)

def operand₁ (kind : Kind) : List ValueId → Except Error ValueId
  | [x] => .ok x
  | operands => .error (.internal (.operandCount kind 1 operands.length))

def operand₂ (kind : Kind) : List ValueId → Except Error (ValueId × ValueId)
  | [x, y] => .ok (x, y)
  | operands => .error (.internal (.operandCount kind 2 operands.length))

/-- Flat operations with the effect of `op`, and its value if it has one. A construct is number `n`
of its kind. -/
def flatOp (id : OpId) (op : Op) (n : Nat) : Build (Option ValueId) := do
  match op.kind with
  | .flat _ | .funcDef _ _ | .yield | .pass => return none
  | .literal value => some <$> flatLiteral value
  | .unary f => do some <$> flatUnary f (← ofExcept (operand₁ op.kind op.operands))
  | .binary f => do
    let (lhs, rhs) ← ofExcept (operand₂ op.kind op.operands)
    some <$> flatBinary f lhs rhs
  | .shortCircuit f => some <$> flatShortCircuit id f n
  | .ifExpr => do some <$> flatIfExpr id (← ofExcept (operand₁ op.kind op.operands)) n
  | .ifElse => do
    flatIfElse id (← ofExcept (operand₁ op.kind op.operands)) n
    return none
  | .whileLoop => do
    flatWhile id n
    return none
  | .forLoop => throw (.passOrdering .forLoop)
  | .ret => do
    act .ret [← ofExcept (operand₁ op.kind op.operands)]
    return none
  | .assign =>
    match op.operands with
    | [] => throw (.internal .assignWithoutValue)
    | v :: locations =>
      locations.forM fun location => storeWord 0 location v
      return none
  | .alloc _ => some <$> word .alloc []
  | .load => do some <$> word (.lw 0) [← ofExcept (operand₁ op.kind op.operands)]
  | .store => do
    let (location, v) ← ofExcept (operand₂ op.kind op.operands)
    storeWord 0 location v
    return none
  | .call func => flatCall func op.operands op.result.isSome
  | .list => do
    let address ← object op.operands.length
    fillObject address 0 op.operands
    return some address
  | .indexString | .getAddress => do
    let (base, index) ← ofExcept (operand₂ op.kind op.operands)
    some <$> flatAddress base index
  | .classDef _ | .member _ => throw (.unimplemented (.objectModel op.kind))

end Build

/-- Operations that stay: they are flat, or the construct around them takes them away. -/
def Kind.staysFlat : Kind → Bool
  | .flat _ | .funcDef _ _ | .yield => true
  | _ => false

namespace Edit

def flattenOp (progress : Progress) (id : OpId) : Edit Progress := do
  let old ← op id
  if old.kind.staysFlat then return progress
  let n := ((Construct.ofKind? old.kind).map progress.next).getD 0
  let (v, ops) ← Build.collect (Build.flatOp id old n)
  match old.result, v with
  | some _, some v => replaceOp id ops [v]
  | some _, none => throw (.internal (.noLoweredValue old.kind))
  | none, _ => replaceOp id ops []
  return progress.count old.kind

/-- Flatten the operations of a region that nests at most `n` levels deep. -/
def flattenWithin : (n : Nat) → Place → Progress → Edit Progress
  | 0, _, _ => throw (.internal .endlessNesting)
  | n + 1, place, progress => do
    let region ← query fun m => m.region place
    region.ops.foldlM (fun progress id => do
      if ← query fun m => .ok (m.isLive id) then
        let old ← op id
        if let some index := old.regions.findIdx? (·.ops.isEmpty) then
          throw (.internal (.emptyRegion index old.kind))
        let progress ← (List.range old.regions.length).foldlM
          (fun progress index => flattenWithin n (.nested id index) progress) progress
        flattenOp progress id
      else return progress) progress

def flatten : Edit Nat := do
  let progress ← fun m => flattenWithin m.depthBound .top {} m
  return progress.flattened

end Edit

end Choco.IR
