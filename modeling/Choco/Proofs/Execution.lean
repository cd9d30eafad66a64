import Choco.Proofs.Computes
import Choco.Proofs.Effects
import Choco.Proofs.Lowers

namespace Choco

/-- The fault that the routine with this label reports. -/
def Trap.ofRoutine? (label : String) : Option Trap := Trap.all.find? (·.routine = label)

@[simp] theorem Trap.ofRoutine?_routine (fault : Trap) : ofRoutine? fault.routine = some fault := by
  cases fault <;> decide

namespace IR

/-- What a value is while a function runs: a word, or the address of the storage with this name. -/
inductive Content where
  | word (w : Int32)
  | cell (name : ValueId)
deriving DecidableEq

/-- What can be seen of a run from outside. -/
inductive Event where
  | call (func : String) (args : List Int32)
  | store (address value : Int32)
  | assign (name : ValueId) (value : Int32)
deriving DecidableEq

def Event.call? : Event → Option (String × List Int32)
  | call func args => some (func, args)
  | _ => none

structure World where
  memory : Int32 → Int32
  /-- The words in storage. -/
  cells : ValueId → Int32
  log : List Event

namespace World

def calls (w : World) : List (String × List Int32) := w.log.filterMap Event.call?

def note (w : World) (e : Event) : World := { w with log := w.log ++ [e] }

def write (w : World) (address value : Int32) : World :=
  { memory := Function.update w.memory address value, cells := w.cells,
    log := w.log ++ [.store address value] }

def assign (w : World) (name : ValueId) (value : Int32) : World :=
  { memory := w.memory, cells := Function.update w.cells name value, log := w.log ++ [.assign name value] }

/-- The elements of an object, from number `index` on, in their places behind its address. -/
def fill (address : Int32) : Nat → List Int32 → World → World
  | _, [], w => w
  | index, value :: values, w =>
    fill address (index + 1) values (w.write (address + Int32.ofNat (4 * index + 4)) value)

end World

structure State where
  values : ValueId → Content
  world : World

/-- Give the name its value, if there are both. -/
def State.define (s : State) : Option ValueId → Option Content → State
  | some name, some value => { s with values := Function.update s.values name value }
  | _, _ => s

/-- What code relies on: where storage lies, and the word that the last of some calls gives. -/
structure Host where
  address : ValueId → Int32
  reply : List (String × List Int32) → Int32

/-- How code is left: at its end with the value that it yields, for good, or after too many rounds of a
loop. -/
inductive Exit where
  | next (value : Option Content)
  | ret (value : Int32)
  | trap (fault : Trap)
  | timeout
deriving DecidableEq

/-- Go on with what follows if code was left at its end. -/
def andThen (r : Exit × State) (rest : Option Content → State → Exit × State) : Exit × State :=
  match r with
  | (.next value, s) => rest value s
  | r => r

namespace Host

variable (host : Host)

def word : Content → Int32
  | .word w => w
  | .cell name => host.address name

def load (w : World) : Content → Int32 → Int32
  | .word a, offset => w.memory (a + offset)
  | .cell name, offset => if offset = 0 then w.cells name else w.memory (host.address name + offset)

def store (w : World) : Content → Int32 → Int32 → World
  | .word a, offset, value => w.write (a + offset) value
  | .cell name, offset, value =>
    if offset = 0 then w.assign name value else w.write (host.address name + offset) value

/-- The word of a call. -/
def answer (w : World) (func : String) (args : List Int32) : Int32 :=
  host.reply (w.note (.call func args)).calls

/-- The address of a new object with these elements, and the world with it: the length comes before the
elements. -/
def object (values : List Int32) (w : World) : Exit × World :=
  let size := [Int32.ofNat (4 * values.length + 4)]
  let address := host.answer w Library.malloc size
  let made := (w.note (.call Library.malloc size)).write address (Int32.ofNat values.length)
  (.next (some (.word address)), made.fill address 0 values)

def length (x : Content) (w : World) : Exit × World :=
  if host.word x = 0 then (.trap .lenOfNone, w) else (.next (some (.word (host.load w x 0))), w)

/-- The address of an element. -/
def element (x : Content) (index : Int32) (w : World) : Exit × World :=
  if host.word x = 0 then (.trap .indexOfNone, w)
  else if index < 0 ∨ host.load w x 0 ≤ index then (.trap .indexOutOfRange, w)
  else (.next (some (.word (host.word x + 4 + 4 * index))), w)

/-- What an operation without regions does, with the contents of its operands and the name of its result. -/
def perform (kind : Kind) (xs : List Content) (result : Option ValueId) : World → Exit × World :=
  match kind, xs with
  | .literal (.str s), _ => host.object ((Text.encodeUtf8 s).toList.map fun byte => Int32.ofNat byte.toNat)
  | .literal l, _ => fun w => (.next (l.word?.map .word), w)
  | .unary op, [x] => fun w => (.next (some (.word (op.word (host.word x)))), w)
  | .binary op, [x, y] =>
    match op.word? (host.word x) (host.word y) with
    | some value => fun w => (.next (some (.word value)), w)
    | none => fun w => (.trap .divisionByZero, w)
  | .ret, [x] => fun w => (.ret (host.word x), w)
  | .assign, x :: locations =>
    fun w => (.next none, locations.foldl (fun w location => host.store w location 0 (host.word x)) w)
  | .alloc _, _ => fun w => (.next (result.map .cell), w)
  | .load, [x] => fun w => (.next (some (.word (host.load w x 0))), w)
  | .store, [location, x] => fun w => (.next none, host.store w location 0 (host.word x))
  | .call func, xs =>
    match if func = "len" then xs.head? else none with
    | some x => host.length x
    | none =>
      let args := xs.map host.word
      fun w => (.next (some (.word (host.answer w func args))), w.note (.call func args))
  | .list, xs => host.object (xs.map host.word)
  | .indexString, [x, i] | .getAddress, [x, i] => host.element x (host.word i)
  | _, _ => fun w => (.next none, w)

/-- Test and run the body again and again, at most `rounds` times. -/
def iterate (test body : State → Exit × State) : Nat → State → Exit × State
  | 0, s => (.timeout, s)
  | rounds + 1, s =>
    andThen (test s) fun value t =>
      if value.map host.word = some 0 then (.next none, t) else andThen (body t) fun _ t =>
        iterate test body rounds t

/-- The left side of the operator decides its value. -/
def decides : BinaryOp → Int32 → Bool
  | .and, w => w = 0
  | .or, w => w ≠ 0
  | _, _ => false

/-- What an operation with two regions does, from what its regions do. -/
def select (fuel : Nat) (n : Node) (first second : State → Exit × State) (s : State) : Exit × State :=
  match n.kind, n.operands with
  | .shortCircuit op, _ =>
    andThen (first s) fun value t => if value.any fun x => decides op (host.word x) then (.next value, t)
      else second t
  | .ifExpr, [cond] | .ifElse, [cond] => if host.word (s.values cond) = 0 then second s else first s
  | .whileLoop, _ => host.iterate first second fuel s
  | _, _ => (.next none, s)

/-- Run code; no loop goes round more often than `fuel` times without an end. A region yields a word. -/
def exec (fuel : Nat) : Code → State → Exit × State
  | .nil, s => (.next none, s)
  | .leaf n rest, s =>
    if n.kind = .yield then (.next (n.operands.head?.map fun x => .word (host.word (s.values x))), s)
    else
      let name := n.result.map Def.value
      let (exit, w) := host.perform n.kind (n.operands.map s.values) name s.world
      andThen (exit, { s with world := w }) fun value t => exec fuel rest (t.define name value)
  | .each _ _ _ rest, s => exec fuel rest s
  | .fork n first second rest, s =>
    andThen (host.select fuel n (exec fuel first) (exec fuel second) s) fun value t =>
      exec fuel rest (t.define (n.result.map Def.value) value)

end Host

section Exec

variable {host : Host} {fuel : Nat} {n : Node} {first second rest : Code}

theorem Host.exec_leaf (h : n.kind ≠ .yield) : host.exec fuel (.leaf n rest) = fun s =>
    andThen (let (exit, w) := host.perform n.kind (n.operands.map s.values) (n.result.map Def.value) s.world
      (exit, { s with world := w })) fun value t => host.exec fuel rest
        (t.define (n.result.map Def.value) value) := by
  funext s
  rw [Host.exec, if_neg h]

theorem Host.exec_fork : host.exec fuel (.fork n first second rest) = fun s =>
    andThen (host.select fuel n (host.exec fuel first) (host.exec fuel second) s) fun value t =>
      host.exec fuel rest (t.define (n.result.map Def.value) value) := rfl

theorem Node.Plain.ne_yield (h : n.Plain) : n.kind ≠ .yield := by
  cases h <;> exact nofun

end Exec

/-- What comes after an instruction. -/
inductive Outcome where
  | next (s : State)
  | jump (label : String)
  | ret (value : Int32)

namespace Instruction

def outcome (host : Host) (result : Option ValueId) (s : State) : Effect Content → Outcome
  | .value w => .next (s.define result (some (.word w)))
  | .load base offset => .next (s.define result (some (.word (host.load s.world base offset))))
  | .store base offset value => .next { s with world := host.store s.world base offset (host.word value) }
  | .next => .next s
  | .goto label => .jump label
  | .call func args =>
    let args := args.map host.word
    .next (State.define { s with world := s.world.note (.call func args) } result
      (some (.word (host.answer s.world func args))))
  | .ret value => .ret (host.word value)
  | .cell => .next (s.define result (result.map .cell))

/-- What an instruction does; without the right number of operands it does nothing at all. -/
def run (host : Host) (i : Instruction) (s : State) : Option Outcome :=
  (i.op.effect? host.word ((i.op.inputs i.operands).map s.values)).map (outcome host i.result s)

end Instruction

/-- How a function ends. -/
inductive Ending where
  | ret (value : Int32)
  | trap (fault : Trap)
  /-- It runs over the end of its code. -/
  | fall
deriving DecidableEq

/-- A position in a list of instructions, and the state there. -/
structure Config where
  position : Nat
  state : State

inductive Move where
  | to (c : Config)
  | stop (ending : Ending)
  | stuck

/-- Where the label stands. -/
def labelPosition (is : List Instruction) (label : String) : Option Nat :=
  is.findIdx? fun i => i.op = .label label

/-- One step through instructions. A jump to the routine of a trap ends the run. -/
def step (host : Host) (is : List Instruction) (c : Config) : Move :=
  match is[c.position]? with
  | none => .stop .fall
  | some i =>
    match i.run host c.state with
    | some (.next s) => .to ⟨c.position + 1, s⟩
    | some (.jump label) =>
      match Trap.ofRoutine? label, labelPosition is label with
      | some fault, _ => .stop (.trap fault)
      | none, some position => .to ⟨position, c.state⟩
      | none, none => .stuck
    | some (.ret value) => .stop (.ret value)
    | none => .stuck

/-- The second position is reached from the first in this number of steps. -/
inductive Steps (host : Host) (is : List Instruction) : Nat → Config → Config → Prop
  | refl (c : Config) : Steps host is 0 c c
  | head {n : Nat} {c c₁ c₂ : Config} (h : step host is c = .to c₁) (hrest : Steps host is n c₁ c₂) :
      Steps host is (n + 1) c c₂

end IR

end Choco
