import Choco.Proofs.LibraryCalls
import Choco.Proofs.Simulation

namespace Choco.IR

/-- What a call does to the world, by the label and the words of the arguments. -/
abbrev Callees := String → List Int32 → World → Exit × World

/-- What the functions of a module rely on: what all code does, and the routines of the library, which see
memory and what has been called so far, and change memory. -/
structure Platform extends Host where
  library : String → List Int32 → (Int32 → Int32) → List (String × List Int32) → Exit × (Int32 → Int32)

/-- How a call is left whose function is left in this way. -/
def Exit.returned : Exit → Exit
  | ret value => next (some (.word value))
  | next _ => next (some (.word 0))
  | exit => exit

/-- The value that code is left with is negated. -/
def Exit.negated (host : Host) : Exit → Exit
  | next value => next (value.map fun x => .word (UnaryOp.not.word (host.word x)))
  | exit => exit

/-- The state after a change of its world. -/
def State.after (s : State) (r : Exit × World) : Exit × State := (r.1, { s with world := r.2 })

/-- The state in which a function starts: its parameters are words, and storage is known by its names. -/
def State.enter (storage params : List ValueId) (args : List Int32) (w : World) : State :=
  ⟨fun x => if x ∈ storage then .cell x else .word (((params.zip args).lookup x).getD 0), w⟩

/-- The world behind a call, where the storage in `own` is as it was before the call. -/
def World.leave (w : World) (own : List ValueId) (before : World) : World :=
  { w with cells := fun v => if v ∈ own then before.cells v else w.cells v }

/-- The parameters and the code of the function with a label. -/
def Code.function? (label : String) : Code → Option (List ValueId × Code)
  | each ⟨_, .funcDef l _, _, _⟩ params body rest =>
    if l = label then some (params, body) else rest.function? label
  | nil | leaf _ _ | each _ _ _ _ | fork _ _ _ _ => none

/-- The function that an operation calls; a length is not a call. -/
def Kind.callee? : Kind → Option String
  | .call func => if func = "len" then none else some func
  | _ => none

namespace Host

variable (host : Host)

/-- The element of a sequence with a number below its length; that of a string becomes a new string of its
own. -/
def item (ty : Option ValueType) (x : Content) (i : Nat) (w : World) : Exit × World :=
  let element := w.memory (host.word x + 4 + 4 * Int32.ofNat i)
  if ty = some (.plain .str) then host.object [element] w else (.next (some (.word element)), w)

/-- Store a value, if there is one. -/
def put (s : State) (location : Content) : Option Content → State
  | some value => { s with world := host.store s.world location 0 (host.word value) }
  | none => s

/-- Turn number `i` of a loop through a sequence: bind the element and run the body. -/
def turn (ty : Option ValueType) (x target : Content) (body : State → Exit × State) (i : Nat) (s : State) :
    Exit × State :=
  andThen (s.after (host.item ty x i s.world)) fun item s => body (host.put s target item)

/-- Take the turns `i`, `i + 1`, …, at most `rounds` of them, as long as the sequence goes on. -/
def visit (ty : Option ValueType) (x target : Content) (body : State → Exit × State) :
    Nat → Nat → State → Exit × State
  | 0, _, s => (.timeout, s)
  | rounds + 1, i, s =>
    andThen (s.after (host.length x s.world)) fun length s =>
      if length.any fun l => (i : Int) < (host.word l).toInt then
        andThen (host.turn ty x target body i s) fun _ s => visit ty x target body rounds (i + 1) s
      else (.next none, s)

end Host

namespace Platform

variable (platform : Platform) (types : Types)

def routine : Callees := fun label args w =>
  let r := platform.library label args w.memory w.calls
  (r.1, { w.note (.call label args) with memory := r.2 })

/-- What an operation without regions does, with the contents of its operands, if it is no use of the
library. -/
def direct (callees : Callees) (n : Node) (xs : List Content) : World → Exit × World :=
  match n.kind.callee? with
  | some func => fun w => (callees func (xs.map platform.word) w).map Exit.returned id
  | none => platform.perform n.kind xs (n.result.map Def.value)

/-- What an operation without regions does. Where it is a use of the library, a routine does it. -/
def act (callees : Callees) (n : Node) (xs : List Content) (w : World) : Exit × World :=
  match n.libraryUse types with
  | .ok (.call label) => (platform.routine label (xs.map platform.word) w).map Exit.returned id
  | .ok (.negated label) =>
    (platform.routine label (xs.map platform.word) w).map
      (fun exit => exit.returned.negated platform.toHost) id
  | .ok .keep | .error _ => platform.direct callees n xs w

/-- Run code; no loop goes round more often than `fuel` times without an end. A region yields a word. -/
def run (callees : Callees) (fuel : Nat) : Code → State → Exit × State
  | .nil, s => (.next none, s)
  | .leaf n rest, s =>
    if n.kind = .yield then (.next (n.operands.head?.map fun x => .word (platform.word (s.values x))), s)
    else andThen (s.after (platform.act types callees n (n.operands.map s.values) s.world)) fun value t =>
      run callees fuel rest (t.define (n.result.map Def.value) value)
  | .each ⟨_, .forLoop, [x, target], _⟩ _ body rest, s =>
    andThen (platform.visit (types x) (s.values x) (s.values target) (run callees fuel body) fuel 0 s)
      fun _ t =>
      run callees fuel rest t
  | .each _ _ _ rest, s => run callees fuel rest s
  | .fork n first second rest, s =>
    andThen (platform.select fuel n (run callees fuel first) (run callees fuel second) s) fun value t =>
      run callees fuel rest (t.define (n.result.map Def.value) value)

/-- What calls do where the functions are those of the code, and calls nest to a depth. -/
def call (fuel : Nat) (c : Code) : Nat → Callees
  | 0 => fun _ _ w => (.timeout, w)
  | depth + 1 => fun label args w =>
    match c.function? label with
    | some (params, body) =>
      let r := platform.run types (call fuel c depth) fuel body
        (.enter (c.resultsOf Kind.isAlloc) params args (w.note (.call label args)))
      (r.1, r.2.world.leave (body.resultsOf Kind.isAlloc) w)
    | none => platform.routine label args w

end Platform

section Runs

variable {platform : Platform} {types : Types} {callees : Callees} {fuel : Nat} {n : Node}
  {c d first second rest : Code} {s : State}

theorem andThen_assoc {r : Exit × State} {f g : Option Content → State → Exit × State} :
    andThen (andThen r f) g = andThen r fun value t => andThen (f value t) g := by
  obtain ⟨exit, t⟩ := r
  cases exit <;> rfl

namespace Platform

theorem run_leaf (h : n.kind ≠ .yield) : platform.run types callees fuel (.leaf n rest) s =
    andThen (s.after (platform.act types callees n (n.operands.map s.values) s.world)) fun value t =>
      platform.run types callees fuel rest (t.define (n.result.map Def.value) value) := by
  rw [run, if_neg h]

theorem run_leaf_next (h : n.kind ≠ .yield) {value : Option Content} {w : World}
    (hact : platform.act types callees n (n.operands.map s.values) s.world = (.next value, w)) :
    platform.run types callees fuel (.leaf n rest) s =
      platform.run types callees fuel rest
        (State.define { s with world := w } (n.result.map Def.value) value) := by
  rw [run_leaf h, hact]
  rfl

theorem run_append (hc : c.Shaped false) (s : State) : platform.run types callees fuel (c ++ d) s =
    andThen (platform.run types callees fuel c s) fun _ t => platform.run types callees fuel d t := by
  generalize hy : false = y at hc
  induction hc generalizing s with
  | nil => rfl
  | yield => cases hy
  | leaf hn _ ih =>
    rw [Code.leaf_append, run_leaf hn.ne_yield, run_leaf hn.ne_yield, andThen_assoc]
    exact congrArg _ (funext₂ fun value t => ih _ hy)
  | loop id x location _ _ _ ih =>
    rw [Code.each_append, run, run, andThen_assoc]
    exact congrArg _ (funext₂ fun value t => ih _ hy)
  | fork hn _ _ _ _ _ ih =>
    rw [Code.fork_append, run, run, andThen_assoc]
    exact congrArg _ (funext₂ fun value t => ih _ hy)

end Platform

section Visit

variable {host : Host} {ty : Option ValueType} {x target : Content} {body : State → Exit × State}
  {rounds i : Nat} {test : State → Exit × State} {t : State}

theorem Host.visit_none (hx : host.word x = 0) :
    host.visit ty x target body (rounds + 1) i s = (.trap .lenOfNone, s) := by
  rw [visit, length, if_pos hx]
  rfl

theorem Host.visit_done (hx : host.word x ≠ 0) (hi : ¬ (i : Int) < (host.load s.world x 0).toInt) :
    host.visit ty x target body (rounds + 1) i s = (.next none, s) := by
  rw [visit, length, if_neg hx]
  exact if_neg fun h => hi (of_decide_eq_true h)

theorem Host.visit_next (hx : host.word x ≠ 0) (hi : (i : Int) < (host.load s.world x 0).toInt) :
    host.visit ty x target body (rounds + 1) i s =
      andThen (host.turn ty x target body i s) fun _ t => host.visit ty x target body rounds (i + 1) t := by
  rw [visit, length, if_neg hx]
  exact if_pos (decide_eq_true hi)

theorem Host.iterate_next {w : Int32} (htest : test s = (.next (some (.word w)), t)) (hw : w ≠ 0) :
    host.iterate test body (rounds + 1) s = andThen (body t) fun _ t => host.iterate test body rounds t := by
  rw [iterate, htest, andThen, if_neg (by simpa [word] using hw)]

theorem Host.iterate_done (htest : test s = (.next (some (.word 0)), t)) :
    host.iterate test body (rounds + 1) s = (.next none, t) := by
  rw [iterate, htest]
  rfl

end Visit

end Runs

end Choco.IR
