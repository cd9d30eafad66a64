import Choco.IR.Flatten
import Choco.Proofs.Labels

namespace Choco.IR

variable {address : ValueId} {index length : Nat} {xs : List ValueId} {bytes : List UInt8}
  {quotient wanted : Bool} {op : BinaryOp} {l : Literal} {kind : Kind}

/-- A flat operation with its operands and its result. -/
structure Instruction where
  op : FlatOp
  operands : List ValueId
  result : Option ValueId
deriving DecidableEq

namespace Instruction

/-- An operation that computes a word. -/
abbrev word (op : FlatOp) (operands : List ValueId) (v : ValueId) : Instruction := ⟨op, operands, some v⟩

/-- An operation without a result. -/
abbrev act (op : FlatOp) (operands : List ValueId) : Instruction := ⟨op, operands, none⟩

def node (i : Instruction) (id : OpId) : Node := ⟨id, .flat i.op, i.operands, i.result.map (⟨·, .word⟩)⟩

def map (σ : ValueId → ValueId) (i : Instruction) : Instruction := ⟨i.op, i.operands.map σ, i.result.map σ⟩

@[simp] theorem operands_map (σ : ValueId → ValueId) (i : Instruction) :
    (i.map σ).operands = i.operands.map σ := rfl

@[simp] theorem result_map (σ : ValueId → ValueId) (i : Instruction) :
    (i.map σ).result = i.result.map σ := rfl

@[simp] theorem results_node (i : Instruction) (id : OpId) : (i.node id).results = i.result.toList := by
  cases h : i.result <;> simp [node, Node.results, h]

theorem map_node (σ : ValueId → ValueId) (i : Instruction) (id : OpId) :
    (i.node id).map σ σ = (i.map σ).node id := by
  cases h : i.result <;> simp [node, Node.map, map, h]

end Instruction

def definitions (is : List Instruction) : List ValueId := is.flatMap fun i => i.result.toList

def mentions (is : List Instruction) : List ValueId := is.flatMap Instruction.operands

@[simp] theorem definitions_nil : definitions [] = [] := rfl

@[simp] theorem definitions_cons (i : Instruction) (is : List Instruction) :
    definitions (i :: is) = i.result.toList ++ definitions is := rfl

@[simp] theorem definitions_append (is js : List Instruction) :
    definitions (is ++ js) = definitions is ++ definitions js := by
  simp [definitions]

@[simp] theorem mentions_nil : mentions [] = [] := rfl

@[simp] theorem mentions_cons (i : Instruction) (is : List Instruction) :
    mentions (i :: is) = i.operands ++ mentions is := rfl

@[simp] theorem mentions_append (is js : List Instruction) :
    mentions (is ++ js) = mentions is ++ mentions js := by
  simp [mentions]

theorem definitions_map (σ : ValueId → ValueId) (is : List Instruction) :
    definitions (is.map (·.map σ)) = (definitions is).map σ := by
  induction is with
  | nil => rfl
  | cons i is ih => cases h : i.result <;> simp [h, ih]

theorem mentions_map (σ : ValueId → ValueId) (is : List Instruction) :
    mentions (is.map (·.map σ)) = (mentions is).map σ := by
  induction is with
  | nil => rfl
  | cons i is ih => simp [ih]

namespace Code

/-- The code is a list of instructions. -/
inductive Reads : Code → List Instruction → Prop
  | nil : Reads nil []
  | leaf (id : OpId) (i : Instruction) {rest : Code} {is : List Instruction} (h : Reads rest is) :
      Reads (leaf (i.node id) rest) (i :: is)

variable {c d : Code} {is js : List Instruction}

theorem Reads.append (hc : c.Reads is) (hd : d.Reads js) : (c ++ d).Reads (is ++ js) := by
  induction hc with
  | nil => exact hd
  | leaf id i _ ih => exact .leaf id i ih

theorem Reads.map (h : c.Reads is) (σ : ValueId → ValueId) : (c.map σ σ).Reads (is.map (·.map σ)) := by
  induction h with
  | nil => exact .nil
  | leaf id i _ ih =>
    rw [map_leaf, Instruction.map_node, List.map_cons]
    exact .leaf id _ ih

theorem Reads.results_eq (h : c.Reads is) : c.results = definitions is := by
  induction h with
  | nil => rfl
  | leaf id i _ ih => simp [ih]

theorem Reads.uses_eq (h : c.Reads is) : c.uses = mentions is := by
  induction h with
  | nil => rfl
  | leaf id i _ ih => simp [ih, Instruction.node]

theorem Reads.args_eq (h : c.Reads is) : c.args = [] := by
  induction h with
  | nil => rfl
  | leaf id i _ ih => exact ih

end Code

open Instruction

/-- The instructions that store elements of an object, from number `index` on. -/
def Fills (address : ValueId) : Nat → List ValueId → List Instruction → Prop
  | _, [], is => is = []
  | index, x :: xs, is =>
    ∃ offset rest, elementOffset index = .ok offset ∧ is = act (.sw offset) [address, x] :: rest ∧
      Fills address (index + 1) xs rest

/-- The instructions that store the bytes of a string, from number `index` on. -/
def Spells (address : ValueId) : Nat → List UInt8 → List Instruction → Prop
  | _, [], is => is = []
  | index, byte :: bytes, is =>
    ∃ code offset rest, elementOffset index = .ok offset ∧
      is = word (.li (Int32.ofNat byte.toNat)) [] code :: act (.sw offset) [address, code] :: rest ∧
      Spells address (index + 1) bytes rest

/-- The instructions that make room for an object of this length and store the length there. -/
def Allocates (length : Nat) (v : ValueId) (is : List Instruction) : Prop :=
  ∃ offset size header, elementOffset length = .ok offset ∧
    is = [word (.li offset) [] size, word (.call Library.malloc) [size] v,
      word (.li (Int32.ofNat length)) [] header, act (.sw 0) [v, header]]

/-- The instructions for a literal and its value. -/
def LiteralFlat : Literal → ValueId → List Instruction → Prop
  | .int n, v, is => is = [word (.li n) [] v]
  | .bool b, v, is => is = [word (.li (Word.ofBool b)) [] v]
  | .none, v, is => is = [word (.li 0) [] v]
  | .str s, v, is =>
    ∃ head tail, is = head ++ tail ∧ Allocates (Text.encodeUtf8 s).size v head ∧
      Spells v 0 (Text.encodeUtf8 s).toList tail

def UnaryFlat (x v : ValueId) (is : List Instruction) : UnaryOp → Prop
  | .neg => ∃ zero, is = [word (.li 0) [] zero, word (.alu .sub) [zero, x] v]
  | .not => is = [word .seqz [x] v]

/-- The instructions for the floor of a quotient, or for the remainder that goes with it. -/
def FloorFlat (quotient : Bool) (x y v : ValueId) (is : List Instruction) : Prop :=
  ∃ zero q r signs differ inexact adjust tail,
    is = [word (.li 0) [] zero, act (.branch .eq Trap.divisionByZero.routine) [y, zero],
      word (.alu .div) [x, y] q, word (.alu .rem) [x, y] r, word (.alu .xor) [r, y] signs,
      word (.alu .slt) [signs, zero] differ, word .snez [r] inexact,
      word (.alu .and) [differ, inexact] adjust] ++ tail ∧
    if quotient then tail = [word (.alu .sub) [q, adjust] v]
    else ∃ correction, tail = [word (.alu .mul) [y, adjust] correction, word (.alu .add) [r, correction] v]

/-- Two instructions, the second of which turns the word of the first into a truth value. -/
def Tested (op test : FlatOp) (xs : List ValueId) (v : ValueId) (is : List Instruction) : Prop :=
  ∃ w, is = [word op xs w, word test [w] v]

def BinaryFlat (x y v : ValueId) (is : List Instruction) : BinaryOp → Prop
  | .add => is = [word (.alu .add) [x, y] v]
  | .sub => is = [word (.alu .sub) [x, y] v]
  | .mul => is = [word (.alu .mul) [x, y] v]
  | .floorDiv => FloorFlat true x y v is
  | .mod => FloorFlat false x y v is
  | .lt => is = [word (.alu .slt) [x, y] v]
  | .gt => is = [word (.alu .slt) [y, x] v]
  | .ltEq => Tested (.alu .slt) .seqz [y, x] v is
  | .gtEq => Tested (.alu .slt) .seqz [x, y] v is
  | .eq | .is => Tested (.alu .sub) .seqz [x, y] v is
  | .notEq => Tested (.alu .sub) .snez [x, y] v is
  | .and | .or => False

/-- The instructions for the length of an object. -/
def LengthFlat (x v : ValueId) (is : List Instruction) : Prop :=
  ∃ zero, is = [word (.li 0) [] zero, act (.branch .eq Trap.lenOfNone.routine) [x, zero], word (.lw 0) [x] v]

/-- The instructions for the address of an element. -/
def AddressFlat (x i v : ValueId) (is : List Instruction) : Prop :=
  ∃ zero length position four offset,
    is = [word (.li 0) [] zero, act (.branch .eq Trap.indexOfNone.routine) [x, zero], word (.lw 0) [x] length,
      act (.branch .lt Trap.indexOutOfRange.routine) [i, zero], act (.branch .ge Trap.indexOutOfRange.routine)
      [i, length], word (.addi 1) [i] position, word (.li 4) [] four,
      word (.alu .mul) [position, four] offset, word (.alu .add) [x, offset] v]

/-- The instructions for an operation without regions, and its value. A call has a result only if it is
wanted. -/
inductive LeafFlat : Kind → List ValueId → Bool → Option ValueId → List Instruction → Prop
  | literal {l : Literal} {wanted : Bool} {v : ValueId} {is : List Instruction} (h : LiteralFlat l v is) :
      LeafFlat (.literal l) [] wanted (some v) is
  | unary {op : UnaryOp} {x v : ValueId} {wanted : Bool} {is : List Instruction} (h : UnaryFlat x v is op) :
      LeafFlat (.unary op) [x] wanted (some v) is
  | binary {op : BinaryOp} {x y v : ValueId} {wanted : Bool} {is : List Instruction}
      (h : BinaryFlat x y v is op) :
      LeafFlat (.binary op) [x, y] wanted (some v) is
  | ret {x : ValueId} {wanted : Bool} : LeafFlat .ret [x] wanted none [act .ret [x]]
  | pass {wanted : Bool} : LeafFlat .pass [] wanted none []
  | assign {x : ValueId} {locations : List ValueId} {wanted : Bool} :
      LeafFlat .assign (x :: locations) wanted none (locations.map fun l => act (.sw 0) [l, x])
  | alloc {ty : Ty} {v : ValueId} {wanted : Bool} : LeafFlat (.alloc ty) [] wanted (some v) [word .alloc [] v]
  | load {x v : ValueId} {wanted : Bool} : LeafFlat .load [x] wanted (some v) [word (.lw 0) [x] v]
  | store {x y : ValueId} {wanted : Bool} : LeafFlat .store [x, y] wanted none [act (.sw 0) [x, y]]
  | len {x v : ValueId} {wanted : Bool} {is : List Instruction} (h : LengthFlat x v is) :
      LeafFlat (.call "len") [x] wanted (some v) is
  | call {func : String} {xs : List ValueId} {v : ValueId} (h : func ≠ "len") :
      LeafFlat (.call func) xs true (some v) [word (.call func) xs v]
  | callVoid {func : String} {xs : List ValueId} (h : func ≠ "len") :
      LeafFlat (.call func) xs false none [act (.call func) xs]
  | list {xs : List ValueId} {v : ValueId} {wanted : Bool} {head tail : List Instruction}
      (hhead : Allocates xs.length v head) (htail : Fills v 0 xs tail) :
        LeafFlat .list xs wanted (some v) (head ++ tail)
  | indexString {x i v : ValueId} {wanted : Bool} {is : List Instruction} (h : AddressFlat x i v is) :
      LeafFlat .indexString [x, i] wanted (some v) is
  | getAddress {x i v : ValueId} {wanted : Bool} {is : List Instruction} (h : AddressFlat x i v is) :
      LeafFlat .getAddress [x, i] wanted (some v) is

section Renaming

variable {x y v : ValueId} {is : List Instruction}

theorem Fills.map (h : Fills address index xs is) (σ : ValueId → ValueId) :
    Fills (σ address) index (xs.map σ) (is.map (·.map σ)) := by
  induction xs generalizing index is with
  | nil => exact h ▸ rfl
  | cons x xs ih =>
    obtain ⟨offset, rest, hoffset, rfl, hrest⟩ := h
    exact ⟨offset, _, hoffset, rfl, ih hrest⟩

theorem Spells.map (h : Spells address index bytes is) (σ : ValueId → ValueId) :
    Spells (σ address) index bytes (is.map (·.map σ)) := by
  induction bytes generalizing index is with
  | nil => exact h ▸ rfl
  | cons byte bytes ih =>
    obtain ⟨code, offset, rest, hoffset, rfl, hrest⟩ := h
    exact ⟨σ code, offset, _, hoffset, rfl, ih hrest⟩

theorem Allocates.map (h : Allocates length v is) (σ : ValueId → ValueId) :
    Allocates length (σ v) (is.map (·.map σ)) := by
  obtain ⟨offset, size, header, hoffset, rfl⟩ := h
  exact ⟨offset, σ size, σ header, hoffset, rfl⟩

theorem FloorFlat.map (h : FloorFlat quotient x y v is) (σ : ValueId → ValueId) :
    FloorFlat quotient (σ x) (σ y) (σ v) (is.map (·.map σ)) := by
  obtain ⟨zero, q, r, signs, differ, inexact, adjust, tail, rfl, htail⟩ := h
  refine ⟨σ zero, σ q, σ r, σ signs, σ differ, σ inexact, σ adjust,
    tail.map (·.map σ), by rw [List.map_append]; rfl, ?_⟩
  cases quotient with
  | true => exact congrArg (List.map (·.map σ)) htail
  | false =>
    obtain ⟨correction, rfl⟩ := htail
    exact ⟨σ correction, rfl⟩

theorem Tested.map {op test : FlatOp} (h : Tested op test xs v is) (σ : ValueId → ValueId) :
    Tested op test (xs.map σ) (σ v) (is.map (·.map σ)) := by
  obtain ⟨w, rfl⟩ := h
  exact ⟨σ w, rfl⟩

theorem AddressFlat.map (h : AddressFlat x y v is) (σ : ValueId → ValueId) :
    AddressFlat (σ x) (σ y) (σ v) (is.map (·.map σ)) := by
  obtain ⟨zero, length, position, four, offset, rfl⟩ := h
  exact ⟨σ zero, σ length, σ position, σ four, σ offset, rfl⟩

theorem LiteralFlat.map (h : LiteralFlat l v is) (σ : ValueId → ValueId) :
    LiteralFlat l (σ v) (is.map (·.map σ)) := by
  cases l with
  | int n | bool b | none => exact h ▸ rfl
  | str s =>
    obtain ⟨head, tail, rfl, hhead, htail⟩ := h
    exact ⟨_, _, List.map_append, hhead.map σ, htail.map σ⟩

theorem BinaryFlat.map (h : BinaryFlat x y v is op) (σ : ValueId → ValueId) :
    BinaryFlat (σ x) (σ y) (σ v) (is.map (·.map σ)) op := by
  cases op with
  | add | sub | mul | lt | gt => exact h ▸ rfl
  | floorDiv | mod => exact FloorFlat.map h σ
  | ltEq | gtEq | eq | notEq | is => exact Tested.map h σ
  | and | or => exact h

theorem LeafFlat.map {v : Option ValueId} (h : LeafFlat kind xs wanted v is) (σ : ValueId → ValueId) :
    LeafFlat kind (xs.map σ) wanted (v.map σ) (is.map (·.map σ)) := by
  cases h with
  | literal h => exact .literal (h.map σ)
  | @unary op x v _ _ h =>
    refine .unary ?_
    cases op with
    | neg =>
      obtain ⟨zero, rfl⟩ := h
      exact ⟨σ zero, rfl⟩
    | not => exact h ▸ rfl
  | binary h => exact .binary (h.map σ)
  | ret => exact .ret
  | pass => exact .pass
  | @assign x locations =>
    have hstores : (locations.map fun l => act (.sw 0) [l, x]).map (·.map σ) =
        (locations.map σ).map fun l => act (.sw 0) [l, σ x] := by
      simp [Instruction.map]
    exact hstores ▸ .assign
  | alloc => exact .alloc
  | load => exact .load
  | store => exact .store
  | len h =>
    obtain ⟨zero, rfl⟩ := h
    exact .len ⟨σ zero, rfl⟩
  | call h => exact .call h
  | callVoid h => exact .callVoid h
  | list hhead htail =>
    rw [List.map_append]
    refine .list ?_ (htail.map σ)
    rw [List.length_map]
    exact hhead.map σ
  | indexString h => exact .indexString (h.map σ)
  | getAddress h => exact .getAddress (h.map σ)

end Renaming

section Names

variable {x y v : ValueId} {is : List Instruction} {u : ValueId}

theorem Fills.mentions_mem (h : Fills address index xs is) (hu : u ∈ mentions is) : u = address ∨ u ∈ xs := by
  induction xs generalizing index is with
  | nil =>
    obtain rfl : is = [] := h
    cases hu
  | cons x xs ih =>
    obtain ⟨offset, rest, hoffset, rfl, hrest⟩ := h
    simp only [mentions_cons, List.cons_append, List.nil_append, List.mem_cons] at hu ⊢
    obtain rfl | rfl | hu := hu
    · exact .inl rfl
    · exact .inr (.inl rfl)
    · exact (ih hrest hu).imp_right .inr

theorem Spells.mentions_mem (h : Spells address index bytes is) (hu : u ∈ mentions is) :
    u = address ∨ u ∈ definitions is := by
  induction bytes generalizing index is with
  | nil =>
    obtain rfl : is = [] := h
    cases hu
  | cons byte bytes ih =>
    obtain ⟨code, offset, rest, hoffset, rfl, hrest⟩ := h
    have hrest := ih hrest
    simp only [mentions_cons, definitions_cons, List.mem_append] at *
    grind

theorem Allocates.names (h : Allocates length v is) :
    v ∈ definitions is ∧ ∀ u ∈ mentions is, u ∈ definitions is := by
  obtain ⟨offset, size, header, -, rfl⟩ := h
  simp

theorem FloorFlat.names (h : FloorFlat quotient x y v is) :
    v ∈ definitions is ∧ ∀ u ∈ mentions is, u = x ∨ u = y ∨ u ∈ definitions is := by
  obtain ⟨zero, q, r, signs, differ, inexact, adjust, tail, rfl, htail⟩ := h
  cases quotient with
  | true =>
    obtain rfl := htail
    simp +contextual [or_imp]
  | false =>
    obtain ⟨correction, rfl⟩ := htail
    simp +contextual [or_imp]

theorem BinaryFlat.names (h : BinaryFlat x y v is op) :
    v ∈ definitions is ∧ ∀ u ∈ mentions is, u = x ∨ u = y ∨ u ∈ definitions is := by
  cases op with
  | add | sub | mul | lt | gt =>
    obtain rfl := h
    simp +contextual [or_imp]
  | floorDiv | mod => exact FloorFlat.names h
  | ltEq | gtEq | eq | notEq | is =>
    obtain ⟨w, rfl⟩ := h
    simp +contextual [or_imp]
  | and | or => cases h

theorem AddressFlat.names (h : AddressFlat x y v is) :
    v ∈ definitions is ∧ ∀ u ∈ mentions is, u = x ∨ u = y ∨ u ∈ definitions is := by
  obtain ⟨zero, length, position, four, offset, rfl⟩ := h
  simp +contextual [or_imp]

theorem LiteralFlat.names (h : LiteralFlat l v is) :
    v ∈ definitions is ∧ ∀ u ∈ mentions is, u ∈ definitions is := by
  cases l with
  | int n | bool b | none =>
    obtain rfl := h
    simp
  | str s =>
    obtain ⟨head, tail, rfl, hhead, htail⟩ := h
    obtain ⟨hv, hu⟩ := hhead.names
    refine ⟨by simp [hv], fun u hu' => ?_⟩
    rw [mentions_append, List.mem_append] at hu'
    rw [definitions_append, List.mem_append]
    obtain hu' | hu' := hu'
    · exact .inl (hu u hu')
    · obtain rfl | hu' := htail.mentions_mem hu'
      · exact .inl hv
      · exact .inr hu'

theorem LeafFlat.names {v : Option ValueId} (h : LeafFlat kind xs wanted v is) :
    (∀ u ∈ v, u ∈ definitions is) ∧ ∀ u ∈ mentions is, u ∈ xs ∨ u ∈ definitions is := by
  cases h with
  | literal h => simpa +contextual using h.names
  | @unary op x v _ _ h =>
    cases op with
    | neg =>
      obtain ⟨zero, rfl⟩ := h
      simp +contextual [or_imp]
    | not =>
      obtain rfl := h
      simp
  | binary h => simpa [or_assoc] using h.names
  | ret | pass | alloc | load | store | call | callVoid => simp +contextual
  | @assign x locations =>
    refine ⟨by simp, fun u hu => .inl ?_⟩
    obtain ⟨i, hi, hu⟩ := List.mem_flatMap.mp hu
    obtain ⟨l, hl, rfl⟩ := List.mem_map.mp hi
    simp only [List.mem_cons, List.not_mem_nil, or_false] at hu ⊢
    obtain rfl | rfl := hu
    · exact .inr hl
    · exact .inl rfl
  | len h =>
    obtain ⟨zero, rfl⟩ := h
    simp +contextual [or_imp]
  | list hhead htail =>
    obtain ⟨hv, hu⟩ := hhead.names
    refine ⟨by simp [hv], fun u hu' => ?_⟩
    rw [mentions_append, List.mem_append] at hu'
    rw [definitions_append, List.mem_append]
    obtain hu' | hu' := hu'
    · exact .inr (.inl (hu u hu'))
    · obtain rfl | hu' := htail.mentions_mem hu'
      · exact .inr (.inl hv)
      · exact .inl hu'
  | indexString h | getAddress h => simpa [or_assoc] using h.names

end Names

section Notes

/-- The operation computes, moves a word to or from an address, makes storage, or checks for a trap. -/
def FlatOp.Quiet : FlatOp → Prop
  | .li _ | .alu _ | .seqz | .snez | .alloc => True
  | .lw offset | .sw offset => offset = 0
  | .addi n => n = 1
  | .branch _ target => ∃ trap : Trap, target = trap.routine
  | .jump _ | .label _ | .call _ | .ret => False

inductive Notes : List FlatOp → List Instruction → Prop
  | nil : Notes [] []
  | quiet {i : Instruction} {ops : List FlatOp} {is : List Instruction} (hi : i.op.Quiet) (h : Notes ops is) :
      Notes ops (i :: is)
  | note {op : FlatOp} {xs : List ValueId} {r : Option ValueId} {ops : List FlatOp} {is : List Instruction}
      (h : Notes ops is) :
      Notes (op :: ops) (⟨op, xs, r⟩ :: is)

def Stores : Nat → Nat → List FlatOp → Prop
  | _, 0, ops => ops = []
  | index, count + 1, ops =>
    ∃ offset rest, elementOffset index = .ok offset ∧ ops = .sw offset :: rest ∧ Stores (index + 1) count rest

/-- What the instructions for an operation do that is not quiet: they make an object, call a function, or
return. -/
inductive Notable : Kind → List ValueId → List FlatOp → Prop
  | list {xs : List ValueId} {ops : List FlatOp} (h : Stores 0 xs.length ops) :
    Notable .list xs (.call Library.malloc :: ops)
  | text {s : String} {ops : List FlatOp} (h : Stores 0 (Text.encodeUtf8 s).size ops) :
      Notable (.literal (.str s)) [] (.call Library.malloc :: ops)
  | call {func : String} {xs : List ValueId} (h : func ≠ "len") : Notable (.call func) xs [.call func]
  | ret {xs : List ValueId} : Notable .ret xs [.ret]
  | nothing {kind : Kind} {xs : List ValueId} (hlist : kind ≠ .list) (htext : ∀ s, kind ≠ .literal (.str s))
      (hcall : ∀ func, kind = .call func → func = "len") (hret : kind ≠ .ret) : Notable kind xs []

variable {ops ops' : List FlatOp} {is js : List Instruction} {x y v : ValueId} {index count : Nat}

theorem Notes.append (h : Notes ops is) (h' : Notes ops' js) : Notes (ops ++ ops') (is ++ js) := by
  induction h with
  | nil => exact h'
  | quiet hi _ ih => exact .quiet hi ih
  | note _ ih => exact .note ih

theorem notes_nil (h : ∀ i ∈ is, i.op.Quiet) : Notes [] is := by
  induction is with
  | nil => exact .nil
  | cons i is ih =>
    obtain ⟨hi, h⟩ := List.forall_mem_cons.mp h
    exact .quiet hi (ih h)

theorem Notes.flatMap_eq {α : Type} {f : FlatOp → List α} (hf : ∀ op : FlatOp, op.Quiet → f op = [])
    (h : Notes ops is) :
    (is.flatMap fun i => f i.op) = ops.flatMap f := by
  induction h with
  | nil => rfl
  | quiet hi _ ih => rw [List.flatMap_cons, hf _ hi, ih, List.nil_append]
  | note _ ih => rw [List.flatMap_cons, ih, List.flatMap_cons]

theorem Stores.exists_of_mem (h : Stores index count ops) {op : FlatOp} (hop : op ∈ ops) :
    ∃ offset, op = .sw offset := by
  induction count generalizing index ops with
  | zero =>
    obtain rfl : ops = [] := h
    cases hop
  | succ count ih =>
    obtain ⟨offset, rest, -, rfl, hrest⟩ := h
    obtain rfl | hop := List.mem_cons.mp hop
    · exact ⟨offset, rfl⟩
    · exact ih hrest hop

theorem Fills.notes (h : Fills address index xs is) : ∃ ops, Stores index xs.length ops ∧ Notes ops is := by
  induction xs generalizing index is with
  | nil => exact ⟨[], rfl, h ▸ .nil⟩
  | cons x xs ih =>
    obtain ⟨offset, rest, hoffset, rfl, hrest⟩ := h
    obtain ⟨ops, hops, hnotes⟩ := ih hrest
    exact ⟨_, ⟨offset, ops, hoffset, rfl, hops⟩, .note hnotes⟩

theorem Spells.notes (h : Spells address index bytes is) : ∃ ops, Stores index bytes.length ops ∧
    Notes ops is := by
  induction bytes generalizing index is with
  | nil => exact ⟨[], rfl, h ▸ .nil⟩
  | cons byte bytes ih =>
    obtain ⟨code, offset, rest, hoffset, rfl, hrest⟩ := h
    obtain ⟨ops, hops, hnotes⟩ := ih hrest
    exact ⟨_, ⟨offset, ops, hoffset, rfl, hops⟩, .quiet trivial (.note hnotes)⟩

theorem Allocates.notes (h : Allocates length v is) : Notes [.call Library.malloc] is := by
  obtain ⟨offset, size, header, -, rfl⟩ := h
  exact .quiet trivial (.note (.quiet trivial (.quiet rfl .nil)))

theorem FloorFlat.notes (h : FloorFlat quotient x y v is) : Notes [] is := by
  obtain ⟨zero, q, r, signs, differ, inexact, adjust, tail, rfl, htail⟩ := h
  apply notes_nil
  cases quotient with
  | true =>
    obtain rfl := htail
    simp [FlatOp.Quiet]
  | false =>
    obtain ⟨correction, rfl⟩ := htail
    simp [FlatOp.Quiet]

theorem BinaryFlat.notes (h : BinaryFlat x y v is op) : Notes [] is := by
  cases op with
  | add | sub | mul | lt | gt => exact h ▸ .quiet trivial .nil
  | floorDiv | mod => exact FloorFlat.notes h
  | ltEq | gtEq | eq | notEq | is =>
    obtain ⟨w, rfl⟩ := h
    exact .quiet trivial (.quiet trivial .nil)
  | and | or => cases h

theorem AddressFlat.notes (h : AddressFlat x y v is) : Notes [] is := by
  obtain ⟨zero, length, position, four, offset, rfl⟩ := h
  exact notes_nil (by simp [FlatOp.Quiet])

theorem LeafFlat.notes {v : Option ValueId} (h : LeafFlat kind xs wanted v is) :
    ∃ ops, Notable kind xs ops ∧ Notes ops is := by
  cases h with
  | @literal l _ _ _ h =>
    cases l with
    | int n | bool b | none =>
      exact ⟨[], .nothing (by simp) (by simp) (by simp) (by simp), h ▸ .quiet trivial .nil⟩
    | str s =>
      obtain ⟨head, tail, rfl, hhead, htail⟩ := h
      obtain ⟨ops, hops, hnotes⟩ := htail.notes
      exact ⟨_, .text (by simpa using hops), hhead.notes.append hnotes⟩
  | @unary op x v _ _ h =>
    refine ⟨[], .nothing (by simp) (by simp) (by simp) (by simp), ?_⟩
    cases op with
    | neg =>
      obtain ⟨zero, rfl⟩ := h
      exact .quiet trivial (.quiet trivial .nil)
    | not => exact h ▸ .quiet trivial .nil
  | binary h => exact ⟨[], .nothing (by simp) (by simp) (by simp) (by simp), h.notes⟩
  | indexString h | getAddress h => exact ⟨[], .nothing (by simp) (by simp) (by simp) (by simp), h.notes⟩
  | pass | assign | alloc | load | store =>
    exact ⟨[], .nothing (by simp) (by simp) (by simp) (by simp), notes_nil (by simp [FlatOp.Quiet])⟩
  | len h =>
    obtain ⟨zero, rfl⟩ := h
    exact ⟨[], .nothing (by simp) (by simp) (by simp) (by simp), notes_nil (by simp [FlatOp.Quiet])⟩
  | ret => exact ⟨_, .ret, .note .nil⟩
  | call h | callVoid h => exact ⟨_, .call h, .note .nil⟩
  | list hhead htail =>
    obtain ⟨ops, hops, hnotes⟩ := htail.notes
    exact ⟨_, .list hops, hhead.notes.append hnotes⟩

end Notes

end Choco.IR
