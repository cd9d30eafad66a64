import Choco.Asm.Routines
import Choco.Error
import Choco.Machine.Memory
import Choco.Text.Utf8

namespace Choco.Machine

open Asm (Assembly Datum Contents Instr)

structure Line where
  instr : Instr
  place : Option Nat := none
  address : Option UInt32 := none
deriving DecidableEq, Repr, Inhabited

structure Image where
  code : Array Line
  memory : Memory
  start : Nat
deriving Inhabited

def dataBase : UInt32 := 0x1000

def stackSize : UInt32 := 0x100000

/-- The next multiple of four, with zero behind the last one. -/
def aligned (a : UInt32) : UInt32 := (a + 3) &&& ~~~3

def align (a : UInt32) : Except Error UInt32 :=
  if a.toNat + 3 < UInt32.size then .ok (aligned a) else .error (.aborted .addressOverflow)

def addSize (a size : UInt32) : Except Error UInt32 :=
  if a.toNat + size.toNat < UInt32.size then .ok (a + size) else .error (.emulation 0 .dataTooLarge)

/-- The positions of the labels of a program, from position `n` on; no name occurs twice. -/
def labelTable (known : List (String × Nat)) (n : Nat) : List Instr → Except Error (List (String × Nat))
  | [] => .ok known
  | i :: rest =>
    match i.labelName? with
    | none => labelTable known (n + 1) rest
    | some name =>
      if (known.lookup name).isSome then .error (.emulation n (.duplicateLabel name))
      else labelTable ((name, n) :: known) (n + 1) rest

/-- Items of data with their addresses, and the first address behind them. -/
def layoutData (cursor : UInt32) : List Datum → Except Error (List (Datum × UInt32) × UInt32)
  | [] => .ok ([], cursor)
  | item :: rest => do
    let address ← align cursor
    let (placed, cursor') ← layoutData (← addSize address item.size) rest
    return ((item, address) :: placed, cursor')

def copyBytes (m : Memory) (a : Nat) (bytes : List UInt8) : Except Error Memory :=
  if a + bytes.length ≤ m.size then .ok (m.setBytes a bytes)
  else .error (.aborted (.copyPastEnd (a + bytes.length) m.size))

def writeItem (m : Memory) : Datum × UInt32 → Except Error Memory
  | (⟨_, .space _⟩, _) => .ok m
  | (⟨_, .word w⟩, a) => copyBytes m a.toNat (Word.toBytes w)
  | (⟨_, .ascii s⟩, a) => copyBytes m a.toNat (Text.encodeUtf8 s).toList

/-- Resolve what an instruction names. Of two items with one name the last counts. -/
def resolve (labels : List (String × Nat)) (symbols : List (String × UInt32)) (i : Instr) : Line :=
  match i.target? with
  | some name => ⟨i, labels.lookup name, symbols.lookup name⟩
  | none => ⟨i, none, none⟩

def Image.load (a : Assembly) : Except Error Image := do
  let labels ← labelTable [] 0 a.text
  let (items, cursor) ← layoutData dataBase a.data
  let top ← addSize (← align cursor) stackSize
  let memory ← items.foldlM writeItem { size := top.toNat }
  let some start := labels.lookup Library.start | .error (.emulation 0 .noStart)
  let symbols := (items.map fun (item, address) => (item.name, address)).reverse
  return { code := (a.text.map (resolve labels symbols)).toArray, memory, start }

end Choco.Machine
