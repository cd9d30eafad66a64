import Choco.Asm.Instr
import Choco.Library

namespace Choco.Asm

inductive Contents where
  | space (size : UInt32)
  | word (value : Int32)
  | ascii (text : String)
deriving DecidableEq, Repr, Inhabited

structure Datum where
  name : String
  kind : Contents
deriving DecidableEq, Repr, Inhabited

structure Assembly where
  data : List Datum
  text : List Instr
  heapSize : UInt32
deriving DecidableEq, Repr, Inhabited

def Datum.size (item : Datum) : UInt32 :=
  match item.kind with
  | .space n => n
  | .word _ => 4
  | .ascii s => UInt32.ofNat s.utf8ByteSize

def Datum.text (item : Datum) : String :=
  item.name ++ match item.kind with
    | .space n => ": .space " ++ toString n.toNat
    | .word n => ": .word " ++ toString n.toInt
    | .ascii s => ": .ascii " ++ Text.quote s

def heapName : String := "_heap"

/-- The cell that holds the address of the first free byte of the heap. -/
def heapTopName : String := "_heap_ptr"

namespace Assembly

def defaultHeapSize : UInt32 := 102400

def ofHeap (size : UInt32) : Assembly :=
  { data := [⟨heapName, .space size⟩, ⟨heapTopName, .word 0⟩], text := [], heapSize := size }

def instructionCount (a : Assembly) : Nat := a.text.countP (·.opcode ≠ .label)

def hasLabel (a : Assembly) (name : String) : Bool := a.text.any (·.labelName? = some name)

def lines (text : List Instr) : String := String.join (text.map fun i => i.text ++ "\n")

def listing (a : Assembly) : String :=
  ".data\n" ++ String.join (a.data.map fun item => item.text ++ "\n") ++ "\n.text\n.globl " ++
    Library.start ++ "\n" ++ lines a.text

def entrySize : Nat := 8

def userText (a : Assembly) : List Instr :=
  (a.text.drop entrySize).takeWhile (·.labelName? ≠ some Library.malloc)

end Assembly

end Choco.Asm
