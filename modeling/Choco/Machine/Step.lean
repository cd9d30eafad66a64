import Choco.Machine.Image
import Choco.Outcome

namespace Choco

open Asm (Reg)
open Machine (Image Line Memory)

structure Machine where
  regs : Vector Int32 32
  memory : Memory
  pc : Nat
  stdinPos : Nat := 0
  stdout : Array UInt8 := #[]

namespace Machine

def read (m : Machine) (r : Reg) : Int32 := m.regs.get r.number

def write (m : Machine) (r : Reg) (w : Int32) : Machine :=
  match r with
  | .zero => m
  | r => { m with regs := m.regs.set r.number w }

def readOperand (m : Machine) : Option Reg → Int32
  | some r => m.read r
  | none => 0

/-- The machine at the next instruction, after a result. One that has no register is dropped. -/
def advance (m : Machine) (rd : Option Reg) (w : Int32) : Machine :=
  let m := { m with pc := m.pc + 1 }
  match rd with
  | some r => m.write r w
  | none => m

def ofImage (image : Image) : Machine :=
  let m : Machine := { regs := Vector.replicate 32 0, memory := image.memory, pc := image.start }
  m.write .sp (UInt32.ofNat image.memory.size).toInt32

inductive Step where
  | next (m : Machine)
  | exit (code : Int32) (m : Machine)
  | fault (error : Error) (m : Machine)

def fail (m : Machine) (fault : MachineFault) : Step := .fault (.emulation m.pc fault) m

/-- Continue with `length` mapped bytes at an address, or fault. -/
@[inline] def access (m : Machine) (base offset : Int32) (length : Nat) (k : Nat → Step) : Step :=
  let a := (base + offset).toUInt32
  if a < dataBase then m.fail (.unmapped a.toNat)
  else if a.toNat + length ≤ m.memory.size then k a.toNat
  else m.fail (.pastMemory a.toNat)

@[inline] def jump (m : Machine) (line : Line) (k : Nat → Machine) : Step :=
  match line.place, line.instr.target? with
  | some pc, _ => .next (k pc)
  | none, some name => m.fail (.undefinedLabel name)
  | none, none => m.fail .noBranchTarget

/-- The check on an address comes before that on a length. -/
@[inline] def accessBytes (m : Machine) (base length : Int32) (negative : MachineFault)
    (k : Nat → Nat → Step) : Step :=
  if base.toUInt32 < dataBase then m.fail (.unmapped base.toUInt32.toNat)
  else if length < 0 then m.fail negative
  else k base.toUInt32.toNat length.toInt.toNat

def writeCall (m : Machine) : Step :=
  if m.read .a0 ≠ Asm.stdoutDescriptor then m.fail (.writeTo (m.read .a0))
  else m.accessBytes (m.read .a1) (m.read .a2) .negativeWrite fun a length =>
    if a + length ≤ m.memory.size then
      .next ({ m with stdout := m.stdout ++ m.memory.bytes a length }.advance (some .a0) (m.read .a2))
    else m.fail (.pastMemory a)

/-- A line that does not fit is taken from the input all the same. -/
def readCall (stdin : Array UInt8) (m : Machine) : Step :=
  if m.read .a0 ≠ Asm.stdinDescriptor then m.fail (.readFrom (m.read .a0))
  else m.accessBytes (m.read .a1) (m.read .a2) .negativeRead fun a limit =>
    let line := Input.lineAt stdin m.stdinPos limit
    if a + line.size ≤ m.memory.size then
      .next ({ m with memory := m.memory.setBytes a line.toList, stdinPos := m.stdinPos + line.size }.advance
        (some .a0) (Int32.ofNat line.size))
    else { m with stdinPos := m.stdinPos + line.size }.fail (.pastMemory a)

def systemCall (stdin : Array UInt8) (m : Machine) : Step :=
  let number := m.read .a7
  if number = Asm.SystemCall.exit then .exit (m.read .a0) m
  else if number = Asm.SystemCall.write then m.writeCall
  else if number = Asm.SystemCall.read then m.readCall stdin
  else m.fail (.unknownCall number)

def exec (stdin : Array UInt8) (m : Machine) (line : Line) : Step :=
  let i := line.instr
  let x := m.readOperand i.rs1
  let y := m.readOperand i.rs2
  match i.opcode with
  | .label => .next { m with pc := m.pc + 1 }
  | .li => .next (m.advance i.rd i.number)
  | .la =>
    match line.address, i.target? with
    | some a, _ => .next (m.advance i.rd a.toInt32)
    | none, some name => m.fail (.undefinedSymbol name)
    | none, none => m.fail .noSymbol
  | .lw => m.access x i.number 4 fun a => .next (m.advance i.rd (m.memory.word a))
  | .lbu => m.access x i.number 1 fun a => .next (m.advance i.rd (Int32.ofNat (m.memory.get a).toNat))
  | .sw => m.access x i.number 4 fun a => .next { m with memory := m.memory.setWord a y, pc := m.pc + 1 }
  | .sb => m.access x i.number 1 fun a =>
    .next { m with memory := m.memory.set a y.toUInt32.toUInt8, pc := m.pc + 1 }
  | .alu op => .next (m.advance i.rd (op.eval x y))
  | .addi => .next (m.advance i.rd (x + i.number))
  | .andi => .next (m.advance i.rd (x &&& i.number))
  | .slli => .next (m.advance i.rd (Word.shiftLeft x i.number))
  | .seqz => .next (m.advance i.rd (Word.ofBool (x == 0)))
  | .snez => .next (m.advance i.rd (Word.ofBool (x != 0)))
  | .mv => .next (m.advance i.rd x)
  | .branch cond =>
    if cond.holds x y then m.jump line fun pc => { m with pc } else .next { m with pc := m.pc + 1 }
  | .j => m.jump line fun pc => { m with pc }
  | .jal => m.jump line fun pc => { m.advance i.rd (Int32.ofNat (m.pc + 1)) with pc }
  | .ret =>
    let ra := m.read .ra
    if ra < 0 then m.fail (.badReturn ra) else .next { m with pc := ra.toInt.toNat }
  | .ecall => m.systemCall stdin

def step (code : Array Line) (stdin : Array UInt8) (m : Machine) : Step :=
  match code[m.pc]? with
  | some line => m.exec stdin line
  | none => m.fail .pastEnd

end Machine

end Choco
