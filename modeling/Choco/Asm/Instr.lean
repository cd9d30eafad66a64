import Choco.Asm.Reg
import Choco.Text.Quoted
import Choco.Word

namespace Choco.Asm

inductive Opcode where
  | li
  | la
  | lw
  | sw
  | lbu
  | sb
  | alu (op : AluOp)
  | addi
  | andi
  | slli
  | seqz
  | snez
  | mv
  | branch (cond : Cond)
  | j
  | jal
  | ret
  | ecall
  | label
deriving DecidableEq, Repr, Inhabited

def Opcode.mnemonic : Opcode → String
  | .li => "li"
  | .la => "la"
  | .lw => "lw"
  | .sw => "sw"
  | .lbu => "lbu"
  | .sb => "sb"
  | .alu op => op.mnemonic
  | .addi => "addi"
  | .andi => "andi"
  | .slli => "slli"
  | .seqz => "seqz"
  | .snez => "snez"
  | .mv => "mv"
  | .branch cond => cond.mnemonic
  | .j => "j"
  | .jal => "jal"
  | .ret => "ret"
  | .ecall => "ecall"
  | .label => "label"

/-- A number, or the name of a place in the code or in the data. -/
inductive Immediate where
  | int (value : Int32)
  | label (name : String)
deriving DecidableEq, Repr, Inhabited

def Immediate.text : Immediate → String
  | .int n => toString n.toInt
  | .label name => name

structure Instr where
  opcode : Opcode
  rd : Option Reg := none
  rs1 : Option Reg := none
  rs2 : Option Reg := none
  imm : Option Immediate := none
  comment : Option String := none
deriving DecidableEq, Repr, Inhabited

namespace Instr

def li (rd : Reg) (n : Int32) : Instr := { opcode := .li, rd, imm := some (.int n) }

def la (rd : Reg) (symbol : String) : Instr := { opcode := .la, rd, imm := some (.label symbol) }

def lw (rd : Reg) (offset : Int32) (base : Reg) : Instr :=
  { opcode := .lw, rd, rs1 := base, imm := some (.int offset) }

def lbu (rd : Reg) (offset : Int32) (base : Reg) : Instr :=
  { opcode := .lbu, rd, rs1 := base, imm := some (.int offset) }

def sw (src : Reg) (offset : Int32) (base : Reg) : Instr :=
  { opcode := .sw, rs1 := base, rs2 := src, imm := some (.int offset) }

def sb (src : Reg) (offset : Int32) (base : Reg) : Instr :=
  { opcode := .sb, rs1 := base, rs2 := src, imm := some (.int offset) }

def alu (op : AluOp) (rd rs1 rs2 : Reg) : Instr := { opcode := .alu op, rd, rs1, rs2 }

def addi (rd rs1 : Reg) (n : Int32) : Instr := { opcode := .addi, rd, rs1, imm := some (.int n) }

def andi (rd rs1 : Reg) (n : Int32) : Instr := { opcode := .andi, rd, rs1, imm := some (.int n) }

def slli (rd rs1 : Reg) (n : Int32) : Instr := { opcode := .slli, rd, rs1, imm := some (.int n) }

def seqz (rd rs1 : Reg) : Instr := { opcode := .seqz, rd, rs1 }

def snez (rd rs1 : Reg) : Instr := { opcode := .snez, rd, rs1 }

def mv (rd rs1 : Reg) : Instr := { opcode := .mv, rd, rs1 }

def branch (cond : Cond) (rs1 rs2 : Reg) (name : String) : Instr :=
  { opcode := .branch cond, rs1, rs2, imm := some (.label name) }

def j (name : String) : Instr := { opcode := .j, imm := some (.label name) }

/-- Jump and leave the position of the next instruction in `ra`. -/
def jal (name : String) : Instr := { opcode := .jal, rd := some .ra, imm := some (.label name) }

def ret : Instr := { opcode := .ret }

def ecall : Instr := { opcode := .ecall }

def label (name : String) : Instr := { opcode := .label, imm := some (.label name) }

def note (i : Instr) (comment : String) : Instr := { i with comment := some comment }

def labelName? (i : Instr) : Option String :=
  match i.opcode, i.imm with
  | .label, some (.label name) => some name
  | _, _ => none

/-- The name that an instruction other than a label refers to. -/
def target? (i : Instr) : Option String :=
  match i.opcode, i.imm with
  | .label, _ => none
  | _, some (.label name) => some name
  | _, _ => none

/-- The number that an instruction holds, or zero. -/
def number (i : Instr) : Int32 :=
  match i.imm with
  | some (.int n) => n
  | _ => 0

def regText : Option Reg → String
  | some r => r.name
  | none => "?"

def body (i : Instr) : String :=
  let imm := (i.imm.map Immediate.text).getD ""
  let line (operands : String) : String := "    " ++ i.opcode.mnemonic ++ operands
  match i.opcode with
  | .label => imm ++ ":"
  | .li | .la => line (" " ++ regText i.rd ++ ", " ++ imm)
  | .lw | .lbu => line (" " ++ regText i.rd ++ ", " ++ imm ++ "(" ++ regText i.rs1 ++ ")")
  | .sw | .sb => line (" " ++ regText i.rs2 ++ ", " ++ imm ++ "(" ++ regText i.rs1 ++ ")")
  | .alu _ => line (" " ++ regText i.rd ++ ", " ++ regText i.rs1 ++ ", " ++ regText i.rs2)
  | .addi | .andi | .slli => line (" " ++ regText i.rd ++ ", " ++ regText i.rs1 ++ ", " ++ imm)
  | .seqz | .snez | .mv => line (" " ++ regText i.rd ++ ", " ++ regText i.rs1)
  | .branch _ => line (" " ++ regText i.rs1 ++ ", " ++ regText i.rs2 ++ ", " ++ imm)
  | .j | .jal => line (" " ++ imm)
  | .ret | .ecall => line ""

def commentColumn : Nat := 32

def text (i : Instr) : String :=
  match i.comment with
  | some comment => Text.padRight commentColumn i.body ++ " # " ++ comment
  | none => i.body

end Instr

end Choco.Asm
