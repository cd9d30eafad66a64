import Choco.Asm.Assembly
import Choco.IR.Encode
import Choco.Json.Writer

namespace Choco.Asm

def Reg.tag : Reg → String
  | .zero => "Zero"
  | .ra => "Ra"
  | .sp => "Sp"
  | .gp => "Gp"
  | .tp => "Tp"
  | .t0 => "T0"
  | .t1 => "T1"
  | .t2 => "T2"
  | .s0 => "S0"
  | .s1 => "S1"
  | .a0 => "A0"
  | .a1 => "A1"
  | .a2 => "A2"
  | .a3 => "A3"
  | .a4 => "A4"
  | .a5 => "A5"
  | .a6 => "A6"
  | .a7 => "A7"
  | .s2 => "S2"
  | .s3 => "S3"
  | .s4 => "S4"
  | .s5 => "S5"
  | .s6 => "S6"
  | .s7 => "S7"
  | .s8 => "S8"
  | .s9 => "S9"
  | .s10 => "S10"
  | .s11 => "S11"
  | .t3 => "T3"
  | .t4 => "T4"
  | .t5 => "T5"
  | .t6 => "T6"

def Opcode.tag : Opcode → String
  | .li => "Li"
  | .la => "La"
  | .lw => "Lw"
  | .sw => "Sw"
  | .lbu => "Lbu"
  | .sb => "Sb"
  | .alu op => op.tag
  | .addi => "Addi"
  | .andi => "Andi"
  | .slli => "Slli"
  | .seqz => "Seqz"
  | .snez => "Snez"
  | .mv => "Mv"
  | .branch cond => cond.tag
  | .j => "J"
  | .jal => "Jal"
  | .ret => "Ret"
  | .ecall => "Ecall"
  | .label => "Label"

def Reg.toJson (r : Reg) : Json := .str r.tag

def Immediate.toJson : Immediate → Json
  | .int n => .tagged "Int" (.ofInt32 n)
  | .label name => .tagged "Label" (.str name)

def Instr.toJson (i : Instr) : Json :=
  .obj [("opcode", .str i.opcode.tag), ("rd", .ofOption Reg.toJson i.rd), ("rs1", .ofOption Reg.toJson i.rs1),
    ("rs2", .ofOption Reg.toJson i.rs2), ("imm", .ofOption Immediate.toJson i.imm),
    ("comment", .ofOption Json.str i.comment)]

def Contents.toJson : Contents → Json
  | .space n => .tagged "Space" (.ofNat n.toNat)
  | .word n => .tagged "Word" (.ofInt32 n)
  | .ascii s => .tagged "Ascii" (.str s)

def Datum.toJson (item : Datum) : Json :=
  .obj [("label", .str item.name), ("kind", item.kind.toJson)]

def Assembly.toJson (a : Assembly) : Json :=
  .obj [("data", .ofList Datum.toJson a.data), ("text", .ofList Instr.toJson a.text),
    ("heap_size", .ofNat a.heapSize.toNat)]

end Choco.Asm
