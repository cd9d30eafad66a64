import Choco.Asm.Encode
import Choco.IR.Decode
import Choco.Json.Decode

namespace Choco.Asm

def Reg.ofTag? (tag : String) : Option Reg := Reg.all.find? (·.tag = tag)

def Opcode.all : List Opcode :=
  [.li, .la, .lw, .sw, .lbu, .sb, .addi, .andi, .slli, .seqz, .snez, .mv, .j, .jal, .ret, .ecall, .label] ++
    AluOp.all.map .alu ++ Cond.all.map .branch

def Opcode.ofTag? (tag : String) : Option Opcode := Opcode.all.find? (·.tag = tag)

def Reg.decode? (j : Json) : Option Reg := j.asStr? >>= Reg.ofTag?

def Immediate.decode? (j : Json) : Option Immediate := do
  match ← j.variant? with
  | ("Int", v) => return .int (← v.asInt32?)
  | ("Label", v) => return .label (← v.asStr?)
  | _ => none

def Instr.decode? (j : Json) : Option Instr := do
  let field {α : Type} (name : String) (decode : Json → Option α) : Option (Option α) :=
    match j.get? name with
    | none | some .null => some none
    | some v => some <$> decode v
  let opcode ← j.get? "opcode" >>= Json.asStr? >>= Opcode.ofTag?
  return {
    opcode
    rd := ← field "rd" Reg.decode?
    rs1 := ← field "rs1" Reg.decode?
    rs2 := ← field "rs2" Reg.decode?
    imm := ← field "imm" Immediate.decode?
    comment := ← field "comment" Json.asStr? }

def Contents.decode? (j : Json) : Option Contents := do
  match ← j.variant? with
  | ("Space", v) => return .space (UInt32.ofNat (← v.asNat?))
  | ("Word", v) => return .word (← v.asInt32?)
  | ("Ascii", v) => return .ascii (← v.asStr?)
  | _ => none

def Datum.decode? (j : Json) : Option Datum := do
  return ⟨← j.get? "label" >>= Json.asStr?, ← j.get? "kind" >>= Contents.decode?⟩

end Choco.Asm
