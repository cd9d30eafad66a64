import Choco.IR.Encode
import Choco.Syntax.Decode

namespace Choco

def AluOp.all : List AluOp := [.add, .sub, .mul, .div, .rem, .slt, .and, .or, .xor]

def AluOp.ofTag? (tag : String) : Option AluOp := AluOp.all.find? (·.tag = tag)

def Cond.all : List Cond := [.eq, .ne, .lt, .ge]

def Cond.ofTag? (tag : String) : Option Cond := Cond.all.find? (·.tag = tag)

namespace IR

def ValueType.decode (n : Nat) (j : Json) : Option ValueType :=
  match j with
  | .str "Reg" => some .word
  | .obj [("Ty", v)] => (Ty.decode n v).map .plain
  | .obj [("MemLoc", v)] => (Ty.decode n v).map .location
  | _ => none

def FlatOp.ofTag? : String → Option FlatOp
  | "Seqz" => some .seqz
  | "Snez" => some .snez
  | "Return" => some .ret
  | "Alloc" => some .alloc
  | tag => (AluOp.ofTag? tag).map .alu

def FlatOp.decode? : Json → Option FlatOp
  | .str tag => FlatOp.ofTag? tag
  | .obj [("Li", v)] => v.asInt32?.map .li
  | .obj [("Lw", v)] => v.asInt32?.map .lw
  | .obj [("Sw", v)] => v.asInt32?.map .sw
  | .obj [("Addi", v)] => v.asInt32?.map .addi
  | .obj [("J", v)] => v.asStr?.map .jump
  | .obj [("Label", v)] => v.asStr?.map .label
  | .obj [("Call", v)] => do return .call (← v.get? "func" >>= Json.asStr?)
  | .obj [(tag, v)] => do return .branch (← Cond.ofTag? tag) (← v.asStr?)
  | _ => none

def Kind.ofTag? : String → Option Kind
  | "IfExpr" => some .ifExpr
  | "If" => some .ifElse
  | "While" => some .whileLoop
  | "For" => some .forLoop
  | "Return" => some .ret
  | "Yield" => some .yield
  | "Pass" => some .pass
  | "Assign" => some .assign
  | "Load" => some .load
  | "Store" => some .store
  | "ListExpr" => some .list
  | "IndexString" => some .indexString
  | "GetAddress" => some .getAddress
  | _ => none

def Kind.decode (n : Nat) : Json → Option Kind
  | .str tag => Kind.ofTag? tag
  | .obj [("Literal", v)] => (Literal.decode n v).map .literal
  | .obj [("UnaryExpr", v)] => (UnaryOp.decode n v).map .unary
  | .obj [("BinaryExpr", v)] => (BinaryOp.decode n v).map .binary
  | .obj [("EffectfulBinaryExpr", v)] => (BinaryOp.decode n v).map .shortCircuit
  | .obj [("Alloc", v)] => (Ty.decode n v).map .alloc
  | .obj [("FuncDef", v)] => do
    return .funcDef (← v.get? "name" >>= Json.asStr?) (← v.get? "return_type" >>= Ty.decode n)
  | .obj [("CallExpr", v)] => do return .call (← v.get? "func" >>= Json.asStr?)
  | .obj [("ClassDef", v)] => do return .classDef (← v.get? "name" >>= Json.asStr?)
  | .obj [("MemberExpr", v)] => do return .member (← v.get? "member" >>= Json.asStr?)
  | .obj [("Target", v)] => (FlatOp.decode? v).map .flat
  | _ => none

end IR

end Choco
