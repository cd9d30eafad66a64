import Choco.IR.Kind
import Choco.Syntax.Encode

namespace Choco

def AluOp.tag : AluOp → String
  | .add => "Add"
  | .sub => "Sub"
  | .mul => "Mul"
  | .div => "Div"
  | .rem => "Rem"
  | .slt => "Slt"
  | .and => "And"
  | .or => "Or"
  | .xor => "Xor"

def Cond.tag : Cond → String
  | .eq => "Beq"
  | .ne => "Bne"
  | .lt => "Blt"
  | .ge => "Bge"

namespace IR

def ValueType.toJson : ValueType → Json
  | .plain ty => .tagged "Ty" ty.toJson
  | .location ty => .tagged "MemLoc" ty.toJson
  | .word => .str "Reg"

def FlatOp.toJson : FlatOp → Json
  | .li n => .tagged "Li" (.ofInt32 n)
  | .lw n => .tagged "Lw" (.ofInt32 n)
  | .sw n => .tagged "Sw" (.ofInt32 n)
  | .alu op => .str op.tag
  | .addi n => .tagged "Addi" (.ofInt32 n)
  | .seqz => .str "Seqz"
  | .snez => .str "Snez"
  | .branch cond l => .tagged cond.tag (.str l)
  | .jump l => .tagged "J" (.str l)
  | .label l => .tagged "Label" (.str l)
  | .call func => .tagged "Call" (.obj [("func", .str func)])
  | .ret => .str "Return"
  | .alloc => .str "Alloc"

def Kind.toJson : Kind → Json
  | .literal v => .tagged "Literal" v.toJson
  | .unary op => .tagged "UnaryExpr" (.str op.tag)
  | .binary op => .tagged "BinaryExpr" (.str op.tag)
  | .shortCircuit op => .tagged "EffectfulBinaryExpr" (.str op.tag)
  | .ifExpr => .str "IfExpr"
  | .ifElse => .str "If"
  | .whileLoop => .str "While"
  | .forLoop => .str "For"
  | .funcDef name returnTy =>
    .tagged "FuncDef" (.obj [("name", .str name), ("return_type", returnTy.toJson)])
  | .ret => .str "Return"
  | .yield => .str "Yield"
  | .pass => .str "Pass"
  | .assign => .str "Assign"
  | .alloc ty => .tagged "Alloc" ty.toJson
  | .load => .str "Load"
  | .store => .str "Store"
  | .call func => .tagged "CallExpr" (.obj [("func", .str func)])
  | .list => .str "ListExpr"
  | .indexString => .str "IndexString"
  | .getAddress => .str "GetAddress"
  | .classDef name => .tagged "ClassDef" (.obj [("name", .str name)])
  | .member name => .tagged "MemberExpr" (.obj [("member", .str name)])
  | .flat op => .tagged "Target" op.toJson

def ValueId.toJson (v : ValueId) : Json := .ofNat v.index

end IR

end Choco
