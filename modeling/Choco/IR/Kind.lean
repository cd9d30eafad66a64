import Choco.Syntax
import Choco.Text.Quoted
import Choco.Word

namespace Choco

def Literal.text : Literal → String
  | .int n => toString n.toInt
  | .bool true => "True"
  | .bool false => "False"
  | .str s => Text.quote s
  | .none => "None"

namespace IR

/-- Handle of a value: the result of an operation or an argument of a region. -/
structure ValueId where
  index : Nat
deriving DecidableEq, Hashable, Repr, Inhabited

/-- Handle of an operation. A slot is used again after its operation was erased, under the next
generation. -/
structure OpId where
  index : Nat
  generation : Nat
deriving DecidableEq, Hashable, Repr, Inhabited

/-- Values are source values, addresses of storage for one, or machine words. -/
inductive ValueType where
  | plain (ty : Ty)
  | location (ty : Ty)
  | word
deriving DecidableEq, Repr, Inhabited

/-- Flat operations on virtual registers. Operands: `lw`, `addi`, `seqz`, `snez`, `ret` take one,
`sw` takes an address and a value, `alu` and `branch` take two, `call` takes the arguments. -/
inductive FlatOp where
  | li (value : Int32)
  | lw (offset : Int32)
  | sw (offset : Int32)
  | alu (op : AluOp)
  | addi (value : Int32)
  | seqz
  | snez
  | branch (cond : Cond) (label : String)
  | jump (label : String)
  | label (name : String)
  | call (func : String)
  | ret
  | alloc
deriving DecidableEq, Repr, Inhabited

/-- Operands and regions by kind:
`shortCircuit` has regions for its two sides, `ifExpr` and `ifElse` take a condition and have two
regions, `whileLoop` has regions for condition and body, `forLoop` takes a sequence and a location
and has a body, `assign` takes a value and then the locations to store it in, `store` takes a
location and a value. A region that computes a value ends in `yield`. -/
inductive Kind where
  | literal (value : Literal)
  | unary (op : UnaryOp)
  | binary (op : BinaryOp)
  | shortCircuit (op : BinaryOp)
  | ifExpr
  | ifElse
  | whileLoop
  | forLoop
  | funcDef (name : String) (returnTy : Ty)
  | ret
  | yield
  | pass
  | assign
  | alloc (ty : Ty)
  | load
  | store
  | call (func : String)
  | list
  | indexString
  | getAddress
  | classDef (name : String)
  | member (name : String)
  | flat (op : FlatOp)
deriving DecidableEq, Repr, Inhabited

def ValueId.text (v : ValueId) : String := "%" ++ toString v.index

def OpId.text (id : OpId) : String :=
  "OpId \x7b index: " ++ toString id.index ++ ", generation: " ++ toString id.generation ++ " \x7d"

namespace ValueType

def source? : ValueType → Option Ty
  | .plain ty => some ty
  | _ => none

def pointee? : ValueType → Option Ty
  | .location ty => some ty
  | _ => none

def isLocation : ValueType → Bool
  | .location _ => true
  | _ => false

def text : ValueType → String
  | .plain ty => ty.text
  | .location ty => "memloc<" ++ ty.text ++ ">"
  | .word => "reg"

end ValueType

namespace FlatOp

def mnemonic : FlatOp → String
  | .li _ => "li"
  | .lw _ => "lw"
  | .sw _ => "sw"
  | .alu op => op.mnemonic
  | .addi _ => "addi"
  | .seqz => "seqz"
  | .snez => "snez"
  | .branch cond _ => cond.mnemonic
  | .jump _ => "j"
  | .label _ => "label"
  | .call _ => "call"
  | .ret => "ret"
  | .alloc => "alloc"

def isLabel : FlatOp → Bool
  | .label _ => true
  | _ => false

def suffix : FlatOp → String
  | .li n | .addi n | .lw n | .sw n => " " ++ toString n.toInt
  | .branch _ l | .jump l | .label l => " " ++ l
  | .call func => " @" ++ func
  | _ => ""

end FlatOp

namespace Kind

def mnemonic : Kind → String
  | .literal _ => "literal"
  | .unary _ => "unary_expr"
  | .binary _ => "binary_expr"
  | .shortCircuit _ => "effectful_binary_expr"
  | .ifExpr => "if_expr"
  | .ifElse => "if"
  | .whileLoop => "while"
  | .forLoop => "for"
  | .funcDef _ _ => "func_def"
  | .ret => "return"
  | .yield => "yield"
  | .pass => "pass"
  | .assign => "assign"
  | .alloc _ => "alloc"
  | .load => "load"
  | .store => "store"
  | .call _ => "call_expr"
  | .list => "list_expr"
  | .indexString => "index_string"
  | .getAddress => "get_address"
  | .classDef _ => "class_def"
  | .member _ => "member_expr"
  | .flat op => op.mnemonic

def isFlat : Kind → Bool
  | .flat _ => true
  | _ => false

/-- A flat operation that stands for an instruction: any but a label. -/
def isInstruction : Kind → Bool
  | .flat op => !op.isLabel
  | _ => false

def text (kind : Kind) : String :=
  kind.mnemonic ++ match kind with
    | .literal value => " " ++ value.text
    | .unary op => " " ++ op.text
    | .binary op | .shortCircuit op => " " ++ op.text
    | .funcDef name _ => " @" ++ name
    | .alloc ty => " " ++ ty.text
    | .call func => " @" ++ func
    | .classDef name => " " ++ name
    | .member name => " ." ++ name
    | .flat op => op.suffix
    | _ => ""

end Kind

end IR

end Choco
