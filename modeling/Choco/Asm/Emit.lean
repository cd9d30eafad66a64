import Choco.Asm.Frame
import Choco.Asm.Routines
import Choco.IR.Dump

namespace Choco.Asm

open IR (Module Op OpId Kind FlatOp ValueId)
open Instr

def minImmediate : Int32 := -2048

def maxImmediate : Int32 := 2047

def address (rd base : Reg) (offset : Int32) : List Instr :=
  if minImmediate ≤ offset ∧ offset ≤ maxImmediate then [addi rd base offset]
  else [li .t3 offset, alu .add rd base .t3]

def loadWord (rd base : Reg) (offset : Int32) : List Instr :=
  if offset ≤ maxImmediate then [lw rd offset base] else address .t3 base offset ++ [lw rd 0 .t3]

def storeWord (src base : Reg) (offset : Int32) : List Instr :=
  if offset ≤ maxImmediate then [sw src offset base] else address .t3 base offset ++ [sw src 0 .t3]

def returnLabel (name : String) : String := "_" ++ name ++ "_return"

structure Context where
  module : Module
  func : OpId
  name : String
  frame : Frame
  global : Frame

namespace Context

variable (ctx : Context)

def locate (v : ValueId) : Except Error (Reg × Int32) :=
  match ctx.frame.slot? v with
  | some offset => .ok (.sp, offset)
  | none =>
    match if ctx.module.functionOf? v = some ctx.func then none else ctx.global.slot? v with
    | some offset => .ok (.tp, offset)
    | none => .error (.unimplemented (.enclosingValue v ctx.name))

def load (rd : Reg) (v : ValueId) : Except Error (List Instr) := do
  let (base, offset) ← ctx.locate v
  return loadWord rd base offset

def store (src : Reg) (result : Option ValueId) : Except Error (List Instr) := do
  let some v := result | .error (.internal .noResult)
  let (base, offset) ← ctx.locate v
  return storeWord src base offset

def operand₁ : List ValueId → Except Error ValueId
  | [x] => .ok x
  | operands => .error (.internal (.flatOperands ctx.name 1 operands.length))

def operand₂ : List ValueId → Except Error (ValueId × ValueId)
  | [x, y] => .ok (x, y)
  | operands => .error (.internal (.flatOperands ctx.name 2 operands.length))

def unary (operands : List ValueId) (result : Option ValueId) (compute : Instr) :
    Except Error (List Instr) := do
  let x ← ctx.operand₁ operands
  return (← ctx.load .t1 x) ++ compute :: (← ctx.store .t0 result)

def loadTwo (operands : List ValueId) : Except Error (List Instr) := do
  let (x, y) ← ctx.operand₂ operands
  return (← ctx.load .t1 x) ++ (← ctx.load .t2 y)

def loadArgs : List (ValueId × Reg) → Except Error (List Instr)
  | [] => .ok []
  | (v, r) :: rest => do return (← ctx.load r v) ++ (← loadArgs rest)

def flatCode (id : OpId) (flat : FlatOp) (operands : List ValueId) (result : Option ValueId) :
    Except Error (List Instr) := do
  match flat with
  | .label name => return [label name]
  | .jump name => return [j name]
  | .li n => return li .t0 n :: (← ctx.store .t0 result)
  | .lw offset => ctx.unary operands result (lw .t0 offset .t1)
  | .addi n => ctx.unary operands result (addi .t0 .t1 n)
  | .seqz => ctx.unary operands result (seqz .t0 .t1)
  | .snez => ctx.unary operands result (snez .t0 .t1)
  | .sw offset => return (← ctx.loadTwo operands) ++ [sw .t2 offset .t1]
  | .alu op => return (← ctx.loadTwo operands) ++ alu op .t0 .t1 .t2 :: (← ctx.store .t0 result)
  | .branch cond name => return (← ctx.loadTwo operands) ++ [branch cond .t1 .t2 name]
  | .call func =>
    if operands.length > Reg.args.length then
      .error (.unimplemented (.manyArgs func operands.length Reg.args.length))
    else
      let args ← ctx.loadArgs (operands.zip Reg.args)
      let rest ← if result.isSome then ctx.store .a0 result else pure []
      return args ++ jal func :: rest
  | .ret => return (← ctx.load .a0 (← ctx.operand₁ operands)) ++ [j (returnLabel ctx.name)]
  | .alloc =>
    match ctx.frame.alloc? id with
    | some offset => return address .t0 .sp offset ++ (← ctx.store .t0 result)
    | none => .error (.internal .noStorage)

def withComment (comment : String) : List Instr → List Instr
  | [] => []
  | first :: rest => first.note comment :: rest

def opCode (id : OpId) : Except Error (List Instr) := do
  let op ← ctx.module.op id
  match op.kind with
  | .flat flat =>
    let code ← ctx.flatCode id flat op.operands op.result
    return if flat.isLabel then code else withComment (ctx.module.opText id) code
  | kind => .error (.passOrdering (.unlowered kind))

def prologue (args : List ValueId) : Except Error (List Instr) := do
  let stores ← (args.zip Reg.args).mapM fun (v, r) =>
    match ctx.frame.slot? v with
    | some offset => .ok (storeWord r .sp offset)
    | none => .error (.internal (.noSlot v ctx.name))
  return label ctx.name :: address .sp .sp (-ctx.frame.size) ++ storeWord .ra .sp ctx.frame.raOffset ++
    stores.flatten ++ (if ctx.name = entryFunction then [(mv .tp .sp).note "global frame"] else [])

def epilogue : List Instr :=
  label (returnLabel ctx.name) ::
    loadWord .ra .sp ctx.frame.raOffset ++ address .sp .sp ctx.frame.size ++ [ret]

end Context

def functionName (m : Module) (id : OpId) : Except Error String := do
  match (← m.op id).kind with
  | .funcDef name _ => return name
  | kind => .error (.internal (.notAtTopLevel kind))

def functionCode (m : Module) (main : OpId) (global : Frame) (func : OpId) : Except Error (List Instr) := do
  let name ← functionName m func
  let some body := (← m.op func).regions.head? | .error (.internal .noBody)
  if body.args.length > Reg.args.length then
    .error (.unimplemented (.manyParams name body.args.length Reg.args.length))
  let frame ← if func = main then pure global else Frame.layout m func
  let ctx : Context := { module := m, func, name, frame, global }
  let start ← ctx.prologue body.args
  let code ← body.ops.mapM ctx.opCode
  return start ++ code.flatten ++ ctx.epilogue

def entry? (m : Module) : Option OpId :=
  m.body.ops.find? fun id =>
    match functionName m id with
    | .ok name => name = entryFunction
    | .error _ => false

/-- The whole program: its start, the entry function, the other functions and the library. -/
def Assembly.ofModule (heapSize : UInt32) (m : Module) : Except Error Assembly := do
  let some main := entry? m | .error (.internal .noEntry)
  let global ← Frame.layout m main
  let code ← (main :: m.body.ops.filter (· ≠ main)).mapM fun func => do
    let name ← functionName m func
    if Library.reserved.contains name then .error (.duplicateDefinition name)
    functionCode m main global func
  let a := Assembly.ofHeap heapSize
  return { a with text := Routine.entry entryFunction ++ code.flatten }.withLibrary

end Choco.Asm
