import Choco.Asm.Assembly
import Choco.Outcome

namespace Choco.Asm

namespace SystemCall

/-- Read a line: `a0` the descriptor, `a1` the address, `a2` the most bytes to read. -/
def read : Int32 := 63

/-- Write bytes: `a0` the descriptor, `a1` the address, `a2` their number. -/
def write : Int32 := 64

def exit : Int32 := 93

end SystemCall

def stdinDescriptor : Int32 := 0

def stdoutDescriptor : Int32 := 1

namespace Routine

open Instr

def newline : Int32 := 10

def trueName : String := "_true_text"

def falseName : String := "_false_text"

def messageName (trap : Trap) : String := trap.routine ++ "_msg"

/-- Set up the heap, run `main` and exit with code zero. -/
def entry (main : String) : List Instr :=
  [label Library.start,
    (la .t0 heapName).note "initialise the heap pointer",
    la .t1 heapTopName,
    sw .t0 0 .t1,
    jal main,
    (li .a0 0).note "exit program",
    li .a7 SystemCall.exit,
    ecall]

def malloc : List Instr :=
  [label Library.malloc,
    la .t0 heapTopName,
    (lw .t1 0 .t0).note "current heap top",
    alu .add .t2 .t1 .a0,
    (sw .t2 0 .t0).note "bump; memory is never reclaimed",
    mv .a0 .t1,
    ret]

/-- Print a number in decimal. The digits come from the number made negative, which exists for every
word. -/
def printInt : List Instr :=
  [label Library.printInt,
    (addi .sp .sp (-16)).note "text buffer",
    li .t0 newline,
    sb .t0 15 .sp,
    (addi .t1 .sp 15).note "start of text",
    mv .t2 .a0,
    (alu .slt .t3 .t2 .zero).note "sign flag",
    branch .ne .t3 .zero ".Lprint_int_digit",
    alu .sub .t2 .zero .t2,
    label ".Lprint_int_digit",
    li .t4 10,
    (alu .rem .t5 .t2 .t4).note "in -9..=0",
    alu .div .t2 .t2 .t4,
    li .t6 48,
    alu .sub .t5 .t6 .t5,
    addi .t1 .t1 (-1),
    sb .t5 0 .t1,
    branch .ne .t2 .zero ".Lprint_int_digit",
    branch .eq .t3 .zero ".Lprint_int_write",
    li .t5 45,
    addi .t1 .t1 (-1),
    sb .t5 0 .t1,
    label ".Lprint_int_write",
    li .a0 stdoutDescriptor,
    mv .a1 .t1,
    addi .t2 .sp 16,
    alu .sub .a2 .t2 .t1,
    li .a7 SystemCall.write,
    ecall,
    addi .sp .sp 16,
    ret]

def printBool : List Instr :=
  [label Library.printBool,
    branch .eq .a0 .zero ".Lprint_bool_false",
    la .a1 trueName,
    li .a2 5,
    j ".Lprint_bool_write",
    label ".Lprint_bool_false",
    la .a1 falseName,
    li .a2 6,
    label ".Lprint_bool_write",
    li .a0 stdoutDescriptor,
    li .a7 SystemCall.write,
    ecall,
    ret]

/-- Print a string: its bytes are copied to the stack, one from each word, and a newline behind
them. -/
def printStr : List Instr :=
  [label Library.printStr,
    (lw .t0 0 .a0).note "length",
    addi .t1 .t0 4,
    (andi .t1 .t1 (-4)).note "buffer size, room for the newline",
    alu .sub .sp .sp .t1,
    li .t2 0,
    addi .t3 .a0 4,
    label ".Lprint_str_copy",
    branch .ge .t2 .t0 ".Lprint_str_write",
    lw .t4 0 .t3,
    alu .add .t5 .sp .t2,
    sb .t4 0 .t5,
    addi .t3 .t3 4,
    addi .t2 .t2 1,
    j ".Lprint_str_copy",
    label ".Lprint_str_write",
    alu .add .t5 .sp .t0,
    li .t4 newline,
    sb .t4 0 .t5,
    li .a0 stdoutDescriptor,
    mv .a1 .sp,
    addi .a2 .t0 1,
    li .a7 SystemCall.write,
    ecall,
    alu .add .sp .sp .t1,
    ret]

/-- Read a line into a new string. The frame holds the bytes read, their number and the return
address. -/
def input : List Instr :=
  [label Library.input,
    addi .sp .sp (-1032),
    sw .ra 1028 .sp,
    li .a0 stdinDescriptor,
    mv .a1 .sp,
    li .a2 (Int32.ofNat Input.lineLimit),
    li .a7 SystemCall.read,
    ecall.note "a0 = bytes read, 0 at end of input",
    branch .ge .a0 .zero ".Linput_strip",
    li .a0 0,
    label ".Linput_strip",
    mv .t0 .a0,
    branch .eq .t0 .zero ".Linput_alloc",
    alu .add .t1 .sp .t0,
    lbu .t2 (-1) .t1,
    li .t3 newline,
    branch .ne .t2 .t3 ".Linput_alloc",
    (addi .t0 .t0 (-1)).note "drop the newline",
    label ".Linput_alloc",
    sw .t0 1024 .sp,
    slli .a0 .t0 2,
    addi .a0 .a0 4,
    jal Library.malloc,
    lw .t0 1024 .sp,
    sw .t0 0 .a0,
    li .t1 0,
    addi .t2 .a0 4,
    label ".Linput_copy",
    branch .ge .t1 .t0 ".Linput_done",
    alu .add .t3 .sp .t1,
    lbu .t4 0 .t3,
    sw .t4 0 .t2,
    addi .t2 .t2 4,
    addi .t1 .t1 1,
    j ".Linput_copy",
    label ".Linput_done",
    lw .ra 1028 .sp,
    addi .sp .sp 1032,
    ret]

/-- Copy the elements of the object whose address lies at `slot(sp)` to where `t2` points. -/
def copyElements (slot : Int32) (loop done : String) : List Instr :=
  [lw .t3 slot .sp,
    lw .t4 0 .t3,
    addi .t3 .t3 4,
    label loop,
    branch .eq .t4 .zero done,
    lw .t5 0 .t3,
    sw .t5 0 .t2,
    addi .t3 .t3 4,
    addi .t2 .t2 4,
    addi .t4 .t4 (-1),
    j loop,
    label done]

def concat : List Instr :=
  [label Library.concat,
    addi .sp .sp (-16),
    sw .ra 12 .sp,
    sw .a0 8 .sp,
    sw .a1 4 .sp,
    lw .t0 0 .a0,
    lw .t1 0 .a1,
    (alu .add .t0 .t0 .t1).note "combined length",
    sw .t0 0 .sp,
    slli .a0 .t0 2,
    addi .a0 .a0 4,
    jal Library.malloc,
    lw .t0 0 .sp,
    sw .t0 0 .a0,
    (addi .t2 .a0 4).note "destination cursor"] ++
  copyElements 8 ".Llist_concat_first" ".Llist_concat_first_done" ++
  copyElements 4 ".Llist_concat_second" ".Llist_concat_second_done" ++
  [lw .ra 12 .sp,
    addi .sp .sp 16,
    ret]

def strEq : List Instr :=
  [label Library.strEq,
    lw .t0 0 .a0,
    lw .t1 0 .a1,
    (branch .ne .t0 .t1 ".Lstr_eq_false").note "lengths differ",
    addi .t2 .a0 4,
    addi .t3 .a1 4,
    label ".Lstr_eq_loop",
    branch .eq .t0 .zero ".Lstr_eq_true",
    lw .t4 0 .t2,
    lw .t5 0 .t3,
    branch .ne .t4 .t5 ".Lstr_eq_false",
    addi .t2 .t2 4,
    addi .t3 .t3 4,
    addi .t0 .t0 (-1),
    j ".Lstr_eq_loop",
    label ".Lstr_eq_true",
    li .a0 1,
    ret,
    label ".Lstr_eq_false",
    li .a0 0,
    ret]

def messageText (trap : Trap) : String := trap.message ++ "\n"

def ofTrap (trap : Trap) : List Instr :=
  [label trap.routine,
    la .a1 (messageName trap),
    li .a2 (Int32.ofNat (messageText trap).utf8ByteSize),
    j Library.errorExit]

def errorExit : List Instr :=
  [label Library.errorExit,
    li .a0 stdoutDescriptor,
    li .a7 SystemCall.write,
    ecall,
    li .a0 Outcome.trapCode,
    li .a7 SystemCall.exit,
    ecall]

def all : List Instr :=
  malloc ++ printInt ++ printBool ++ printStr ++ input ++ concat ++ strEq ++
    Trap.all.flatMap ofTrap ++ errorExit

def data : List Datum :=
  [⟨trueName, .ascii "True\n"⟩, ⟨falseName, .ascii "False\n"⟩] ++
    Trap.all.map fun trap => ⟨messageName trap, .ascii (messageText trap)⟩

end Routine

def Assembly.withLibrary (a : Assembly) : Assembly :=
  { a with data := a.data ++ Routine.data, text := a.text ++ Routine.all }

end Choco.Asm
