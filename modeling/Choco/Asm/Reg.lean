namespace Choco.Asm

inductive Reg where
  | zero | ra | sp | gp | tp | t0 | t1 | t2
  | s0 | s1 | a0 | a1 | a2 | a3 | a4 | a5
  | a6 | a7 | s2 | s3 | s4 | s5 | s6 | s7
  | s8 | s9 | s10 | s11 | t3 | t4 | t5 | t6
deriving DecidableEq, Repr, Inhabited

namespace Reg

def all : List Reg :=
  [.zero, .ra, .sp, .gp, .tp, .t0, .t1, .t2,
   .s0, .s1, .a0, .a1, .a2, .a3, .a4, .a5,
   .a6, .a7, .s2, .s3, .s4, .s5, .s6, .s7,
   .s8, .s9, .s10, .s11, .t3, .t4, .t5, .t6]

def number : Reg → Fin 32
  | .zero => 0
  | .ra => 1
  | .sp => 2
  | .gp => 3
  | .tp => 4
  | .t0 => 5
  | .t1 => 6
  | .t2 => 7
  | .s0 => 8
  | .s1 => 9
  | .a0 => 10
  | .a1 => 11
  | .a2 => 12
  | .a3 => 13
  | .a4 => 14
  | .a5 => 15
  | .a6 => 16
  | .a7 => 17
  | .s2 => 18
  | .s3 => 19
  | .s4 => 20
  | .s5 => 21
  | .s6 => 22
  | .s7 => 23
  | .s8 => 24
  | .s9 => 25
  | .s10 => 26
  | .s11 => 27
  | .t3 => 28
  | .t4 => 29
  | .t5 => 30
  | .t6 => 31

def name : Reg → String
  | .zero => "zero"
  | .ra => "ra"
  | .sp => "sp"
  | .gp => "gp"
  | .tp => "tp"
  | .t0 => "t0"
  | .t1 => "t1"
  | .t2 => "t2"
  | .s0 => "s0"
  | .s1 => "s1"
  | .a0 => "a0"
  | .a1 => "a1"
  | .a2 => "a2"
  | .a3 => "a3"
  | .a4 => "a4"
  | .a5 => "a5"
  | .a6 => "a6"
  | .a7 => "a7"
  | .s2 => "s2"
  | .s3 => "s3"
  | .s4 => "s4"
  | .s5 => "s5"
  | .s6 => "s6"
  | .s7 => "s7"
  | .s8 => "s8"
  | .s9 => "s9"
  | .s10 => "s10"
  | .s11 => "s11"
  | .t3 => "t3"
  | .t4 => "t4"
  | .t5 => "t5"
  | .t6 => "t6"

def args : List Reg := [.a0, .a1, .a2, .a3, .a4, .a5, .a6, .a7]

end Reg

end Choco.Asm
