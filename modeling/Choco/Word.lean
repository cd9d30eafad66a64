namespace Choco

inductive AluOp where
  | add | sub | mul | div | rem | slt | and | or | xor
deriving DecidableEq, Repr, Inhabited

inductive Cond where
  | eq | ne | lt | ge
deriving DecidableEq, Repr, Inhabited

namespace Word

def ofBool (b : Bool) : Int32 := if b then 1 else 0

def ofNat? (n : Nat) : Option Int32 := if n < 2147483648 then some (Int32.ofNat n) else none

/-- The quotient goes toward zero; a zero divisor gives minus one. -/
def div (a b : Int32) : Int32 := if b = 0 then -1 else a / b

/-- The remainder has the dividend's sign; a zero divisor gives the dividend. -/
def rem (a b : Int32) : Int32 := if b = 0 then a else a % b

/-- One when the quotient toward zero lies above the floor: the remainder is not zero and its sign
is not the divisor's. -/
def floorAdjust (a b : Int32) : Int32 := ofBool (a % b ≠ 0 && (a % b) ^^^ b < 0)

def floorDiv? (a b : Int32) : Option Int32 :=
  if b = 0 then none else some (a / b - floorAdjust a b)

/-- The remainder that goes with the floor of the quotient; it has the divisor's sign. -/
def floorMod? (a b : Int32) : Option Int32 :=
  if b = 0 then none else some (a % b + b * floorAdjust a b)

def shiftLeft (a n : Int32) : Int32 := (a.toUInt32 <<< (n.toUInt32 &&& 31)).toInt32

def toBytes (w : Int32) : List UInt8 :=
  let n := w.toUInt32
  [n.toUInt8, (n >>> 8).toUInt8, (n >>> 16).toUInt8, (n >>> 24).toUInt8]

def ofBytes (b₀ b₁ b₂ b₃ : UInt8) : Int32 :=
  (b₀.toUInt32 ||| (b₁.toUInt32 <<< 8) ||| (b₂.toUInt32 <<< 16) ||| (b₃.toUInt32 <<< 24)).toInt32

end Word

namespace AluOp

def eval : AluOp → Int32 → Int32 → Int32
  | .add, a, b => a + b
  | .sub, a, b => a - b
  | .mul, a, b => a * b
  | .div, a, b => Word.div a b
  | .rem, a, b => Word.rem a b
  | .slt, a, b => Word.ofBool (a < b)
  | .and, a, b => a &&& b
  | .or, a, b => a ||| b
  | .xor, a, b => a ^^^ b

def mnemonic : AluOp → String
  | .add => "add"
  | .sub => "sub"
  | .mul => "mul"
  | .div => "div"
  | .rem => "rem"
  | .slt => "slt"
  | .and => "and"
  | .or => "or"
  | .xor => "xor"

end AluOp

namespace Cond

def holds : Cond → Int32 → Int32 → Bool
  | .eq, a, b => a == b
  | .ne, a, b => a != b
  | .lt, a, b => a < b
  | .ge, a, b => b ≤ a

def mnemonic : Cond → String
  | .eq => "beq"
  | .ne => "bne"
  | .lt => "blt"
  | .ge => "bge"

end Cond

end Choco
