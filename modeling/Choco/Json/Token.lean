namespace Choco.Json

inductive Token where
  | openBrace
  | closeBrace
  | openBracket
  | closeBracket
  | comma
  | colon
  | null
  | bool (value : Bool)
  | int (value : Int)
  /-- A number with a fraction or an exponent, or negative zero. -/
  | real
  | str (value : Option String)
deriving DecidableEq, Repr

/-- What one piece of a string token contributes: a character, or half of a surrogate pair. -/
inductive StringPart where
  | char (c : Char)
  | high (unit : Nat)
  | low (unit : Nat)

/-- The text of a string token, if every surrogate in it is paired. -/
def assemble : List StringPart → Option (List Char)
  | [] => some []
  | .char c :: rest => (assemble rest).map (c :: ·)
  | .high h :: .low l :: rest =>
    (assemble rest).map (Char.ofNat (0x10000 + (h - 0xD800) * 0x400 + (l - 0xDC00)) :: ·)
  | _ => none

def hexDigit? (c : Char) : Option Nat :=
  if '0' ≤ c && c ≤ '9' then some (c.toNat - '0'.toNat)
  else if 'a' ≤ c && c ≤ 'f' then some (c.toNat - 'a'.toNat + 10)
  else if 'A' ≤ c && c ≤ 'F' then some (c.toNat - 'A'.toNat + 10)
  else none

def hexUnit? (a b c d : Char) : Option Nat := do
  return (((← hexDigit? a) * 16 + (← hexDigit? b)) * 16 + (← hexDigit? c)) * 16 + (← hexDigit? d)

def StringPart.ofUnit (unit : Nat) : StringPart :=
  if 0xD800 ≤ unit && unit < 0xDC00 then .high unit
  else if 0xDC00 ≤ unit && unit < 0xE000 then .low unit
  else .char (Char.ofNat unit)

def simpleEscape? : Char → Option Char
  | '"' => some '"'
  | '\\' => some '\\'
  | '/' => some '/'
  | 'b' => some '\x08'
  | 'f' => some '\x0c'
  | 'n' => some '\n'
  | 'r' => some '\r'
  | 't' => some '\t'
  | _ => none

/-- The parts of a string up to its closing quote, and the text after it. -/
def scanString : List Char → Option (List StringPart × List Char)
  | '"' :: rest => some ([], rest)
  | '\\' :: 'u' :: a :: b :: c :: d :: rest => do
    let unit ← hexUnit? a b c d
    let (parts, rest) ← scanString rest
    return (.ofUnit unit :: parts, rest)
  | '\\' :: e :: rest => do
    let c ← simpleEscape? e
    let (parts, rest) ← scanString rest
    return (.char c :: parts, rest)
  | c :: rest => do
    if c < ' ' then none else
    let (parts, rest) ← scanString rest
    return (.char c :: parts, rest)
  | [] => none

def scanDigits (cs : List Char) : Option (List Char × List Char) :=
  match cs.takeWhile Char.isDigit with
  | [] => none
  | digits => some (digits, cs.dropWhile Char.isDigit)

def digitsValue (digits : List Char) : Nat :=
  digits.foldl (fun n c => n * 10 + (c.toNat - '0'.toNat)) 0

def scanFraction : List Char → Option (Bool × List Char)
  | '.' :: rest => do
    let (_, rest) ← scanDigits rest
    return (true, rest)
  | rest => some (false, rest)

def isExponentMark (c : Char) : Bool := c == 'e' || c == 'E'

def isSign (c : Char) : Bool := c == '+' || c == '-'

def scanExponent : List Char → Option (Bool × List Char)
  | [] => some (false, [])
  | mark :: rest =>
    if isExponentMark mark then do
      let unsigned := match rest with
        | sign :: tail => if isSign sign then tail else rest
        | [] => []
      let (_, rest) ← scanDigits unsigned
      return (true, rest)
    else some (false, mark :: rest)

/-- A number without its sign. A leading zero stands alone. -/
def scanMagnitude (negative : Bool) (cs : List Char) : Option (Token × List Char) := do
  let (digits, rest) ← scanDigits cs
  if digits.head? == some '0' && digits.length > 1 then none else
  let (fraction, rest) ← scanFraction rest
  let (exponent, rest) ← scanExponent rest
  let n := digitsValue digits
  let token :=
    if fraction || exponent then Token.real
    else if negative then (if n = 0 then .real else .int (-n))
    else .int n
  return (token, rest)

def isBlank (c : Char) : Bool := c == ' ' || c == '\n' || c == '\t' || c == '\r'

def scanToken : Char → List Char → Option (Token × List Char)
  | '\x7b', rest => some (.openBrace, rest)
  | '\x7d', rest => some (.closeBrace, rest)
  | '[', rest => some (.openBracket, rest)
  | ']', rest => some (.closeBracket, rest)
  | ',', rest => some (.comma, rest)
  | ':', rest => some (.colon, rest)
  | '"', rest => do
    let (parts, rest) ← scanString rest
    return (.str ((assemble parts).map String.ofList), rest)
  | 'n', 'u' :: 'l' :: 'l' :: rest => some (.null, rest)
  | 't', 'r' :: 'u' :: 'e' :: rest => some (.bool true, rest)
  | 'f', 'a' :: 'l' :: 's' :: 'e' :: rest => some (.bool false, rest)
  | '-', rest => scanMagnitude true rest
  | c, rest => scanMagnitude false (c :: rest)

/-- Every token takes at least one character, so the length of the text bounds their number. -/
def tokensWithin : Nat → List Char → Option (List Token)
  | _, [] => some []
  | 0, _ :: _ => none
  | n + 1, c :: rest =>
    if isBlank c then tokensWithin n rest
    else do
      let (token, rest) ← scanToken c rest
      let tokens ← tokensWithin n rest
      return token :: tokens

def tokens (text : List Char) : Option (List Token) := tokensWithin text.length text

end Choco.Json
