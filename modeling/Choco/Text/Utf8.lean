namespace Choco.Text

/-- A character that is not yet complete: its code point so far, the bounds of its next byte, and
how many bytes come after that one. -/
structure Pending where
  bits : Nat
  low : UInt8
  high : UInt8
  more : Nat

/-- What a leading byte opens. The bounds on the second byte rule out long forms, surrogates and
code points past the last. -/
def Pending.ofLead? (b : UInt8) : Option Pending :=
  if 0xC2 ≤ b && b ≤ 0xDF then some ⟨b.toNat - 0xC0, 0x80, 0xBF, 0⟩
  else if b == 0xE0 then some ⟨0, 0xA0, 0xBF, 1⟩
  else if b == 0xED then some ⟨0xD, 0x80, 0x9F, 1⟩
  else if 0xE1 ≤ b && b ≤ 0xEF then some ⟨b.toNat - 0xE0, 0x80, 0xBF, 1⟩
  else if b == 0xF0 then some ⟨0, 0x90, 0xBF, 2⟩
  else if b == 0xF4 then some ⟨4, 0x80, 0x8F, 2⟩
  else if 0xF1 ≤ b && b ≤ 0xF3 then some ⟨b.toNat - 0xF0, 0x80, 0xBF, 2⟩
  else none

def replacement : Char := '�'

/-- The reader after some bytes: the text they gave and the character they left open. -/
structure Reader where
  out : String := ""
  pending : Option Pending := none

namespace Reader

def start (r : Reader) (b : UInt8) : Reader :=
  if b < 0x80 then ⟨r.out.push (Char.ofNat b.toNat), none⟩
  else match Pending.ofLead? b with
    | some p => ⟨r.out, some p⟩
    | none => ⟨r.out.push replacement, none⟩

/-- Read one byte. A byte that does not continue the open character ends it as one replacement and
starts anew. -/
def read (r : Reader) (b : UInt8) : Reader :=
  match r.pending with
  | none => r.start b
  | some p =>
    if p.low ≤ b && b ≤ p.high then
      let bits := p.bits * 64 + (b.toNat - 0x80)
      match p.more with
      | 0 => ⟨r.out.push (Char.ofNat bits), none⟩
      | more + 1 => ⟨r.out, some ⟨bits, 0x80, 0xBF, more⟩⟩
    else start ⟨r.out.push replacement, none⟩ b

def finish (r : Reader) : String :=
  match r.pending with
  | none => r.out
  | some _ => r.out.push replacement

end Reader

def decodeUtf8 (bytes : Array UInt8) : String := (bytes.foldl Reader.read {}).finish

def encodeUtf8 (s : String) : Array UInt8 := s.toUTF8.data

end Choco.Text
