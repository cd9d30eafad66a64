import Choco.Text.GraphemeExtend
import Choco.Text.Ignorable
import Choco.Text.Printable

namespace Choco.Text

def hex (n : Nat) : String := String.ofList (Nat.toDigits 16 n)

/-- The sound marks of the narrow kana. They extend a cluster, and yet fill a column of their own. -/
def isNarrowSoundMark (c : Char) : Bool := c = '\uff9e' || c = '\uff9f'

/-- Whether a character is drawn over the one before it. -/
def joinsPrevious (c : Char) : Bool := isGraphemeExtend c && !isNarrowSoundMark c

/-- Whether a reader can tell a character from its neighbours. -/
def isVisible (c : Char) : Bool := isPrintable c && !isIgnorable c && !joinsPrevious c

/-- A character as it stands between quotes. What cannot be seen, or would join the character
before it, is written by its code point. -/
def escapeChar (c : Char) : String :=
  match c with
  | '\x00' => "\\0"
  | '\t' => "\\t"
  | '\r' => "\\r"
  | '\n' => "\\n"
  | '\\' => "\\\\"
  | '"' => "\\\""
  | _ => if isVisible c then c.toString else "\\u\x7b" ++ hex c.toNat ++ "\x7d"

def quote (s : String) : String := "\"" ++ String.join (s.toList.map escapeChar) ++ "\""

def padRight (width : Nat) (s : String) : String :=
  s ++ String.ofList (List.replicate (width - s.length) ' ')

def indent (n : Nat) : String := String.ofList (List.replicate (2 * n) ' ')

end Choco.Text
