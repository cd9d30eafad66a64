import Choco.Error
import Choco.Text.Utf8

namespace Choco.Eval

inductive Value where
  | none
  | int (value : Int32)
  | bool (value : Bool)
  | str (object : Nat) (bytes : Array UInt8)
  | list (object : Nat)
deriving DecidableEq, Repr, Inhabited

/-- The list objects made so far, by number, and how many string objects there are. -/
structure Store where
  lists : Array (Array Value) := #[]
  strings : Nat := 0
deriving Inhabited

namespace Store

def newString (s : Store) (bytes : Array UInt8) : Value × Store :=
  (.str s.strings bytes, { s with strings := s.strings + 1 })

def newList (s : Store) (elems : Array Value) : Value × Store :=
  (.list s.lists.size, { s with lists := s.lists.push elems })

def elems (s : Store) (object : Nat) : Array Value := s.lists.getD object #[]

def setElem (s : Store) (object index : Nat) (value : Value) : Store :=
  { s with lists := s.lists.modify object fun elems => elems.setIfInBounds index value }

/-- The value of a literal; a string literal makes a new object. -/
def ofLiteral (s : Store) : Literal → Value × Store
  | .int n => (.int n, s)
  | .bool b => (.bool b, s)
  | .str text => s.newString (Text.encodeUtf8 text)
  | .none => (.none, s)

end Store

namespace Value

def kind : Value → ValueKind
  | .none => .none
  | .int _ => .int
  | .bool _ => .bool
  | .str _ _ => .str
  | .list _ => .list

def asInt : Value → Except Error Int32
  | .int n => .ok n
  | v => .error (.internal (.wrongKind .int v.kind))

def asBool : Value → Except Error Bool
  | .bool b => .ok b
  | v => .error (.internal (.wrongKind .bool v.kind))

/-- The machine word of a value that is no object. -/
def scalarWord? : Value → Option Int32
  | .none => some 0
  | .int n => some n
  | .bool b => some (Word.ofBool b)
  | .str _ _ | .list _ => Option.none

/-- The same object, or equal words; an object and a scalar are never the same. -/
def is : Value → Value → Bool
  | .str a _, .str b _ => a == b
  | .list a, .list b => a == b
  | a, b => match a.scalarWord?, b.scalarWord? with
    | some x, some y => x == y
    | _, _ => false

/-- Strings are equal if their bytes are; other values if they are the same. -/
def equals : Value → Value → Bool
  | .str _ a, .str _ b => a == b
  | a, b => a.is b

/-- The text of a value whose lists nest at most `n` deep. -/
def textWithin (store : Store) : (n : Nat) → Value → String
  | _, .none => "None"
  | _, .int n => toString n.toInt
  | _, .bool true => "True"
  | _, .bool false => "False"
  | _, .str _ bytes => Text.decodeUtf8 bytes
  | 0, .list _ => "[...]"
  | n + 1, .list object =>
    "[" ++ ", ".intercalate ((store.elems object).toList.map (textWithin store n)) ++ "]"

/-- No list nests deeper than there are lists, unless it contains itself. -/
def text (store : Store) (v : Value) : String := v.textWithin store store.lists.size

end Value

end Choco.Eval
