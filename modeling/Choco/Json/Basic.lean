namespace Choco

/-- The constructor `foreign` stands for a well-formed value that has no place in any format of this library:
a number that is not an integer, or text with an unpaired surrogate in it or in one of its keys. -/
inductive Json where
  | null
  | bool (value : Bool)
  | int (value : Int)
  | str (value : String)
  | arr (items : List Json)
  | obj (fields : List (String × Json))
  | foreign
deriving Repr, Inhabited

namespace Json

mutual

def depth : Json → Nat
  | .arr items => depthOfItems items + 1
  | .obj fields => depthOfFields fields + 1
  | _ => 0

def depthOfItems : List Json → Nat
  | [] => 0
  | item :: items => max item.depth (depthOfItems items)

def depthOfFields : List (String × Json) → Nat
  | [] => 0
  | (_, value) :: fields => max value.depth (depthOfFields fields)

end

def ofNat (n : Nat) : Json := .int n

def ofInt32 (n : Int32) : Json := .int n.toInt

def ofOption (f : α → Json) : Option α → Json
  | none => .null
  | some a => f a

def ofList (f : α → Json) (items : List α) : Json := .arr (items.map f)

def get? (key : String) : Json → Option Json
  | .obj fields => fields.lookup key
  | _ => none

def isNull : Json → Bool
  | .null => true
  | _ => false

end Json

end Choco
