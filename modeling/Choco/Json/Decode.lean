import Choco.Json.Basic

namespace Choco.Json

def record? (names : List String) : Json → Option (List Json)
  | .arr items => if items.length = names.length then some items else none
  | .obj fields =>
    names.mapM fun name =>
      match fields.filter (·.1 == name) with
      | [(_, value)] => some value
      | _ => none
  | _ => none

def tag? : Nat → Json → Option String
  | _, .str tag => some tag
  | _ + 1, .obj [(tag, .null)] => some tag
  | _, _ => none

def variant? : Json → Option (String × Json)
  | .obj [field] => some field
  | _ => none

def asBool? : Json → Option Bool
  | .bool b => some b
  | _ => none

def asStr? : Json → Option String
  | .str s => some s
  | _ => none

def asNat? : Json → Option Nat
  | .int (.ofNat n) => some n
  | _ => none

def asList? : Json → Option (List Json)
  | .arr items => some items
  | _ => none

def asInt32? : Json → Option Int32
  | .int n => if Int32.minValue.toInt ≤ n ∧ n ≤ Int32.maxValue.toInt then some (Int32.ofInt n) else none
  | _ => none

end Choco.Json
