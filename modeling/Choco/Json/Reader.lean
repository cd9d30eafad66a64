import Choco.Json.Basic
import Choco.Json.Token

namespace Choco.Json

mutual

/-- The first value of a token list, and the tokens after it. The number bounds how many values,
items and fields may be opened on the way. -/
def valueWithin : Nat → List Token → Option (Json × List Token)
  | 0, _ => none
  | _ + 1, [] => none
  | n + 1, token :: rest =>
    match token with
    | .null => some (.null, rest)
    | .bool b => some (.bool b, rest)
    | .int i => some (.int i, rest)
    | .real => some (.foreign, rest)
    | .str (some s) => some (.str s, rest)
    | .str none => some (.foreign, rest)
    | .openBracket =>
      match rest with
      | .closeBracket :: rest => some (.arr [], rest)
      | _ => do
        let (items, rest) ← itemsWithin n rest
        return (.arr items, rest)
    | .openBrace =>
      match rest with
      | .closeBrace :: rest => some (.obj [], rest)
      | _ => do
        let (fields, rest) ← fieldsWithin n rest
        return ((fields.map Json.obj).getD .foreign, rest)
    | _ => none

def itemsWithin : Nat → List Token → Option (List Json × List Token)
  | 0, _ => none
  | n + 1, tokens => do
    let (item, rest) ← valueWithin n tokens
    match rest with
    | .comma :: rest =>
      let (items, rest) ← itemsWithin n rest
      return (item :: items, rest)
    | .closeBracket :: rest => return ([item], rest)
    | _ => none

def fieldsWithin : Nat → List Token → Option (Option (List (String × Json)) × List Token)
  | 0, _ => none
  | n + 1, .str key :: .colon :: tokens => do
    let (value, rest) ← valueWithin n tokens
    let field := key.map (·, value)
    match rest with
    | .comma :: rest =>
      let (fields, rest) ← fieldsWithin n rest
      return (do return (← field) :: (← fields), rest)
    | .closeBrace :: rest => return (field.map ([·]), rest)
    | _ => none
  | _ + 1, _ => none

end

/-- The value that a text spells, blanks around tokens aside. -/
def parse? (text : String) : Option Json := do
  let tokens ← tokens text.toList
  match ← valueWithin (2 * tokens.length + 1) tokens with
  | (value, []) => return value
  | _ => none

end Choco.Json
