namespace Choco

/-- Here `none` is the type of the `None` literal, and `empty` that of the display `[]`. -/
inductive Ty where
  | int
  | bool
  | str
  | none
  | empty
  | object
  | list (elem : Ty)
deriving DecidableEq, Repr, Inhabited

namespace Ty

def elem? : Ty → Option Ty
  | .list elem => some elem
  | _ => Option.none

def isList : Ty → Bool
  | .list _ => true
  | _ => false

/-- Values of a reference type are heap pointers, so they may be `None`. -/
def isReference : Ty → Bool
  | .int | .bool => false
  | _ => true

def isSubtype (a b : Ty) : Bool := a == b || b == .object

def admitsNone : Ty → Bool
  | .int | .bool | .str => false
  | _ => true

def isAssignable (a b : Ty) : Bool :=
  a.isSubtype b || match a, b with
    | .none, t => t.admitsNone
    | .empty, .list _ => true
    | .list elem, .list target => elem == .none && target.admitsNone
    | _, _ => false

def join (a b : Ty) : Ty :=
  if a.isAssignable b then b else if b.isAssignable a then a else .object

def isSequence : Ty → Bool
  | .str | .list _ | .empty => true
  | _ => false

def text : Ty → String
  | .int => "int"
  | .bool => "bool"
  | .str => "str"
  | .none => "<None>"
  | .empty => "<Empty>"
  | .object => "object"
  | .list elem => "[" ++ elem.text ++ "]"

end Ty

end Choco
