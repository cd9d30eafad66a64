import Choco.Error

namespace Choco

structure Scope (α : Type) where
  bindings : List (String × α) := []
  parent : Option Nat := none

/-- Scopes are numbered in the order in which they are opened; number 0 is the global one. -/
structure Scopes (α : Type) where
  scopes : Array (Scope α) := #[{}]

namespace Scopes

variable {α : Type}

def global : Nat := 0

def enter (t : Scopes α) (parent : Nat) : Nat × Scopes α :=
  (t.scopes.size, ⟨t.scopes.push { parent := some parent }⟩)

def local? (t : Scopes α) (scope : Nat) (name : String) : Option α :=
  t.scopes[scope]? >>= fun s => s.bindings.lookup name

def define (t : Scopes α) (scope : Nat) (name : String) (value : α) : Except Error (Scopes α) :=
  if (t.local? scope name).isSome then .error (.duplicateDefinition name)
  else .ok ⟨t.scopes.modify scope fun s => { s with bindings := (name, value) :: s.bindings }⟩

def lookupWithin (t : Scopes α) (name : String) : (n : Nat) → (scope : Nat) → Option α
  | 0, _ => none
  | n + 1, scope =>
    match t.local? scope name with
    | some value => some value
    | none => t.scopes[scope]? >>= Scope.parent >>= lookupWithin t name n

/-- The binding of `name` that is visible from `scope`. Going outward meets every scope at most
once. -/
def lookup? (t : Scopes α) (scope : Nat) (name : String) : Option α :=
  t.lookupWithin name t.scopes.size scope

def resolve (t : Scopes α) (scope : Nat) (name : String) : Except Error α :=
  match t.lookup? scope name with
  | some value => .ok value
  | none => .error (.undefinedName name)

end Scopes

end Choco
