namespace Choco.Text

/-- Whether place `n` has a property, given the lengths of the runs of places without and with it by turns.
`inside` is whether the first run has it. -/
def inRuns (inside : Bool) : List Nat → Nat → Bool
  | [], _ => inside
  | length :: runs, n => if n < length then inside else inRuns (!inside) runs (n - length)

end Choco.Text
