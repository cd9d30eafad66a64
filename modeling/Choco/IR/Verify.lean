import Choco.IR.Module
import Std.Data.TreeSet

namespace Choco.IR.Module

/-- The values that an operation may use where the check stands. -/
abbrev Visible := Std.TreeSet Nat

def invalid (defect : Defect) : Except Error α := .error (.invalidIR defect)

/-- A value that is not in sight may only belong to another function. -/
def verifyOperand (m : Module) (user : OpId) (visible : Visible) (v : ValueId) : Except Error Unit := do
  if visible.contains v.index then return
  match (← m.value v).origin with
  | .result id =>
    if !m.isLive id then invalid (.definedByErased v)
    else if m.enclosing? id = m.enclosing? user then invalid (.usedBeforeDefinition v)
    else return
  | .arg none _ => invalid (.ofDetachedRegion v)
  | .arg (some owner) _ => invalid (.argumentOutside v (← m.op owner).kind)

/-- Nothing may come after a `yield`, and none stands at the top. -/
def verifyYield (place : Place) (kind : Kind) (isLast : Bool) : Except Error Unit :=
  if kind ≠ .yield then .ok ()
  else if place = .top then invalid .yieldAtTopLevel
  else if !isLast then invalid .yieldNotLast
  else .ok ()

def hide (visible : Visible) (values : List ValueId) : Visible :=
  values.foldl (fun visible v => visible.erase v.index) visible

def reveal (visible : Visible) (values : List ValueId) : Visible :=
  values.foldl (fun visible v => visible.insert v.index) visible

def verifyRegions (check : Place → Region → Visible → Except Error Visible) (id : OpId) :
    (index : Nat) → List Region → Visible → Except Error Visible
  | _, [], visible => .ok visible
  | index, region :: regions, visible => do
    let visible ← check (.nested id index) region visible
    verifyRegions check id (index + 1) regions visible

/-- Check the operations of a list in order. The second result holds the values they define. -/
def verifyOps (m : Module) (check : Place → Region → Visible → Except Error Visible)
    (place : Place) : List OpId → Visible → Except Error (Visible × List ValueId)
  | [], visible => .ok (visible, [])
  | id :: rest, visible => do
    let some op := m.get? id | invalid (.erasedListed id)
    if op.parent ≠ some place then invalid (.staleParent op.kind)
    op.operands.forM (m.verifyOperand id visible)
    verifyYield place op.kind rest.isEmpty
    let visible ← verifyRegions check id 0 op.regions visible
    let (visible, defined) ← verifyOps m check place rest (reveal visible op.result.toList)
    return (visible, op.result.toList ++ defined)

/-- Check a region that nests at most `n` levels deep. What it defines is out of sight after it. -/
def verifyRegion (m : Module) : (n : Nat) → (place : Place) → Region → Visible → Except Error Visible
  | 0, _, _, _ => .error (.internal .endlessNesting)
  | n + 1, place, region, visible => do
    let (visible, defined) ← m.verifyOps (verifyRegion m n) place region.ops (reveal visible region.args)
    return hide visible (region.args ++ defined)

def expectedUsers (m : Module) : Std.TreeMap Nat (List OpId) :=
  m.slots.size.fold (fun index h users =>
    let slot := m.slots[index]
    match slot.op with
    | some op => op.operands.foldl (addUser ⟨index, slot.generation⟩) users
    | none => users) {}

def usersWithin (a b : Std.TreeMap Nat (List OpId)) : Bool :=
  a.toList.all fun (v, ids) => ids.isPerm (b.getD v [])

def usersAgree (m : Module) : Bool :=
  usersWithin m.users m.expectedUsers && usersWithin m.expectedUsers m.users

def verify (m : Module) : Except Error Unit := do
  let _ ← m.verifyRegion m.depthBound .top m.body {}
  if !m.usersAgree then invalid .usersDisagree

end Choco.IR.Module
