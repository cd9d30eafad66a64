import Choco.IR.Module

namespace Choco.IR

abbrev Edit := EStateM Error Module

namespace Edit

def query (f : Module → Except Error α) : Edit α := fun m =>
  match f m with
  | .ok a => .ok a m
  | .error e => .error e m

def update (f : Module → Module) : Edit Unit := fun m => .ok () (f m)

def make (f : Module → α × Module) : Edit α := fun m =>
  let (a, m) := f m
  .ok a m

def op (id : OpId) : Edit Op := query fun m => m.op id

/-- Change an operation; its handle must not be stale. -/
def updateOp (id : OpId) (f : Op → Op) : Edit Unit := do
  let _ ← op id
  update fun m => m.updateOp id f

def setParent (parent : Option Place) (id : OpId) : Edit Unit :=
  updateOp id fun op => { op with parent }

def setKind (id : OpId) (kind : Kind) : Edit Unit := updateOp id fun op => { op with kind }

def pushFunction (id : OpId) : Edit Unit := do
  setParent (some .top) id
  update fun m => { m with body := { m.body with ops := m.body.ops ++ [id] } }

def updateRegion (r : Place) (f : Region → Region) : Edit Unit := do
  let _ ← query fun m => m.region r
  match r with
  | .top => update fun m => { m with body := f m.body }
  | .nested id index =>
    update fun m => m.updateOp id fun op => { op with regions := op.regions.modify index f }

/-- Take an operation out of its slot, which is free from now on. -/
def release (id : OpId) : Edit Unit := fun m =>
  match m.slots[id.index]? >>= Slot.op with
  | none => .error (.internal .vanished) m
  | some op =>
    let users := op.operands.foldl (Module.dropUser id) m.users
    let users := match op.result with
      | some v => users.erase v.index
      | none => users
    .ok () { m with
      slots := m.slots.modify id.index fun slot => ⟨slot.generation + 1, none⟩
      free := id.index :: m.free
      users }

/-- Erase an operation that a region listed, if it is still there. -/
def eraseChild (eraseOp : OpId → Edit Unit) (child : OpId) : Edit Unit := do
  if ← query fun m => .ok (m.isLive child) then
    setParent none child
    eraseOp child

/-- Take an operation out of its list, erase what it nests and free its slot. -/
def eraseUnused (eraseOp : OpId → Edit Unit) (id : OpId) (parent : Option Place) : Edit Unit := do
  if let some parent := parent then
    updateRegion parent fun r => { r with ops := r.ops.filter (· ≠ id) }
  let nested := (← op id).regions.flatMap fun r => r.ops.reverse
  nested.forM (eraseChild eraseOp)
  release id

/-- Erase an operation and, from the last to the first, what each of its regions lists. -/
def eraseWithin : (n : Nat) → (id : OpId) → Edit Unit
  | 0, _ => throw (.internal .endlessNesting)
  | n + 1, id => do
    let old ← op id
    if let some v := old.result then
      let users ← query fun m => .ok (m.usersOf v)
      if !users.isEmpty then throw (.internal (.stillUsed old.kind v users.length))
    eraseUnused (eraseWithin n) id old.parent

/-- Erase an operation whose result has no users, with all that is nested in it. -/
def erase (id : OpId) : Edit Unit := fun m => eraseWithin m.depthBound id m

/-- Put `newOps` in the place of an operation, let the users of its result use `newResults`, and
erase it. -/
def replaceOp (id : OpId) (newOps : List OpId) (newResults : List ValueId) : Edit Unit := do
  let old ← op id
  let expected := if old.result.isSome then 1 else 0
  if newResults.length ≠ expected then
    throw (.internal (.resultCount old.kind newResults.length expected))
  let some parent := old.parent | throw (.internal .replaceDetached)
  let region ← query fun m => m.region parent
  if !region.ops.contains id then throw (.internal .missingFromParent)
  let (before, after) := region.ops.span (· ≠ id)
  updateRegion parent fun r => { r with ops := before ++ newOps ++ after.tail }
  newOps.forM (setParent (some parent))
  setParent none id
  match old.result, newResults with
  | some v, w :: _ => update fun m => m.replaceUses v w
  | _, _ => pure ()
  erase id

/-- Move a region out of an operation; its operations are in no list then. -/
def takeRegion (id : OpId) (index : Nat) : Edit Region := do
  let region ← query fun m => m.region (.nested id index)
  updateRegion (.nested id index) fun _ => {}
  region.ops.forM (setParent none)
  return region

end Edit

end Choco.IR
