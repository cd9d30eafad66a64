import Choco.Error
import Std.Data.TreeMap

namespace Choco.IR

/-- A list of operations with the arguments that are bound on entry. -/
structure Region where
  args : List ValueId := []
  ops : List OpId := []
deriving DecidableEq, Repr, Inhabited

/-- Where a list of operations lives: at the top of the module or in an operation. -/
inductive Place where
  | top
  | nested (op : OpId) (index : Nat)
deriving DecidableEq, Repr, Inhabited

/-- What defines a value. The owner of an argument is known once its region belongs to an
operation. -/
inductive Origin where
  | result (op : OpId)
  | arg (owner : Option OpId) (index : Nat)
deriving DecidableEq, Repr, Inhabited

structure ValueInfo where
  ty : ValueType
  origin : Origin
deriving DecidableEq, Repr, Inhabited

structure Op where
  kind : Kind
  operands : List ValueId
  result : Option ValueId
  regions : List Region
  parent : Option Place
deriving DecidableEq, Repr, Inhabited

structure Slot where
  generation : Nat := 0
  op : Option Op := none
deriving DecidableEq, Repr, Inhabited

structure Module where
  slots : Array Slot := #[]
  /-- Indices of empty slots; the one emptied last comes first. -/
  free : List Nat := []
  values : Array ValueInfo := #[]
  /-- For each value by index, the operations that use it, one entry per operand. -/
  users : Std.TreeMap Nat (List OpId) := {}
  body : Region := {}
deriving Inhabited

namespace Module

/-- The operation behind a handle, unless it was erased. -/
def get? (m : Module) (id : OpId) : Option Op :=
  match m.slots[id.index]? with
  | some slot => if slot.generation = id.generation then slot.op else none
  | none => none

def isLive (m : Module) (id : OpId) : Bool := (m.get? id).isSome

def op (m : Module) (id : OpId) : Except Error Op :=
  match m.get? id with
  | some op => .ok op
  | none => .error (.internal (.staleHandle id))

def region (m : Module) : Place → Except Error Region
  | .top => .ok m.body
  | .nested id index =>
    match m.op id with
    | .ok op => match op.regions[index]? with
      | some region => .ok region
      | none => .error (.internal (.noRegion index))
    | .error e => .error e

def value (m : Module) (v : ValueId) : Except Error ValueInfo :=
  match m.values[v.index]? with
  | some info => .ok info
  | none => .error (.internal (.unknownValue v))

def valueType (m : Module) (v : ValueId) : Except Error ValueType := (m.value v).map (·.ty)

/-- The operation whose result `v` is, unless it was erased. -/
def definingOp? (m : Module) (v : ValueId) : Option Op :=
  match m.values[v.index]? with
  | some ⟨_, .result id⟩ => m.get? id
  | _ => none

def usersOf (m : Module) (v : ValueId) : List OpId := m.users.getD v.index []

def hasUsers (m : Module) (v : ValueId) : Bool := !(m.usersOf v).isEmpty

def opCount (m : Module) : Nat := m.slots.countP (·.op.isSome)

/-- Follow parents outward through at most `n` operations. -/
def enclosingWithin (m : Module) : (n : Nat) → (id : OpId) → Option OpId
  | 0, _ => none
  | n + 1, id =>
    match m.get? id with
    | some op => match op.parent with
      | some .top => some id
      | some (.nested outer _) => enclosingWithin m n outer
      | none => none
    | none => none

/-- The operation at the top of the module in which `id` lies; it may be `id` itself. -/
def enclosing? (m : Module) (id : OpId) : Option OpId := m.enclosingWithin (m.slots.size + 1) id

def functionOf? (m : Module) (v : ValueId) : Option OpId :=
  match m.values[v.index]? with
  | some ⟨_, .result id⟩ => m.enclosing? id
  | some ⟨_, .arg (some owner) _⟩ => m.enclosing? owner
  | _ => none

/-- The live operations of a list, each followed by those nested in it, down to `n` levels. -/
def walkWithin (m : Module) : (n : Nat) → (ops : List OpId) → List OpId
  | 0, _ => []
  | n + 1, ops =>
    ops.flatMap fun id =>
      match m.get? id with
      | some op => id :: op.regions.flatMap fun r => walkWithin m n r.ops
      | none => []

/-- How many levels of nesting a module can have, unless an operation is nested in itself. -/
def depthBound (m : Module) : Nat := m.slots.size + 1

/-- All live operations of the module, parents before what is nested in them. -/
def walk (m : Module) : List OpId := m.walkWithin m.depthBound m.body.ops

def instructionCount (m : Module) : Nat :=
  m.walk.countP fun id =>
    match m.get? id with
    | some op => op.kind.isInstruction
    | none => false

/-- Change a live operation; a stale handle changes nothing. -/
def updateOp (m : Module) (id : OpId) (f : Op → Op) : Module :=
  { m with slots := m.slots.modify id.index fun slot =>
      if slot.generation = id.generation then { slot with op := slot.op.map f } else slot }

def setParent (m : Module) (parent : Option Place) (id : OpId) : Module :=
  m.updateOp id fun op => { op with parent }

def newValue (m : Module) (ty : ValueType) (origin : Origin) : ValueId × Module :=
  (⟨m.values.size⟩, { m with values := m.values.push ⟨ty, origin⟩ })

/-- Add an argument to a region that no operation owns yet. -/
def addArg (m : Module) (region : Region) (ty : ValueType) : ValueId × Region × Module :=
  let (v, m) := m.newValue ty (.arg none region.args.length)
  (v, { region with args := region.args ++ [v] }, m)

/-- The handle for a new operation. The slot that was emptied last is used first. -/
def reserve (m : Module) : OpId × Module :=
  match m.free with
  | index :: free => (⟨index, (m.slots.getD index {}).generation⟩, { m with free })
  | [] => (⟨m.slots.size, 0⟩, { m with slots := m.slots.push {} })

def addUser (id : OpId) (users : Std.TreeMap Nat (List OpId)) (v : ValueId) : Std.TreeMap Nat (List OpId) :=
  users.insert v.index (id :: users.getD v.index [])

/-- Forget one use of a value; a value without uses has no entry. -/
def dropUser (id : OpId) (users : Std.TreeMap Nat (List OpId)) (v : ValueId) : Std.TreeMap Nat (List OpId) :=
  match (users.getD v.index []).erase id with
  | [] => users.erase v.index
  | rest => users.insert v.index rest

def setOwner (owner : OpId) (values : Array ValueInfo) (v : ValueId) : Array ValueInfo :=
  values.modify v.index fun info =>
    match info.origin with
    | .arg _ index => { info with origin := .arg (some owner) index }
    | .result _ => info

/-- Make a region's operations and arguments those of region `index` of `id`. -/
def adopt (m : Module) (id : OpId) (index : Nat) (region : Region) : Module :=
  let m := region.ops.foldl (setParent · (some (.nested id index))) m
  { m with values := region.args.foldl (setOwner id) m.values }

def adoptAll (m : Module) (id : OpId) : (index : Nat) → List Region → Module
  | _, [] => m
  | index, region :: regions => adoptAll (m.adopt id index region) id (index + 1) regions

/-- Put a new operation, which is in no list yet, into its reserved slot. -/
def fill (m : Module) (id : OpId) (kind : Kind) (operands : List ValueId) (result : Option ValueId)
    (regions : List Region) : Module :=
  let m := { m with users := operands.foldl (addUser id) m.users }
  let m := m.adoptAll id 0 regions
  { m with slots := m.slots.modify id.index fun slot =>
      { slot with op := some ⟨kind, operands, result, regions, none⟩ } }

def create (m : Module) (kind : Kind) (operands : List ValueId) (regions : List Region) : OpId × Module :=
  let (id, m) := m.reserve
  (id, m.fill id kind operands none regions)

def createValue (m : Module) (kind : Kind) (operands : List ValueId) (ty : ValueType)
    (regions : List Region) : OpId × ValueId × Module :=
  let (id, m) := m.reserve
  let (v, m) := m.newValue ty (.result id)
  (id, v, m.fill id kind operands (some v) regions)

def replaceUses (m : Module) (old new : ValueId) : Module :=
  if old = new then m
  else
    let moved := m.usersOf old
    let redirect (v : ValueId) : ValueId := if v = old then new else v
    let users := m.users.erase old.index
    let users := if moved.isEmpty then users else users.insert new.index (moved ++ users.getD new.index [])
    let m := { m with users }
    moved.foldl (fun m id => m.updateOp id fun op => { op with operands := op.operands.map redirect }) m

end Module

end Choco.IR
