import Choco.IR.Build
import Choco.Proofs.Replace

namespace Choco.IR

variable {id : OpId}

namespace Edit

variable {α β : Type} {P : Module → Prop} {x : Edit α} {m m' : Module} {e : Error}

/-- The module that an action leaves behind, whether it succeeds or fails. -/
def left (x : Edit α) (m : Module) : Module :=
  match x m with
  | .ok _ m' | .error _ m' => m'

def succeeds (x : Edit α) (m : Module) : Bool :=
  match x m with
  | .ok _ _ => true
  | .error _ _ => false

def Keeps (P : Module → Prop) (x : Edit α) : Prop := ∀ m, P m → P (x.left m)

theorem left_ok {a : α} (h : x m = .ok a m') : x.left m = m' := by
  rw [left, h]

theorem left_error (h : x m = .error e m') : x.left m = m' := by
  rw [left, h]

theorem exists_ok_left (h : x.succeeds m = true) : ∃ a, x m = .ok a (x.left m) := by
  cases hrun : x m with
  | ok a m' => exact ⟨a, by rw [left_ok hrun]⟩
  | error e m' =>
    rw [succeeds, hrun] at h
    cases h

theorem left_bind_ok {f : α → Edit β} {a : α} (h : x m = .ok a m') : (x >>= f).left m = (f a).left m' := by
  rw [left, Action.bind_ok h, left]

theorem left_bind_error {f : α → Edit β} (h : x m = .error e m') : (x >>= f).left m = m' :=
  left_error (Action.bind_error h)

theorem keeps_pure (a : α) : Keeps P (pure a : Edit α) := fun _ h => h

theorem keeps_throw (e : Error) : Keeps P (throw e : Edit α) := fun _ h => h

theorem keeps_query (f : Module → Except Error α) : Keeps P (query f) := by
  intro m h
  cases hf : f m with
  | ok a => rwa [left_ok (show query f m = .ok a m by simp [query, hf])]
  | error e => rwa [left_error (show query f m = .error e m by simp [query, hf])]

theorem keeps_update {f : Module → Module} (h : ∀ m, P m → P (f m)) : Keeps P (update f) := h

theorem Keeps.bind {f : α → Edit β} (hx : Keeps P x) (hf : ∀ a, Keeps P (f a)) : Keeps P (x >>= f) := by
  intro m h
  have hleft := hx m h
  cases hrun : x m with
  | ok a m₁ =>
    rw [left_ok hrun] at hleft
    rw [left_bind_ok hrun]
    exact hf a m₁ hleft
  | error e m₁ =>
    rw [left_error hrun] at hleft
    rwa [left_bind_error hrun]

theorem Keeps.ite {p : Prop} [Decidable p] {y : Edit α} (hx : Keeps P x) (hy : Keeps P y) :
    Keeps P (if p then x else y) := by
  split
  exacts [hx, hy]

theorem Keeps.forM {g : α → Edit PUnit} {xs : List α} (h : ∀ x, Keeps P (g x)) : Keeps P (xs.forM g) := by
  induction xs with
  | nil => exact keeps_pure _
  | cons x xs ih => exact (h x).bind fun _ => ih

theorem keeps_updateOp {f : Op → Op} (h : ∀ m, P m → P (m.updateOp id f)) : Keeps P (updateOp id f) :=
  (keeps_query _).bind fun _ => keeps_update h

theorem keeps_updateRegion {place : Place} {f : Region → Region} (h : ∀ m, P m → P (m.modifyRegion place f)) :
    Keeps P (updateRegion place f) := by
  refine (keeps_query _).bind fun _ => ?_
  cases place with
  | top => exact keeps_update h
  | nested id index => exact keeps_update h

end Edit

namespace Module

variable {m m₀ m₁ m₂ : Module}

theorem Sound.modifyRegion (h : m.Sound) (place : Place) (f : Region → Region) :
    (m.modifyRegion place f).Sound := by
  cases place with
  | top => exact ⟨h.free_nodup, h.mem_free, h.users, h.results⟩
  | nested owner index => exact h.updateOp _ _ (fun _ _ => rfl) fun _ _ => rfl

theorem Sound.addArg (h : m.Sound) (region : Region) (ty : ValueType) : (m.addArg region ty).2.2.Sound where
  free_nodup := h.free_nodup
  mem_free := h.mem_free
  users := h.users
  results id op v hop hv := by
    obtain ⟨ty', hty'⟩ := h.results id op v hop hv
    exact ⟨ty', (Settles.push _ _).result hty'⟩

/-- What is left of a module while operations are erased from it: no operation is new, none has
another result than before, and no value gets a user. -/
structure Erasing (m m' : Module) : Prop where
  sound : m'.Sound
  kept : ∀ (i g : Nat) (op' : Op), m'.slots[i]? = some ⟨g, some op'⟩ →
    ∃ op, m.slots[i]? = some ⟨g, some op⟩ ∧ op'.result = op.result
  unused : ∀ v, m.usersOf v = [] → m'.usersOf v = []

namespace Erasing

theorem refl (h : m.Sound) : Erasing m m := ⟨h, fun _ _ op hop => ⟨op, hop, rfl⟩, fun _ hv => hv⟩

theorem trans (h : Erasing m₀ m₁) (h' : Erasing m₁ m₂) : Erasing m₀ m₂ := by
  refine ⟨h'.sound, fun i g op₂ hop₂ => ?_, fun v hv => h'.unused v (h.unused v hv)⟩
  obtain ⟨op₁, hop₁, hres₁⟩ := h'.kept i g op₂ hop₂
  obtain ⟨op, hop, hres⟩ := h.kept i g op₁ hop₁
  exact ⟨op, hop, hres₁.trans hres⟩

theorem updateOp (h : Erasing m₀ m) (id : OpId) (f : Op → Op)
    (hoperands : ∀ op, (f op).operands = op.operands) (hresult : ∀ op, (f op).result = op.result) :
    Erasing m₀ (m.updateOp id f) := by
  refine h.trans ⟨h.sound.updateOp id f (fun op _ => hoperands op) fun op _ => hresult op,
    fun i g op' hop' => ?_, fun v hv => hv⟩
  have hget : (m.updateOp id f).get? ⟨i, g⟩ = some op' := get?_eq_some.mpr hop'
  rw [get?_updateOp] at hget
  by_cases hid : (⟨i, g⟩ : OpId) = id
  · rw [if_pos hid, ← hid, Option.map_eq_some_iff] at hget
    obtain ⟨op, hop, rfl⟩ := hget
    exact ⟨op, get?_eq_some.mp hop, hresult op⟩
  · rw [if_neg hid] at hget
    exact ⟨op', get?_eq_some.mp hget, rfl⟩

theorem modifyRegion (h : Erasing m₀ m) (place : Place) (f : Region → Region) :
    Erasing m₀ (m.modifyRegion place f) := by
  cases place with
  | top => exact ⟨h.sound.modifyRegion .top f, h.kept, h.unused⟩
  | nested owner index => exact h.updateOp _ _ (fun _ => rfl) fun _ => rfl

theorem released {op : Op} (h : Erasing m₀ m) (hop : m.get? id = some op)
    (hunused : ∀ v, op.result = some v → m.usersOf v = []) :
    Erasing m₀ (Edit.released m id op) := by
  refine h.trans ⟨h.sound.released hop hunused, fun i g op' hop' => ?_, fun v hv => ?_⟩
  · have hget : (Edit.released m id op).get? ⟨i, g⟩ = some op' := get?_eq_some.mpr hop'
    rw [get?_released hop] at hget
    by_cases hid : (⟨i, g⟩ : OpId) = id
    · simp [hid] at hget
    · rw [if_neg hid] at hget
      exact ⟨op', get?_eq_some.mp hget, rfl⟩
  · refine List.eq_nil_iff_forall_not_mem.mpr fun user hmem => ?_
    have hcount := count_usersOf_released h.sound hop hunused v user
    rw [hv, List.count_nil, ite_self] at hcount
    exact absurd hmem (List.count_eq_zero.mp hcount)

end Erasing

end Module

namespace Edit

open Choco.IR.Module

variable {P : Module → Prop} {m : Module} {id : OpId} {op : Op}

/-- The slot still holds the operation that was found unused, unless an erasure of what it nests has
emptied it. -/
theorem keeps_release (hop : m.get? id = some op) (hunused : ∀ v, op.result = some v → m.usersOf v = []) :
    Keeps (Erasing m) (release id) := by
  intro m₁ h
  cases hslot : m₁.slots[id.index]? >>= Slot.op with
  | none =>
    have hrun : release id m₁ = .error (.internal .vanished) m₁ := by simp only [release, hslot]
    rwa [left_error hrun]
  | some op₁ =>
    obtain ⟨⟨g, content⟩, hs, hc⟩ := Option.bind_eq_some_iff.mp hslot
    obtain rfl : content = some op₁ := hc
    obtain ⟨op', hop', hresult⟩ := h.kept _ _ _ hs
    rw [get?_eq_some.mp hop, Option.some.injEq, Slot.mk.injEq, Option.some.injEq] at hop'
    obtain ⟨rfl, rfl⟩ := hop'
    have hget : m₁.get? id = some op₁ := get?_eq_some.mpr hs
    rw [left_ok (release_run hget)]
    exact h.released hget fun v hv => h.unused v (hunused v (hresult ▸ hv))

theorem Keeps.eraseUnused {eraseOp : OpId → Edit Unit} {parent : Option Place}
    (hlists : ∀ place, Keeps P (updateRegion place fun r => { r with ops := r.ops.filter (· ≠ id) }))
    (hparents : ∀ child, Keeps P (setParent none child)) (hnested : ∀ child, Keeps P (eraseOp child))
    (hrelease : Keeps P (release id)) : Keeps P (eraseUnused eraseOp id parent) := by
  have hchild (child : OpId) : Keeps P (eraseChild eraseOp child) :=
    (keeps_query _).bind fun _ => .ite ((hparents child).bind fun _ => hnested child) (keeps_pure _)
  have hlast (ops : List OpId) := (Keeps.forM hchild : Keeps P (ops.forM _)).bind fun _ => hrelease
  cases parent with
  | none => exact (keeps_query _).bind fun _ => hlast _
  | some place => exact (hlists place).bind fun _ => (keeps_query _).bind fun _ => hlast _

/-- A relation between the module before an erasure and the module after it is shown where the
operation is unused. What follows that test starts from the module in which the test was made. -/
theorem keeps_eraseWithin_of {R : Module → Module → Prop}
    (hunused : ∀ {m₀ m : Module} {n : Nat} {id : OpId} {op : Op}, R m₀ m → m.get? id = some op →
      (∀ v, op.result = some v → m.usersOf v = []) → (∀ child m₁, Keeps (R m₁) (eraseWithin n child)) →
      R m₀ ((eraseUnused (eraseWithin n) id op.parent).left m)) (n : Nat) (id : OpId) (m₀ : Module) : Keeps
        (R m₀) (eraseWithin n id) := by
  induction n generalizing id m₀ with
  | zero => exact keeps_throw _
  | succ n ih =>
    intro m h
    cases hop : m.get? id with
    | none =>
      have hrun : Edit.op id m = .error (.internal (.staleHandle id)) m := by
        simp [Edit.op, query, Module.op, hop]
      rwa [eraseWithin, left_bind_error hrun]
    | some op =>
      by_cases hresult : ∀ v, op.result = some v → m.usersOf v = []
      · have hrest := hunused h hop hresult ih
        rwa [left, ← eraseWithin_unused n hop hresult] at hrest
      · push Not at hresult
        obtain ⟨v, hv, hused⟩ := hresult
        rwa [left_error (eraseWithin_used n hop hv hused)]

theorem keeps_eraseWithin (n : Nat) (id : OpId) (m₀ : Module) : Keeps (Erasing m₀) (eraseWithin n id) := by
  refine keeps_eraseWithin_of (fun {m₀ m n id op} h hop hunused hnested => h.trans ?_) n id m₀
  refine Keeps.eraseUnused (fun place => ?_) (fun child => ?_) (hnested · m) (keeps_release hop hunused) m
    (.refl h.sound)
  · exact keeps_updateRegion fun _ h => h.modifyRegion place _
  · exact keeps_updateOp fun _ h => h.updateOp _ _ (fun _ => rfl) fun _ => rfl

theorem keeps_erase (id : OpId) : Keeps Sound (erase id) := by
  intro m h
  have hwithin := keeps_eraseWithin m.depthBound id m m (.refl h)
  rw [left] at hwithin
  rw [left, erase]
  exact hwithin.sound

theorem keeps_setParent (parent : Option Place) (id : OpId) : Keeps Sound (setParent parent id) :=
  keeps_updateOp fun _ h => h.updateOp _ _ (fun _ _ => rfl) fun _ _ => rfl

theorem keeps_setKind (id : OpId) (kind : Kind) : Keeps Sound (setKind id kind) :=
  keeps_updateOp fun _ h => h.updateOp _ _ (fun _ _ => rfl) fun _ _ => rfl

theorem keeps_pushFunction (id : OpId) : Keeps Sound (pushFunction id) :=
  (keeps_setParent _ id).bind fun _ => keeps_update fun _ h => ⟨h.free_nodup, h.mem_free, h.users, h.results⟩

theorem keeps_replaceUses (old new : ValueId) : Keeps Sound (update fun m => m.replaceUses old new) := by
  refine keeps_update fun m h => ?_
  by_cases hne : old = new
  · rwa [replaceUses, if_pos hne]
  · exact h.replaceUses hne

theorem keeps_takeRegion (id : OpId) (index : Nat) : Keeps Sound (takeRegion id index) := by
  refine (keeps_query _).bind fun r => ?_
  refine (keeps_updateRegion fun m h => h.modifyRegion _ _).bind fun _ => ?_
  exact (Keeps.forM (keeps_setParent none)).bind fun _ => keeps_pure r

theorem Keeps.replaceOp {P : Module → Prop} (hparents : ∀ parent id, Keeps P (setParent parent id))
    (hops : ∀ place ops, Keeps P (updateRegion place fun r => { r with ops }))
    (huses : ∀ old new, Keeps P (update fun m => m.replaceUses old new)) (herase : Keeps P (erase id))
    (newOps : List OpId)
    (newResults : List ValueId) : Keeps P (replaceOp id newOps newResults) := by
  refine (keeps_query _).bind fun old => ?_
  cases old.parent with
  | none =>
    simp only
    exact .ite ((keeps_throw _).bind fun _ => keeps_throw _) (keeps_throw _)
  | some parent =>
    simp only
    -- The checks may fail; what follows them is the same either way.
    refine .ite ((keeps_throw _).bind fun _ => ?_) ?_
    all_goals
      refine (keeps_query _).bind fun region => ?_
      refine .ite ((keeps_throw _).bind fun _ => ?_) ?_
    all_goals
      refine (hops parent _).bind fun _ => (Keeps.forM (hparents _)).bind fun _ =>
        (hparents none id).bind fun _ => ?_
      split
      · exact (huses _ _).bind fun _ => herase
      · exact herase

theorem keeps_replaceOp (id : OpId) (newOps : List OpId) (newResults : List ValueId) :
    Keeps Sound (replaceOp id newOps newResults) :=
  Keeps.replaceOp keeps_setParent (fun place _ => keeps_updateRegion fun _ h => h.modifyRegion place _)
    keeps_replaceUses (keeps_erase id) newOps newResults

end Edit

/-- A call on a module. Handles and regions are arbitrary; the list that `emit` and `emitVoid` write
to belongs to the caller. -/
inductive Call where
  | addArg (region : Region) (ty : ValueType)
  | create (kind : Kind) (operands : List ValueId) (regions : List Region)
  | createValue (kind : Kind) (operands : List ValueId) (ty : ValueType) (regions : List Region)
  | emit (block : List OpId) (kind : Kind) (operands : List ValueId) (ty : ValueType)
  | emitVoid (block : List OpId) (kind : Kind) (operands : List ValueId)
  | pushFunction (id : OpId)
  | setKind (id : OpId) (kind : Kind)
  | replaceUses (old new : ValueId)
  | replaceOp (id : OpId) (newOps : List OpId) (newResults : List ValueId)
  | takeRegion (id : OpId) (index : Nat)
  | erase (id : OpId)

namespace Call

open Choco.IR.Module

def action : Call → Edit Unit
  | .addArg region ty => Edit.update fun m => (m.addArg region ty).2.2
  | .create kind operands regions => discard (Edit.make fun m => m.create kind operands regions)
  | .createValue kind operands ty regions => Edit.update fun m => (m.createValue kind operands ty regions).2.2
  | .emit block kind operands ty => discard (Build.collect do
    Build.append block
    Build.emit kind operands ty)
  | .emitVoid block kind operands => discard (Build.collect do
    Build.append block
    Build.emitVoid kind operands)
  | .pushFunction id => Edit.pushFunction id
  | .setKind id kind => Edit.setKind id kind
  | .replaceUses old new => Edit.update fun m => m.replaceUses old new
  | .replaceOp id newOps newResults => Edit.replaceOp id newOps newResults
  | .takeRegion id index => discard (Edit.takeRegion id index)
  | .erase id => Edit.erase id

/-- The module after a sequence of calls on the empty one; a call that fails leaves what it has done. -/
def run (calls : List Call) : Module := calls.foldl (fun m call => call.action.left m) {}

theorem keeps_action (call : Call) : Edit.Keeps Sound call.action := by
  cases call with
  | addArg region ty => exact Edit.keeps_update fun m h => h.addArg region ty
  | create kind operands regions => exact fun m h => h.create kind operands regions
  | createValue kind operands ty regions => exact fun m h => h.createValue kind operands ty regions
  | emit block kind operands ty => exact fun m h => h.createValue kind operands ty []
  | emitVoid block kind operands => exact fun m h => h.create kind operands []
  | pushFunction id => exact Edit.keeps_pushFunction id
  | setKind id kind => exact Edit.keeps_setKind id kind
  | replaceUses old new => exact Edit.keeps_replaceUses old new
  | replaceOp id newOps newResults => exact Edit.keeps_replaceOp id newOps newResults
  | takeRegion id index => exact (Edit.keeps_takeRegion id index).bind fun _ => Edit.keeps_pure _
  | erase id => exact Edit.keeps_erase id

theorem sound_run (calls : List Call) : (run calls).Sound := by
  suffices h : ∀ m : Module, m.Sound → (calls.foldl (fun m call => call.action.left m) m).Sound from
    h {} sound_empty
  induction calls with
  | nil => exact fun m h => h
  | cons call calls ih => exact fun m h => ih _ (keeps_action call m h)

/-- After any calls, each value has as many entries for an operation among its users as it has
occurrences among the operands of that operation if it is live, and none otherwise; and the result of
a live operation is defined by that operation. -/
theorem users_exact (calls : List Call) :
    (∀ v id, ((run calls).usersOf v).count id =
        match (run calls).get? id with
        | some op => op.operands.count v
        | none => 0) ∧
      ∀ id op r, (run calls).get? id = some op → op.result = some r →
        ∃ ty, (run calls).value r = .ok ⟨ty, .result id⟩ := by
  have h := sound_run calls
  constructor
  · intro v id
    rw [h.users v id]
    cases (run calls).get? id <;> rfl
  · intro id op r hop hr
    obtain ⟨ty, hty⟩ := h.results id op r hop hr
    exact ⟨ty, by rw [value, hty]⟩

end Call

end Choco.IR
