import Choco.IR.Edit
import Mathlib.Data.List.Nodup
import Mathlib.Tactic.Common

namespace Choco.IR

/-- The operation without the lists in its regions. -/
def Op.head (op : Op) : Op := { op with regions := op.regions.map fun r => { r with ops := [] } }

namespace Module

variable {m : Module} {id : OpId}

def head? (m : Module) (id : OpId) : Option Op := (m.get? id).map Op.head

/-- The operations that a place lists. -/
def ops? (m : Module) : Place → Option (List OpId)
  | .top => some m.body.ops
  | .nested id index => (m.get? id).bind fun op => op.regions[index]?.map Region.ops

theorem get?_eq_some {op : Op} :
    m.get? id = some op ↔ m.slots[id.index]? = some ⟨id.generation, some op⟩ := by
  unfold get?
  cases h : m.slots[id.index]? with
  | none => simp
  | some slot =>
    obtain ⟨generation, content⟩ := slot
    by_cases hg : generation = id.generation
    · subst hg; simp
    · simp [hg]

theorem isLive_iff : m.isLive id = true ↔ ∃ op, m.get? id = some op := by
  simp [isLive, Option.isSome_iff_exists]

theorem eq_of_index_eq {a b : OpId} {opA opB : Op} (ha : m.get? a = some opA) (hb : m.get? b = some opB)
    (h : a.index = b.index) : a = b := by
  rw [get?_eq_some] at ha hb
  rw [h, hb] at ha
  obtain ⟨i, g⟩ := a
  obtain ⟨j, k⟩ := b
  simp only [Option.some.injEq, Slot.mk.injEq] at ha
  exact congrArg₂ OpId.mk h ha.1.symm

theorem get?_updateOp (id id' : OpId) (f : Op → Op) :
    (m.updateOp id f).get? id' = if id' = id then (m.get? id).map f else m.get? id' := by
  obtain ⟨i, g⟩ := id
  obtain ⟨i', g'⟩ := id'
  simp only [updateOp, get?, Array.getElem?_modify, OpId.mk.injEq]
  by_cases hi : i' = i
  · subst hi
    cases hs : m.slots[i']? with
    | none => simp
    | some slot =>
      obtain ⟨k, content⟩ := slot
      by_cases hg : g' = g
      · subst hg
        by_cases hk : k = g' <;> simp [hk]
      · by_cases hk : k = g
        · subst hk; simp [hg, Ne.symm hg]
        · by_cases hk' : k = g' <;> simp [hk, hk', hg]
  · simp [hi, Ne.symm hi]

@[simp] theorem values_updateOp (id : OpId) (f : Op → Op) : (m.updateOp id f).values = m.values := rfl

@[simp] theorem users_updateOp (id : OpId) (f : Op → Op) : (m.updateOp id f).users = m.users := rfl

@[simp] theorem usersOf_updateOp (id : OpId) (f : Op → Op) (v : ValueId) :
    (m.updateOp id f).usersOf v = m.usersOf v := rfl

@[simp] theorem free_updateOp (id : OpId) (f : Op → Op) : (m.updateOp id f).free = m.free := rfl

@[simp] theorem body_updateOp (id : OpId) (f : Op → Op) : (m.updateOp id f).body = m.body := rfl

theorem slots_updateOp_none (id : OpId) (f : Op → Op) (i g : Nat) :
    (m.updateOp id f).slots[i]? = some ⟨g, none⟩ ↔ m.slots[i]? = some ⟨g, none⟩ := by
  simp only [updateOp, Array.getElem?_modify]
  by_cases hi : id.index = i
  · subst hi
    cases hs : m.slots[id.index]? with
    | none => simp
    | some slot =>
      obtain ⟨k, content⟩ := slot
      by_cases hk : k = id.generation <;> simp [hk]
  · simp [hi]

/-- What every change of a module keeps: empty slots are exactly the free ones, the map of users has
one entry per operand, and a result points back to its operation. -/
structure Sound (m : Module) : Prop where
  free_nodup : m.free.Nodup
  mem_free : ∀ i, i ∈ m.free ↔ ∃ g, m.slots[i]? = some ⟨g, none⟩
  users : ∀ v id, (m.usersOf v).count id = ((m.get? id).map fun op => op.operands.count v).getD 0
  results : ∀ id op v, m.get? id = some op → op.result = some v →
    ∃ ty, m.values[v.index]? = some ⟨ty, .result id⟩

theorem sound_empty : Sound {} where
  free_nodup := List.nodup_nil
  mem_free := by simp
  users := by simp [usersOf, get?]
  results := by simp [get?]

theorem Sound.updateOp (h : m.Sound) (id : OpId) (f : Op → Op)
    (hoperands : ∀ op, m.get? id = some op → (f op).operands = op.operands)
    (hresult : ∀ op, m.get? id = some op → (f op).result = op.result) : (m.updateOp id f).Sound where
  free_nodup := h.free_nodup
  mem_free i := by
    rw [free_updateOp, h.mem_free]
    exact exists_congr fun g => (slots_updateOp_none id f i g).symm
  users v id' := by
    rw [usersOf_updateOp, h.users, get?_updateOp]
    by_cases hid : id' = id
    · subst hid
      cases hop : m.get? id' with
      | none => simp
      | some op => simp [hoperands op hop]
    · simp [hid]
  results id' op v hop hv := by
    rw [get?_updateOp] at hop
    by_cases hid : id' = id
    · subst hid
      rw [if_pos rfl, Option.map_eq_some_iff] at hop
      obtain ⟨old, hold, rfl⟩ := hop
      rw [hresult old hold] at hv
      exact h.results id' old v hold hv
    · rw [if_neg hid] at hop
      exact h.results id' op v hop hv

end Module

end Choco.IR
