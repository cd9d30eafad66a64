import Choco.Proofs.Actions
import Choco.Proofs.Creation

namespace Choco.IR

variable {place : Place}

namespace Module

variable {m : Module}

def modifyRegion (m : Module) : Place → (Region → Region) → Module
  | .top, f => { m with body := f m.body }
  | .nested id index, f => m.updateOp id fun op => { op with regions := op.regions.modify index f }

theorem region_eq_ok_of_ops? {ids : List OpId} (h : m.ops? place = some ids) :
    ∃ r, m.region place = .ok r ∧ r.ops = ids := by
  cases place with
  | top => exact ⟨m.body, rfl, Option.some.inj h⟩
  | nested id index =>
    obtain ⟨op, hop, hr⟩ := Option.bind_eq_some_iff.mp h
    obtain ⟨r, hget, hids⟩ := Option.map_eq_some_iff.mp hr
    exact ⟨r, by simp [region, Module.op, hop, hget], hids⟩

end Module

namespace Edit

open Choco.IR.Module

variable {m : Module} {id : OpId} {op : Op}

theorem op_run (h : m.get? id = some op) : Edit.op id m = .ok op m := by
  simp [Edit.op, query, Module.op, h]

theorem isLive_run (h : m.get? id = some op) : query (fun m => .ok (m.isLive id)) m = .ok true m := by
  simp [query, Module.isLive, h]

theorem updateOp_run (f : Op → Op) (h : m.get? id = some op) :
    updateOp id f m = .ok () (m.updateOp id f) := by
  rw [updateOp, Action.bind_ok (op_run h)]
  rfl

theorem setParent_run (parent : Option Place) (h : m.get? id = some op) :
    setParent parent id m = .ok () (m.setParent parent id) := updateOp_run _ h

theorem updateRegion_run {r : Region} (f : Region → Region) (h : m.region place = .ok r) :
    updateRegion place f m = .ok () (m.modifyRegion place f) := by
  have hq : query (fun m => m.region place) m = .ok r m := by simp [query, h]
  simp only [updateRegion, Action.bind_ok hq]
  cases place <;> rfl

theorem forM_setParent_run (parent : Option Place) (ids : List OpId)
    (h : ∀ id ∈ ids, ∃ op, m.get? id = some op) :
    ids.forM (setParent parent) m = .ok () (ids.foldl (Module.setParent · parent) m) := by
  induction ids generalizing m with
  | nil => rfl
  | cons x xs ih =>
    obtain ⟨op, hop⟩ := h x (by simp)
    change (setParent parent x >>= fun _ => xs.forM (setParent parent)) m = _
    rw [Action.bind_ok (setParent_run parent hop), List.foldl_cons]
    refine ih fun id hid => ?_
    obtain ⟨op', hop'⟩ := h id (by simp [hid])
    rw [Module.setParent, get?_updateOp, hop']
    split
    next he => subst he; simp [hop']
    next => simp

def released (m : Module) (id : OpId) (op : Op) : Module :=
  let users := op.operands.foldl (Module.dropUser id) m.users
  { m with
    slots := m.slots.modify id.index fun slot => ⟨slot.generation + 1, none⟩
    free := id.index :: m.free
    users := match op.result with
      | some v => users.erase v.index
      | none => users }

theorem release_run (h : m.get? id = some op) : release id m = .ok () (released m id op) := by
  have hs : (m.slots[id.index]? >>= Slot.op) = some op := by rw [get?_eq_some.mp h]; rfl
  cases hr : op.result <;> simp only [release, hs, released, hr]

theorem eraseWithin_unused (n : Nat) (hop : m.get? id = some op)
    (hunused : ∀ v, op.result = some v → m.usersOf v = []) :
    eraseWithin (n + 1) id m = eraseUnused (eraseWithin n) id op.parent m := by
  rw [eraseWithin, Action.bind_ok (op_run hop)]
  cases hv : op.result with
  | none => rfl
  | some v =>
    have hq : query (fun m => .ok (m.usersOf v)) m = .ok [] m := by simp [query, hunused v hv]
    exact Action.bind_ok hq

theorem eraseWithin_used (n : Nat) (hop : m.get? id = some op) {v : ValueId} (hv : op.result = some v)
    (hused : m.usersOf v ≠ []) :
    eraseWithin (n + 1) id m = .error (.internal (.stillUsed op.kind v (m.usersOf v).length)) m := by
  rw [eraseWithin, Action.bind_ok (op_run hop), hv]
  have hq : query (fun m => .ok (m.usersOf v)) m = .ok (m.usersOf v) m := rfl
  refine (Action.bind_ok hq).trans ?_
  cases husers : m.usersOf v with
  | nil => exact absurd husers hused
  | cons user users => rfl

theorem eraseWithin_run (n : Nat) (h : m.get? id = some op)
    (hunused : ∀ v, op.result = some v → m.usersOf v = []) (hnested : ∀ r ∈ op.regions, r.ops = [])
    (hparent : ∀ place, op.parent = some place → ∃ r, m.region place = .ok r)
    (hself : ∀ index, op.parent ≠ some (.nested id index)) :
    eraseWithin (n + 1) id m =
      let m' := match op.parent with
        | some place => m.modifyRegion place fun r => { r with ops := r.ops.filter (· ≠ id) }
        | none => m
      .ok () (released m' id op) := by
  have hops : (op.regions.flatMap fun r => r.ops.reverse) = [] := by
    simpa [List.flatMap_eq_nil_iff] using hnested
  -- What is left once the operation is out of its list.
  have hlast (m' : Module) (h' : m'.get? id = some op) :
      eraseUnused (eraseWithin n) id none m' = .ok () (released m' id op) := by
    refine (Action.bind_ok (op_run h')).trans ?_
    rw [hops]
    exact release_run h'
  have hkept (place : Place) (f : Region → Region) (hp : op.parent = some place) :
      (m.modifyRegion place f).get? id = some op := by
    cases place with
    | top => exact h
    | nested owner index =>
      have hne : id ≠ owner := fun he => hself index (he ▸ hp)
      rw [modifyRegion, get?_updateOp, if_neg hne, h]
  rw [eraseWithin_unused n h hunused]
  cases hp : op.parent with
  | none => exact hlast m h
  | some place =>
    obtain ⟨r, hr⟩ := hparent place hp
    exact (Action.bind_ok (updateRegion_run _ hr)).trans (hlast _ (hkept place _ hp))

end Edit

end Choco.IR
