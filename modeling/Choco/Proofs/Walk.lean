import Choco.Proofs.Models
import Mathlib.Data.List.Perm.Subperm

namespace Choco.IR

theorem Code.height_le_length (c : Code) : c.height ≤ c.nodes.length := by
  induction c with
  | nil => exact Nat.le_refl _
  | leaf n rest ih =>
    simp only [height, nodes, List.length_cons]
    omega
  | each n args body rest ihb ih =>
    simp only [height, nodes, List.length_cons, List.length_append]
    omega
  | fork n first second rest iha ihb ih =>
    simp only [height, nodes, List.length_cons, List.length_append]
    omega

namespace Module

variable {m : Module} {c d : Code} {parent : Option Place} {n : Node} {ids : List OpId}

theorem HasNode.regions_each {args : List ValueId} (h : m.HasNode parent n [args])
    (hids : m.ops? (.nested n.id 0) = some ids) :
    m.get? n.id = some (n.op [{ args, ops := ids }] parent) := by
  obtain ⟨regions, hop, hargs⟩ := h.get?
  obtain ⟨⟨args', ops⟩, rfl, rfl⟩ := List.map_eq_singleton_iff.mp hargs
  simp only [ops?, hop, Node.op, Option.bind_some, List.getElem?_cons_zero, Option.map_some,
    Option.some.injEq] at hids
  rw [hop, hids]

theorem HasNode.regions_fork {ids₁ ids₂ : List OpId} (h : m.HasNode parent n [[], []])
    (hids₁ : m.ops? (.nested n.id 0) = some ids₁) (hids₂ : m.ops? (.nested n.id 1) = some ids₂) :
    m.get? n.id = some (n.op [{ ops := ids₁ }, { ops := ids₂ }] parent) := by
  obtain ⟨regions, hop, hargs⟩ := h.get?
  obtain ⟨⟨args₁, ops₁⟩, rest, rfl, rfl, hrest⟩ := List.map_eq_cons_iff.mp hargs
  obtain ⟨⟨args₂, ops₂⟩, rfl, rfl⟩ := List.map_eq_singleton_iff.mp hrest
  simp only [ops?, hop, Node.op, Option.bind_some, List.getElem?_cons_zero, List.getElem?_cons_succ,
    Option.map_some, Option.some.injEq] at hids₁ hids₂
  rw [hop, hids₁, hids₂]

theorem Holds.walkWithin (h : m.Holds parent c) {k : Nat} (hk : c.height < k) :
    m.walkWithin k c.ids = c.allIds := by
  induction c generalizing parent k with
  | nil => cases k <;> rfl
  | leaf n rest ih =>
    cases k with
    | zero => omega
    | succ k =>
      have hrest := ih h.2 hk
      rw [Module.walkWithin] at hrest ⊢
      rw [Code.ids, List.flatMap_cons, hrest, h.1.get?_leaf, Code.allIds_leaf]
      rfl
  | each n args body rest ihb ih =>
    obtain ⟨hnode, hids, hbody, hrest⟩ := h
    rw [Code.height] at hk
    cases k with
    | zero => omega
    | succ k =>
      have hbody := ihb hbody (k := k) (by omega)
      have hrest := ih hrest (k := k + 1) (by omega)
      rw [Module.walkWithin] at hrest ⊢
      rw [Code.ids, List.flatMap_cons, hrest, hnode.regions_each hids, Code.allIds_each]
      simp [Node.op, hbody]
  | fork n first second rest iha ihb ih =>
    obtain ⟨hnode, hids₁, hids₂, hfirst, hsecond, hrest⟩ := h
    rw [Code.height] at hk
    cases k with
    | zero => omega
    | succ k =>
      have hfirst := iha hfirst (k := k) (by omega)
      have hsecond := ihb hsecond (k := k) (by omega)
      have hrest := ih hrest (k := k + 1) (by omega)
      rw [Module.walkWithin] at hrest ⊢
      rw [Code.ids, List.flatMap_cons, hrest, hnode.regions_fork hids₁ hids₂, Code.allIds_fork]
      simp [Node.op, hfirst, hsecond]

theorem length_le_slots (hnodup : ids.Nodup) (hlive : ∀ id ∈ ids, ∃ op, m.get? id = some op) :
    ids.length ≤ m.slots.size := by
  have hinj : (ids.map OpId.index).Nodup := by
    refine hnodup.map_on fun a ha b hb hab => ?_
    obtain ⟨opA, hA⟩ := hlive a ha
    obtain ⟨opB, hB⟩ := hlive b hb
    exact eq_of_index_eq hA hB hab
  have hsub : ids.map OpId.index ⊆ List.range m.slots.size := by
    intro i hi
    obtain ⟨id, hid, rfl⟩ := List.mem_map.mp hi
    obtain ⟨op, hop⟩ := hlive id hid
    exact List.mem_range.mpr (Array.getElem?_eq_some_iff.mp (get?_eq_some.mp hop)).1
  simpa using (hinj.subperm hsub).length_le

theorem Models.height_lt (h : m.Models c d) : c.height < m.depthBound := by
  have hlength : c.allIds.length ≤ m.slots.size :=
    length_le_slots (List.nodup_append.mp h.nodup).1 fun id hid => h.holds.live hid
  have hheight := c.height_le_length
  rw [Code.allIds, List.length_map] at hlength
  rw [depthBound]
  omega

theorem Models.walk (h : m.Models c d) : m.walk = c.allIds := by
  have htop : m.body.ops = c.ids := Option.some.inj h.top
  rw [Module.walk, htop]
  exact h.holds.walkWithin h.height_lt

end Module

end Choco.IR
