import Choco.Asm.Frame
import Choco.Proofs.Actions
import Mathlib.Tactic.Common

namespace Choco.Asm.Frame

open IR (Module OpId ValueId)

variable {i : Nat} {f : Frame} {m : Module} {func id : OpId} {op : IR.Op}

/-- Every value and every allocated location has a word of its own, and the return address has the
last one. -/
structure LaidOut (f : Frame) (words : Nat) : Prop where
  small : 4 * (words + 1) < 2147483648
  size : f.size = wordOffset (words + 1)
  slot : ∀ v o, f.slot? v = some o → ∃ i < words, o = wordOffset i
  alloc : ∀ id o, f.alloc? id = some o → ∃ i < words, o = wordOffset i
  slot_inj : ∀ v w o, f.slot? v = some o → f.slot? w = some o → v = w
  alloc_inj : ∀ id id' o, f.alloc? id = some o → f.alloc? id' = some o → id = id'
  apart : ∀ v id o, f.slot? v = some o → f.alloc? id ≠ some o

theorem toNat_ofNat {n : Nat} (h : n < 2147483648) : (Int32.ofNat n).toUInt32.toNat = n := by
  simp
  omega

theorem toNat_wordOffset (h : 4 * i < 2147483648) : (wordOffset i).toUInt32.toNat = 4 * i :=
  toNat_ofNat h

theorem wordOffset_inj {k : Nat} (hi : 4 * i < 2147483648) (hk : 4 * k < 2147483648)
    (h : wordOffset i = wordOffset k) : i = k := by
  have := congrArg (fun w : Int32 => w.toUInt32.toNat) h
  simp only [toNat_wordOffset hi, toNat_wordOffset hk] at this
  omega

theorem toInt_wordOffset (h : 4 * i < 2147483648) : (wordOffset i).toInt = 4 * i := by
  rw [wordOffset, Int32.toInt_ofNat_of_lt h]
  exact Int.natCast_mul 4 i

theorem LaidOut.raOffset_eq {words : Nat} (h : f.LaidOut words) : f.raOffset = wordOffset words := by
  rw [raOffset, h.size, wordOffset, Nat.mul_succ, Int32.ofNat_add]
  exact Int32.add_sub_cancel _ _

section Assign

variable {α : Type} [BEq α] [LawfulBEq α] {start : Nat} {items : List α} {a b : α} {o : Int32}

theorem mem_of_lookup {pairs : List (α × Int32)} (h : pairs.lookup a = some o) : (a, o) ∈ pairs := by
  induction pairs with
  | nil => cases h
  | cons p pairs ih =>
    rw [List.lookup_cons] at h
    split at h
    next heq =>
      cases h
      rw [beq_iff_eq] at heq
      exact heq ▸ List.mem_cons_self
    next => exact List.mem_cons_of_mem _ (ih h)

theorem lookup_assign (h : (assign start items).lookup a = some o) :
    ∃ i, items[i]? = some a ∧ o = wordOffset (start + i) := by
  have hmem := mem_of_lookup h
  simp only [assign, List.mem_reverse, List.mem_map, Prod.mk.injEq, Prod.exists] at hmem
  obtain ⟨x, k, hk, rfl, rfl⟩ := hmem
  obtain ⟨i, hi⟩ := List.mem_iff_getElem?.mp hk
  rw [List.getElem?_zipIdx] at hi
  obtain ⟨y, hy, heq⟩ := Option.map_eq_some_iff.mp hi
  cases heq
  exact ⟨i, hy, rfl⟩

theorem lookup_assign_isSome (h : a ∈ items) : ∃ o, (assign start items).lookup a = some o := by
  obtain ⟨i, hi⟩ := List.mem_iff_getElem?.mp h
  have hmem : (a, wordOffset (start + i)) ∈ assign start items := by
    rw [assign, List.mem_reverse, List.mem_map]
    exact ⟨(a, start + i), List.mem_iff_getElem?.mpr ⟨i, by rw [List.getElem?_zipIdx, hi]; rfl⟩, rfl⟩
  apply Option.isSome_iff_exists.mp
  rw [List.lookup_isSome_iff]
  exact ⟨_, hmem, beq_self_eq_true a⟩

end Assign

theorem ofLists_laidOut {values : List ValueId} {allocs : List OpId} (h : ofLists values allocs = .ok f) :
    f.LaidOut (values.length + allocs.length) ∧ (∀ v ∈ values, ∃ o, f.slot? v = some o) ∧
      ∀ id ∈ allocs, ∃ o, f.alloc? id = some o := by
  unfold ofLists Word.ofNat? at h
  by_cases hsmall : 4 * (values.length + allocs.length + 1) < 2147483648
  · rw [if_pos hsmall] at h
    cases h
    have hslot : ∀ v o, (assign 0 values).lookup v = some o →
        ∃ i < values.length, values[i]? = some v ∧ o = wordOffset i := by
      intro v o hv
      obtain ⟨i, hi, rfl⟩ := lookup_assign hv
      exact ⟨i, (List.getElem?_eq_some_iff.mp hi).1, hi, by rw [Nat.zero_add]⟩
    have halloc : ∀ id o, (assign values.length allocs).lookup id = some o →
        ∃ i < allocs.length, allocs[i]? = some id ∧ o = wordOffset (values.length + i) := by
      intro id o hid
      obtain ⟨i, hi, rfl⟩ := lookup_assign hid
      exact ⟨i, (List.getElem?_eq_some_iff.mp hi).1, hi, rfl⟩
    refine ⟨⟨hsmall, rfl, ?_, ?_, ?_, ?_, ?_⟩, fun v hv => lookup_assign_isSome hv,
      fun id hid => lookup_assign_isSome hid⟩
    · intro v o hv
      obtain ⟨i, hi, -, rfl⟩ := hslot v o hv
      exact ⟨i, by omega, rfl⟩
    · intro id o hid
      obtain ⟨i, hi, -, rfl⟩ := halloc id o hid
      exact ⟨values.length + i, by omega, rfl⟩
    · intro v w o hv hw
      obtain ⟨i, hi, hiv, rfl⟩ := hslot v o hv
      obtain ⟨k, hk, hkw, heq⟩ := hslot w _ hw
      cases wordOffset_inj (by omega) (by omega) heq
      exact Option.some.inj (hiv.symm.trans hkw)
    · intro id id' o hid hid'
      obtain ⟨i, hi, hiv, rfl⟩ := halloc id o hid
      obtain ⟨k, hk, hkw, heq⟩ := halloc id' _ hid'
      have hik : i = k := by have := wordOffset_inj (by omega) (by omega) heq; omega
      exact Option.some.inj (hiv.symm.trans (hik ▸ hkw))
    · intro v id o hv hid
      obtain ⟨i, hi, -, rfl⟩ := hslot v o hv
      obtain ⟨k, hk, -, heq⟩ := halloc id _ hid
      have := wordOffset_inj (by omega) (by omega) heq
      omega
  · rw [if_neg hsmall] at h
    cases h

theorem layout_eq_ok (h : layout m func = .ok f) :
    ∃ op body ops, m.op func = .ok op ∧ op.regions.head? = some body ∧ body.ops.mapM m.op = .ok ops ∧
      ofLists (body.args ++ ops.filterMap (·.result))
        (((body.ops.zip ops).filter fun p => p.2.kind = .flat .alloc).map (·.1)) = .ok f := by
  obtain ⟨op, hop, h⟩ := Outcome.bind_eq_ok.mp h
  cases hbody : op.regions.head? with
  | none => rw [hbody] at h; cases h
  | some body =>
    rw [hbody] at h
    obtain ⟨ops, hops, h⟩ := Outcome.bind_eq_ok.mp h
    exact ⟨op, body, ops, hop, hbody, hops, h⟩

theorem layout_laidOut (h : layout m func = .ok f) : ∃ words, f.LaidOut words := by
  obtain ⟨_, _, _, -, -, -, h⟩ := layout_eq_ok h
  exact ⟨_, (ofLists_laidOut h).1⟩

theorem mem_zip_of_op {ids : List OpId} {ops : List IR.Op} (h : ids.mapM m.op = .ok ops) (hid : id ∈ ids)
    (hop : m.op id = .ok op) :
    (id, op) ∈ ids.zip ops := by
  replace h := Outcome.mapM_eq_ok.mp h
  induction h with
  | nil => cases hid
  | cons hfirst _ ih =>
    obtain rfl | hid := List.mem_cons.mp hid
    · cases hop.symm.trans hfirst
      exact List.mem_cons_self
    · exact List.mem_cons_of_mem _ (ih hid)

theorem slot?_result {o : IR.Op} {body : IR.Region} {v : ValueId} (h : layout m func = .ok f)
    (hop : m.op func = .ok op) (hbody : op.regions.head? = some body) (hid : id ∈ body.ops)
    (ho : m.op id = .ok o) (hv : o.result = some v) :
    ∃ offset, f.slot? v = some offset := by
  obtain ⟨op', body', ops, hop', hbody', hops, h⟩ := layout_eq_ok h
  cases hop.symm.trans hop'
  cases hbody.symm.trans hbody'
  have hmem := (List.of_mem_zip (mem_zip_of_op hops hid ho)).2
  exact (ofLists_laidOut h).2.1 v (List.mem_append_right _ (List.mem_filterMap.mpr ⟨o, hmem, hv⟩))

end Choco.Asm.Frame
