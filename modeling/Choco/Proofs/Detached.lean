import Choco.Proofs.Dominance

namespace Choco.IR.Module

variable {m : Module} {id : OpId} {op : Op} {s : Stop} {way : List Stop}

section Walking

variable {n : Nat} {ids : List OpId}

theorem mem_walkWithin_succ :
    id ∈ m.walkWithin (n + 1) ids ↔ ∃ x ∈ ids, ∃ op, m.get? x = some op ∧
      (id = x ∨ ∃ r ∈ op.regions, id ∈ m.walkWithin n r.ops) := by
  rw [walkWithin, List.mem_flatMap]
  refine exists_congr fun x => and_congr_right fun _ => ?_
  cases m.get? x with
  | none => simp
  | some op => simp

theorem walkWithin_mono {k : Nat} (hle : n ≤ k) (h : id ∈ m.walkWithin n ids) : id ∈ m.walkWithin k ids := by
  induction n generalizing ids k with
  | zero => cases h
  | succ n ih =>
    obtain ⟨k, rfl⟩ := Nat.exists_eq_succ_of_ne_zero (Nat.ne_of_gt (Nat.lt_of_lt_of_le n.succ_pos hle))
    obtain ⟨x, hx, op, hop, hid⟩ := mem_walkWithin_succ.mp h
    refine mem_walkWithin_succ.mpr ⟨x, hx, op, hop, hid.imp_right fun ⟨r, hr, hid⟩ => ⟨r, hr, ?_⟩⟩
    exact ih (Nat.le_of_succ_le_succ hle) hid

theorem walkWithin_nested (h : id ∈ m.walkWithin n ids) (hop : m.get? id = some op) {r : Region}
    (hr : r ∈ op.regions) {x : OpId} (hx : x ∈ r.ops) (hlive : ∃ op', m.get? x = some op') :
    x ∈ m.walkWithin (n + 1) ids := by
  obtain ⟨op', hop'⟩ := hlive
  induction n generalizing ids with
  | zero => cases h
  | succ n ih =>
    obtain ⟨y, hy, opY, hopY, hid⟩ := mem_walkWithin_succ.mp h
    refine mem_walkWithin_succ.mpr ⟨y, hy, opY, hopY, .inr ?_⟩
    rcases hid with rfl | ⟨r', hr', hid⟩
    · rw [hop] at hopY
      cases hopY
      exact ⟨r, hr, mem_walkWithin_succ.mpr ⟨x, hx, op', hop', .inl rfl⟩⟩
    · exact ⟨r', hr', ih hid⟩

theorem exists_way_of_mem_walkWithin (hids : ∀ x ∈ ids, ∃ s way, m.Way (s :: way) ∧ s.id = x)
    (h : id ∈ m.walkWithin n ids) :
    ∃ s way, m.Way (s :: way) ∧ s.id = id := by
  induction n generalizing ids with
  | zero => cases h
  | succ n ih =>
    obtain ⟨x, hx, op, hop, rfl | ⟨r, hr, hid⟩⟩ := mem_walkWithin_succ.mp h
    · exact hids id hx
    · obtain ⟨s, way, hway, rfl⟩ := hids x hx
      obtain ⟨index, hindex⟩ := List.getElem?_of_mem hr
      refine ih (fun y hy => ?_) hid
      obtain ⟨before, after, hops⟩ := List.append_of_mem hy
      exact ⟨_, _, hway.nested hop hindex hops, rfl⟩

theorem exists_way (h : id ∈ m.walk) : ∃ s way, m.Way (s :: way) ∧ s.id = id := by
  refine exists_way_of_mem_walkWithin (fun x hx => ?_) h
  obtain ⟨before, after, hops⟩ := List.append_of_mem hx
  exact ⟨_, _, .top hops, rfl⟩

theorem Way.mem_walk (h : m.verify = .ok ()) (hway : m.Way (s :: way)) : s.id ∈ m.walk := by
  have hwithin {way : List Stop} (hway : m.Way way) :
      ∀ s rest, way = s :: rest → s.id ∈ m.walkWithin way.length m.body.ops := by
    induction hway with
    | top hops =>
      rintro s rest ⟨rfl, rfl⟩
      obtain ⟨op, hop, -⟩ := Way.found h (.top hops)
      exact mem_walkWithin_succ.mpr ⟨_, by simp [hops], op, hop, .inl rfl⟩
    | nested hway hop hregion hops ih =>
      rintro s' rest ⟨rfl, rfl⟩
      obtain ⟨op', hop', -⟩ := Way.found h (hway.nested hop hregion hops)
      exact walkWithin_nested (ih _ _ rfl) hop (List.mem_of_getElem? hregion) (by simp [hops]) ⟨op', hop'⟩
  obtain ⟨n, hn, -⟩ := hway.checked h s way rfl
  exact walkWithin_mono (hn ▸ Nat.le_add_left _ _) (hwithin hway s way rfl)

end Walking

section Operands

theorem Way.stop (hway : m.Way way) (hs : s ∈ way) : ∃ rest, m.Way (s :: rest) := by
  induction hway with
  | top hops =>
    cases List.mem_singleton.mp hs
    exact ⟨_, .top hops⟩
  | nested hway hop hregion hops ih =>
    rcases List.mem_cons.mp hs with rfl | hs
    · exact ⟨_, hway.nested hop hregion hops⟩
    · exact ih hs

theorem Way.before (hway : m.Way (s :: way)) (hid : id ∈ s.before) :
    ∃ s', m.Way (s' :: way) ∧ s'.id = id := by
  cases hway with
  | top hops =>
    obtain ⟨before, after, rfl⟩ := List.append_of_mem hid
    rw [List.append_assoc, List.cons_append] at hops
    exact ⟨_, .top hops, rfl⟩
  | nested hway hop hregion hops =>
    obtain ⟨before, after, rfl⟩ := List.append_of_mem hid
    rw [List.append_assoc, List.cons_append] at hops
    exact ⟨_, hway.nested hop hregion hops, rfl⟩

/-- The value is an argument of a region of the module or the result of one of its operations. -/
def Computed (m : Module) (v : ValueId) : Prop :=
  (∃ owner ∈ m.walk, ∃ op, m.get? owner = some op ∧ ∃ r ∈ op.regions, v ∈ r.args) ∨
    ∃ id ∈ m.walk, m.IsResult id v

theorem Precedes.computed {v : ValueId} (h : m.verify = .ok ()) (hargs : m.body.args = []) (hway : m.Way way)
    (hv : m.Precedes way v) : m.Computed v := by
  obtain ⟨s, hs, hv⟩ := hv
  obtain ⟨rest, hway⟩ := hway.stop hs
  rcases hv with hv | ⟨id, hid, hv⟩
  · cases hway with
    | top hops =>
      rw [hargs] at hv
      cases hv
    | nested hway hop hregion hops =>
      exact .inl ⟨_, hway.mem_walk h, _, hop, _, List.mem_of_getElem? hregion, hv⟩
  · obtain ⟨s', hway', rfl⟩ := hway.before hid
    exact .inr ⟨_, hway'.mem_walk h, hv⟩

/-- What an operation of a checked module uses is computed by the module, unless it is the result of an
operation that is live but not part of the module and does not lie in the user's function. -/
theorem operands_computed (calls : List Call) (h : (Call.run calls).verify = .ok ()) :
    ∀ user ∈ (Call.run calls).walk, ∀ op, (Call.run calls).get? user = some op → ∀ v ∈ op.operands,
      (Call.run calls).Computed v ∨
        ∃ id ∉ (Call.run calls).walk, (Call.run calls).IsResult id v ∧
          (Call.run calls).enclosing? id ≠ (Call.run calls).enclosing? user := by
  intro user huser op hop v hv
  obtain ⟨s, way, hway, rfl⟩ := exists_way huser
  obtain ⟨op', hop', -, -, hoperands⟩ := hway.found h
  rw [hop] at hop'
  cases hop'
  rcases hoperands v hv with hv | ⟨ty, id, opV, hvalue, hopV, hne⟩
  · exact .inl (hv.computed h (Call.args_run calls) hway)
  · have hresult : (Call.run calls).IsResult id v :=
      ⟨opV, hopV, Call.result_of_origin (value_eq_ok.mp hvalue) hopV⟩
    by_cases hwalk : id ∈ (Call.run calls).walk
    · exact .inl (.inr ⟨id, hwalk, hresult⟩)
    · exact .inr ⟨id, hwalk, hresult, hne⟩

theorem operands_sharedVariable :
    (Call.run sharedVariable).verify = .ok () ∧
      ∀ user ∈ (Call.run sharedVariable).walk, ∀ op, (Call.run sharedVariable).get? user = some op →
        ∀ v ∈ op.operands, (Call.run sharedVariable).Computed v ∨
          ∃ id ∉ (Call.run sharedVariable).walk, (Call.run sharedVariable).IsResult id v ∧
            (Call.run sharedVariable).enclosing? id ≠ (Call.run sharedVariable).enclosing? user := by
  have hverify : (Call.run sharedVariable).verify = .ok () := by decide +kernel
  exact ⟨hverify, operands_computed sharedVariable hverify⟩

/-- A function that returns the result of a literal that is in no list. -/
def looseLiteral : List Call :=
  [.createValue (.literal (.int 1)) [] (.plain .int) [],
    .emitVoid [] .ret [⟨0⟩],
    .create (.funcDef "f" .int) [] [⟨[], [⟨1, 0⟩]⟩],
    .pushFunction ⟨2, 0⟩]

/-- The module passes the check, and yet nothing in it computes what the function returns. -/
theorem looseLiteral_not_computed :
    (Call.run looseLiteral).verify = .ok () ∧
      ∃ user ∈ (Call.run looseLiteral).walk, ∃ op, (Call.run looseLiteral).get? user = some op ∧
        ∃ v ∈ op.operands, ¬ (Call.run looseLiteral).Computed v := by
  have hwalk : (Call.run looseLiteral).walk = [⟨2, 0⟩, ⟨1, 0⟩] := by decide +kernel
  have hfunction : (Call.run looseLiteral).get? ⟨2, 0⟩ =
      some ⟨.funcDef "f" .int, [], none, [⟨[], [⟨1, 0⟩]⟩], some .top⟩ := by
    decide +kernel
  have hreturn : (Call.run looseLiteral).get? ⟨1, 0⟩ =
      some ⟨.ret, [⟨0⟩], none, [], some (.nested ⟨2, 0⟩ 0)⟩ := by
    decide +kernel
  refine ⟨by decide +kernel, ⟨1, 0⟩, by simp [hwalk], _, hreturn, ⟨0⟩, List.mem_singleton_self _, ?_⟩
  simp [Computed, IsResult, hwalk, hfunction, hreturn]

end Operands

end Choco.IR.Module
