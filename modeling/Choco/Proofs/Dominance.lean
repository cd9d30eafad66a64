import Choco.Proofs.Handles
import Choco.Proofs.Verifying

namespace Choco.IR

open Choco.IR.Module

/-- An operation at its position in the region of a place. -/
structure Stop where
  place : Place
  args : List ValueId
  before : List OpId
  id : OpId
  after : List OpId

namespace Module

variable {m : Module} {v : ValueId} {n index : Nat} {region : Region} {id : OpId} {regions : List Region}
  {visible visible' : Visible} {place : Place} {ids : List OpId} {defined : List ValueId}

/-- A way from the module's own list down to an operation, the last stop first. -/
inductive Way (m : Module) : List Stop → Prop
  | top {before after : List OpId} {id : OpId} (hops : m.body.ops = before ++ id :: after) :
      Way m [⟨.top, m.body.args, before, id, after⟩]
  | nested {s : Stop} {way : List Stop} {op : Op} {index : Nat} {region : Region} {before after : List OpId}
      {id : OpId} (hway : Way m (s :: way)) (hop : m.get? s.id = some op)
      (hregion : op.regions[index]? = some region) (hops : region.ops = before ++ id :: after) :
      Way m (⟨.nested s.id index, region.args, before, id, after⟩ :: s :: way)

/-- The value is the result of the operation behind the handle. -/
def IsResult (m : Module) (id : OpId) (v : ValueId) : Prop := ∃ op, m.get? id = some op ∧ op.result = some v

/-- The value comes before the end of the way: it is an argument of a region on the way, or the result
of an operation that stands in front of a stop. -/
def Precedes (m : Module) (way : List Stop) (v : ValueId) : Prop :=
  ∃ s ∈ way, v ∈ s.args ∨ ∃ id ∈ s.before, m.IsResult id v

def Visible.Within (visible : Visible) (P : ValueId → Prop) : Prop :=
  ∀ v : ValueId, visible.contains v.index = true → P v

section Inversion

variable {check : Place → Region → Visible → Except Error Visible} {place : Place} {id : OpId}
  {rest : List OpId} {visible visible' : Visible} {defined : List ValueId}

theorem verifyOperand_eq_ok (h : m.verifyOperand id visible v = .ok ()) :
    visible.contains v.index = true ∨
      ∃ ty user op, m.value v = .ok ⟨ty, .result user⟩ ∧ m.get? user = some op ∧
        m.enclosing? user ≠ m.enclosing? id := by
  unfold verifyOperand at h
  by_cases hvisible : visible.contains v.index = true
  · exact .inl hvisible
  · refine .inr ?_
    simp only [hvisible] at h
    obtain ⟨⟨ty, origin⟩, hvalue, h⟩ := Outcome.bind_eq_ok.mp h
    cases origin with
    | result user =>
      by_cases hlive : m.isLive user = true
      · obtain ⟨op, hop⟩ := isLive_iff.mp hlive
        refine ⟨ty, user, op, hvalue, hop, fun he => ?_⟩
        simp [hlive, he, invalid] at h
      · simp [hlive, invalid] at h
    | arg owner index =>
      cases owner with
      | none => cases h
      | some owner =>
        obtain ⟨op, hop, hfail⟩ := Outcome.bind_eq_ok.mp h
        cases hfail

theorem verifyYield_eq_ok {kind : Kind} {isLast : Bool} (h : verifyYield place kind isLast = .ok ()) :
    kind = .yield → place ≠ .top ∧ isLast = true := by
  rintro rfl
  unfold verifyYield at h
  by_cases hplace : place = .top
  · simp [hplace, invalid] at h
  · cases isLast with
    | true => exact ⟨hplace, rfl⟩
    | false => simp [hplace, invalid] at h

theorem forM_eq_ok {α ε : Type} {g : α → Except ε Unit} {xs : List α} (h : xs.forM g = .ok ()) :
    ∀ x ∈ xs, g x = .ok () := by
  induction xs with
  | nil => nofun
  | cons x xs ih =>
    obtain ⟨⟨⟩, hx, hxs⟩ := Outcome.bind_eq_ok.mp h
    exact List.forall_mem_cons.mpr ⟨hx, ih hxs⟩

theorem verifyOps_cons_eq_ok (h : m.verifyOps check place (id :: rest) visible = .ok (visible', defined)) :
    ∃ op visible₁ defined', m.get? id = some op ∧ op.parent = some place ∧
      (∀ v ∈ op.operands, m.verifyOperand id visible v = .ok ()) ∧
        verifyYield place op.kind rest.isEmpty = .ok () ∧
      verifyRegions check id 0 op.regions visible = .ok visible₁ ∧
      m.verifyOps check place rest (reveal visible₁ op.result.toList) = .ok (visible', defined') ∧
      defined = op.result.toList ++ defined' := by
  rw [verifyOps] at h
  cases hop : m.get? id with
  | none => simp [hop, invalid] at h
  | some op =>
    simp only [hop] at h
    by_cases hparent : op.parent = some place
    · simp only [hparent, ne_eq, not_true_eq_false, if_false] at h
      obtain ⟨⟨⟩, hoperands, h⟩ := Outcome.bind_eq_ok.mp h
      obtain ⟨⟨⟩, hyield, h⟩ := Outcome.bind_eq_ok.mp h
      obtain ⟨visible₁, hregions, h⟩ := Outcome.bind_eq_ok.mp h
      obtain ⟨⟨visible₂, defined'⟩, hrest, h⟩ := Outcome.bind_eq_ok.mp h
      cases h
      exact ⟨op, visible₁, defined', rfl, hparent, forM_eq_ok hoperands, hyield, hregions, hrest, rfl⟩
    · simp [hparent, invalid] at h
      cases h

theorem verifyRegion_eq_ok (h : m.verifyRegion n place region visible = .ok visible') :
    ∃ k visible₁ defined, n = k + 1 ∧
      m.verifyOps (m.verifyRegion k) place region.ops (reveal visible region.args) = .ok (visible₁, defined) ∧
      visible' = hide visible₁ (region.args ++ defined) := by
  cases n with
  | zero => cases h
  | succ k =>
    obtain ⟨⟨visible₁, defined⟩, hops, h⟩ := Outcome.bind_eq_ok.mp h
    cases h
    exact ⟨k, visible₁, defined, rfl, hops, rfl⟩

end Inversion

section Shrinking

variable {check : Place → Region → Visible → Except Error Visible} {P : ValueId → Prop}

def Shrinks (check : Place → Region → Visible → Except Error Visible) : Prop :=
  ∀ (P : ValueId → Prop) place region visible visible', check place region visible = .ok visible' →
    visible.Within P → visible'.Within P

theorem Shrinks.verifyRegions (h : Shrinks check)
    (hrun : Module.verifyRegions check id index regions visible = .ok visible')
    (hvisible : visible.Within P) : visible'.Within P := by
  induction regions generalizing index visible with
  | nil =>
    cases hrun
    exact hvisible
  | cons r rs ih =>
    obtain ⟨visible₁, hr, hrs⟩ := Outcome.bind_eq_ok.mp hrun
    exact ih hrs (h P _ _ _ _ hr hvisible)

theorem Visible.Within.reveal {vs : List ValueId} (h : visible.Within P) (hvs : ∀ v ∈ vs, P v) :
    (reveal visible vs).Within P := fun v hv => (contains_reveal.mp hv).elim (hvs v) (h v)

theorem Shrinks.verifyOps (h : Shrinks check)
    (hrun : m.verifyOps check place ids visible = .ok (visible', defined))
    (hvisible : visible.Within P) : visible'.Within fun v => v ∈ defined ∨ P v := by
  induction ids generalizing visible defined P with
  | nil =>
    cases hrun
    exact fun v hv => .inr (hvisible v hv)
  | cons id rest ih =>
    obtain ⟨op, visible₁, defined', -, -, -, -, hregions, hrest, rfl⟩ := verifyOps_cons_eq_ok hrun
    have hvisible₁ : (reveal visible₁ op.result.toList).Within fun v => v ∈ op.result.toList ∨ P v :=
      Visible.Within.reveal (fun v hv => .inr (h.verifyRegions hregions hvisible v hv)) fun v hv => .inl hv
    intro v hv
    rw [List.mem_append]
    rcases ih hrest hvisible₁ v hv with hv | hv | hv
    · exact .inl (.inr hv)
    · exact .inl (.inl hv)
    · exact .inr hv

theorem shrinks_verifyRegion (m : Module) (n : Nat) : Shrinks (m.verifyRegion n) := by
  induction n with
  | zero => nofun
  | succ n ih =>
    intro P place region visible visible' hrun hvisible
    obtain ⟨k, visible₁, defined, hk, hops, rfl⟩ := verifyRegion_eq_ok hrun
    cases hk
    have hin : (reveal visible region.args).Within fun v => v ∈ region.args ∨ P v :=
      Visible.Within.reveal (fun v hv => .inr (hvisible v hv)) fun v hv => .inl hv
    intro v hv
    rw [contains_hide, List.mem_append, not_or] at hv
    exact ((ih.verifyOps hops hin v hv.2).resolve_left hv.1.2).resolve_left hv.1.1

end Shrinking

section Reaching

variable {s : Stop} {way : List Stop} {before after : List OpId} {P : ValueId → Prop}

/-- The check has come to the stop, with nothing in sight but what precedes it, and has gone on to the end of
the list. -/
def Checked (m : Module) (n : Nat) (s : Stop) (way : List Stop) : Prop :=
  ∃ visible visible' defined, m.verifyOps (m.verifyRegion n) s.place (s.id :: s.after) visible =
    .ok (visible', defined) ∧ visible.Within (m.Precedes (s :: way))

theorem verifyOps_reaches
    (hrun : m.verifyOps (m.verifyRegion n) place (before ++ id :: after) visible = .ok (visible', defined))
    (hvisible : visible.Within P) :
    ∃ visible₁ defined₁, m.verifyOps (m.verifyRegion n) place (id :: after) visible₁ = .ok
      (visible', defined₁) ∧ visible₁.Within fun v => P v ∨ ∃ id ∈ before, m.IsResult id v := by
  induction before generalizing visible defined P with
  | nil => exact ⟨visible, defined, hrun, fun v hv => .inl (hvisible v hv)⟩
  | cons x before ih =>
    obtain ⟨op, visible₁, defined', hop, -, -, -, hregions, hrest, rfl⟩ := verifyOps_cons_eq_ok hrun
    have hvisible₁ : (reveal visible₁ op.result.toList).Within fun v => P v ∨ m.IsResult x v := by
      refine Visible.Within.reveal (fun v hv => .inl ?_) fun v hv => .inr ⟨op, hop, Option.mem_toList.mp hv⟩
      exact (shrinks_verifyRegion m n).verifyRegions hregions hvisible v hv
    obtain ⟨visible₂, defined₂, hreach, hwithin⟩ := ih hrest hvisible₁
    refine ⟨visible₂, defined₂, hreach, fun v hv => ?_⟩
    rcases hwithin v hv with (hv | hv) | ⟨y, hy, hv⟩
    · exact .inl hv
    · exact .inr ⟨x, List.mem_cons_self, hv⟩
    · exact .inr ⟨y, List.mem_cons_of_mem _ hy, hv⟩

theorem checked_of_verifyRegion (hrun : m.verifyRegion n place region visible = .ok visible')
    (hops : region.ops = before ++ id :: after) (hvisible : visible.Within (m.Precedes way)) :
    ∃ k, n = k + 1 ∧ m.Checked k ⟨place, region.args, before, id, after⟩ way := by
  obtain ⟨k, visible₁, defined, rfl, hlist, -⟩ := verifyRegion_eq_ok hrun
  rw [hops] at hlist
  have hin : (reveal visible region.args).Within fun v => m.Precedes way v ∨ v ∈ region.args :=
    Visible.Within.reveal (fun v hv => .inl (hvisible v hv)) fun v hv => .inr hv
  obtain ⟨visible₂, defined₂, hreach, hwithin⟩ := verifyOps_reaches hlist hin
  refine ⟨k, rfl, visible₂, visible₁, defined₂, hreach, fun v hv => ?_⟩
  rcases hwithin v hv with (⟨s, hs, hv⟩ | hv) | hv
  · exact ⟨s, List.mem_cons_of_mem _ hs, hv⟩
  · exact ⟨_, List.mem_cons_self, .inl hv⟩
  · exact ⟨_, List.mem_cons_self, .inr hv⟩

theorem verifyRegions_reaches {start : Nat}
    (hrun : verifyRegions (m.verifyRegion n) id start regions visible = .ok visible')
    (hregion : regions[index]? = some region) (hvisible : visible.Within P) :
    ∃ visible₁ visible₂, m.verifyRegion n (.nested id (start + index)) region visible₁ = .ok visible₂ ∧
      visible₁.Within P := by
  induction regions generalizing start index visible with
  | nil => cases hregion
  | cons r rs ih =>
    obtain ⟨visible₁, hr, hrs⟩ := Outcome.bind_eq_ok.mp hrun
    cases index with
    | zero =>
      cases hregion
      exact ⟨visible, visible₁, hr, hvisible⟩
    | succ index =>
      have hrest := ih hrs hregion ((shrinks_verifyRegion m n) P _ _ _ _ hr hvisible)
      rwa [Nat.add_assoc, Nat.add_comm 1] at hrest

theorem Way.checked (h : m.verify = .ok ()) {way : List Stop} (hway : m.Way way) :
    ∀ s rest, way = s :: rest → ∃ n, n + way.length = m.depthBound ∧ m.Checked n s rest := by
  obtain ⟨visible, hbody, -⟩ := Outcome.bind_eq_ok.mp h
  induction hway with
  | top hops =>
    rintro s rest ⟨rfl, rfl⟩
    have hnothing : Visible.Within {} (m.Precedes []) := fun v hv => by simp at hv
    obtain ⟨k, hk, hchecked⟩ := checked_of_verifyRegion hbody hops hnothing
    exact ⟨k, hk.symm, hchecked⟩
  | @nested s way op index region before after id _ hop hregion hops ih =>
    rintro s' rest ⟨rfl, rfl⟩
    obtain ⟨n, hn, visible₁, visible₂, defined, hrun, hwithin⟩ := ih s way rfl
    obtain ⟨op', visible₃, defined', hop', -, -, -, hregions, -⟩ := verifyOps_cons_eq_ok hrun
    rw [hop] at hop'
    cases hop'
    obtain ⟨visible₄, visible₅, hnested, hwithin'⟩ := verifyRegions_reaches hregions hregion hwithin
    rw [Nat.zero_add] at hnested
    obtain ⟨k, rfl, hchecked⟩ := checked_of_verifyRegion hnested hops hwithin'
    exact ⟨k, by rw [← hn, List.length_cons, List.length_cons]; omega, hchecked⟩

theorem Way.found (h : m.verify = .ok ()) (hway : m.Way (s :: way)) :
    ∃ op, m.get? s.id = some op ∧ op.parent = some s.place ∧
      (op.kind = .yield → s.place ≠ .top ∧ s.after = []) ∧
      ∀ v ∈ op.operands, m.Precedes (s :: way) v ∨
        ∃ ty id op', m.value v = .ok ⟨ty, .result id⟩ ∧ m.get? id = some op' ∧
          m.enclosing? id ≠ m.enclosing? s.id := by
  obtain ⟨n, -, visible, visible', defined, hrun, hwithin⟩ := hway.checked h s way rfl
  obtain ⟨op, -, -, hop, hparent, hoperands, hyield, -⟩ := verifyOps_cons_eq_ok hrun
  refine ⟨op, hop, hparent, fun hkind => ?_, fun v hv => ?_⟩
  · obtain ⟨hplace, hlast⟩ := verifyYield_eq_ok hyield hkind
    exact ⟨hplace, List.isEmpty_iff.mp hlast⟩
  · exact (verifyOperand_eq_ok (hoperands v hv)).imp_left (hwithin v)

theorem Way.enclosing? (h : m.verify = .ok ()) (hway : m.Way (s :: way)) :
    m.enclosing? s.id = (s :: way).getLast?.map Stop.id := by
  obtain ⟨n, hn, -⟩ := hway.checked h s way rfl
  have hback {way : List Stop} (hway : m.Way way) :
      ∀ s rest, way = s :: rest → ∀ k, way.length ≤ k →
        m.enclosingWithin k s.id = way.getLast?.map Stop.id := by
    induction hway with
    | top hops =>
      rintro s rest ⟨rfl, rfl⟩ k hk
      obtain ⟨op, hop, hparent, -⟩ := Way.found h (.top hops)
      cases k with
      | zero => cases hk
      | succ k => simp [enclosingWithin, hop, hparent]
    | @nested s way op index region before after id hway hop hregion hops ih =>
      rintro s' rest ⟨rfl, rfl⟩ k hk
      obtain ⟨op', hop', hparent, -⟩ := Way.found h (hway.nested hop hregion hops)
      rw [List.getLast?_cons_cons, List.getLast?_eq_some_getLast (List.cons_ne_nil s way)] at *
      exact enclosingWithin_nested hop' hparent (ih s way rfl) hk
  exact hback hway s way rfl _ (by rw [← depthBound, ← hn]; exact Nat.le_add_left _ _)

end Reaching

section Users

theorem count_of_usersWithin {a b : Std.TreeMap Nat (List OpId)} (h : usersWithin a b = true)
    (hv : a[v.index]? = some ids) (id : OpId) : ids.count id = (b.getD v.index []).count id := by
  have hmem : (v.index, ids) ∈ a.toList := Std.TreeMap.mem_toList_iff_getElem?_eq_some.mpr hv
  exact (List.isPerm_iff.mp (List.all_eq_true.mp h _ hmem)).count_eq id

theorem usersOf_of_usersAgree (h : m.usersAgree = true) (v : ValueId) (id : OpId) :
    (m.usersOf v).count id = m.useCount v id := by
  rw [usersAgree, Bool.and_eq_true] at h
  rw [← count_expectedUsers, usersOf]
  cases hv : m.users[v.index]? with
  | some ids =>
    rw [Std.TreeMap.getD_eq_getD_getElem?, hv]
    exact count_of_usersWithin h.1 hv id
  | none =>
    cases hv' : m.expectedUsers[v.index]? with
    | some ids =>
      have hexpected : m.expectedUsers.getD v.index [] = ids := by
        simp [Std.TreeMap.getD_eq_getD_getElem?, hv']
      rw [hexpected, count_of_usersWithin h.2 hv' id]
    | none => simp [Std.TreeMap.getD_eq_getD_getElem?, hv, hv']

end Users

/-- The value is the result of a live operation that lies in another function than the user, or in none. -/
def Outside (m : Module) (user : OpId) (v : ValueId) : Prop :=
  ∃ ty id op, m.value v = .ok ⟨ty, .result id⟩ ∧ m.get? id = some op ∧
    (∀ calls, m = Call.run calls → op.result = some v) ∧ m.enclosing? id ≠ m.enclosing? user

/-- Every operation that a way leads to is live and knows its place, what it uses comes before it or
lies in another function, and the users of each value are its uses in live operations. -/
structure Ordered (m : Module) : Prop where
  live : ∀ s way, m.Way (s :: way) → ∃ op, m.get? s.id = some op ∧ op.parent = some s.place
  function : ∀ s way, m.Way (s :: way) → m.enclosing? s.id = (s :: way).getLast?.map Stop.id
  operands : ∀ s way op v, m.Way (s :: way) → m.get? s.id = some op → v ∈ op.operands →
    m.Precedes (s :: way) v ∨ m.Outside s.id v
  yields : ∀ s way op, m.Way (s :: way) → m.get? s.id = some op → op.kind = .yield → s.place ≠ .top ∧
    s.after = []
  users : ∀ v id, (m.usersOf v).count id = match m.get? id with
    | some op => op.operands.count v
    | none => 0

theorem ordered_of_verify (h : m.verify = .ok ()) : m.Ordered where
  live s way hway := by
    obtain ⟨op, hop, hparent, -⟩ := hway.found h
    exact ⟨op, hop, hparent⟩
  function s way hway := hway.enclosing? h
  operands s way op v hway hop hv := by
    obtain ⟨op', hop', -, -, hoperands⟩ := hway.found h
    rw [hop] at hop'
    cases hop'
    refine (hoperands v hv).imp_right fun ⟨ty, id, op', hvalue, hop', hne⟩ =>
      ⟨ty, id, op', hvalue, hop', ?_, hne⟩
    rintro calls rfl
    exact Call.result_of_origin (value_eq_ok.mp hvalue) hop'
  yields s way op hway hop hkind := by
    obtain ⟨op', hop', -, hyield, -⟩ := hway.found h
    rw [hop] at hop'
    cases hop'
    exact hyield hkind
  users v id := by
    obtain ⟨visible, -, hagree⟩ := Outcome.bind_eq_ok.mp h
    have hagree : m.usersAgree = true := by
      cases hcase : m.usersAgree with
      | true => rfl
      | false => simp [hcase, invalid] at hagree
    rw [usersOf_of_usersAgree hagree, useCount]
    cases m.get? id <;> rfl

/-- Two functions: the first has a variable and hands an argument on to a nested region, the second
reads the variable of the first from inside a condition. -/
def sharedVariable : List Call :=
  let int : ValueType := .plain .int
  [.addArg {} int,
    .createValue (.alloc .int) [] (.location .int) [],
    .create .store [⟨1⟩, ⟨0⟩] [],
    .create (.funcDef "first" .none) [] [⟨[⟨0⟩], [⟨0, 0⟩, ⟨1, 0⟩]⟩],
    .pushFunction ⟨2, 0⟩,
    .createValue (.literal (.bool true)) [] (.plain .bool) [],
    .createValue .load [⟨1⟩] int [],
    .create .yield [⟨3⟩] [],
    .createValue (.literal (.int 0)) [] int [],
    .create .yield [⟨4⟩] [],
    .createValue .ifExpr [⟨2⟩] int [⟨[], [⟨4, 0⟩, ⟨5, 0⟩]⟩, ⟨[], [⟨6, 0⟩, ⟨7, 0⟩]⟩],
    .create .ret [⟨5⟩] [],
    .create (.funcDef "second" .int) [] [⟨[], [⟨3, 0⟩, ⟨8, 0⟩, ⟨9, 0⟩]⟩],
    .pushFunction ⟨10, 0⟩]

theorem ordered_sharedVariable :
    (Call.run sharedVariable).verify = .ok () ∧ (Call.run sharedVariable).Ordered := by
  have hverify : (Call.run sharedVariable).verify = .ok () := by decide +kernel
  exact ⟨hverify, ordered_of_verify hverify⟩

end Module

end Choco.IR
