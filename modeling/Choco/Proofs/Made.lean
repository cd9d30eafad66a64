import Choco.Proofs.Change

namespace Choco.IR

def ValueInfo.owned (owner : OpId) (info : ValueInfo) : ValueInfo :=
  match info.origin with
  | .arg _ index => { info with origin := .arg (some owner) index }
  | .result _ => info

namespace Module

variable {m m' : Module} {id : OpId} {op : Op}

theorem getElem?_foldl_setOwner (owner : OpId) (args : List ValueId) (values : Array ValueInfo) (i : Nat) :
    (args.foldl (setOwner owner) values)[i]? =
      if ⟨i⟩ ∈ args then values[i]?.map (ValueInfo.owned owner) else values[i]? := by
  have hidem : ∀ info : ValueInfo, (info.owned owner).owned owner = info.owned owner := by
    rintro ⟨ty, origin⟩
    cases origin <;> rfl
  induction args generalizing values with
  | nil => simp
  | cons v args ih =>
    have hset : (setOwner owner values v)[i]? = if v = ⟨i⟩ then values[i]?.map (ValueInfo.owned owner)
        else values[i]? := by
      obtain ⟨k⟩ := v
      simp only [setOwner, Array.getElem?_modify, ValueId.mk.injEq]
      rfl
    rw [List.foldl_cons, ih, hset]
    by_cases hv : v = ⟨i⟩
    · subst hv
      by_cases hmem : ⟨i⟩ ∈ args
      · simp [hmem, Function.comp_def, hidem]
      · simp [hmem]
    · simp [hv, Ne.symm hv]

theorem settles_setOwner (owner : OpId) (args : List ValueId) (values : Array ValueInfo)
    (h : ∀ v ∈ args, ∀ info, values[v.index]? = some info → ∃ k, info.origin = .arg none k) :
    Settles values (args.foldl (setOwner owner) values) := by
  intro i info hi
  rw [getElem?_foldl_setOwner, hi]
  by_cases hmem : ⟨i⟩ ∈ args
  · obtain ⟨k, hk⟩ := h ⟨i⟩ hmem info hi
    refine ⟨info.owned owner, by simp [hmem], ?_, .inr ⟨k, owner, hk, ?_⟩⟩
    · simp [ValueInfo.owned, hk]
    · simp [ValueInfo.owned, hk]
  · exact ⟨info, by simp [hmem], rfl, .inl rfl⟩

/-- `m'` is `m` with one more operation, which is in no list yet and took over the lists of its regions. -/
structure Made (m m' : Module) (id : OpId) (op : Op) : Prop where
  dead : m.get? id = none
  self : m'.get? id = some op
  others : ∀ id', id' ≠ id → m'.get? id' = (m.get? id').map fun o => o.moved (placeIn id 0 op.regions id')
  values : Settles m.values m'.values
  body : m'.body = m.body
  sound : m'.Sound

theorem reserve_rest : m.reserve.2.values = m.values ∧ m.reserve.2.users = m.users ∧
    m.reserve.2.body = m.body := by
  unfold reserve
  split <;> exact ⟨rfl, rfl, rfl⟩

theorem free_reserve_nodup (h : m.Sound) : m.reserve.2.free.Nodup := by
  have hnodup := h.free_nodup
  unfold reserve
  split
  next i rest hfree => exact (List.nodup_cons.mp (hfree ▸ hnodup)).2
  next => exact hnodup

theorem create_eq (kind : Kind) (operands : List ValueId) (regions : List Region) :
    m.create kind operands regions = (m.reserve.1, m.reserve.2.fill m.reserve.1 kind operands none regions) :=
  rfl

theorem createValue_eq (kind : Kind) (operands : List ValueId) (ty : ValueType) (regions : List Region) :
    m.createValue kind operands ty regions =
      (m.reserve.1, (m.reserve.2.newValue ty (.result m.reserve.1)).1,
        (m.reserve.2.newValue ty (.result m.reserve.1)).2.fill m.reserve.1 kind operands
          (some (m.reserve.2.newValue ty (.result m.reserve.1)).1) regions) := rfl

theorem Sound.create (h : m.Sound) (kind : Kind) (operands : List ValueId) (regions : List Region) :
    (m.create kind operands regions).2.Sound := by
  obtain ⟨hvalues, husers, -⟩ := reserve_rest (m := m)
  rw [create_eq]
  refine fill_sound (reserve_empty h) (free_reserve_nodup h) (mem_free_reserve h) (fun v id => ?_)
    (fun id op v hop hv => ?_) (by simp)
  · rw [usersOf, husers, get?_reserve]
    exact h.users v id
  · rw [get?_reserve] at hop
    rw [hvalues]
    exact h.results id op v hop hv

theorem Sound.createValue (h : m.Sound) (kind : Kind) (operands : List ValueId) (ty : ValueType)
    (regions : List Region) : (m.createValue kind operands ty regions).2.2.Sound := by
  obtain ⟨hvalues, husers, -⟩ := reserve_rest (m := m)
  rw [createValue_eq]
  have hnew : m.reserve.2.newValue ty (.result m.reserve.1) =
      (⟨m.values.size⟩, { m.reserve.2 with values := m.values.push ⟨ty, .result m.reserve.1⟩ }) := by
    rw [newValue, hvalues]
  rw [hnew]
  refine fill_sound (reserve_empty h) (free_reserve_nodup h) (mem_free_reserve h) (fun v id => ?_)
    (fun id op v hop hv => ?_) fun v hv => ?_
  · have hget := get?_reserve (m := m) id
    have hcount := h.users v id
    rw [← hget, usersOf, ← husers] at hcount
    exact hcount
  · have hget := get?_reserve (m := m) id
    obtain ⟨ty', hty'⟩ := h.results id op v (hget.symm.trans hop) hv
    exact ⟨ty', (Settles.push _ _).result hty'⟩
  · cases hv
    exact ⟨ty, by simp⟩

theorem create_made (h : m.Sound) (kind : Kind) (operands : List ValueId) (regions : List Region)
    (hsettles : Settles m.values (m.create kind operands regions).2.values) :
    Made m (m.create kind operands regions).2 (m.create kind operands regions).1
      ⟨kind, operands, none, regions, none⟩ := by
  have hempty := reserve_empty h
  rw [create_eq] at hsettles ⊢
  refine ⟨get?_reserve_self h, ?_, fun id' hne => ?_, hsettles, body_fill.trans reserve_rest.2.2, ?_⟩
  · rw [get?_fill hempty, if_pos rfl]
  · rw [get?_fill hempty, if_neg hne, get?_reserve]
  · exact h.create kind operands regions

theorem values_create (kind : Kind) (operands : List ValueId) (regions : List Region) :
    (m.create kind operands regions).2.values =
      regions.foldl (fun values r => r.args.foldl (setOwner (m.create kind operands regions).1) values)
        m.values := by
  rw [create_eq, values_fill, reserve_rest.1]

theorem values_create_of_no_args (kind : Kind) (operands : List ValueId) (regions : List Region)
    (hargs : ∀ r ∈ regions, r.args = []) : (m.create kind operands regions).2.values = m.values := by
  rw [create_eq]
  exact (values_adoptAll_of_no_args _ _ _ hargs).trans reserve_rest.1

theorem createValue_made (h : m.Sound) (kind : Kind) (operands : List ValueId) (ty : ValueType)
    (regions : List Region) (hargs : ∀ r ∈ regions, r.args = []) :
    Made m (m.createValue kind operands ty regions).2.2 (m.createValue kind operands ty regions).1
        ⟨kind, operands, some ⟨m.values.size⟩, regions, none⟩ ∧
      (m.createValue kind operands ty regions).2.1 = ⟨m.values.size⟩ ∧
      (m.createValue kind operands ty regions).2.2.values =
        m.values.push ⟨ty, .result (m.createValue kind operands ty regions).1⟩ := by
  obtain ⟨hvalues, -, hbody⟩ := reserve_rest (m := m)
  have hempty := reserve_empty h
  rw [createValue_eq]
  have hnew : m.reserve.2.newValue ty (.result m.reserve.1) =
      (⟨m.values.size⟩, { m.reserve.2 with values := m.values.push ⟨ty, .result m.reserve.1⟩ }) := by
    rw [newValue, hvalues]
  rw [hnew]
  generalize hm₀ : ({ m.reserve.2 with values := m.values.push ⟨ty, .result m.reserve.1⟩ } : Module) = m₀
  have hvalues₀ : m₀.values = m.values.push ⟨ty, .result m.reserve.1⟩ := by rw [← hm₀]
  have hempty₀ : m₀.slots[m.reserve.1.index]? = some ⟨m.reserve.1.generation, none⟩ := by
    rw [← hm₀]; exact hempty
  have hget₀ : ∀ id, m₀.get? id = m.get? id := fun id => by rw [← hm₀]; exact get?_reserve id
  have hsame : (m₀.fill m.reserve.1 kind operands (some ⟨m.values.size⟩) regions).values =
      m.values.push ⟨ty, .result m.reserve.1⟩ := (values_adoptAll_of_no_args _ _ _ hargs).trans hvalues₀
  refine ⟨⟨get?_reserve_self h, ?_, fun id' hne => ?_, ?_, ?_, ?_⟩, rfl, hsame⟩
  · rw [get?_fill hempty₀, if_pos rfl]
  · rw [get?_fill hempty₀, if_neg hne, hget₀]
  · rw [hsame]
    exact .push _ _
  · rw [body_fill, ← hm₀]
    exact hbody
  · have hsound := h.createValue kind operands ty regions
    rw [createValue_eq, hnew, hm₀] at hsound
    exact hsound

end Module

end Choco.IR
