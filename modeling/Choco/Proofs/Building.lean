import Choco.IR.OfProgram
import Choco.Proofs.Growth

namespace Choco.IR

variable {m : Module}

/-- A type for each value. -/
abbrev Types := ValueId → Option ValueType

def Module.Typed (m : Module) (types : Types) : Prop :=
  ∀ v info, m.values[v.index]? = some info → types v = some info.ty

theorem Module.Typed.of_settles {m' : Module} {types : Types} (h : m'.Typed types)
    (hvalues : Settles m.values m'.values) :
    m.Typed types := by
  intro v info hv
  obtain ⟨info', hv', hty, -⟩ := hvalues v.index info hv
  rw [h v info' hv', hty]

/-- The types of the module's own values. -/
def Module.types (m : Module) : Types := fun v => m.values[v.index]?.map ValueInfo.ty

theorem Module.typed_types (m : Module) : m.Typed m.types :=
  fun v info hv => by rw [types, hv, Option.map_some]

theorem Module.Typed.eq_some {types : Types} (h : m.Typed types) {v : ValueId} {ty : ValueType}
    (hv : m.types v = some ty) :
    types v = some ty := by
  obtain ⟨info, hinfo, rfl⟩ := Option.map_eq_some_iff.mp hv
  exact h v info hinfo

theorem Module.valueType_eq_ok {v : ValueId} {ty : ValueType} :
    m.valueType v = .ok ty ↔ ∃ info, m.values[v.index]? = some info ∧ info.ty = ty := by
  unfold valueType value
  cases m.values[v.index]? <;> simp [Except.map]

open Choco.IR.Module

/-- The builder wrote new code at the end of its list. -/
structure Grown (b b' : Builder) (c : Code) : Prop where
  module : Extends b.module b'.module c
  block : b'.block.toList = b.block.toList ++ c.ids

theorem Grown.trans {b b₁ b₂ : Builder} {c d : Code} (h : Grown b b₁ c) (h' : Grown b₁ b₂ d) :
    Grown b b₂ (c ++ d) :=
  ⟨h.module.trans h'.module, by rw [h'.block, h.block, Code.ids_append, List.append_assoc]⟩

namespace Build

variable {α β : Type} {b : Builder} {b' : Builder}

def Gives (x : Build α) (P : Types → α → Code → Prop) : Prop :=
  ∀ b a b', b.module.Sound → x b = .ok a b' →
    ∃ c, Grown b b' c ∧ ∀ types, b'.module.Typed types → P types a c

/-- A construction that, when it succeeds, has made a region from code with a property. -/
def Makes (x : Build Region) (P : Types → Code → Prop) : Prop :=
  ∀ b r b', b.module.Sound → x b = .ok r b' →
    ∃ c, Extends b.module b'.module c ∧ b'.block = b.block ∧ r = { ops := c.ids } ∧
      ∀ types, b'.module.Typed types → P types c

theorem Gives.imp {x : Build α} {P Q : Types → α → Code → Prop} (h : Gives x P)
    (hPQ : ∀ types a c, P types a c → Q types a c) : Gives x Q := by
  intro b a b' hb hx
  obtain ⟨c, hc, hP⟩ := h b a b' hb hx
  exact ⟨c, hc, fun types ht => hPQ types a c (hP types ht)⟩

theorem gives_pure (a : α) : Gives (pure a) fun _ r c => r = a ∧ c = .nil := by
  intro b r b' hb hx
  obtain ⟨rfl, rfl⟩ := Action.pure_eq_ok.mp hx
  exact ⟨.nil, ⟨.nil hb, by simp [Code.ids]⟩, fun _ _ => ⟨rfl, rfl⟩⟩

theorem gives_throw (e : Error) {P : Types → α → Code → Prop} : Gives (throw e) P := by
  intro b r b' _ hx
  cases hx

theorem gives_ofExcept (x : Except Error α) : Gives (ofExcept x) fun _ r c => x = .ok r ∧ c = .nil := by
  cases x with
  | ok a => exact (gives_pure a).imp fun _ r c h => ⟨congrArg Except.ok h.1.symm, h.2⟩
  | error e => exact gives_throw e

theorem ofExcept_eq_ok {x : Except Error α} {a : α} : ofExcept x b = .ok a b' ↔ x = .ok a ∧ b' = b := by
  cases x with
  | ok r =>
    rw [ofExcept, Action.pure_eq_ok, Except.ok.injEq]
    exact and_congr_right' eq_comm
  | error e => exact ⟨fun h => (by cases h), fun h => (by cases h.1)⟩

theorem Gives.bind {x : Build α} {f : α → Build β} {P : Types → α → Code → Prop}
    {Q : α → Types → β → Code → Prop} (hx : Gives x P) (hf : ∀ a, Gives (f a) (Q a)) :
    Gives (x >>= f) fun types r c => ∃ a c₁ c₂, c = c₁ ++ c₂ ∧ P types a c₁ ∧ Q a types r c₂ := by
  intro b r b' hb hrun
  obtain ⟨a, b₁, hrun₁, hrun₂⟩ := Action.bind_eq_ok.mp hrun
  obtain ⟨c₁, hgrown₁, hP⟩ := hx b a b₁ hb hrun₁
  obtain ⟨c₂, hgrown₂, hQ⟩ := hf a b₁ r b' hgrown₁.module.change.sound hrun₂
  exact ⟨c₁ ++ c₂, hgrown₁.trans hgrown₂, fun types ht =>
    ⟨a, c₁, c₂, rfl, hP types (ht.of_settles hgrown₂.module.change.values), hQ types ht⟩⟩

theorem edit_ok {e : Edit α} {a : α} {m : Module} (h : e b.module = .ok a m) :
    edit e b = .ok a ⟨m, b.block⟩ := by
  rw [edit, h]

theorem edit_query_eq_ok {f : Module → Except Error α} {a : α} :
    edit (Edit.query f) b = .ok a b' ↔ f b.module = .ok a ∧ b' = b := by
  unfold edit Edit.query
  cases f b.module with
  | ok x =>
    simp only [EStateM.Result.ok.injEq, Except.ok.injEq]
    exact and_congr_right' eq_comm
  | error e => simp

theorem edit_make_eq_ok {f : Module → α × Module} {a : α} :
    edit (Edit.make f) b = .ok a b' ↔ a = (f b.module).1 ∧ b' = ⟨(f b.module).2, b.block⟩ := by
  simp only [edit, Edit.make, EStateM.Result.ok.injEq]
  exact and_congr eq_comm eq_comm

theorem emit_made (hb : b.module.Sound) (kind : Kind) (operands : List ValueId) (ty : ValueType)
    (regions : List Region) (hargs : ∀ r ∈ regions, r.args = []) :
    ∃ n m, n.kind = kind ∧ n.operands = operands ∧ n.result = some ⟨⟨b.module.values.size⟩, ty⟩ ∧
      emit kind operands ty regions b = .ok ⟨b.module.values.size⟩ ⟨m, b.block.push n.id⟩ ∧
      Made b.module m n.id (n.op regions none) ∧ NewResult b.module m n ∧ Stays b.module m := by
  obtain ⟨hmade, hv, hvalues⟩ := createValue_made hb kind operands ty regions hargs
  refine ⟨⟨(b.module.createValue kind operands ty regions).1, kind, operands,
    some ⟨⟨b.module.values.size⟩, ty⟩⟩, (b.module.createValue kind operands ty regions).2.2, rfl, rfl, rfl,
    ?_, hmade, fun d hd => ?_, stays_push hvalues⟩
  · simp only [emit, hv]
  · cases hd
    refine ⟨rfl, ?_⟩
    rw [hvalues]
    simp

theorem emitVoid_made (hb : b.module.Sound) (kind : Kind) (operands : List ValueId) (regions : List Region)
    (hargs : ∀ r ∈ regions, r.args = []) :
    ∃ n m, n.kind = kind ∧ n.operands = operands ∧ n.result = none ∧
      emitVoid kind operands regions b = .ok () ⟨m, b.block.push n.id⟩ ∧
      Made b.module m n.id (n.op regions none) ∧ NewResult b.module m n ∧ Stays b.module m := by
  have hvalues := values_create_of_no_args (m := b.module) kind operands regions hargs
  have hmade := create_made hb kind operands regions (hvalues ▸ .refl _)
  exact ⟨⟨(b.module.create kind operands regions).1, kind, operands, none⟩,
    (b.module.create kind operands regions).2, rfl, rfl, rfl, rfl, hmade, (fun d hd => by cases hd),
    stays_of_eq hvalues⟩

theorem gives_emit (kind : Kind) (operands : List ValueId) (ty : ValueType) :
    Gives (emit kind operands ty) fun _ v c => ∃ id, c = .leaf ⟨id, kind, operands, some ⟨v, ty⟩⟩ .nil := by
  intro b v b' hb hrun
  obtain ⟨n, m, rfl, rfl, hn, hrun', hmade, hresult, hstays⟩ := emit_made hb kind operands ty [] (by simp)
  cases hrun.symm.trans hrun'
  refine ⟨.leaf n .nil, ⟨hmade.extends_leaf hresult hstays, by simp [Code.ids]⟩, fun _ _ => ⟨n.id, ?_⟩⟩
  rw [← hn]

theorem gives_emitVoid (kind : Kind) (operands : List ValueId) :
    Gives (emitVoid kind operands) fun _ _ c => ∃ id, c = .leaf ⟨id, kind, operands, none⟩ .nil := by
  intro b v b' hb hrun
  obtain ⟨n, m, rfl, rfl, hn, hrun', hmade, hresult, hstays⟩ := emitVoid_made hb kind operands [] (by simp)
  cases hrun.symm.trans hrun'
  refine ⟨.leaf n .nil, ⟨hmade.extends_leaf hresult hstays, by simp [Code.ids]⟩, fun _ _ => ⟨n.id, ?_⟩⟩
  rw [← hn]

section Regions

variable {x y : Build Region} {P Q : Types → Code → Prop}

theorem makes_region {body : Build Unit} (h : Gives body fun types _ c => P types c) :
    Makes (region body) P := by
  intro b r b' hb hrun
  obtain ⟨⟨_, ops⟩, b₁, hblock, hpure⟩ := Action.bind_eq_ok.mp hrun
  obtain ⟨rfl, rfl⟩ := Action.pure_eq_ok.mp hpure
  unfold block at hblock
  split at hblock
  next inner hbody =>
    cases hblock
    obtain ⟨c, hgrown, hP⟩ := h ⟨b.module, #[]⟩ () inner hb hbody
    refine ⟨c, hgrown.module, rfl, ?_, hP⟩
    have hops := hgrown.block
    simp only [List.nil_append] at hops
    rw [hops]
  next => cases hblock

theorem makes_yielding {body : Build ValueId} {P : Types → ValueId → Code → Prop} (h : Gives body P) :
    Makes (yielding body) fun types c =>
      ∃ v c₁ id, c = c₁ ++ .leaf ⟨id, .yield, [v], none⟩ .nil ∧ P types v c₁ := by
  refine makes_region ((h.bind fun v => gives_emitVoid .yield [v]).imp ?_)
  rintro types - c ⟨v, c₁, c₂, rfl, hP, id, rfl⟩
  exact ⟨v, c₁, id, rfl, hP⟩

theorem ids_eq_nil {c : Code} (h : c.ids = []) : c = .nil := by
  cases c with
  | nil => rfl
  | leaf n rest | each n args body rest | fork n first second rest => cases h

theorem makes_padded {body : Build Unit} (h : Gives body fun types _ c => P types c) :
    Makes (padded body) fun types c =>
      (c ≠ .nil ∧ P types c) ∨ (P types .nil ∧ ∃ id, c = .leaf ⟨id, .pass, [], none⟩ .nil) := by
  intro b r b' hb hrun
  obtain ⟨r₁, b₁, hrun₁, hrun₂⟩ := Action.bind_eq_ok.mp hrun
  obtain ⟨c, hext, hblock, rfl, hP⟩ := makes_region h b r₁ b₁ hb hrun₁
  simp only at hrun₂
  by_cases hempty : c.ids = []
  · obtain rfl := ids_eq_nil hempty
    have hpass := makes_region ((gives_emitVoid .pass []).imp fun types _ c h => h)
    obtain ⟨c', hext', hblock', hr, hid⟩ := hpass b₁ r b' hext.change.sound hrun₂
    exact ⟨c', hext.trans hext', hblock'.trans hblock, hr, fun types ht =>
      .inr ⟨hP types (ht.of_settles hext'.change.values), hid types ht⟩⟩
  · have hne : c.ids.isEmpty = false := by simpa using hempty
    rw [hne] at hrun₂
    obtain ⟨rfl, rfl⟩ := Action.pure_eq_ok.mp hrun₂
    exact ⟨c, hext, hblock, rfl, fun types ht => .inl ⟨fun h => hempty (h ▸ rfl), hP types ht⟩⟩

theorem Makes.both (hx : Makes x P) (hy : Makes y Q) {f : Region → Region → Build α} {a : α} {b : Builder}
    (hb : b.module.Sound) (hrun : (do let r ← x; let r' ← y; f r r') b = .ok a b') :
    ∃ c₁ c₂ b₁, Extends b.module b₁.module (c₁ ++ c₂) ∧ b₁.block = b.block ∧
      f { ops := c₁.ids } { ops := c₂.ids } b₁ = .ok a b' ∧
      ∀ types, b₁.module.Typed types → P types c₁ ∧ Q types c₂ := by
  obtain ⟨r₁, b₁, hrun₁, hrun⟩ := Action.bind_eq_ok.mp hrun
  obtain ⟨r₂, b₂, hrun₂, hrun⟩ := Action.bind_eq_ok.mp hrun
  obtain ⟨c₁, hext₁, hblock₁, rfl, hP⟩ := hx b r₁ b₁ hb hrun₁
  obtain ⟨c₂, hext₂, hblock₂, rfl, hQ⟩ := hy b₁ r₂ b₂ hext₁.change.sound hrun₂
  exact ⟨c₁, c₂, b₂, hext₁.trans hext₂, hblock₂.trans hblock₁, hrun, fun types ht =>
    ⟨hP types (ht.of_settles hext₂.change.values), hQ types ht⟩⟩

theorem gives_fork (hx : Makes x P) (hy : Makes y Q) (kind : Kind) (operands : List ValueId)
    (ty : ValueType) :
    Gives (do let r ← x; let r' ← y; emit kind operands ty [r, r']) fun types v c =>
      ∃ id c₁ c₂, c = .fork ⟨id, kind, operands, some ⟨v, ty⟩⟩ c₁ c₂ .nil ∧ P types c₁ ∧ Q types c₂ := by
  intro b v b' hb hrun
  obtain ⟨c₁, c₂, b₁, hext, hblock, hrun, hPQ⟩ := hx.both hy hb hrun
  obtain ⟨n, m, rfl, rfl, hn, hrun', hmade, hresult, hstays⟩ :=
    emit_made hext.change.sound kind operands ty [{ ops := c₁.ids }, { ops := c₂.ids }] (by simp)
  cases hrun.symm.trans hrun'
  refine ⟨.fork n c₁ c₂ .nil, ⟨hmade.extends_fork hext hresult hstays, by simp [Code.ids, hblock]⟩,
    fun types ht => ?_⟩
  obtain ⟨hP, hQ⟩ := hPQ types (ht.of_settles hmade.values)
  exact ⟨n.id, c₁, c₂, by rw [← hn], hP, hQ⟩

theorem gives_forkVoid (hx : Makes x P) (hy : Makes y Q) (kind : Kind) (operands : List ValueId) :
    Gives (do let r ← x; let r' ← y; emitVoid kind operands [r, r']) fun types _ c =>
      ∃ id c₁ c₂, c = .fork ⟨id, kind, operands, none⟩ c₁ c₂ .nil ∧ P types c₁ ∧ Q types c₂ := by
  intro b v b' hb hrun
  obtain ⟨c₁, c₂, b₁, hext, hblock, hrun, hPQ⟩ := hx.both hy hb hrun
  obtain ⟨n, m, rfl, rfl, hn, hrun', hmade, hresult, hstays⟩ :=
    emitVoid_made hext.change.sound kind operands [{ ops := c₁.ids }, { ops := c₂.ids }] (by simp)
  cases hrun.symm.trans hrun'
  refine ⟨.fork n c₁ c₂ .nil, ⟨hmade.extends_fork hext hresult hstays, by simp [Code.ids, hblock]⟩,
    fun types ht => ?_⟩
  obtain ⟨hP, hQ⟩ := hPQ types (ht.of_settles hmade.values)
  exact ⟨n.id, c₁, c₂, by rw [← hn], hP, hQ⟩

theorem gives_eachVoid (hx : Makes x P) (kind : Kind) (operands : List ValueId) :
    Gives (do let r ← x; emitVoid kind operands [r]) fun types _ c =>
      ∃ id body, c = .each ⟨id, kind, operands, none⟩ [] body .nil ∧ P types body := by
  intro b v b' hb hrun
  obtain ⟨r, b₁, hrun₁, hrun⟩ := Action.bind_eq_ok.mp hrun
  obtain ⟨c, hext, hblock, rfl, hP⟩ := hx b r b₁ hb hrun₁
  obtain ⟨n, m, rfl, rfl, hn, hrun', hmade, hresult, hstays⟩ :=
    emitVoid_made hext.change.sound kind operands [{ ops := c.ids }] (by simp)
  cases hrun.symm.trans hrun'
  have heach : Extends b.module m (.each n [] c .nil) :=
    hmade.extends_each (c := .nil) hext hresult (by simp) fun i info hi =>
      hstays i info (hext.stays i info hi)
  exact ⟨.each n [] c .nil, ⟨heach, by simp [Code.ids, hblock]⟩, fun types ht =>
    ⟨n.id, c, by rw [← hn], hP types (ht.of_settles hmade.values)⟩⟩

end Regions

/-- What loading a value takes: one operation if the value is a location, nothing otherwise. -/
inductive Loads (types : Types) (v : ValueId) : Code → ValueId → Prop
  | load (ty : Ty) (id : OpId) (w : ValueId) (h : types v = some (.location ty)) :
      Loads types v (.leaf ⟨id, .load, [v], some ⟨w, .plain ty⟩⟩ .nil) w
  | stay (ty : ValueType) (h : types v = some ty) (hplain : ty.isLocation = false) : Loads types v .nil v

theorem gives_load (v : ValueId) : Gives (load v) fun types w c => Loads types v c w := by
  intro b w b' hb hrun
  obtain ⟨ty, b₁, hquery, hrun⟩ := Action.bind_eq_ok.mp hrun
  obtain ⟨hty, rfl⟩ := edit_query_eq_ok.mp hquery
  obtain ⟨⟨ty, origin⟩, hv, rfl⟩ := valueType_eq_ok.mp hty
  have hstay {w : ValueId} (hplain : ty.isLocation = false) (hrun : (pure v : Build ValueId) b₁ = .ok w b') :
      ∃ c, Grown b₁ b' c ∧ ∀ types, b'.module.Typed types → Loads types v c w := by
    obtain ⟨rfl, rfl⟩ := Action.pure_eq_ok.mp hrun
    exact ⟨.nil, ⟨.nil hb, by simp [Code.ids]⟩, fun types ht => .stay ty (ht v _ hv) hplain⟩
  cases ty with
  | plain ty => exact hstay rfl hrun
  | word => exact hstay rfl hrun
  | location ty =>
    obtain ⟨c, hgrown, hc⟩ := gives_emit .load [v] (.plain ty) b₁ w b' hb hrun
    refine ⟨c, hgrown, fun types ht => ?_⟩
    obtain ⟨id, rfl⟩ := hc types ht
    exact .load ty id w (ht.of_settles hgrown.module.change.values v _ hv)

end Build

end Choco.IR
