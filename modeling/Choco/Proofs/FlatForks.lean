import Choco.Proofs.Erase
import Choco.Proofs.Lowers

namespace Choco.IR.Build

open Choco.IR.Module

variable {m₀ m : Module} {b : Builder} {C : Context} {n : Node} {c d t first second rest : Code}
  {is js : List Instruction} {α : Type} {m' m₁ : Module} {index : Nat}

def Writing (m₀ : Module) (b : Builder) (c : Code) (is : List Instruction) (t : Code) : Prop :=
  ∃ w, b.module.Models c (w ++ t) ∧ b.block.toList = w.ids ∧ w.Reads is ∧ Settles m₀.values b.module.values

theorem Writing.run {x : Build α} {P : α → List Instruction → Prop} (h : Writing m₀ b c is t)
    (hx : Runs x P) :
    ∃ a b' js, x b = .ok a b' ∧ Writing m₀ b' c (is ++ js) t ∧ P a js ∧
      ∀ v ∈ definitions js, m₀.values.size ≤ v.index := by
  obtain ⟨w, hmodels, hblock, hreads, hvalues⟩ := h
  obtain ⟨a, b', e, js, hrun, hgrown, hreads', hP⟩ := hx b hmodels.sound
  refine ⟨a, b', js, hrun, ⟨w ++ e, (hmodels.grow hgrown.module).swap, ?_, hreads.append hreads', ?_⟩, hP,
    fun v hv => ?_⟩
  · rw [hgrown.block, hblock, Code.ids_append]
  · exact hvalues.trans hgrown.module.change.values
  · exact hvalues.size_le.trans (hgrown.module.fresh v (hreads'.results_eq ▸ hv))

def Succeeds {α : Type} (x : Build α) (b : Builder) (P : α → Builder → Prop) : Prop :=
  ∃ a b', x b = .ok a b' ∧ P a b'

section Succeeds

variable {α β : Type} {f : α → Build β} {P : β → Builder → Prop} {op : FlatOp} {xs : List ValueId}

theorem Succeeds.step {x : Build α} {a : α} {b' : Builder} (hrun : x b = .ok a b') (h : Succeeds (f a) b' P) :
    Succeeds (x >>= f) b P := by
  obtain ⟨a', b'', hrest, hP⟩ := h
  exact ⟨a', b'', (Action.bind_ok hrun).trans hrest, hP⟩

theorem Writing.word (h : Writing m₀ b c is t) (op : FlatOp) (xs : List ValueId) :
    Succeeds (word op xs) b fun v b' => Writing m₀ b' c (is ++ [.word op xs v]) t ∧
      m₀.values.size ≤ v.index := by
  obtain ⟨v, b', js, hrun, h', rfl, hfresh⟩ := h.run (runs_word op xs)
  exact ⟨v, b', hrun, h', hfresh v (by simp)⟩

theorem Writing.act (h : Writing m₀ b c is t) (op : FlatOp) (xs : List ValueId) :
    Succeeds (act op xs) b fun _ b' => Writing m₀ b' c (is ++ [.act op xs]) t := by
  obtain ⟨⟨⟩, b', js, hrun, h', rfl, -⟩ := h.run (runs_act op xs)
  exact ⟨⟨⟩, b', hrun, h'⟩

theorem Writing.word_bind {f : ValueId → Build β} (h : Writing m₀ b c is t)
    (hf : ∀ v b', Writing m₀ b' c (is ++ [.word op xs v]) t → m₀.values.size ≤ v.index →
      Succeeds (f v) b' P) :
    Succeeds (Build.word op xs >>= f) b P := by
  obtain ⟨v, b', hrun, h', hfresh⟩ := h.word op xs
  exact .step hrun (hf v b' h' hfresh)

theorem Writing.act_bind {f : Unit → Build β} (h : Writing m₀ b c is t)
    (hf : ∀ b', Writing m₀ b' c (is ++ [.act op xs]) t → Succeeds (f ()) b' P) :
    Succeeds (Build.act op xs >>= f) b P := by
  obtain ⟨⟨⟩, b', hrun, h'⟩ := h.act op xs
  exact .step hrun (hf b' h')

theorem Writing.append_bind {f : Unit → Build β} (h : Writing m₀ b c is (d ++ t)) (hd : d.Reads js)
    (hf : ∀ b', Writing m₀ b' c (is ++ js) t → Succeeds (f ()) b' P) : Succeeds (append d.ids >>= f) b P := by
  obtain ⟨w, hmodels, hblock, hreads, hvalues⟩ := h
  refine .step rfl (hf _ ⟨w ++ d, ?_, ?_, hreads.append hd, hvalues⟩)
  · rwa [Code.append_assoc]
  · simp [hblock]

end Succeeds

theorem takeYielding_run {id : OpId} {x : ValueId} {t : Code}
    (htake : Edit.takeRegion n.id index m = .ok { ops := (d ++ .leaf ⟨id, .yield, [x], none⟩ .nil).ids } m₁)
    (hmodels : m₁.Models c (t ++ (d ++ .leaf ⟨id, .yield, [x], none⟩ .nil))) (block : Array OpId) :
    ∃ m₂, takeYielding n.id index ⟨m, block⟩ = .ok (d.ids, x) ⟨m₂, block⟩ ∧ m₂.Models c (t ++ d) ∧
      m₂.values = m₁.values := by
  rw [← Code.append_assoc] at hmodels
  obtain ⟨-, hnode, -⟩ := holds_append.mp hmodels.loose
  obtain ⟨m₂, herase, hmodels₂, hvalues⟩ := hmodels.eraseLoose rfl
  have hids : (d ++ .leaf ⟨id, .yield, [x], none⟩ .nil).ids = d.ids ++ [id] := by simp [Code.ids]
  rw [hids] at htake
  refine ⟨m₂, ?_, hmodels₂, hvalues⟩
  have hops : takeOps n.id index ⟨m, block⟩ = .ok (d.ids ++ [id]) ⟨m₁, block⟩ :=
    Action.bind_ok (edit_ok (b := ⟨m, block⟩) htake)
  refine (Action.bind_ok hops).trans ?_
  have hlast : (d.ids ++ [id]).getLast? = some id := by simp
  have hop : edit (Edit.op id) ⟨m₁, block⟩ = .ok ⟨.yield, [x], none, [], none⟩ ⟨m₁, block⟩ :=
    edit_ok (b := ⟨m₁, block⟩) (Edit.op_run hnode.get?_leaf)
  simp only [hlast]
  refine (Action.bind_ok hop).trans ((Action.bind_ok (edit_ok (b := ⟨m₁, block⟩) herase)).trans ?_)
  simp [pure, EStateM.pure]

theorem takeOps_run {ids : List OpId} (htake : Edit.takeRegion n.id index m = .ok { ops := ids } m₁)
    (block : Array OpId) :
    takeOps n.id index ⟨m, block⟩ = .ok ids ⟨m₁, block⟩ :=
  Action.bind_ok (edit_ok (b := ⟨m, block⟩) htake)

section Constructs

variable {id₁ id₂ : OpId} {x y : ValueId} {d₁ d₂ : Code}

theorem writing_start (h : m'.Models c (d₁ ++ d₂)) (hvalues : m'.values = m.values) :
    Writing m ⟨m', #[]⟩ c [] (d₁ ++ (d₂ ++ .nil)) := by
  refine ⟨.nil, ?_, rfl, .nil, ?_⟩
  · rwa [Code.nil_append, Code.append_nil]
  · rw [hvalues]
    exact .refl _

theorem takeYielding_both (h : m.Models (C.plug (.fork n (d₁ ++ .leaf ⟨id₁, .yield, [x], none⟩ .nil)
      (d₂ ++ .leaf ⟨id₂, .yield, [y], none⟩ .nil) rest)) .nil) :
    ∃ m₁ m₂, takeYielding n.id 0 ⟨m, #[]⟩ = .ok (d₁.ids, x) ⟨m₁, #[]⟩ ∧
      takeYielding n.id 1 ⟨m₁, #[]⟩ = .ok (d₂.ids, y) ⟨m₂, #[]⟩ ∧
      Writing m ⟨m₂, #[]⟩ (C.plug (.fork n .nil .nil rest)) [] (d₁ ++ (d₂ ++ .nil)) := by
  obtain ⟨m₁, htake₁, h₁, hvalues₁⟩ := h.takeFirst
  obtain ⟨m₂, hrun₂, h₂, hvalues₂⟩ := takeYielding_run htake₁ h₁ #[]
  obtain ⟨m₃, htake₃, h₃, hvalues₃⟩ := h₂.takeSecond
  obtain ⟨m₄, hrun₄, h₄, hvalues₄⟩ := takeYielding_run htake₃ h₃ #[]
  exact ⟨m₂, m₄, hrun₂, hrun₄, writing_start h₄ (hvalues₄.trans (hvalues₃.trans (hvalues₂.trans hvalues₁)))⟩

/-- The instructions of a construct are written. They define what its parts define, and new values. -/
def Built (m : Module) (c : Code) (k : Nat) (n : Node) (is : List Instruction) (x : Option ValueId)
    (js : List Instruction) (y : Option ValueId) (b : Builder) : Prop :=
  ∃ ks, Writing m b c ks .nil ∧ ForkFlat k n is x js y ks ∧
    ∀ u ∈ definitions ks, u ∈ definitions is ∨ u ∈ definitions js ∨ m.values.size ≤ u.index

variable (hd₁ : d₁.Reads is) (hd₂ : d₂.Reads js) (k : Nat) (ty : ValueType)

include hd₁ hd₂

theorem flatShortCircuit_run {op : BinaryOp} {construct : Construct} {skip : Cond}
    (hop : SkipsOn op construct skip)
    (h : m.Models (C.plug (.fork n (d₁ ++ .leaf ⟨id₁, .yield, [x], none⟩ .nil)
      (d₂ ++ .leaf ⟨id₂, .yield, [y], none⟩ .nil) rest)) .nil) :
    Succeeds (flatShortCircuit n.id op k) ⟨m, #[]⟩ fun v b' => m.values.size ≤ v.index ∧
      Built m (C.plug (.fork n .nil .nil rest)) k ⟨n.id, .shortCircuit op, [], some ⟨v, ty⟩⟩ is (some x) js
        (some y) b' := by
  obtain ⟨m₁, m₂, htake₁, htake₂, h⟩ := takeYielding_both h
  have hpure : (pure (construct, skip) : Build (Construct × Cond)) ⟨m₂, #[]⟩ = .ok (construct, skip)
      ⟨m₂, #[]⟩ := rfl
  refine .step htake₁ (.step htake₂ ?_)
  cases hop with
  | and | or =>
    refine .step hpure (h.word_bind fun slot b h hslot => h.append_bind hd₁ fun b h => ?_)
    refine h.act_bind fun b h => h.word_bind fun zero b h hzero => h.act_bind fun b h =>
      h.act_bind fun b h => ?_
    refine h.append_bind hd₂ fun b h => h.act_bind fun b h => h.act_bind fun b h => ?_
    obtain ⟨v, b', hrun, h, hv⟩ := h.word (.lw 0) [slot]
    refine ⟨v, b', hrun, hv, _, ?_, .shortCircuit (by constructor) slot zero, ?_⟩
    · simpa [List.append_assoc] using h
    · simp +contextual [or_imp, hslot, hzero, hv]

theorem flatIfExpr_run (cond : ValueId)
    (h : m.Models (C.plug (.fork n (d₁ ++ .leaf ⟨id₁, .yield, [x], none⟩ .nil)
      (d₂ ++ .leaf ⟨id₂, .yield, [y], none⟩ .nil) rest)) .nil) :
    Succeeds (flatIfExpr n.id cond k) ⟨m, #[]⟩ fun v b' => m.values.size ≤ v.index ∧
      Built m (C.plug (.fork n .nil .nil rest)) k ⟨n.id, .ifExpr, [cond], some ⟨v, ty⟩⟩ is (some x) js
        (some y) b' := by
  obtain ⟨m₁, m₂, htake₁, htake₂, h⟩ := takeYielding_both h
  refine .step htake₁ (.step htake₂ (h.word_bind fun slot b h hslot => h.word_bind fun zero b h hzero => ?_))
  refine h.act_bind fun b h => h.act_bind fun b h => h.append_bind hd₁ fun b h => h.act_bind fun b h => ?_
  refine h.act_bind fun b h => h.act_bind fun b h => h.append_bind hd₂ fun b h => h.act_bind fun b h =>
    h.act_bind fun b h => ?_
  obtain ⟨v, b', hrun, h, hv⟩ := h.word (.lw 0) [slot]
  refine ⟨v, b', hrun, hv, _, ?_, .ifExpr slot zero, ?_⟩
  · simpa [List.append_assoc] using h
  · simp +contextual [or_imp, hslot, hzero, hv]

theorem flatIfElse_run (cond : ValueId) (h : m.Models (C.plug (.fork n d₁ d₂ rest)) .nil) :
    Succeeds (flatIfElse n.id cond k) ⟨m, #[]⟩ fun _ =>
      Built m (C.plug (.fork n .nil .nil rest)) k ⟨n.id, .ifElse, [cond], none⟩ is none js none := by
  obtain ⟨m₁, htake₁, hm₁, hvalues₁⟩ := h.takeFirst
  obtain ⟨m₂, htake₂, hm₂, hvalues₂⟩ := hm₁.takeSecond
  have h := writing_start hm₂ (hvalues₂.trans hvalues₁)
  refine .step (takeOps_run htake₁ #[])
    (.step (takeOps_run htake₂ #[]) (h.word_bind fun zero b h hzero => ?_))
  refine h.act_bind fun b h => h.act_bind fun b h => h.append_bind hd₁ fun b h => h.act_bind fun b h => ?_
  refine h.act_bind fun b h => h.append_bind hd₂ fun b h => ?_
  obtain ⟨⟨⟩, b', hrun, h⟩ := h.act (.label (Construct.ifElse.label "after" k)) []
  refine ⟨⟨⟩, b', hrun, _, ?_, .ifElse zero, ?_⟩
  · simpa [List.append_assoc] using h
  · simp +contextual [or_imp, hzero]

theorem flatWhile_run
    (h : m.Models (C.plug (.fork n (d₁ ++ .leaf ⟨id₁, .yield, [x], none⟩ .nil) d₂ rest)) .nil) :
    Succeeds (flatWhile n.id k) ⟨m, #[]⟩ fun _ =>
      Built m (C.plug (.fork n .nil .nil rest)) k ⟨n.id, .whileLoop, [], none⟩ is (some x) js none := by
  obtain ⟨m₁, htake₁, hm₁, hvalues₁⟩ := h.takeFirst
  obtain ⟨m₂, hyield₂, hm₂, hvalues₂⟩ := takeYielding_run htake₁ hm₁ #[]
  obtain ⟨m₃, htake₃, hm₃, hvalues₃⟩ := hm₂.takeSecond
  have h := writing_start hm₃ (hvalues₃.trans (hvalues₂.trans hvalues₁))
  refine .step hyield₂ (.step (takeOps_run htake₃ #[])
    (h.act_bind fun b h => h.append_bind hd₁ fun b h => ?_))
  refine h.word_bind fun zero b h hzero => h.act_bind fun b h => h.act_bind fun b h => ?_
  refine h.append_bind hd₂ fun b h => h.act_bind fun b h => ?_
  obtain ⟨⟨⟩, b', hrun, h⟩ := h.act (.label (Construct.whileLoop.label "after" k)) []
  refine ⟨⟨⟩, b', hrun, _, ?_, .whileLoop zero, ?_⟩
  · simpa [List.append_assoc] using h
  · simp +contextual [or_imp, hzero]

end Constructs

theorem flatOp_fork {p q : Bool} {x y : Option ValueId} {d₁ d₂ t₁ t₂ : Code} (hn : n.Forks p q)
    (h : m.Models (C.plug (.fork n (d₁ ++ t₁) (d₂ ++ t₂) rest)) .nil) (ht₁ : Code.Ends x t₁)
    (ht₂ : Code.Ends y t₂)
    (hx : x.isSome = p) (hy : y.isSome = q) (hd₁ : d₁.Reads is) (hd₂ : d₂.Reads js) (regions : List Region)
    (parent : Option Place) (k : Nat) :
    Succeeds (flatOp n.id (n.op regions parent) k) ⟨m, #[]⟩ fun v b' =>
      ∃ g, v = n.result.map (fun r => g r.value) ∧ (∀ w ∈ v, m.values.size ≤ w.index) ∧
        Built m (C.plug (.fork n .nil .nil rest)) k (n.map (fun u => u) g) is x js y b' := by
  cases hn with
  | shortCircuit id op r hop =>
    obtain ⟨id₁, x, rfl, rfl⟩ := ht₁.eq_yield hx
    obtain ⟨id₂, y, rfl, rfl⟩ := ht₂.eq_yield hy
    obtain ⟨construct, skip, hskip⟩ : ∃ construct skip, SkipsOn op construct skip := by
      cases op with
      | and => exact ⟨_, _, .and⟩
      | or => exact ⟨_, _, .or⟩
      | _ => cases hop
    obtain ⟨v, b', hrun, hv, hbuilt⟩ := flatShortCircuit_run hd₁ hd₂ k r.ty hskip h
    exact ⟨some v, b', Action.map_ok hrun, fun _ => v, rfl, by simpa using hv, hbuilt⟩
  | ifExpr id cond r =>
    obtain ⟨id₁, x, rfl, rfl⟩ := ht₁.eq_yield hx
    obtain ⟨id₂, y, rfl, rfl⟩ := ht₂.eq_yield hy
    obtain ⟨v, b', hrun, hv, hbuilt⟩ := flatIfExpr_run hd₁ hd₂ k r.ty cond h
    exact ⟨some v, b', Action.map_ok hrun, fun _ => v, rfl, by simpa using hv, hbuilt⟩
  | ifElse id cond =>
    obtain ⟨rfl, rfl⟩ := ht₁.eq_nil hx
    obtain ⟨rfl, rfl⟩ := ht₂.eq_nil hy
    rw [Code.append_nil, Code.append_nil] at h
    obtain ⟨⟨⟩, b', hrun, hbuilt⟩ := flatIfElse_run hd₁ hd₂ k cond h
    exact ⟨none, b', Action.bind_ok hrun, fun u => u, rfl, by simp, hbuilt⟩
  | whileLoop id =>
    obtain ⟨id₁, x, rfl, rfl⟩ := ht₁.eq_yield hx
    obtain ⟨rfl, rfl⟩ := ht₂.eq_nil hy
    rw [Code.append_nil] at h
    obtain ⟨⟨⟩, b', hrun, hbuilt⟩ := flatWhile_run hd₁ hd₂ k h
    exact ⟨none, b', Action.bind_ok hrun, fun u => u, rfl, by simp, hbuilt⟩

end Choco.IR.Build
