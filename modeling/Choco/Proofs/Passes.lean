import Choco.Proofs.Stages

namespace Choco.IR

open Choco.IR.Module Code

variable {n : Node} {types : Types}

/-- The module is the functions of this code, and their operations are of these kinds. -/
structure Module.Renders (m : Module) (K : Kind → Prop) (c : Code) : Prop where
  models : m.Models c .nil
  args : ∀ a ∈ c.args, m.IsArg a
  functions : c.Functions
  scope : c.ScopedFunctions fun _ => False
  kinds : ∀ n ∈ c.nodes, K n.kind

section Fits

variable {Q : Node → Prop} {c : Code} {y : Bool}

theorem Code.Shaped.fits (h : c.Shaped y) (hQ : ∀ n ∈ c.nodes, n.Plain ∨ n.kind = .yield → Q n) :
    c.Fits Q := by
  induction h with
  | nil => trivial
  | yield id x => exact ⟨hQ _ List.mem_cons_self (.inr rfl), trivial⟩
  | leaf hn _ ih => exact ⟨hQ _ List.mem_cons_self (.inl hn), ih fun n hn => hQ n (List.mem_cons_of_mem _ hn)⟩
  | loop id x location _ _ ihb ih =>
    exact ⟨rfl, ihb fun n hn => hQ n (by simp [nodes, hn]), ih fun n hn => hQ n (by simp [nodes, hn])⟩
  | fork hn _ _ _ iha ihb ih =>
    exact ⟨by cases hn <;> rfl, iha fun n hn => hQ n (by simp [nodes, hn]),
      ihb fun n hn => hQ n (by simp [nodes, hn]), ih fun n hn => hQ n (by simp [nodes, hn])⟩

theorem Code.Functions.fits (h : c.Functions) (hQ : ∀ n ∈ c.nodes, n.Plain ∨ n.kind = .yield → Q n) :
    c.Fits Q := by
  induction h with
  | nil => trivial
  | function id label ty args hbody _ ih =>
    exact ⟨rfl, hbody.fits fun n hn => hQ n (by simp [nodes, hn]), ih fun n hn => hQ n (by simp [nodes, hn])⟩

theorem Code.Shaped.mem_nodes (h : c.Shaped y) (hn : n ∈ c.nodes) :
    n.Plain ∨ n.kind = .yield ∨ n.kind.hasRegions := by
  induction h with
  | nil => cases hn
  | yield id x =>
    obtain rfl := List.mem_singleton.mp hn
    exact .inr (.inl rfl)
  | leaf hplain _ ih =>
    obtain rfl | hn := List.mem_cons.mp hn
    · exact .inl hplain
    · exact ih hn
  | loop id x location _ _ ihb ih =>
    simp only [nodes, List.mem_cons, List.mem_append] at hn
    rcases hn with rfl | hn | hn
    exacts [Or.inr (.inr rfl), ihb hn, ih hn]
  | fork hforks _ _ _ iha ihb ih =>
    simp only [nodes, List.mem_cons, List.mem_append] at hn
    rcases hn with rfl | hn | hn | hn
    · exact .inr (.inr (by cases hforks <;> rfl))
    · exact iha hn
    · exact ihb hn
    · exact ih hn

theorem Code.Functions.mem_nodes (h : c.Functions) (hn : n ∈ c.nodes) :
    n.Plain ∨ n.kind = .yield ∨ n.kind.hasRegions := by
  induction h with
  | nil => cases hn
  | function id label ty args hbody _ ih =>
    simp only [nodes, List.mem_cons, List.mem_append] at hn
    rcases hn with rfl | hn | hn
    exacts [Or.inr (.inr rfl), hbody.mem_nodes hn, ih hn]

theorem Unrolls.args_eq {c' : Code} (h : Unrolls types c c') (hc : c.Functions) : c'.args = c.args := by
  induction h with
  | nil => rfl
  | leaf | loop | fork => cases hc
  | each _ hbody _ _ ih =>
    cases hc with
    | function id label ty _ hshape hrest =>
      rw [args_each, args_each, (hbody.shaped hshape).1.args_eq, hshape.args_eq, ih hrest]

end Fits

section Kinds

variable {R : Node → Code → Prop} {K K' : Node → Prop} {c d : Code} {e : Code}

theorem Code.Maps.forall_nodes (h : c.Maps R d) (hregions : ∀ n, K n → n.kind.hasRegions → K' n)
    (hfits : c.Fits fun _ => True) (hR : ∀ n e, R n e → K n → ∀ n' ∈ e.nodes, K' n')
    (hc : ∀ n ∈ c.nodes, K n) : ∀ n ∈ d.nodes, K' n := by
  induction c generalizing d with
  | nil => exact h ▸ nofun
  | leaf n rest ih =>
    obtain ⟨e, rest', rfl, he, hrest⟩ := h
    rw [nodes_append, List.forall_mem_append]
    rw [nodes, List.forall_mem_cons] at hc
    exact ⟨hR n e he hc.1, ih hrest hfits.2 hc.2⟩
  | each n args body rest ihb ih =>
    obtain ⟨body', rest', rfl, hbody, hrest⟩ := h
    simp only [nodes, List.forall_mem_cons, List.forall_mem_append] at hc ⊢
    exact ⟨hregions _ hc.1 hfits.1, ihb hbody hfits.2.1 hc.2.1, ih hrest hfits.2.2 hc.2.2⟩
  | fork n first second rest iha ihb ih =>
    obtain ⟨first', second', rest', rfl, hfirst, hsecond, hrest⟩ := h
    simp only [nodes, List.forall_mem_cons, List.forall_mem_append] at hc ⊢
    exact ⟨hregions _ hc.1 hfits.1, iha hfirst hfits.2.1 hc.2.1, ihb hsecond hfits.2.2.1 hc.2.2.1,
      ih hrest hfits.2.2.2 hc.2.2.2⟩

theorem LibraryCode.flattens (h : LibraryCode types n e) (hn : n.kind ≠ .forLoop) :
    ∀ n' ∈ e.nodes, n'.kind.flattens := by
  cases h with
  | keep h =>
    have hkeep := LibraryUse.ofOp_keep h
    simpa [nodes, Kind.flattens] using ⟨hn, hkeep⟩
  | call routine h =>
    have hcall := (LibraryUse.ofOp_call h).2
    simpa [nodes, Kind.flattens] using hcall
  | negated routine h id₁ id₂ equal r hr =>
    have hroutine := LibraryUse.ofOp_routine h
    simpa [nodes, Kind.flattens] using hroutine

theorem FoldCode.flattens {c : Code} (h : FoldCode c n e) (hn : n.kind.flattens) :
    ∀ n' ∈ e.nodes, n'.kind.flattens := by
  cases h with
  | keep => simpa [nodes] using hn
  | sum id x y j k r hkind hoperands hr hx hy => simp [nodes, Kind.flattens]

end Kinds

namespace Module.Renders

variable {m m' : Module} {K : Kind → Prop} {c : Code} {N : Nat} {θ : ValueId → ValueId} {k : Nat}

theorem named (h : m.Renders K c) : Named m.values.size m (fun v => v) c where
  models := by
    rw [Code.relabel, Code.map_id]
    exact h.models
  closed x hx := (h.scope.uses_mem hx).resolve_left id
  args a ha := ⟨rfl, h.args a ha⟩
  size := Nat.le_refl _
  fresh _ _ := rfl

theorem of_named (h : Named N m θ c) (hfunctions : c.Functions) (hscope : c.ScopedFunctions fun _ => False)
    (hkinds : ∀ n ∈ c.nodes, K n.kind) : m.Renders K (c.relabel θ) where
  models := h.models
  args a ha := (h.args a (by simpa [Code.relabel] using ha)).2
  functions := hfunctions.map θ θ
  scope := (hscope.relabel fun a ha => (h.args a ha).1).mono fun _ ⟨_, hu, _⟩ => hu
  kinds n hn := by
    rw [Code.relabel, nodes_map] at hn
    obtain ⟨n', hn', rfl⟩ := List.mem_map.mp hn
    exact hkinds n' hn'

theorem result_lt (h : m.Renders K c) : ∀ v ∈ c.results, v.index < m.values.size :=
  fun _ => h.models.holds.result_lt

theorem use_lt (h : m.Renders K c) {x : ValueId} (hx : x ∈ c.uses) : x.index < m.values.size :=
  h.named.use_lt hx

theorem replaceLoops (h : m.Renders K c) (hrun : Edit.replaceLoops m = .ok k m') :
    ∃ c', m'.Renders (· ≠ .forLoop) c' ∧ Unrolls m'.types c c' := by
  obtain ⟨c', hmodels, hvalues, hunrolls⟩ := replaceLoops_models h.functions h.models hrun
  have hunrolls := hunrolls m'.types m'.typed_types
  obtain ⟨hfunctions, hkinds⟩ := hunrolls.functions h.functions
  refine ⟨c', ⟨hmodels, fun a ha => ?_, hfunctions, hunrolls.scopedFunctions h.functions h.scope, hkinds⟩,
    hunrolls⟩
  rw [hunrolls.args_eq h.functions] at ha
  exact (h.args a ha).settles hvalues

theorem replaceLibraryUses (h : m.Renders (· ≠ .forLoop) c) (hrun : Edit.replaceLibraryUses m = .ok k m') :
    ∃ c₁ θ, c.Maps (LibraryCode m.types) c₁ ∧ Named m.values.size m' θ c₁ ∧
      TypedBelow m.values.size m.types m' θ c₁ ∧
      m'.Renders Kind.flattens (c₁.relabel θ) := by
  have hready : c.Fits (LibraryReady m.values.size) := by
    refine h.functions.fits fun n hn hplain =>
      ⟨fun x hx => h.use_lt (List.mem_flatMap.mpr ⟨n, hn, hx⟩), fun hkind => ?_⟩
    obtain hplain | hyield := hplain
    · cases hplain with
      | binary id op x y r hop hty =>
        cases hkind
        exact ⟨r.value, by rw [← hty rfl]⟩
      | _ => cases hkind
    · rw [hyield] at hkind
      cases hkind
  have hfits := h.functions.fits (Q := fun _ => True) fun _ _ _ => trivial
  have htyped : TypedBelow m.values.size m.types m (fun v => v) c := fun _ _ _ => rfl
  obtain ⟨k', m'', θ, c₁, hok, hnamed, htyped', hmaps⟩ | ⟨e, m'', herror, -⟩ :=
    replaceLibraryUses_named h.named htyped hready h.result_lt
  · cases hrun.symm.trans hok
    have hrewrite := localRewrite_library m.types
    refine ⟨c₁, θ, hmaps, hnamed, htyped', of_named hnamed (hmaps.functions hrewrite h.functions)
      (hmaps.scopedFunctions hrewrite h.scope)
      (hmaps.forall_nodes (fun n hn hregions => ⟨hn, ?_, ?_⟩) hfits (fun n e he => he.flattens) h.kinds)⟩
    · intro hkind
      rw [hkind] at hregions
      cases hregions
    · intro hkind
      rw [hkind] at hregions
      cases hregions
  · cases hrun.symm.trans herror

theorem fits_adds (h : m.Renders K c) : c.Fits fun n => n.kind = .binary .add → ∃ r, n.result = some r := by
  refine h.functions.fits fun n _ hplain hkind => ?_
  obtain hplain | hyield := hplain
  · cases hplain with
    | binary id op x y r hop hty => exact ⟨r, rfl⟩
    | _ => cases hkind
  · rw [hyield] at hkind
    cases hkind

theorem foldSums (h : m.Renders K c) :
    ∃ folded m₁ c₁ θ, Edit.foldSums m = .ok folded m₁ ∧ c.Maps (FoldCode c₁) c₁ ∧
      Traced m.values.size c θ c₁ ∧ Named m.values.size m₁ θ c₁ ∧ c₁.Functions ∧ c₁.ScopedFunctions fun _ =>
        False := by
  obtain ⟨folded, m₁, θ, c₁, hfold, hnamed, htraced, hmaps⟩ :=
    foldSums_named h.named h.fits_adds h.result_lt fun _ _ => rfl
  have hrewrite := localRewrite_fold c₁
  exact ⟨folded, m₁, c₁, θ, hfold, hmaps, htraced, hnamed, hmaps.functions hrewrite h.functions,
    hmaps.scopedFunctions hrewrite h.scope⟩

theorem optimize (h : m.Renders Kind.flattens c) {level : Nat} (hlevel : level ≠ 0) :
    ∃ savings m' c₁ θ, Edit.optimize level m = .ok savings m' ∧ c.Maps (FoldCode c₁) c₁ ∧
      Traced m.values.size c θ c₁ ∧ Named m.values.size m' θ c₁.sweep ∧
        m'.Renders Kind.flattens (c₁.sweep.relabel θ) := by
  have hfits := h.functions.fits (Q := fun _ => True) fun _ _ _ => trivial
  obtain ⟨folded, m₁, c₁, θ, hfold, hmaps, htraced, hnamed₁, hfunctions, hscope⟩ := h.foldSums
  obtain ⟨eliminated, m', hdrop, hnamed⟩ :=
    dropDead_named (hfunctions.fits fun _ _ _ => trivial) hnamed₁ hscope
  refine ⟨⟨folded, eliminated⟩, m', c₁, θ, ?_, hmaps, htraced, hnamed,
    of_named hnamed hfunctions.sweep hscope.sweep fun n hn => ?_⟩
  · rw [Edit.optimize, if_neg hlevel]
    exact (Action.bind_ok hfold).trans (Action.bind_ok hdrop)
  · exact hmaps.forall_nodes (fun n hn _ => hn) hfits (fun n e he => he.flattens) h.kinds n
      (mem_nodes_sweep hn)

end Module.Renders

theorem ofProgram_renders {p : Program} {m : Module} (h : Module.ofProgram p = .ok m) :
    ∃ c, m.Renders (fun _ => True) c ∧ ProgramCode m.types p c := by
  obtain ⟨c, hmodels, hargs, hcode⟩ := ofProgram_models h
  have hcode := hcode m.types m.typed_types
  exact ⟨c, ⟨hmodels, hargs, hcode.functions, hcode.scoped, fun _ _ => trivial⟩, hcode⟩

end Choco.IR
