import Choco.Proofs.Failures
import Choco.Proofs.Verifying

namespace Choco

namespace IR

open Choco.IR.Module Code

variable {m : Module} {K : Kind → Prop} {c : Code}

theorem Module.Renders.valid (h : m.Renders K c) : m.Valid := h.models.valid h.args h.scope h.functions.tidy

theorem LowersFunctions.valid {N : Nat} {θ : ValueId → ValueId} {c c' : Code} {p p' : Progress}
    (h : LowersFunctions p c c' p') (hnamed : Named N m θ c') (hfunctions : c.Functions)
    (hscope : c.ScopedFunctions fun _ => False) : m.Valid := by
  refine hnamed.models.valid (fun a ha => ?_) ?_ ((h.tidy hfunctions).map θ θ)
  · rw [Code.relabel, args_map] at ha
    exact (hnamed.args a ha).2
  · refine ((h.scoped hscope).relabel fun a ha => (hnamed.args a ha).1).mono fun _ hv => ?_
    obtain ⟨_, hu, _⟩ := hv
    exact hu

theorem Node.failure?_proper (n : Node) : ∀ e ∈ n.failure?, e.Proper := by
  intro e he
  unfold Node.failure? at he
  split at he
  · split at he <;> cases he
    exact Error.proper_of_isInvalid rfl
  · split at he <;> cases he
    exact Error.proper_of_isInvalid rfl
  · split at he <;> cases he
    exact Error.proper_of_isInvalid rfl
  · cases he

theorem Code.failure?_proper (c : Code) : ∀ e ∈ c.failure?, e.Proper := by
  have hor {a b : Option Error} (ha : ∀ e ∈ a, e.Proper) (hb : ∀ e ∈ b, e.Proper) :
      ∀ e ∈ a.or b, e.Proper := by
    cases a with
    | none => exact hb
    | some e => exact ha
  have hempty {index : Nat} {kind : Kind} :
      ∀ e ∈ some (Error.internal (.emptyRegion index kind)), e.Proper := by
    rintro e ⟨⟩
    exact Error.proper_of_isInvalid rfl
  induction c with
  | nil => rintro e ⟨⟩
  | leaf n rest ih => exact hor n.failure?_proper ih
  | each n args body rest ihb ih =>
    refine hor ?_ ih
    split
    exacts [hempty, ihb]
  | fork n first second rest iha ihb ih =>
    refine hor ?_ ih
    split
    · exact hempty
    · split
      exacts [hempty, hor iha ihb]

end IR

open IR (Module Edit Kind Code ValueId)

/-- The passes of the compiler. -/
inductive Stage where
  | translation
  | loops
  | libraryUses
  | optimization
  | flattening

namespace Options

variable {options : Options} {p : Program} {m : Module}

/-- A module that the compiler comes to behind a pass, where the passes before it succeed. -/
inductive Checkpoint (options : Options) (p : Program) : Stage → Module → Prop
  | translation {m : Module} (h : Module.ofProgram p = .ok m) : Checkpoint options p .translation m
  | loops {m m' : Module} {k : Nat} (h : Checkpoint options p .translation m)
      (hrun : Edit.replaceLoops m = .ok k m') :
      Checkpoint options p .loops m'
  | libraryUses {m m' : Module} {k : Nat} (h : Checkpoint options p .loops m)
      (hrun : Edit.replaceLibraryUses m = .ok k m') :
      Checkpoint options p .libraryUses m'
  | optimization {m m' : Module} {savings : IR.Savings} (h : Checkpoint options p .libraryUses m)
      (hrun : Edit.optimize options.optLevel m = .ok savings m') : Checkpoint options p .optimization m'
  | flattening {m m' : Module} {k : Nat} (h : Checkpoint options p .optimization m)
      (hrun : Edit.flatten m = .ok k m') :
      Checkpoint options p .flattening m'

/-- The code of a module that the compiler comes to before it makes it flat, and where the code comes from. -/
inductive StageCode (options : Options) (p : Program) : Stage → Module → Code → Prop
  | translation {m : Module} {c : Code} (hrenders : m.Renders (fun _ => True) c)
    (hcode : IR.ProgramCode m.types p c) :
      StageCode options p .translation m c
  | loops {m m' : Module} {c c' : Code} (h : StageCode options p .translation m c)
      (hrenders : m'.Renders (· ≠ .forLoop) c') (hunrolls : IR.Unrolls m'.types c c') :
      StageCode options p .loops m' c'
  | libraryUses {m m' : Module} {c c' : Code} {θ : ValueId → ValueId} (h : StageCode options p .loops m c)
      (hmaps : c.Maps (IR.LibraryCode m.types) c') (hnamed : IR.Named m.values.size m' θ c')
      (hrenders : m'.Renders Kind.flattens (c'.relabel θ)) :
        StageCode options p .libraryUses m' (c'.relabel θ)
  | unoptimized {m : Module} {c : Code} (h : StageCode options p .libraryUses m c)
      (hlevel : options.optLevel = 0) :
      StageCode options p .optimization m c
  | optimized {m m' : Module} {c c₁ : Code} {θ : ValueId → ValueId} (h : StageCode options p .libraryUses m c)
      (hlevel : options.optLevel ≠ 0) (hmaps : c.Maps (IR.FoldCode c₁) c₁)
        (htraced : IR.Traced m.values.size c θ c₁)
      (hnamed : IR.Named m.values.size m' θ c₁.sweep)
        (hrenders : m'.Renders Kind.flattens (c₁.sweep.relabel θ)) :
      StageCode options p .optimization m' (c₁.sweep.relabel θ)

namespace StageCode

variable {c : Code}

theorem renders_translation (h : options.StageCode p .translation m c) : m.Renders (fun _ => True) c := by
  cases h with
  | translation hrenders _ => exact hrenders

theorem renders_loops (h : options.StageCode p .loops m c) : m.Renders (· ≠ .forLoop) c := by
  cases h with
  | loops _ hrenders _ => exact hrenders

theorem renders_libraryUses (h : options.StageCode p .libraryUses m c) : m.Renders Kind.flattens c := by
  cases h with
  | libraryUses _ _ _ hrenders => exact hrenders

theorem renders_optimization (h : options.StageCode p .optimization m c) : m.Renders Kind.flattens c := by
  cases h with
  | unoptimized h _ => exact h.renders_libraryUses
  | optimized _ _ _ _ _ hrenders => exact hrenders

theorem exists_optimize (h : options.StageCode p .libraryUses m c) :
    ∃ savings m' c', Edit.optimize options.optLevel m = .ok savings m' ∧
      options.StageCode p .optimization m' c' := by
  by_cases hlevel : options.optLevel = 0
  · refine ⟨{}, m, c, ?_, .unoptimized h hlevel⟩
    rw [Edit.optimize, if_pos hlevel]
    rfl
  · obtain ⟨savings, m', c₁, θ, hrun, hmaps, htraced, hnamed, hrenders⟩ :=
      h.renders_libraryUses.optimize hlevel
    exact ⟨savings, m', _, hrun, .optimized h hlevel hmaps htraced hnamed hrenders⟩

end StageCode

namespace Checkpoint

variable {stage : Stage}

theorem exists_stageCode (h : options.Checkpoint p stage m) (hstage : stage ≠ .flattening) :
    ∃ c, options.StageCode p stage m c := by
  induction h with
  | translation h =>
    obtain ⟨c, hrenders, hcode⟩ := IR.ofProgram_renders h
    exact ⟨c, .translation hrenders hcode⟩
  | loops _ hrun ih =>
    obtain ⟨c, h⟩ := ih nofun
    obtain ⟨c', hrenders, hunrolls⟩ := h.renders_translation.replaceLoops hrun
    exact ⟨c', .loops h hrenders hunrolls⟩
  | libraryUses _ hrun ih =>
    obtain ⟨c, h⟩ := ih nofun
    obtain ⟨c', θ, hmaps, hnamed, -, hrenders⟩ := h.renders_loops.replaceLibraryUses hrun
    exact ⟨_, .libraryUses h hmaps hnamed hrenders⟩
  | optimization _ hrun ih =>
    obtain ⟨c, h⟩ := ih nofun
    obtain ⟨savings, m', c', hrun', h'⟩ := h.exists_optimize
    cases hrun.symm.trans hrun'
    exact ⟨c', h'⟩
  | flattening => exact absurd rfl hstage

theorem exists_lowers (h : options.Checkpoint p .flattening m) :
    ∃ m₀ c θ c' q, options.StageCode p .optimization m₀ c ∧ IR.Named m₀.values.size m θ c' ∧
      IR.LowersFunctions {} c c' q := by
  cases h with
  | flattening h hrun =>
    obtain ⟨c, h⟩ := h.exists_stageCode nofun
    obtain ⟨m', θ, c', q, hrun', hnamed, hlowers, -⟩ | ⟨e, m', hrun', -⟩ := h.renders_optimization.flatten
    · cases hrun.symm.trans hrun'
      exact ⟨_, c, θ, c', q, h, hnamed, hlowers⟩
    · cases hrun.symm.trans hrun'

theorem valid (h : options.Checkpoint p stage m) : m.Valid := by
  cases h with
  | translation h =>
    obtain ⟨c, hrenders, -⟩ := IR.ofProgram_renders h
    exact hrenders.valid
  | loops h hrun =>
    obtain ⟨c, h⟩ := (h.loops hrun).exists_stageCode nofun
    exact h.renders_loops.valid
  | libraryUses h hrun =>
    obtain ⟨c, h⟩ := (h.libraryUses hrun).exists_stageCode nofun
    exact h.renders_libraryUses.valid
  | optimization h hrun =>
    obtain ⟨c, h⟩ := (h.optimization hrun).exists_stageCode nofun
    exact h.renders_optimization.valid
  | flattening h hrun =>
    obtain ⟨m₀, c, θ, c', q, h, hnamed, hlowers⟩ := (h.flattening hrun).exists_lowers
    exact hlowers.valid hnamed h.renders_optimization.functions h.renders_optimization.scope

end Checkpoint

section Pass

variable {α : Type} {run : Edit α} {a : α} {m' : Module}

theorem pass_error {e : Error} (h : run m = .error e m') (name : String) :
    options.pass name run m = .error e := by
  simp only [pass, h]

theorem pass_ok (h : run m = .ok a m') (hvalid : m'.Valid) (name : String) :
    options.pass name run m = .ok (a, m', if options.dumps then [(name, m'.dump)] else []) := by
  simp only [pass, h]
  split
  · exact (Outcome.bind_ok hvalid.verify).trans rfl
  · rfl

variable {β : Type} {f g : α × Module × List (String × String) → Except Error β} {name : String}

theorem pass_bind_verifyIR (hvalid : ∀ a m', run m = .ok a m' → m'.Valid) {b : Bool}
    (h : ∀ a m' dumps, run m = .ok a m' → f (a, m', dumps) = g (a, m', dumps)) :
    ({ options with verifyIR := b }.pass name run m >>= f) = options.pass name run m >>= g := by
  cases hrun : run m with
  | error e m' =>
    rw [pass_error hrun, pass_error hrun]
    rfl
  | ok a m' =>
    rw [pass_ok hrun (hvalid a m' hrun), pass_ok hrun (hvalid a m' hrun)]
    exact h a m' _ hrun

theorem pass_bind_proper (hvalid : ∀ a m', run m = .ok a m' → m'.Valid)
    (hproper : ∀ e m', run m = .error e m' → e.Proper)
    (h : ∀ a m' dumps, run m = .ok a m' → Outcome.Proper (f (a, m', dumps))) :
    Outcome.Proper (options.pass name run m >>= f) := by
  cases hrun : run m with
  | error e m' =>
    rw [pass_error hrun]
    exact .error (hproper e m' hrun)
  | ok a m' =>
    rw [pass_ok hrun (hvalid a m' hrun)]
    exact h a m' _ hrun

theorem pass_bind_eq_ok (hvalid : ∀ a m', run m = .ok a m' → m'.Valid) {r : β}
    (h : options.pass name run m >>= f = .ok r) :
    ∃ a m' dumps, run m = .ok a m' ∧ f (a, m', dumps) = .ok r := by
  cases hrun : run m with
  | error e m' =>
    rw [pass_error hrun] at h
    cases h
  | ok a m' =>
    rw [pass_ok hrun (hvalid a m' hrun)] at h
    exact ⟨a, m', _, rfl, h⟩

end Pass

section Compile

variable {a : Unit} {m' : Module}

theorem Checkpoint.valid_pure (h : options.Checkpoint p .translation m)
    (hrun : (pure () : Edit Unit) m = .ok a m') : m'.Valid := by
  cases hrun
  exact h.valid

theorem compile_verifyIR (options : Options) (p : Program) (b : Bool) :
    { options with verifyIR := b }.compile p = options.compile p := by
  unfold compile
  cases hm : Module.ofProgram p with
  | error e => rfl
  | ok m =>
    have h : options.Checkpoint p .translation m := .translation hm
    refine pass_bind_verifyIR (fun _ _ => h.valid_pure) fun _ m₁ _ hrun => ?_
    cases hrun
    refine pass_bind_verifyIR (fun _ _ hrun => (h.loops hrun).valid) fun _ m₂ _ hrun => ?_
    replace h := h.loops hrun
    refine pass_bind_verifyIR (fun _ _ hrun => (h.libraryUses hrun).valid) fun _ m₃ _ hrun => ?_
    replace h := h.libraryUses hrun
    refine pass_bind_verifyIR (fun _ _ hrun => (h.optimization hrun).valid) fun _ m₄ _ hrun => ?_
    replace h := h.optimization hrun
    exact pass_bind_verifyIR (fun _ _ hrun => (h.flattening hrun).valid) fun _ m₅ _ hrun => rfl

theorem compile_proper (options : Options) (p : Program) : Outcome.Proper (options.compile p) := by
  unfold compile
  cases hm : Module.ofProgram p with
  | error e => exact .error (IR.Module.ofProgram_proper p e hm)
  | ok m =>
    have h : options.Checkpoint p .translation m := .translation hm
    refine pass_bind_proper (fun _ _ => h.valid_pure) (Action.Proper.pure () m) fun _ m₁ _ hrun => ?_
    cases hrun
    refine pass_bind_proper (fun _ _ hrun => (h.loops hrun).valid)
      (fun e _ => Edit.replaceLoops_proper _ e _) fun _ m₂ _ hrun => ?_
    replace h := h.loops hrun
    refine pass_bind_proper (fun _ _ hrun => (h.libraryUses hrun).valid)
      (fun e _ => Edit.replaceLibraryUses_proper _ e _) fun _ m₃ _ hrun => ?_
    replace h := h.libraryUses hrun
    refine pass_bind_proper (fun _ _ hrun => (h.optimization hrun).valid)
      (fun e m' hrun => ?_) fun _ m₄ _ hrun => ?_
    · obtain ⟨c, h⟩ := h.exists_stageCode nofun
      obtain ⟨savings, m'', c', hrun', -⟩ := h.exists_optimize
      cases hrun.symm.trans hrun'
    replace h := h.optimization hrun
    refine pass_bind_proper (fun _ _ hrun => (h.flattening hrun).valid)
      (fun e m' hrun => ?_) fun _ m₅ _ hrun => ?_
    · obtain ⟨c, h⟩ := h.exists_stageCode nofun
      obtain ⟨m'', θ, c', q, hrun', -⟩ | ⟨e', m'', hrun', hfail⟩ := h.renders_optimization.flatten
      · cases hrun.symm.trans hrun'
      · cases hrun.symm.trans hrun'
        exact c.failure?_proper e hfail
    · exact (Asm.ofModule_proper _ _).bind fun _ => .ok _

theorem exists_checkpoint_of_compile {r : Compiled} (hr : options.compile p = .ok r) :
    ∃ m, options.Checkpoint p .flattening m ∧ Asm.Assembly.ofModule options.heapSize m = .ok r.asm := by
  unfold compile at hr
  obtain ⟨m, hm, hr⟩ := Outcome.bind_eq_ok.mp hr
  have h : options.Checkpoint p .translation m := .translation hm
  obtain ⟨_, _, _, hrun, hr⟩ := pass_bind_eq_ok (fun _ _ => h.valid_pure) hr
  cases hrun
  obtain ⟨_, _, _, hrun, hr⟩ := pass_bind_eq_ok (fun _ _ hrun => (h.loops hrun).valid) hr
  replace h := h.loops hrun
  obtain ⟨_, _, _, hrun, hr⟩ := pass_bind_eq_ok (fun _ _ hrun => (h.libraryUses hrun).valid) hr
  replace h := h.libraryUses hrun
  obtain ⟨_, _, _, hrun, hr⟩ := pass_bind_eq_ok (fun _ _ hrun => (h.optimization hrun).valid) hr
  replace h := h.optimization hrun
  obtain ⟨_, m', _, hrun, hr⟩ := pass_bind_eq_ok (fun _ _ hrun => (h.flattening hrun).valid) hr
  obtain ⟨asm, hasm, hr⟩ := Outcome.bind_eq_ok.mp hr
  cases hr
  exact ⟨m', h.flattening hrun, hasm⟩

end Compile

/-- Every module that the compiler comes to is in order, so that the check never fails and makes no
difference. -/
theorem compile_checkpoints_valid (options : Options) (p : Program) :
    (∀ stage m, options.Checkpoint p stage m → m.Valid) ∧
      (∀ r, options.compile p = .ok r →
        ∃ m, options.Checkpoint p .flattening m ∧ Asm.Assembly.ofModule options.heapSize m = .ok r.asm) ∧
      (∀ d, options.compile p ≠ .error (.invalidIR d)) ∧
      { options with verifyIR := true }.compile p = { options with verifyIR := false }.compile p :=
  ⟨fun _ _ h => h.valid, fun _ => exists_checkpoint_of_compile, fun d h => compile_proper options p _ h d rfl,
    (compile_verifyIR options p true).trans (compile_verifyIR options p false).symm⟩

/-- A branch in which the optimizer leaves nothing: `if True: 1`. -/
def emptiedBranch : Program where
  decls := []
  stmts := [.ifElse (.ofBool true) [.expr (.ofInt 1)] []]

/-- The optimized module is in order and still does not become flat. -/
theorem emptiedBranch_fails :
    ({ ({} : Options) with optLevel := 0 }.compile emptiedBranch).isOk ∧
      { ({} : Options) with optLevel := 1 }.compile emptiedBranch =
        .error (.internal (.emptyRegion 0 .ifElse)) := by
  refine ⟨by decide +kernel, ?_⟩
  have hfails : (match { ({} : Options) with optLevel := 1 }.compile emptiedBranch with
      | .error e => decide (e = .internal (.emptyRegion 0 .ifElse))
      | .ok _ => false) = true := by decide +kernel
  split at hfails
  next e he => rw [he, of_decide_eq_true hfails]
  next => cases hfails

end Options

end Choco
