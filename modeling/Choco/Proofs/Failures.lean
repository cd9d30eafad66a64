import Choco.Compile
import Choco.Proofs.Actions

namespace Choco

variable {e : Error} {p : Prop}

def Error.Proper (e : Error) : Prop := ∀ d, e ≠ .invalidIR d

def Error.isInvalid : Error → Bool
  | .invalidIR _ => true
  | _ => false

theorem Error.proper_of_isInvalid (h : e.isInvalid = false) : e.Proper := by
  rintro d rfl
  cases h

def Outcome.Proper {α : Type} (x : Except Error α) : Prop := ∀ e, x = .error e → e.Proper

def Action.Proper {σ α : Type} (x : EStateM Error σ α) : Prop := ∀ s e s', x s = .error e s' → e.Proper

namespace Outcome.Proper

variable {α β : Type} {x : Except Error α}

theorem ok (a : α) : Proper (.ok a : Except Error α) := by
  rintro e ⟨⟩

theorem error (h : e.Proper) : Proper (.error e : Except Error α) :=
  fun _ he => Except.error.inj he ▸ h

theorem fault (h : e.isInvalid = false) : Proper (.error e : Except Error α) :=
  .error (Error.proper_of_isInvalid h)

theorem ite [Decidable p] {y : Except Error α} (hx : Proper x) (hy : Proper y) :
    Proper (if p then x else y) := by
  split
  exacts [hx, hy]

theorem bind {f : α → Except Error β} (hx : Proper x) (hf : ∀ a, Proper (f a)) : Proper (x >>= f) := by
  cases hrun : x with
  | ok a => exact hf a
  | error e => exact .error (hx e hrun)

theorem mapM {g : α → Except Error β} {xs : List α} (h : ∀ x, Proper (g x)) : Proper (xs.mapM g) := by
  induction xs with
  | nil => exact .ok []
  | cons x xs ih =>
    rw [List.mapM_cons]
    exact (h x).bind fun y => ih.bind fun ys => .ok _

end Outcome.Proper

namespace Action.Proper

variable {σ α β : Type} {x : EStateM Error σ α}

theorem of_ok (h : ∀ s, ∃ a s', x s = .ok a s') : Proper x := by
  intro s e s' he
  obtain ⟨a, s₁, hrun⟩ := h s
  rw [hrun] at he
  cases he

theorem pure (a : α) : Proper (pure a : EStateM Error σ α) := .of_ok fun _ => ⟨_, _, rfl⟩

theorem raise (h : e.Proper) : Proper (throw e : EStateM Error σ α) := by
  rintro s e' s' he
  cases he
  exact h

theorem internal (fault : Fault) : Proper (throw (.internal fault) : EStateM Error σ α) :=
  .raise (Error.proper_of_isInvalid rfl)

theorem bind {f : α → EStateM Error σ β} (hx : Proper x) (hf : ∀ a, Proper (f a)) : Proper (x >>= f) := by
  intro s e s' he
  cases hrun : x s with
  | ok a s₁ =>
    rw [bind_ok hrun] at he
    exact hf a s₁ e s' he
  | error e₁ s₁ =>
    rw [bind_error hrun] at he
    obtain ⟨rfl, rfl⟩ := EStateM.Result.error.inj he
    exact hx s _ _ hrun

theorem ite [Decidable p] {y : EStateM Error σ α} (hx : Proper x) (hy : Proper y) :
    Proper (if p then x else y) := by
  split
  exacts [hx, hy]

theorem forM {g : α → EStateM Error σ PUnit} {xs : List α} (h : ∀ x, Proper (g x)) : Proper (xs.forM g) := by
  induction xs with
  | nil => exact .pure _
  | cons x xs ih => exact (h x).bind fun _ => ih

theorem foldlM {g : β → α → EStateM Error σ β} {xs : List α} (h : ∀ b x, Proper (g b x)) (b : β) :
    Proper (xs.foldlM g b) := by
  induction xs generalizing b with
  | nil => exact .pure _
  | cons x xs ih => exact (h b x).bind fun b => ih b

theorem mapM {g : α → EStateM Error σ β} {xs : List α} (h : ∀ x, Proper (g x)) : Proper (xs.mapM g) := by
  induction xs with
  | nil => exact .pure _
  | cons x xs ih =>
    rw [List.mapM_cons]
    exact (h x).bind fun y => ih.bind fun ys => .pure _

end Action.Proper

namespace IR

open Choco.Action (Proper)

variable {body : Build Unit}

namespace Module

theorem op_proper (m : Module) (id : OpId) : Outcome.Proper (m.op id) := by
  unfold op
  split
  · exact .ok _
  · exact .fault rfl

theorem region_proper (m : Module) (place : Place) : Outcome.Proper (m.region place) := by
  unfold region
  split
  · exact .ok _
  · split
    · split
      · exact .ok _
      · exact .fault rfl
    next e he =>
      exact .error (op_proper m _ e he)

theorem valueType_proper (m : Module) (v : ValueId) : Outcome.Proper (m.valueType v) := by
  unfold valueType value
  split
  · exact .ok _
  · exact .fault rfl

end Module

namespace Edit

variable {α : Type}

theorem query_proper {f : Module → Except Error α} (h : ∀ m, Outcome.Proper (f m)) : Proper (query f) := by
  intro m e m' he
  unfold query at he
  split at he
  · cases he
  next e' he' =>
    cases he
    exact h m e he'

theorem query_ok_proper (f : Module → α) : Proper (query fun m => .ok (f m)) := query_proper fun _ => .ok _

theorem update_proper (f : Module → Module) : Proper (update f) := .of_ok fun _ => ⟨_, _, rfl⟩

theorem make_proper (f : Module → α × Module) : Proper (make f) := .of_ok fun _ => ⟨_, _, rfl⟩

theorem op_proper (id : OpId) : Proper (op id) := query_proper fun m => m.op_proper id

theorem updateOp_proper (id : OpId) (f : Op → Op) : Proper (updateOp id f) :=
  (op_proper id).bind fun _ => update_proper _

theorem updateRegion_proper (place : Place) (f : Region → Region) : Proper (updateRegion place f) := by
  refine (query_proper fun m => m.region_proper place).bind fun _ => ?_
  cases place with
  | top | nested => exact update_proper _

theorem release_proper (id : OpId) : Proper (release id) := by
  intro m e m' he
  unfold release at he
  split at he
  · cases he
    exact Error.proper_of_isInvalid rfl
  · cases he

theorem eraseUnused_proper {eraseOp : OpId → Edit Unit} (h : ∀ child, Proper (eraseOp child)) (id : OpId)
    (parent : Option Place) :
    Proper (eraseUnused eraseOp id parent) := by
  have hchild (child : OpId) : Proper (eraseChild eraseOp child) :=
    (query_ok_proper _).bind fun _ => .ite ((updateOp_proper _ _).bind fun _ => h child) (.pure _)
  have hlast := (op_proper id).bind fun old =>
    (Action.Proper.forM hchild : Proper ((old.regions.flatMap fun r => r.ops.reverse).forM _)).bind fun _ =>
      release_proper id
  cases parent with
  | none => exact hlast
  | some place => exact (updateRegion_proper place _).bind fun _ => hlast

theorem eraseWithin_proper (n : Nat) (id : OpId) : Proper (eraseWithin n id) := by
  induction n generalizing id with
  | zero => exact .internal _
  | succ n ih =>
    rw [eraseWithin]
    refine (op_proper id).bind fun old => ?_
    have hlast := eraseUnused_proper ih id old.parent
    cases old.result with
    | none => exact hlast
    | some v =>
      exact (query_ok_proper _).bind fun users => .ite ((Action.Proper.internal _).bind fun _ => hlast) hlast

theorem erase_proper (id : OpId) : Proper (erase id) := fun m => eraseWithin_proper m.depthBound id m

theorem replaceOp_proper (id : OpId) (newOps : List OpId) (newResults : List ValueId) :
    Proper (replaceOp id newOps newResults) := by
  unfold replaceOp
  refine (op_proper id).bind fun old => ?_
  cases hparent : old.parent with
  | none =>
    simp only
    exact .ite ((Action.Proper.internal _).bind fun _ => .internal _) (.internal _)
  | some parent =>
    simp only
    -- The checks may fail; what follows them is the same either way.
    refine .ite ((Action.Proper.internal _).bind fun _ => ?_) ?_
    all_goals
      refine (query_proper fun m => m.region_proper parent).bind fun region => ?_
      refine .ite ((Action.Proper.internal _).bind fun _ => ?_) ?_
    all_goals
      refine (updateRegion_proper _ _).bind fun _ =>
        (Action.Proper.forM fun _ => updateOp_proper _ _).bind fun _ => ?_
      refine (updateOp_proper _ _).bind fun _ => ?_
      split
      · exact (update_proper _).bind fun _ => erase_proper id
      · exact erase_proper id

theorem takeRegion_proper (id : OpId) (index : Nat) : Proper (takeRegion id index) := by
  refine (query_proper fun m => m.region_proper _).bind fun region =>
    (updateRegion_proper _ _).bind fun _ => ?_
  exact (Action.Proper.forM fun _ => updateOp_proper _ _).bind fun _ => .pure _

end Edit

namespace Build

variable {α : Type} {kind : Kind} {operands : List ValueId} {regions : List Region}

theorem ofExcept_proper {x : Except Error α} (h : Outcome.Proper x) : Proper (ofExcept x) := by
  cases x with
  | ok a => exact .pure a
  | error e => exact .raise (h e rfl)

theorem edit_proper {e : Edit α} (h : Proper e) : Proper (edit e) := by
  intro b e' b' he
  unfold edit at he
  split at he
  · cases he
  next hrun =>
    cases he
    exact h _ _ _ hrun

theorem append_proper (ops : List OpId) : Proper (append ops) := .of_ok fun _ => ⟨_, _, rfl⟩

theorem emit_proper {ty : ValueType} :
    Proper (emit kind operands ty regions) := .of_ok fun _ => ⟨_, _, rfl⟩

theorem emitVoid_proper :
    Proper (emitVoid kind operands regions) := .of_ok fun _ => ⟨_, _, rfl⟩

theorem block_proper {body : Build α} (h : Proper body) : Proper (block body) := by
  intro b e b' he
  unfold block at he
  split at he
  · cases he
  next hrun =>
    cases he
    exact h _ _ _ hrun

theorem collect_proper {body : Build α} (h : Proper body) : Proper (collect body) := by
  intro m e m' he
  unfold collect at he
  split at he
  · cases he
  next hrun =>
    cases he
    exact h _ _ _ hrun

theorem region_proper (h : Proper body) : Proper (region body) := (block_proper h).bind fun _ => .pure _

theorem yielding_proper {body : Build ValueId} (h : Proper body) : Proper (yielding body) :=
  region_proper (h.bind fun _ => emitVoid_proper)

end Build

namespace Names

theorem define_proper (names : Names) (name : String) (symbol : Symbol) :
    Outcome.Proper (names.define name symbol) := by
  refine .bind ?_ fun _ => .ok _
  unfold Scopes.define
  split
  · exact .fault rfl
  · exact .ok _

theorem resolve_proper (names : Names) (scope : Nat) (name : String) :
    Outcome.Proper (names.tree.resolve scope name) := by
  unfold Scopes.resolve
  split
  · exact .ok _
  · exact .fault rfl

theorem location_proper (names : Names) (name : String) : Outcome.Proper (names.location name) := by
  refine (names.resolve_proper _ name).bind fun symbol => ?_
  cases symbol with
  | var location => exact .ok _
  | func label => exact .fault rfl

theorem callee_proper (names : Names) (name : String) : Outcome.Proper (names.callee name) := by
  unfold callee
  split
  · exact .ok _
  · exact .fault rfl
  · split
    · exact .ok _
    · exact .fault rfl

theorem declareGlobal_proper (names : Names) (name : String) : Outcome.Proper (names.declareGlobal name) :=
  (names.resolve_proper _ name).bind fun _ => names.define_proper _ _

end Names

theorem resultType_proper (op : BinaryOp) (lhs rhs : Ty) : Outcome.Proper (resultType op lhs rhs) := by
  unfold resultType
  split
  · split
    · exact .ok _
    · exact .fault rfl
  · split
    · exact .ok _
    · exact .ok _
    · exact .ok _
    · split
      · exact .ok _
      · exact .fault rfl

namespace Build

theorem load_proper (v : ValueId) : Proper (load v) := by
  refine (edit_proper (Edit.query_proper fun m => m.valueType_proper v)).bind fun ty => ?_
  cases ty with
  | location ty => exact emit_proper
  | _ => exact .pure _

theorem character_proper (base index : ValueId) : Proper (character base index) :=
  emit_proper.bind fun _ => emit_proper.bind fun _ => emit_proper

theorem loaded_proper {x : Build ValueId} {f : ValueId → Build α} (hx : Proper x) (hf : ∀ v, Proper (f v)) :
    Proper (do
      let v ← load (← x)
      f v) :=
  hx.bind fun _ => (load_proper _).bind hf

mutual

theorem expr_proper (names : Names) (e : Expr) : Proper (expr names e) := by
  cases e with
  | literal value ty => exact emit_proper
  | name x ty => exact ofExcept_proper (names.location_proper x)
  | unary op operand ty =>
    rw [expr]
    exact loaded_proper (expr_proper names operand) fun _ => emit_proper
  | binary op lhs rhs ty =>
    rw [expr]
    refine .ite ?_ ?_
    · refine (yielding_proper ((expr_proper names lhs).bind load_proper)).bind fun _ => ?_
      exact (yielding_proper ((expr_proper names rhs).bind load_proper)).bind fun _ => emit_proper
    · refine (ofExcept_proper (resultType_proper _ _ _)).bind fun _ =>
        loaded_proper (expr_proper names lhs) fun _ => ?_
      exact loaded_proper (expr_proper names rhs) fun _ => emit_proper
  | ifExpr cond onTrue onFalse ty =>
    rw [expr]
    refine loaded_proper (expr_proper names cond) fun _ => ?_
    refine (yielding_proper ((expr_proper names onTrue).bind load_proper)).bind fun _ => ?_
    exact (yielding_proper ((expr_proper names onFalse).bind load_proper)).bind fun _ => emit_proper
  | list elems ty =>
    rw [expr]
    exact (values_proper names elems).bind fun _ => emit_proper
  | index base position ty =>
    rw [expr]
    refine loaded_proper (expr_proper names base) fun _ =>
      loaded_proper (expr_proper names position) fun _ => ?_
    split
    · exact character_proper _ _
    · exact emit_proper
    · exact .internal _
  | call func args ty =>
    rw [expr]
    exact (ofExcept_proper (names.callee_proper func)).bind fun _ => (values_proper names args).bind fun _ =>
      emit_proper

theorem values_proper (names : Names) (es : List Expr) : Proper (values names es) := by
  cases es with
  | nil => exact .pure _
  | cons e es =>
    rw [values]
    exact loaded_proper (expr_proper names e) fun _ => (values_proper names es).bind fun _ => .pure _

end

theorem value_proper (names : Names) (e : Expr) : Proper (value names e) :=
  (expr_proper names e).bind load_proper

theorem target_proper (names : Names) (e : Expr) : Proper (target names e) := by
  cases e with
  | name x ty => exact ofExcept_proper (names.location_proper x)
  | index base position ty => exact .ite (expr_proper names _) (.internal _)
  | _ => exact .internal _

theorem padded_proper (h : Proper body) : Proper (padded body) :=
  (region_proper h).bind fun _ => .ite (region_proper emitVoid_proper) (.pure _)

mutual

theorem stmt_proper (names : Names) (s : Stmt) : Proper (stmt names s) := by
  cases s with
  | expr e =>
    cases e with
    | call func args ty =>
      rw [stmt]
      refine (ofExcept_proper (names.callee_proper func)).bind fun _ => ?_
      exact (values_proper names args).bind fun _ => emitVoid_proper
    | _ => exact (value_proper names _).bind fun _ => .pure _
  | assign a =>
    rw [stmt]
    refine (value_proper names a.value).bind fun _ => ?_
    exact (Action.Proper.mapM (target_proper names)).bind fun _ => emitVoid_proper
  | ret e =>
    cases e with
    | none => exact emit_proper.bind fun _ => emitVoid_proper
    | some e => exact (value_proper names e).bind fun _ => emitVoid_proper
  | pass => exact emitVoid_proper
  | ifElse cond onTrue onFalse =>
    rw [stmt]
    refine (value_proper names cond).bind fun _ =>
      (padded_proper (stmts_proper names onTrue)).bind fun _ => ?_
    exact (padded_proper (stmts_proper names onFalse)).bind fun _ => emitVoid_proper
  | whileLoop cond body =>
    rw [stmt]
    refine (yielding_proper (value_proper names cond)).bind fun _ => ?_
    exact (padded_proper (stmts_proper names body)).bind fun _ => emitVoid_proper
  | forLoop x iter body =>
    rw [stmt]
    refine (value_proper names iter).bind fun _ =>
      (ofExcept_proper (names.location_proper x)).bind fun _ => ?_
    exact (padded_proper (stmts_proper names body)).bind fun _ => emitVoid_proper

theorem stmts_proper (names : Names) (ss : List Stmt) : Proper (stmts names ss) := by
  cases ss with
  | nil => exact .pure _
  | cons s ss =>
    rw [stmts]
    exact (stmt_proper names s).bind fun _ => stmts_proper names ss

end

theorem varDef_proper (names : Names) (v : VarDef) : Proper (varDef names v) := by
  refine emit_proper.bind fun _ => emit_proper.bind fun _ => emitVoid_proper.bind fun _ => ?_
  exact ofExcept_proper (names.define_proper _ _)

theorem params_proper (names : Names) (region : Region) (ps : List Param) :
    Proper (params names region ps) := by
  induction ps generalizing names region with
  | nil => exact .pure _
  | cons p ps ih =>
    refine (edit_proper (Edit.make_proper _)).bind fun _ => emit_proper.bind fun _ => ?_
    refine emitVoid_proper.bind fun _ => (ofExcept_proper (names.define_proper _ _)).bind fun names =>
      ih names _

theorem locals_proper (names : Names) (ds : List Decl) : Proper (locals names ds) := by
  induction ds generalizing names with
  | nil => exact .pure _
  | cons d ds ih =>
    cases d with
    | var v => exact (varDef_proper names v).bind fun names => ih names
    | global x => exact (ofExcept_proper (names.declareGlobal_proper x)).bind fun names => ih names
    | func f | «nonlocal» x => exact ih names

theorem bindFunctions_proper (names : Names) (path : String) (ds : List Decl) :
    Outcome.Proper (bindFunctions names path ds) := by
  induction ds generalizing names with
  | nil => exact .ok _
  | cons d ds ih =>
    cases d with
    | func f => exact (names.define_proper _ _).bind fun names => ih names
    | _ => exact ih names

theorem implicitReturn_proper : Proper implicitReturn := emit_proper.bind fun _ => emitVoid_proper

mutual

theorem function_proper (names : Names) (label : String) (f : FuncDef) : Proper (function names label f) := by
  obtain ⟨name, ps, returnTy, decls, body⟩ := f
  rw [function]
  refine (block_proper ?_).bind fun _ => (edit_proper (Edit.make_proper _)).bind fun _ => .pure _
  refine (params_proper _ _ ps).bind fun _ => (locals_proper _ decls).bind fun names => ?_
  refine (ofExcept_proper (bindFunctions_proper _ _ decls)).bind fun names =>
    (functions_proper names _ decls).bind fun _ => ?_
  exact (stmts_proper names body).bind fun _ => implicitReturn_proper.bind fun _ => .pure _

theorem functions_proper (names : Names) (path : String) (ds : List Decl) :
    Proper (functions names path ds) := by
  cases ds with
  | nil => exact .pure _
  | cons d ds =>
    cases d with
    | func f =>
      rw [functions]
      exact (function_proper names _ f).bind fun _ => (functions_proper names path ds).bind fun _ => .pure _
    | var v | global x | «nonlocal» x =>
      rw [functions]
      · exact functions_proper names path ds
      · exact nofun

end

theorem globals_proper (names : Names) (ds : List Decl) : Proper (globals names ds) := by
  induction ds generalizing names with
  | nil => exact .pure _
  | cons d ds ih =>
    cases d with
    | var v => exact (varDef_proper names v).bind fun names => ih names
    | _ => exact ih names

theorem checkTop_proper (ds : List Decl) : Outcome.Proper (checkTop ds) := by
  induction ds with
  | nil => exact .ok _
  | cons d ds ih =>
    cases d with
    | var v => exact ih
    | func f =>
      rw [checkTop]
      split
      · exact .fault rfl
      · exact ih
    | global x | «nonlocal» x => exact .fault rfl

theorem program_proper (p : Program) : Proper (program p) := by
  refine (block_proper ?_).bind fun _ => (edit_proper (Edit.make_proper _)).bind fun _ => edit_proper ?_
  · refine (globals_proper _ p.decls).bind fun names =>
      (ofExcept_proper (checkTop_proper p.decls)).bind fun _ => ?_
    refine (ofExcept_proper (bindFunctions_proper _ _ p.decls)).bind fun names =>
      (functions_proper names _ p.decls).bind fun _ => ?_
    exact (stmts_proper names p.stmts).bind fun _ => implicitReturn_proper.bind fun _ => .pure _
  · exact .forM fun _ => (Edit.updateOp_proper _ _).bind fun _ => Edit.update_proper _

end Build

theorem Module.ofProgram_proper (p : Program) : Outcome.Proper (Module.ofProgram p) := by
  unfold Module.ofProgram
  split
  · exact .ok _
  next e b he => exact .error (Build.program_proper p _ e b he)

namespace Build

theorem element_proper (sequence : ValueId) (ty : Ty) (index : ValueId) :
    Proper (element sequence ty index) := by
  unfold element
  split
  · exact character_proper _ _
  · exact emit_proper.bind fun _ => emit_proper
  · exact .internal _

theorem whileOfFor_proper (loop : OpId) (sequence target : ValueId) (ty : Ty) :
    Proper (whileOfFor loop sequence target ty) := by
  refine emit_proper.bind fun _ => emit_proper.bind fun _ => emitVoid_proper.bind fun _ => ?_
  refine (yielding_proper ?_).bind fun _ => (region_proper ?_).bind fun _ => emitVoid_proper
  · exact emit_proper.bind fun _ => emit_proper.bind fun _ => emit_proper
  · refine emit_proper.bind fun _ => (element_proper _ _ _).bind fun _ => emitVoid_proper.bind fun _ => ?_
    refine (edit_proper (Edit.takeRegion_proper _ _)).bind fun _ => (append_proper _).bind fun _ => ?_
    refine emit_proper.bind fun _ => emit_proper.bind fun _ => emit_proper.bind fun _ => ?_
    exact emitVoid_proper

end Build

namespace Edit

theorem replaceFor_proper (loop : OpId) : Proper (replaceFor loop) := by
  refine (op_proper loop).bind fun old => ?_
  split
  next sequence target _ =>
    refine (query_proper fun m => m.valueType_proper sequence).bind fun ty => ?_
    split
    · exact (Build.collect_proper (Build.whileOfFor_proper _ _ _ _)).bind fun _ => replaceOp_proper _ _ _
    · exact .internal _
  next => exact .internal _

theorem replaceLoops_proper : Proper replaceLoops :=
  (query_ok_proper _).bind fun _ => (Action.Proper.forM replaceFor_proper).bind fun _ => .pure _

theorem ofOp_proper (kind : Kind) (tys : List Ty) : Outcome.Proper (LibraryUse.ofOp kind tys) := by
  unfold LibraryUse.ofOp
  split
  · unfold LibraryUse.ofPrint
    split
    · exact .ok _
    · exact .ok _
    · exact .ok _
    · exact .fault rfl
  · exact .fault rfl
  · exact .ok _
  · exact .fault rfl
  · exact .ok _
  · exact .ok _
  · exact .ok _
  · exact .ok _

theorem replaceLibraryUse_proper (id : OpId) : Proper (replaceLibraryUse id) := by
  refine (op_proper id).bind fun old => (query_proper fun m => .mapM fun v => ?_).bind fun tys => ?_
  · exact (m.valueType_proper v).bind fun _ => .ok _
  · refine (query_proper fun _ => ofOp_proper _ _).bind fun use => ?_
    cases use with
    | keep => exact .pure _
    | call routine => exact (updateOp_proper _ _).bind fun _ => .pure _
    | negated routine =>
      refine ((op_proper id).bind fun _ => (Build.collect_proper ?_).bind fun _ =>
        replaceOp_proper _ _ _).bind fun _ => .pure _
      exact (Build.emit_proper).bind fun _ => Build.emit_proper

theorem replaceLibraryUses_proper : Proper replaceLibraryUses := by
  refine (query_ok_proper _).bind fun ids => .foldlM (fun count id => ?_) 0
  exact (query_ok_proper _).bind fun _ => .ite ((replaceLibraryUse_proper id).bind fun _ => .pure _) (.pure _)

end Edit

end IR

namespace Asm

open Outcome (Proper)
open IR (Module OpId ValueId FlatOp)

namespace Context

variable (ctx : Context)

theorem locate_proper (v : ValueId) : Proper (ctx.locate v) := by
  unfold locate
  split
  · exact .ok _
  · split
    · exact .ok _
    · exact .fault rfl

theorem load_proper (rd : Reg) (v : ValueId) : Proper (ctx.load rd v) :=
  (ctx.locate_proper v).bind fun _ => .ok _

theorem store_proper (src : Reg) (result : Option ValueId) : Proper (ctx.store src result) := by
  cases result with
  | none => exact .fault rfl
  | some v => exact (ctx.locate_proper v).bind fun _ => .ok _

theorem operand₁_proper (operands : List ValueId) : Proper (ctx.operand₁ operands) := by
  unfold operand₁
  split
  · exact .ok _
  · exact .fault rfl

theorem operand₂_proper (operands : List ValueId) : Proper (ctx.operand₂ operands) := by
  unfold operand₂
  split
  · exact .ok _
  · exact .fault rfl

theorem unary_proper (operands : List ValueId) (result : Option ValueId) (compute : Instr) :
    Proper (ctx.unary operands result compute) :=
  (ctx.operand₁_proper operands).bind fun _ => (ctx.load_proper _ _).bind fun _ =>
    (ctx.store_proper _ _).bind fun _ => .ok _

theorem loadTwo_proper (operands : List ValueId) : Proper (ctx.loadTwo operands) :=
  (ctx.operand₂_proper operands).bind fun _ => (ctx.load_proper _ _).bind fun _ =>
    (ctx.load_proper _ _).bind fun _ => .ok _

theorem loadArgs_proper (args : List (ValueId × Reg)) : Proper (ctx.loadArgs args) := by
  induction args with
  | nil => exact .ok _
  | cons arg args ih => exact (ctx.load_proper _ _).bind fun _ => ih.bind fun _ => .ok _

theorem flatCode_proper (id : OpId) (flat : FlatOp) (operands : List ValueId) (result : Option ValueId) :
    Proper (ctx.flatCode id flat operands result) := by
  cases flat with
  | label | jump => exact .ok _
  | li => exact (ctx.store_proper _ _).bind fun _ => .ok _
  | lw | addi | seqz | snez => exact ctx.unary_proper _ _ _
  | sw | branch => exact (ctx.loadTwo_proper _).bind fun _ => .ok _
  | alu => exact (ctx.loadTwo_proper _).bind fun _ => (ctx.store_proper _ _).bind fun _ => .ok _
  | call func =>
    simp only [flatCode]
    split
    · exact .fault rfl
    · refine (ctx.loadArgs_proper _).bind fun _ => ?_
      split
      · exact (ctx.store_proper _ _).bind fun _ => .ok _
      · exact .ok _
  | ret => exact (ctx.operand₁_proper _).bind fun _ => (ctx.load_proper _ _).bind fun _ => .ok _
  | alloc =>
    simp only [flatCode]
    split
    · exact (ctx.store_proper _ _).bind fun _ => .ok _
    · exact .fault rfl

theorem opCode_proper (id : OpId) : Proper (ctx.opCode id) := by
  refine (ctx.module.op_proper id).bind fun op => ?_
  split
  · exact (ctx.flatCode_proper _ _ _ _).bind fun _ => .ok _
  · exact .fault rfl

theorem prologue_proper (args : List ValueId) : Proper (ctx.prologue args) := by
  refine (Outcome.Proper.mapM fun arg => ?_).bind fun _ => .ok _
  cases hslot : ctx.frame.slot? arg.1 with
  | some offset =>
    simp only [hslot]
    exact .ok _
  | none =>
    simp only [hslot]
    exact .fault rfl

end Context

theorem functionName_proper (m : Module) (id : OpId) : Proper (functionName m id) := by
  refine (m.op_proper id).bind fun op => ?_
  split
  · exact .ok _
  · exact .fault rfl

theorem ofLists_proper (values : List ValueId) (allocs : List OpId) :
    Proper (Frame.ofLists values allocs) := by
  unfold Frame.ofLists
  split
  · exact .ok _
  · exact .fault rfl

theorem layout_proper (m : Module) (func : OpId) : Proper (Frame.layout m func) := by
  refine (m.op_proper func).bind fun op => ?_
  split
  · refine (Outcome.Proper.mapM fun id => m.op_proper id).bind fun _ => ?_
    exact ofLists_proper _ _
  · exact .fault rfl

theorem functionCode_proper (m : Module) (main : OpId) (global : Frame) (func : OpId) :
    Proper (functionCode m main global func) := by
  refine (functionName_proper m func).bind fun name => (m.op_proper func).bind fun op => ?_
  split
  next body _ =>
    have hcode (frame : Frame) : Proper (do
        let start ← (Context.mk m func name frame global).prologue body.args
        let code ← body.ops.mapM (Context.mk m func name frame global).opCode
        return start ++ code.flatten ++ (Context.mk m func name frame global).epilogue) :=
      (Context.prologue_proper _ _).bind fun _ =>
        (Outcome.Proper.mapM fun id => Context.opCode_proper _ id).bind fun _ => .ok _
    have hframe : Proper (do
        let frame ← if func = main then pure global else Frame.layout m func
        let start ← (Context.mk m func name frame global).prologue body.args
        let code ← body.ops.mapM (Context.mk m func name frame global).opCode
        return start ++ code.flatten ++ (Context.mk m func name frame global).epilogue) := by
      split
      · exact hcode global
      · exact (layout_proper m func).bind hcode
    refine .ite (.bind (.fault rfl) fun _ => hframe) hframe
  · exact .fault rfl

theorem ofModule_proper (heapSize : UInt32) (m : Module) : Proper (Assembly.ofModule heapSize m) := by
  unfold Assembly.ofModule
  split
  next main _ =>
    refine (layout_proper m main).bind fun global => (Outcome.Proper.mapM fun func => ?_).bind fun _ => .ok _
    refine (functionName_proper m func).bind fun name => ?_
    exact .ite (.bind (.fault rfl) fun _ => functionCode_proper m main global func)
      (functionCode_proper m main global func)
  · exact .fault rfl

end Asm

end Choco
