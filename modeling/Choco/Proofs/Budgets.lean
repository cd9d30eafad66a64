import Choco.Eval.Program
import Choco.Machine.Run
import Choco.Proofs.Actions

namespace Choco

def Error.isCutOff : Error → Bool
  | .executionLimit _ | .callDepth _ => true
  | _ => false

namespace Eval

variable {α β : Type} {cfg cfg' : Config} {caller caller' : Caller}

structure Config.Within (cfg cfg' : Config) : Prop where
  stdin : cfg'.stdin = cfg.stdin
  maxSteps : cfg.maxSteps ≤ cfg'.maxSteps
  maxDepth : cfg.maxDepth ≤ cfg'.maxDepth

def Prolongs (y x : Script α) : Prop := ∀ s, (∃ e s', x.run s = .error e s' ∧ e.isCutOff = true) ∨
    y.run s = x.run s

def Caller.Prolongs (caller' caller : Caller) : Prop :=
  ∀ record name args, Eval.Prolongs (caller' record name args) (caller record name args)

namespace Prolongs

variable {p : Prop} {e : Error}

theorem refl (x : Script α) : Prolongs x x := fun _ => .inr rfl

theorem bind {x y : Script α} {f g : α → Script β} (h : Prolongs y x) (hf : ∀ a, Prolongs (g a) (f a)) :
    Prolongs (y >>= g) (x >>= f) := by
  intro s
  rcases h s with ⟨e, s', hx, he⟩ | hy
  · exact .inl ⟨e, s', Action.bind_error hx, he⟩
  · cases hx : x.run s with
    | ok a s' =>
      have hleft : (y >>= g).run s = (g a).run s' := Action.bind_ok (hy.trans hx)
      have hright : (x >>= f).run s = (f a).run s' := Action.bind_ok hx
      rw [hleft, hright]
      exact hf a s'
    | error e s' => exact .inr ((Action.bind_error (hy.trans hx)).trans (Action.bind_error hx).symm)

theorem bind_right (x : Script α) {f g : α → Script β} (hf : ∀ a, Prolongs (g a) (f a)) :
    Prolongs (x >>= g) (x >>= f) :=
  (refl x).bind hf

theorem bind_left {x y : Script α} (h : Prolongs y x) (f : α → Script β) : Prolongs (y >>= f) (x >>= f) :=
  h.bind fun _ => refl _

theorem ite [Decidable p] {x y x' y' : Script α} (h : Prolongs y x) (h' : Prolongs y' x') :
    Prolongs (if p then y else y') (if p then x else x') := by
  split
  · exact h
  · exact h'

theorem bracket (opens : Eval β) (closes : β → State → State) {x y : β → Script α}
    (h : ∀ b, Prolongs (y b) (x b)) :
    Prolongs (.bracket opens closes y) (.bracket opens closes x) := by
  intro s
  simp only [Script.run]
  cases hopens : opens s with
  | ok b s' =>
    rw [Action.bind_ok hopens, Action.bind_ok hopens]
    rcases h b s' with ⟨e, t, hx, he⟩ | hy
    · exact .inl ⟨e, closes b t, by simp only [ensure, hx], he⟩
    · exact .inr (by simp only [ensure, hy])
  | error e s' => exact .inr ((Action.bind_error hopens).trans (Action.bind_error hopens).symm)

theorem check [Decidable p] {f g : Unit → Script α} (h : Prolongs (g ()) (f ())) :
    Prolongs (if p then Script.fail e >>= g else g ()) (if p then Script.fail e >>= f else f ()) := by
  split
  · exact fun _ => .inr rfl
  · exact h

theorem of_fail (he : e.isCutOff = true) (y : Script α) : Prolongs y (.fail e) :=
  fun s => .inl ⟨e, s, rfl, he⟩

end Prolongs

theorem tick_prolongs (h : cfg.Within cfg') : Prolongs (.act (tick cfg')) (.act (tick cfg)) := by
  intro s
  simp only [Script.run, tick]
  by_cases hs : s.steps + 1 > cfg.maxSteps
  · exact .inl ⟨_, _, if_pos hs, rfl⟩
  · have hs' : ¬ s.steps + 1 > cfg'.maxSteps := by have := h.maxSteps; omega
    exact .inr ((if_neg hs').trans (if_neg hs).symm)

theorem checkDepth_prolongs (h : cfg.Within cfg') :
    Prolongs (.act (checkDepth cfg')) (.act (checkDepth cfg)) := by
  intro s
  simp only [Script.run, checkDepth]
  by_cases hs : s.depth ≥ cfg.maxDepth
  · exact .inl ⟨_, _, if_pos hs, rfl⟩
  · have hs' : ¬ s.depth ≥ cfg'.maxDepth := by have := h.maxDepth; omega
    exact .inr ((if_neg hs').trans (if_neg hs).symm)

mutual

theorem expr_prolongs (h : caller'.Prolongs caller) (record : Nat) :
    (e : Expr) → Prolongs (expr caller' record e) (expr caller record e)
  | .literal value ty => by simpa only [expr] using .refl _
  | .name x ty => by simpa only [expr] using .refl _
  | .unary op operand ty => by
    simp only [expr]
    exact (expr_prolongs h record operand).bind_left _
  | .binary op lhs rhs ty => by
    simp only [expr]
    refine (expr_prolongs h record lhs).bind fun a => ?_
    have hrhs := expr_prolongs h record rhs
    split
    · exact .bind_right _ fun b => hrhs.ite (.refl _)
    · exact .bind_right _ fun b => .ite (.refl _) hrhs
    · exact hrhs.bind_left _
  | .ifExpr cond onTrue onFalse ty => by
    simp only [expr]
    refine (expr_prolongs h record cond).bind fun c => .bind_right _ fun b => ?_
    exact (expr_prolongs h record onTrue).ite (expr_prolongs h record onFalse)
  | .list elems ty => by
    simp only [expr]
    exact (exprs_prolongs h record elems).bind_left _
  | .index base position ty => by
    simp only [expr]
    exact (expr_prolongs h record base).bind fun b => (expr_prolongs h record position).bind_left _
  | .call func args ty => by
    simp only [expr]
    exact (exprs_prolongs h record args).bind fun values => h record func values

theorem exprs_prolongs (h : caller'.Prolongs caller) (record : Nat) :
    (es : List Expr) → Prolongs (exprs caller' record es) (exprs caller record es)
  | [] => by simpa only [exprs] using .refl _
  | e :: es => by
    simp only [exprs]
    exact (expr_prolongs h record e).bind fun v => (exprs_prolongs h record es).bind_left _

end

theorem location_prolongs (h : caller'.Prolongs caller) (record : Nat) (target : Expr) :
    Prolongs (location caller' record target) (location caller record target) := by
  unfold location
  split
  · exact .refl _
  · exact (expr_prolongs h record _).bind fun b => (expr_prolongs h record _).bind_left _
  · exact .refl _

theorem locations_prolongs (h : caller'.Prolongs caller) (record : Nat) (targets : List Expr) :
    Prolongs (locations caller' record targets) (locations caller record targets) := by
  induction targets with
  | nil => exact .refl _
  | cons target targets ih => exact (location_prolongs h record target).bind fun l => ih.bind_left _

theorem assign_prolongs (h : caller'.Prolongs caller) (record : Nat) (a : Assign) :
    Prolongs (assign caller' record a) (assign caller record a) :=
  (expr_prolongs h record a.value).bind fun _ => (locations_prolongs h record a.targets).bind_left _

/-- A loop that runs out of fuel fails like one that spends its steps, so that the two loops may have
different fuel. -/
theorem loop_prolongs (h : cfg.Within cfg') {turn turn' : Nat → Script (Option Flow)}
    (hturn : ∀ i, Prolongs (turn' i) (turn i)) {fuel fuel' : Nat} (hfuel : fuel ≤ fuel') (i : Nat) :
    Prolongs (loop cfg' turn' fuel' i) (loop cfg turn fuel i) := by
  induction fuel generalizing fuel' i with
  | zero => exact .of_fail rfl _
  | succ fuel ih =>
    obtain ⟨fuel', rfl⟩ : ∃ n, fuel' = n + 1 := ⟨fuel' - 1, by omega⟩
    refine (tick_prolongs h).bind fun _ => (hturn i).bind fun flow => ?_
    match flow with
    | none | some (.ret v) => exact .refl _
    | some .next => exact ih (by omega) (i + 1)

mutual

theorem stmt_prolongs (h : cfg.Within cfg') (hc : caller'.Prolongs caller) (record : Nat) :
    (s : Stmt) → Prolongs (stmt cfg' caller' record s) (stmt cfg caller record s)
  | .expr value => by
    simp only [stmt]
    exact (expr_prolongs hc record value).bind_left _
  | .assign a => by
    simp only [stmt]
    exact (assign_prolongs hc record a).bind_left _
  | .ret none | .pass => by simpa only [stmt] using .refl _
  | .ret (some value) => by
    simp only [stmt]
    exact (expr_prolongs hc record value).bind_left _
  | .ifElse cond onTrue onFalse => by
    simp only [stmt]
    refine (expr_prolongs hc record cond).bind fun c => .bind_right _ fun b => ?_
    exact (block_prolongs h hc record onTrue).ite (block_prolongs h hc record onFalse)
  | .whileLoop cond body => by
    simp only [stmt]
    refine loop_prolongs h (fun i => ?_) (Nat.succ_le_succ h.maxSteps) 0
    refine (expr_prolongs hc record cond).bind fun c => .bind_right _ fun b => ?_
    exact ((block_prolongs h hc record body).bind_left _).ite (.refl _)
  | .forLoop target iter body => by
    simp only [stmt]
    refine (expr_prolongs hc record iter).bind fun seq => ?_
    refine loop_prolongs h (fun i => .bind_right _ fun length => ?_) (Nat.succ_le_succ h.maxSteps) 0
    refine .ite (.bind_right _ fun v => .bind_right _ fun _ => ?_) (.refl _)
    exact (block_prolongs h hc record body).bind_left _

theorem block_prolongs (h : cfg.Within cfg') (hc : caller'.Prolongs caller) (record : Nat) :
    (ss : List Stmt) → Prolongs (block cfg' caller' record ss) (block cfg caller record ss)
  | [] => by simpa only [block] using .refl _
  | s :: rest => by
    simp only [block]
    refine (stmt_prolongs h hc record s).bind fun flow => ?_
    match flow with
    | .next => exact block_prolongs h hc record rest
    | .ret v => exact .refl _

end

theorem invoke_prolongs (h : cfg.Within cfg') (hc : caller'.Prolongs caller) (callee : Nat) (func : FuncDef)
    (args : List Value) : Prolongs (invoke cfg' caller' callee func args)
    (invoke cfg caller callee func args) :=
  .bind_right _ fun _ => .bind_right _ fun _ => (block_prolongs h hc callee func.body).bind_left _

theorem builtin?_within (h : cfg.Within cfg') (name : String) (args : List Value) :
    builtin? cfg' name args = builtin? cfg name args := by
  unfold builtin?
  split
  · rfl
  · rfl
  · simp only [input, h.stdin]
  · rfl

theorem call_prolongs (h : cfg.Within cfg') {room room' : Nat} (hroom : room ≤ room') :
    (call cfg' room').Prolongs (call cfg room) := by
  induction room generalizing room' with
  | zero =>
    intro record name args
    simp only [call, builtin?_within h]
    split
    · exact .refl _
    · refine .bind_right _ fun s => ?_
      split
      · exact .refl _
      · exact .check ((checkDepth_prolongs h).bind fun _ => .of_fail rfl _)
  | succ room ih =>
    obtain ⟨room', rfl⟩ : ∃ n, room' = n + 1 := ⟨room' - 1, by omega⟩
    intro record name args
    simp only [call, builtin?_within h]
    split
    · exact .refl _
    · refine .bind_right _ fun s => ?_
      split
      · exact .refl _
      · refine .check ((checkDepth_prolongs h).bind fun _ => (tick_prolongs h).bind fun _ => ?_)
        exact .bracket _ _ fun callee => invoke_prolongs h (ih (by omega)) callee _ args

theorem program_prolongs (h : cfg.Within cfg') (p : Program) : Prolongs (program cfg' p) (program cfg p) :=
  .bind_right _ fun _ =>
    (block_prolongs h (call_prolongs h h.maxDepth) Environment.global p.stmts).bind_left _

end Eval

theorem Program.interpret_within {cfg cfg' : Eval.Config} (h : cfg.Within cfg') (p : Program) :
    (∃ e, p.interpret cfg = .error e ∧ e.isCutOff = true) ∨ p.interpret cfg' = p.interpret cfg := by
  unfold interpret
  rcases Eval.program_prolongs h p {} with ⟨e, s, hx, he⟩ | hy
  · refine .inl ⟨e, ?_, he⟩
    rw [hx]
    cases e with
    | program trap => cases he
    | _ => rfl
  · exact .inr (by rw [hy])

/-- The machine counts steps one by one, so that a run that ends within `n` of them ends alike within
more. -/
theorem Machine.runFor_within (code : Array Line) (stdin : Array UInt8) (limit limit' : Nat) {n n' : Nat}
    (h : n ≤ n') (m : Machine) :
    (∃ k, runFor code stdin limit n m = .error (.executionLimit k)) ∨
      runFor code stdin limit' n' m = runFor code stdin limit n m := by
  induction n generalizing n' m with
  | zero => exact .inl ⟨limit, rfl⟩
  | succ n ih =>
    obtain ⟨n', rfl⟩ : ∃ k, n' = k + 1 := ⟨n' - 1, by omega⟩
    simp only [runFor]
    cases m.step code stdin with
    | next m' => exact ih (by omega) m'
    | exit code m' => exact .inr rfl
    | fault e m' => exact .inr rfl

/-- Larger budgets change nothing about a run that ends within its own: neither of the evaluator, whose
budgets count loop turns and calls and bound the nesting of calls, nor of the machine. -/
theorem budgets_only_cut_off (stdin : Array UInt8) {n n' d d' : Nat} (hn : n ≤ n') (hd : d ≤ d') :
    (∀ p : Program, (∀ k, p.interpret ⟨stdin, n, d⟩ ≠ .error (.executionLimit k)) →
      (∀ k, p.interpret ⟨stdin, n, d⟩ ≠ .error (.callDepth k)) →
      p.interpret ⟨stdin, n', d'⟩ = p.interpret ⟨stdin, n, d⟩) ∧
    ∀ a : Asm.Assembly, (∀ k, a.run stdin n ≠ .error (.executionLimit k)) →
      a.run stdin n' = a.run stdin n := by
  constructor
  · intro p hsteps hdepth
    have hwithin : Eval.Config.Within ⟨stdin, n, d⟩ ⟨stdin, n', d'⟩ := ⟨rfl, hn, hd⟩
    rcases p.interpret_within hwithin with ⟨e, he, hcut⟩ | h
    · cases e with
      | executionLimit k => exact absurd he (hsteps k)
      | callDepth k => exact absurd he (hdepth k)
      | _ => cases hcut
    · exact h
  · intro a hsteps
    unfold Asm.Assembly.run at hsteps ⊢
    cases hload : Machine.Image.load a with
    | error e => rfl
    | ok image =>
      rw [hload] at hsteps
      rcases Machine.runFor_within image.code stdin n n' hn (.ofImage image) with ⟨k, hk⟩ | h
      · exact absurd hk (hsteps k)
      · exact h

/-- A call that counts to two: one step for the call and three for the tests of its loop. -/
def countToTwo : Program :=
  let x : Expr := .name "x" .int
  let count : FuncDef := .ofBody "count" [⟨"x", .int⟩] .int
    [.whileLoop (.binary .lt x (.ofInt 2) .bool) [.assign ⟨x, [], .binary .add x (.ofInt 1) .int⟩],
      .ret (some x)]
  { decls := [.func count], stmts := [.print (.call "count" [.ofInt 0] .int)] }

def exitWithThree : Asm.Assembly :=
  { data := [], heapSize := 0,
    text := [.label Library.start, .li .a0 3, .li .a7 Asm.SystemCall.exit, .ecall] }

theorem countToTwo_within_more :
    (4 ≤ 9 ∧ 1 ≤ 5) ∧
    (countToTwo.interpret ⟨#[], 4, 1⟩ = .ok ⟨"2\n", 0⟩ ∧ countToTwo.interpret ⟨#[], 9, 5⟩ = .ok ⟨"2\n", 0⟩) ∧
    exitWithThree.run #[] 4 = .ok ⟨"", 3⟩ ∧ exitWithThree.run #[] 9 = .ok ⟨"", 3⟩ := by
  have hp : countToTwo.interpret ⟨#[], 4, 1⟩ = .ok ⟨"2\n", 0⟩ := by decide +kernel
  have ha : exitWithThree.run #[] 4 = .ok ⟨"", 3⟩ := rfl
  have hle : 4 ≤ 9 ∧ 1 ≤ 5 := by decide
  obtain ⟨hinterpret, hrun⟩ := budgets_only_cut_off #[] hle.1 hle.2
  have hp' := hinterpret countToTwo (by simp [hp]) (by simp [hp])
  have ha' := hrun exitWithThree (by simp [ha])
  exact ⟨hle, ⟨hp, hp'.trans hp⟩, ha, ha'.trans ha⟩

end Choco
