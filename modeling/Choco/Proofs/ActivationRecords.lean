import Choco.Eval.Program
import Choco.Proofs.Actions
import Choco.Proofs.RecordStack

namespace Choco

/-- The failure of a search for a record that does not exist. -/
def Error.isLost : Error → Bool
  | .internal (.noRecord _) => true
  | _ => false

namespace Eval

variable {α β : Type} {s t : State} {e : Error}

/-- The state that an action leaves behind. -/
def final (x : Eval α) (s : State) : State :=
  match x s with
  | .ok _ t => t
  | .error _ t => t

/-- An action that has to do with records and calls neither in what it changes nor in how it fails. -/
structure Quiet (x : Eval α) : Prop where
  kept : ∀ s, (final x s).env = s.env ∧ (final x s).depth = s.depth
  finds : ∀ {s e t}, x s = .error e t → e.isLost = false

theorem final_ok {x : Eval α} {a : α} (h : x s = .ok a t) : final x s = t := by rw [final, h]

theorem final_error {x : Eval α} (h : x s = .error e t) : final x s = t := by rw [final, h]

namespace Quiet

variable {cfg : Config}

theorem pure (a : α) : Quiet (pure a) := ⟨fun _ => ⟨rfl, rfl⟩, fun h => by cases h⟩

theorem throw (h : e.isLost = false) : Quiet (throw e : Eval α) :=
  ⟨fun _ => ⟨rfl, rfl⟩, fun he => by cases he; exact h⟩

theorem bind {x : Eval α} {f : α → Eval β} (h : Quiet x) (hf : ∀ a, Quiet (f a)) : Quiet (x >>= f) := by
  refine ⟨fun s => ?_, fun {s e t} he => ?_⟩
  · obtain ⟨henv, hdepth⟩ := h.kept s
    cases hx : x s with
    | ok a t =>
      rw [final_ok hx] at henv hdepth
      obtain ⟨henv', hdepth'⟩ := (hf a).kept t
      rw [final, Action.bind_ok hx]
      exact ⟨henv'.trans henv, hdepth'.trans hdepth⟩
    | error e t =>
      rw [final_error hx] at henv hdepth
      rw [final, Action.bind_error hx]
      exact ⟨henv, hdepth⟩
  · cases hx : x s with
    | ok a t => exact (hf a).finds ((Action.bind_ok hx).symm.trans he)
    | error e t =>
      cases (Action.bind_error hx).symm.trans he
      exact h.finds hx

theorem ofExcept_bind {x : Except Error α} {f : α → Except Error β} (h : Quiet (Eval.ofExcept x))
    (hf : ∀ a, Quiet (Eval.ofExcept (f a))) :
    Quiet (Eval.ofExcept (x >>= f)) := by
  cases x with
  | ok a => exact hf a
  | error e => exact .throw (h.finds (s := {}) rfl)

theorem modify {f : State → State} (h : ∀ s, (f s).env = s.env ∧ (f s).depth = s.depth) :
    Quiet (modify f : Eval Unit) :=
  ⟨h, fun he => by cases he⟩

theorem get : Quiet (get : Eval State) := ⟨fun _ => ⟨rfl, rfl⟩, fun h => by cases h⟩

theorem findFunction (record : Nat) (name : String) : Quiet (findFunction record name) :=
  ⟨fun _ => ⟨rfl, rfl⟩, fun h => by cases h⟩

theorem tick (cfg : Config) : Quiet (tick cfg) := by
  refine ⟨fun s => ?_, fun {s e t} he => ?_⟩
  · by_cases hs : s.steps + 1 > cfg.maxSteps
    · rw [final_error (x := Eval.tick cfg) (if_pos hs)]
      exact ⟨rfl, rfl⟩
    · rw [final_ok (x := Eval.tick cfg) (if_neg hs)]
      exact ⟨rfl, rfl⟩
  · unfold Eval.tick at he
    dsimp only at he
    split at he
    next =>
      cases he
      rfl
    next => cases he

theorem checkDepth (cfg : Config) : Quiet (checkDepth cfg) := by
  refine ⟨fun s => ?_, fun {s e t} he => ?_⟩
  · by_cases hs : s.depth ≥ cfg.maxDepth
    · rw [final_error (x := Eval.checkDepth cfg) (if_pos hs)]
      exact ⟨rfl, rfl⟩
    · rw [final_ok (x := Eval.checkDepth cfg) (if_neg hs)]
      exact ⟨rfl, rfl⟩
  · unfold Eval.checkDepth at he
    split at he
    next =>
      cases he
      rfl
    next => cases he

theorem newString (bytes : Array UInt8) : Quiet (newString bytes) :=
  ⟨fun _ => ⟨rfl, rfl⟩, fun h => by cases h⟩

theorem newList (elems : Array Value) : Quiet (newList elems) := ⟨fun _ => ⟨rfl, rfl⟩, fun h => by cases h⟩

theorem newLiteral (literal : Literal) : Quiet (newLiteral literal) :=
  ⟨fun _ => ⟨rfl, rfl⟩, fun h => by cases h⟩

theorem elems (object : Nat) : Quiet (elems object) := ⟨fun _ => ⟨rfl, rfl⟩, fun h => by cases h⟩

theorem setElem (object index : Nat) (value : Value) : Quiet (setElem object index value) :=
  .modify fun _ => ⟨rfl, rfl⟩

theorem asInt (v : Value) : Quiet (Eval.ofExcept v.asInt) := by
  cases v with
  | int n => exact .pure n
  | _ => exact .throw rfl

theorem asBool (v : Value) : Quiet (Eval.ofExcept v.asBool) := by
  cases v with
  | bool b => exact .pure b
  | _ => exact .throw rfl

theorem checkedIndex (index : Int32) (length : Nat) : Quiet (Eval.ofExcept (checkedIndex index length)) := by
  unfold Eval.checkedIndex
  split
  · exact .pure _
  · exact .throw rfl

theorem len (v : Value) : Quiet (len v) := by
  cases v with
  | str object bytes => exact .pure _
  | list object => exact .bind (.elems object) fun _ => .pure _
  | _ => exact .throw rfl

theorem element (v : Value) (index : Nat) : Quiet (element v index) := by
  cases v with
  | str object bytes => exact .newString _
  | list object => exact .bind (.elems object) fun _ => .pure _
  | _ => exact .throw rfl

theorem print (v : Value) : Quiet (print v) := by
  cases v with
  | none | list => exact .throw rfl
  | _ => exact .modify fun _ => ⟨rfl, rfl⟩

theorem input (cfg : Config) : Quiet (input cfg) :=
  .bind .get fun _ => .bind (.modify fun _ => ⟨rfl, rfl⟩) fun _ => .newString _

theorem unary (op : UnaryOp) (v : Value) : Quiet (Eval.ofExcept (unary op v)) := by
  cases op with
  | neg => exact .ofExcept_bind (.asInt v) fun _ => .pure _
  | not => exact .ofExcept_bind (.asBool v) fun _ => .pure _

theorem onInts {f : Int32 → Int32 → Except Error Value} (hf : ∀ x y, Quiet (Eval.ofExcept (f x y)))
    (a b : Value) :
    Quiet (Eval.ofExcept (onInts f a b)) :=
  .ofExcept_bind (.asInt a) fun x => .ofExcept_bind (.asInt b) fun y => hf x y

theorem trapIfNone (n : Option Int32) : Quiet (Eval.ofExcept (Value.int <$> trapIfNone n)) := by
  cases n with
  | none => exact .throw rfl
  | some n => exact .pure _

theorem plus (a b : Value) : Quiet (plus a b) := by
  unfold Eval.plus
  split
  · exact .pure _
  · exact .newString _
  · exact .bind (.elems _) fun _ => .bind (.elems _) fun _ => .newList _
  · exact .throw rfl

theorem binary (op : BinaryOp) (a b : Value) : Quiet (binary op a b) := by
  cases op with
  | add => exact .plus a b
  | floorDiv | mod => exact .onInts (fun _ _ => .trapIfNone _) a b
  | eq | notEq | is => exact .pure _
  | and | or => exact .throw rfl
  | _ => exact .onInts (fun _ _ => .pure _) a b

theorem index (base position : Value) : Quiet (index base position) := by
  refine .bind (.asInt position) fun i => ?_
  dsimp only
  split
  · exact .bind (.throw rfl) fun _ => .bind (.len base) fun n => .bind (.checkedIndex i n) fun j =>
      .element base j
  · exact .bind (.len base) fun n => .bind (.checkedIndex i n) fun j => .element base j

theorem builtin {name : String} {args : List Value} {action : Eval Value}
    (h : builtin? cfg name args = some action) : Quiet action := by
  unfold builtin? at h
  split at h
  next v =>
    cases h
    exact .bind (.print v) fun _ => .pure _
  next v =>
    cases h
    refine .bind (.len v) fun n => ?_
    split
    · exact .pure _
    · exact .throw rfl
  next =>
    cases h
    exact .input cfg
  next => cases h

end Quiet

/-- Inside `k` calls there are their records, and the depth is right. -/
structure State.Inside (cfg : Config) (k : Nat) (s : State) : Prop where
  records : s.env.Stacked k
  depth : s.depth = k
  bound : k ≤ cfg.maxDepth

/-- The same calls are active, and the records below `n` have kept what was declared in them. -/
structure State.Kept (n : Nat) (s t : State) : Prop where
  records : s.env.Kept n t.env
  depth : t.depth = s.depth

namespace State

variable {cfg : Config} {k n : Nat} {u : State}

theorem Kept.inside (h : s.Kept n t) (hs : s.Inside cfg k) : t.Inside cfg k :=
  ⟨h.records.stacked hs.records, h.depth.trans hs.depth, hs.bound⟩

theorem Kept.refl (n : Nat) (s : State) : s.Kept n s := ⟨.refl n s.env, rfl⟩

theorem Kept.trans (h : s.Kept n t) (h' : t.Kept n u) : s.Kept n u :=
  ⟨h.records.trans h'.records, h'.depth.trans h.depth⟩

theorem Kept.mono (h : s.Kept n t) (hk : k ≤ n) : s.Kept k t := ⟨h.records.mono hk, h.depth⟩

end State

namespace Script

/-- The run of a script from a state comes to that of a part of it, inside so many more calls. -/
inductive Reaches : {α β : Type} → Script α → State → (calls : Nat) → Script β → State → Prop
  | here {α : Type} {x : Script α} {s : State} : Reaches x s 0 x s
  | first {α β γ : Type} {x : Script α} {f : α → Script β} {y : Script γ} {s t : State} {d : Nat} :
      Reaches x s d y t → Reaches (.seq x f) s d y t
  | rest {α β γ : Type} {x : Script α} {f : α → Script β} {y : Script γ} {a : α} {s s' t : State} {d : Nat} :
      x.run s = .ok a s' → Reaches (f a) s' d y t → Reaches (.seq x f) s d y t
  | inside {α β γ : Type} {opens : Eval β} {closes : β → State → State} {body : β → Script α} {y : Script γ}
      {b : β} {s s' t : State} {d : Nat} :
      opens s = .ok b s' → Reaches (body b) s' d y t → Reaches (.bracket opens closes body) s (d + 1) y t

theorem Reaches.trans {β γ : Type} {x : Script α} {y : Script β} {z : Script γ} {s t u : State} {d e : Nat}
    (h : x.Reaches s d y t) (h' : y.Reaches t e z u) : x.Reaches s (d + e) z u := by
  induction h with
  | here => rwa [Nat.zero_add]
  | first _ ih => exact .first (ih h')
  | rest hx _ ih => exact .rest hx (ih h')
  | inside hopens _ ih =>
    rw [Nat.add_right_comm]
    exact .inside hopens (ih h')

/-- A run of the script inside `k` calls goes well, and so do those of its parts: of the records the first
`k + b` keep what was declared in them. -/
structure Sound (cfg : Config) (b k : Nat) (x : Script α) : Prop where
  kept : ∀ {s : State}, s.Inside cfg k → s.Kept (k + b) (final x.run s)
  finds : ∀ {s t : State} {e : Error}, s.Inside cfg k → x.run s = .error e t → e.isLost = false
  reaches : ∀ {γ : Type} {y : Script γ} {s t : State} {d : Nat}, s.Inside cfg k → x.Reaches s d y t →
    t.Inside cfg (k + d) ∧ t.Kept (k + d) (final y.run t)

section Rules

variable {cfg : Config} {b k : Nat} {x y : Script α} {f : Environment → Except Error Environment}
  {owner : Nat} {p : Prop}

theorem final_updateEnv {env : Environment} (h : f s.env = .ok env) :
    final (updateEnv f) s = { s with env } := by
  unfold final updateEnv
  rw [h]

theorem updateEnv_error (h : f s.env = .error e) : updateEnv f s = .error e s := by
  unfold updateEnv
  rw [h]

theorem final_congr {x y : Eval α} {s t : State} (h : x s = y t) : final x s = final y t := by
  rw [final, h, final]

theorem final_ensure (tidy : State → State) (x : Eval α) (s : State) :
    final (ensure tidy x) s = tidy (final x s) := by
  unfold final ensure
  cases x s <;> rfl

theorem error_of_ensure {tidy : State → State} {x : Eval α} (h : ensure tidy x s = .error e t) :
    ∃ t', x s = .error e t' := by
  unfold ensure at h
  split at h
  next => cases h
  next e' t' ht' =>
    cases h
    exact ⟨t', ht'⟩

theorem depth_lt_of_checkDepth {u : Unit} (h : checkDepth cfg s = .ok u t) : s.depth < cfg.maxDepth := by
  unfold checkDepth at h
  split at h
  next => cases h
  next hs => exact Nat.lt_of_not_le hs

/-- The state in which a call starts. -/
def entered (owner : Nat) (s : State) : State := { s with env := (s.env.push owner).2, depth := s.depth + 1 }

namespace Sound

theorem act {x : Eval α} (hkept : ∀ s : State, s.Inside cfg k → s.Kept (k + b) (final x s))
    (hfinds : ∀ (s t : State) (e : Error), s.Inside cfg k → x s = .error e t → e.isLost = false) :
    Sound cfg b k (.act x) := by
  refine ⟨hkept _, hfinds _ _ _, fun {_ y s t d} hs hreaches => ?_⟩
  cases hreaches with
  | here => exact ⟨hs, (hkept s hs).mono (Nat.le_add_right k b)⟩

theorem quiet {x : Eval α} (h : Quiet x) : Sound cfg b k (.act x) := by
  refine .act (fun s _ => ?_) fun _ _ _ _ he => h.finds he
  obtain ⟨henv, hdepth⟩ := h.kept s
  exact ⟨henv.symm ▸ .refl _ s.env, hdepth⟩

theorem pure (a : α) : Sound cfg b k (Pure.pure a) := .quiet (.pure a)

theorem fail (he : e.isLost = false) : Sound cfg b k (Script.fail e : Script α) := .quiet (.throw he)

theorem read (name : String) : Sound cfg b k (.act (getVar k name)) := by
  have hread (s : State) (hs : s.Inside cfg k) :
      (∃ v, getVar k name s = .ok v s) ∨ getVar k name s = .error (.undefinedName name) s := by
    unfold getVar
    obtain ⟨v, hv⟩ | he := hs.records.get name
    · exact .inl ⟨v, by rw [hv]⟩
    · exact .inr (by rw [he])
  refine .act (fun s hs => ?_) fun s t e hs he => ?_
  · obtain ⟨v, hv⟩ | he := hread s hs
    · rw [final_ok hv]
      exact .refl _ s
    · rw [final_error he]
      exact .refl _ s
  · obtain ⟨v, hv⟩ | he' := hread s hs
    · cases hv.symm.trans he
    · cases he'.symm.trans he
      rfl

theorem update (hf : ∀ env : Environment, env.Stacked k →
      (∃ env', f env = .ok env' ∧ env.Kept (k + b) env') ∨ ∃ e, f env = .error e ∧ e.isLost = false) :
    Sound cfg b k (.act (updateEnv f)) := by
  refine .act (fun s hs => ?_) fun s t e hs he => ?_
  · obtain ⟨env', henv, hkept⟩ | ⟨e, he, -⟩ := hf s.env hs.records
    · rw [final_updateEnv henv]
      exact ⟨hkept, rfl⟩
    · rw [final_error (updateEnv_error he)]
      exact .refl _ s
  · obtain ⟨env', henv, -⟩ | ⟨e', he', hlost⟩ := hf s.env hs.records
    · unfold updateEnv at he
      rw [henv] at he
      cases he
    · cases (updateEnv_error he').symm.trans he
      exact hlost

theorem write (name : String) (value : Value) : Sound cfg b k (.act (setVar k name value)) :=
  .update fun _ henv => (henv.set _).imp_right fun he => ⟨_, he, rfl⟩

theorem edit {f : Record → Record} (hf : ∀ r, (f r).parent = r.parent) :
    Sound cfg 0 k (.act (updateEnv fun env => env.update k f)) :=
  .update fun _ henv =>
    .inl ⟨_, henv.update (Nat.le_refl k) f,
      Environment.kept_modify hf fun hlt => absurd hlt (Nat.lt_irrefl k)⟩

theorem bind_of {f : α → Script β} (h : Sound cfg b k x)
    (hf : ∀ {s t : State} {a : α}, s.Inside cfg k → x.run s = .ok a t → Sound cfg b k (f a)) :
    Sound cfg b k (x >>= f) := by
  have hmiddle {s t : State} {a : α} (hs : s.Inside cfg k) (hx : x.run s = .ok a t) : s.Kept (k + b) t :=
    final_ok hx ▸ h.kept hs
  have hkept {s : State} (hs : s.Inside cfg k) : s.Kept (k + b) (final (x >>= f).run s) := by
    cases hx : x.run s with
    | ok a t =>
      have hrun : (x >>= f).run s = (f a).run t := Action.bind_ok hx
      rw [final, hrun]
      exact (hmiddle hs hx).trans ((hf hs hx).kept ((hmiddle hs hx).inside hs))
    | error e t =>
      have hrun : (x >>= f).run s = .error e t := Action.bind_error hx
      rw [final, hrun]
      exact final_error hx ▸ h.kept hs
  refine ⟨hkept, fun {s t e} hs he => ?_, fun {_ y s t d} hs hreaches => ?_⟩
  · cases hx : x.run s with
    | ok a t' => exact (hf hs hx).finds ((hmiddle hs hx).inside hs) ((Action.bind_ok hx).symm.trans he)
    | error e' t' =>
      cases (Action.bind_error hx).symm.trans he
      exact h.finds hs hx
  · cases hreaches with
    | here => exact ⟨hs, (hkept hs).mono (Nat.le_add_right k b)⟩
    | first hfirst => exact h.reaches hs hfirst
    | rest hx hrest => exact (hf hs hx).reaches ((hmiddle hs hx).inside hs) hrest

theorem bind {f : α → Script β} (h : Sound cfg b k x) (hf : ∀ a, Sound cfg b k (f a)) :
    Sound cfg b k (x >>= f) :=
  h.bind_of fun _ _ => hf _

theorem map (h : Sound cfg b k x) (f : α → β) : Sound cfg b k (f <$> x) := h.bind fun a => .pure (f a)

theorem ite [Decidable p] (h : Sound cfg b k x) (h' : Sound cfg b k y) :
    Sound cfg b k (if p then x else y) := by
  split
  · exact h
  · exact h'

theorem check [Decidable p] (he : e.isLost = false) {f : Unit → Script α} (h : Sound cfg b k (f ())) :
    Sound cfg b k (if p then Script.fail e >>= f else f ()) :=
  .ite (.bind_of (.fail he) fun _ hx => by cases hx) h

theorem weaken (h : Sound cfg b k x) : Sound cfg 0 k x :=
  ⟨fun hs => (h.kept hs).mono (Nat.le_add_right k b), h.finds, h.reaches⟩

theorem inRecord {body : Nat → Script Value} (howner : owner ≤ k) (hbound : k < cfg.maxDepth)
    (h : Sound cfg 0 (k + 1) (body (k + 1))) : Sound cfg 1 k (inRecord owner body) := by
  have hcallee {s : State} (hs : s.Inside cfg k) : enter owner s = .ok (k + 1) (entered owner s) :=
    congrArg (EStateM.Result.ok · (entered owner s)) hs.records.depth
  have hentered {s : State} (hs : s.Inside cfg k) : (entered owner s).Inside cfg (k + 1) :=
    ⟨hs.records.push howner, congrArg (· + 1) hs.depth, hbound⟩
  have hrun {s : State} (hs : s.Inside cfg k) :
      (Eval.inRecord owner body).run s = ensure (leave (k + 1)) (body (k + 1)).run (entered owner s) :=
        Action.bind_ok (hcallee hs)
  have hkept {s : State} (hs : s.Inside cfg k) : s.Kept (k + 1) (final (Eval.inRecord owner body).run s) := by
    have hbody := h.kept (hentered hs)
    rw [final_congr (hrun hs), final_ensure]
    refine ⟨?_, congrArg (· - 1) hbody.depth⟩
    rw [Nat.add_zero, ← hs.records.depth] at hbody
    have hpop := hbody.records.pop owner (hs.records.depth ▸ Nat.succ_pos k)
    rwa [hs.records.depth] at hpop
  refine ⟨hkept, fun {s t e} hs he => ?_, fun {_ y s t d} hs hreaches => ?_⟩
  · rw [hrun hs] at he
    obtain ⟨t', ht'⟩ := error_of_ensure he
    exact h.finds (hentered hs) ht'
  · cases hreaches with
    | here => exact ⟨hs, (hkept hs).mono (Nat.le_succ k)⟩
    | inside hopens hinside =>
      cases (hcallee hs).symm.trans hopens
      have hpart := h.reaches (hentered hs) hinside
      rwa [Nat.add_right_comm] at hpart

end Sound

end Rules

section Constructs

variable {cfg : Config} {k : Nat} {caller : Caller}

def CallerSound (cfg : Config) (k : Nat) (caller : Caller) : Prop :=
  ∀ name args, Script.Sound cfg 1 k (caller k name args)

mutual

theorem expr_sound (h : CallerSound cfg k caller) : (e : Expr) → Sound cfg 1 k (expr caller k e)
  | .literal value ty => by
    simp only [expr]
    exact .quiet (.newLiteral value)
  | .name x ty => by
    simp only [expr]
    exact .read x
  | .unary op operand ty => by
    simp only [expr]
    exact (expr_sound h operand).bind fun v => .quiet (.unary op v)
  | .binary op lhs rhs ty => by
    simp only [expr]
    refine (expr_sound h lhs).bind fun a => ?_
    have hrhs := expr_sound h rhs
    cases op with
    | and => exact .bind (.quiet (.asBool a)) fun _ => hrhs.ite (.pure _)
    | or => exact .bind (.quiet (.asBool a)) fun _ => .ite (.pure _) hrhs
    | _ => exact hrhs.bind fun b => .quiet (.binary _ a b)
  | .ifExpr cond onTrue onFalse ty => by
    simp only [expr]
    exact (expr_sound h cond).bind fun c => .bind (.quiet (.asBool c)) fun _ =>
      (expr_sound h onTrue).ite (expr_sound h onFalse)
  | .list elems ty => by
    simp only [expr]
    exact (exprs_sound h elems).bind fun values => .quiet (.newList _)
  | .index base position ty => by
    simp only [expr]
    exact (expr_sound h base).bind fun b => (expr_sound h position).bind fun p => .quiet (.index b p)
  | .call func args ty => by
    simp only [expr]
    exact (exprs_sound h args).bind fun values => h func values

theorem exprs_sound (h : CallerSound cfg k caller) : (es : List Expr) → Sound cfg 1 k (exprs caller k es)
  | [] => by
    simp only [exprs]
    exact .pure _
  | e :: es => by
    simp only [exprs]
    exact (expr_sound h e).bind fun v => (exprs_sound h es).bind fun vs => .pure _

end

theorem location_sound (h : CallerSound cfg k caller) (target : Expr) :
    Sound cfg 1 k (location caller k target) := by
  cases target with
  | name x ty => exact .pure _
  | index base position ty =>
    refine (expr_sound h base).bind fun b => (expr_sound h position).bind fun p =>
      .bind (.quiet (.asInt p)) fun i => ?_
    cases b with
    | list object =>
      exact .bind (.quiet (.elems object)) fun values =>
        .bind (.quiet (.checkedIndex i values.size)) fun _ => .pure _
    | _ => exact .fail rfl
  | _ => exact .fail rfl

theorem locations_sound (h : CallerSound cfg k caller) (targets : List Expr) :
    Sound cfg 1 k (locations caller k targets) := by
  induction targets with
  | nil => exact .pure _
  | cons target targets ih => exact (location_sound h target).bind fun l => ih.bind fun ls => .pure _

theorem store_sound (value : Value) (targets : List Location) : Sound cfg 1 k (store k value targets) := by
  induction targets with
  | nil => exact .pure _
  | cons target targets ih =>
    rcases target with name | ⟨object, index⟩
    · exact .bind (.write name value) fun _ => ih
    · exact .bind (.quiet (.setElem object index value)) fun _ => ih

theorem assign_sound (h : CallerSound cfg k caller) (a : Assign) : Sound cfg 1 k (assign caller k a) :=
  (expr_sound h a.value).bind fun value => (locations_sound h a.targets).bind fun targets =>
    store_sound value targets

theorem loop_sound {turn : Nat → Script (Option Flow)} (h : ∀ i, Sound cfg 1 k (turn i)) (fuel i : Nat) :
    Sound cfg 1 k (loop cfg turn fuel i) := by
  induction fuel generalizing i with
  | zero => exact .fail rfl
  | succ fuel ih =>
    refine .bind (.quiet (.tick cfg)) fun _ => (h i).bind fun flow => ?_
    rcases flow with _ | _ | v
    · exact .pure _
    · exact ih (i + 1)
    · exact .pure _

mutual

theorem stmt_sound (h : CallerSound cfg k caller) : (s : Stmt) → Sound cfg 1 k (stmt cfg caller k s)
  | .expr value => by
    simp only [stmt]
    exact (expr_sound h value).bind fun _ => .pure _
  | .assign a => by
    simp only [stmt]
    exact (assign_sound h a).bind fun _ => .pure _
  | .ret none | .pass => by
    simp only [stmt]
    exact .pure _
  | .ret (some value) => by
    simp only [stmt]
    exact (expr_sound h value).bind fun _ => .pure _
  | .ifElse cond onTrue onFalse => by
    simp only [stmt]
    exact (expr_sound h cond).bind fun c => .bind (.quiet (.asBool c)) fun _ =>
      (block_sound h onTrue).ite (block_sound h onFalse)
  | .whileLoop cond body => by
    simp only [stmt]
    refine loop_sound (fun i => (expr_sound h cond).bind fun c => .bind (.quiet (.asBool c)) fun _ => ?_) _ 0
    exact ((block_sound h body).map some).ite (.pure _)
  | .forLoop target iter body => by
    simp only [stmt]
    refine (expr_sound h iter).bind fun seq =>
      loop_sound (fun i => .bind (.quiet (.len seq)) fun n => .ite ?_ (.pure _)) _ 0
    exact .bind (.quiet (.element seq i)) fun v => .bind (.write target v) fun _ =>
      (block_sound h body).map some

theorem block_sound (h : CallerSound cfg k caller) : (ss : List Stmt) → Sound cfg 1 k (block cfg caller k ss)
  | [] => by
    simp only [block]
    exact .pure _
  | s :: rest => by
    simp only [block]
    refine (stmt_sound h s).bind fun flow => ?_
    cases flow with
    | next => exact block_sound h rest
    | ret v => exact .pure _

end

theorem declare_sound (decls : List Decl) : Sound cfg 0 k (declare k decls) := by
  induction decls with
  | nil => exact .pure _
  | cons d decls ih =>
    cases d with
    | var v => exact .bind (.quiet (.newLiteral v.init)) fun value => .bind (.edit fun _ => rfl) fun _ => ih
    | func f => exact .bind (.edit fun _ => rfl) fun _ => ih
    | global name => exact .bind (.edit fun _ => rfl) fun _ => ih
    | _ => exact ih

theorem defineParams_sound (params : List Param) (args : List Value) :
    Sound cfg 0 k (defineParams k params args) := by
  induction params generalizing args with
  | nil => exact .pure _
  | cons p params ih =>
    cases args with
    | nil => exact .pure _
    | cons v args => exact .bind (.edit fun _ => rfl) fun _ => ih args

theorem invoke_sound (h : CallerSound cfg k caller) (func : FuncDef) (args : List Value) :
    Sound cfg 0 k (invoke cfg caller k func args) := by
  refine (defineParams_sound func.params args).bind fun _ => (declare_sound func.decls).bind fun _ =>
    (block_sound h func.body).weaken.bind fun flow => ?_
  cases flow <;> exact .pure _

/-- Whatever record a call is made from, and whatever `room` there is: the depth bounds the calls. -/
theorem call_sound (cfg : Config) (room k record : Nat) (name : String) (args : List Value) :
    Sound cfg 1 k (call cfg room record name args) := by
  rw [call.eq_def]
  dsimp only
  split
  next action h => exact .quiet (.builtin h)
  next =>
    refine .bind_of (.quiet (.findFunction record name)) fun {s t found} hs hrun => ?_
    cases hrun
    cases hfound : s.env.function? record name with
    | none => exact .fail rfl
    | some found =>
      obtain ⟨owner, func⟩ := found
      have howner := Environment.owner_lt_depth hfound
      rw [hs.records.depth] at howner
      refine .check rfl (.bind_of (.quiet (.checkDepth cfg)) fun {s' t' _} hs' hrun => ?_)
      cases room with
      | zero => exact .fail rfl
      | succ room =>
        have hbound : k < cfg.maxDepth := hs'.depth ▸ depth_lt_of_checkDepth hrun
        exact .bind (.quiet (.tick cfg)) fun _ =>
          .inRecord (Nat.le_of_lt_succ howner) hbound
            (invoke_sound (call_sound cfg room (k + 1) (k + 1)) func args)

theorem program_sound (cfg : Config) (p : Program) : Sound cfg 0 0 (program cfg p) :=
  (declare_sound p.decls).bind fun _ =>
    (block_sound (call_sound cfg cfg.maxDepth 0 0) p.stmts).weaken.bind fun _ => .pure _

/-- A call that is not refused comes to the body of the function that it finds, in a record of its own. -/
theorem call_reaches {room record owner : Nat} {name : String} {args : List Value} {func : FuncDef}
    {s : State} (hname : builtin? cfg name args = none)
    (hfound : s.env.function? record name = some (owner, func)) (harity : func.params.length = args.length)
    (hdepth : s.depth < cfg.maxDepth) (hsteps : s.steps < cfg.maxSteps) :
    (call cfg (room + 1) record name args).Reaches s 1
      (invoke cfg (call cfg room) s.env.records.size func args)
      (entered owner { s with steps := s.steps + 1 }) := by
  have hfind : (act (findFunction record name)).run s = .ok (some (owner, func)) s := by
    rw [run, findFunction, hfound]
  have hcheck : (act (checkDepth cfg)).run s = .ok () s := if_neg (Nat.not_le.mpr hdepth)
  have htick : (act (tick cfg)).run s = .ok () { s with steps := s.steps + 1 } :=
    if_neg (Nat.not_lt.mpr hsteps)
  rw [call, hname]
  refine .rest hfind ?_
  simp only [harity, ne_eq, not_true_eq_false, if_false]
  exact .rest hcheck (.rest htick (.inside rfl .here))

theorem block_reaches (cfg : Config) (caller : Caller) (record : Nat) (name : String) (ty : Ty)
    (rest : List Stmt) (s : State) :
    (block cfg caller record (.expr (.call name [] ty) :: rest)).Reaches s 0 (caller record name []) s := by
  rw [block, stmt, expr, exprs]
  exact .first (.first (.rest rfl .here))

end Constructs

end Script

theorem Environment.stacked_empty : Stacked 0 {} := by
  refine ⟨rfl, fun r hr => ?_, fun i r hr hi => ?_⟩
  · cases hr
    rfl
  · cases (Array.getElem?_eq_none (Nat.pos_of_ne_zero hi)).symm.trans hr

/-- A run of a program, whatever its input and its limits, inside each of its calls. Before and after every
part of it there are the global record and one for each active call, every one inside a record before it, and
the depth is the number of these calls, no more than allowed. However a call ends, it leaves the depth and the
records that were there before it, and no search ever comes to a record that does not exist. -/
theorem records_follow_calls (cfg : Config) (p : Program) :
    (∀ {γ : Type} (y : Script γ) d t, (program cfg p).Reaches {} d y t → t.Inside cfg d ∧
      (final y.run t).Inside cfg d) ∧
    (∀ room record name args d t, (program cfg p).Reaches {} d (call cfg room record name args) t →
      t.Kept (d + 1) (final (call cfg room record name args).run t)) ∧
    ∀ n, p.interpret cfg ≠ .error (.internal (.noRecord n)) := by
  have hsound := Script.program_sound cfg p
  have hstart : State.Inside cfg 0 {} := ⟨Environment.stacked_empty, rfl, Nat.zero_le _⟩
  have hreaches {γ : Type} {y : Script γ} {d : Nat} {t : State} (h : (program cfg p).Reaches {} d y t) :
      t.Inside cfg d ∧ t.Kept d (final y.run t) := Nat.zero_add d ▸ hsound.reaches hstart h
  refine ⟨fun y d t h => ?_, fun room record name args d t h => ?_, fun n h => ?_⟩
  · obtain ⟨ht, hkept⟩ := hreaches h
    exact ⟨ht, hkept.inside ht⟩
  · exact (Script.call_sound cfg room d record name args).kept (hreaches h).1
  · unfold Program.interpret at h
    split at h
    next => cases h
    next => cases h
    next he =>
      cases h
      cases hsound.finds hstart he

/-- A function that calls itself without end. -/
def endlessCalls : Program where
  decls := [.func (.ofBody "f" [] .none [.expr (.call "f" [] .none)])]
  stmts := [.expr (.call "f" [] .none)]

/-- Where two calls are allowed, the third one is refused inside the others and leaves their records. -/
theorem reached_endlessCalls :
    ∃ t, (program { maxDepth := 2 } endlessCalls).Reaches {} 2 (call { maxDepth := 2 } 0 2 "f" []) t ∧
      t.env.records.size = 3 ∧ t.depth = 2 ∧ t.Kept 3 (final (call { maxDepth := 2 } 0 2 "f" []).run t) := by
  have hbody (room callee : Nat) (s : State) :
      (invoke { maxDepth := 2 } (call { maxDepth := 2 } room) callee
        (.ofBody "f" [] .none [.expr (.call "f" [] .none)]) []).Reaches s 0
        (call { maxDepth := 2 } room callee "f" []) s :=
    .rest rfl (.rest rfl (.first (Script.block_reaches ..)))
  have hfirst : (program { maxDepth := 2 } endlessCalls).Reaches {} 0
      (call { maxDepth := 2 } 2 0 "f" []) _ := .rest rfl (.first (Script.block_reaches ..))
  have hsecond := (hfirst.trans (Script.call_reaches rfl rfl rfl (by decide) (by decide))).trans (hbody ..)
  have hthird := (hsecond.trans (Script.call_reaches rfl rfl rfl (by decide) (by decide))).trans (hbody ..)
  exact ⟨_, hthird, rfl, rfl, (records_follow_calls _ _).2.1 _ _ _ _ _ _ hthird⟩

end Eval

end Choco
