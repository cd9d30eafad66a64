import Choco.Proofs.Functions

namespace Choco.IR

variable {c : Code}

/-- Operations without regions, other than `yield`, with the operands and the result that their kind calls
for. -/
inductive Node.Plain : Node → Prop
  | literal (id : OpId) (value : Literal) (r : Def) : Plain ⟨id, .literal value, [], some r⟩
  | unary (id : OpId) (op : UnaryOp) (x : ValueId) (r : Def) : Plain ⟨id, .unary op, [x], some r⟩
  | binary (id : OpId) (op : BinaryOp) (x y : ValueId) (r : Def) (h : op.isShortCircuit = false)
      (hty : op.isComparison → r.ty = .plain .bool) : Plain ⟨id, .binary op, [x, y], some r⟩
  | ret (id : OpId) (x : ValueId) : Plain ⟨id, .ret, [x], none⟩
  | pass (id : OpId) : Plain ⟨id, .pass, [], none⟩
  | assign (id : OpId) (x : ValueId) (locations : List ValueId) : Plain ⟨id, .assign, x :: locations, none⟩
  | alloc (id : OpId) (ty : Ty) (v : ValueId) : Plain ⟨id, .alloc ty, [], some ⟨v, .location ty⟩⟩
  | load (id : OpId) (x : ValueId) (r : Def) : Plain ⟨id, .load, [x], some r⟩
  | store (id : OpId) (x y : ValueId) : Plain ⟨id, .store, [x, y], none⟩
  | call (id : OpId) (func : String) (xs : List ValueId) (r : Option Def) : Plain ⟨id, .call func, xs, r⟩
  | list (id : OpId) (xs : List ValueId) (r : Def) : Plain ⟨id, .list, xs, some r⟩
  | indexString (id : OpId) (x y : ValueId) (r : Def) : Plain ⟨id, .indexString, [x, y], some r⟩
  | getAddress (id : OpId) (x y : ValueId) (r : Def) : Plain ⟨id, .getAddress, [x, y], some r⟩

/-- Operations with two regions, and whether the first and the second one compute a value. -/
inductive Node.Forks : Node → Bool → Bool → Prop
  | shortCircuit (id : OpId) (op : BinaryOp) (r : Def) (h : op.isShortCircuit = true) :
      Forks ⟨id, .shortCircuit op, [], some r⟩ true true
  | ifExpr (id : OpId) (x : ValueId) (r : Def) : Forks ⟨id, .ifExpr, [x], some r⟩ true true
  | ifElse (id : OpId) (x : ValueId) : Forks ⟨id, .ifElse, [x], none⟩ false false
  | whileLoop (id : OpId) : Forks ⟨id, .whileLoop, [], none⟩ true false

namespace Code

variable {y : Bool} {d : Code}

/-- The operations of a list fit their kinds. The list ends in `yield` if it computes a value. -/
inductive Shaped : Bool → Code → Prop
  | nil : Shaped false nil
  | yield (id : OpId) (x : ValueId) : Shaped true (leaf ⟨id, .yield, [x], none⟩ nil)
  | leaf {y : Bool} {n : Node} {rest : Code} (hn : n.Plain) (hrest : Shaped y rest) : Shaped y (leaf n rest)
  | loop {y : Bool} (id : OpId) (x location : ValueId) {body rest : Code} (hbody : Shaped false body)
      (hrest : Shaped y rest) : Shaped y (each ⟨id, .forLoop, [x, location], none⟩ [] body rest)
  | fork {y a b : Bool} {n : Node} {first second rest : Code} (hn : n.Forks a b) (hfirst : Shaped a first)
      (hsecond : Shaped b second) (hrest : Shaped y rest) : Shaped y (fork n first second rest)

/-- A list of functions. -/
inductive Functions : Code → Prop
  | nil : Functions nil
  | function (id : OpId) (label : String) (ty : Ty) (args : List ValueId) {body rest : Code}
      (hbody : Shaped false body) (hrest : Functions rest) :
      Functions (each ⟨id, .funcDef label ty, [], none⟩ args body rest)

theorem Shaped.append (hc : Shaped false c) (hd : Shaped y d) : Shaped y (c ++ d) := by
  induction c with
  | nil => exact hd
  | leaf n rest ih =>
    cases hc with
    | leaf hn hrest => exact .leaf hn (ih hrest)
  | each n args body rest _ ih =>
    cases hc with
    | loop id x location hbody hrest => exact .loop id x location hbody (ih hrest)
  | fork n first second rest _ _ ih =>
    cases hc with
    | fork hn hfirst hsecond hrest => exact .fork hn hfirst hsecond (ih hrest)

theorem Shaped.args_eq (h : Shaped y c) : c.args = [] := by
  induction h with
  | nil | yield => rfl
  | leaf _ _ ih => exact ih
  | loop _ _ _ _ _ ihb ih => simp [Code.args, ihb, ih]
  | fork _ _ _ _ iha ihb ih => simp [Code.args, iha, ihb, ih]

theorem Functions.append (hc : Functions c) (hd : Functions d) : Functions (c ++ d) := by
  induction hc with
  | nil => exact hd
  | function id label ty args hbody _ ih => exact .function id label ty args hbody ih

end Code

section Generation

open Code

variable {types : Types} {names : Names} {v w : ValueId} {value : Code → ValueId → Prop} {names' : Names}
  {decls : List Decl}

theorem resultType_comparison {op : BinaryOp} {lhs rhs ty : Ty} (h : resultType op lhs rhs = .ok ty)
    (hop : op.isComparison) : ValueType.plain ty = .plain .bool := by
  unfold resultType at h
  simp only [hop, if_true] at h
  split at h
  next => cases h; rfl
  next => cases h

theorem Build.Loads.shaped (h : Build.Loads types v c w) : Shaped false c := by
  cases h with
  | load ty id w h => exact .leaf (.load id v _) .nil
  | stay ty h hplain => exact .nil

theorem Loaded.shaped (h : Loaded types value c w) (hvalue : ∀ c v, value c v → Shaped false c) :
    Shaped false c := by
  obtain ⟨v, c₁, c₂, rfl, hv, hload⟩ := h
  exact (hvalue c₁ v hv).append hload.shaped

theorem Yielded.shaped (h : Yielded value c) (hvalue : ∀ c v, value c v → Shaped false c) :
    Shaped true c := by
  obtain ⟨v, c₁, id, rfl, hv⟩ := h
  exact (hvalue c₁ v hv).append (.yield id v)

theorem Padded.shaped {body : Code → Prop} (h : Padded body c) (hbody : ∀ c, body c → Shaped false c) :
    Shaped false c := by
  obtain ⟨-, h⟩ | ⟨-, id, rfl⟩ := h
  · exact hbody c h
  · exact .leaf (.pass id) .nil

theorem CharacterCode.shaped {base index : ValueId} (h : CharacterCode base index c v) : Shaped false c := by
  obtain ⟨address, code, id₁, id₂, id₃, rfl⟩ := h
  exact .leaf (.indexString id₁ base index _) (.leaf (.load id₂ address _) (.leaf (.list id₃ [code] _) .nil))

mutual

theorem ExprCode.shaped : {e : Expr} → {c : Code} → {v : ValueId} → ExprCode types names e c v →
    Shaped false c
  | .literal value ty, _, v, ⟨id, rfl⟩ => by
    exact .leaf (.literal id value _) .nil
  | .name x ty, _, v, ⟨_, rfl⟩ => by
    exact .nil
  | .unary op operand ty, _, v, ⟨x, c₁, id, rfl, hx⟩ => by
    exact (hx.shaped fun _ _ => ExprCode.shaped).append (.leaf (.unary id op x _) .nil)
  | .binary op lhs rhs ty, c, v, h => by
    rw [ExprCode] at h
    split at h
    next hop =>
      obtain ⟨first, second, id, rfl, hfirst, hsecond⟩ := h
      exact .fork (.shortCircuit id op _ hop)
        (hfirst.shaped fun _ _ hv => hv.shaped fun _ _ => ExprCode.shaped)
        (hsecond.shaped fun _ _ hv => hv.shaped fun _ _ => ExprCode.shaped) .nil
    next hop =>
      obtain ⟨ty, x, y, c₁, c₂, id, hty, rfl, hx, hy⟩ := h
      exact (hx.shaped fun _ _ => ExprCode.shaped).append ((hy.shaped fun _ _ => ExprCode.shaped).append
        (.leaf (.binary id op x y _ (by simpa using hop) (resultType_comparison hty)) .nil))
  | .ifExpr cond onTrue onFalse ty, _, v, ⟨x, c₁, first, second, id, rfl, hx, hfirst, hsecond⟩ => by
    exact (hx.shaped fun _ _ => ExprCode.shaped).append (.fork (.ifExpr id x _)
      (hfirst.shaped fun _ _ hv => hv.shaped fun _ _ => ExprCode.shaped)
      (hsecond.shaped fun _ _ hv => hv.shaped fun _ _ => ExprCode.shaped) .nil)
  | .list elems ty, _, v, ⟨xs, c₁, id, rfl, hxs⟩ => by
    exact hxs.shaped.append (.leaf (.list id xs _) .nil)
  | .index base position ty, _, v, ⟨x, i, c₁, c₂, c₃, rfl, hx, hi, hlast⟩ => by
    refine (hx.shaped fun _ _ => ExprCode.shaped).append ((hi.shaped fun _ _ => ExprCode.shaped).append ?_)
    split at hlast
    next => exact hlast.shaped
    next =>
      obtain ⟨id, rfl⟩ := hlast
      exact .leaf (.getAddress id x i _) .nil
    next => exact hlast.elim
  | .call func args ty, _, v, ⟨label, xs, c₁, id, _, rfl, hxs⟩ => by
    exact hxs.shaped.append (.leaf (.call id label xs _) .nil)

theorem ValuesCode.shaped : {es : List Expr} → {c : Code} → {xs : List ValueId} →
    ValuesCode types names es c xs →
    Shaped false c
  | [], c, xs, h => by
    rw [ValuesCode] at h
    exact h.1 ▸ .nil
  | e :: es, _, xs, ⟨x, rest, c₁, c₂, _, rfl, hx, hrest⟩ => by
    exact (hx.shaped fun _ _ => ExprCode.shaped).append hrest.shaped

end

theorem TargetCode.shaped {e : Expr} (h : TargetCode types names e c v) : Shaped false c := by
  cases e with
  | name x ty => exact h.2 ▸ .nil
  | index base position ty => exact h.2.shaped
  | _ => exact h.elim

theorem TargetsCode.shaped {es : List Expr} {xs : List ValueId} (h : TargetsCode types names es c xs) :
    Shaped false c := by
  induction es generalizing c xs with
  | nil => exact h.1 ▸ .nil
  | cons e es ih =>
    obtain ⟨x, rest, c₁, c₂, -, rfl, hx, hrest⟩ := h
    exact hx.shaped.append (ih hrest)

mutual

theorem StmtCode.shaped : {s : Stmt} → {c : Code} → StmtCode types names s c → Shaped false c
  | .expr e, c, h => by
    cases e with
    | call func args ty =>
      rw [StmtCode] at h
      obtain ⟨label, xs, c₁, id, -, rfl, hxs⟩ := h
      exact hxs.shaped.append (.leaf (.call id label xs none) .nil)
    | _ =>
      rw [StmtCode] at h
      · obtain ⟨v, hv⟩ := h
        exact hv.shaped fun _ _ => ExprCode.shaped
      · intro func args ty he
        cases he
  | .assign a, _, ⟨v, locations, c₁, c₂, id, rfl, hv, hlocations⟩ => by
    exact (hv.shaped fun _ _ => ExprCode.shaped).append
      (hlocations.shaped.append (.leaf (.assign id v locations) .nil))
  | .ret (some e), _, ⟨v, c₁, id, rfl, hv⟩ => by
    exact (hv.shaped fun _ _ => ExprCode.shaped).append (.leaf (.ret id v) .nil)
  | .ret none, _, ⟨v, id, id', rfl⟩ => by
    exact .leaf (.literal id .none _) (.leaf (.ret id' v) .nil)
  | .pass, _, ⟨id, rfl⟩ => by
    exact .leaf (.pass id) .nil
  | .ifElse cond onTrue onFalse, _, ⟨v, c₁, first, second, id, rfl, hv, hfirst, hsecond⟩ => by
    exact (hv.shaped fun _ _ => ExprCode.shaped).append (.fork (.ifElse id v)
      (hfirst.shaped fun _ => StmtsCode.shaped) (hsecond.shaped fun _ => StmtsCode.shaped) .nil)
  | .whileLoop cond body, _, ⟨test, inner, id, rfl, htest, hinner⟩ => by
    exact .fork (.whileLoop id) (htest.shaped fun _ _ hv => hv.shaped fun _ _ => ExprCode.shaped)
      (hinner.shaped fun _ => StmtsCode.shaped) .nil
  | .forLoop x iter body, _, ⟨sequence, location, c₁, inner, id, _, rfl, hsequence, hinner⟩ => by
    exact (hsequence.shaped fun _ _ => ExprCode.shaped).append
      (.loop id sequence location (hinner.shaped fun _ => StmtsCode.shaped) .nil)

theorem StmtsCode.shaped : {ss : List Stmt} → {c : Code} → StmtsCode types names ss c → Shaped false c
  | [], c, h => by
    rw [StmtsCode] at h
    exact h ▸ .nil
  | s :: ss, _, ⟨c₁, c₂, rfl, hs, hss⟩ => by
    exact hs.shaped.append hss.shaped

end

theorem VarCode.shaped {v : VarDef} (h : VarCode names v c names') : Shaped false c := by
  obtain ⟨location, init, id₁, id₂, id₃, -, rfl⟩ := h
  exact .leaf (.alloc id₁ v.ty _) (.leaf (.literal id₂ v.init _) (.leaf (.store id₃ location init) .nil))

theorem ParamsCode.shaped {ps : List Param} {args : List ValueId}
    (h : ParamsCode types names ps args c names') : Shaped false c := by
  induction ps generalizing names args c with
  | nil => exact h.2.1 ▸ .nil
  | cons p ps ih =>
    obtain ⟨arg, args', location, id₁, id₂, c', names₁, -, -, -, rfl, hrest⟩ := h
    exact .leaf (.alloc id₁ p.ty _) (.leaf (.store id₂ location arg) (ih hrest))

theorem LocalsCode.shaped (h : LocalsCode names decls c names') : Shaped false c := by
  induction decls generalizing names c with
  | nil => exact h.1 ▸ .nil
  | cons decl decls ih =>
    cases decl with
    | var v =>
      obtain ⟨c₁, c₂, names₁, rfl, hv, hrest⟩ := h
      exact hv.shaped.append (ih hrest)
    | global x => exact ih h.choose_spec.2
    | func f | «nonlocal» x => exact ih h

theorem ReturnCode.shaped (h : ReturnCode c) : Shaped false c := by
  obtain ⟨v, id, id', rfl⟩ := h
  exact .leaf (.literal id .none _) (.leaf (.ret id' v) .nil)

theorem FunctionsTree.functions {names : Names} {path : String} (h : FunctionsTree types names path decls c) :
    Functions c := by
  induction h with
  | nil => exact .nil
  | func id hparams hlocals _ hstmts hreturn _ _ ihInner ih =>
    exact ihInner.append (.function id _ _ _
      (hparams.shaped.append (hlocals.shaped.append (hstmts.shaped.append hreturn.shaped))) ih)
  | var _ _ ih | global _ _ ih | «nonlocal» _ _ ih => exact ih

theorem ProgramCode.functions {p : Program} (h : ProgramCode types p c) : Functions c := by
  obtain ⟨names₁, names₂, c₁, c₂, c₃, inner, id, rfl, h₁, htop, -, hinner, h₂, h₃⟩ := h
  exact .function id entryFunction .none [] ((h₁.locals htop).shaped.append (h₂.shaped.append h₃.shaped))
    hinner.tree.functions

end Generation

end Choco.IR
