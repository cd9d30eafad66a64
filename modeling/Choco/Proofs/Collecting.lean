import Choco.Proofs.Passes

namespace Choco

def Decl.init? : Decl → Option Literal
  | .var v => some v.init
  | .func _ | .global _ | .nonlocal _ => none

namespace IR

variable {α : Type} {g : Node → Option α} {v index : ValueId}

structure Sparse (g : Node → Option α) : Prop where
  silent : ∀ n, (∀ l, n.kind ≠ .literal l) → n.kind ≠ .list → (∀ func, n.kind ≠ .call func) → n.kind ≠ .ret →
    g n = none
  int : ∀ id k xs r, g ⟨id, .literal (.int k), xs, r⟩ = none
  character : ∀ id x r, g ⟨id, .list, [x], r⟩ = none

/-- What is found in the code of expressions and statements is what these functions find in the syntax. -/
structure Collects (g : Node → Option α) (names : Names) (expr : Expr → List α) (stmt : Stmt → List α) :
    Prop extends Sparse g where
  ret : ∀ id xs r, g ⟨id, .ret, xs, r⟩ = none
  nothing : ∀ id r, g ⟨id, .literal .none, [], r⟩ = none
  literal : ∀ id l ty r, (g ⟨id, .literal l, [], r⟩).toList = expr (.literal l ty)
  name : ∀ x ty, expr (.name x ty) = []
  unary : ∀ op e ty, expr (.unary op e ty) = expr e
  binary : ∀ op e e' ty, expr (.binary op e e' ty) = expr e ++ expr e'
  ifExpr : ∀ e₀ e e' ty, expr (.ifExpr e₀ e e' ty) = expr e₀ ++ (expr e ++ expr e')
  list : ∀ id xs r es ty, xs.length = es.length →
    es.flatMap expr ++ (g ⟨id, .list, xs, r⟩).toList = expr (.list es ty)
  index : ∀ e e' ty, expr (.index e e' ty) = expr e ++ expr e'
  call : ∀ id xs r func label es ty, names.callee func = .ok label →
    es.flatMap expr ++ (g ⟨id, .call label, xs, r⟩).toList = expr (.call func es ty)
  exprStmt : ∀ e, stmt (.expr e) = expr e
  assign : ∀ a, stmt (.assign a) = expr a.value ++ a.targets.flatMap expr
  retSome : ∀ e, stmt (.ret (some e)) = expr e
  retNone : stmt (.ret none) = []
  pass : stmt .pass = []
  ifElse : ∀ e ss ss', stmt (.ifElse e ss ss') = expr e ++ (ss.flatMap stmt ++ ss'.flatMap stmt)
  whileLoop : ∀ e ss, stmt (.whileLoop e ss) = expr e ++ ss.flatMap stmt
  forLoop : ∀ x e ss, stmt (.forLoop x e ss) = expr e ++ ss.flatMap stmt

namespace Code

def collect (g : Node → Option α) (c : Code) : List α := c.nodes.filterMap g

variable {c d : Code}

@[simp] theorem collect_nil : collect g nil = [] := rfl

@[simp] theorem collect_leaf (n : Node) (rest : Code) :
    (leaf n rest).collect g = (g n).toList ++ rest.collect g := by
  cases h : g n <;> simp [collect, nodes, h]

@[simp] theorem collect_each (n : Node) (args : List ValueId) (body rest : Code) :
    (each n args body rest).collect g = (g n).toList ++ (body.collect g ++ rest.collect g) := by
  cases h : g n <;> simp [collect, nodes, h]

@[simp] theorem collect_fork (n : Node) (first second rest : Code) :
    (fork n first second rest).collect g = (g n).toList ++
    (first.collect g ++ (second.collect g ++ rest.collect g)) := by
  cases h : g n <;> simp [collect, nodes, h]

@[simp] theorem collect_append (c d : Code) : (c ++ d).collect g = c.collect g ++ d.collect g := by
  simp [collect, nodes_append]

theorem Maps.collect_eq {R : Node → Code → Prop} (h : c.Maps R d)
    (hR : ∀ n e, R n e → e.collect g = (g n).toList) :
    d.collect g = c.collect g := by
  induction c generalizing d with
  | nil => exact h ▸ rfl
  | leaf n rest ih =>
    obtain ⟨e, rest', rfl, he, hrest⟩ := h
    rw [collect_append, hR n e he, ih hrest, collect_leaf]
  | each n args body rest ihb ih =>
    obtain ⟨body', rest', rfl, hbody, hrest⟩ := h
    rw [collect_each, collect_each, ihb hbody, ih hrest]
  | fork n first second rest iha ihb ih =>
    obtain ⟨first', second', rest', rfl, hfirst, hsecond, hrest⟩ := h
    rw [collect_fork, collect_fork, iha hfirst, ihb hsecond, ih hrest]

end Code

open Code

section Generation

variable {types : Types} {names names' : Names} {expr : Expr → List α} {stmt : Stmt → List α} {c : Code}
  {t : List α} {w : ValueId} {value : Code → ValueId → Prop} {es : List Expr} {xs : List ValueId}

theorem Build.Loads.collect_eq (hg : Sparse g) (h : Build.Loads types v c w) : c.collect g = [] := by
  cases h with
  | load ty id w h => simp [hg.silent]
  | stay ty h hplain => rfl

theorem Loaded.collect_eq (hg : Sparse g) (h : Loaded types value c w)
    (hvalue : ∀ c v, value c v → c.collect g = t) :
    c.collect g = t := by
  obtain ⟨v, c₁, c₂, rfl, hv, hload⟩ := h
  rw [collect_append, hvalue c₁ v hv, hload.collect_eq hg, List.append_nil]

theorem Yielded.collect_eq (hg : Sparse g) (h : Yielded value c)
    (hvalue : ∀ c v, value c v → c.collect g = t) : c.collect g = t := by
  obtain ⟨v, c₁, id, rfl, hv⟩ := h
  simp [hvalue c₁ v hv, hg.silent]

theorem Padded.collect_eq (hg : Sparse g) {body : Code → Prop} (h : Padded body c)
    (hbody : ∀ c, body c → c.collect g = t) :
    c.collect g = t := by
  obtain ⟨-, h⟩ | ⟨hnil, id, rfl⟩ := h
  · exact hbody c h
  · rw [← hbody .nil hnil]
    simp [hg.silent]

theorem CharacterCode.collect_eq (hg : Sparse g) {base : ValueId} (h : CharacterCode base index c v) :
    c.collect g = [] := by
  obtain ⟨address, code, id₁, id₂, id₃, rfl⟩ := h
  simp [hg.silent, hg.character]

theorem ValuesCode.length_eq {c : Code} (h : ValuesCode types names es c xs) : xs.length = es.length := by
  induction es generalizing c xs with
  | nil =>
    rw [ValuesCode] at h
    obtain ⟨-, rfl⟩ := h
    rfl
  | cons e es ih =>
    rw [ValuesCode] at h
    obtain ⟨x, rest, c₁, c₂, rfl, -, -, hrest⟩ := h
    exact congrArg (· + 1) (ih hrest)

mutual

theorem ExprCode.collect_eq (hg : Collects g names expr stmt) :
    (e : Expr) → ∀ {c v}, ExprCode types names e c v → c.collect g = expr e
  | .literal value ty, _, v, ⟨id, rfl⟩ => by
    rw [collect_leaf, hg.literal]
    exact List.append_nil _
  | .name x ty, _, v, ⟨_, rfl⟩ => by
    exact (hg.name x ty).symm
  | .unary op operand ty, _, v, ⟨x, c₁, id, rfl, hx⟩ => by
    have hoperand := hx.collect_eq hg.1 fun c v => ExprCode.collect_eq hg operand
    simp [hg.unary, hoperand, hg.silent]
  | .binary op lhs rhs ty, c, v, h => by
    rw [ExprCode] at h
    split at h
    next =>
      obtain ⟨first, second, id, rfl, hfirst, hsecond⟩ := h
      have hlhs := hfirst.collect_eq hg.1 fun c v hv => hv.collect_eq hg.1 fun c v =>
        ExprCode.collect_eq hg lhs
      have hrhs := hsecond.collect_eq hg.1 fun c v hv => hv.collect_eq hg.1 fun c v =>
        ExprCode.collect_eq hg rhs
      simp [hg.binary, hlhs, hrhs, hg.silent]
    next =>
      obtain ⟨ty, x, y, c₁, c₂, id, -, rfl, hx, hy⟩ := h
      have hlhs := hx.collect_eq hg.1 fun c v => ExprCode.collect_eq hg lhs
      have hrhs := hy.collect_eq hg.1 fun c v => ExprCode.collect_eq hg rhs
      simp [hg.binary, hlhs, hrhs, hg.silent]
  | .ifExpr cond onTrue onFalse ty, _, v, ⟨x, c₁, first, second, id, rfl, hx, hfirst, hsecond⟩ => by
    have hcond := hx.collect_eq hg.1 fun c v => ExprCode.collect_eq hg cond
    have htrue := hfirst.collect_eq hg.1 fun c v hv => hv.collect_eq hg.1 fun c v =>
      ExprCode.collect_eq hg onTrue
    have hfalse := hsecond.collect_eq hg.1 fun c v hv => hv.collect_eq hg.1 fun c v =>
      ExprCode.collect_eq hg onFalse
    simp [hg.ifExpr, hcond, htrue, hfalse, hg.silent]
  | .list elems ty, _, v, ⟨xs, c₁, id, rfl, hxs⟩ => by
    rw [collect_append, ValuesCode.collect_eq hg elems hxs, collect_leaf, collect_nil, List.append_nil,
      hg.list id xs _ elems ty (ValuesCode.length_eq hxs)]
  | .index base position ty, _, v, ⟨x, i, c₁, c₂, c₃, rfl, hx, hi, hlast⟩ => by
    have hbase := hx.collect_eq hg.1 fun c v => ExprCode.collect_eq hg base
    have hposition := hi.collect_eq hg.1 fun c v => ExprCode.collect_eq hg position
    have hnone : c₃.collect g = [] := by
      split at hlast
      next => exact hlast.collect_eq hg.1
      next elem _ =>
        obtain ⟨id, rfl⟩ := hlast
        simp [hg.silent]
      next => cases hlast
    rw [hg.index, collect_append, collect_append, hbase, hposition, hnone, List.append_nil]
  | .call func args ty, _, v, ⟨label, xs, c₁, id, hlabel, rfl, hxs⟩ => by
    rw [collect_append, ValuesCode.collect_eq hg args hxs, collect_leaf, collect_nil, List.append_nil,
      hg.call id xs _ func label args ty hlabel]

theorem ValuesCode.collect_eq (hg : Collects g names expr stmt) :
    (es : List Expr) → ∀ {c xs}, ValuesCode types names es c xs → c.collect g = es.flatMap expr
  | [], _, xs, ⟨rfl, _⟩ => by
    rfl
  | e :: es, _, xs, ⟨x, rest, c₁, c₂, _, rfl, hx, hrest⟩ => by
    rw [List.flatMap_cons, collect_append, hx.collect_eq hg.1 fun c v => ExprCode.collect_eq hg e,
      ValuesCode.collect_eq hg es hrest]

end

theorem TargetCode.collect_eq (hg : Collects g names expr stmt) {e : Expr}
    (h : TargetCode types names e c v) :
    c.collect g = expr e := by
  cases e with
  | name x ty =>
    obtain ⟨-, rfl⟩ := h
    exact (hg.name x ty).symm
  | index base position ty => exact ExprCode.collect_eq hg _ h.2
  | literal value ty | unary op operand ty | binary op lhs rhs ty | ifExpr cond onTrue onFalse ty
  | list elems ty
  | call func args ty => cases h

theorem TargetsCode.collect_eq (hg : Collects g names expr stmt) (h : TargetsCode types names es c xs) :
    c.collect g = es.flatMap expr := by
  induction es generalizing c xs with
  | nil =>
    obtain ⟨rfl, -⟩ := h
    rfl
  | cons e es ih =>
    obtain ⟨x, rest, c₁, c₂, -, rfl, hx, hrest⟩ := h
    rw [List.flatMap_cons, collect_append, hx.collect_eq hg, ih hrest]

mutual

theorem StmtCode.collect_eq (hg : Collects g names expr stmt) :
    (s : Stmt) → ∀ {c}, StmtCode types names s c → c.collect g = stmt s
  | .expr (.call func args ty), _, ⟨label, xs, c₁, id, hlabel, rfl, hxs⟩ => by
    rw [hg.exprStmt, collect_append, ValuesCode.collect_eq hg args hxs, collect_leaf, collect_nil,
      List.append_nil, hg.call id xs _ func label args ty hlabel]
  | .expr (.literal value ty), c, h | .expr (.name x ty), c, h | .expr (.unary op operand ty), c, h
  | .expr (.binary op lhs rhs ty), c, h | .expr (.ifExpr cond onTrue onFalse ty), c, h
  | .expr (.list elems ty), c, h
  | .expr (.index base position ty), c, h => by
    rw [StmtCode] at h
    · obtain ⟨v, hv⟩ := h
      rw [hg.exprStmt]
      exact hv.collect_eq hg.1 fun c v => ExprCode.collect_eq hg _
    · simp
  | .assign a, _, ⟨v, locations, c₁, c₂, id, rfl, hv, hlocations⟩ => by
    have hvalue := hv.collect_eq hg.1 fun c v => ExprCode.collect_eq hg a.value
    simp [hg.assign, hvalue, hlocations.collect_eq hg, hg.silent]
  | .ret (some e), _, ⟨v, c₁, id, rfl, hv⟩ => by
    simp [hg.retSome, hv.collect_eq hg.1 fun c v => ExprCode.collect_eq hg e, hg.ret]
  | .ret none, _, ⟨v, id, id', rfl⟩ => by
    simp [hg.retNone, hg.nothing, hg.ret]
  | .pass, _, ⟨id, rfl⟩ => by
    simp [hg.pass, hg.silent]
  | .ifElse cond onTrue onFalse, _, ⟨v, c₁, first, second, id, rfl, hv, hfirst, hsecond⟩ => by
    have hcond := hv.collect_eq hg.1 fun c v => ExprCode.collect_eq hg cond
    have htrue := hfirst.collect_eq hg.1 fun c => StmtsCode.collect_eq hg onTrue
    have hfalse := hsecond.collect_eq hg.1 fun c => StmtsCode.collect_eq hg onFalse
    simp [hg.ifElse, hcond, htrue, hfalse, hg.silent]
  | .whileLoop cond body, _, ⟨test, inner, id, rfl, htest, hinner⟩ => by
    have hcond := htest.collect_eq hg.1 fun c v hv => hv.collect_eq hg.1 fun c v =>
      ExprCode.collect_eq hg cond
    have hbody := hinner.collect_eq hg.1 fun c => StmtsCode.collect_eq hg body
    simp [hg.whileLoop, hcond, hbody, hg.silent]
  | .forLoop x iter body, _, ⟨sequence, location, c₁, inner, id, _, rfl, hsequence, hinner⟩ => by
    have hiter := hsequence.collect_eq hg.1 fun c v => ExprCode.collect_eq hg iter
    have hbody := hinner.collect_eq hg.1 fun c => StmtsCode.collect_eq hg body
    simp [hg.forLoop, hiter, hbody, hg.silent]

theorem StmtsCode.collect_eq (hg : Collects g names expr stmt) :
    (ss : List Stmt) → ∀ {c}, StmtsCode types names ss c → c.collect g = ss.flatMap stmt
  | [], c, h => by
    rw [StmtsCode] at h
    subst h
    rfl
  | s :: rest, _, ⟨c₁, c₂, rfl, hs, hrest⟩ => by
    rw [List.flatMap_cons, collect_append, StmtCode.collect_eq hg s hs, StmtsCode.collect_eq hg rest hrest]

end

theorem ParamsCode.collect_eq (hg : Sparse g) {ps : List Param} {args : List ValueId}
    (h : ParamsCode types names ps args c names') :
    c.collect g = [] := by
  induction ps generalizing names args c with
  | nil =>
    obtain ⟨-, rfl, -⟩ := h
    rfl
  | cons p ps ih =>
    obtain ⟨arg, args', location, id₁, id₂, c', names₁, -, -, -, rfl, hrest⟩ := h
    simp [ih hrest, hg.silent]

section Variables

variable {literal : Literal → List α} (hg : Sparse g)
  (hliteral : ∀ id l r, (g ⟨id, .literal l, [], r⟩).toList = literal l)

include hg hliteral

theorem VarCode.collect_eq {v : VarDef} (h : VarCode names v c names') : c.collect g = literal v.init := by
  obtain ⟨location, init, id₁, id₂, id₃, -, rfl⟩ := h
  simp [hliteral, hg.silent]

theorem LocalsCode.collect_eq {decls : List Decl} (h : LocalsCode names decls c names') :
    c.collect g = (decls.filterMap Decl.init?).flatMap literal := by
  induction decls generalizing names c with
  | nil =>
    obtain ⟨rfl, -⟩ := h
    rfl
  | cons decl rest ih =>
    cases decl with
    | var v =>
      obtain ⟨c₁, c₂, names₁, rfl, hvar, hrest⟩ := h
      rw [collect_append, hvar.collect_eq hg hliteral, ih hrest]
      rfl
    | global x =>
      obtain ⟨names₁, -, hrest⟩ := h
      exact ih hrest
    | func f | «nonlocal» x => exact ih h

end Variables

theorem ReturnCode.collect_eq (hret : ∀ id xs r, g ⟨id, .ret, xs, r⟩ = none)
    (hnothing : ∀ id r, g ⟨id, .literal .none, [], r⟩ = none) (h : ReturnCode c) : c.collect g = [] := by
  obtain ⟨v, id, id', rfl⟩ := h
  simp [hret, hnothing]

end Generation

section Loops

variable {types : Types} {c c' : Code} {sequence : ValueId}

theorem ElementCode.collect_eq (hg : Sparse g) {ty : Ty} (h : ElementCode ty sequence index c v) :
    c.collect g = [] := by
  unfold ElementCode at h
  split at h
  next => exact h.collect_eq hg
  next =>
    obtain ⟨address, id₁, id₂, rfl⟩ := h
    simp [hg.silent]
  next => cases h

theorem WhileOf.collect_eq (hg : Sparse g) (hlen : ∀ id xs r, g ⟨id, .call "len", xs, r⟩ = none)
    {target : ValueId} {body : Code} (h : WhileOf types sequence target body c) :
    c.collect g = body.collect g := by
  obtain ⟨_, _, _, _, _, _, _, _, _, _, -, ⟨_, _, _, _, _, _, _, rfl⟩, ⟨_, _, _, _, _, helement, rfl⟩,
    ⟨_, _, _, _, _, _, _, rfl⟩, rfl⟩ := h
  simp [helement.collect_eq hg, hlen, hg.silent, hg.int]

theorem Unrolls.collect_eq (hg : Sparse g) (hlen : ∀ id xs r, g ⟨id, .call "len", xs, r⟩ = none)
    (h : Unrolls types c c') :
    c'.collect g = c.collect g := by
  induction h with
  | nil => rfl
  | leaf _ ih => rw [collect_leaf, collect_leaf, ih]
  | loop hloop _ _ ihb ih => simp [hloop.collect_eq hg hlen, ihb, ih, hg.silent]
  | each _ _ _ ihb ih => rw [collect_each, collect_each, ihb, ih]
  | fork _ _ _ iha ihb ih => rw [collect_fork, collect_fork, iha, ihb, ih]

end Loops

end IR

end Choco
