import Choco.Proofs.Scope
import Choco.Proofs.Shape

namespace Choco

namespace Scopes

variable {α : Type} {t t' : Scopes α} {name : String} {value : α} {scope : Nat}

theorem exists_local?_of_lookupWithin {n : Nat} (h : t.lookupWithin name n scope = some value) :
    ∃ scope', t.local? scope' name = some value := by
  induction n generalizing scope with
  | zero => cases h
  | succ n ih =>
    rw [lookupWithin] at h
    split at h
    next found hlocal => exact ⟨scope, hlocal.trans h⟩
    next =>
      obtain ⟨parent, -, h⟩ := Option.bind_eq_some_iff.mp h
      exact ih h

theorem local?_enter (t : Scopes α) (parent scope : Nat) (name : String) :
    (t.enter parent).2.local? scope name = t.local? scope name := by
  simp only [enter, local?, Array.getElem?_push]
  split
  next h => simp [h]
  next => rfl

theorem local?_define (h : t.define scope name value = .ok t') (scope' : Nat) (name' : String) :
    t'.local? scope' name' =
      if scope' = scope ∧ name' = name ∧ scope < t.scopes.size then some value
        else t.local? scope' name' := by
  unfold define at h
  split at h
  next => cases h
  next =>
    cases h
    simp only [local?, Array.getElem?_modify]
    by_cases hscope : scope' = scope
    · subst hscope
      by_cases hlt : scope' < t.scopes.size
      · by_cases hname : name' = name
        · simp [hname, hlt]
        · simp [hname, hlt, beq_eq_false_iff_ne.mpr hname, List.lookup_cons]
      · simp [hlt]
    · simp [hscope, Ne.symm hscope]

end Scopes

namespace IR

variable {path : String} {decls : List Decl} {v : ValueId}

namespace Names

variable {P P' : Symbol → Prop} {S S' : ValueId → Prop} {names names' : Names} {x : String} {scope : Nat}
  {symbol : Symbol}

def Binds (P : Symbol → Prop) (names : Names) : Prop :=
  ∀ scope x symbol, names.tree.local? scope x = some symbol → P symbol

theorem Binds.mono (h : names.Binds P) (hP : ∀ symbol, P symbol → P' symbol) : names.Binds P' :=
  fun scope x symbol hsymbol => hP symbol (h scope x symbol hsymbol)

theorem Binds.lookup? (h : names.Binds P) (hsymbol : names.tree.lookup? scope x = some symbol) :
    P symbol := by
  obtain ⟨scope', hlocal⟩ := Scopes.exists_local?_of_lookupWithin hsymbol
  exact h scope' x symbol hlocal

theorem Binds.resolve (h : names.Binds P) (hsymbol : names.tree.resolve scope x = .ok symbol) : P symbol := by
  unfold Scopes.resolve at hsymbol
  split at hsymbol
  next value hlookup =>
    cases hsymbol
    exact h.lookup? hlookup
  next => cases hsymbol

theorem Binds.enter (h : names.Binds P) : names.enter.Binds P := by
  intro scope x symbol hsymbol
  rw [Names.enter, Scopes.local?_enter] at hsymbol
  exact h scope x symbol hsymbol

theorem Binds.define (h : names.Binds P) (hrun : names.define x symbol = .ok names') (hsymbol : P symbol) :
    names'.Binds P := by
  obtain ⟨tree, htree, hpure⟩ := Outcome.bind_eq_ok.mp hrun
  cases hpure
  intro scope y symbol' hsymbol'
  rw [Scopes.local?_define htree] at hsymbol'
  split at hsymbol'
  next => exact Option.some.inj hsymbol' ▸ hsymbol
  next => exact h scope y symbol' hsymbol'

theorem Binds.declareGlobal (h : names.Binds P) (hrun : names.declareGlobal x = .ok names') :
    names'.Binds P := by
  obtain ⟨symbol, hsymbol, hrun⟩ := Outcome.bind_eq_ok.mp hrun
  exact h.define hrun (h.resolve hsymbol)

theorem Binds.bindFunctions (h : names.Binds P) (hrun : Build.bindFunctions names path decls = .ok names')
    (hP : ∀ f, .func f ∈ decls → P (.func (path ++ f.name))) : names'.Binds P := by
  induction decls generalizing names with
  | nil =>
    cases hrun
    exact h
  | cons decl rest ih =>
    have hrest (f : FuncDef) (hf : .func f ∈ rest) := hP f (List.mem_cons_of_mem _ hf)
    cases decl with
    | func f =>
      obtain ⟨names₁, hnames₁, hrun⟩ := Outcome.bind_eq_ok.mp hrun
      exact ih (h.define hnames₁ (hP f List.mem_cons_self)) hrun hrest
    | var v | global y | «nonlocal» y => exact ih h hrun hrest

theorem binds_empty (P : Symbol → Prop) : ({} : Names).Binds P := by
  intro scope x symbol hsymbol
  obtain ⟨s, hs, hsymbol⟩ := Option.bind_eq_some_iff.mp hsymbol
  have hempty : s = {} := by
    cases scope with
    | zero => exact (Option.some.inj hs).symm
    | succ scope => cases hs
  subst hempty
  cases hsymbol

def Within (S : ValueId → Prop) (names : Names) : Prop := names.Binds fun symbol => ∀ v, symbol = .var v → S v

theorem Within.mono (h : names.Within S) (hS : ∀ v, S v → S' v) : names.Within S' :=
  Binds.mono h fun _ hsymbol v hv => hS v (hsymbol v hv)

theorem Within.location (h : names.Within S) (hv : names.location x = .ok v) : S v := by
  obtain ⟨symbol, hsymbol, hv⟩ := Outcome.bind_eq_ok.mp hv
  cases symbol with
  | var location =>
    cases hv
    exact Binds.resolve h hsymbol v rfl
  | func label => cases hv

theorem Within.define (h : names.Within S) (hrun : names.define x (.var v) = .ok names') (hv : S v) :
    names'.Within S := by
  refine Binds.define h hrun ?_
  rintro w ⟨⟩
  exact hv

theorem Within.bindFunctions (h : names.Within S) (hrun : Build.bindFunctions names path decls = .ok names') :
    names'.Within S := Binds.bindFunctions h hrun nofun

end Names

namespace Code

variable {A S : ValueId → Prop} {c c₁ c₂ : Code} {n : Node} {v : ValueId}

theorem Scoped.append (h₁ : c₁.Scoped A S) (h₂ : c₂.Scoped A fun v => v ∈ c₁.tops ∨ S v) :
    (c₁ ++ c₂).Scoped A S :=
  scoped_append.mpr ⟨h₁, h₂⟩

def Leaves (A S : ValueId → Prop) (c : Code) (v : ValueId) : Prop := c.Scoped A S ∧ (v ∈ c.tops ∨ S v)

theorem Leaves.append (h₁ : c₁.Scoped A S) (h₂ : c₂.Leaves A (fun v => v ∈ c₁.tops ∨ S v) v) :
    (c₁ ++ c₂).Leaves A S v := by
  refine ⟨h₁.append h₂.1, ?_⟩
  rw [tops_append, List.mem_append]
  have hv := h₂.2
  tauto

theorem scoped_leaf (h : ∀ x ∈ n.operands, S x) : (leaf n nil).Scoped A S :=
  ⟨fun x hx => Or.inl (h x hx), trivial⟩

theorem leaves_leaf (h : ∀ x ∈ n.operands, S x) (hv : v ∈ n.results) : (leaf n nil).Leaves A S v :=
  ⟨scoped_leaf h, .inl (by simp [tops, hv])⟩

def Makes (c : Code) (v : ValueId) : Prop := v ∈ c.tops ∧ v ∈ c.resultsOf Kind.isAlloc

theorem makes_append : (c₁ ++ c₂).Makes v ↔
    (v ∈ c₁.tops ∨ v ∈ c₂.tops) ∧ (v ∈ c₁.resultsOf Kind.isAlloc ∨ v ∈ c₂.resultsOf Kind.isAlloc) := by
  simp only [Makes, tops_append, resultsOf_append, List.mem_append]

theorem ScopedFunctions.append (hfunctions : c₁.Functions)
    (h₁ : c₁.ScopedFunctions fun v => S v ∨ v ∈ c₂.resultsOf Kind.isAlloc)
    (h₂ : c₂.ScopedFunctions fun v => S v ∨ v ∈ c₁.resultsOf Kind.isAlloc) :
    (c₁ ++ c₂).ScopedFunctions S := by
  induction hfunctions generalizing S with
  | nil =>
    refine h₂.mono fun v hv => ?_
    simpa using hv
  | @function id label ty args body rest hbody hrest ih =>
    obtain ⟨hn, hbody, hrest⟩ := h₁
    rw [each_append]
    refine ⟨hn, hbody.mono (fun _ hv => hv) fun v hv => ?_,
      ih (hrest.mono fun v hv => ?_) (h₂.mono fun v hv => ?_)⟩
    · rw [resultsOf_append, List.mem_append]
      tauto
    · tauto
    · simp only [resultsOf_each, Kind.isAlloc, Bool.false_eq_true, if_false, List.nil_append, List.mem_append]
        at hv
      tauto

end Code

section Generation

open Code

variable {types : Types} {names names' : Names} {A S : ValueId → Prop} {w : ValueId} {c : Code}
  {value : Code → ValueId → Prop}

theorem Build.Loads.leaves (h : Build.Loads types v c w) (hv : S v) : c.Leaves A S w := by
  cases h with
  | load ty id w h => exact leaves_leaf (by simpa using hv) (by simp [Node.results])
  | stay ty h hplain => exact ⟨trivial, .inr hv⟩

theorem Loaded.leaves (h : Loaded types value c w) (hvalue : ∀ c v, value c v → c.Leaves A S v) :
    c.Leaves A S w := by
  obtain ⟨v, c₁, c₂, rfl, hv, hload⟩ := h
  obtain ⟨hscoped, hsight⟩ := hvalue c₁ v hv
  exact .append hscoped (hload.leaves hsight)

theorem Yielded.scoped (h : Yielded value c) (hvalue : ∀ c v, value c v → c.Leaves A S v) : c.Scoped A S := by
  obtain ⟨v, c₁, id, rfl, hv⟩ := h
  obtain ⟨hscoped, hsight⟩ := hvalue c₁ v hv
  exact hscoped.append (scoped_leaf (by simpa using hsight))

theorem Padded.scoped {body : Code → Prop} (h : Padded body c) (hbody : ∀ c, body c → c.Scoped A S) :
    c.Scoped A S := by
  obtain ⟨-, h⟩ | ⟨-, id, rfl⟩ := h
  · exact hbody c h
  · exact scoped_leaf nofun

theorem CharacterCode.leaves {base index : ValueId} (h : CharacterCode base index c v) (hbase : S base)
    (hindex : S index) :
    c.Leaves A S v := by
  obtain ⟨address, code, id₁, id₂, id₃, rfl⟩ := h
  simp [Leaves, Scoped, Node.Sees, tops, Node.results, hbase, hindex]

mutual

theorem ExprCode.leaves {S : ValueId → Prop} (hnames : names.Within S) :
    (e : Expr) → ∀ {c v}, ExprCode types names e c v → c.Leaves A S v
  | .literal value ty, _, v, ⟨id, rfl⟩ => by
    exact leaves_leaf nofun (by simp [Node.results])
  | .name x ty, _, v, ⟨hv, rfl⟩ => by
    exact ⟨trivial, .inr (hnames.location hv)⟩
  | .unary op operand ty, _, v, ⟨x, c₁, id, rfl, hx⟩ => by
    obtain ⟨hscoped, hsight⟩ := hx.leaves fun c v => ExprCode.leaves hnames operand
    exact .append hscoped (leaves_leaf (by simpa using hsight) (by simp [Node.results]))
  | .binary op lhs rhs ty, c, v, h => by
    rw [ExprCode] at h
    split at h
    next =>
      obtain ⟨first, second, id, rfl, hfirst, hsecond⟩ := h
      refine ⟨⟨nofun, hfirst.scoped fun c v hv => ?_, hsecond.scoped fun c v hv => ?_, trivial⟩,
        .inl (by simp [tops, Node.results])⟩
      · exact hv.leaves fun c v => ExprCode.leaves hnames lhs
      · exact hv.leaves fun c v => ExprCode.leaves hnames rhs
    next =>
      obtain ⟨ty, x, y, c₁, c₂, id, -, rfl, hx, hy⟩ := h
      obtain ⟨hscoped₁, hsight₁⟩ := hx.leaves fun c v => ExprCode.leaves hnames lhs
      obtain ⟨hscoped₂, hsight₂⟩ := hy.leaves fun c v => ExprCode.leaves (hnames.mono fun _ => Or.inr) rhs
      exact .append hscoped₁ (.append hscoped₂
        (leaves_leaf (by simp [hsight₁, hsight₂]) (by simp [Node.results])))
  | .ifExpr cond onTrue onFalse ty, _, v, ⟨x, c₁, first, second, id, rfl, hx, hfirst, hsecond⟩ => by
    obtain ⟨hscoped, hsight⟩ := hx.leaves fun c v => ExprCode.leaves hnames cond
    refine .append hscoped ⟨⟨by simpa [Node.Sees] using .inl hsight, hfirst.scoped fun c v hv => ?_,
      hsecond.scoped fun c v hv => ?_, trivial⟩, .inl (by simp [tops, Node.results])⟩
    · exact hv.leaves fun c v => ExprCode.leaves (hnames.mono fun _ => .inr) onTrue
    · exact hv.leaves fun c v => ExprCode.leaves (hnames.mono fun _ => .inr) onFalse
  | .list elems ty, _, v, ⟨xs, c₁, id, rfl, hxs⟩ => by
    obtain ⟨hscoped, hsight⟩ := ValuesCode.leaves hnames elems hxs
    exact .append hscoped (leaves_leaf hsight (by simp [Node.results]))
  | .index base position ty, _, v, ⟨x, i, c₁, c₂, c₃, rfl, hx, hi, hlast⟩ => by
    obtain ⟨hscoped₁, hsight₁⟩ := hx.leaves fun c v => ExprCode.leaves hnames base
    obtain ⟨hscoped₂, hsight₂⟩ := hi.leaves fun c v => ExprCode.leaves (hnames.mono fun _ => Or.inr) position
    refine .append hscoped₁ (.append hscoped₂ ?_)
    split at hlast
    next => exact hlast.leaves (.inr hsight₁) hsight₂
    next elem _ =>
      obtain ⟨id, rfl⟩ := hlast
      exact leaves_leaf (by simp [hsight₁, hsight₂]) (by simp [Node.results])
    next => cases hlast
  | .call func args ty, _, v, ⟨label, xs, c₁, id, _, rfl, hxs⟩ => by
    obtain ⟨hscoped, hsight⟩ := ValuesCode.leaves hnames args hxs
    exact .append hscoped (leaves_leaf hsight (by simp [Node.results]))

theorem ValuesCode.leaves {S : ValueId → Prop} (hnames : names.Within S) :
    (es : List Expr) → ∀ {c xs}, ValuesCode types names es c xs → c.Scoped A S ∧ ∀ x ∈ xs, x ∈ c.tops ∨ S x
  | [], _, _, ⟨rfl, rfl⟩ => by
    exact ⟨trivial, nofun⟩
  | e :: es, _, _, ⟨x, rest, c₁, c₂, rfl, rfl, hx, hrest⟩ => by
    obtain ⟨hscoped₁, hsight₁⟩ := hx.leaves fun c v => ExprCode.leaves hnames e
    obtain ⟨hscoped₂, hsight₂⟩ := ValuesCode.leaves (hnames.mono fun _ => Or.inr) es hrest
    refine ⟨hscoped₁.append hscoped₂, fun y hy => ?_⟩
    rw [tops_append, List.mem_append]
    obtain rfl | hy := List.mem_cons.mp hy
    · tauto
    · have hy := hsight₂ y hy
      tauto

end

theorem TargetCode.leaves (hnames : names.Within S) {e : Expr} (h : TargetCode types names e c v) :
    c.Leaves A S v := by
  cases e with
  | name x ty =>
    obtain ⟨hv, rfl⟩ := h
    exact ⟨trivial, .inr (hnames.location hv)⟩
  | index base position ty => exact ExprCode.leaves hnames _ h.2
  | literal value ty | unary op operand ty | binary op lhs rhs ty | ifExpr cond onTrue onFalse ty
  | list elems ty
  | call func args ty => cases h

theorem TargetsCode.leaves (hnames : names.Within S) {es : List Expr} {xs : List ValueId}
    (h : TargetsCode types names es c xs) :
    c.Scoped A S ∧ ∀ x ∈ xs, x ∈ c.tops ∨ S x := by
  induction es generalizing S c xs with
  | nil =>
    obtain ⟨rfl, rfl⟩ := h
    exact ⟨trivial, nofun⟩
  | cons e es ih =>
    obtain ⟨x, rest, c₁, c₂, rfl, rfl, hx, hrest⟩ := h
    obtain ⟨hscoped₁, hsight₁⟩ := hx.leaves hnames
    obtain ⟨hscoped₂, hsight₂⟩ := ih (hnames.mono fun _ => Or.inr) hrest
    refine ⟨hscoped₁.append hscoped₂, fun y hy => ?_⟩
    rw [tops_append, List.mem_append]
    obtain rfl | hy := List.mem_cons.mp hy
    · tauto
    · have hy := hsight₂ y hy
      tauto

mutual

theorem StmtCode.scoped {A S : ValueId → Prop} (hnames : names.Within S) :
    (s : Stmt) → ∀ {c}, StmtCode types names s c → c.Scoped A S
  | .expr (.call func args ty), _, ⟨label, xs, c₁, id, _, rfl, hxs⟩ => by
    obtain ⟨hscoped, hsight⟩ := ValuesCode.leaves hnames args hxs
    exact hscoped.append (scoped_leaf hsight)
  | .expr (.literal value ty), c, h | .expr (.name x ty), c, h | .expr (.unary op operand ty), c, h
  | .expr (.binary op lhs rhs ty), c, h | .expr (.ifExpr cond onTrue onFalse ty), c, h
  | .expr (.list elems ty), c, h
  | .expr (.index base position ty), c, h => by
    rw [StmtCode] at h
    · obtain ⟨v, hv⟩ := h
      exact (hv.leaves fun c v => ExprCode.leaves hnames _).1
    · simp
  | .assign a, _, ⟨v, locations, c₁, c₂, id, rfl, hv, hlocations⟩ => by
    obtain ⟨hscoped₁, hsight₁⟩ := hv.leaves fun c v => ExprCode.leaves hnames a.value
    obtain ⟨hscoped₂, hsight₂⟩ := hlocations.leaves (hnames.mono fun _ => Or.inr)
    exact hscoped₁.append (hscoped₂.append (scoped_leaf (List.forall_mem_cons.mpr ⟨.inr hsight₁, hsight₂⟩)))
  | .ret (some e), _, ⟨v, c₁, id, rfl, hv⟩ => by
    obtain ⟨hscoped, hsight⟩ := hv.leaves fun c v => ExprCode.leaves hnames e
    exact hscoped.append (scoped_leaf (by simpa using hsight))
  | .ret none, _, ⟨v, id, id', rfl⟩ => by
    simp [Scoped, Node.Sees, Node.results]
  | .pass, _, ⟨id, rfl⟩ => by
    exact scoped_leaf nofun
  | .ifElse cond onTrue onFalse, _, ⟨v, c₁, first, second, id, rfl, hv, hfirst, hsecond⟩ => by
    obtain ⟨hscoped, hsight⟩ := hv.leaves fun c v => ExprCode.leaves hnames cond
    refine hscoped.append ⟨by simpa [Node.Sees] using .inl hsight, hfirst.scoped fun c hc => ?_,
      hsecond.scoped fun c hc => ?_, trivial⟩
    · exact StmtsCode.scoped (hnames.mono fun _ => .inr) onTrue hc
    · exact StmtsCode.scoped (hnames.mono fun _ => .inr) onFalse hc
  | .whileLoop cond body, _, ⟨test, inner, id, rfl, htest, hinner⟩ => by
    refine ⟨nofun, htest.scoped fun c v hv => ?_, hinner.scoped fun c hc => ?_, trivial⟩
    · exact hv.leaves fun c v => ExprCode.leaves hnames cond
    · exact StmtsCode.scoped hnames body hc
  | .forLoop x iter body, _, ⟨sequence, location, c₁, inner, id, hlocation, rfl, hsequence, hinner⟩ => by
    obtain ⟨hscoped, hsight⟩ := hsequence.leaves fun c v => ExprCode.leaves hnames iter
    refine hscoped.append ⟨fun y hy => ?_, hinner.scoped fun c hc => ?_, trivial⟩
    · have hx := hnames.location hlocation
      simp only [List.mem_cons, List.not_mem_nil, or_false] at hy
      obtain rfl | rfl := hy
      · exact .inl hsight
      · exact .inl (.inr hx)
    · exact StmtsCode.scoped (hnames.mono fun _ => .inr) body hc

theorem StmtsCode.scoped {A S : ValueId → Prop} (hnames : names.Within S) :
    (ss : List Stmt) → ∀ {c}, StmtsCode types names ss c → c.Scoped A S
  | [], c, h => by
    rw [StmtsCode] at h
    subst h
    trivial
  | s :: rest, _, ⟨c₁, c₂, rfl, hs, hrest⟩ => by
    exact (StmtCode.scoped hnames s hs).append (StmtsCode.scoped (hnames.mono fun _ => .inr) rest hrest)

end

theorem VarCode.scoped {v : VarDef} (h : VarCode names v c names') (hnames : names.Within S) :
    c.Scoped A S ∧ names'.Within fun v => c.Makes v ∨ S v := by
  obtain ⟨location, init, id₁, id₂, id₃, hdefine, rfl⟩ := h
  refine ⟨by simp [Scoped, Node.Sees, Node.results],
    (hnames.mono fun _ => .inr).define hdefine (.inl ⟨?_, ?_⟩)⟩
  · simp [tops, Node.results]
  · simp [Kind.isAlloc, Node.results]

theorem ParamsCode.scoped {ps : List Param} {args : List ValueId}
    (h : ParamsCode types names ps args c names') (hnames : names.Within S) (hargs : ∀ a ∈ args, A a) :
    c.Scoped A S ∧ names'.Within fun v => c.Makes v ∨ S v := by
  induction ps generalizing names args c S with
  | nil =>
    obtain ⟨rfl, rfl, rfl⟩ := h
    exact ⟨trivial, hnames.mono fun _ => .inr⟩
  | cons p ps ih =>
    obtain ⟨arg, args', location, id₁, id₂, c', names₁, rfl, -, hdefine, rfl, hrest⟩ := h
    rw [List.forall_mem_cons] at hargs
    have hnames₁ : names₁.Within fun v => v = location ∨ S v :=
      (hnames.mono fun _ => .inr).define hdefine (.inl rfl)
    obtain ⟨hscoped, hnames'⟩ := ih hrest hnames₁ hargs.2
    refine ⟨⟨nofun, ?_, hscoped.mono (fun _ hv => hv) ?_⟩, hnames'.mono fun v hv => ?_⟩
    · simp [Node.Sees, Node.results, Kind.isStore, hargs.1]
    · intro v hv
      simpa [Node.results] using hv
    · simp only [Makes, tops, resultsOf_leaf, Kind.isAlloc, Node.results, List.mem_append] at hv ⊢
      obtain ⟨htop, halloc⟩ | rfl | hv := hv
      · exact .inl ⟨by simp [htop], by simp [halloc]⟩
      · exact .inl ⟨by simp, by simp⟩
      · exact .inr hv

theorem Code.Makes.within {c₁ c₂ : Code} (h : names.Within fun v => c₂.Makes v ∨ c₁.Makes v ∨ S v) :
    names.Within fun v => (c₁ ++ c₂).Makes v ∨ S v := by
  refine h.mono fun v hv => ?_
  rw [makes_append]
  simp only [Makes] at hv
  tauto

theorem LocalsCode.scoped (h : LocalsCode names decls c names') (hnames : names.Within S) :
    c.Scoped A S ∧ names'.Within fun v => c.Makes v ∨ S v := by
  induction decls generalizing names c S with
  | nil =>
    obtain ⟨rfl, rfl⟩ := h
    exact ⟨trivial, hnames.mono fun _ => .inr⟩
  | cons decl rest ih =>
    cases decl with
    | var v =>
      obtain ⟨c₁, c₂, names₁, rfl, hvar, hrest⟩ := h
      obtain ⟨hscoped₁, hnames₁⟩ := hvar.scoped (A := A) hnames
      obtain ⟨hscoped₂, hnames'⟩ := ih hrest hnames₁
      exact ⟨hscoped₁.append (hscoped₂.mono (fun _ hv => hv) fun v => Or.imp_left And.left),
        Makes.within hnames'⟩
    | global x =>
      obtain ⟨names₁, hdeclare, hrest⟩ := h
      exact ih hrest (Names.Binds.declareGlobal hnames hdeclare)
    | func f => exact ih h hnames
    | «nonlocal» x => exact ih h hnames

theorem ReturnCode.scoped (h : ReturnCode c) : c.Scoped A S := by
  obtain ⟨v, id, id', rfl⟩ := h
  simp [Scoped, Node.Sees, Node.results]

theorem FunctionsTree.scoped (h : FunctionsTree types names path decls c) (hnames : names.Within S) :
    c.ScopedFunctions S := by
  induction h generalizing S with
  | nil => trivial
  | @func _ _ _ _ _ _ _ _ _ _ _ args c₁ c₂ c₃ c₄ _ _ _ hparams hlocals hbind hstmts hreturn hinner _
      ihInner ih =>
    obtain ⟨hscoped₁, hnames₁⟩ := hparams.scoped (A := (· ∈ args)) (Names.Binds.enter hnames) fun a ha => ha
    obtain ⟨hscoped₂, hnames₂⟩ := hlocals.scoped (A := (· ∈ args)) hnames₁
    have hnames₃ := hnames₂.bindFunctions hbind
    have hscoped₃ := StmtsCode.scoped (A := (· ∈ args)) hnames₃ _ hstmts
    have hscoped : (c₁ ++ (c₂ ++ (c₃ ++ c₄))).Scoped (· ∈ args) S := by
      refine hscoped₁.append ((hscoped₂.mono (fun _ hv => hv) ?_).append
        ((hscoped₃.mono (fun _ hv => hv) ?_).append hreturn.scoped))
      · exact fun v => Or.imp_left And.left
      · exact fun v => Or.imp And.left (Or.imp_left And.left)
    refine .append hinner.functions (ihInner (hnames₃.mono fun v hv => ?_))
      ⟨rfl, hscoped.mono (fun _ hv => hv) fun v hv => .inl (.inl hv),
        ih (hnames.mono fun _ hv => .inl (.inl hv))⟩
    simp only [resultsOf_each, resultsOf_append, List.mem_append]
    simp only [Makes] at hv
    tauto
  | var _ _ ih | global _ _ ih | «nonlocal» _ _ ih => exact ih hnames

theorem ProgramCode.scoped {p : Program} (h : ProgramCode types p c) : c.ScopedFunctions fun _ => False := by
  obtain ⟨names₁, names₂, c₁, c₂, c₃, inner, id, rfl, hglobals, htop, hbind, hinner, hstmts, hreturn⟩ := h
  obtain ⟨hscoped₁, hnames₁⟩ := (hglobals.locals htop).scoped
    (A := (· ∈ [])) (S := fun _ => False) (Names.binds_empty _)
  have hnames₂ := hnames₁.bindFunctions hbind
  have hscoped₂ := StmtsCode.scoped (A := (· ∈ [])) hnames₂ p.stmts hstmts
  refine ⟨rfl,
    Scoped.mono (hscoped₁.append ((hscoped₂.mono (fun _ hv => hv) fun v => Or.imp_left And.left).append
    hreturn.scoped)) (fun _ hv => hv) fun v => .inl, hinner.tree.scoped (hnames₂.mono fun v hv => ?_)⟩
  simp only [resultsOf_append, List.mem_append]
  simp only [Makes] at hv
  tauto

end Generation

end IR

end Choco
