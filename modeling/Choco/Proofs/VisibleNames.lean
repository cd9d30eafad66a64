import Choco.Proofs.Scoping

namespace Choco

namespace Scopes

variable {α : Type} {t t' : Scopes α} {s : Nat} {path : List Nat} {name : String} {value : α} {scope : Nat}

/-- The scopes from one outward to the global one; a scope is opened after the one around it. -/
inductive Path (t : Scopes α) : Nat → List Nat → Prop
  | global (h : t.scopes[0]?.map Scope.parent = some none) : Path t 0 [0]
  | inner {s q : Nat} {path : List Nat} (h : t.scopes[s]?.map Scope.parent = some (some q))
      (hlt : q < s) (hq : Path t q path) :
      Path t s (s :: path)

namespace Path

theorem mono (h : t.Path s path)
    (hparents : ∀ (i : Nat) q, t.scopes[i]?.map Scope.parent = some q →
      t'.scopes[i]?.map Scope.parent = some q) : t'.Path s path := by
  induction h with
  | global h => exact .global (hparents _ _ h)
  | inner h hlt _ ih => exact .inner (hparents _ _ h) hlt ih

theorem lt_size (h : t.Path s path) : s < t.scopes.size := by
  have hsome : ∃ q, t.scopes[s]?.map Scope.parent = some q := by
    cases h with
    | global h => exact ⟨_, h⟩
    | inner h => exact ⟨_, h⟩
  obtain ⟨q, hq⟩ := hsome
  obtain ⟨scope, hscope, -⟩ := Option.map_eq_some_iff.mp hq
  exact (Array.getElem?_eq_some_iff.mp hscope).1

theorem length_le (h : t.Path s path) : path.length ≤ s + 1 := by
  induction h with
  | global => exact Nat.le_refl 1
  | inner _ hlt _ ih =>
    rw [List.length_cons]
    omega

theorem le (h : t.Path s path) : ∀ i ∈ path, i ≤ s := by
  induction h with
  | global => simp
  | inner _ hlt _ ih =>
    rw [List.forall_mem_cons]
    exact ⟨Nat.le_refl _, fun i hi => (ih i hi).trans (Nat.le_of_lt hlt)⟩

theorem exists_cons (h : t.Path s path) : ∃ outer, path = s :: outer ∧ ∀ i ∈ outer, i < s := by
  cases h with
  | global => exact ⟨[], rfl, nofun⟩
  | inner _ hlt hq => exact ⟨_, rfl, fun i hi => (hq.le i hi).trans_lt hlt⟩

theorem global_of (h : t.Path s path) : t.Path 0 [0] ∧ path.getLast? = some 0 := by
  induction h with
  | global h => exact ⟨.global h, rfl⟩
  | inner _ _ _ ih =>
    refine ⟨ih.1, ?_⟩
    rw [List.getLast?_cons, ih.2]
    rfl

theorem lookup?_eq (h : t.Path s path) (name : String) : t.lookup? s name = path.findSome? fun i =>
    t.local? i name := by
  have hwithin {n : Nat} (hn : path.length ≤ n) :
      t.lookupWithin name n s = path.findSome? fun i => t.local? i name := by
    induction h generalizing n with
    | global h =>
      obtain ⟨n, rfl⟩ : ∃ k, n = k + 1 := ⟨n - 1, by simp at hn; omega⟩
      obtain ⟨scope, hscope, hparent⟩ := Option.map_eq_some_iff.mp h
      rw [lookupWithin, List.findSome?_cons, hscope]
      cases t.local? 0 name with
      | some value => rfl
      | none => simp [hparent]
    | inner h _ _ ih =>
      obtain ⟨n, rfl⟩ : ∃ k, n = k + 1 := ⟨n - 1, by simp at hn; omega⟩
      obtain ⟨scope, hscope, hparent⟩ := Option.map_eq_some_iff.mp h
      rw [lookupWithin, List.findSome?_cons, hscope]
      cases t.local? _ name with
      | some value => rfl
      | none => simp [hparent, ih (n := n) (by simpa using hn)]
  exact hwithin (h.length_le.trans h.lt_size)

theorem enter (h : t.Path s path) : (t.enter s).2.Path (t.enter s).1 ((t.enter s).1 :: path) := by
  refine .inner (by simp [Scopes.enter]) h.lt_size (h.mono fun i q hi => ?_)
  obtain ⟨scope, hscope, rfl⟩ := Option.map_eq_some_iff.mp hi
  have hlt : i < t.scopes.size := (Array.getElem?_eq_some_iff.mp hscope).1
  simp [Scopes.enter, Array.getElem?_push, hscope, Nat.ne_of_lt hlt]

theorem define (h : t.Path s path) (hdefine : t.define scope name value = .ok t') : t'.Path s path := by
  refine h.mono fun i q hi => ?_
  unfold Scopes.define at hdefine
  split at hdefine
  next => cases hdefine
  next =>
    cases hdefine
    rw [Array.getElem?_modify]
    split
    next =>
      rw [Option.map_map]
      exact hi
    next => exact hi

end Path

theorem local?_eq_none_of_define (h : t.define scope name value = .ok t') : t.local? scope name = none := by
  unfold define at h
  split at h
  next => cases h
  next hnone => simpa using hnone

end Scopes

namespace IR.Names

variable {α : Type} {read : Symbol → α} {names names' : Names} {env : List (List (String × α))}
  {table table' : List (String × α)} {x : String}

/-- The scopes that are open at a place hold what the tables list, the nearest scope first. -/
def Shows (read : Symbol → α) (names : Names) (env : List (List (String × α))) : Prop :=
  ∃ path, names.tree.Path names.scope path ∧
    List.Forall₂ (fun i table => ∀ x a, (names.tree.local? i x).map read = some a ↔ (x, a) ∈ table) path env

theorem mem_of_lookup_eq_some {a : α} (h : table.lookup x = some a) : (x, a) ∈ table := by
  obtain ⟨before, after, rfl, -⟩ := List.lookup_eq_some_iff.mp h
  simp

theorem lookup_eq {D : String → Option α} (h : ∀ x a, D x = some a ↔ (x, a) ∈ table) (x : String) :
    table.lookup x = D x := by
  cases hlookup : table.lookup x with
  | some a => exact ((h x a).mpr (mem_of_lookup_eq_some hlookup)).symm
  | none =>
    cases hx : D x with
    | none => rfl
    | some a =>
      have hmem := (h x a).mp hx
      rw [List.lookup_eq_none_iff] at hlookup
      simpa using hlookup _ hmem

namespace Shows

theorem empty (read : Symbol → α) : ({} : Names).Shows read [[]] := by
  refine ⟨[0], .global rfl, .cons (fun x a => ?_) .nil⟩
  simp [Scopes.local?]

theorem enter (h : names.Shows read env) : names.enter.Shows read ([] :: env) := by
  obtain ⟨path, hpath, htables⟩ := h
  refine ⟨_, hpath.enter, .cons (fun x a => ?_) (htables.imp fun i table htable x a => ?_)⟩
  · rw [Names.enter, Scopes.local?_enter]
    simp [Scopes.local?, Scopes.enter]
  · rw [Names.enter, Scopes.local?_enter]
    exact htable x a

theorem congr (h : names.Shows read (table :: env)) (heq : ∀ e, e ∈ table' ↔ e ∈ table) :
    names.Shows read (table' :: env) := by
  obtain ⟨path, hpath, htables⟩ := h
  cases htables with
  | cons htable htables => exact ⟨_, hpath, .cons (fun x a => (htable x a).trans (heq _).symm) htables⟩

theorem define (h : names.Shows read (table :: env)) {symbol : Symbol}
    (hrun : names.define x symbol = .ok names') :
    names'.Shows read (((x, read symbol) :: table) :: env) ∧ ∀ a, (x, a) ∉ table := by
  obtain ⟨path, hpath, htables⟩ := h
  obtain ⟨tree, htree, hpure⟩ := Outcome.bind_eq_ok.mp hrun
  cases hpure
  obtain ⟨outer, rfl, houter⟩ := hpath.exists_cons
  have hsize := hpath.lt_size
  have hnone := Scopes.local?_eq_none_of_define htree
  cases htables with
  | cons htable htables =>
    refine ⟨⟨_, hpath.define htree, .cons (fun y a => ?_) ?_⟩, fun a hmem => ?_⟩
    · have htable := htable y a
      rw [Scopes.local?_define htree, List.mem_cons, ← htable, Prod.mk.injEq]
      by_cases hy : y = x
      · subst hy
        simp [hnone, hsize, eq_comm]
      · simp [hy]
    · -- The scopes around the changed one have smaller numbers.
      rw [List.forall₂_iff_zip] at htables ⊢
      refine ⟨htables.1, fun {i} {t} hi y a => ?_⟩
      have hlt := houter i (List.of_mem_zip hi).1
      rw [Scopes.local?_define htree, if_neg fun h => Nat.ne_of_lt hlt h.1]
      exact htables.2 hi y a
    · have hlisted := (htable x a).mpr hmem
      rw [hnone] at hlisted
      cases hlisted

theorem findSome?_eq (h : names.Shows read env) (x : String) :
    (env.findSome? fun table => table.lookup x) = (names.lookup? x).map read := by
  obtain ⟨path, hpath, htables⟩ := h
  rw [Names.lookup?, hpath.lookup?_eq]
  clear hpath
  induction htables with
  | nil => rfl
  | cons htable _ ih =>
    rw [List.findSome?_cons, List.findSome?_cons, lookup_eq htable]
    cases names.tree.local? _ x with
    | none => exact ih
    | some symbol => rfl

theorem declareGlobal (h : names.Shows read (table :: env)) (henv : env ≠ [])
    (hrun : names.declareGlobal x = .ok names') :
    ∃ a, (env.getLast? >>= fun table => table.lookup x) = some a ∧
      names'.Shows read (((x, a) :: table) :: env) ∧
      ∀ a, (x, a) ∉ table := by
  obtain ⟨symbol, hsymbol, hrun⟩ := Outcome.bind_eq_ok.mp hrun
  refine ⟨read symbol, ?_, h.define hrun⟩
  obtain ⟨path, hpath, htables⟩ := h
  obtain ⟨hglobal, hlast⟩ := hpath.global_of
  have hlocal : names.tree.local? 0 x = some symbol := by
    unfold Scopes.resolve at hsymbol
    split at hsymbol
    next value hlookup =>
      cases hsymbol
      rw [Scopes.global, hglobal.lookup?_eq, List.findSome?_cons] at hlookup
      split at hlookup
      next hfound => rw [hfound, hlookup]
      next => cases hlookup
    next => cases hsymbol
  have hlasts {path : List Nat} {env : List (List (String × α))} (hall : List.Forall₂ (fun i table => ∀ x a,
      (names.tree.local? i x).map read = some a ↔ (x, a) ∈ table) path env) (hlast : path.getLast? = some 0) :
      (env.getLast? >>= fun table => table.lookup x) = some (read symbol) := by
    induction hall with
    | nil => cases hlast
    | @cons i table path env htable hrest ih =>
      cases hrest with
      | nil =>
        obtain rfl : i = 0 := by simpa using hlast
        rw [List.getLast?_singleton, Option.bind_eq_bind, Option.bind_some, lookup_eq htable, hlocal]
        rfl
      | cons htable' hrest' =>
        rw [List.getLast?_cons_cons] at hlast
        rw [List.getLast?_cons_cons]
        exact ih hlast
  rw [← hlasts htables hlast]
  cases env with
  | nil => exact absurd rfl henv
  | cons table' env => rw [List.getLast?_cons_cons]

end Shows

end IR.Names

def Decl.isFunction : Decl → Bool
  | .func _ => true
  | .var _ | .global _ | .nonlocal _ => false

section Declares

variable {α : Type} {declared? : Decl → Option (String × α)} {functions : Bool} {d : Decl} {decls : List Decl}
  {table table' : List (String × α)}

/-- A table after the declarations of one kind among `decls`: functions, or all others. -/
def Declares (declared? : Decl → Option (String × α)) (decls : List Decl) (functions : Bool)
    (table table' : List (String × α)) :
    Prop :=
  ∀ e, e ∈ table' ↔ e ∈ table ∨ ∃ d ∈ decls, d.isFunction = functions ∧ declared? d = some e

namespace Declares

theorem nil : Declares declared? [] functions table table := by simp [Declares]

theorem cons {e : String × α} (hd : d.isFunction = functions) (he : declared? d = some e)
    (h : Declares declared? decls functions (e :: table) table') :
    Declares declared? (d :: decls) functions table table' := by
  intro e'
  simp [h e', hd, he]
  tauto

theorem skip (hd : d.isFunction = functions → declared? d = none)
    (h : Declares declared? decls functions table table') :
    Declares declared? (d :: decls) functions table table' := by
  intro e'
  rw [h e']
  simp only [List.mem_cons, exists_eq_or_imp]
  constructor
  · exact Or.imp_right .inr
  · rintro (hmem | ⟨hkind, hsome⟩ | hrest)
    · exact .inl hmem
    · rw [hd hkind] at hsome
      cases hsome
    · exact .inr hrest

theorem all {table₁ table₂ : List (String × α)} (h : Declares declared? decls false table table₁)
    (h' : Declares declared? decls true table₁ table₂) : ∀ e, e ∈ table ++ decls.filterMap declared? ↔
      e ∈ table₂ := by
  intro e
  rw [h', h, List.mem_append, List.mem_filterMap]
  constructor
  · rintro (hmem | ⟨d, hd, he⟩)
    · exact .inl (.inl hmem)
    · cases hkind : d.isFunction with
      | false => exact .inl (.inr ⟨d, hd, hkind, he⟩)
      | true => exact .inr ⟨d, hd, hkind, he⟩
  · rintro ((hmem | ⟨d, hd, -, he⟩) | ⟨d, hd, -, he⟩)
    exacts [Or.inl hmem, .inr ⟨d, hd, he⟩, .inr ⟨d, hd, he⟩]

end Declares

theorem IR.bindFunctions_shows {read : Symbol → α} {names names' : Names} {env : List (List (String × α))}
    {path : String} (declared? : Decl → Option (String × α))
    (hdeclared : ∀ f, declared? (.func f) = some (f.name, read (.func (path ++ f.name))))
    (h : Build.bindFunctions names path decls = .ok names') (hnames : names.Shows read (table :: env)) :
    ∃ table', names'.Shows read (table' :: env) ∧ Declares declared? decls true table table' := by
  induction decls generalizing names table with
  | nil =>
    cases h
    exact ⟨table, hnames, .nil⟩
  | cons decl rest ih =>
    cases decl with
    | func f =>
      obtain ⟨names₁, hnames₁, hrest⟩ := Outcome.bind_eq_ok.mp h
      obtain ⟨table', hnames', hdeclares⟩ := ih hrest (hnames.define hnames₁).1
      exact ⟨table', hnames', hdeclares.cons rfl (hdeclared f)⟩
    | var v | global x | «nonlocal» x =>
      obtain ⟨table', hnames', hdeclares⟩ := ih h hnames
      exact ⟨table', hnames', hdeclares.skip nofun⟩

end Declares

end Choco
