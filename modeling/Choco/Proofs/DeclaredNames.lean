import Choco.Proofs.NameUses

namespace Choco

namespace Environment

section View

variable {α : Type} (read : Entity → α) (env : Environment)

/-- What is in sight, with what `read` tells of each declaration. -/
def view : List (List (String × α)) := env.map fun table => table.map (Prod.map id read)

theorem lookup_map (table : List (String × Entity)) (x : String) :
    (table.map (Prod.map id read)).lookup x = (table.lookup x).map read := by
  induction table with
  | nil => rfl
  | cons e table ih =>
    obtain ⟨y, entity⟩ := e
    simp only [List.map_cons, Prod.map_apply, id_eq, List.lookup_cons]
    cases x == y
    · exact ih
    · rfl

theorem findSome?_view (x : String) :
    ((env.view read).findSome? fun table => table.lookup x) = (env.nearest? x).map read := by
  rw [nearest?, view, List.findSome?_map]
  induction env with
  | nil => rfl
  | cons table env ih =>
    rw [List.findSome?_cons, List.findSome?_cons, Function.comp_apply, lookup_map]
    cases table.lookup x with
    | none => exact ih
    | some entity => rfl

theorem outermost?_view (x : String) :
    ((env.view read).getLast? >>= fun table => table.lookup x) = (env.outermost? x).map read := by
  rw [outermost?, view, List.getLast?_map]
  cases env.getLast? with
  | none => rfl
  | some table => exact lookup_map read table x

end View

variable {labels : List String} {env : Environment} {x label path : String} {decls : List Decl}

/-- Every function in sight has one of the labels. -/
def Within (labels : List String) (env : Environment) : Prop :=
  ∀ table ∈ env, ∀ x label, (x, Entity.func label) ∈ table → label ∈ labels

namespace Within

theorem mem_of_nearest? (h : env.Within labels) (hfound : env.nearest? x = some (.func label)) :
    label ∈ labels := by
  obtain ⟨table, htable, hlookup⟩ := List.exists_of_findSome?_eq_some hfound
  exact h table htable x label (IR.Names.mem_of_lookup_eq_some hlookup)

theorem mem_of_entity? (h : env.Within labels) (hlabels : ∀ l ∈ Decl.labels path decls, l ∈ labels)
    {l : String} (hmem : (x, Entity.func l) ∈ decls.filterMap (Decl.entity? env label path)) :
    l ∈ labels := by
  obtain ⟨decl, hdecl, hentity⟩ := List.mem_filterMap.mp hmem
  cases decl with
  | var v | «nonlocal» y => cases hentity
  | func f =>
    cases hentity
    exact hlabels _ (Decl.label_mem_labels _ hdecl)
  | global y =>
    obtain ⟨entity, hfound, heq⟩ := Option.map_eq_some_iff.mp hentity
    cases heq
    obtain ⟨outer, houter, hlookup⟩ := Option.bind_eq_some_iff.mp hfound
    exact h outer (List.mem_of_getLast? houter) x l (IR.Names.mem_of_lookup_eq_some hlookup)

theorem inside (h : env.Within labels) (ps : List Param)
    (hlabels : ∀ l ∈ Decl.labels (label ++ ".") decls, l ∈ labels) :
    (env.inside label ps decls).Within labels := by
  intro table htable x l hmem
  obtain rfl | htable := List.mem_cons.mp htable
  · obtain hmem | hmem := List.mem_append.mp hmem
    · obtain ⟨p, -, heq⟩ := List.mem_map.mp hmem
      cases heq
    · exact h.mem_of_entity? hlabels hmem
  · exact h table htable x l hmem

theorem top (p : Program) : p.environment.Within p.labels := by
  intro table htable x l hmem
  obtain rfl := List.mem_singleton.mp htable
  have hempty : Within p.labels [] := nofun
  exact hempty.mem_of_entity? (fun l hl => List.mem_cons_of_mem _ hl) hmem

end Within

end Environment

mutual

theorem FuncDef.map_label_outlines (env : Environment) (label : String) : (f : FuncDef) →
    (f.outlines env label).map Outline.label = f.labels label
  | ⟨_, _, _, decls, _⟩ => by
    rw [FuncDef.outlines, FuncDef.labels, List.map_append, Decl.map_label_outlines]
    rfl

theorem Decl.map_label_outlines (env : Environment) (path : String) : (decls : List Decl) →
    (Decl.outlines env path decls).map Outline.label = Decl.labels path decls
  | [] => by
    rw [Decl.outlines, Decl.labels]
    rfl
  | .func f :: rest => by
    rw [Decl.outlines, Decl.labels, List.map_append, FuncDef.map_label_outlines, Decl.map_label_outlines]
  | .var v :: rest | .global x :: rest | .nonlocal x :: rest => by
    rw [Decl.outlines, Decl.labels]
    exact Decl.map_label_outlines env path rest

end

theorem Program.map_label_outlines (p : Program) : p.outlines.map Outline.label = p.labels :=
  congrArg (List.cons entryFunction) (Decl.map_label_outlines p.environment "" p.decls)

namespace IR

/-- A way to look at symbols and at what is declared, so that a function and its symbol look alike and nothing
else looks like them. -/
structure Reading (α : Type) where
  symbol : Symbol → α
  entity : Entity → α
  func : ∀ label, symbol (.func label) = entity (.func label)
  eq_func : ∀ e label, entity e = entity (.func label) → e = .func label

namespace Reading

variable {α : Type}

/-- Locations that look like the variables that they are made for. -/
def Stores (r : Reading α) (made : List (ValueId × Ty)) (vars : List (Variable × Ty)) : Prop :=
  ∀ v ∈ made.zip vars, r.symbol (.var v.1.1) = r.entity (.var v.2.1)

theorem stores_cons {r : Reading α} {location : ValueId × Ty} {v : Variable × Ty} {made : List (ValueId × Ty)}
    {vars : List (Variable × Ty)} :
    r.Stores (location :: made) (v :: vars) ↔ r.symbol (.var location.1) = r.entity (.var v.1) ∧
      r.Stores made vars :=
  List.forall_mem_cons

end Reading

section Sight

open Code

variable {α : Type} {r : Reading α} {types : Types} {names names' : Names} {env : Environment} {c : Code}
  {label path x : String} {ps : List Param} {args : List ValueId} {decls : List Decl}
  {table : List (String × α)}

/-- The scopes that are open at a place hold what is in sight there. -/
abbrev Names.Sees (names : Names) (r : Reading α) (env : Environment) : Prop :=
  names.Shows r.symbol (env.view r.entity)

/-- At the top, nothing is around the names of the program. -/
theorem Names.shows_top (r : Reading α) : ({} : Names).Shows r.symbol ([] :: Environment.view r.entity []) :=
  .empty _

namespace Names.Sees

theorem nearest? (h : names.Sees r env) (x : String) :
    (env.nearest? x).map r.entity = (names.lookup? x).map r.symbol := by
  rw [← Environment.findSome?_view, h.findSome?_eq]

theorem callee (h : names.Sees r env) {func : String} (hcallee : names.callee func = .ok label) :
    env.nearest? func = some (.func label) ∨ env.nearest? func = none ∧ label = func ∧ func ∈ builtins := by
  have hnearest := h.nearest? func
  unfold Names.callee at hcallee
  split at hcallee
  next label' hlookup =>
    cases hcallee
    rw [hlookup, Option.map_some, r.func] at hnearest
    obtain ⟨entity, hentity, heq⟩ := Option.map_eq_some_iff.mp hnearest
    exact .inl (r.eq_func entity label heq ▸ hentity)
  next => cases hcallee
  next hlookup =>
    rw [hlookup, Option.map_none, Option.map_eq_none_iff] at hnearest
    split at hcallee
    next hbuiltin =>
      cases hcallee
      exact .inr ⟨hnearest, rfl, List.contains_iff_mem.mp hbuiltin⟩
    next => cases hcallee

end Names.Sees

/-- What a declaration in the function with a label binds. -/
def Reading.declared? (r : Reading α) (env : Environment) (label path : String) (d : Decl) :
    Option (String × α) :=
  (d.entity? env label path).map (Prod.map id r.entity)

theorem ParamsCode.shows {outer : List (List (String × α))} (h : ParamsCode types names ps args c names')
    (hnames : names.Shows r.symbol (table :: outer))
    (hstored : r.Stores c.vars (ps.map fun p => (⟨label, p.name⟩, p.ty))) :
    ∃ table', names'.Shows r.symbol (table' :: outer) ∧
      ∀ e, e ∈ table' ↔ e ∈ table ∨ e ∈ ps.map fun p => (p.name, r.entity (.var ⟨label, p.name⟩)) := by
  induction ps generalizing names args c table with
  | nil =>
    obtain ⟨-, -, rfl⟩ := h
    exact ⟨table, hnames, by simp⟩
  | cons p ps ih =>
    obtain ⟨arg, args', location, id₁, id₂, c', names₁, -, -, hdefine, rfl, hrest⟩ := h
    obtain ⟨hlocation, hstored'⟩ := Reading.stores_cons.mp hstored
    obtain ⟨table', hnames', hmem⟩ := ih hrest (hnames.define hdefine).1 hstored'
    refine ⟨table', hnames', fun e => ?_⟩
    rw [hmem, List.mem_cons, List.map_cons, List.mem_cons, hlocation]
    tauto

theorem LocalsCode.shows (h : LocalsCode names decls c names')
    (hnames : names.Shows r.symbol (table :: env.view r.entity))
    (henv : ∀ x, .global x ∈ decls → env ≠ []) (hstored : r.Stores c.vars (decls.filterMap (Decl.var? label)))
    (path : String) :
    ∃ table', names'.Shows r.symbol (table' :: env.view r.entity) ∧
      Declares (r.declared? env label path) decls false table table' := by
  induction decls generalizing names c table with
  | nil =>
    obtain ⟨rfl, rfl⟩ := h
    exact ⟨table, hnames, .nil⟩
  | cons decl rest ih =>
    have hrestEnv (x : String) (hx : .global x ∈ rest) := henv x (List.mem_cons_of_mem _ hx)
    cases decl with
    | var v =>
      obtain ⟨c₁, c₂, names₁, rfl, ⟨location, init, id₁, id₂, id₃, hdefine, rfl⟩, hrest⟩ := h
      obtain ⟨hlocation, hstored'⟩ := Reading.stores_cons.mp hstored
      obtain ⟨table', hnames', hdeclares⟩ := ih hrest (hnames.define hdefine).1 hrestEnv hstored'
      refine ⟨table', hnames', hdeclares.cons rfl ?_⟩
      rw [hlocation]
      rfl
    | global x =>
      obtain ⟨names₁, hdeclare, hrest⟩ := h
      have hne : env.view r.entity ≠ [] := by simpa [Environment.view] using henv x List.mem_cons_self
      obtain ⟨symbol, hsymbol, hnames₁, -⟩ := hnames.declareGlobal hne hdeclare
      rw [Environment.outermost?_view] at hsymbol
      obtain ⟨table', hnames', hdeclares⟩ := ih hrest hnames₁ hrestEnv hstored
      refine ⟨table', hnames', hdeclares.cons rfl ?_⟩
      obtain ⟨entity, hentity, rfl⟩ := Option.map_eq_some_iff.mp hsymbol
      simp [Reading.declared?, Decl.entity?, hentity]
    | func f =>
      obtain ⟨table', hnames', hdeclares⟩ := ih h hnames hrestEnv hstored
      exact ⟨table', hnames', hdeclares.skip (by simp [Decl.isFunction])⟩
    | «nonlocal» x =>
      obtain ⟨table', hnames', hdeclares⟩ := ih h hnames hrestEnv hstored
      exact ⟨table', hnames', hdeclares.skip fun _ => rfl⟩

/-- What is in sight in a new scope once the names of a function are bound in it. -/
theorem sees_inside {names₁ names₂ names₃ : Names} {c₁ c₂ : Code}
    (hparams : ParamsCode types names ps args c₁ names₁) (hlocals : LocalsCode names₁ decls c₂ names₂)
    (hbind : Build.bindFunctions names₂ path decls = .ok names₃)
    (hnames : names.Shows r.symbol ([] :: env.view r.entity)) (henv : ∀ x, .global x ∈ decls → env ≠ [])
    (hstored₁ : r.Stores c₁.vars (ps.map fun p => (⟨label, p.name⟩, p.ty)))
    (hstored₂ : r.Stores c₂.vars (decls.filterMap (Decl.var? label))) :
    names₃.Sees r
      ((ps.map (fun p => (p.name, .var ⟨label, p.name⟩)) ++ decls.filterMap (Decl.entity? env label path)) ::
        env) := by
  obtain ⟨table₁, hnames₁, htable₁⟩ := hparams.shows hnames hstored₁
  obtain ⟨table₂, hnames₂, htable₂⟩ := hlocals.shows hnames₁ henv hstored₂ path
  have hfunc (f : FuncDef) : r.declared? env label path (.func f) =
      some (f.name, r.symbol (.func (path ++ f.name))) := by
    rw [r.func]
    rfl
  obtain ⟨table₃, hnames₃, htable₃⟩ := bindFunctions_shows _ hfunc hbind hnames₂
  have hentities : (decls.filterMap (Decl.entity? env label path)).map (Prod.map id r.entity) =
      decls.filterMap (r.declared? env label path) := List.map_filterMap
  refine hnames₃.congr fun e => ?_
  change e ∈ List.map _ (_ ++ _) ↔ _
  rw [← htable₂.all htable₃ e, List.mem_append, htable₁, List.map_append, List.mem_append, List.map_map,
    hentities]
  simp [Function.comp_def]

end Sight

end IR

end Choco
