import Choco.Proofs.DeclaredNames
import Choco.Proofs.Generation
import Mathlib.Data.List.Flatten

namespace Choco

variable {α β : Type}

/-- The types and names that a function declares are as many as it has locations, at least, and all its
variables are different. -/
structure Outline.Fits (o : Outline Variable) (b : Outline IR.ValueId) : Prop where
  length_le : o.vars.length ≤ b.vars.length
  nodup : (o.vars.map Prod.fst).Nodup
  owner : ∀ v ∈ o.vars, v.1.owner = o.label

def Outline.StoredAt (storage : Variable → IR.ValueId) (o : Outline Variable) (b : Outline IR.ValueId) :
    Prop :=
  (o.vars.map fun v => storage v.1) <+: b.vars.map Prod.fst

theorem exists_map_prefix [Inhabited β] [DecidableEq α] {ks : List α} {vs : List β} (hks : ks.Nodup)
    (hlength : ks.length ≤ vs.length) : ∃ f : α → β, ks.map f <+: vs := by
  induction ks generalizing vs with
  | nil => exact ⟨fun _ => default, List.nil_prefix⟩
  | cons k ks ih =>
    cases vs with
    | nil => cases hlength
    | cons v vs =>
      obtain ⟨hk, hks⟩ := List.nodup_cons.mp hks
      obtain ⟨f, hf⟩ := ih hks (Nat.le_of_succ_le_succ hlength)
      have hsame : ks.map (Function.update f k v) = ks.map f :=
        List.map_congr_left fun x hx => Function.update_of_ne (ne_of_mem_of_not_mem hx hk) _ _
      refine ⟨Function.update f k v, ?_⟩
      rw [List.map_cons, Function.update_self, hsame]
      exact (List.prefix_cons_inj v).mpr hf

/-- Functions with different labels do not share variables, so that each can be given its own locations. -/
theorem exists_storage {os : List (Outline Variable)} {bs : List (Outline IR.ValueId)}
    (h : List.Forall₂ Outline.Fits os bs) (hlabels : (os.map Outline.label).Nodup) :
    ∃ storage, List.Forall₂ (Outline.StoredAt storage) os bs := by
  induction h with
  | nil => exact ⟨fun _ => default, .nil⟩
  | @cons o b os bs hfits hrest ih =>
    obtain ⟨hnotMem, hlabels⟩ := List.nodup_cons.mp hlabels
    have hlength : (o.vars.map Prod.fst).length ≤ (b.vars.map Prod.fst).length := by
      simpa using hfits.length_le
    obtain ⟨f, hf⟩ := exists_map_prefix hfits.nodup hlength
    obtain ⟨storage, hstorage⟩ := ih hlabels
    refine ⟨fun v => if v.owner = o.label then f v else storage v, .cons ?_ ?_⟩
    · have hsame : (o.vars.map fun v => if v.1.owner = o.label then f v.1 else storage v.1) =
          (o.vars.map Prod.fst).map f := by
        rw [List.map_map]
        exact List.map_congr_left fun v hv => if_pos (hfits.owner v hv)
      rw [Outline.StoredAt, hsame]
      exact hf
    · rw [List.forall₂_iff_zip] at hrest hstorage ⊢
      refine ⟨hstorage.1, fun {o' b'} hmem => ?_⟩
      have hother : o'.label ≠ o.label := fun he =>
        hnotMem (List.mem_map.mpr ⟨o', (List.of_mem_zip hmem).1, he⟩)
      have hsame : (o'.vars.map fun v => if v.1.owner = o.label then f v.1 else storage v.1) =
          o'.vars.map fun v => storage v.1 :=
        List.map_congr_left fun v hv => if_neg (((hrest.2 hmem).owner v hv).trans_ne hother)
      rw [Outline.StoredAt, hsame]
      exact hstorage.2 hmem

namespace IR

open Code

variable {x : String} {names₁ : Names} {ps : List Param} {args : List ValueId} {decls : List Decl}
  {c₁ c₂ rest : Code} {p : Program}

section Fresh

variable {types : Types} {names names' : Names} {c : Code}

/-- The names that have been bound in the open scope, one after the other; each was new there. -/
structure Names.Adds (names names' : Names) (xs : List String) : Prop where
  isOpen : names'.Open
  nodup : xs.Nodup
  fresh : ∀ x ∈ xs, names.tree.local? names.scope x = none
  bound : ∀ y, (names'.tree.local? names'.scope y).isSome ↔ y ∈ xs ∨ (names.tree.local? names.scope y).isSome

namespace Names.Adds

theorem nil (h : names.Open) : names.Adds names [] := ⟨h, List.nodup_nil, nofun, by simp⟩

theorem define (h : names.Open) {symbol : Symbol} (hrun : names.define x symbol = .ok names') :
    names.Adds names' [x] := by
  refine ⟨(h.define hrun).1, List.nodup_singleton x, by simpa using local?_of_define hrun, fun y => ?_⟩
  obtain ⟨tree, htree, hpure⟩ := Outcome.bind_eq_ok.mp hrun
  cases hpure
  have hlt : names.scope < names.tree.scopes.size := h
  rw [Scopes.local?_define htree]
  by_cases hy : y = x <;> simp [hy, hlt]

theorem append {xs ys : List String} (h : names.Adds names₁ xs) (h' : names₁.Adds names' ys) :
    names.Adds names' (xs ++ ys) := by
  have hnew (y : String) (hy : y ∈ ys) : y ∉ xs ∧ names.tree.local? names.scope y = none := by
    have hnone := h'.fresh y hy
    have hbound := h.bound y
    rw [hnone] at hbound
    simpa using hbound
  refine ⟨h'.isOpen, ?_, ?_, fun y => ?_⟩
  · exact List.nodup_append.mpr ⟨h.nodup, h'.nodup, fun x hx y hy hxy => (hnew y hy).1 (hxy ▸ hx)⟩
  · exact List.forall_mem_append.mpr ⟨h.fresh, fun y hy => (hnew y hy).2⟩
  · rw [h'.bound, h.bound, List.mem_append]
    tauto

end Names.Adds

theorem ParamsCode.adds (h : ParamsCode types names ps args c names') (hopen : names.Open) :
    names.Adds names' (ps.map Param.name) := by
  induction ps generalizing names args c with
  | nil =>
    obtain ⟨-, rfl, rfl⟩ := h
    exact .nil hopen
  | cons p ps ih =>
    obtain ⟨arg, args', location, id₁, id₂, c', names₁, -, -, hdefine, rfl, hrest⟩ := h
    have hadds := Names.Adds.define hopen hdefine
    exact hadds.append (ih hrest hadds.isOpen)

/-- The code of parameters makes a location for each, and uses no names. -/
theorem ParamsCode.declares (h : ParamsCode types names ps args c names') :
    c.vars.map Prod.snd = ps.map Param.ty ∧ ∀ locations labels, c.references locations labels = [] := by
  induction ps generalizing names args c with
  | nil =>
    obtain ⟨-, rfl, rfl⟩ := h
    exact ⟨rfl, fun _ _ => rfl⟩
  | cons p ps ih =>
    obtain ⟨arg, args', location, id₁, id₂, c', names₁, -, -, -, rfl, hrest⟩ := h
    obtain ⟨htypes, hrefs⟩ := ih hrest
    exact ⟨by simp [Node.var?, htypes], by simp [Node.references, hrefs]⟩

def varNames (decls : List Decl) : List String :=
  decls.filterMap fun
    | .var v => some v.name
    | _ => none

theorem map_fst_varDecls (label : String) (decls : List Decl) :
    (decls.filterMap (Decl.var? label)).map Prod.fst = (varNames decls).map (Variable.mk label) := by
  induction decls with
  | nil => rfl
  | cons d decls ih => cases d <;> simp [varNames, Decl.var?] at ih ⊢ <;> exact ih

theorem LocalsCode.adds (h : LocalsCode names decls c names') (hopen : names.Open) :
    ∃ xs, names.Adds names' xs ∧ (varNames decls).Sublist xs := by
  induction decls generalizing names c with
  | nil =>
    obtain ⟨rfl, rfl⟩ := h
    exact ⟨[], .nil hopen, .slnil⟩
  | cons decl rest ih =>
    cases decl with
    | var v =>
      obtain ⟨c₁, c₂, names₁, rfl, ⟨location, init, id₁, id₂, id₃, hdefine, rfl⟩, hrest⟩ := h
      have hadds := Names.Adds.define hopen hdefine
      obtain ⟨xs, hadds', hsub⟩ := ih hrest hadds.isOpen
      exact ⟨v.name :: xs, hadds.append hadds', hsub.cons_cons _⟩
    | global x =>
      obtain ⟨names₁, hdeclare, hrest⟩ := h
      obtain ⟨symbol, -, hdefine⟩ := Outcome.bind_eq_ok.mp hdeclare
      have hadds := Names.Adds.define hopen hdefine
      obtain ⟨xs, hadds', hsub⟩ := ih hrest hadds.isOpen
      exact ⟨x :: xs, hadds.append hadds', hsub.cons _⟩
    | func f | «nonlocal» x => exact ih h hopen

theorem LocalsCode.declares (h : LocalsCode names decls c names') (label : String) :
    c.vars.map Prod.snd = (decls.filterMap (Decl.var? label)).map Prod.snd ∧
      ∀ locations labels, c.references locations labels = [] := by
  induction decls generalizing names c with
  | nil =>
    obtain ⟨rfl, rfl⟩ := h
    exact ⟨rfl, fun _ _ => rfl⟩
  | cons decl rest ih =>
    cases decl with
    | var v =>
      obtain ⟨c₁, c₂, names₁, rfl, ⟨location, init, id₁, id₂, id₃, -, rfl⟩, hrest⟩ := h
      obtain ⟨htypes, hrefs⟩ := ih hrest
      exact ⟨by simp [Node.var?, Decl.var?, htypes], by simp [Node.references, hrefs]⟩
    | global x =>
      obtain ⟨names₁, -, hrest⟩ := h
      exact ih hrest
    | func f | «nonlocal» x => exact ih h

theorem fits_function {label : String} (hopen : names.Open)
    (hparams : ParamsCode types names ps args c₁ names₁) (hlocals : LocalsCode names₁ decls c₂ names')
    (refs : List (Reference Variable)) (refs' : List (Reference ValueId)) :
    Outline.Fits ⟨label, declaredVariables label ps decls, refs⟩
      ⟨label, (c₁ ++ (c₂ ++ rest)).vars, refs'⟩ := by
  have hadds₁ := hparams.adds hopen
  obtain ⟨xs, hadds₂, hsub⟩ := hlocals.adds hadds₁.isOpen
  have hfst : (declaredVariables label ps decls).map Prod.fst = (ps.map Param.name ++ varNames decls).map
      (Variable.mk label) := by
    rw [declaredVariables, List.map_append, List.map_append, map_fst_varDecls, List.map_map, List.map_map]
    rfl
  have howner {v : Variable × Ty} (hv : v ∈ declaredVariables label ps decls) : v.1.owner = label := by
    have hmem : v.1 ∈ (declaredVariables label ps decls).map Prod.fst := List.mem_map_of_mem hv
    rw [hfst] at hmem
    obtain ⟨x, -, hx⟩ := List.mem_map.mp hmem
    rw [← hx]
  refine ⟨?_, ?_, fun v hv => howner hv⟩
  · have hlength₁ := congrArg List.length hparams.declares.1
    have hlength₂ := congrArg List.length (hlocals.declares label).1
    simp only [List.length_map] at hlength₁ hlength₂
    simp only [declaredVariables, vars_append, List.length_append, List.length_map, hlength₁, hlength₂]
    omega
  · rw [hfst]
    refine List.Nodup.map (fun x y hxy => (Variable.mk.inj hxy).2) ?_
    exact (hadds₁.append hadds₂).nodup.sublist (hsub.append_left _)

variable {locations : List ValueId} {labels : List String}

theorem FunctionsTree.fits {path : String} (h : FunctionsTree types names path decls c) (env : Environment) :
    List.Forall₂ Outline.Fits (Decl.outlines env path decls) (c.outlinesWith locations labels) := by
  induction h generalizing env with
  | nil =>
    rw [Decl.outlines]
    exact .nil
  | @func names _ _ _ _ _ _ _ _ _ _ _ _ _ _ _ _ _ _ hparams hlocals _ _ _ hinner _ ihInner ih =>
    rw [outlinesWith_append _ _ hinner.functions, Decl.outlines, FuncDef.outlines, List.append_assoc]
    exact List.rel_append (ihInner _)
      (.cons (fits_function (Names.open_enter names) hparams hlocals _ _) (ih env))
  | var _ _ ih | global _ _ ih | «nonlocal» _ _ ih =>
    rw [Decl.outlines]
    exact ih env

theorem ProgramCode.fits (h : ProgramCode types p c) :
    List.Forall₂ Outline.Fits p.outlines (c.outlinesWith locations labels) := by
  obtain ⟨names₁, names₂, c₁, c₂, c₃, inner, id, rfl, hglobals, htop, hbind, hfunctions, hstmts, hreturn⟩ := h
  have hparams : ParamsCode types {} [] [] .nil {} := ⟨rfl, rfl, rfl⟩
  exact .cons (fits_function Names.open_empty hparams (hglobals.locals htop) _ _) (hfunctions.tree.fits _)

end Fresh

section Mirrors

variable {locations : List ValueId} {labels : List String} {storage : Variable → ValueId} {types : Types}
  {names names' : Names} {env : Environment} {c : Code} {label path : String}

/-- What is declared, with the locations of variables. -/
def Reading.stored (storage : Variable → ValueId) : Reading Symbol where
  symbol := id
  entity
    | .var v => .var (storage v)
    | .func label => .func label
  func _ := rfl
  eq_func e label h := by
    cases e with
    | var v => cases h
    | func label' => rw [Symbol.func.inj h]

theorem Reading.stored_stores (storage : Variable → ValueId) (vars : List (Variable × Ty)) :
    (Reading.stored storage).Stores (vars.map (Prod.map storage id)) vars := by
  induction vars with
  | nil => exact nofun
  | cons v vars ih => exact Reading.stores_cons.mpr ⟨rfl, ih⟩

/-- The scopes that are open at a place hold what is in sight there, at its location. Every function in sight
is one of the module, and what has the label of a built-in function is in sight at the top of the program, and
so everywhere. -/
structure Names.Mirrors (locations : List ValueId) (labels : List String) (storage : Variable → ValueId)
    (names : Names) (env : Environment) : Prop where
  sees : names.Sees (.stored storage) env
  within : names.Within (· ∈ locations)
  functions : env.Within labels
  builtins : ∀ func ∈ builtins, func ∈ labels → ∃ table, env.getLast? = some table ∧
    ∃ entity, (func, entity) ∈ table

theorem Names.Mirrors.resolves (h : names.Mirrors locations labels storage env) :
    names.Resolves locations labels storage env where
  location x v hlocation := by
    refine ⟨h.within.location hlocation, ?_⟩
    have hnearest := h.sees.nearest? x
    obtain ⟨symbol, hsymbol, hv⟩ := Outcome.bind_eq_ok.mp hlocation
    have hlookup : names.lookup? x = some symbol := by
      unfold Scopes.resolve at hsymbol
      split at hsymbol
      next value hlookup =>
        cases hsymbol
        exact hlookup
      next => cases hsymbol
    rw [hlookup] at hnearest
    obtain ⟨entity, hentity, hsame⟩ := Option.map_eq_some_iff.mp hnearest
    cases hsame
    cases entity with
    | var w =>
      cases hv
      exact ⟨w, hentity, rfl⟩
    | func label => cases hv
  callee func label hcallee := by
    obtain hfound | ⟨hnone, rfl, hmem⟩ := h.sees.callee hcallee
    · exact .inl ⟨hfound, h.functions.mem_of_nearest? hfound⟩
    · refine .inr ⟨hnone, rfl, hmem, fun hlabel => ?_⟩
      obtain ⟨table, htable, entity, hentity⟩ := h.builtins _ hmem hlabel
      have hnone := List.findSome?_eq_none_iff.mp hnone table (List.mem_of_getLast? htable)
      rw [List.lookup_eq_none_iff] at hnone
      simpa using hnone _ hentity

/-- The locations that the code of a function makes are those of its variables. -/
theorem stored_split {names₂ : Names} {refs : List (Reference Variable)} {refs' : List (Reference ValueId)}
    (hparams : ParamsCode types names ps args c₁ names₁) (hlocals : LocalsCode names₁ decls c₂ names₂)
    (h : Outline.StoredAt storage ⟨label, declaredVariables label ps decls, refs⟩
      ⟨label, (c₁ ++ (c₂ ++ rest)).vars, refs'⟩) :
    c₁.vars = (ps.map fun p => (⟨label, p.name⟩, p.ty)).map (Prod.map storage id) ∧
      c₂.vars = (decls.filterMap (Decl.var? label)).map (Prod.map storage id) := by
  have htypes₁ := hparams.declares.1
  have htypes₂ := (hlocals.declares label).1
  have hlength₁ := congrArg List.length htypes₁
  have hlength₂ := congrArg List.length htypes₂
  simp only [List.length_map] at hlength₁ hlength₂
  obtain ⟨tail, htail⟩ := h
  simp only [declaredVariables, vars_append, List.map_append, List.append_assoc, List.map_map] at htail
  obtain ⟨hfirst, hrest⟩ := List.append_inj htail (by simp [hlength₁])
  obtain ⟨hsecond, -⟩ := List.append_inj hrest (by simp [hlength₂])
  constructor
  · rw [List.zip_of_prod hfirst.symm htypes₁]
    simp [List.zip_map', Function.comp_def]
  · rw [List.zip_of_prod hsecond.symm htypes₂, List.zip_map']
    rfl

theorem within_bound {ps : List Param} {decls : List Decl} {names₁ names₂ names₃ : Names}
    {args : List ValueId} {c₁ c₂ : Code} (hparams : ParamsCode types names ps args c₁ names₁)
    (hlocals : LocalsCode names₁ decls c₂ names₂) (hbind : Build.bindFunctions names₂ path decls = .ok names₃)
    (hnames : names.Within (· ∈ locations))
    (hallocs : ∀ v, v ∈ c₁.resultsOf Kind.isAlloc ∨ v ∈ c₂.resultsOf Kind.isAlloc → v ∈ locations) :
    names₃.Within (· ∈ locations) := by
  obtain ⟨-, hwithin₁⟩ := hparams.scoped (A := fun _ => True) hnames fun _ _ => trivial
  obtain ⟨-, hwithin₂⟩ := hlocals.scoped (A := fun _ => True) hwithin₁
  refine (hwithin₂.bindFunctions hbind).mono fun v hv => ?_
  rcases hv with hv | hv | hv
  · exact hallocs v (.inr hv.2)
  · exact hallocs v (.inl hv.2)
  · exact hv

theorem Names.Mirrors.inside (h : names.Mirrors locations labels storage env)
    (hlabels : ∀ l ∈ Decl.labels (label ++ ".") decls, l ∈ labels)
    (hsees : names'.Sees (.stored storage) (env.inside label ps decls))
    (hwithin : names'.Within (· ∈ locations)) :
    names'.Mirrors locations labels storage (env.inside label ps decls) where
  sees := hsees
  within := hwithin
  functions := h.functions.inside ps hlabels
  builtins func hfunc hlabel := by
    obtain ⟨table, htable, hentity⟩ := h.builtins func hfunc hlabel
    refine ⟨table, ?_, hentity⟩
    rw [Environment.inside, List.getLast?_cons, htable]
    rfl

/-- What is in sight at the top. A function with the label of a built-in one is declared there, since the
labels of all other functions have dots or are that of the entry function. -/
theorem Names.Mirrors.top (hnames : ∀ name ∈ p.functionNames, '.' ∉ name.toList)
    (hsees : names'.Sees (.stored storage) p.environment) (hwithin : names'.Within (· ∈ locations)) :
    names'.Mirrors locations p.labels storage p.environment where
  sees := hsees
  within := hwithin
  functions := .top p
  builtins func hfunc hlabel := by
    have hdots : ∀ func ∈ Choco.builtins, '.' ∉ func.toList ∧ func ≠ entryFunction := by decide
    obtain ⟨hdot, hne⟩ := hdots func hfunc
    obtain ⟨f, s, hf, heq, hs⟩ := Decl.exists_of_mem_labels ((List.mem_cons.mp hlabel).resolve_left hne)
    rw [String.empty_append, ← String.append_empty (s := func)] at heq
    obtain rfl := eq_of_append_suffix hdot (hnames _ (Decl.name_mem_functionNames hf)) (.inl rfl) hs heq
    exact ⟨_, rfl, _, List.mem_filterMap.mpr ⟨.func f, hf, rfl⟩⟩

theorem outline_eq {names₀ names₂ : Names} {body : List Stmt} {c₃ c₄ : Code}
    (hlocated : Located types locations) (hnames : names.Mirrors locations labels storage env)
    (hparams : ParamsCode types names₀ ps args c₁ names₁) (hlocals : LocalsCode names₁ decls c₂ names₂)
    (hvars₁ : c₁.vars = (ps.map fun p => (⟨label, p.name⟩, p.ty)).map (Prod.map storage id))
    (hvars₂ : c₂.vars = (decls.filterMap (Decl.var? label)).map (Prod.map storage id))
    (hstmts : StmtsCode types names body c₃)
    (hreturn : ReturnCode c₄) (hapart : c₃.Apart locations) :
    (⟨label, (c₁ ++ (c₂ ++ (c₃ ++ c₄))).vars, (c₁ ++ (c₂ ++ (c₃ ++ c₄))).references locations labels⟩ :
      Outline ValueId) = Outline.map storage
        ⟨label, declaredVariables label ps decls, Stmt.listReferences env body⟩ := by
  obtain ⟨hrefs₃, hvars₃⟩ := StmtsCode.uses hnames.resolves hlocated body hstmts hapart
  have hrefs₁ := hparams.declares.2 locations labels
  have hrefs₂ := (hlocals.declares label).2 locations labels
  obtain ⟨v, id, id', rfl⟩ := hreturn
  simp [Outline.map, declaredVariables, Node.var?, Node.references, hrefs₁, hrefs₂, hrefs₃, hvars₁,
    hvars₂, hvars₃]

theorem forall₂_append {R : α → β → Prop} {as as' : List α} {bs bs' : List β}
    (hlength : as.length = bs.length) (h : List.Forall₂ R (as ++ as') (bs ++ bs')) :
    List.Forall₂ R as bs ∧ List.Forall₂ R as' bs' := by
  have hfirst := List.forall₂_take_append _ _ _ h
  have hsecond := List.forall₂_drop_append _ _ _ h
  rw [← hlength] at hfirst hsecond
  rw [List.take_left] at hfirst
  rw [List.drop_left] at hsecond
  exact ⟨hfirst, hsecond⟩

theorem FunctionsTree.outlines_eq (h : FunctionsTree types names path decls c)
    (hlocated : Located types locations) (hnames : names.Mirrors locations labels storage env)
    (hne : env ≠ []) (hallocs : ∀ v ∈ c.resultsOf Kind.isAlloc, v ∈ locations)
    (hapart : c.Apart locations) (hlabels : ∀ l ∈ Decl.labels path decls, l ∈ labels)
    (hstored : List.Forall₂ (Outline.StoredAt storage) (Decl.outlines env path decls)
      (c.outlinesWith locations labels)) :
    c.outlinesWith locations labels = (Decl.outlines env path decls).map (Outline.map storage) := by
  induction h generalizing env with
  | nil =>
    rw [Decl.outlines]
    rfl
  | @func names _ _ _ _ _ _ _ _ _ _ _ _ _ _ _ _ _ _ hparams hlocals hbind hstmts hreturn hinner _
      ihInner ih =>
    rw [Decl.labels, FuncDef.labels, List.append_assoc, List.forall_mem_append] at hlabels
    simp only [resultsOf_append, resultsOf_each, List.mem_append] at hallocs
    rw [apart_append, apart_each, apart_append, apart_append, apart_append] at hapart
    rw [outlinesWith_append _ _ hinner.functions, Decl.outlines, FuncDef.outlines, List.append_assoc]
      at hstored ⊢
    obtain ⟨hstoredInner, hstoredBody⟩ := forall₂_append (hinner.fits _).length_eq hstored
    obtain ⟨hbody, hstoredRest⟩ := List.forall₂_cons.mp hstoredBody
    obtain ⟨hvars₁, hvars₂⟩ := stored_split hparams hlocals hbody
    have hsees := sees_inside hparams hlocals hbind hnames.sees.enter
      (fun _ _ => hne) (hvars₁ ▸ Reading.stored_stores storage _) (hvars₂ ▸ Reading.stored_stores storage _)
    have hwithin := within_bound hparams hlocals hbind (Names.Binds.enter hnames.within) fun v hv =>
      hallocs v (by tauto)
    have hnames₃ := hnames.inside hlabels.1 hsees hwithin
    rw [List.map_append, ihInner hnames₃ (List.cons_ne_nil _ _)
      (fun v hv => hallocs v (.inl hv)) hapart.1 hlabels.1 hstoredInner]
    refine congrArg (_ ++ ·) (congrArg₂ List.cons
      (outline_eq hlocated hnames₃ hparams hlocals hvars₁ hvars₂ hstmts hreturn hapart.2.2.1.2.2.1) ?_)
    exact ih hnames hne (fun v hv => hallocs v (by tauto)) hapart.2.2.2
      (List.forall_mem_cons.mp hlabels.2).2 hstoredRest
  | var _ _ ih | global _ _ ih | «nonlocal» _ _ ih =>
    rw [Decl.labels] at hlabels
    rw [Decl.outlines] at hstored ⊢
    exact ih hnames hne hallocs hapart hlabels hstored

theorem ProgramCode.outlines_eq (h : ProgramCode types p c)
    (hnames : ∀ name ∈ p.functionNames, '.' ∉ name.toList) (hlocated : Located types locations)
    (hallocs : ∀ v ∈ c.resultsOf Kind.isAlloc, v ∈ locations) (hapart : c.Apart locations)
    (hstored : List.Forall₂ (Outline.StoredAt storage) p.outlines (c.outlinesWith locations p.labels)) :
    c.outlinesWith locations p.labels = p.outlines.map (Outline.map storage) := by
  obtain ⟨names₁, names₂, c₁, c₂, c₃, inner, funcId, rfl, hglobals, htop, hbind, hfunctions, hstmts,
    hreturn⟩ := h
  have hparams : ParamsCode types {} [] [] .nil {} := ⟨rfl, rfl, rfl⟩
  have hlocals := hglobals.locals htop
  simp only [resultsOf_append, resultsOf_each, List.mem_append] at hallocs
  rw [apart_each, apart_append, apart_append] at hapart
  obtain ⟨hbody, hstoredInner⟩ := List.forall₂_cons.mp hstored
  obtain ⟨hvars₁, hvars₂⟩ := stored_split hparams hlocals hbody
  have hsees := sees_inside hparams hlocals hbind (Names.shows_top (.stored storage))
    (fun x hx => absurd hx (not_mem_of_checkTop htop x)) (hvars₁ ▸ Reading.stored_stores storage _)
    (hvars₂ ▸ Reading.stored_stores storage _)
  have hwithin := within_bound hparams hlocals hbind (Names.binds_empty _) fun v hv =>
    hallocs v (.inr (.inl (.inl (hv.resolve_left nofun))))
  have hnames₂ := Names.Mirrors.top hnames hsees hwithin
  have hinner := hfunctions.tree.outlines_eq hlocated hnames₂ (List.cons_ne_nil _ _)
    (fun v hv => hallocs v (.inr (.inr hv))) hapart.2.2 (fun l hl => List.mem_cons_of_mem _ hl) hstoredInner
  exact congrArg₂ List.cons (outline_eq hlocated hnames₂ hparams hlocals hvars₁ hvars₂ hstmts hreturn
    hapart.2.1.2.1) hinner

end Mirrors

section Locations

variable {m : Module} {c : Code} {locations : List ValueId} {labels : List String}

theorem Node.map_fst_var? {n : Node} (h : n.Plain ∨ n.kind = .yield ∨ n.kind.hasRegions) :
    n.var?.toList.map Prod.fst = if n.kind.isAlloc then n.results else [] := by
  obtain ⟨id, kind, operands, result⟩ := n
  rcases h with h | rfl | h
  · cases h <;> rfl
  · rfl
  · cases kind <;> first | rfl | cases h

theorem Code.map_fst_vars (h : ∀ n ∈ c.nodes, n.Plain ∨ n.kind = .yield ∨ n.kind.hasRegions) :
    c.vars.map Prod.fst = c.resultsOf Kind.isAlloc := by
  induction c with
  | nil => rfl
  | leaf n rest ih =>
    rw [nodes, List.forall_mem_cons] at h
    rw [vars_leaf, resultsOf_leaf, List.map_append, Node.map_fst_var? h.1, ih h.2]
  | each n args body rest ihb ih =>
    rw [nodes, List.forall_mem_cons, List.forall_mem_append] at h
    rw [vars_each, resultsOf_each, List.map_append, List.map_append, Node.map_fst_var? h.1,
      ihb h.2.1, ih h.2.2]
  | fork n first second rest iha ihb ih =>
    rw [nodes, List.forall_mem_cons, List.forall_mem_append, List.forall_mem_append] at h
    rw [vars_fork, resultsOf_fork, List.map_append, List.map_append, List.map_append, Node.map_fst_var? h.1,
      iha h.2.1, ihb h.2.2.1, ih h.2.2.2]

theorem Code.Functions.map_fst_outlines (h : c.Functions) :
    ((c.outlinesWith locations labels).flatMap Outline.vars).map Prod.fst = c.resultsOf Kind.isAlloc := by
  induction h with
  | nil => rfl
  | @function id label ty args body rest hbody _ ih =>
    have hvars := map_fst_vars fun n hn => hbody.mem_nodes hn
    rw [outlinesWith, List.flatMap_cons, List.map_append, hvars, ih, resultsOf_each]
    rfl

theorem Code.outlinesWith_resolved {o : Outline ValueId} (ho : o ∈ c.outlinesWith locations labels)
    {r : Reference ValueId} (hr : r ∈ o.references) : r.Resolved locations labels := by
  fun_induction outlinesWith locations labels c with
  | case1 id label ty operands result args body rest ih =>
    obtain rfl | ho := List.mem_cons.mp ho
    · obtain ⟨n, -, hn⟩ := List.mem_flatMap.mp hr
      exact Node.resolved_references hn
    · exact ih ho
  | _ => cases ho

theorem Module.Models.located (h : m.Models c .nil) (hc : c.Functions) :
    Located m.types (c.resultsOf Kind.isAlloc) ∧ c.Apart (c.resultsOf Kind.isAlloc) := by
  refine ⟨fun v hv => ?_, fun n hn hkind v hv hmem => ?_⟩
  · obtain ⟨n, hn, halloc, hv⟩ := (mem_resultsOf _).mp hv
    obtain ⟨parent, args, hnode⟩ := h.holds.hasNode hn
    have hplain := hc.mem_nodes hn
    obtain ⟨id, kind, operands, result⟩ := n
    rcases hplain with hplain | rfl | hregions
    · cases hplain <;> try cases halloc
      next ty w =>
        obtain rfl : v = w := by simpa [Node.results] using hv
        exact ⟨ty, m.typed_types _ _ (hnode.value ⟨v, .location ty⟩ rfl)⟩
    · cases halloc
    · cases kind <;> simp_all [Kind.isAlloc, Kind.hasRegions]
  · obtain ⟨n', hn', halloc, hv'⟩ := (mem_resultsOf _).mp hmem
    rw [eq_of_mem_results h.distinct.of_append_left hn hn' hv hv', halloc] at hkind
    cases hkind

end Locations

/-- Names keep their meaning: the functions of a module are those of the program, under different labels, and
where the program uses a name, the module uses the location or the label of what the nearest declaration in
sight makes of that name. -/
theorem ofProgram_resolves {p : Program} {m : Module} (h : Module.ofProgram p = .ok m)
    (hnames : ∀ name ∈ p.functionNames, '.' ∉ name.toList) :
    ∃ c storage, m.Models c .nil ∧ c.Functions ∧ c.labels.Nodup ∧ c.labels.head? = some entryFunction ∧
      c.outlines = p.outlines.map (Outline.map storage) ∧
      (∀ o ∈ c.outlines, ∀ r ∈ o.references,
        r.Resolved ((c.outlines.flatMap Outline.vars).map Prod.fst) c.labels) ∧
      ((p.outlines.flatMap Outline.vars).map fun v => storage v.1).Nodup := by
  obtain ⟨c, hmodels, -, hcode⟩ := ofProgram_models h
  have hcode := hcode m.types m.typed_types
  have hlabels := hcode.calls.1
  have hnodup := hcode.nodup_labels hnames
  obtain ⟨hlocated, hapart⟩ := hmodels.located hcode.functions
  obtain ⟨storage, hstored⟩ := exists_storage hcode.fits (p.map_label_outlines ▸ hnodup)
  have houtlines := hcode.outlines_eq hnames hlocated (fun _ hv => hv) hapart hstored
  rw [← hlabels] at houtlines hnodup
  have hvars : (c.outlines.flatMap Outline.vars).map Prod.fst = c.resultsOf Kind.isAlloc :=
    hcode.functions.map_fst_outlines
  refine ⟨c, storage, hmodels, hcode.functions, hnodup, hlabels ▸ rfl, houtlines, fun o ho r hr => ?_, ?_⟩
  · rw [hvars]
    exact outlinesWith_resolved ho hr
  · have hstorage : (p.outlines.flatMap Outline.vars).map (fun v => storage v.1) =
        c.resultsOf Kind.isAlloc := by
      rw [← hvars, outlines, houtlines, List.flatMap_map, List.map_flatMap, List.map_flatMap]
      simp [Outline.map, Function.comp_def]
    rw [hstorage]
    exact hmodels.distinct.of_append_left.sublist (List.filter_sublist.flatMap _)

/-- A program with a variable `x` and a function `f(x)`. In the function `g` of `f`, and in the function `h`
of `g`, `x` is the variable of the program again; `i` is the variable of `f`, except in `h`, which has its
own. The name `len` does not mean the built-in function. -/
def hiddenNames : Program where
  decls := [
    .var ⟨"x", .int, .int 7⟩,
    .func ⟨"f", [⟨"x", .int⟩], .int,
      [.func ⟨"g", [], .int,
        [.global "x",
          .func ⟨"h", [], .int, [.var ⟨"i", .int, .int 0⟩],
            [.assign ⟨.name "i" .int, [], .name "x" .int⟩, .ret (some (.call "g" [] .int))]⟩],
        [.forLoop "x" (.list [.name "i" .int] (.list .int)) [.pass], .ret (some (.call "h" [] .int))]⟩,
      .var ⟨"i", .int, .int 1⟩],
      [.assign ⟨.name "x" .int, [], .call "g" [] .int⟩, .ret (some (.name "x" .int))]⟩,
    .func (.ofBody "len" [] .int [.ret (some (.call "f" [.name "x" .int] .int))])]
  stmts := [.expr (.call "print" [.call "len" [] .int] .none)]

theorem resolves_hiddenNames :
    ∃ (m : Module) (c : Code) (storage : Variable → ValueId), Module.ofProgram hiddenNames = .ok m ∧
      m.Models c .nil ∧ c.outlines.map (Outline.references) = [
        [.call "len", .builtin "print"],
        [.read (storage ⟨entryFunction, "x"⟩), .assigned (storage ⟨"f.g.h", "i"⟩), .call "f.g"],
        [.read (storage ⟨"f", "i"⟩), .bound (storage ⟨entryFunction, "x"⟩), .call "f.g.h"],
        [.call "f.g", .assigned (storage ⟨"f", "x"⟩), .read (storage ⟨"f", "x"⟩)],
        [.read (storage ⟨entryFunction, "x"⟩), .call "f"]] ∧
      storage ⟨entryFunction, "x"⟩ ≠ storage ⟨"f", "x"⟩ ∧ storage ⟨"f.g.h", "i"⟩ ≠ storage ⟨"f", "i"⟩ := by
  have hok : (Module.ofProgram hiddenNames).isOk := by decide +kernel
  cases hm : Module.ofProgram hiddenNames with
  | error e =>
    rw [hm] at hok
    cases hok
  | ok m =>
    obtain ⟨c, storage, hmodels, -, -, -, houtlines, -, hdistinct⟩ := ofProgram_resolves hm (by decide)
    have hrefs : hiddenNames.outlines.map Outline.references = [
        [.call "len", .builtin "print"],
        [.read ⟨entryFunction, "x"⟩, .assigned ⟨"f.g.h", "i"⟩, .call "f.g"],
        [.read ⟨"f", "i"⟩, .bound ⟨entryFunction, "x"⟩, .call "f.g.h"],
        [.call "f.g", .assigned ⟨"f", "x"⟩, .read ⟨"f", "x"⟩],
        [.read ⟨entryFunction, "x"⟩, .call "f"]] := by decide
    have hvars : (hiddenNames.outlines.flatMap Outline.vars).map Prod.fst =
        [⟨entryFunction, "x"⟩, ⟨"f.g.h", "i"⟩, ⟨"f", "x"⟩, ⟨"f", "i"⟩] := by decide
    refine ⟨m, c, storage, rfl, hmodels, ?_, ?_⟩
    · rw [houtlines, List.map_map]
      exact congrArg (List.map (List.map (Reference.map storage))) hrefs
    · have hdistinct : (([⟨entryFunction, "x"⟩, ⟨"f.g.h", "i"⟩, ⟨"f", "x"⟩, ⟨"f", "i"⟩] : List Variable).map
          storage).Nodup := by
        rw [← hvars, List.map_map]
        exact hdistinct
      simp only [List.map_cons, List.map_nil, List.nodup_cons, List.mem_cons, List.not_mem_nil, not_or]
        at hdistinct
      exact ⟨hdistinct.1.2.1, hdistinct.2.1.2.1⟩

end IR

end Choco
