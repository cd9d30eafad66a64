import Choco.Proofs.DeclaredNames
import Choco.Proofs.Traces

namespace Choco

variable {labels : List String} {func : String} {p : Program}

/-- A call of a function of the program, or of a built-in function other than `len`. -/
inductive CallSite where
  | user (label : String)
  | print
  | input
deriving DecidableEq

/-- What a jump to a label is a call of, in a program with functions of these labels. -/
def CallSite.ofTarget? (labels : List String) (target : String) : Option CallSite :=
  if target ∈ labels then some (.user target)
  else if target ∈ [Library.printInt, Library.printBool, Library.printStr] then some .print
  else if target = Library.input then some .input
  else none

def CallSite.ofCallee? (labels : List String) (func : String) : Option CallSite :=
  if func = "print" then some .print else if func = "input" then some .input else ofTarget? labels func

theorem CallSite.ofCallee?_of_mem (hmem : func ∈ labels) (hbuiltins : ∀ func ∈ builtins, func ∉ labels) :
    ofCallee? labels func = some (.user func) := by
  have hprint : func ≠ "print" := fun h => hbuiltins "print" (by decide) (h ▸ hmem)
  have hinput : func ≠ "input" := fun h => hbuiltins "input" (by decide) (h ▸ hmem)
  rw [ofCallee?, if_neg hprint, if_neg hinput, ofTarget?, if_pos hmem]

theorem CallSite.ofCallee?_of_not_mem (h : func ∉ labels) : ofCallee? labels func = ofCallee? [] func := by
  rw [ofCallee?, ofCallee?, ofTarget?, ofTarget?, if_neg h, if_neg List.not_mem_nil]

/-- The call that a use of a name is. -/
def Reference.callSite? {α : Type} : Reference α → Option CallSite
  | .call label => some (.user label)
  | .builtin func => if func = "print" then some .print else if func = "input" then some .input else none
  | .read _ | .assigned _ | .bound _ | .dangling _ => none

/-- The functions of a program, the entry function first: the label and the calls of each, in the order of
evaluation. -/
def Program.callSites (p : Program) : List (String × List CallSite) :=
  p.outlines.map fun o => (o.label, o.references.filterMap Reference.callSite?)

theorem Program.map_fst_callSites (p : Program) : p.callSites.map Prod.fst = p.labels := by
  rw [callSites, List.map_map]
  exact p.map_label_outlines

section Uses

variable (env : Environment)

theorem Environment.callSite?_use (how : Variable → Reference Variable) (hhow : ∀ v, (how v).callSite? = none)
    (x : String) :
    (env.use how x).callSite? = none := by
  unfold Environment.use
  split
  · exact hhow _
  · rfl

theorem Expr.listReferences_eq (es : List Expr) :
    Expr.listReferences env es = es.flatMap (Expr.references env) := by
  induction es with
  | nil => rw [Expr.listReferences, List.flatMap_nil]
  | cons e es ih => rw [Expr.listReferences, List.flatMap_cons, ih]

theorem Stmt.listReferences_eq (ss : List Stmt) :
    Stmt.listReferences env ss = ss.flatMap (Stmt.references env) := by
  induction ss with
  | nil => rw [Stmt.listReferences, List.flatMap_nil]
  | cons s ss ih => rw [Stmt.listReferences, List.flatMap_cons, ih]

/-- The calls that the place of a target takes are those of the target as an expression, and to assign to it
is no call. -/
theorem Expr.callSites_target (e : Expr) :
    (e.placeReferences env).filterMap Reference.callSite? = (e.references env).filterMap Reference.callSite? ∧
      (e.assigned env).filterMap Reference.callSite? = [] := by
  cases e with
  | name x ty =>
    have hread := env.callSite?_use .read (fun _ => rfl) x
    have hassigned := env.callSite?_use .assigned (fun _ => rfl) x
    rw [Expr.placeReferences, Expr.assigned, Expr.references]
    simp [hread, hassigned]
  | _ => exact ⟨rfl, rfl⟩

end Uses

namespace IR

open Code

variable {ps : List Param} {args : List ValueId} {decls : List Decl} {label : String}

/-- The labels of functions, and nothing of variables. -/
def Reading.functionLabels : Reading (Option String) where
  symbol
    | .var _ => none
    | .func label => some label
  entity
    | .var _ => none
    | .func label => some label
  func _ := rfl
  eq_func e label h := by
    cases e with
    | var v => cases h
    | func label' => rw [Option.some.inj h]

def Observer.sites (labels : List String) : Observer CallSite := ⟨none, CallSite.ofCallee? labels⟩

section Sites

variable {labels : List String} {types : Types} {names names' : Names} {env : Environment} {c : Code}

theorem Observer.steady_sites (hbuiltins : ∀ func ∈ builtins, func ∉ labels)
    (hreserved : ∀ func ∈ Library.reserved, func ∉ labels) :
    (Observer.sites labels).Steady := by
  have hcall {func : String} (h : func ∈ builtins ∨ func ∈ Library.reserved) :
      (Observer.sites labels).call func = CallSite.ofCallee? [] func :=
    CallSite.ofCallee?_of_not_mem (h.elim (hbuiltins func) (hreserved func))
  constructor
  · exact (hcall (by decide)).trans (by decide)
  · exact (hcall (by decide)).trans (by decide)
  · exact (hcall (by decide)).trans (by decide)
  · exact (hcall (by decide)).trans (by decide)
  · intro routine hroutine
    have hsame : ∀ routine ∈ [Library.printInt, Library.printBool, Library.printStr],
        routine ∈ Library.reserved ∧ CallSite.ofCallee? [] routine = CallSite.ofCallee? [] "print" := by
          decide
    obtain ⟨hmem, heq⟩ := hsame routine hroutine
    exact (hcall (.inr hmem)).trans (heq.trans (hcall (by decide)).symm)
  · exact (hcall (by decide)).trans
      ((by decide : _ = CallSite.ofCallee? [] "input").trans (hcall (by decide)).symm)

theorem Names.Sees.callSite?_called (h : names.Sees .functionLabels env) (henv : env.Within labels)
    (hbuiltins : ∀ func ∈ builtins, func ∉ labels) (hcallee : names.callee func = .ok label) :
    (env.called func).callSite? = CallSite.ofCallee? labels label := by
  obtain hfound | ⟨hnone, rfl, hmem⟩ := h.callee hcallee
  · rw [Environment.called, hfound, CallSite.ofCallee?_of_mem (henv.mem_of_nearest? hfound) hbuiltins]
    rfl
  · have hsame : ∀ func ∈ builtins,
        CallSite.ofCallee? [] func = (.builtin func : Reference Variable).callSite? := by decide
    rw [Environment.called, hnone, CallSite.ofCallee?_of_not_mem (hbuiltins _ hmem), hsame _ hmem]
    simp [hmem]

theorem Names.Sees.collects (h : names.Sees .functionLabels env) (henv : env.Within labels)
    (hbuiltins : ∀ func ∈ builtins, func ∉ labels) :
    Collects (fun n => (Observer.sites labels).kind n.kind) names
      (fun e => (e.references env).filterMap Reference.callSite?)
      (fun s => (s.references env).filterMap Reference.callSite?) := by
  constructor
  case toSparse => exact sparse_kind _
  case call =>
    intro id xs r func label es ty hlabel
    have hcalled := h.callSite?_called henv hbuiltins hlabel
    rw [Expr.references, Expr.listReferences_eq, List.filterMap_append, List.filterMap_flatMap]
    cases hsite : CallSite.ofCallee? labels label <;>
      simp [Observer.kind, Observer.sites, hcalled, hsite]
  case name =>
    intro x ty
    simp [Expr.references, env.callSite?_use .read (fun _ => rfl) x]
  case assign =>
    intro a
    simp [Stmt.references, List.filterMap_flatMap, Expr.callSites_target]
  case forLoop =>
    intro x e ss
    simp [Stmt.references, Stmt.listReferences_eq, List.filterMap_flatMap,
      env.callSite?_use .bound (fun _ => rfl) x]
  all_goals
    intros
    simp [Expr.references, Stmt.references, Expr.listReferences_eq, Stmt.listReferences_eq,
      List.filterMap_flatMap, Observer.kind, Observer.sites]

theorem StmtsCode.trace_eq (hnames : names.Sees .functionLabels env) (henv : env.Within labels)
    (hbuiltins : ∀ func ∈ builtins, func ∉ labels) (ss : List Stmt) (h : StmtsCode types names ss c) :
    c.trace (.sites labels) = (Stmt.listReferences env ss).filterMap Reference.callSite? := by
  rw [Stmt.listReferences_eq, List.filterMap_flatMap]
  exact StmtsCode.collect_eq (hnames.collects henv hbuiltins) ss h

end Sites

section Functions

variable {labels : List String} {types : Types} {names names' : Names} {env : Environment} {c : Code}
  {α : Type} {path : String}

theorem LocalsCode.trace_eq {o : Observer α} (h : LocalsCode names decls c names') : c.trace o = [] :=
  (h.collect_eq (sparse_kind o) fun _ _ _ => (rfl : _ = [])).trans (by simp)

theorem ParamsCode.trace_eq {o : Observer α} (h : ParamsCode types names ps args c names') :
    c.trace o = [] := h.collect_eq (sparse_kind o)

theorem ReturnCode.trace_sites (h : ReturnCode c) : c.trace (.sites labels) = [] :=
  h.collect_eq (fun _ _ _ => rfl) fun _ _ => rfl

theorem FunctionsTree.traces_eq (hbuiltins : ∀ func ∈ builtins, func ∉ labels)
    (h : FunctionsTree types names path decls c) (hnames : names.Sees .functionLabels env) (hne : env ≠ [])
    (henv : env.Within labels) (hlabels : ∀ l ∈ Decl.labels path decls, l ∈ labels) :
    c.traces (.sites labels) =
      (Decl.outlines env path decls).map fun o => o.references.filterMap Reference.callSite? := by
  induction h generalizing env with
  | nil =>
    rw [Decl.outlines]
    rfl
  | @func _ _ _ names₃ path name ps _ decls _ body _ _ _ _ _ _ _ _ hparams hlocals hbind hstmts hreturn hinner
      _ ihInner ih =>
    rw [Decl.labels, FuncDef.labels, List.append_assoc, List.forall_mem_append] at hlabels
    have hinside : names₃.Sees .functionLabels (env.inside (path ++ name) ps decls) :=
      sees_inside hparams hlocals hbind hnames.enter (fun _ _ => hne) (fun _ _ => rfl) fun _ _ => rfl
    have hwithin := henv.inside ps hlabels.1
    have hfunctions := ihInner hinside (List.cons_ne_nil _ _) hwithin hlabels.1
    have hbody := StmtsCode.trace_eq hinside hwithin hbuiltins body hstmts
    have hrest := ih hnames hne henv (List.forall_mem_cons.mp hlabels.2).2
    rw [traces_append _ hinner.functions, hfunctions, Decl.outlines, FuncDef.outlines, List.append_assoc,
      List.map_append]
    simp [traces, hparams.trace_eq, hlocals.trace_eq, hbody, hreturn.trace_sites, hrest]
  | var _ _ ih | global _ _ ih | «nonlocal» _ _ ih =>
    rw [Decl.labels] at hlabels
    rw [Decl.outlines]
    exact ih hnames hne henv hlabels

theorem ProgramCode.traces_eq (hbuiltins : ∀ func ∈ builtins, func ∉ p.labels) (h : ProgramCode types p c) :
    c.traces (.sites p.labels) = p.callSites.map Prod.snd := by
  obtain ⟨names₁, names₂, c₁, c₂, c₃, inner, id, rfl, hglobals, htop, hbind, hfunctions, hstmts, hreturn⟩ := h
  have hparams : ParamsCode types {} [] [] .nil {} := ⟨rfl, rfl, rfl⟩
  have hlocals := hglobals.locals htop
  have hsees : names₂.Sees .functionLabels p.environment :=
    sees_inside hparams hlocals hbind (Names.shows_top .functionLabels)
    (fun x hx => absurd hx (not_mem_of_checkTop htop x)) (fun _ _ => rfl) fun _ _ => rfl
  have hwithin := Environment.Within.top p
  have hinner := hfunctions.tree.traces_eq hbuiltins hsees (List.cons_ne_nil _ _) hwithin fun l hl =>
    List.mem_cons_of_mem _ hl
  have hbody := StmtsCode.trace_eq hsees hwithin hbuiltins p.stmts hstmts
  simp [traces, hlocals.trace_eq, hbody, hreturn.trace_sites, hinner, Program.callSites, Program.outlines]

end Functions

end IR

mutual

theorem FuncDef.dot_or_name {label name : String} : (f : FuncDef) → name ∈ f.labels label →
    name = label ∨ '.' ∈ name.toList
  | ⟨_, ps, returnTy, decls, body⟩, h => by
    rw [FuncDef.labels, List.mem_append] at h
    obtain h | h := h
    · exact .inr (Decl.dot_mem decls (by simp) h)
    · exact .inl (List.mem_singleton.mp h)

theorem Decl.dot_mem {path name : String} : (decls : List Decl) → '.' ∈ path.toList →
    name ∈ Decl.labels path decls →
    '.' ∈ name.toList
  | [], _, h => by
    rw [Decl.labels] at h
    cases h
  | .func f :: rest, hpath, h => by
    rw [Decl.labels, List.mem_append] at h
    obtain h | h := h
    · obtain rfl | h := FuncDef.dot_or_name f h
      · simp [hpath]
      · exact h
    · exact Decl.dot_mem rest hpath h
  | .var v :: rest, hpath, h | .global x :: rest, hpath, h | .nonlocal x :: rest, hpath, h => by
    rw [Decl.labels] at h
    exact Decl.dot_mem rest hpath h

end

theorem Decl.mem_functionNames {name : String} (hdot : '.' ∉ name.toList) :
    (decls : List Decl) → name ∈ Decl.labels "" decls →
    name ∈ Decl.functionNames decls
  | [], h => by
    rw [Decl.labels] at h
    cases h
  | .func f :: rest, h => by
    rw [Decl.labels, List.mem_append] at h
    rw [Decl.functionNames, List.mem_append]
    obtain h | h := h
    · obtain rfl | h := FuncDef.dot_or_name f h
      · rw [String.empty_append]
        exact .inl f.name_mem_names
      · exact absurd h hdot
    · exact .inr (Decl.mem_functionNames hdot rest h)
  | .var v :: rest, h | .global x :: rest, h | .nonlocal x :: rest, h => by
    rw [Decl.labels] at h
    rw [Decl.functionNames]
    exact Decl.mem_functionNames hdot rest h

theorem Program.builtins_not_mem_labels (h : ∀ name ∈ p.functionNames, name ∉ builtins) :
    ∀ func ∈ builtins, func ∉ p.labels := by
  intro func hfunc hmem
  have hplain : ∀ func ∈ builtins, func ≠ entryFunction ∧ '.' ∉ func.toList := by decide
  obtain ⟨hentry, hdot⟩ := hplain func hfunc
  obtain heq | hmem := List.mem_cons.mp hmem
  · exact hentry heq
  · exact h func (Decl.mem_functionNames hdot p.decls hmem) hfunc

end Choco
