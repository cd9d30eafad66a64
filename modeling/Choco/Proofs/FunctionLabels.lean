import Choco.Proofs.Collecting

namespace Choco

mutual

def FuncDef.labels (label : String) : FuncDef → List String
  | ⟨_, _, _, decls, _⟩ => Decl.labels (label ++ ".") decls ++ [label]

def Decl.labels (path : String) : List Decl → List String
  | [] => []
  | .func f :: rest => f.labels (path ++ f.name) ++ Decl.labels path rest
  | .var _ :: rest | .global _ :: rest | .nonlocal _ :: rest => Decl.labels path rest

end

/-- The labels of all functions of a program. -/
def Program.labels (p : Program) : List String := entryFunction :: Decl.labels "" p.decls

theorem FuncDef.label_mem_labels (label : String) (f : FuncDef) : label ∈ f.labels label := by
  cases f
  simp [FuncDef.labels]

theorem Decl.label_mem_labels (path : String) {f : FuncDef} : {decls : List Decl} → .func f ∈ decls →
    path ++ f.name ∈ Decl.labels path decls
  | .func g :: rest, h => by
    rw [Decl.labels, List.mem_append]
    obtain heq | h := List.mem_cons.mp h
    · cases heq
      exact .inl (f.label_mem_labels _)
    · exact .inr (Decl.label_mem_labels path h)
  | .var v :: rest, h | .global x :: rest, h | .nonlocal x :: rest, h => by
    rw [Decl.labels]
    exact Decl.label_mem_labels path ((List.mem_cons.mp h).resolve_left nofun)

namespace IR

variable {P P' : String → Prop} {kind : Kind} {func : String} {args : List ValueId} {e : Code} {n : Node}

def Kind.Calls (P : String → Prop) (kind : Kind) : Prop := ∀ func, kind = .call func → P func

theorem Kind.Calls.mono (h : kind.Calls P) (hP : ∀ func, P func → P' func) :
    kind.Calls P' := fun func hfunc => hP func (h func hfunc)

theorem Kind.calls_call : (Kind.call func).Calls P ↔ P func := by
  refine ⟨fun h => h func rfl, ?_⟩
  rintro h _ ⟨⟩
  exact h

def Code.Calls (P : String → Prop) (c : Code) : Prop := ∀ n ∈ c.nodes, n.kind.Calls P

/-- The labels of the functions in a list of functions. -/
def Code.labels : Code → List String
  | .each ⟨_, .funcDef label _, _, _⟩ _ _ rest => label :: rest.labels
  | .nil | .leaf _ _ | .each _ _ _ _ | .fork _ _ _ _ => []

namespace Code

variable {P : String → Prop} {c d : Code} {n : Node}

theorem calls_nil : nil.Calls P := nofun

theorem calls_append : (c ++ d).Calls P ↔ c.Calls P ∧ d.Calls P := by
  rw [Calls, nodes_append, List.forall_mem_append]
  rfl

theorem calls_leaf : (leaf n c).Calls P ↔ n.kind.Calls P ∧ c.Calls P := List.forall_mem_cons

theorem calls_each : (each n args c d).Calls P ↔ n.kind.Calls P ∧ c.Calls P ∧ d.Calls P := by
  rw [Calls, nodes, List.forall_mem_cons, List.forall_mem_append]
  rfl

theorem calls_fork : (fork n c d e).Calls P ↔ n.kind.Calls P ∧ c.Calls P ∧ d.Calls P ∧ e.Calls P := by
  rw [Calls, nodes, List.forall_mem_cons, List.forall_mem_append, List.forall_mem_append]
  rfl

theorem Calls.append (hc : c.Calls P) (hd : d.Calls P) : (c ++ d).Calls P := calls_append.mpr ⟨hc, hd⟩

theorem Calls.mono (h : c.Calls P) (hP : ∀ func, P func → P' func) : c.Calls P' :=
  fun n hn => (h n hn).mono hP

theorem Calls.leaf (hn : ∀ func, n.kind ≠ .call func) (hc : c.Calls P) : (Code.leaf n c).Calls P :=
  calls_leaf.mpr ⟨fun func hfunc => absurd hfunc (hn func), hc⟩

theorem labels_append (hc : c.Functions) : (c ++ d).labels = c.labels ++ d.labels := by
  induction hc with
  | nil => rfl
  | function id label ty args _ _ ih => simp [labels, ih]

end Code

section Generation

open Code

variable {types : Types} {names names' : Names} {P : String → Prop} {path : String} {decls : List Decl}
  {c : Code}

def Names.Calls (P : String → Prop) (names : Names) : Prop :=
  (∀ func ∈ builtins, P func) ∧ names.Binds fun symbol => ∀ label, symbol = .func label → P label

namespace Names.Calls

variable {x : String}

theorem callee (h : names.Calls P) {label : String} (hlabel : names.callee func = .ok label) : P label := by
  unfold Names.callee at hlabel
  split at hlabel
  next label' hfunc =>
    cases hlabel
    exact h.2.lookup? hfunc label rfl
  next => cases hlabel
  next =>
    split at hlabel
    next hbuiltin =>
      cases hlabel
      exact h.1 func (List.contains_iff_mem.mp hbuiltin)
    next => cases hlabel

theorem enter (h : names.Calls P) : names.enter.Calls P := ⟨h.1, h.2.enter⟩

theorem define (h : names.Calls P) {location : ValueId} (hrun : names.define x (.var location) = .ok names') :
    names'.Calls P := ⟨h.1, h.2.define hrun nofun⟩

theorem declareGlobal (h : names.Calls P) (hrun : names.declareGlobal x = .ok names') : names'.Calls P :=
  ⟨h.1, h.2.declareGlobal hrun⟩

theorem bindFunctions (h : names.Calls P) (hrun : Build.bindFunctions names path decls = .ok names')
    (hP : ∀ label ∈ Decl.labels path decls, P label) : names'.Calls P := by
  refine ⟨h.1, h.2.bindFunctions hrun fun f hf => ?_⟩
  rintro label ⟨⟩
  exact hP _ (Decl.label_mem_labels path hf)

end Names.Calls

open Classical in
noncomputable def Node.stray? (P : String → Prop) (n : Node) : Option Unit :=
  if n.kind.Calls P then none else some ()

theorem Node.stray?_of_ne (h : ∀ func, n.kind ≠ .call func) : n.stray? P = none :=
  if_pos fun func hfunc => absurd hfunc (h func)

theorem Code.calls_iff : c.Calls P ↔ c.collect (Node.stray? P) = [] := by
  simp [Code.Calls, Code.collect, Node.stray?]

theorem sparse_stray : Sparse (Node.stray? P) :=
  ⟨fun _ _ _ h _ => Node.stray?_of_ne h, fun _ _ _ _ => Node.stray?_of_ne (by simp),
    fun _ _ _ => Node.stray?_of_ne (by simp)⟩

theorem stray_literal (id : OpId) (l : Literal) (r : Option Def) :
    ((⟨id, .literal l, [], r⟩ : Node).stray? P).toList = [] := by
  rw [Node.stray?_of_ne (by simp), Option.toList_none]

theorem Names.Calls.collects (h : names.Calls P) :
    Collects (Node.stray? P) names (fun _ => []) fun _ => [] := by
  constructor
  case toSparse => exact sparse_stray
  case call =>
    intro id xs r func label es ty hlabel
    have hcalls : (Kind.call label).Calls P := Kind.calls_call.mpr (h.callee hlabel)
    simp [Node.stray?, hcalls]
  all_goals
    intros
    simp [Node.stray?_of_ne]

theorem StmtsCode.calls (hnames : names.Calls P) {ss : List Stmt} (h : StmtsCode types names ss c) :
    c.Calls P :=
  Code.calls_iff.mpr ((StmtsCode.collect_eq hnames.collects ss h).trans (by simp))

theorem ReturnCode.calls (h : ReturnCode c) : c.Calls P :=
  Code.calls_iff.mpr (h.collect_eq (fun _ _ _ => Node.stray?_of_ne (by simp)) fun _ _ =>
    Node.stray?_of_ne (by simp))

theorem VarCode.names_calls {v : VarDef} (h : VarCode names v c names') (hnames : names.Calls P) :
    names'.Calls P := by
  obtain ⟨location, init, id₁, id₂, id₃, hdefine, rfl⟩ := h
  exact hnames.define hdefine

theorem ParamsCode.calls {ps : List Param} (h : ParamsCode types names ps args c names')
    (hnames : names.Calls P) :
    c.Calls P ∧ names'.Calls P := by
  refine ⟨Code.calls_iff.mpr (h.collect_eq sparse_stray), ?_⟩
  induction ps generalizing names args c with
  | nil =>
    obtain ⟨-, -, rfl⟩ := h
    exact hnames
  | cons p ps ih =>
    obtain ⟨arg, args', location, id₁, id₂, c', names₁, -, -, hdefine, -, hrest⟩ := h
    exact ih hrest (hnames.define hdefine)

theorem LocalsCode.calls (h : LocalsCode names decls c names') (hnames : names.Calls P) :
    c.Calls P ∧ names'.Calls P := by
  refine ⟨Code.calls_iff.mpr ((h.collect_eq sparse_stray stray_literal).trans (by simp)), ?_⟩
  induction decls generalizing names c with
  | nil =>
    obtain ⟨-, rfl⟩ := h
    exact hnames
  | cons decl rest ih =>
    cases decl with
    | var v =>
      obtain ⟨c₁, c₂, names₁, -, hvar, hrest⟩ := h
      exact ih hrest (hvar.names_calls hnames)
    | global x =>
      obtain ⟨names₁, hdeclare, hrest⟩ := h
      exact ih hrest (hnames.declareGlobal hdeclare)
    | func f | «nonlocal» x => exact ih h hnames

theorem FunctionsTree.calls (h : FunctionsTree types names path decls c) (hnames : names.Calls P)
    (hP : ∀ l ∈ Decl.labels path decls, P l) : c.Calls P ∧ c.labels = Decl.labels path decls := by
  induction h with
  | nil => exact ⟨calls_nil, rfl⟩
  | func _ hparams hlocals hbind hstmts hreturn hinner _ ihInner ih =>
    rw [Decl.labels, FuncDef.labels, List.append_assoc, List.forall_mem_append] at hP
    obtain ⟨hcalls₁, hnames₁⟩ := hparams.calls hnames.enter
    obtain ⟨hcalls₂, hnames₂⟩ := hlocals.calls hnames₁
    have hnames₃ := hnames₂.bindFunctions hbind hP.1
    obtain ⟨hcalls, hlabels⟩ := ihInner hnames₃ hP.1
    obtain ⟨hcalls', hlabels'⟩ := ih hnames (List.forall_mem_cons.mp hP.2).2
    have hbody := hcalls₁.append (hcalls₂.append ((StmtsCode.calls hnames₃ hstmts).append hreturn.calls))
    refine ⟨hcalls.append (calls_each.mpr ⟨nofun, hbody, hcalls'⟩), ?_⟩
    rw [labels_append hinner.functions, hlabels, Decl.labels, FuncDef.labels, List.append_assoc, ← hlabels']
    rfl
  | var _ _ ih | global _ _ ih | «nonlocal» _ _ ih =>
    rw [Decl.labels] at hP ⊢
    exact ih hnames hP

theorem ProgramCode.calls {p : Program} (h : ProgramCode types p c) :
    c.labels = p.labels ∧ c.Calls fun func => func ∈ builtins ∨ func ∈ p.labels := by
  obtain ⟨names₁, names₂, c₁, c₂, c₃, inner, id, rfl, hglobals, htop, hbind, hfunctions, hstmts, hreturn⟩ := h
  have hP : ∀ l ∈ Decl.labels "" p.decls, l ∈ builtins ∨ l ∈ p.labels :=
    fun l hl => .inr (List.mem_cons_of_mem _ hl)
  have hempty : ({} : Names).Calls fun func => func ∈ builtins ∨ func ∈ p.labels :=
    ⟨fun func hfunc => .inl hfunc, Names.binds_empty _⟩
  obtain ⟨hcalls₁, hnames₁⟩ := (hglobals.locals htop).calls hempty
  have hnames₂ := hnames₁.bindFunctions hbind hP
  obtain ⟨hcalls, hlabels⟩ := hfunctions.tree.calls hnames₂ hP
  refine ⟨congrArg (List.cons _) hlabels, calls_each.mpr ⟨nofun, ?_, hcalls⟩⟩
  exact hcalls₁.append ((StmtsCode.calls hnames₂ hstmts).append hreturn.calls)

end Generation

section Passes

open Code

variable {types : Types} {P : String → Prop} {c c' : Code} {R : Node → Code → Prop}

theorem Unrolls.calls (h : Unrolls types c c') (hc : c.Calls P) (hlen : P "len") : c'.Calls P := by
  rw [calls_iff] at hc ⊢
  rw [h.collect_eq sparse_stray fun _ _ _ => if_pos (Kind.calls_call.mpr hlen), hc]

theorem Unrolls.labels_eq (h : Unrolls types c c') (hc : c.Functions) : c'.labels = c.labels := by
  induction h with
  | nil => rfl
  | leaf | loop | fork => cases hc
  | each _ _ _ _ ih =>
    cases hc with
    | function id label ty _ _ hrest => exact congrArg (List.cons label) (ih hrest)

theorem Code.Maps.labels_eq (h : c.Maps R c') (hc : c.Functions) : c'.labels = c.labels := by
  induction hc generalizing c' with
  | nil => exact h ▸ rfl
  | function id label ty args _ _ ih =>
    obtain ⟨body', rest', rfl, -, hrest⟩ := h
    exact congrArg (List.cons label) (ih hrest)

theorem Code.Maps.calls (h : c.Maps R c') (hfits : c.Fits fun _ => True)
    (hR : ∀ n e, R n e → n.kind.Calls P → e.Calls P) (hc : c.Calls P) : c'.Calls P :=
  h.forall_nodes (fun _ hn _ => hn) hfits hR hc

theorem Code.labels_sweep (hc : c.Functions) : c.sweep.labels = c.labels := by
  induction hc with
  | nil => rfl
  | function id label ty args _ _ ih => exact congrArg (List.cons label) ih

theorem Code.labels_relabel (θ : ValueId → ValueId) (hc : c.Functions) : (c.relabel θ).labels = c.labels := by
  induction hc with
  | nil => rfl
  | function id label ty args _ _ ih => exact congrArg (List.cons label) ih

theorem Code.Calls.sweep (h : c.Calls P) : c.sweep.Calls P := fun n hn => h n (mem_nodes_sweep hn)

theorem Code.Calls.relabel (h : c.Calls P) (θ : ValueId → ValueId) : (c.relabel θ).Calls P := by
  intro n hn
  rw [Code.relabel, nodes_map] at hn
  obtain ⟨n', hn', rfl⟩ := List.mem_map.mp hn
  exact h n' hn'

def LibraryUse.routine? : LibraryUse → Option String
  | .keep => none
  | .call routine | .negated routine => some routine

theorem LibraryUse.routine_reserved {tys : List Ty} {use : LibraryUse} (h : ofOp kind tys = .ok use) :
    ∀ routine ∈ use.routine?, routine ∈ Library.reserved := by
  unfold ofOp at h
  split at h
  case h_1 =>
    unfold ofPrint at h
    split at h <;> cases h <;> decide
  case h_5 =>
    cases h
    split <;> decide
  all_goals
    cases h
    try decide

theorem LibraryCode.calls (h : LibraryCode types n e) (hn : n.kind.Calls P)
    (hP : ∀ func ∈ Library.reserved, P func) : e.Calls P := by
  cases h with
  | keep h => exact calls_leaf.mpr ⟨hn, calls_nil⟩
  | call routine h =>
    have hroutine := LibraryUse.routine_reserved h routine rfl
    exact calls_leaf.mpr ⟨Kind.calls_call.mpr (hP _ hroutine), calls_nil⟩
  | negated routine h id₁ id₂ equal r hr =>
    have hroutine := LibraryUse.routine_reserved h routine rfl
    exact calls_leaf.mpr ⟨Kind.calls_call.mpr (hP _ hroutine), .leaf nofun calls_nil⟩

theorem FoldCode.calls (h : FoldCode c n e) (hn : n.kind.Calls P) : e.Calls P := by
  cases h with
  | keep => exact calls_leaf.mpr ⟨hn, calls_nil⟩
  | sum id x y j k r hkind hoperands hr hx hy => exact .leaf nofun calls_nil

end Passes

end IR

end Choco
