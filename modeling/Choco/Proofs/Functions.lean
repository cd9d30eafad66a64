import Choco.Proofs.Translation

namespace Choco.IR

variable (types : Types)

def VarCode (names : Names) (v : VarDef) (c : Code) (names' : Names) : Prop :=
  ∃ location init id₁ id₂ id₃, names.define v.name (.var location) = .ok names' ∧
    c = .leaf ⟨id₁, .alloc v.ty, [], some ⟨location, .location v.ty⟩⟩
      (.leaf ⟨id₂, .literal v.init, [], some ⟨init, .plain v.init.ty⟩⟩
        (.leaf ⟨id₃, .store, [location, init], none⟩ .nil))

/-- The arguments for parameters, the code that stores them, and the names with the parameters. -/
def ParamsCode : Names → List Param → List ValueId → Code → Names → Prop
  | names, [], args, c, names' => args = [] ∧ c = .nil ∧ names' = names
  | names, p :: rest, args, c, names' =>
    ∃ arg args' location id₁ id₂ c' names₁, args = arg :: args' ∧ types arg = some (.plain p.ty) ∧
      names.define p.name (.var location) = .ok names₁ ∧
      c = .leaf ⟨id₁, .alloc p.ty, [], some ⟨location, .location p.ty⟩⟩
        (.leaf ⟨id₂, .store, [location, arg], none⟩ c') ∧
      ParamsCode names₁ rest args' c' names'

def LocalsCode : Names → List Decl → Code → Names → Prop
  | names, [], c, names' => c = .nil ∧ names' = names
  | names, .var v :: rest, c, names' =>
    ∃ c₁ c₂ names₁, c = c₁ ++ c₂ ∧ VarCode names v c₁ names₁ ∧ LocalsCode names₁ rest c₂ names'
  | names, .global x :: rest, c, names' =>
    ∃ names₁, names.declareGlobal x = .ok names₁ ∧ LocalsCode names₁ rest c names'
  | names, .func _ :: rest, c, names' | names, .nonlocal _ :: rest, c, names' =>
    LocalsCode names rest c names'

def GlobalsCode : Names → List Decl → Code → Names → Prop
  | names, [], c, names' => c = .nil ∧ names' = names
  | names, .var v :: rest, c, names' =>
    ∃ c₁ c₂ names₁, c = c₁ ++ c₂ ∧ VarCode names v c₁ names₁ ∧ GlobalsCode names₁ rest c₂ names'
  | names, .func _ :: rest, c, names' | names, .global _ :: rest, c, names' | names, .nonlocal _ ::
      rest, c, names' =>
    GlobalsCode names rest c names'

def ReturnCode (c : Code) : Prop :=
  ∃ v id id', c = .leaf ⟨id, .literal .none, [], some ⟨v, .plain .none⟩⟩ (.leaf ⟨id', .ret, [v], none⟩ .nil)

mutual

def FunctionCode (names : Names) (label : String) : FuncDef → Code → Prop
  | ⟨_, ps, returnTy, decls, body⟩, c =>
    ∃ names₁ names₂ names₃ args c₁ c₂ c₃ c₄ inner id,
      c = inner ++ .each ⟨id, .funcDef label returnTy, [], none⟩ args (c₁ ++ (c₂ ++ (c₃ ++ c₄))) .nil ∧
      ParamsCode types names.enter ps args c₁ names₁ ∧ LocalsCode names₁ decls c₂ names₂ ∧
      Build.bindFunctions names₂ (label ++ ".") decls = .ok names₃ ∧
      FunctionsCode names₃ (label ++ ".") decls inner ∧ StmtsCode types names₃ body c₃ ∧ ReturnCode c₄

def FunctionsCode (names : Names) (path : String) : List Decl → Code → Prop
  | [], c => c = .nil
  | .func f :: rest, c =>
    ∃ c₁ c₂, c = c₁ ++ c₂ ∧ FunctionCode names (path ++ f.name) f c₁ ∧ FunctionsCode names path rest c₂
  | .var _ :: rest, c | .global _ :: rest, c | .nonlocal _ :: rest, c => FunctionsCode names path rest c

end

/-- The functions of a list of declarations. Those that are nested in a function come before it. -/
inductive FunctionsTree : Names → String → List Decl → Code → Prop
  | nil (names : Names) (path : String) : FunctionsTree names path [] .nil
  | func {names names₁ names₂ names₃ : Names} {path name : String} {ps : List Param} {returnTy : Ty}
      {decls rest : List Decl} {body : List Stmt} {args : List ValueId} {c₁ c₂ c₃ c₄ inner c : Code}
      (id : OpId) (hparams : ParamsCode types names.enter ps args c₁ names₁)
      (hlocals : LocalsCode names₁ decls c₂ names₂) (hbind : Build.bindFunctions names₂
      (path ++ name ++ ".") decls = .ok names₃) (hstmts : StmtsCode types names₃ body c₃)
      (hreturn : ReturnCode c₄) (hinner : FunctionsTree names₃ (path ++ name ++ ".") decls inner)
      (hrest : FunctionsTree names path rest c) :
      FunctionsTree names path (.func ⟨name, ps, returnTy, decls, body⟩ :: rest)
        (inner ++ .each ⟨id, .funcDef (path ++ name) returnTy, [], none⟩ args (c₁ ++ (c₂ ++ (c₃ ++ c₄))) c)
  | var {names : Names} {path : String} {rest : List Decl} {c : Code} (v : VarDef)
      (h : FunctionsTree names path rest c) :
      FunctionsTree names path (.var v :: rest) c
  | global {names : Names} {path : String} {rest : List Decl} {c : Code} (x : String)
      (h : FunctionsTree names path rest c) :
      FunctionsTree names path (.global x :: rest) c
  | «nonlocal» {names : Names} {path : String} {rest : List Decl} {c : Code} (x : String)
      (h : FunctionsTree names path rest c) :
      FunctionsTree names path (.nonlocal x :: rest) c

theorem FunctionsCode.tree {types : Types} {names : Names} {path : String} :
    {decls : List Decl} → {c : Code} →
    FunctionsCode types names path decls c → FunctionsTree types names path decls c
  | [], c, h => by
    rw [FunctionsCode] at h
    exact h ▸ .nil names path
  | .func ⟨name, ps, returnTy, decls, body⟩ :: rest, c, h => by
    rw [FunctionsCode] at h
    obtain ⟨c', c, rfl, hf, hrest⟩ := h
    rw [FunctionCode] at hf
    obtain ⟨names₁, names₂, names₃, args, c₁, c₂, c₃, c₄, inner, id, rfl, hparams, hlocals, hbind, hinner,
      hstmts, hreturn⟩ := hf
    rw [Code.append_assoc]
    exact .func id hparams hlocals hbind hstmts hreturn hinner.tree hrest.tree
  | .var v :: rest, c, h => by
    rw [FunctionsCode] at h
    exact .var v h.tree
  | .global x :: rest, c, h => by
    rw [FunctionsCode] at h
    exact .global x h.tree
  | .nonlocal x :: rest, c, h => by
    rw [FunctionsCode] at h
    exact .nonlocal x h.tree

def ProgramCode (p : Program) (c : Code) : Prop :=
  ∃ names₁ names₂ c₁ c₂ c₃ inner id,
    c = .each ⟨id, .funcDef entryFunction .none, [], none⟩ [] (c₁ ++ (c₂ ++ c₃)) inner ∧
    GlobalsCode {} p.decls c₁ names₁ ∧ Build.checkTop p.decls = .ok () ∧
    Build.bindFunctions names₁ "" p.decls = .ok names₂ ∧
    FunctionsCode types names₂ "" p.decls inner ∧ StmtsCode types names₂ p.stmts c₂ ∧ ReturnCode c₃

theorem GlobalsCode.locals {names names' : Names} {decls : List Decl} {c : Code}
    (h : GlobalsCode names decls c names') (htop : Build.checkTop decls = .ok ()) :
    LocalsCode names decls c names' := by
  induction decls generalizing names c with
  | nil => exact h
  | cons decl rest ih =>
    cases decl with
    | var v =>
      obtain ⟨c₁, c₂, names₁, hc, hvar, hrest⟩ := h
      exact ⟨c₁, c₂, names₁, hc, hvar, ih hrest htop⟩
    | func f =>
      rw [Build.checkTop] at htop
      split at htop
      next => cases htop
      next => exact ih h htop
    | global x | «nonlocal» x => cases htop

theorem not_mem_of_checkTop {decls : List Decl} (h : Build.checkTop decls = .ok ()) (x : String) :
    .global x ∉ decls := by
  induction decls with
  | nil => exact List.not_mem_nil
  | cons decl rest ih =>
    cases decl with
    | var v => exact fun hmem => ih h ((List.mem_cons.mp hmem).resolve_left (by simp))
    | func f =>
      rw [Build.checkTop] at h
      split at h
      next => cases h
      next => exact fun hmem => ih h ((List.mem_cons.mp hmem).resolve_left (by simp))
    | global y | «nonlocal» y => cases h

namespace Build

open Choco.IR.Module

theorem gives_varDef (names : Names) (v : VarDef) :
    Gives (varDef names v) fun _ names' c => VarCode names v c names' := by
  refine ((gives_emit (.alloc v.ty) [] (.location v.ty)).bind fun location =>
    (gives_emit (.literal v.init) [] (.plain v.init.ty)).bind fun init =>
    (gives_emitVoid .store [location, init]).bind fun _ => gives_ofExcept _).imp ?_
  rintro types names' c
    ⟨location, c₁, c₂, rfl, ⟨id₁, rfl⟩, init, c₃, c₄, rfl, ⟨id₂, rfl⟩, -, c₅, c₆, rfl, ⟨id₃, rfl⟩,
      hnames, rfl⟩
  exact ⟨location, init, id₁, id₂, id₃, hnames, rfl⟩

theorem gives_locals (names : Names) (decls : List Decl) :
    Gives (locals names decls) fun _ names' c => LocalsCode names decls c names' := by
  induction decls generalizing names with
  | nil => exact (gives_pure names).imp fun _ names' c h => ⟨h.2, h.1⟩
  | cons decl rest ih =>
    cases decl with
    | var v =>
      refine ((gives_varDef names v).bind fun names₁ => ih names₁).imp ?_
      rintro _ names' c ⟨names₁, c₁, c₂, hc, hvar, hrest⟩
      exact ⟨c₁, c₂, names₁, hc, hvar, hrest⟩
    | global x =>
      refine ((gives_ofExcept (names.declareGlobal x)).bind fun names₁ => ih names₁).imp ?_
      rintro _ names' c ⟨names₁, c₁, c₂, rfl, ⟨hnames, rfl⟩, hrest⟩
      exact ⟨names₁, hnames, hrest⟩
    | func f => exact ih names
    | «nonlocal» x => exact ih names

theorem gives_globals (names : Names) (decls : List Decl) :
    Gives (globals names decls) fun _ names' c => GlobalsCode names decls c names' := by
  induction decls generalizing names with
  | nil => exact (gives_pure names).imp fun _ names' c h => ⟨h.2, h.1⟩
  | cons decl rest ih =>
    cases decl with
    | var v =>
      refine ((gives_varDef names v).bind fun names₁ => ih names₁).imp ?_
      rintro _ names' c ⟨names₁, c₁, c₂, hc, hvar, hrest⟩
      exact ⟨c₁, c₂, names₁, hc, hvar, hrest⟩
    | global x | func f | «nonlocal» x => exact ih names

theorem gives_implicitReturn : Gives implicitReturn fun _ _ c => ReturnCode c := by
  refine ((gives_emit (.literal .none) [] (.plain .none)).bind fun v => gives_emitVoid .ret [v]).imp ?_
  rintro types - c ⟨v, c₁, c₂, rfl, ⟨id, rfl⟩, id', rfl⟩
  exact ⟨v, id, id', rfl⟩

def Unowned (m : Module) (v : ValueId) : Prop := ∃ ty k, m.values[v.index]? = some ⟨ty, .arg none k⟩

theorem gives_params {names names' : Names} {region region' : Region} {ps : List Param} {b b' : Builder}
    (hb : b.module.Sound) (hrun : params names region ps b = .ok (names', region') b') :
    ∃ c args, Grown b b' c ∧ region' = { region with args := region.args ++ args } ∧
      (∀ v ∈ args, b.module.values.size ≤ v.index ∧ Unowned b'.module v) ∧
      ∀ types, b'.module.Typed types → ParamsCode types names ps args c names' := by
  induction ps generalizing names region b with
  | nil =>
    obtain ⟨heq, rfl⟩ := Action.pure_eq_ok.mp hrun
    cases heq
    exact ⟨.nil, [], ⟨.nil hb, by simp [Code.ids]⟩, by simp, by simp, fun _ _ => ⟨rfl, rfl, rfl⟩⟩
  | cons p ps ih =>
    obtain ⟨⟨arg, region₁⟩, b₁, hmake, hrun₁⟩ := Action.bind_eq_ok.mp hrun
    cases hmake
    obtain ⟨location, b₂, halloc, hrun₂⟩ := Action.bind_eq_ok.mp hrun₁
    obtain ⟨u, b₃, hstore, hrun₃⟩ := Action.bind_eq_ok.mp hrun₂
    obtain ⟨names₁, b₄, hnames, hrun₄⟩ := Action.bind_eq_ok.mp hrun₃
    have harg : Extends b.module (b.module.newValue (.plain p.ty) (.arg none region.args.length)).2 .nil :=
      newValue_extends hb _ _
    obtain ⟨c₁, hgrown₁, hc₁⟩ := gives_emit _ _ _ _ _ _ harg.change.sound halloc
    obtain ⟨c₂, hgrown₂, hc₂⟩ := gives_emitVoid _ _ _ _ _ hgrown₁.module.change.sound hstore
    obtain ⟨hdefine, rfl⟩ := ofExcept_eq_ok.mp hnames
    obtain ⟨c, args, hgrown, rfl, hargs, hc⟩ := ih hgrown₂.module.change.sound hrun₄
    have hall := hgrown₁.trans (hgrown₂.trans hgrown)
    refine ⟨c₁ ++ (c₂ ++ c), ⟨b.module.values.size⟩ :: args,
      ⟨harg.trans hall.module, hall.block⟩, by simp, ?_, fun types ht => ?_⟩
    · have hsize : b.module.values.size < b₄.module.values.size := by
        have hle := (hgrown₁.trans hgrown₂).module.change.values.size_le
        rw [Array.size_push] at hle
        omega
      refine List.forall_mem_cons.mpr ⟨⟨Nat.le_refl _, .plain p.ty, region.args.length, ?_⟩, fun v hv => ?_⟩
      · exact hall.module.stays _ _ (by simp)
      · exact ⟨Nat.le_trans hsize.le (hargs v hv).1, (hargs v hv).2⟩
    · have ht₂ := ht.of_settles hgrown.module.change.values
      obtain ⟨id₁, rfl⟩ := hc₁ types (ht₂.of_settles hgrown₂.module.change.values)
      obtain ⟨id₂, rfl⟩ := hc₂ types ht₂
      refine ⟨_, args, location, id₁, id₂, c, names₁, rfl, ?_, hdefine, rfl, hc types ht⟩
      exact ht _ ⟨.plain p.ty, .arg none region.args.length⟩ (hall.module.stays _ _ (by simp))

/-- A construction that, when it succeeds, has made functions from code with a property. -/
def Defines (x : Build (List OpId)) (P : Types → Code → Prop) : Prop :=
  ∀ b ids b', b.module.Sound → x b = .ok ids b' →
    ∃ c, Extends b.module b'.module c ∧ b'.block = b.block ∧ ids = c.ids ∧
      ∀ types, b'.module.Typed types → P types c

theorem create_function {m m₁ : Module} {c body : Code} {args : List ValueId} (label : String) (returnTy : Ty)
    (h : Extends m m₁ (c ++ body)) (hargs : ∀ v ∈ args, m.values.size ≤ v.index ∧ Unowned m₁ v) :
    Settles m₁.values (m₁.create (.funcDef label returnTy) [] [{ args, ops := body.ids }]).2.values ∧
    Extends m (m₁.create (.funcDef label returnTy) [] [{ args, ops := body.ids }]).2
      (c ++ .each ⟨(m₁.create (.funcDef label returnTy) [] [{ args, ops := body.ids }]).1,
        .funcDef label returnTy, [], none⟩ args body .nil) := by
  have hvalues := values_create (m := m₁) (.funcDef label returnTy) [] [{ args, ops := body.ids }]
  simp only [List.foldl_cons, List.foldl_nil] at hvalues
  have hsettles : Settles m₁.values
      (m₁.create (.funcDef label returnTy) [] [{ args, ops := body.ids }]).2.values := by
    rw [hvalues]
    refine settles_setOwner _ _ _ fun v hv info hinfo => ?_
    obtain ⟨-, ty, k, hk⟩ := hargs v hv
    cases hk.symm.trans hinfo
    exact ⟨k, rfl⟩
  have hmade := create_made h.change.sound (.funcDef label returnTy) [] [{ args, ops := body.ids }] hsettles
  refine ⟨hsettles, Made.extends_each h hmade (fun d hd => by cases hd) (fun a ha => ?_) fun i info hi => ?_⟩
  · obtain ⟨-, ty, k, hk⟩ := hargs a ha
    exact IsArg.settles ⟨ty, none, k, hk⟩ hsettles
  have hlt : i < m.values.size := (Array.getElem?_eq_some_iff.mp hi).1
  have hout : (⟨i⟩ : ValueId) ∉ args := fun hin => absurd (hargs ⟨i⟩ hin).1 (Nat.not_le.mpr hlt)
  rw [hvalues, getElem?_foldl_setOwner, if_neg hout]
  exact h.stays i info hi

mutual

theorem defines_function (names : Names) (label : String) :
    (f : FuncDef) → Defines (function names label f) fun types c => FunctionCode types names label f c
  | ⟨_, ps, returnTy, decls, body⟩ => by
    intro b ids b' hb hrun
    unfold function at hrun
    obtain ⟨⟨⟨region, inner⟩, ops⟩, b₁, hblock, hrun⟩ := Action.bind_eq_ok.mp hrun
    obtain ⟨id, b₂, hmake, hrun⟩ := Action.bind_eq_ok.mp hrun
    obtain ⟨rfl, rfl⟩ := Action.pure_eq_ok.mp hrun
    unfold block at hblock
    split at hblock
    next a bodyEnd hbody =>
      cases hblock
      obtain ⟨⟨names₁, region₁⟩, s₁, hparams, hbody⟩ := Action.bind_eq_ok.mp hbody
      obtain ⟨names₂, s₂, hlocals, hbody⟩ := Action.bind_eq_ok.mp hbody
      obtain ⟨names₃, s₃, hbind, hbody⟩ := Action.bind_eq_ok.mp hbody
      obtain ⟨inner', s₄, hinner, hbody⟩ := Action.bind_eq_ok.mp hbody
      obtain ⟨u, s₅, hstmts, hbody⟩ := Action.bind_eq_ok.mp hbody
      obtain ⟨u', s₆, hreturn, hbody⟩ := Action.bind_eq_ok.mp hbody
      obtain ⟨heq, rfl⟩ := Action.pure_eq_ok.mp hbody
      cases heq
      obtain ⟨c₁, args, hgrown₁, rfl, hargs, hc₁⟩ := gives_params (b := ⟨b.module, #[]⟩) hb hparams
      obtain ⟨c₂, hgrown₂, hc₂⟩ := gives_locals names₁ decls _ _ _ hgrown₁.module.change.sound hlocals
      obtain ⟨hnames₃, rfl⟩ := ofExcept_eq_ok.mp hbind
      obtain ⟨cin, hext, hsame, rfl, hcin⟩ :=
        defines_functions names₃ (label ++ ".") decls _ _ _ hgrown₂.module.change.sound hinner
      obtain ⟨c₃, hgrown₃, hc₃⟩ := gives_stmts names₃ body _ _ _ hext.change.sound hstmts
      obtain ⟨c₄, hgrown₄, hc₄⟩ := gives_implicitReturn _ _ _ hgrown₃.module.change.sound hreturn
      have hrest := hgrown₂.module.trans (hext.trans (hgrown₃.trans hgrown₄).module)
      have hall : Extends b.module s₆.module (cin ++ (c₁ ++ (c₂ ++ (c₃ ++ c₄)))) := by
        have hparts := hgrown₁.module.trans hrest
        rw [← Code.append_assoc] at hparts
        simpa only [Code.append_assoc] using hparts.swap
      have hops : s₆.block.toList = (c₁ ++ (c₂ ++ (c₃ ++ c₄))).ids := by
        rw [hgrown₄.block, hgrown₃.block, hsame, hgrown₂.block, hgrown₁.block]
        simp
      have hunowned : ∀ v ∈ args, b.module.values.size ≤ v.index ∧ Unowned s₆.module v := fun v hv => by
        obtain ⟨hle, ty, k, hk⟩ := hargs v hv
        exact ⟨hle, ty, k, hrest.stays _ _ hk⟩
      cases hmake
      rw [hops]
      obtain ⟨hsettles, hcreated⟩ := create_function label returnTy hall hunowned
      refine ⟨_, hcreated, rfl, by rw [Code.ids_append]; rfl, fun types ht => ?_⟩
      have ht₆ : s₆.module.Typed types := ht.of_settles hsettles
      have ht₅ := ht₆.of_settles hgrown₄.module.change.values
      have ht₄ := ht₅.of_settles hgrown₃.module.change.values
      have ht₃ := ht₄.of_settles hext.change.values
      have ht₁ := ht₃.of_settles hgrown₂.module.change.values
      simp only [FunctionCode]
      exact ⟨names₁, names₂, names₃, args, c₁, c₂, c₃, c₄, cin, _, rfl, hc₁ types ht₁, hc₂ types ht₃, hnames₃,
        hcin types ht₄, hc₃ types ht₅, hc₄ types ht₆⟩
    next => cases hblock

theorem defines_functions (names : Names) (path : String) :
    (decls : List Decl) → Defines (functions names path decls) fun types c =>
      FunctionsCode types names path decls c
  | [] => by
    intro b ids b' hb hrun
    unfold functions at hrun
    obtain ⟨rfl, rfl⟩ := Action.pure_eq_ok.mp hrun
    exact ⟨.nil, .nil hb, rfl, rfl, fun types _ => by simp only [FunctionsCode]⟩
  | .func f :: rest => by
    intro b ids b' hb hrun
    unfold functions at hrun
    obtain ⟨ids₁, b₁, hrun₁, hrun⟩ := Action.bind_eq_ok.mp hrun
    obtain ⟨ids₂, b₂, hrun₂, hrun⟩ := Action.bind_eq_ok.mp hrun
    obtain ⟨rfl, rfl⟩ := Action.pure_eq_ok.mp hrun
    obtain ⟨c₁, hext₁, hblock₁, rfl, hc₁⟩ := defines_function names (path ++ f.name) f b ids₁ b₁ hb hrun₁
    obtain ⟨c₂, hext₂, hblock₂, rfl, hc₂⟩ :=
      defines_functions names path rest b₁ ids₂ b₂ hext₁.change.sound hrun₂
    refine ⟨c₁ ++ c₂, hext₁.trans hext₂, hblock₂.trans hblock₁, (Code.ids_append _ _).symm,
      fun types ht => ?_⟩
    simp only [FunctionsCode]
    exact ⟨c₁, c₂, rfl, hc₁ types (ht.of_settles hext₂.change.values), hc₂ types ht⟩
  | .var v :: rest | .global x :: rest | .nonlocal x :: rest => by
    unfold functions
    intro b ids b' hb hrun
    obtain ⟨c, hext, hblock, hids, hc⟩ := defines_functions names path rest b ids b' hb hrun
    exact ⟨c, hext, hblock, hids, fun types ht => by simp only [FunctionsCode]; exact hc types ht⟩

end

end Build

end Choco.IR
