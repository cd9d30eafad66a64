import Choco.Asm.Emit
import Choco.IR.Flatten
import Choco.Proofs.FunctionLabels

namespace Choco

variable {f : FuncDef} {s path x : String}

/-- What all identifiers have in common: they are not empty, and no character of them is a dot. -/
def IsIdentifier (name : String) : Prop := name ≠ "" ∧ '.' ∉ name.toList

instance (name : String) : Decidable (IsIdentifier name) := inferInstanceAs (Decidable (_ ∧ _))

def Decl.function? : Decl → Option FuncDef
  | .func f => some f
  | _ => none

mutual

def FuncDef.names : FuncDef → List String
  | ⟨name, _, _, decls, _⟩ => name :: Decl.functionNames decls

def Decl.functionNames : List Decl → List String
  | [] => []
  | .func f :: rest => f.names ++ Decl.functionNames rest
  | .var _ :: rest | .global _ :: rest | .nonlocal _ :: rest => Decl.functionNames rest

end

/-- The names of all functions of a program. -/
def Program.functionNames (p : Program) : List String := Decl.functionNames p.decls

theorem FuncDef.name_mem_names (f : FuncDef) : f.name ∈ f.names := by
  cases f
  simp [FuncDef.names]

theorem Decl.name_mem_functionNames : {decls : List Decl} → .func f ∈ decls →
    f.name ∈ Decl.functionNames decls
  | .func g :: rest, h => by
    rw [Decl.functionNames, List.mem_append]
    obtain heq | h := List.mem_cons.mp h
    · cases heq
      exact .inl f.name_mem_names
    · exact .inr (Decl.name_mem_functionNames h)
  | .var v :: rest, h | .global x :: rest, h | .nonlocal x :: rest, h => by
    rw [Decl.functionNames]
    exact Decl.name_mem_functionNames ((List.mem_cons.mp h).resolve_left nofun)

def IsSuffix (s : String) : Prop := s = "" ∨ ∃ t, s = "." ++ t

theorem IsSuffix.takeWhile_eq (h : IsSuffix s) : s.toList.takeWhile (· != '.') = [] := by
  rcases h with rfl | ⟨t, rfl⟩
  · rfl
  · simp

theorem eq_of_append_suffix {a b t : String} (ha : '.' ∉ a.toList) (hb : '.' ∉ b.toList) (hs : IsSuffix s)
    (ht : IsSuffix t) (h : a ++ s = b ++ t) : a = b := by
  have hhead {a s : String} (ha : '.' ∉ a.toList) (hs : IsSuffix s) :
      (a ++ s).toList.takeWhile (· != '.') = a.toList := by
    rw [String.toList_append, List.takeWhile_append_of_pos, hs.takeWhile_eq, List.append_nil]
    intro c hc
    simpa using ne_of_mem_of_not_mem hc ha
  rw [← String.toList_inj, ← hhead ha hs, ← hhead hb ht, h]

mutual

theorem FuncDef.exists_of_mem_labels {label x : String} : {f : FuncDef} → x ∈ f.labels label →
    ∃ s, x = label ++ s ∧ IsSuffix s
  | ⟨_, _, _, decls, _⟩, h => by
    rw [FuncDef.labels, List.mem_append, List.mem_singleton] at h
    rcases h with h | rfl
    · obtain ⟨s, rfl⟩ := Decl.exists_append_of_mem_labels h
      exact ⟨"." ++ s, String.append_assoc, .inr ⟨s, rfl⟩⟩
    · exact ⟨"", String.append_empty.symm, .inl rfl⟩

theorem Decl.exists_append_of_mem_labels {path x : String} :
    {decls : List Decl} → x ∈ Decl.labels path decls → ∃ s, x = path ++ s
  | .func f :: rest, h => by
    rw [Decl.labels, List.mem_append] at h
    obtain h | h := h
    · obtain ⟨s, rfl, -⟩ := FuncDef.exists_of_mem_labels h
      exact ⟨f.name ++ s, String.append_assoc⟩
    · exact Decl.exists_append_of_mem_labels h
  | .var v :: rest, h | .global x :: rest, h | .nonlocal x :: rest, h => by
    rw [Decl.labels] at h
    exact Decl.exists_append_of_mem_labels h

end

theorem Decl.exists_of_mem_labels : {decls : List Decl} → x ∈ Decl.labels path decls →
    ∃ f s, .func f ∈ decls ∧ x = path ++ f.name ++ s ∧ IsSuffix s
  | .func f :: rest, h => by
    rw [Decl.labels, List.mem_append] at h
    obtain h | h := h
    · obtain ⟨s, hx, hs⟩ := FuncDef.exists_of_mem_labels h
      exact ⟨f, s, List.mem_cons_self, hx, hs⟩
    · obtain ⟨g, s, hg, hx, hs⟩ := Decl.exists_of_mem_labels h
      exact ⟨g, s, List.mem_cons_of_mem _ hg, hx, hs⟩
  | .var v :: rest, h | .global y :: rest, h | .nonlocal y :: rest, h => by
    rw [Decl.labels] at h
    obtain ⟨g, s, hg, hx, hs⟩ := Decl.exists_of_mem_labels h
    exact ⟨g, s, List.mem_cons_of_mem _ hg, hx, hs⟩

namespace IR

variable {types : Types} {names names' : Names} {decls : List Decl} {c : Code}

namespace Names

variable {symbol : Symbol}

def Open (names : Names) : Prop := names.scope < names.tree.scopes.size

theorem open_empty : ({} : Names).Open := Nat.one_pos

theorem open_enter (names : Names) : names.enter.Open := by simp [Open, enter, Scopes.enter]

theorem Open.define (h : names.Open) (hrun : names.define x symbol = .ok names') :
    names'.Open ∧ names'.scope = names.scope := by
  obtain ⟨tree, htree, hpure⟩ := Outcome.bind_eq_ok.mp hrun
  cases hpure
  unfold Scopes.define at htree
  split at htree
  next => cases htree
  next =>
    cases htree
    simpa [Open] using h

theorem Open.declareGlobal (h : names.Open) (hrun : names.declareGlobal x = .ok names') : names'.Open := by
  obtain ⟨symbol, -, hrun⟩ := Outcome.bind_eq_ok.mp hrun
  exact (h.define hrun).1

theorem local?_of_define (hrun : names.define x symbol = .ok names') :
    names.tree.local? names.scope x = none := by
  obtain ⟨tree, htree, -⟩ := Outcome.bind_eq_ok.mp hrun
  unfold Scopes.define at htree
  split at htree
  next => cases htree
  next hnone => simpa using hnone

theorem Open.bindFunctions (h : names.Open) (hrun : Build.bindFunctions names path decls = .ok names') :
    names'.Open ∧ (∀ f, .func f ∈ decls → names.tree.local? names.scope f.name = none) ∧
      ((decls.filterMap Decl.function?).map FuncDef.name).Nodup := by
  induction decls generalizing names with
  | nil =>
    cases hrun
    exact ⟨h, nofun, List.nodup_nil⟩
  | cons decl rest ih =>
    cases decl with
    | func f =>
      obtain ⟨names₁, hdefine, hrun⟩ := Outcome.bind_eq_ok.mp hrun
      obtain ⟨hopen₁, hscope⟩ := h.define hdefine
      obtain ⟨hopen', hnone, hnodup⟩ := ih hopen₁ hrun
      -- The name of `f` is bound once `f` is, so that no function behind it can have that name.
      have hother (g : FuncDef) (hg : .func g ∈ rest) :
          g.name ≠ f.name ∧ names.tree.local? names.scope g.name = none := by
        have hlocal := hnone g hg
        obtain ⟨tree, htree, hpure⟩ := Outcome.bind_eq_ok.mp hdefine
        cases hpure
        rw [Scopes.local?_define htree] at hlocal
        split at hlocal
        next => cases hlocal
        next hne => exact ⟨fun heq => hne ⟨rfl, heq, h⟩, hlocal⟩
      refine ⟨hopen', fun g hg => ?_, ?_⟩
      · obtain heq | hg := List.mem_cons.mp hg
        · cases heq
          exact local?_of_define hdefine
        · exact (hother g hg).2
      · refine List.nodup_cons.mpr ⟨fun hmem => ?_, hnodup⟩
        obtain ⟨g, hg, hname⟩ := List.mem_map.mp hmem
        obtain ⟨decl, hdecl, hfunction⟩ := List.mem_filterMap.mp hg
        cases decl <;> cases hfunction
        exact (hother g hdecl).1 hname
    | var v | global x | «nonlocal» x =>
      obtain ⟨hopen', hnone, hnodup⟩ := ih h hrun
      refine ⟨hopen', fun f hf => hnone f ?_, hnodup⟩
      exact (List.mem_cons.mp hf).resolve_left nofun

end Names

theorem ParamsCode.isOpen {ps : List Param} {args : List ValueId}
    (h : ParamsCode types names ps args c names') (hopen : names.Open) :
    names'.Open := by
  induction ps generalizing names args c with
  | nil =>
    obtain ⟨-, -, rfl⟩ := h
    exact hopen
  | cons p ps ih =>
    obtain ⟨arg, args', location, id₁, id₂, c', names₁, -, -, hdefine, -, hrest⟩ := h
    exact ih hrest (hopen.define hdefine).1

theorem VarCode.isOpen {v : VarDef} (h : VarCode names v c names') (hopen : names.Open) : names'.Open := by
  obtain ⟨location, init, id₁, id₂, id₃, hdefine, -⟩ := h
  exact (hopen.define hdefine).1

theorem LocalsCode.isOpen (h : LocalsCode names decls c names') (hopen : names.Open) : names'.Open := by
  induction decls generalizing names c with
  | nil =>
    obtain ⟨-, rfl⟩ := h
    exact hopen
  | cons decl rest ih =>
    cases decl with
    | var v =>
      obtain ⟨c₁, c₂, names₁, -, hvar, hrest⟩ := h
      exact ih hrest (hvar.isOpen hopen)
    | global x =>
      obtain ⟨names₁, hdeclare, hrest⟩ := h
      exact ih hrest (hopen.declareGlobal hdeclare)
    | func f | «nonlocal» x => exact ih h hopen

theorem FunctionsTree.nodup_labels (h : FunctionsTree types names path decls c)
    (hnames : ∀ name ∈ Decl.functionNames decls, '.' ∉ name.toList)
    (hdistinct : ((decls.filterMap Decl.function?).map FuncDef.name).Nodup) :
    (Decl.labels path decls).Nodup := by
  induction h with
  | nil =>
    rw [Decl.labels]
    exact List.nodup_nil
  | @func names _ _ _ path name ps returnTy decls _ body _ _ _ _ _ _ _ _ hparams hlocals hbind _ _ _ _
      ihInner ih =>
    rw [Decl.functionNames, List.forall_mem_append] at hnames
    obtain ⟨hnotMem, hdistinct⟩ := List.nodup_cons.mp hdistinct
    have hopen := hlocals.isOpen (hparams.isOpen (Names.open_enter names))
    have hown : (FuncDef.labels (path ++ name) ⟨name, ps, returnTy, decls, body⟩).Nodup := by
      have hinner := hnames.1
      rw [FuncDef.names, List.forall_mem_cons] at hinner
      rw [FuncDef.labels, List.nodup_append]
      refine ⟨ihInner hinner.2 (hopen.bindFunctions hbind).2.2, List.nodup_singleton _, ?_⟩
      -- Labels of inner functions are longer than the label of the function itself.
      rintro x hx y hy rfl
      obtain ⟨s, hs⟩ := Decl.exists_append_of_mem_labels hx
      rw [List.mem_singleton.mp hy] at hs
      have hlength := congrArg String.length hs
      simp only [String.length_append] at hlength
      have hdot : ".".length = 1 := by decide
      omega
    rw [Decl.labels, List.nodup_append]
    refine ⟨hown, ih hnames.2 hdistinct, ?_⟩
    rintro x hx y hy rfl
    obtain ⟨s, hxs, hs⟩ := FuncDef.exists_of_mem_labels hx
    obtain ⟨g, t, hg, hxt, ht⟩ := Decl.exists_of_mem_labels hy
    refine hnotMem (List.mem_map.mpr ⟨g, List.mem_filterMap.mpr ⟨_, hg, rfl⟩, ?_⟩)
    rw [hxs, String.append_assoc, String.append_assoc] at hxt
    exact (eq_of_append_suffix (hnames.1 _ (FuncDef.name_mem_names _))
      (hnames.2 _ (Decl.name_mem_functionNames hg)) hs ht ((String.append_right_inj path).mp hxt)).symm
  | var _ _ ih | global _ _ ih | «nonlocal» _ _ ih =>
    rw [Decl.functionNames] at hnames
    rw [Decl.labels]
    exact ih hnames hdistinct

theorem ne_entryFunction_of_checkTop (h : Build.checkTop decls = .ok ()) (hf : .func f ∈ decls) :
    f.name ≠ entryFunction := by
  induction decls with
  | nil => cases hf
  | cons decl rest ih =>
    cases decl with
    | func g =>
      rw [Build.checkTop] at h
      split at h
      next => cases h
      next hne =>
        obtain heq | hf := List.mem_cons.mp hf
        · cases heq
          exact hne
        · exact ih h hf
    | var v => exact ih h ((List.mem_cons.mp hf).resolve_left (by simp))
    | global x | «nonlocal» x => cases h

theorem ProgramCode.nodup_labels {p : Program} (h : ProgramCode types p c)
    (hnames : ∀ name ∈ p.functionNames, '.' ∉ name.toList) :
    p.labels.Nodup := by
  obtain ⟨names₁, names₂, c₁, c₂, c₃, inner, id, -, hglobals, htop, hbind, hfunctions, -, -⟩ := h
  have hopen := (hglobals.locals htop).isOpen Names.open_empty
  refine List.nodup_cons.mpr ⟨fun hmem => ?_,
    hfunctions.tree.nodup_labels hnames (hopen.bindFunctions hbind).2.2⟩
  obtain ⟨f, s, hf, heq, hs⟩ := Decl.exists_of_mem_labels hmem
  have hname := eq_of_append_suffix (a := entryFunction) (s := "") (by decide)
    (hnames _ (Decl.name_mem_functionNames hf)) (.inl rfl) hs (by simpa using heq)
  exact ne_entryFunction_of_checkTop htop hf hname.symm

end IR

end Choco
