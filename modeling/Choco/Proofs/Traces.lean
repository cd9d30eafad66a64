import Choco.Proofs.Checkpoints
import Choco.Proofs.FlatLabels

namespace Choco

variable {c : Code}

namespace IR

variable {n : Node}

structure Observer (α : Type) where
  ret : Option α
  call : String → Option α

namespace Observer

variable {α : Type} (o : Observer α)

def kind : Kind → Option α
  | .ret => o.ret
  | .call func => o.call func
  | _ => none

def flat : FlatOp → Option α
  | .ret => o.ret
  | .call func => o.call func
  | _ => none

/-- The observer does not see `len` and what the library does for operators, and does not tell a built-in
function from the routine for it. -/
structure Steady : Prop where
  len : o.call "len" = none
  malloc : o.call Library.malloc = none
  concat : o.call Library.concat = none
  strEq : o.call Library.strEq = none
  print : ∀ routine ∈ [Library.printInt, Library.printBool, Library.printStr], o.call routine = o.call "print"
  input : o.call Library.input = o.call "input"

end Observer

namespace Code

variable {α : Type} (o : Observer α)

def trace (c : Code) : List α := c.nodes.filterMap fun n => o.kind n.kind

def traces : Code → List (List α)
  | nil => []
  | leaf _ rest | fork _ _ _ rest => traces rest
  | each _ _ body rest => body.trace o :: traces rest

@[simp] theorem trace_nil : trace o nil = [] := rfl

@[simp] theorem trace_leaf (n : Node) (rest : Code) :
    (leaf n rest).trace o = (o.kind n.kind).toList ++ rest.trace o :=
  collect_leaf n rest

@[simp] theorem trace_each (n : Node) (args : List ValueId) (body rest : Code) :
    (each n args body rest).trace o = (o.kind n.kind).toList ++ (body.trace o ++ rest.trace o) :=
  collect_each n args body rest

@[simp] theorem trace_fork (n : Node) (first second rest : Code) :
    (fork n first second rest).trace o = (o.kind n.kind).toList ++
    (first.trace o ++ (second.trace o ++ rest.trace o)) :=
  collect_fork n first second rest

@[simp] theorem trace_append (c d : Code) : (c ++ d).trace o = c.trace o ++ d.trace o := collect_append c d

theorem sparse_kind : Sparse fun n => o.kind n.kind := by
  refine ⟨fun n hliteral hlist hcall hret => ?_, fun _ _ _ _ => rfl, fun _ _ _ => rfl⟩
  cases h : n.kind <;> simp_all [Observer.kind]

theorem trace_relabel (θ : ValueId → ValueId) (c : Code) : (c.relabel θ).trace o = c.trace o := by
  rw [trace, Code.relabel, nodes_map, List.filterMap_map]
  rfl

theorem traces_relabel (θ : ValueId → ValueId) (c : Code) : (c.relabel θ).traces o = c.traces o := by
  induction c with
  | nil => rfl
  | leaf n rest ih | fork n first second rest _ _ ih => exact ih
  | each n args body rest _ ih => exact congrArg₂ List.cons (trace_relabel o θ body) ih

theorem traces_append {d : Code} (hc : c.Functions) : (c ++ d).traces o = c.traces o ++ d.traces o := by
  induction hc with
  | nil => rfl
  | function id label ty args _ _ ih => exact congrArg (List.cons _) ih

theorem kind_eq_none_of_isPure {k : Kind} (h : k.isPure) : o.kind k = none := by
  cases k <;> first | rfl | cases h

theorem trace_sweep (c : Code) : c.sweep.trace o = c.trace o := by
  induction c with
  | nil => rfl
  | leaf n rest ih =>
    rw [sweep, trace_leaf, ← ih]
    split
    next hdead => simp [kind_eq_none_of_isPure o hdead.1]
    next => rw [trace_leaf]
  | each n args body rest ihb ih => rw [sweep, trace_each, trace_each, ihb, ih]
  | fork n first second rest iha ihb ih => rw [sweep, trace_fork, trace_fork, iha, ihb, ih]

theorem traces_sweep (hc : c.Functions) : c.sweep.traces o = c.traces o := by
  induction hc with
  | nil => rfl
  | @function id label ty args body rest _ _ ih => exact congrArg₂ List.cons (trace_sweep o body) ih

variable {o} {R : Node → Code → Prop} {c d : Code}

theorem Maps.traces_eq (h : c.Maps R d) (hc : c.Functions)
    (hR : ∀ n e, R n e → e.trace o = (o.kind n.kind).toList) :
    d.traces o = c.traces o := by
  induction hc generalizing d with
  | nil => exact h ▸ rfl
  | function id label ty args _ _ ih =>
    obtain ⟨body', rest', rfl, hbody, hrest⟩ := h
    exact congrArg₂ List.cons (hbody.collect_eq hR) (ih hrest)

end Code

open Code

section Passes

variable {α : Type} {o : Observer α} {types : Types} {c c' : Code}

theorem Unrolls.traces_eq (h : Unrolls types c c') (hc : c.Functions) (hlen : o.call "len" = none) :
    c'.traces o = c.traces o := by
  induction h with
  | nil => rfl
  | leaf | loop | fork => cases hc
  | each _ hbody _ _ ih =>
    cases hc with
    | function id label ty _ _ hrest =>
      exact congrArg₂ List.cons (hbody.collect_eq (sparse_kind o) fun _ _ _ => hlen) (ih hrest)

theorem LibraryUse.seen (ho : o.Steady) {kind : Kind} {tys : List Ty} {use : LibraryUse}
    (h : ofOp kind tys = .ok use) :
    ∀ routine ∈ use.routine?, o.call routine = o.kind kind := by
  unfold ofOp at h
  split at h
  case h_1 =>
    unfold ofPrint at h
    split at h <;> cases h <;> rintro _ ⟨⟩ <;> exact ho.print _ (by simp)
  case h_3 =>
    cases h
    rintro _ ⟨⟩
    exact ho.input
  case h_5 =>
    cases h
    split
    · rintro _ ⟨⟩
      exact ho.concat
    · rintro _ ⟨⟩
  case h_6 | h_7 =>
    cases h
    rintro _ ⟨⟩
    exact ho.strEq
  all_goals
    cases h
    try rintro _ ⟨⟩

theorem LibraryCode.trace_eq (ho : o.Steady) {e : Code} (h : LibraryCode types n e) :
    e.trace o = (o.kind n.kind).toList := by
  cases h with
  | keep h => simp
  | call routine h =>
    rw [trace_leaf, trace_nil, List.append_nil, ← LibraryUse.seen ho h routine rfl]
    rfl
  | negated routine h id₁ id₂ equal r hr =>
    rw [trace_leaf, trace_leaf, trace_nil, ← LibraryUse.seen ho h routine rfl]
    simp [Observer.kind]

theorem FoldCode.trace_eq {e : Code} (h : FoldCode c n e) : e.trace o = (o.kind n.kind).toList := by
  cases h with
  | keep => simp
  | sum id x y j k r hkind hoperands hr hx hy => simp [hkind, Observer.kind]

end Passes

section Flat

variable {α : Type} {o : Observer α} {is js ks : List Instruction} {x y v : ValueId}

def Observer.trace (o : Observer α) (is : List Instruction) : List α := is.filterMap fun i => o.flat i.op

@[simp] theorem Observer.trace_nil : o.trace [] = [] := rfl

@[simp] theorem Observer.trace_cons (i : Instruction) :
    o.trace (i :: is) = (o.flat i.op).toList ++ o.trace is := by
  cases h : o.flat i.op <;> simp [Observer.trace, h]

@[simp] theorem Observer.trace_append : o.trace (is ++ js) = o.trace is ++ o.trace js := by
  simp [Observer.trace]

theorem Observer.trace_map (σ : ValueId → ValueId) : o.trace (is.map (·.map σ)) = o.trace is := by
  rw [Observer.trace, List.filterMap_map]
  rfl

theorem Stores.unseen {index count : Nat} {ops : List FlatOp} (h : Stores index count ops) :
    (ops.flatMap fun op => (o.flat op).toList) = [] := by
  rw [List.flatMap_eq_nil_iff]
  intro op hop
  obtain ⟨offset, rfl⟩ := h.exists_of_mem hop
  rfl

theorem LeafFlat.trace_eq {kind : Kind} {xs : List ValueId} {wanted : Bool} {v : Option ValueId}
    (ho : o.Steady) (h : LeafFlat kind xs wanted v is) : o.trace is = (o.kind kind).toList := by
  obtain ⟨ops, hops, hnotes⟩ := h.notes
  have hquiet (op : FlatOp) (hop : op.Quiet) : (o.flat op).toList = [] := by
    cases op <;> simp_all [FlatOp.Quiet, Observer.flat]
  rw [Observer.trace, List.filterMap_eq_flatMap_toList, hnotes.flatMap_eq hquiet]
  cases hops with
  | list hstores | text hstores =>
    rw [List.flatMap_cons, hstores.unseen]
    simp [Observer.flat, Observer.kind, ho.malloc]
  | call | ret => simp [Observer.flat, Observer.kind]
  | nothing hlist htext hcall hret =>
    have hlen := ho.len
    cases kind <;> simp_all [Observer.kind]

theorem ForkFlat.trace_eq {k : Nat} {x y : Option ValueId} (h : ForkFlat k n is x js y ks) :
    o.kind n.kind = none ∧ o.trace ks = o.trace is ++ o.trace js := by
  cases h <;> simp [Observer.flat, Observer.kind]

theorem Lowers.trace_eq {p p' : Progress} {out : Option ValueId} (ho : o.Steady) (h : Lowers p c is out p') :
    o.trace is = c.trace o := by
  induction h with
  | nil | yield => rfl
  | leaf _ hflat _ _ ih => rw [Observer.trace_append, hflat.trace_eq ho, ih, trace_leaf]
  | fork _ _ hflat _ iha ihb ih =>
    obtain ⟨hkind, htrace⟩ := hflat.trace_eq (o := o)
    rw [Observer.trace_append, htrace, iha, ihb, ih, trace_fork, hkind, Option.toList_none, List.nil_append,
      List.append_assoc]

theorem LowersFunctions.exists_bodies {p p' : Progress} {c' : Code} (h : LowersFunctions p c c' p')
    (hc : c.Functions) (θ : ValueId → ValueId) :
    ∃ bs, (c'.relabel θ).Bodies bs ∧ bs.map Prod.fst = c.labels ∧
      (∀ P : String → Prop, P Library.malloc → (c.Calls fun f => f ≠ "len" → P f) →
        ∀ b ∈ bs, ∀ f ∈ namesOf FlatOp.callee? b.2, P f) ∧
      ∀ {α : Type} (o : Observer α), o.Steady → bs.map (fun b => o.trace b.2) = c.traces o := by
  induction h with
  | nil => exact ⟨[], .nil, rfl, fun _ _ _ => List.forall_mem_nil _, fun _ _ => rfl⟩
  | function hbody hreads _ ih =>
    cases hc with
    | function id label ty _ _ hrest =>
      obtain ⟨bs, hbs, hlabels, hcallees, htraces⟩ := ih hrest
      refine ⟨_, .function id label ty _ (hreads.map θ) hbs, congrArg (List.cons label) hlabels,
        fun P hmalloc hcalls => ?_, fun o ho => ?_⟩
      · rw [calls_each] at hcalls
        exact List.forall_mem_cons.mpr ⟨((hbody.marked hmalloc hcalls.2.1).map θ).callees,
          hcallees P hmalloc hcalls.2.2⟩
      · exact congrArg₂ List.cons ((Observer.trace_map θ).trans (hbody.trace_eq ho)) (htraces o ho)

end Flat

end IR

namespace Options

open IR (Module Code Observer)

variable {options : Options} {p : Program} {m : Module} {α : Type} {o : Observer α}

theorem StageCode.traces_eq (ho : o.Steady) {stage : Stage} (h : options.StageCode p stage m c) :
    ∃ types c₀, IR.ProgramCode types p c₀ ∧ c.traces o = c₀.traces o := by
  induction h with
  | translation _ hcode => exact ⟨_, _, hcode, rfl⟩
  | loops h _ hunrolls ih =>
    obtain ⟨types, c₀, hcode, htraces⟩ := ih
    exact ⟨types, c₀, hcode, (hunrolls.traces_eq h.renders_translation.functions ho.len).trans htraces⟩
  | libraryUses h hmaps hnamed hrenders ih =>
    obtain ⟨types, c₀, hcode, htraces⟩ := ih
    refine ⟨types, c₀, hcode, ?_⟩
    rw [Code.traces_relabel, hmaps.traces_eq h.renders_loops.functions fun _ _ he => he.trace_eq ho, htraces]
  | unoptimized _ _ ih => exact ih
  | @optimized m m' c c₁ θ h hlevel hmaps htraced hnamed hrenders ih =>
    obtain ⟨types, c₀, hcode, htraces⟩ := ih
    have hfunctions := h.renders_libraryUses.functions
    have hfunctions' := hmaps.functions (IR.localRewrite_fold c₁) hfunctions
    refine ⟨types, c₀, hcode, ?_⟩
    rw [Code.traces_relabel, Code.traces_sweep o hfunctions',
      hmaps.traces_eq hfunctions fun _ _ he => he.trace_eq, htraces]

theorem Checkpoint.exists_bodies (h : options.Checkpoint p .flattening m) :
    ∃ m₀ c c' bs, options.StageCode p .optimization m₀ c ∧ m.Models c' .nil ∧ c'.Bodies bs ∧
      bs.map Prod.fst = c.labels ∧
        (∀ P : String → Prop, P Library.malloc → (c.Calls fun f => f ≠ "len" → P f) →
        ∀ b ∈ bs, ∀ f ∈ IR.namesOf IR.FlatOp.callee? b.2, P f) ∧
      ∀ {α : Type} (o : Observer α), o.Steady → bs.map (fun b => o.trace b.2) = c.traces o := by
  obtain ⟨m₀, c, θ, c', q, h, hnamed, hlowers⟩ := h.exists_lowers
  obtain ⟨bs, hbodies, hlabels, hcallees, htraces⟩ := hlowers.exists_bodies h.renders_optimization.functions θ
  exact ⟨m₀, c, c'.relabel θ, bs, h, hnamed.models, hbodies, hlabels, hcallees, htraces⟩

end Options

end Choco
