import Choco.Proofs.CallSites
import Choco.Proofs.Linking

namespace Choco

namespace Asm

open IR (Module OpId ValueId FlatOp Code Instruction namesOf)
open Instr

variable {codes : List (List Instr)}

/-- The target of a call. -/
def Instr.callee? (i : Instr) : Option String :=
  match i.opcode, i.imm with
  | .jal, some (.label name) => some name
  | _, _ => none

/-- The code of a function: it starts with the label of the function, and only its last instruction
returns. -/
structure IsFunction (name : String) (code : List Instr) : Prop where
  head : code.head? = some (label name)
  last : code.getLast? = some ret
  single : code.countP (·.opcode = .ret) = 1

structure Making (targets : List String) (is : List Instr) : Prop where
  calls : is.filterMap callee? = targets
  stays : is.countP (·.opcode = .ret) = 0

namespace Making

variable {targets targets' : List String} {is js : List Instr} {i : Instr}

theorem nil : Making [] [] := ⟨rfl, rfl⟩

theorem append (hi : Making targets is) (hj : Making targets' js) : Making (targets ++ targets') (is ++ js) :=
  ⟨by rw [List.filterMap_append, hi.calls, hj.calls], by rw [List.countP_append, hi.stays, hj.stays]⟩

theorem cons (hi : i.opcode ≠ .jal) (hret : i.opcode ≠ .ret) (h : Making targets is) :
    Making targets (i :: is) := by
  have hcallee : i.callee? = none := by
    unfold callee?
    split
    next hjal _ => exact absurd hjal hi
    next => rfl
  exact ⟨by rw [List.filterMap_cons_none hcallee,
    h.calls], by rw [List.countP_cons_of_neg (by simpa using hret), h.stays]⟩

theorem call (name : String) (h : Making targets is) : Making (name :: targets) (jal name :: is) :=
  ⟨congrArg (List.cons name) h.calls, h.stays⟩

theorem flatten {α : Type} (targets : α → List String) {xs : List α}
    (h : List.Forall₂ (fun x code => Making (targets x) code) xs codes) :
    Making (xs.flatMap targets) codes.flatten := by
  induction h with
  | nil => exact .nil
  | cons hcode _ ih => exact hcode.append ih

end Making

section Functions

variable {m : Module} {c : Code} {bs : List (String × List Instruction)} {is : List Instr}

theorem Making.of_bare {targets : List String} (h : Making targets (is.map bare)) : Making targets is := by
  refine ⟨?_, ?_⟩
  · rw [← h.calls, List.filterMap_map]
    rfl
  · rw [← h.stays, List.countP_map]
    rfl

theorem Making.of_moves (h : ∀ i ∈ is, i.Moves) : Making [] is := by
  induction is with
  | nil => exact .nil
  | cons i is ih =>
    obtain ⟨hi, h⟩ := List.forall_mem_cons.mp h
    have hplain : i.opcode ≠ .jal ∧ i.opcode ≠ .ret := by
      unfold Moves at hi
      split at hi <;> simp_all
    exact .cons hplain.1 hplain.2 (ih h)

theorem making_core {name : String} {flat : FlatOp} (h : Wraps (core name flat) is) :
    Making flat.callee?.toList is := by
  obtain ⟨before, behind, rfl, hbefore, hbehind⟩ := h
  have hbehind := Making.of_moves hbehind
  refine (Making.of_moves hbefore).append ?_
  cases flat with
  | call func => exact hbehind.call func
  | li n | alloc => exact hbehind
  | label l | jump l | branch cond l | ret | lw offset | sw offset | addi n | seqz | snez | alu op =>
    exact .cons (fun h => by cases h) (fun h => by cases h) hbehind

theorem making_functions {main : OpId} {global : Frame} (hbodies : c.Bodies bs) (h : m.Holds (some .top) c)
    (hglobal : Frame.layout m main = .ok global)
    (hcodes : List.Forall₂ (fun func code => functionCode m main global func = .ok code) c.ids codes) :
    List.Forall₂ (fun b code => IsFunction b.1 code ∧ code.filterMap callee? = namesOf FlatOp.callee? b.2) bs
      codes := by
  refine (functionText hbodies h hglobal hcodes).imp fun b code hb => ?_
  obtain ⟨start, ops, final, rfl, hstart, hfinal, hops⟩ := hb
  have hops : Making (namesOf FlatOp.callee? b.2) ops.flatten := by
    rw [namesOf, List.filterMap_eq_flatMap_toList]
    exact .flatten _ (hops.imp fun i code hi => .of_bare (making_core hi))
  have hlabel : ∀ l {is}, Making [] is → Making [] (label l :: is) :=
    fun l is his => .cons (by simp [label]) (by simp [label]) his
  have hall := ((hlabel b.1 (.of_moves hstart)).append hops).append
    (hlabel (returnLabel b.1) (.of_moves hfinal))
  rw [← List.append_assoc]
  rw [List.nil_append, List.append_nil] at hall
  refine ⟨⟨rfl, List.getLast?_concat, ?_⟩, ?_⟩
  · rw [List.countP_append, hall.stays]
    rfl
  · rw [List.filterMap_append, hall.calls]
    exact List.append_nil _

end Functions

end Asm

theorem IR.Observer.trace_sites (labels : List String) (is : List IR.Instruction) :
    (IR.Observer.sites labels).trace is = (IR.namesOf IR.FlatOp.callee? is).filterMap
    (CallSite.ofCallee? labels) := by
  rw [IR.Observer.trace, IR.namesOf, List.filterMap_filterMap]
  congr 1
  funext i
  cases i.op <;> rfl

namespace Options

open IR (Observer)

variable {options : Options} {p : Program}

/-- The code of a compiled program is the code of its functions in order, between its start and the library.
The calls in each are those of the function in the program in the order in which they are evaluated: no call
is lost, doubled or moved, and each goes to the function that is declared nearest to it. -/
theorem compiled_calls_in_order {r : Compiled} (hnames : ∀ name ∈ p.functionNames, name ∉ builtins)
    (hr : options.compile p = .ok r) :
    ∃ codes : List (List Asm.Instr),
      r.asm = { Asm.Assembly.ofHeap options.heapSize with
                  text := Asm.Routine.entry entryFunction ++ codes.flatten }.withLibrary ∧
      List.Forall₂ (fun f code => Asm.IsFunction f.1 code ∧
        (code.filterMap Asm.Instr.callee?).filterMap (CallSite.ofTarget? p.labels) = f.2) p.callSites
          codes := by
  obtain ⟨m, hm, hasm⟩ := exists_checkpoint_of_compile hr
  obtain ⟨m₀, c, c', bs, hstage, hmodels, hbodies, hfst, hcallees, htraces⟩ := hm.exists_bodies
  obtain ⟨hlabels, -⟩ := hstage.calls
  rw [hlabels] at hfst
  obtain ⟨main, global, codes, hasm, hglobal, hcodes⟩ :=
    Asm.ofModule_codes hmodels hbodies (by rw [hfst]; rfl) hasm
  have hbuiltins := Program.builtins_not_mem_labels hnames
  have hreserved : ∀ func ∈ Library.reserved, func ∉ p.labels := by
    intro func hfunc hmem
    rw [← hfst] at hmem
    obtain ⟨b, hb, rfl⟩ := List.mem_map.mp hmem
    exact Asm.not_reserved hbodies hmodels.holds (hcodes.imp fun _ _ hcode => hcode.1) b hb hfunc
  have ho := Observer.steady_sites hbuiltins hreserved
  obtain ⟨types, c₀, hcode, htraces₀⟩ := hstage.traces_eq ho
  have hsites : p.callSites = bs.map fun b => (b.1, (Observer.sites p.labels).trace b.2) := by
    have hsnd : p.callSites.map Prod.snd = bs.map fun b => (Observer.sites p.labels).trace b.2 := by
      rw [htraces _ ho, htraces₀, hcode.traces_eq hbuiltins]
    rw [List.zip_of_prod p.map_fst_callSites hsnd, ← hfst, List.zip_map']
  -- Calls of `print` and `input` are calls of routines by now.
  have hcalls : ∀ b ∈ bs, ∀ func ∈ IR.namesOf IR.FlatOp.callee? b.2, func ≠ "print" ∧ func ≠ "input" := by
    refine hcallees _ (by decide) fun n hn func hfunc _ => ?_
    obtain ⟨-, hprint, hinput⟩ := hstage.renders_optimization.kinds n hn
    rw [hfunc] at hprint hinput
    exact ⟨fun h => hprint (by rw [h]), fun h => hinput (by rw [h])⟩
  have hmaking := Asm.making_functions hbodies hmodels.holds hglobal (hcodes.imp fun _ _ hcode => hcode.2)
  refine ⟨codes, hasm, ?_⟩
  rw [hsites, List.forall₂_map_left_iff]
  refine ((List.forall₂_and_left _ _).mpr ⟨hcalls, hmaking⟩).imp fun b code ⟨hcalls, hfunction, hcode⟩ =>
    ⟨hfunction, ?_⟩
  rw [hcode, Observer.trace_sites]
  refine List.filterMap_congr fun func hfunc => ?_
  obtain ⟨hprint, hinput⟩ := hcalls func hfunc
  rw [CallSite.ofCallee?, if_neg hprint, if_neg hinput]

/-- A program with a function `f` that calls the function `g` inside it, and `print(f(1) + f(2))`; a function
`g` at the top is not called. -/
def nestedCalls : Program where
  decls := [
    .func (.ofBody "g" [⟨"x", .int⟩] .int
      [.expr (.call "print" [.name "x" .int] .none), .ret (some (.name "x" .int))]),
    .func ⟨"f", [⟨"x", .int⟩], .int,
      [.func (.ofBody "g" [⟨"y", .int⟩] .int [.ret (some (.name "y" .int))])],
      [.ret (some (.call "g" [.call "g" [.name "x" .int] .int] .int))]⟩]
  stmts := [.expr (.call "print"
    [.binary .add (.call "f" [.ofInt 1] .int) (.call "f" [.ofInt 2] .int) .int] .none)]

theorem nestedCalls_in_order :
    ∃ (r : Compiled) (codes : List (List Asm.Instr)), ({} : Options).compile nestedCalls = .ok r ∧
      r.asm = { Asm.Assembly.ofHeap Asm.Assembly.defaultHeapSize with
        text := Asm.Routine.entry entryFunction ++ codes.flatten }.withLibrary ∧
      codes.map (fun code => (code.filterMap Asm.Instr.callee?).filterMap
        (CallSite.ofTarget? nestedCalls.labels)) =
        [[.user "f", .user "f", .print], [.print], [], [.user "f.g", .user "f.g"]] := by
  have hok : (({} : Options).compile nestedCalls).isOk := by decide +kernel
  cases hr : ({} : Options).compile nestedCalls with
  | error e =>
    rw [hr] at hok
    cases hok
  | ok r =>
    obtain ⟨codes, hasm, hcalls⟩ := compiled_calls_in_order (by decide) hr
    refine ⟨r, codes, rfl, hasm, ?_⟩
    have hsites : nestedCalls.callSites.map Prod.snd =
        [[.user "f", .user "f", .print], [.print], [], [.user "f.g", .user "f.g"]] := by
      decide
    rw [← hsites, ← List.forall₂_eq_eq_eq, List.forall₂_map_left_iff, List.forall₂_map_right_iff]
    exact hcalls.flip.imp fun code f h => h.2

end Options

end Choco
