import Choco.Proofs.EmittedCode

namespace Choco.Asm

open IR (Module OpId ValueId FlatOp Kind Code Instruction namesOf)
open Instr

variable {α : Type} {codes : List (List Instr)}

namespace Instr

/-- A jump goes to a label with one property, and an address is that of an item of data with another. -/
def Linked (labels items : String → Prop) (i : Instr) : Prop :=
  match i.opcode with
  | .branch _ | .j | .jal => ∃ name ∈ i.target?, labels name
  | .la => ∃ name ∈ i.target?, items name
  | _ => True

instance (labels items : String → Prop) [DecidablePred labels] [DecidablePred items] (i : Instr) :
    Decidable (i.Linked labels items) :=
  match h : i.opcode with
  | .branch _ | .j | .jal => decidable_of_iff (∃ name ∈ i.target?, labels name) (by rw [Linked, h])
  | .la => decidable_of_iff (∃ name ∈ i.target?, items name) (by rw [Linked, h])
  | .li | .lw | .sw | .lbu | .sb | .alu _ | .addi | .andi | .slli | .seqz | .snez | .mv | .ret | .ecall
  | .label =>
    isTrue (by rw [Linked, h]; trivial)

theorem Linked.mono {labels labels' items items' : String → Prop} {i : Instr} (h : i.Linked labels items)
    (hlabels : ∀ name, labels name → labels' name) (hitems : ∀ name, items name → items' name) :
    i.Linked labels' items' := by
  unfold Linked at h ⊢
  split at h
  · exact h.imp fun name hname => hname.imp_right (hlabels name)
  · exact h.imp fun name hname => hname.imp_right (hlabels name)
  · exact h.imp fun name hname => hname.imp_right (hlabels name)
  · exact h.imp fun name hname => hname.imp_right (hitems name)
  · trivial

end Instr

/-- The labels of code. -/
def labelsOf (is : List Instr) : List String := is.filterMap labelName?

def Assembly.labels (a : Assembly) : List String := labelsOf a.text

theorem labelsOf_append (is js : List Instr) : labelsOf (is ++ js) = labelsOf is ++ labelsOf js :=
  List.filterMap_append

structure Emits (labels : List String) (J : String → Prop) (is : List Instr) : Prop where
  labels_eq : labelsOf is = labels
  linked : ∀ i ∈ is, i.Linked J fun _ => False

namespace Emits

variable {labels labels' : List String} {J : String → Prop} {is js : List Instr} {i : Instr}

theorem nil : Emits [] J [] := ⟨rfl, List.forall_mem_nil _⟩

theorem append (hi : Emits labels J is) (hj : Emits labels' J js) : Emits (labels ++ labels') J (is ++ js) :=
  ⟨by rw [labelsOf_append, hi.labels_eq, hj.labels_eq], List.forall_mem_append.mpr ⟨hi.linked, hj.linked⟩⟩

theorem cons (hlabel : i.labelName? = none) (hi : i.Linked J fun _ => False) (h : Emits labels J is) :
    Emits labels J (i :: is) := by
  refine ⟨?_, List.forall_mem_cons.mpr ⟨hi, h.linked⟩⟩
  rw [labelsOf, List.filterMap_cons_none hlabel]
  exact h.labels_eq

theorem label (name : String) (h : Emits labels J is) :
    Emits (name :: labels) J (Instr.label name :: is) := by
  refine ⟨?_, List.forall_mem_cons.mpr ⟨trivial, h.linked⟩⟩
  exact congrArg (List.cons name) h.labels_eq

theorem flatten (labels : α → List String) {xs : List α}
    (h : List.Forall₂ (fun x code => Emits (labels x) J code) xs codes) :
    Emits (xs.flatMap labels) J codes.flatten := by
  induction h with
  | nil => exact .nil
  | cons hcode _ ih => exact hcode.append ih

end Emits

section Functions

variable {J : String → Prop} {m : Module} {c : Code} {bs : List (String × List Instruction)} {is : List Instr}
  {heapSize : UInt32} {asm : Assembly}

theorem Emits.of_bare {labels : List String} (h : Emits labels J (is.map bare)) : Emits labels J is := by
  refine ⟨?_, fun i hi => h.linked i.bare (List.mem_map_of_mem hi)⟩
  rw [← h.labels_eq, labelsOf, labelsOf, List.filterMap_map]
  rfl

theorem Emits.of_moves (h : ∀ i ∈ is, i.Moves) : Emits [] J is := by
  induction is with
  | nil => exact .nil
  | cons i is ih =>
    obtain ⟨hi, h⟩ := List.forall_mem_cons.mp h
    have hplain : i.labelName? = none ∧ i.Linked J fun _ => False := by
      unfold Moves at hi
      split at hi <;> simp_all [labelName?, Linked]
    exact .cons hplain.1 hplain.2 (ih h)

/-- The code of an operation has the operation's label, and it jumps where the operation jumps or returns
to. -/
theorem emits_core {name : String} {flat : FlatOp} (htarget : ∀ l ∈ flat.target?, J l)
    (hcallee : ∀ f ∈ flat.callee?, J f) (hreturn : J (returnLabel name)) (h : Wraps (core name flat) is) :
    Emits flat.label?.toList J is := by
  obtain ⟨before, behind, rfl, hbefore, hbehind⟩ := h
  have hbehind : Emits [] J behind := .of_moves hbehind
  refine (Emits.of_moves hbefore).append ?_
  cases flat with
  | label l => exact hbehind.label l
  | jump l | branch cond l => exact .cons rfl ⟨l, rfl, htarget l rfl⟩ hbehind
  | call func => exact .cons rfl ⟨func, rfl, hcallee func rfl⟩ hbehind
  | ret => exact .cons rfl ⟨_, rfl, hreturn⟩ hbehind
  | li n | alloc => exact hbehind
  | lw offset | sw offset | addi n | seqz | snez | alu op => exact .cons rfl trivial hbehind

/-- The code of functions has the label of each function at its start, that of its end, and the labels of its
instructions. -/
theorem emits_functions (h : List.Forall₂ (fun b code => FunctionText b.1 b.2 code) bs codes)
    (hnames : ∀ b ∈ bs, (∀ l ∈ namesOf FlatOp.target? b.2, J l) ∧ (∀ f ∈ namesOf FlatOp.callee? b.2, J f) ∧
      J (returnLabel b.1)) :
    Emits (bs.flatMap fun b => b.1 :: (namesOf FlatOp.label? b.2 ++ [returnLabel b.1])) J codes.flatten := by
  refine .flatten _ (((List.forall₂_and_left _ _).mpr ⟨hnames, h⟩).imp fun b code hb => ?_)
  obtain ⟨⟨htargets, hcallees, hreturn⟩, start, ops, final, rfl, hstart, hfinal, hops⟩ := hb
  have hops : Emits (namesOf FlatOp.label? b.2) J ops.flatten := by
    rw [namesOf, List.filterMap_eq_flatMap_toList]
    have hmem : ∀ i ∈ b.2, (∀ l ∈ i.op.target?, J l) ∧ ∀ f ∈ i.op.callee?, J f := fun i hi =>
      ⟨fun l hl => htargets l (List.mem_filterMap.mpr ⟨i, hi, hl⟩),
        fun f hf => hcallees f (List.mem_filterMap.mpr ⟨i, hi, hf⟩)⟩
    exact .flatten _ (((List.forall₂_and_left _ _).mpr ⟨hmem, hops⟩).imp fun i code hi =>
      .of_bare (emits_core hi.1.1 hi.1.2 hreturn hi.2))
  have hret : Emits [] J [ret] := .cons rfl trivial .nil
  exact (((Emits.of_moves hstart).label b.1).append hops).append
    (((Emits.of_moves hfinal).append hret).label _)

theorem not_reserved {codes : List α} (hbodies : c.Bodies bs) (h : m.Holds (some .top) c)
    (hcodes : List.Forall₂ (fun func _ => ∃ name, functionName m func = .ok name ∧ name ∉ Library.reserved)
      c.ids codes) :
    ∀ b ∈ bs, b.1 ∉ Library.reserved := by
  induction hbodies generalizing codes with
  | nil => exact List.forall_mem_nil _
  | @function id label ty args body rest is bs hreads _ ih =>
    obtain ⟨hnode, hids, -, hrest⟩ := h
    cases hcodes with
    | cons hcode hcodes =>
      obtain ⟨name, hname, hreserved⟩ := hcode
      cases hname.symm.trans (functionName_of_get? (hnode.regions_each hids))
      exact List.forall_mem_cons.mpr ⟨hreserved, ih hrest hcodes⟩

theorem ofModule_codes (h : m.Models c .nil) (hbodies : c.Bodies bs)
    (hentry : (bs.map Prod.fst).head? = some entryFunction) (hasm : Assembly.ofModule heapSize m = .ok asm) :
    ∃ main global codes, asm = { Assembly.ofHeap heapSize with
                                   text := Routine.entry entryFunction ++ codes.flatten }.withLibrary ∧
      Frame.layout m main = .ok global ∧ List.Forall₂ (fun func code =>
        (∃ name, functionName m func = .ok name ∧ name ∉ Library.reserved) ∧
          functionCode m main global func = .ok code) c.ids codes := by
  obtain ⟨main, global, codes, hmain, hglobal, hcodes, rfl⟩ := ofModule_eq_ok hasm
  have hops : m.body.ops = c.ids := Option.some.inj h.top
  -- The entry function is the first one, so that the order of the functions does not change.
  have hids : main :: m.body.ops.filter (· ≠ main) = c.ids := by
    rw [ entry?, hops] at hmain
    cases hbodies with
    | nil => cases hentry
    | @function id label ty args body rest is bs hreads hrest =>
      cases hentry
      obtain ⟨hnode, hids, -, -⟩ := h.holds
      rw [Code.ids, List.find?_cons_of_pos] at hmain
      · cases hmain
        have hnodup : id ∉ rest.ids := by
          have hnodup := h.nodup
          rw [Code.allIds_each, List.cons_append, List.nodup_cons] at hnodup
          exact fun hmem => hnodup.1 (by simp [Code.ids_subset_allIds _ hmem])
        rw [hops, Code.ids, List.filter_cons_of_neg (by simp), List.filter_eq_self.mpr]
        intro x hx
        simpa using ne_of_mem_of_not_mem hx hnodup
      · rw [functionName_of_get? (hnode.regions_each hids)]
        exact decide_eq_true rfl
  rw [hids] at hcodes
  exact ⟨main, global, codes, rfl, hglobal, hcodes⟩

theorem ofModule_text (h : m.Models c .nil) (hbodies : c.Bodies bs)
    (hentry : (bs.map Prod.fst).head? = some entryFunction) (hasm : Assembly.ofModule heapSize m = .ok asm) :
    ∃ code, asm = { Assembly.ofHeap heapSize with text := Routine.entry entryFunction ++ code }.withLibrary ∧
      (∀ b ∈ bs, b.1 ∉ Library.reserved) ∧
      ∀ J : String → Prop, (∀ b ∈ bs, (∀ l ∈ namesOf FlatOp.target? b.2, J l) ∧
          (∀ f ∈ namesOf FlatOp.callee? b.2, J f) ∧ J (returnLabel b.1)) →
        Emits (bs.flatMap fun b => b.1 :: (namesOf FlatOp.label? b.2 ++ [returnLabel b.1])) J code := by
  obtain ⟨main, global, codes, hasm, hglobal, hcodes⟩ := ofModule_codes h hbodies hentry hasm
  exact ⟨codes.flatten, hasm, not_reserved hbodies h.holds (hcodes.imp fun _ _ hcode => hcode.1),
    fun J hnames =>
    emits_functions (functionText hbodies h.holds hglobal (hcodes.imp fun _ _ hcode => hcode.2)) hnames⟩

end Functions

end Choco.Asm
