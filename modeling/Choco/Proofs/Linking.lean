import Choco.Proofs.Checkpoints
import Choco.Proofs.Loading

namespace Choco

variable {p : Program}

/-- A function of the program or of the library, or one that a program may call without defining it. -/
def Program.Callable (p : Program) (func : String) : Prop :=
  func ∈ builtins ∨ func ∈ p.labels ∨ func ∈ Library.reserved

namespace Options

open IR (Module Code Kind Instruction Marked Progress FlatOp namesOf)

variable {options : Options} {p : Program} {m : Module} {stage : Stage} {c : Code}

theorem StageCode.calls (h : options.StageCode p stage m c) : c.labels = p.labels ∧ c.Calls p.Callable := by
  induction h with
  | translation hrenders hcode =>
    obtain ⟨hlabels, hcalls⟩ := hcode.calls
    exact ⟨hlabels, hcalls.mono fun func hfunc => hfunc.imp_right .inl⟩
  | loops h _ hunrolls ih =>
    have hlen : p.Callable "len" := .inl (by decide)
    exact ⟨(hunrolls.labels_eq h.renders_translation.functions).trans ih.1, hunrolls.calls ih.2 hlen⟩
  | @libraryUses m m' c c' θ h hmaps hnamed hrenders ih =>
    have hfunctions := h.renders_loops.functions
    have hfunctions' := hmaps.functions (IR.localRewrite_library m.types) hfunctions
    have hcalls := hmaps.calls (hfunctions.fits fun _ _ _ => trivial)
      (fun n e he hn => he.calls hn fun func hfunc => .inr (.inr hfunc)) ih.2
    refine ⟨?_, hcalls.relabel θ⟩
    rw [Code.labels_relabel θ hfunctions', hmaps.labels_eq hfunctions, ih.1]
  | unoptimized _ _ ih => exact ih
  | @optimized m m' c c₁ θ h hlevel hmaps htraced hnamed hrenders ih =>
    have hfunctions := h.renders_libraryUses.functions
    have hfunctions' := hmaps.functions (IR.localRewrite_fold c₁) hfunctions
    have hcalls := hmaps.calls (hfunctions.fits fun _ _ _ => trivial) (fun n e he hn => he.calls hn) ih.2
    refine ⟨?_, hcalls.sweep.relabel θ⟩
    rw [Code.labels_relabel θ hfunctions'.sweep, Code.labels_sweep hfunctions',
      hmaps.labels_eq hfunctions, ih.1]

theorem StageCode.nodup_labels (h : options.StageCode p stage m c)
    (hnames : ∀ name ∈ p.functionNames, IsIdentifier name) :
    p.labels.Nodup := by
  induction h with
  | translation hrenders hcode => exact hcode.nodup_labels fun name hname => (hnames name hname).2
  | loops _ _ _ ih | libraryUses _ _ _ _ ih | unoptimized _ _ ih | optimized _ _ _ _ _ _ ih => exact ih

/-- The functions of a flat module: their labels are those of the program, their instructions have the labels
of their constructs and call functions of the program and of the library, and each jumps to its own labels and
to traps. -/
theorem Checkpoint.exists_marked_bodies (h : options.Checkpoint p .flattening m) :
    ∃ (c : Code) (bs : List (String × List Instruction)) (q : Progress), m.Models c .nil ∧ c.Bodies bs ∧
      bs.map Prod.fst = p.labels ∧ Marked (fun func => func ∈ p.labels ∨ func ∈ Library.reserved) {} q
        (bs.flatMap Prod.snd) ∧
      ∀ b ∈ bs, ∀ l ∈ namesOf FlatOp.target? b.2, l ∈ namesOf FlatOp.label? b.2 ∨ ∃ trap :
        Trap, l = trap.routine := by
  cases h with
  | flattening h hrun =>
    obtain ⟨c, h⟩ := h.exists_stageCode nofun
    have hrenders := h.renders_optimization
    obtain ⟨hlabels, hcalls⟩ := h.calls
    obtain ⟨m', θ, c', q, hrun', hnamed, hlowers, -⟩ | ⟨e, m', hrun', -⟩ := hrenders.flatten
    · cases hrun.symm.trans hrun'
      -- A call that is left is not one of a built-in function.
      have hcalls' : c.Calls fun f => f ≠ "len" → f ∈ p.labels ∨ f ∈ Library.reserved := by
        intro n hn f hf hlen
        obtain ⟨-, hprint, hinput⟩ := hrenders.kinds n hn
        rw [hf] at hprint hinput
        refine (hcalls n hn f hf).resolve_left fun hbuiltin => ?_
        simp only [builtins, List.mem_cons, List.not_mem_nil, or_false] at hbuiltin
        rcases hbuiltin with rfl | rfl | rfl
        exacts [hprint rfl, hlen rfl, hinput rfl]
      obtain ⟨bs, hbodies, hfst, hmarked, hlocal⟩ :=
        hlowers.marked hrenders.functions (.inr (by decide)) hcalls' θ
      exact ⟨c'.relabel θ, bs, q, hnamed.models, hbodies, hfst.trans hlabels, hmarked, hlocal⟩
    · cases hrun.symm.trans hrun'

theorem exists_bodies_of_compile {r : Compiled} (hr : options.compile p = .ok r) :
    ∃ (m : Module) (c : Code) (bs : List (String × List Instruction)) (q : Progress), m.Models c .nil ∧
      c.Bodies bs ∧ bs.map Prod.fst = p.labels ∧
        Marked (fun func => func ∈ p.labels ∨ func ∈ Library.reserved) {} q (bs.flatMap Prod.snd) ∧
      Asm.Assembly.ofModule options.heapSize m = .ok r.asm := by
  obtain ⟨m, hm, hasm⟩ := exists_checkpoint_of_compile hr
  obtain ⟨c, bs, q, hmodels, hbodies, hfst, hmarked, -⟩ := hm.exists_marked_bodies
  exact ⟨m, c, bs, q, hmodels, hbodies, hfst, hmarked, hasm⟩

end Options

section Names

open IR (Mark Construct Instruction FlatOp namesOf)
open Asm (returnLabel labelsOf Routine.all)

theorem eq_of_append_number {a b : String} {m n : Nat} (h : a ++ "_" ++ toString m = b ++ "_" ++ toString n) :
    a = b ∧ m = n := by
  have hdigits (a : String) (n : Nat) :
      (a ++ "_" ++ toString n).toList.reverse.takeWhile Char.isDigit = (Nat.toDigits 10 n).reverse := by
    rw [String.toList_append, List.reverse_append, Nat.toString_eq_repr, Nat.toList_repr,
      List.takeWhile_append_of_pos]
    · simp
    · intro c hc
      exact Nat.isDigit_of_mem_toDigits (by decide) (by decide) (List.mem_reverse.mp hc)
  have hnumber : Nat.toDigits 10 m = Nat.toDigits 10 n := by
    rw [← List.reverse_inj, ← hdigits a m, ← hdigits b n, h]
  obtain rfl : m = n := by
    rw [← Nat.ofDigitChars_toDigits (b := 10) (n := m) (by decide) (by decide), hnumber,
      Nat.ofDigitChars_toDigits (by decide) (by decide)]
  exact ⟨(String.append_left_inj _).mp ((String.append_left_inj _).mp h), rfl⟩

theorem IR.Mark.text_inj {k k' : Mark} (hk : k.role ∈ k.construct.roles) (hk' : k'.role ∈ k'.construct.roles)
    (h : k.text = k'.text) : k = k' := by
  obtain ⟨construct, role, number⟩ := k
  obtain ⟨construct', role', number'⟩ := k'
  obtain ⟨hstem, rfl⟩ := eq_of_append_number h
  have hstems : ∀ r ∈ construct.roles, ∀ r' ∈ construct'.roles,
      ".L" ++ construct.text ++ "_" ++ r = ".L" ++ construct'.text ++ "_" ++ r' → construct = construct' ∧
        r = r' := by
    cases construct <;> cases construct' <;> decide
  obtain ⟨rfl, rfl⟩ := hstems role hk role' hk' hstem
  rfl

theorem IR.Mark.head?_text (k : Mark) : k.text.toList.head? = some '.' := by
  simp [Mark.text, Construct.label, String.toList_append]

theorem IR.Mark.isDigit_getLast?_text (k : Mark) : k.text.toList.getLast?.map Char.isDigit = some true := by
  have hne : Nat.toDigits 10 k.number ≠ [] := Nat.toDigits_ne_nil
  rw [Mark.text, Construct.label, String.toList_append, Nat.toString_eq_repr, Nat.toList_repr,
    List.getLast?_append, List.getLast?_eq_some_getLast hne]
  exact congrArg some (Nat.isDigit_of_mem_toDigits (by decide) (by decide) (List.getLast_mem hne))

theorem returnLabel_injective : Function.Injective returnLabel := by
  intro f g h
  exact (String.append_right_inj _).mp ((String.append_left_inj _).mp h)

theorem head?_returnLabel (f : String) : (returnLabel f).toList.head? = some '_' := by
  simp [returnLabel, String.toList_append]

theorem Program.head?_ne_dot (hnames : ∀ name ∈ p.functionNames, IsIdentifier name) {label : String}
    (h : label ∈ p.labels) :
    label.toList.head? ≠ some '.' := by
  obtain rfl | h := List.mem_cons.mp h
  · decide
  · obtain ⟨f, s, hf, rfl, -⟩ := Decl.exists_of_mem_labels h
    obtain ⟨hne, hdot⟩ := hnames f.name (Decl.name_mem_functionNames hf)
    rw [String.empty_append, String.toList_append]
    cases hname : f.name.toList with
    | nil => exact absurd (String.toList_eq_nil_iff.mp hname) hne
    | cons c cs =>
      rw [hname] at hdot
      rintro ⟨⟩
      exact hdot List.mem_cons_self

def Library.labels : List String := Library.start :: labelsOf Routine.all

theorem Library.nodup_labels : Library.labels.Nodup := by decide +kernel

theorem Library.reserved_or_dot : ∀ l ∈ Library.labels, l ∈ Library.reserved ∨ l.toList.head? = some '.' := by
  decide +kernel

theorem Library.mem_labels_of_reserved : ∀ l ∈ Library.reserved, l ∈ Library.labels := by decide +kernel

theorem Library.not_isDigit : ∀ l ∈ Library.labels, l.toList.getLast?.map Char.isDigit ≠ some true := by
  decide +kernel

theorem Library.not_return : ∀ l ∈ Library.labels, ¬ "_return".toList <:+ l.toList := by decide +kernel

theorem IR.Marked.nodup_labels {P : String → Prop} {p p' : IR.Progress} {is : List Instruction}
    (h : IR.Marked P p p' is) :
    (namesOf FlatOp.label? is).Nodup ∧ ∀ l ∈ namesOf FlatOp.label? is, l ∉ Library.labels := by
  obtain ⟨ks, hks, hnodup, hbetween⟩ := h.labels
  constructor
  · refine hks.symm.nodup ((List.nodup_map_iff_inj_on hnodup).mpr fun k hk k' hk' => ?_)
    exact Mark.text_inj (hbetween k hk).role (hbetween k' hk').role
  · intro l hl hlibrary
    obtain ⟨k, -, rfl⟩ := List.mem_map.mp (hks.mem_iff.mp hl)
    exact Library.not_isDigit _ hlibrary k.isDigit_getLast?_text

/-- No function has the label of the end of another one. -/
def Program.EndsApart (p : Program) : Prop := ∀ f ∈ p.labels, ∀ g ∈ p.labels, f ≠ returnLabel g

instance (p : Program) : Decidable p.EndsApart := inferInstanceAs (Decidable (∀ f ∈ p.labels, _))

theorem perm_labels_bodies (bs : List (String × List Instruction)) :
    (bs.flatMap fun b => b.1 :: (namesOf FlatOp.label? b.2 ++ [returnLabel b.1])).Perm
      (bs.map Prod.fst ++
        ((bs.map Prod.fst).map returnLabel ++ namesOf FlatOp.label? (bs.flatMap Prod.snd))) := by
  induction bs with
  | nil => exact .nil
  | cons b bs ih =>
    rw [List.perm_iff_count] at ih ⊢
    intro l
    have hl := ih l
    simp only [List.flatMap_cons, List.map_cons, IR.namesOf_append, List.count_cons, List.count_append,
      List.count_nil] at hl ⊢
    omega

theorem mem_namesOf_flatMap {f : FlatOp → Option String} {bs : List (String × List Instruction)}
    {b : String × List Instruction} (hb : b ∈ bs) {l : String} (hl : l ∈ namesOf f b.2) :
    l ∈ namesOf f (bs.flatMap Prod.snd) := by
  obtain ⟨i, hi, hl⟩ := List.mem_filterMap.mp hl
  exact List.mem_filterMap.mpr ⟨i, List.mem_flatMap.mpr ⟨b, hb, hi⟩, hl⟩

/-- The labels of the library, of functions, of their ends and of constructs differ, unless a function has the
label of an end. -/
theorem nodup_labels_iff {ks : List Mark} (hnames : ∀ name ∈ p.functionNames, IsIdentifier name)
    (hlabels : p.labels.Nodup) (hreserved : ∀ l ∈ p.labels, l ∉ Library.reserved) (hks : ks.Nodup)
    (hroles : ∀ k ∈ ks, k.role ∈ k.construct.roles) :
    (Library.labels ++ (p.labels ++ (p.labels.map returnLabel ++ ks.map Mark.text))).Nodup ↔ p.EndsApart := by
  have hmarks : (ks.map Mark.text).Nodup :=
    (List.nodup_map_iff_inj_on hks).mpr fun k hk k' hk' => Mark.text_inj (hroles k hk) (hroles k' hk')
  have hends : (p.labels.map returnLabel).Nodup := hlabels.map returnLabel_injective
  have hhead {l : String} (hl : l ∈ ks.map Mark.text) : l.toList.head? = some '.' := by
    obtain ⟨k, -, rfl⟩ := List.mem_map.mp hl
    exact k.head?_text
  have hlibrary : ∀ a ∈ Library.labels, ∀ b ∈ p.labels ++ (p.labels.map returnLabel ++ ks.map Mark.text),
      a ≠ b := by
    rintro l hl _ hl' rfl
    simp only [List.mem_append] at hl'
    rcases hl' with hl' | hl' | hl'
    · exact (Library.reserved_or_dot l hl).elim (hreserved l hl') (Program.head?_ne_dot hnames hl')
    · obtain ⟨f, -, rfl⟩ := List.mem_map.mp hl'
      exact Library.not_return _ hl ⟨("_" ++ f).toList, by rw [← String.toList_append]; rfl⟩
    · obtain ⟨k, -, rfl⟩ := List.mem_map.mp hl'
      exact Library.not_isDigit _ hl k.isDigit_getLast?_text
  have hfunctions : ∀ a ∈ p.labels, ∀ b ∈ ks.map Mark.text, a ≠ b := by
    rintro l hl _ hl' rfl
    exact Program.head?_ne_dot hnames hl (hhead hl')
  have hendsMarks : ∀ a ∈ p.labels.map returnLabel, ∀ b ∈ ks.map Mark.text, a ≠ b := by
    rintro _ hl l hl' rfl
    obtain ⟨f, -, rfl⟩ := List.mem_map.mp hl
    have hdot := hhead hl'
    rw [head?_returnLabel] at hdot
    cases hdot
  rw [List.nodup_append, List.nodup_append, List.nodup_append]
  constructor
  · rintro ⟨-, ⟨-, -, hdisjoint⟩, -⟩ f hf g hg
    exact hdisjoint f hf _ (List.mem_append_left _ (List.mem_map_of_mem hg))
  · intro h
    refine ⟨Library.nodup_labels, ⟨hlabels, ⟨hends, hmarks, hendsMarks⟩, fun f hf b hb => ?_⟩, hlibrary⟩
    obtain hb | hb := List.mem_append.mp hb
    · obtain ⟨g, hg, rfl⟩ := List.mem_map.mp hb
      exact h f hf g hg
    · exact hfunctions f hf b hb

end Names

namespace Asm

open IR (FlatOp namesOf)

variable {options : Options} {p : Program} {r : Compiled}

def dataNames : List String := [heapName, heapTopName] ++ Routine.data.map Datum.name

theorem data_names (heapSize : UInt32) (text : List Instr) :
    ({ Assembly.ofHeap heapSize with text }.withLibrary).data.map Datum.name = dataNames := List.map_append

theorem labels_withLibrary (heapSize : UInt32) (main : String) (code : List Instr) :
    ({ Assembly.ofHeap heapSize with text := Routine.entry main ++ code }.withLibrary).labels =
      Library.start :: (labelsOf code ++ labelsOf Routine.all) := by
  rw [Assembly.labels, Assembly.withLibrary, labelsOf_append, labelsOf_append, List.append_assoc]
  rfl

theorem linked_library : ∀ i ∈ Routine.all, i.Linked (· ∈ labelsOf Routine.all) (· ∈ dataNames) := by
  decide +kernel

theorem linked_entry (main : String) : ∀ i ∈ Routine.entry main, i.Linked (· = main) (· ∈ dataNames) := by
  have hheap : heapName ∈ dataNames := by decide +kernel
  have hheapTop : heapTopName ∈ dataNames := by decide +kernel
  simp only [Routine.entry, List.forall_mem_cons, List.not_mem_nil, false_implies, implies_true, and_true]
  exact ⟨trivial, ⟨_, rfl, hheap⟩, ⟨_, rfl, hheapTop⟩, trivial, ⟨_, rfl, rfl⟩, trivial, trivial, trivial⟩

end Asm

namespace Options

open Asm (Routine.entry Datum)
open IR (FlatOp namesOf)

variable {options : Options} {p : Program} {r : Compiled}

theorem labels_of_compile (hnames : ∀ name ∈ p.functionNames, IsIdentifier name)
    (hr : options.compile p = .ok r) :
    (r.asm.labels.Nodup ↔ p.EndsApart) ∧
      ∀ i ∈ r.asm.text, i.Linked (· ∈ r.asm.labels) (· ∈ r.asm.data.map Datum.name) := by
  obtain ⟨m, c, bs, q, hmodels, hbodies, hfst, hmarked, hasm⟩ := exists_bodies_of_compile hr
  have hdistinct : p.labels.Nodup := by
    obtain ⟨m', hm', -⟩ := exists_checkpoint_of_compile hr
    cases hm' with
    | flattening h _ =>
      obtain ⟨c', h⟩ := h.exists_stageCode nofun
      exact h.nodup_labels hnames
  obtain ⟨code, hcode, hreserved, hemits⟩ := Asm.ofModule_text hmodels hbodies (by rw [hfst]; rfl) hasm
  obtain ⟨ks, hks, hnodup, hbetween⟩ := hmarked.labels
  have hlabels := Asm.labels_withLibrary options.heapSize entryFunction code
  rw [← hcode] at hlabels
  have hreservedLabels : ∀ l ∈ p.labels, l ∉ Library.reserved := by
    rw [← hfst]
    exact List.forall_mem_map.mpr hreserved
  -- Up to their order, these are the labels of the library, the functions, their ends and the constructs.
  have hperm : r.asm.labels.Perm
      (Library.labels ++ (p.labels ++ (p.labels.map Asm.returnLabel ++ ks.map IR.Mark.text))) := by
    have hcodeLabels :=
      (hemits (fun _ => True) fun _ _ => ⟨fun _ _ => trivial, fun _ _ => trivial, trivial⟩).labels_eq
    rw [hlabels, hcodeLabels, Library.labels, List.cons_append]
    refine (List.perm_append_comm.trans (List.Perm.append_left _ ?_)).cons _
    rw [← hfst]
    exact (perm_labels_bodies bs).trans ((hks.append_left _).append_left _)
  have hmem (l : String) : l ∈ r.asm.labels ↔ l ∈ Library.labels ∨ l ∈ p.labels ∨
      l ∈ p.labels.map Asm.returnLabel ∨ l ∈ ks.map IR.Mark.text := by
    rw [hperm.mem_iff, List.mem_append, List.mem_append, List.mem_append]
  refine ⟨hperm.nodup_iff.trans (nodup_labels_iff hnames hdistinct hreservedLabels hnodup fun k hk =>
    (hbetween k hk).role), ?_⟩
  have hdata := Asm.data_names options.heapSize (Routine.entry entryFunction ++ code)
  rw [← hcode] at hdata
  have hfunctions := hemits (· ∈ r.asm.labels) fun b hb => ⟨fun l hl => ?_, fun f hf => ?_, ?_⟩
  · have htext : r.asm.text = Routine.entry entryFunction ++ code ++ Asm.Routine.all := by
      rw [hcode]
      rfl
    rw [hdata, htext, List.forall_mem_append, List.forall_mem_append]
    refine ⟨⟨fun i hi => (Asm.linked_entry _ i hi).mono ?_ fun _ => id,
      fun i hi => (hfunctions.linked i hi).mono (fun _ => id) nofun⟩,
      fun i hi => (Asm.linked_library i hi).mono (fun l hl => ?_) fun _ => id⟩
    · rintro l rfl
      exact (hmem _).mpr (.inr (.inl List.mem_cons_self))
    · exact (hmem l).mpr (.inl (List.mem_cons_of_mem _ hl))
  · rw [hmem]
    obtain hl | ⟨trap, rfl⟩ := hmarked.targets l (mem_namesOf_flatMap hb hl)
    · exact .inr (.inr (.inr (hks.mem_iff.mp hl)))
    · have htrap : trap.routine ∈ Library.reserved := by cases trap <;> decide
      exact .inl (Library.mem_labels_of_reserved _ htrap)
  · rw [hmem]
    obtain hf | hf := hmarked.callees f (mem_namesOf_flatMap hb hf)
    · exact .inr (.inl hf)
    · exact .inl (Library.mem_labels_of_reserved f hf)
  · rw [hmem, ← hfst]
    exact .inr (.inr (.inl (List.mem_map_of_mem (List.mem_map_of_mem hb))))

/-- When a program compiles, every jump goes to a label, every address is that of an item of data, and the
labels are distinct unless a function has the label of the end of another one. Then, and only then, the
program does not run. -/
theorem compiled_program_links (hnames : ∀ name ∈ p.functionNames, IsIdentifier name)
    (hr : options.compile p = .ok r) :
    (r.asm.labels.Nodup ↔ p.EndsApart) ∧
      (∀ i ∈ r.asm.text, i.Linked (· ∈ r.asm.labels) (· ∈ r.asm.data.map Datum.name)) ∧
      (p.EndsApart → ∀ stdin maxSteps e, r.asm.run stdin maxSteps = .error e → e.isLinking = false) ∧
      (¬ p.EndsApart → ∃ pc name, ∀ stdin maxSteps,
        r.asm.run stdin maxSteps = .error (.emulation pc (.duplicateLabel name))) := by
  obtain ⟨hnodup, hlinked⟩ := labels_of_compile hnames hr
  refine ⟨hnodup, hlinked, fun hapart stdin maxSteps e he => ?_, fun hclash => ?_⟩
  · exact Asm.Assembly.run_isLinking (hnodup.mpr hapart) hlinked he
  · exact Asm.Assembly.run_of_not_nodup fun h => hclash (hnodup.mp h)

/-- A function `f` in which another `f` is nested, beside functions whose names are close to labels of
ends. -/
def nestedNames : Program where
  decls := [.func ⟨"f", [], .int, [.func ⟨"f", [], .int, [], [.ret (some (.ofInt 1))]⟩],
    [.ret (some (.call "f" [] .int))]⟩, .func ⟨"_f", [], .int, [], [.ret (some (.ofInt 2))]⟩,
    .func ⟨"f_return", [], .int, [], [.ret (some (.call "_f" [] .int))]⟩]
  stmts := [.print (.call "f" [] .int), .print (.call "f_return" [] .int)]

theorem compiled_nestedNames_links :
    (∀ name ∈ nestedNames.functionNames, IsIdentifier name) ∧
      ∃ r, ({} : Options).compile nestedNames = .ok r ∧
      r.asm.labels.Nodup ∧ (∀ i ∈ r.asm.text, i.Linked (· ∈ r.asm.labels) (· ∈ r.asm.data.map Datum.name)) ∧
      ∀ stdin maxSteps e, r.asm.run stdin maxSteps = .error e → e.isLinking = false := by
  have hnames : ∀ name ∈ nestedNames.functionNames, IsIdentifier name := by decide +kernel
  have hapart : nestedNames.EndsApart := by decide +kernel
  have hcompiles : (({} : Options).compile nestedNames).isOk = true := by decide +kernel
  refine ⟨hnames, ?_⟩
  cases hr : ({} : Options).compile nestedNames with
  | error e =>
    rw [hr] at hcompiles
    cases hcompiles
  | ok r =>
    obtain ⟨hnodup, hlinked, hrun, -⟩ := compiled_program_links hnames hr
    exact ⟨r, rfl, hnodup.mpr hapart, hlinked, hrun hapart⟩

/-- A function `f` beside one that has the label of the end of `f`. -/
def clashingNames : Program where
  decls := [.func ⟨"f", [], .int, [], [.ret (some (.ofInt 1))]⟩,
    .func ⟨"_f_return", [], .int, [], [.ret (some (.ofInt 2))]⟩]
  stmts := [.print (.call "f" [] .int), .print (.call "_f_return" [] .int)]

theorem compiled_clashingNames_fails :
    (∀ name ∈ clashingNames.functionNames, IsIdentifier name) ∧
      ∃ r, ({} : Options).compile clashingNames = .ok r ∧
      ¬ r.asm.labels.Nodup ∧ ∀ stdin maxSteps,
        r.asm.run stdin maxSteps = .error (.emulation 43 (.duplicateLabel "_f_return")) := by
  have hnames : ∀ name ∈ clashingNames.functionNames, IsIdentifier name := by decide +kernel
  have hclash : ¬ clashingNames.EndsApart := by decide +kernel
  have htable : (match ({} : Options).compile clashingNames with
      | .ok r =>
        match Machine.labelTable [] 0 r.asm.text with
        | .error e => decide (e = .emulation 43 (.duplicateLabel "_f_return"))
        | .ok _ => false
      | .error _ => false) = true := by decide +kernel
  refine ⟨hnames, ?_⟩
  split at htable
  next r hr =>
    refine ⟨r, hr, fun hnodup => hclash ((labels_of_compile hnames hr).1.mp hnodup),
      Asm.Assembly.run_of_labelTable ?_⟩
    split at htable
    next e he => exact of_decide_eq_true htable ▸ he
    next => cases htable
  next => cases htable

end Options

end Choco
