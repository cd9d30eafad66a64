import Choco.Eval.Value
import Choco.Proofs.ModuleRuns
import Choco.Proofs.Routines

namespace Choco

namespace IR

variable {types : Types} {n : Node}

/-- The operation tells whether two strings differ. -/
def Node.DiffersStrings (types : Types) (n : Node) : Prop :=
  n.kind = .binary .notEq ∧ n.operands.map types.operand = [.str, .str]

theorem Node.DiffersStrings.libraryUse (h : n.DiffersStrings types) :
    n.libraryUse types = .ok (.negated Library.strEq) := by
  rw [Node.libraryUse, h.1, h.2]
  rfl

/-- When the code runs in the place of `n`, it gives the result of `n` the word `value`, where the operands of
`n` are the words `args` and a call of the routine with them is answered with `answer`. -/
def Code.Answers (types : Types) (n : Node) (routine : String) (args : List Int32) (answer value : Int32)
    (e : Code) : Prop :=
  ∀ (platform : Platform) (callees : Callees) (fuel : Nat) (s : State) (w : World),
    n.operands.map (fun x => platform.word (s.values x)) = args →
      callees routine args s.world = (.ret answer, w) → ∃ r s', n.result = some r ∧
      platform.run types callees fuel e s = (.next none, s') ∧ s'.values r.value = .word value ∧
        s'.world = w

theorem LibraryCode.answers_negated {e : Code} (he : LibraryCode types n e)
    (huse : n.libraryUse types = .ok (.negated Library.strEq)) (args : List Int32) (answer : Int32) :
    e.Answers types n Library.strEq args answer (UnaryOp.not.word answer) := by
  intro platform callees fuel s w hargs hcall
  subst hargs
  cases he with
  | keep h => cases h.symm.trans huse
  | call routine h => cases h.symm.trans huse
  | negated routine h id₁ id₂ equal r hr =>
    cases h.symm.trans huse
    have hact : platform.act types callees ⟨id₁, .call Library.strEq, n.operands, some ⟨equal, .plain .bool⟩⟩
        (n.operands.map s.values) s.world = (.next (some (.word answer)), w) := by
      have hkeep : LibraryUse.ofOp (.call Library.strEq) (n.operands.map types.operand) = .ok .keep :=
        LibraryUse.ofOp_routine_keep (by decide) (by decide) _
      have hcallee : Kind.callee? (.call Library.strEq) = some Library.strEq := by
        rw [Kind.callee?, if_neg (by decide)]
      rw [Platform.act, Node.libraryUse, hkeep]
      simp only [Platform.direct, hcallee, List.map_map]
      exact congrArg (Prod.map Exit.returned id) hcall
    -- the state between the two operations
    let s₁ : State := ⟨Function.update s.values equal (.word answer), w⟩
    have hanswer : s₁.values equal = .word answer := Function.update_self _ _ _
    have hnot : platform.act types callees ⟨id₂, .unary .not, [equal], some r⟩
        ([equal].map s₁.values) s₁.world = (.next (some (.word (UnaryOp.not.word answer))), w) := by
      rw [List.map_singleton, hanswer]
      rfl
    refine ⟨r, ⟨Function.update s₁.values r.value (.word (UnaryOp.not.word answer)), w⟩, hr, ?_,
      Function.update_self _ _ _, rfl⟩
    exact (Platform.run_leaf_next (by simp) hact).trans (Platform.run_leaf_next (by simp) hnot)

end IR

namespace Machine

open Asm (Assembly Instr Reg)
open Asm.Instr

section Routine

open Asm.Routine

variable {labels : List (String × Nat)} {symbols : List (String × UInt32)} {code : Array Line}
  {stdin : Array UInt8} {pc p q : Nat} {v : View} {xs ys : List Int32} {x y : Int32} {pcTrue pcFalse : Nat}

def nextPairLines : List Instr := [addi .t2 .t2 4, addi .t3 .t3 4, addi .t0 .t0 (-1)]

def compareLines : List Instr :=
  label ".Lstr_eq_loop" :: branch .eq .t0 .zero ".Lstr_eq_true" ::
    ([lw .t4 0 .t2, lw .t5 0 .t3] ++
      (branch .ne .t4 .t5 ".Lstr_eq_false" :: (nextPairLines ++ [j ".Lstr_eq_loop"])))

def compareRegs : List Reg := [.t0, .t2, .t3, .t4, .t5]

structure Comparing (v : View) (p q : Nat) (xs ys : List Int32) : Prop where
  zero : v.regs .zero = 0
  count : v.regs .t0 = Int32.ofNat xs.length
  left : v.Points .t2 p xs
  right : v.Points .t3 q ys

theorem Comparing.length_lt (h : Comparing v p q xs ys) : xs.length < 4294967296 := by
  have hhigh := h.left.covers.high
  have hsize := h.left.covers.size
  unfold UInt32.size at hsize
  omega

theorem loadPair_passage (h : Comparing v p q (x :: xs) (y :: ys)) :
    Passage labels symbols stdin [lw .t4 0 .t2, lw .t5 0 .t3] v ((v.put .t4 x).put .t5 y) := by
  have hleft : v.regs .t2 + 0 = Int32.ofNat p := by rw [Int32.add_zero, h.left.address]
  have hright : v.regs .t3 + 0 = Int32.ofNat q := by rw [Int32.add_zero, h.right.address]
  rw [← h.left.head_word, ← h.right.head_word]
  exact .load hleft h.left.head_covers (.load hright h.right.head_covers .nil)

theorem nextPair_passage (h : Comparing v p q (x :: xs) (y :: ys)) :
    ∃ v', Passage labels symbols stdin nextPairLines ((v.put .t4 x).put .t5 y) v' ∧ v.Keeps compareRegs v' ∧
      v'.memory = v.memory ∧ Comparing v' (p + 4) (q + 4) xs ys := by
  refine ⟨_, .addi <| .addi <| .addi .nil, ?_, rfl, h.zero, ?_,
    h.left.tail rfl rfl fun _ _ _ => rfl, h.right.tail rfl rfl fun _ _ _ => rfl⟩
  · exact .put (by decide) <| .put (by decide) <| .put (by decide) <| .put (by decide) <|
      .put (by decide) <| .refl _ v
  change v.regs .t0 + (-1) = _
  rw [h.count, List.length_cons, ofNat_succ_pred]

variable (stdin) in
theorem compare_lead (hcode : Placed labels symbols code pc compareLines)
    (htrue : labels.lookup ".Lstr_eq_true" = some pcTrue)
    (hfalse : labels.lookup ".Lstr_eq_false" = some pcFalse) (h : Comparing v p q xs ys)
    (hlength : xs.length = ys.length) :
    ∃ v', Leads code stdin pc v (if xs = ys then pcTrue else pcFalse) v' ∧ v.Keeps compareRegs v' ∧
      v'.memory = v.memory := by
  have hloop : labels.lookup ".Lstr_eq_loop" = some pc := hcode.lookup 0 _ _ rfl rfl
  obtain ⟨-, htest⟩ := codeAt_cons.mp hcode.code
  obtain ⟨hpair, hdiffer⟩ := codeAt_append.mp (codeAt_cons.mp htest).2
  obtain ⟨hnext, hjump⟩ := codeAt_append.mp (codeAt_cons.mp hdiffer).2
  induction xs generalizing v p q ys with
  | nil =>
    obtain rfl : ys = [] := List.length_eq_zero_iff.mp hlength.symm
    have hdone : Cond.eq.holds (v.regs .t0) (v.regs .zero) = true := by
      rw [h.count, h.zero]
      rfl
    exact ⟨v, (Leads.label hcode.code).trans (.taken htest hdone htrue), .refl _ v, rfl⟩
  | cons x xs ih =>
    obtain ⟨y, ys, rfl⟩ := List.exists_cons_of_length_eq_add_one hlength.symm
    have hstay : Cond.eq.holds (v.regs .t0) (v.regs .zero) = false := by
      rw [h.count, h.zero, eq_holds_zero h.length_lt]
      rfl
    have hloaded : Leads code stdin pc v (pc + 4) ((v.put .t4 x).put .t5 y) :=
      (Leads.label hcode.code).trans <| (Leads.passed htest hstay).trans <| (loadPair_passage h).leads hpair
    by_cases hxy : x = y
    · subst hxy
      obtain ⟨v₁, hpassage, hkeeps, hmemory, hrest⟩ := nextPair_passage h
      obtain ⟨v', hleads, hkeeps', hmemory'⟩ := ih hrest (Nat.succ.inj hlength)
      have hsame : Cond.ne.holds x x = false := bne_self_eq_false x
      refine ⟨v', ?_, (hkeeps.trans hkeeps').mono (by simp), hmemory'.trans hmemory⟩
      simp only [List.cons.injEq, true_and]
      exact hloaded.trans <| (Leads.passed hdiffer hsame).trans <| (hpassage.leads hnext).trans <|
        (Leads.jump hjump hloop).trans hleads
    · have hother : Cond.ne.holds x y = true := bne_iff_ne.mpr hxy
      refine ⟨(v.put .t4 x).put .t5 y, ?_, .put (by decide) <| .put (by decide) <| .refl _ v, rfl⟩
      rw [if_neg fun heq => hxy (List.cons_eq_cons.mp heq).1]
      exact hloaded.trans (.taken hdiffer hother hfalse)

def lengthLines : List Instr := [label Library.strEq, lw .t0 0 .a0, lw .t1 0 .a1]

def cursorLines : List Instr := [addi .t2 .a0 4, addi .t3 .a1 4]

def answerLines (name : String) (answer : Int32) : List Instr := [label name, li .a0 answer, ret]

theorem strEq_eq : strEq =
    (lengthLines ++
      ([(branch .ne .t0 .t1 ".Lstr_eq_false").note "lengths differ"] ++ (cursorLines ++ compareLines))) ++
      (answerLines ".Lstr_eq_true" 1 ++ answerLines ".Lstr_eq_false" 0) := rfl

def strEqRegs : List Reg := [.a0, .t0, .t1, .t2, .t3, .t4, .t5]

variable (stdin) in
theorem answer_lead {name : String} {answer : Int32}
    (hcode : CodeAt labels symbols code pc (answerLines name answer))
    (hra : 0 ≤ v.regs .ra) : Leads code stdin pc v (v.regs .ra).toInt.toNat (v.put .a0 answer) := by
  have hlines : Passage labels symbols stdin [label name, li .a0 answer] v (v.put .a0 answer) :=
    .label <| .li .nil
  rw [show answerLines name answer = [label name, li .a0 answer] ++ [ret] from rfl, codeAt_append] at hcode
  exact (hlines.leads hcode.1).trans (.ret hcode.2 hra)

theorem lengths_passage (hx : v.memory.Object p xs) (hy : v.memory.Object q ys)
    (ha0 : v.regs .a0 = Int32.ofNat p) (ha1 : v.regs .a1 = Int32.ofNat q) :
    Passage labels symbols stdin lengthLines v
      ((v.put .t0 (Int32.ofNat xs.length)).put .t1 (Int32.ofNat ys.length)) := by
  have hleft : v.regs .a0 + 0 = Int32.ofNat p := by rw [Int32.add_zero, ha0]
  have hright : v.regs .a1 + 0 = Int32.ofNat q := by rw [Int32.add_zero, ha1]
  rw [← hx.length, ← hy.length]
  exact .label <| .load hleft (hx.covers.mono (Nat.le_refl p) (by omega)) <|
    .load hright (hy.covers.mono (Nat.le_refl q) (by omega)) .nil

theorem cursors_passage (hx : v.memory.Object p xs) (hy : v.memory.Object q ys)
    (ha0 : v.regs .a0 = Int32.ofNat p) (ha1 : v.regs .a1 = Int32.ofNat q)
    (ht0 : v.regs .t0 = Int32.ofNat xs.length) (hzero : v.regs .zero = 0) :
    ∃ v', Passage labels symbols stdin cursorLines v v' ∧ v.Keeps strEqRegs v' ∧ v'.memory = v.memory ∧
      Comparing v' (p + 4) (q + 4) xs ys := by
  refine ⟨_, .addi <| .addi .nil, .put (by decide) <| .put (by decide) <| .refl _ v, rfl, hzero, ht0,
    .of_object hx ?_, .of_object hy ?_⟩
  · rw [← ha0]
    rfl
  · rw [← ha1]
    rfl

variable (stdin) in
theorem decision_lead
    (hcode : Placed labels symbols code pc
      (lengthLines ++
        ([(branch .ne .t0 .t1 ".Lstr_eq_false").note "lengths differ"] ++ (cursorLines ++ compareLines))))
    (htrue : labels.lookup ".Lstr_eq_true" = some pcTrue)
    (hfalse : labels.lookup ".Lstr_eq_false" = some pcFalse)
    (hx : v.memory.Object p xs) (hy : v.memory.Object q ys) (ha0 : v.regs .a0 = Int32.ofNat p)
    (ha1 : v.regs .a1 = Int32.ofNat q)
    (hzero : v.regs .zero = 0) :
    ∃ v', Leads code stdin pc v (if xs = ys then pcTrue else pcFalse) v' ∧ v.Keeps strEqRegs v' ∧
      v'.memory = v.memory := by
  obtain ⟨hlengths, hcode⟩ := hcode.append
  obtain ⟨hbranch, hcode⟩ := hcode.append
  obtain ⟨hcursors, hcompare⟩ := hcode.append
  have hdiffer := codeAt_note.mp hbranch.code
  let v₁ := (v.put .t0 (Int32.ofNat xs.length)).put .t1 (Int32.ofNat ys.length)
  have hkeeps₁ : v.Keeps strEqRegs v₁ := .put (by decide) <| .put (by decide) <| .refl _ v
  have hloaded : Leads code stdin pc v (pc + 3) v₁ := (lengths_passage hx hy ha0 ha1).leads hlengths.code
  by_cases hlength : xs.length = ys.length
  · have hsame : Cond.ne.holds (v₁.regs .t0) (v₁.regs .t1) = false := by
      change (Int32.ofNat xs.length != Int32.ofNat ys.length) = false
      rw [hlength, bne_self_eq_false]
    obtain ⟨v₂, hpassage, hkeeps₂, hmemory₂, hstart⟩ := cursors_passage (v := v₁) hx hy ha0 ha1 rfl hzero
    obtain ⟨v₃, hleads, hkeeps₃, hmemory₃⟩ := compare_lead stdin hcompare htrue hfalse hstart hlength
    refine ⟨v₃, ?_, (hkeeps₁.trans (hkeeps₂.trans hkeeps₃)).mono (by decide), hmemory₃.trans hmemory₂⟩
    exact hloaded.trans <| (Leads.passed hdiffer hsame).trans <| (hpassage.leads hcursors.code).trans hleads
  · have hother : Cond.ne.holds (v₁.regs .t0) (v₁.regs .t1) = true := by
      refine bne_iff_ne.mpr fun heq => hlength ?_
      have hlt := hx.length_lt
      have hlt' := hy.length_lt
      exact (ofNat_inj_of_lt (by omega) (by omega)).mp heq
    refine ⟨v₁, ?_, hkeeps₁, rfl⟩
    rw [if_neg fun heq => hlength (congrArg List.length heq)]
    exact hloaded.trans (.taken hdiffer hother hfalse)

variable (stdin) in
theorem strEq_leads (hcode : Placed labels symbols code pc strEq) (hx : v.memory.Object p xs)
    (hy : v.memory.Object q ys) (ha0 : v.regs .a0 = Int32.ofNat p) (ha1 : v.regs .a1 = Int32.ofNat q)
    (hzero : v.regs .zero = 0) (hra : 0 ≤ v.regs .ra) :
    ∃ v', Leads code stdin pc v (v.regs .ra).toInt.toNat v' ∧ v.Keeps strEqRegs v' ∧
      v'.regs .a0 = Word.ofBool (xs = ys) ∧ v'.memory = v.memory := by
  rw [strEq_eq] at hcode
  obtain ⟨hdecision, hanswers⟩ := hcode.append
  obtain ⟨htrue, hfalse⟩ := hanswers.append
  obtain ⟨v₁, hleads, hkeeps, hmemory⟩ :=
    decision_lead stdin hdecision (htrue.lookup 0 _ _ rfl rfl) (hfalse.lookup 0 _ _ rfl rfl)
    hx hy ha0 ha1 hzero
  rw [← hkeeps.regs .ra (by decide)] at hra ⊢
  refine ⟨v₁.put .a0 (Word.ofBool (xs = ys)), hleads.trans ?_, .put (by decide) hkeeps, rfl, hmemory⟩
  by_cases heq : xs = ys
  · rw [if_pos heq, decide_eq_true heq]
    exact answer_lead stdin htrue.code hra
  · rw [if_neg heq, decide_eq_false heq]
    exact answer_lead stdin hfalse.code hra

theorem strEq_mem_library : strEq <:+: Asm.Routine.all :=
  ⟨malloc ++ printInt ++ printBool ++ printStr ++ input ++ concat,
    Trap.all.flatMap ofTrap ++ errorExit, by simp [Asm.Routine.all]⟩

end Routine

theorem equals_str {bs cs : Array UInt8} (i j : Nat) :
    (Eval.Value.str i bs).equals (.str j cs) = decide (bs.toList.map byteWord = cs.toList.map byteWord) := by
  rw [Eval.Value.equals, Bool.eq_iff_iff, beq_iff_eq, decide_eq_true_iff, byteWord_injective.list_map.eq_iff,
    Array.toList_inj]

theorem not_word_ofBool (b : Bool) : UnaryOp.not.word (Word.ofBool b) = Word.ofBool (!b) := by cases b <;> rfl

/-- The routine that compares two objects, in any program with the library: it returns, and its answer is one
if they have the same length and the same words, zero if not. On strings this is the equality of the
evaluator. Where an operation of a module tells whether two strings differ, the code that the uses of the
library become computes the negation. -/
theorem strEq_decides_equality {a : Assembly} {image : Image} (hload : Image.load a = .ok image)
    (hlibrary : Asm.Routine.all <:+: a.text) (stdin : Array UInt8) {s : Machine} (hs : image.Hosts s)
    (hat : s.atLabel image.code Library.strEq) (hra : 0 ≤ s.read .ra) {xs ys : List Int32}
    (hx : s.memory.Object (s.read .a0).toUInt32.toNat xs)
    (hy : s.memory.Object (s.read .a1).toUInt32.toNat ys) :
    ∃ t, Returned image.code stdin s t ∧ t.read .a0 = Word.ofBool (xs = ys) ∧ t.memory = s.memory ∧
      t.stdinPos = s.stdinPos ∧ t.stdout = s.stdout ∧
      ∀ (i j : Nat) (bs cs : Array UInt8), xs = bs.toList.map byteWord → ys = cs.toList.map byteWord →
        t.read .a0 = Word.ofBool ((Eval.Value.str i bs).equals (.str j cs)) ∧
        ∀ {m m' : IR.Module} {c : IR.Code} {k : Nat}, m.Renders (· ≠ .forLoop) c →
          IR.Edit.replaceLibraryUses m = .ok k m' →
          ∃ c' θ, IR.Named m.values.size m' θ c' ∧ c.Maps (fun n e => n.DiffersStrings m.types →
            e.Answers m.types n Library.strEq [s.read .a0, s.read .a1] (t.read .a0)
              (Word.ofBool (!(Eval.Value.str i bs).equals (.str j cs)))) c' := by
  obtain ⟨labels, items, -, -, -, hplaced⟩ := Image.load_placed hload
  obtain ⟨pc, hcode, hpc⟩ := hplaced _ _ (strEq_mem_library.trans hlibrary) rfl
  obtain ⟨v, hleads, hkeeps, hanswer, hmemory⟩ :=
    strEq_leads stdin (v := s.view) hcode hx hy (eq_ofNat_toNat _) (eq_ofNat_toNat _)
    hs.zero hra
  obtain ⟨t, hreaches, hreturn, rfl⟩ := hleads s (hpc s hat) rfl
  have hregs (r : Reg) (hr : r.isScratch = false) : t.read r = s.read r := hkeeps.regs r fun hmem => by
    revert hr
    decide +revert
  refine ⟨t, ⟨hreaches, hreturn, hregs⟩, hanswer, hmemory, hkeeps.stdinPos, hkeeps.stdout,
    fun i j bs cs hbs hcs => ?_⟩
  subst hbs hcs
  have hequal : t.read .a0 = Word.ofBool ((Eval.Value.str i bs).equals (.str j cs)) := by
    rw [equals_str]
    exact hanswer
  refine ⟨hequal, fun hrenders hrun => ?_⟩
  obtain ⟨c', θ, hmaps, hnamed, -⟩ := hrenders.replaceLibraryUses hrun
  refine ⟨c', θ, hnamed, hmaps.mono fun n e he hdiffers => ?_⟩
  rw [← not_word_ofBool, ← hequal]
  exact he.answers_negated hdiffers.libraryUse _ _

/-- A program that compares two objects with the same text. -/
def twinTexts : Assembly :=
  { Assembly.ofHeap 4 with
    data := (Assembly.ofHeap 4).data ++
      ([⟨"left", .word 2⟩, ⟨"left_0", .word 104⟩, ⟨"left_1", .word 105⟩, ⟨"right", .word 2⟩,
        ⟨"right_0", .word 104⟩, ⟨"right_1", .word 105⟩] : List Asm.Datum)
    text := [label Library.start, la .a0 "left", la .a1 "right", jal Library.strEq] }.withLibrary

theorem equal_twinTexts : ∃ image s t, Image.load twinTexts = .ok image ∧
    (ofImage image).after image.code #[] 4 = some s ∧
    s.atLabel image.code Library.strEq ∧ s.read .a0 ≠ s.read .a1 ∧ Returned image.code #[] s t ∧ t.pc = 4 ∧
      t.read .a0 = 1 ∧
    t.read .a0 = Word.ofBool ((Eval.Value.str 0 #[104, 105]).equals (.str 1 #[104, 105])) := by
  have hcheck :
      ((Image.load twinTexts).toOption.bind fun image => ((ofImage image).after image.code #[] 4).map fun s =>
      decide (s.atLabel image.code Library.strEq ∧ s.read .ra = 4 ∧ s.read .a0 ≠ s.read .a1 ∧
        s.memory.Object (s.read .a0).toUInt32.toNat [104, 105] ∧
          s.memory.Object (s.read .a1).toUInt32.toNat [104, 105])) =
      some true := by decide +kernel
  simp only [Option.bind_eq_some_iff, Option.map_eq_some_iff, decide_eq_true_eq] at hcheck
  obtain ⟨image, hload, s, hafter, hat, hra, hne, hx, hy⟩ := hcheck
  have hload := Outcome.eq_ok_of_toOption hload
  have hhosts := (Image.hosts_ofImage image).reaches (reaches_of_after hafter)
  obtain ⟨t, hreturned, hanswer, -, -, -, hstrings⟩ :=
    strEq_decides_equality hload ⟨_, [], List.append_nil _⟩ #[] hhosts hat
    (by rw [hra]; decide) hx hy
  refine ⟨image, s, t, hload, hafter, hat, hne, hreturned, hreturned.pc.trans (by rw [hra]; rfl), hanswer, ?_⟩
  exact (hstrings 0 1 #[104, 105] #[104, 105] rfl rfl).1

end Machine

end Choco
