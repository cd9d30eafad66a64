import Choco.Eval.Basic
import Choco.Proofs.HeapCalls

namespace Choco

namespace Input

/-- What is read next of the bytes that are left, and how many of them are taken: a line without its newline,
the first bytes of a line that is too long, or all that is left. -/
inductive Next (rest : List UInt8) : List UInt8 → Nat → Prop
  | line {text : List UInt8} : newline ∉ text → text.length < lineLimit → text ++ [newline] <+: rest →
    Next rest text (text.length + 1)
  | cut {text : List UInt8} : newline ∉ text → text.length = lineLimit → text <+: rest →
      Next rest text lineLimit
  | last {text : List UInt8} : newline ∉ text → text.length < lineLimit → rest = text →
      Next rest text text.length

section Lines

variable {stdin line : Array UInt8} {pos limit : Nat} {before behind bs : List UInt8} {b : UInt8}

theorem extract_eq (stdin : Array UInt8) (pos : Nat) :
    stdin.extract pos stdin.size = (stdin.toList.drop pos).toArray := by
  refine Array.ext' ?_
  rw [Array.toList_extract, List.extract_eq_take_drop]
  exact List.take_of_length_le (by simp)

theorem idxOf?_newline (h : newline ∉ before) :
    (before ++ newline :: behind).idxOf? newline = some before.length := by
  refine List.idxOf?_eq_some_iff.mpr ⟨by simp, by simp, fun j hj heq => h ?_⟩
  rw [List.getElem_append_left hj] at heq
  exact heq ▸ List.getElem_mem hj

variable (limit) in
theorem lineAt_of_newline (hrest : stdin.toList.drop pos = before ++ newline :: behind)
    (h : newline ∉ before) :
    (lineAt stdin pos limit).toList = (before ++ [newline]).take limit := by
  have hline : before ++ [newline] = (before ++ newline :: behind).take (before.length + 1) := by
    simp [List.take_append]
  rw [lineAt, extract_eq, hrest]
  simp only [List.idxOf?_toArray, idxOf?_newline h]
  rw [hline, List.take_take, Nat.min_comm, Array.toList_extract, List.extract_eq_take_drop]
  rfl

variable (limit) in
theorem lineAt_of_not_mem (h : newline ∉ stdin.toList.drop pos) :
    (lineAt stdin pos limit).toList = (stdin.toList.drop pos).take limit := by
  rw [lineAt, extract_eq]
  simp only [List.idxOf?_toArray, List.idxOf?_eq_none_iff.mpr h]
  rw [Array.toList_extract, List.extract_eq_take_drop, List.size_toArray, Nat.min_comm]
  exact List.take_eq_take_min.symm

theorem toList_stripNewline_nil (h : line.toList = []) : (stripNewline line).toList = [] := by
  rw [Array.toList_eq_nil_iff.mp h]
  rfl

theorem toList_stripNewline_concat (h : line.toList = bs ++ [b]) :
    (stripNewline line).toList = if b = newline then bs else bs ++ [b] := by
  obtain rfl : line = (bs ++ [b]).toArray := Array.ext' h
  unfold stripNewline
  split <;> simp_all

theorem stripNewline_isPrefix (line : Array UInt8) : (stripNewline line).toList <+: line.toList := by
  obtain hnil | ⟨bs, b, hconcat⟩ := List.eq_nil_or_concat line.toList
  · rw [toList_stripNewline_nil hnil]
    exact List.nil_prefix
  · rw [List.concat_eq_append] at hconcat
    rw [toList_stripNewline_concat hconcat, hconcat]
    split
    · exact List.prefix_append _ _
    · exact List.prefix_rfl

theorem toList_stripNewline_of_not_mem (h : newline ∉ line.toList) :
    (stripNewline line).toList = line.toList := by
  obtain hnil | ⟨bs, b, hconcat⟩ := List.eq_nil_or_concat line.toList
  · rw [toList_stripNewline_nil hnil, hnil]
  · have hne : b ≠ newline := fun heq => h (by simp [hconcat, heq])
    rw [List.concat_eq_append] at hconcat
    rw [toList_stripNewline_concat hconcat, if_neg hne, hconcat]

theorem next_lineAt (stdin : Array UInt8) (pos : Nat) :
    Next (stdin.toList.drop pos) (stripNewline (lineAt stdin pos lineLimit)).toList
      (lineAt stdin pos lineLimit).size := by
  rw [← Array.length_toList]
  by_cases hmem : newline ∈ stdin.toList.drop pos
  · obtain ⟨before, behind, hrest, h⟩ := List.eq_append_cons_of_mem hmem
    have hline := lineAt_of_newline lineLimit hrest h
    rw [hrest]
    by_cases hlt : before.length < lineLimit
    · rw [List.take_of_length_le (by rw [List.length_append, List.length_singleton]; omega)] at hline
      rw [toList_stripNewline_concat hline, if_pos rfl, hline, List.length_append, List.length_singleton]
      exact .line h hlt ⟨behind, by simp⟩
    · rw [List.take_append_of_le_length (Nat.not_lt.mp hlt)] at hline
      have hnot : newline ∉ before.take lineLimit := fun hin => h (List.mem_of_mem_take hin)
      have hlength : (before.take lineLimit).length = lineLimit := List.length_take_of_le (Nat.not_lt.mp hlt)
      rw [toList_stripNewline_of_not_mem (hline ▸ hnot), hline, hlength]
      have htake : before.take lineLimit <+: before := List.take_prefix _ _
      exact .cut hnot hlength (htake.trans (List.prefix_append _ _))
  · have hline := lineAt_of_not_mem lineLimit hmem
    have hnot : newline ∉ (stdin.toList.drop pos).take lineLimit := fun hin => hmem (List.mem_of_mem_take hin)
    rw [toList_stripNewline_of_not_mem (hline ▸ hnot), hline]
    by_cases hlt : (stdin.toList.drop pos).length < lineLimit
    · rw [List.take_of_length_le hlt.le]
      exact .last hmem hlt rfl
    · have hlength := List.length_take_of_le (Nat.not_lt.mp hlt)
      rw [hlength]
      exact .cut hnot hlength <| List.take_prefix _ _

end Lines
end Input

theorem Eval.input_eq_ok (cfg : Config) (st : State) :
    ∃ object st', input cfg st = .ok
      (.str object (Input.stripNewline (Input.lineAt cfg.stdin st.stdinPos Input.lineLimit))) st' ∧
      st'.stdinPos = st.stdinPos + (Input.lineAt cfg.stdin st.stdinPos Input.lineLimit).size :=
        ⟨_, _, rfl, rfl⟩

namespace Machine

open Asm (Assembly Instr Reg)
open Asm.Instr

section Routine

open Asm.Routine

variable {labels : List (String × Nat)} {symbols : List (String × UInt32)} {code : Array Line}
  {stdin : Array UInt8} {pc p d top : Nat} {v v₀ : View} {line text done rest : List UInt8} {b : UInt8}
  {ra : Int32} {m : Memory} {pc' : Nat}

def readLineLines : List Instr :=
  [label Library.input,
    addi .sp .sp (-1032),
    sw .ra 1028 .sp,
    li .a0 Asm.stdinDescriptor,
    mv .a1 .sp,
    li .a2 (Int32.ofNat Input.lineLimit),
    li .a7 Asm.SystemCall.read,
    ecall.note "a0 = bytes read, 0 at end of input"]

def checkReadLines : List Instr :=
  [branch .ge .a0 .zero ".Linput_strip",
    li .a0 0]

def lastByteLines : List Instr :=
  [alu .add .t1 .sp .t0,
    lbu .t2 (-1) .t1,
    li .t3 newline]

def dropNewlineLines : List Instr :=
  lastByteLines ++ [branch .ne .t2 .t3 ".Linput_alloc", (addi .t0 .t0 (-1)).note "drop the newline"]

def stripLines : List Instr :=
  [label ".Linput_strip", mv .t0 .a0] ++ (branch .eq .t0 .zero ".Linput_alloc" :: dropNewlineLines)

def measureTextLines : List Instr :=
  [label ".Linput_alloc",
    sw .t0 1024 .sp,
    slli .a0 .t0 2,
    addi .a0 .a0 4]

def openTextLines : List Instr :=
  [lw .t0 1024 .sp,
    sw .t0 0 .a0,
    li .t1 0,
    addi .t2 .a0 4]

def widenByteLines : List Instr :=
  [alu .add .t3 .sp .t1,
    lbu .t4 0 .t3,
    sw .t4 0 .t2,
    addi .t2 .t2 4,
    addi .t1 .t1 1]

def widenBytesLines : List Instr :=
  label ".Linput_copy" :: branch .ge .t1 .t0 ".Linput_done" :: (widenByteLines ++ [j ".Linput_copy"])

def openInputLines : List Instr := readLineLines ++ (checkReadLines ++ (stripLines ++ measureTextLines))

theorem input_eq : input = openInputLines ++ ([jal Library.malloc] ++
    (openTextLines ++ widenBytesLines ++ ([label ".Linput_done"] ++ (restoreLines 1028 1032 ++ [ret])))) :=
      rfl

def stripRegs : List Reg := [.t0, .t1, .t2, .t3]

def openInputRegs : List Reg := [.sp, .t0, .t1, .t2, .t3, .a0, .a1, .a2, .a7]

/-- What the frame at `p` has for the rest of the routine: the string, its length and the address to return
to. -/
structure Reading (m : Memory) (p : Nat) (text : List UInt8) (ra : Int32) : Prop where
  frame : m.Covers p 1032
  bytes : m.bytes p text.length = text
  length : m.word (p + 1024) = Int32.ofNat text.length
  back : m.word (p + 1028) = ra
  fits : text.length ≤ Input.lineLimit

theorem Reading.congr {m' : Memory} (h : Reading m p text ra) (hsize : m'.size = m.size)
    (hget : ∀ i, p ≤ i → m'.get i = m.get i) :
    Reading m' p text ra where
  frame := h.frame.of_size hsize
  bytes := (Memory.bytes_congr fun i hi _ => hget i hi).trans h.bytes
  length := (Memory.word_congr fun i hi _ => hget i (by omega)).trans h.length
  back := (Memory.word_congr fun i hi _ => hget i (by omega)).trans h.back
  fits := h.fits

theorem get_of_bytes (h : m.bytes p (done ++ b :: rest).length = done ++ b :: rest) :
    m.get (p + done.length) = b := by
  rw [List.length_append, List.length_cons, Memory.bytes_add] at h
  have hright := (List.append_inj h (by simp [Memory.bytes])).2
  exact (List.cons_eq_cons.mp hright).1

theorem bytes_of_isPrefix (h : m.bytes p line.length = line) (htext : text <+: line) :
    m.bytes p text.length = text := by
  obtain ⟨rest, rfl⟩ := htext
  rw [List.length_append, Memory.bytes_add] at h
  exact (List.append_inj h (by simp [Memory.bytes])).1

theorem ne_holds_byteWord (b b' : UInt8) : Cond.ne.holds (byteWord b) (byteWord b') = decide (b ≠ b') := by
  rw [Cond.holds, Bool.eq_iff_iff, bne_iff_ne, decide_eq_true_iff]
  exact byteWord_injective.ne_iff

variable (stdin) in
theorem readLine_lead {line : Array UInt8} (hcode : CodeAt labels symbols code pc readLineLines)
    (hline : line = Input.lineAt stdin v.stdinPos Input.lineLimit)
    (hsp : v.regs .sp + (-1032) = Int32.ofNat p)
    (hcovers : v.memory.Covers p 1032) :
    ∃ v', Leads code stdin pc v (pc + 8) v' ∧ (∀ r, r ∉ [Reg.sp, .a0, .a1, .a2, .a7] → v'.regs r = v.regs r) ∧
      v'.regs .sp = Int32.ofNat p ∧ v'.regs .a0 = Int32.ofNat line.size ∧
        v'.stdinPos = v.stdinPos + line.size ∧
      v'.stdout = v.stdout ∧ v'.memory = (v.memory.setWord (p + 1028) (v.regs .ra)).setBytes p
        line.toList := by
  subst hline
  have hstore : v.regs .sp + (-1032) + 1028 = Int32.ofNat (p + 1028) := by
    rw [hsp, Int32.ofNat_add]
    rfl
  have hlimit : (Int32.ofNat Input.lineLimit).toInt = Input.lineLimit := by decide
  have hbuffer : v.memory.Covers p Input.lineLimit :=
    hcovers.mono (Nat.le_refl p) (Nat.add_le_add_left (by decide) p)
  have hlines : Passage labels symbols stdin readLineLines v _ :=
    .label <| .addi <| .store hstore (hcovers.mono (Nat.le_add_right p 1028) (by omega)) <| .li <| .mv <|
      .li <| .li <| .note <| .read rfl rfl hsp hlimit (hbuffer.of_size (Memory.size_setWord _ _ _))
      (by decide) .nil
  refine ⟨_, hlines.leads hcode, fun r hr => ?_, hsp, rfl, rfl, rfl, rfl⟩
  simp only [List.mem_cons, List.not_mem_nil, or_false, not_or] at hr
  simp [hr]

variable (stdin) in
theorem dropNewline_lead {bs : List UInt8} (hcode : CodeAt labels symbols code pc dropNewlineLines)
    (halloc : labels.lookup ".Linput_alloc" = some (pc + 5)) (hsp : v.regs .sp = Int32.ofNat p)
    (ht0 : v.regs .t0 = Int32.ofNat (bs.length + 1)) (hbyte : v.memory.get (p + bs.length) = b)
    (hcovers : v.memory.Covers (p + bs.length) 1) :
    ∃ v', Leads code stdin pc v (pc + 5) v' ∧ v.Keeps stripRegs v' ∧ v'.memory = v.memory ∧
      v'.regs .t0 = Int32.ofNat (if b = Input.newline then bs else bs ++ [b]).length := by
  obtain ⟨hlast, hbranch⟩ := codeAt_append.mp hcode
  have haddress : v.regs .sp + v.regs .t0 + (-1) = Int32.ofNat (p + bs.length) := by
    rw [hsp, ht0, ← Int32.ofNat_add, ← Nat.add_assoc, ofNat_succ_pred]
  have hlines : Passage labels symbols stdin lastByteLines v _ :=
    .alu <| .loadByte haddress hcovers <| .li .nil
  have hleads := hlines.leads hlast
  generalize hv₁ : View.put _ Reg.t3 _ = v₁ at hleads
  have hkeeps : v.Keeps [.t1, .t2, .t3] v₁ := by
    rw [← hv₁]
    exact .put (by decide) <| .put (by decide) <| .put (by decide) <| .refl _ v
  have hmemory : v₁.memory = v.memory := hv₁ ▸ rfl
  have hcond : Cond.ne.holds (v₁.regs .t2) (v₁.regs .t3) = decide (b ≠ Input.newline) := by
    rw [← ne_holds_byteWord, ← hbyte, ← hv₁]
    rfl
  rw [← hkeeps.regs .t0 (by decide)] at ht0
  by_cases heq : b = Input.newline
  · rw [if_pos heq]
    refine ⟨v₁.put .t0 (v₁.regs .t0 + (-1)), hleads.trans <|
      (Leads.passed hbranch (hcond.trans (decide_eq_false (not_not.mpr heq)))).trans <|
      Passage.leads (.note <| .addi .nil) (codeAt_cons.mp hbranch).2, .put (by decide) <|
        hkeeps.mono (by decide), hmemory, ?_⟩
    rw [← ofNat_succ_pred, ← ht0]
    rfl
  · rw [if_neg heq, List.length_append, List.length_singleton]
    exact ⟨v₁, hleads.trans (.taken hbranch (hcond.trans (decide_eq_true heq)) halloc),
      hkeeps.mono (by decide), hmemory, ht0⟩

variable (stdin) in
theorem strip_lead {line : Array UInt8} (hcode : CodeAt labels symbols code pc stripLines)
    (halloc : labels.lookup ".Linput_alloc" = some (pc + 8)) (hzero : v.regs .zero = 0)
    (hsp : v.regs .sp = Int32.ofNat p)
    (ha0 : v.regs .a0 = Int32.ofNat line.toList.length)
    (hbytes : v.memory.bytes p line.toList.length = line.toList)
    (hcovers : v.memory.Covers p line.toList.length) :
    ∃ v', Leads code stdin pc v (pc + 8) v' ∧ v.Keeps stripRegs v' ∧ v'.memory = v.memory ∧
      v'.regs .t0 = Int32.ofNat (Input.stripNewline line).toList.length := by
  obtain ⟨hstart, hempty⟩ := codeAt_append.mp hcode
  have hleads : Leads code stdin pc v (pc + 2) (v.put .t0 (v.regs .a0)) :=
    Passage.leads (.label <| .mv .nil) hstart
  have hkeeps : v.Keeps [.t0] (v.put .t0 (v.regs .a0)) := .put (List.mem_singleton.mpr rfl) <| .refl _ v
  obtain hnil | ⟨bs, b, hconcat⟩ := List.eq_nil_or_concat line.toList
  · refine ⟨_, hleads.trans (.taken hempty ?_ halloc), hkeeps.mono (by decide), rfl, ?_⟩
    · change Cond.eq.holds (v.regs .a0) (v.regs .zero) = true
      rw [ha0, hzero, hnil]
      rfl
    · rw [Input.toList_stripNewline_nil hnil, ← hnil]
      exact ha0
  · rw [List.concat_eq_append] at hconcat
    rw [Input.toList_stripNewline_concat hconcat]
    rw [hconcat] at ha0 hbytes hcovers
    rw [List.length_append, List.length_singleton] at ha0 hcovers
    have hpassed : Leads code stdin (pc + 2) (v.put .t0 (v.regs .a0)) (pc + 3) (v.put .t0 (v.regs .a0)) := by
      have hlow : 0x1000 ≤ p := hcovers.low
      have hhigh := hcovers.high
      have hsize := hcovers.size
      unfold UInt32.size at hsize
      refine .passed hempty ?_
      change Cond.eq.holds (v.regs .a0) (v.regs .zero) = false
      rw [ha0, hzero, eq_holds_zero (by omega)]
      exact decide_eq_false (Nat.succ_ne_zero _)
    obtain ⟨v', hleads', hkeeps', hmemory, ht0⟩ :=
      dropNewline_lead stdin (v := v.put .t0 (v.regs .a0)) (codeAt_cons.mp hempty).2 halloc
      hsp ha0 (get_of_bytes hbytes) (hcovers.mono (Nat.le_add_right _ _) (by omega))
    exact ⟨v', hleads.trans (hpassed.trans hleads'), (hkeeps.trans hkeeps').mono (by decide), hmemory, ht0⟩

theorem measureText_passage {n : Nat} (hsp : v.regs .sp = Int32.ofNat p) (ht0 : v.regs .t0 = Int32.ofNat n)
    (hcovers : v.memory.Covers p 1032) :
    ∃ v', Passage labels symbols stdin measureTextLines v v' ∧ v.Keeps [.a0] v' ∧
      v'.regs .a0 = Int32.ofNat (4 + 4 * n) ∧
      v'.memory = v.memory.setWord (p + 1024) (Int32.ofNat n) := by
  have hstore : v.regs .sp + 1024 = Int32.ofNat (p + 1024) := by
    rw [hsp, Int32.ofNat_add]
    rfl
  have hlines : Passage labels symbols stdin measureTextLines v _ :=
    .label <| .store hstore (hcovers.mono (Nat.le_add_right p 1024) (by omega)) <| .slli <| .addi .nil
  refine ⟨_, hlines, .put (by decide) <| .put (by decide) <| .memory <| .refl _ v, ?_, ?_⟩
  · change Word.shiftLeft (v.regs .t0) 2 + 4 = _
    rw [ht0, shiftLeft_two, Nat.add_comm, Int32.ofNat_add]
    rfl
  · rw [← ht0]
    rfl

theorem reading_of_line {m₁ m₂ : Memory} {line : Array UInt8} (hcovers : m.Covers p 1032)
    (hline : line.size ≤ Input.lineLimit) (hm₁ : m₁ = (m.setWord (p + 1028) ra).setBytes p line.toList)
    (hm₂ : m₂ = m₁.setWord (p + 1024) (Int32.ofNat (Input.stripNewline line).toList.length)) :
    Reading m₂ p (Input.stripNewline line).toList ra ∧ m₂.size = m.size ∧ ∀ i, i < p ∨ p + 1032 ≤ i →
      m₂.get i = m.get i := by
  have hstrip := Input.stripNewline_isPrefix line
  have hlength := hstrip.length_le
  unfold Input.lineLimit at hline
  rw [← Array.length_toList] at hline
  have hwritten : (m.setWord (p + 1028) ra).Written p line.toList m₁ := hm₁ ▸ Memory.written_setBytes _ _ _
  have hget₁ := hwritten.get
  have hget₂ (i : Nat) (hi : i < p + 1024 ∨ p + 1028 ≤ i) : m₂.get i = m₁.get i := by
    rw [hm₂, Memory.get_setWord_of_disjoint _ _ _ _ (by omega)]
  have hsize : m₂.size = m.size := by rw [hm₂, Memory.size_setWord, hwritten.size, Memory.size_setWord]
  refine ⟨⟨hcovers.of_size hsize, ?_, ?_, ?_, ?_⟩, hsize, fun i hi => ?_⟩
  · rw [Memory.bytes_congr fun i _ hi => hget₂ i (by omega)]
    exact bytes_of_isPrefix hwritten.bytes hstrip
  · rw [hm₂, Memory.word_setWord]
  · rw [Memory.word_congr fun i hi _ => hget₂ i (by omega),
      Memory.word_congr fun i hi _ => hget₁ i (by omega), Memory.word_setWord]
  · exact Nat.le_trans hlength hline
  · rw [hget₂ i (by omega), hget₁ i (by omega), Memory.get_setWord_of_disjoint _ _ _ _ (by omega)]

variable (stdin) in
theorem openInput_lead (hcode : Placed labels symbols code pc openInputLines) (hzero : v.regs .zero = 0)
    (hsp : v.regs .sp + (-1032) = Int32.ofNat p) (hcovers : v.memory.Covers p 1032) {line : Array UInt8}
    (hline : line = Input.lineAt stdin v.stdinPos Input.lineLimit) :
    ∃ v', Leads code stdin pc v (pc + 22) v' ∧ (∀ r, r ∉ openInputRegs → v'.regs r = v.regs r) ∧
      v'.regs .sp = Int32.ofNat p ∧ v'.regs .a0 = Int32.ofNat
        (4 + 4 * (Input.stripNewline line).toList.length) ∧
      v'.stdinPos = v.stdinPos + line.size ∧ v'.stdout = v.stdout ∧
      Reading v'.memory p (Input.stripNewline line).toList (v.regs .ra) ∧ v'.memory.size = v.memory.size ∧
      ∀ i, i < p ∨ p + 1032 ≤ i → v'.memory.get i = v.memory.get i := by
  obtain ⟨hread, hcode⟩ := hcode.append
  obtain ⟨hcheck, hcode⟩ := hcode.append
  obtain ⟨hstrip, hmeasure⟩ := hcode.append
  have hlimit : line.size ≤ Input.lineLimit := hline ▸ Input.size_lineAt_le _ _ _
  obtain ⟨v₁, hleads₁, hregs₁, hsp₁, ha0₁, hpos₁, hout₁, hmemory₁⟩ :=
    readLine_lead stdin hread.code hline hsp hcovers
  have hwritten : (v.memory.setWord (p + 1028) (v.regs .ra)).Written p line.toList v₁.memory :=
    hmemory₁ ▸ Memory.written_setBytes _ _ _
  have hcovers₁ : v₁.memory.Covers p 1032 := hcovers.of_size (hwritten.size.trans (Memory.size_setWord _ _ _))
  have hzero₁ : v₁.regs .zero = 0 := (hregs₁ _ (by decide)).trans hzero
  have hlt : line.size ≤ 1020 := hlimit
  have htaken : Leads code stdin (pc + 8) v₁ (pc + 8 + 2) v₁ := by
    refine .taken hcheck.code ?_ (hstrip.lookup 0 _ _ rfl rfl)
    rw [ha0₁, hzero₁]
    exact (ge_holds (b := 0) (by omega) (by decide)).trans (decide_eq_true (Nat.zero_le _))
  obtain ⟨v₂, hleads₂, hkeeps₂, hmemory₂, ht0₂⟩ :=
    strip_lead stdin hstrip.code (hmeasure.lookup 0 _ _ rfl rfl) hzero₁ hsp₁
    (by rw [ha0₁, Array.length_toList]) hwritten.bytes
      (hcovers₁.mono (Nat.le_refl p) (by rw [Array.length_toList]; omega))
  obtain ⟨v₃, hpassage₃, hkeeps₃, ha0₃, hmemory₃⟩ :=
    measureText_passage ((hkeeps₂.regs _ (by decide)).trans hsp₁) ht0₂
    (hmemory₂ ▸ hcovers₁)
  rw [hmemory₂] at hmemory₃
  have hkeeps := hkeeps₂.trans hkeeps₃
  refine ⟨v₃, hleads₁.trans <| htaken.trans <| hleads₂.trans (hpassage₃.leads hmeasure.code), fun r hr => ?_,
    (hkeeps.regs _ (by decide)).trans hsp₁, ha0₃, hkeeps.stdinPos.trans hpos₁, hkeeps.stdout.trans hout₁,
    reading_of_line hcovers hlimit hmemory₁ hmemory₃⟩
  refine (hkeeps.regs r fun hmem => ?_).trans (hregs₁ r fun hmem => ?_)
  all_goals
    revert hr
    decide +revert

def widenByteRegs : List Reg := [.t1, .t2, .t3, .t4]

structure Widening (v₀ : View) (d : Nat) (done : List UInt8) (v : View) : Prop where
  keeps : v₀.Keeps widenByteRegs v
  index : v.regs .t1 = Int32.ofNat done.length
  target : v.regs .t2 = Int32.ofNat (d + 4 * done.length)
  written : v₀.memory.WrittenWords d (done.map byteWord) v.memory

theorem widenByte_passage (h : Widening v₀ d done v) (hsp : v₀.regs .sp = Int32.ofNat p)
    (hbyte : v₀.memory.get (p + done.length) = b) (hcovers : v₀.memory.Covers (p + done.length) 1)
    (hblock : v₀.memory.Covers d (4 * (done.length + 1))) (hapart : d + 4 * (done.length + 1) ≤ p) :
    ∃ v', Passage labels symbols stdin widenByteLines v v' ∧ Widening v₀ d (done ++ [b]) v' := by
  have hload : v.regs .sp + v.regs .t1 + 0 = Int32.ofNat (p + done.length) := by
    rw [Int32.add_zero, h.keeps.regs .sp (by decide), hsp, h.index, Int32.ofNat_add]
  have hstore : v.regs .t2 + 0 = Int32.ofNat (d + 4 * done.length) := by rw [Int32.add_zero, h.target]
  have hword : v.memory.Covers (d + 4 * done.length) 4 :=
    (hblock.mono (Nat.le_add_right _ _) (by omega)).of_size h.written.size
  have hlines : Passage labels symbols stdin widenByteLines v _ :=
    .alu <| .loadByte hload (hcovers.of_size h.written.size) <| .store hstore hword <| .addi <| .addi .nil
  have hkept : v.memory.get (p + done.length) = b := by
    rw [h.written.get _ (by rw [List.length_map]; omega), hbyte]
  refine ⟨_, hlines, .put (by decide) <| .put (by decide) <| .memory <| .put (by decide) <|
    .put (by decide) h.keeps, ?_, ?_, ?_⟩
  · change v.regs .t1 + 1 = _
    rw [h.index, List.length_append, Int32.ofNat_add]
    rfl
  · change v.regs .t2 + 4 = _
    rw [h.target, List.length_append, List.length_singleton, Nat.mul_add, ← Nat.add_assoc,
      Int32.ofNat_add (d + 4 * done.length)]
    rfl
  · change v₀.memory.WrittenWords d ((done ++ [b]).map byteWord)
      (v.memory.setWord (d + 4 * done.length) (byteWord (v.memory.get (p + done.length))))
    rw [hkept, List.map_append, ← List.length_map byteWord]
    exact h.written.append (Memory.writtenWords_setWord _ _ _)

variable (stdin) in
theorem widenBytes_lead (hcode : Placed labels symbols code pc widenBytesLines)
    (hdone : labels.lookup ".Linput_done" = some pc') (hreading : Reading v.memory p text ra)
    (hsp : v.regs .sp = Int32.ofNat p) (ht0 : v.regs .t0 = Int32.ofNat text.length)
    (ht1 : v.regs .t1 = 0) (ht2 : v.regs .t2 = Int32.ofNat d) (hblock : v.memory.Covers d (4 * text.length))
    (hapart : d + 4 * text.length ≤ p) :
    ∃ v', Leads code stdin pc v pc' v' ∧ v.Keeps widenByteRegs v' ∧
      v.memory.WrittenWords d (text.map byteWord) v'.memory := by
  have hlt : text.length ≤ 1020 := hreading.fits
  have hframe := hreading.frame
  have hbytes := hreading.bytes
  -- what the loop keeps is about the bytes that were copied and those that are left
  obtain ⟨v', hleads, done, heq, hend⟩ :
    ∃ v', Leads code stdin pc v pc' v' ∧ ∃ done, done ++ [] = text ∧ Widening v d done v' := by
    refine Leads.loop (fun rest v' => ∃ done, done ++ rest = text ∧ Widening v d done v') hcode hdone ?_ ?_
      ⟨[], rfl, .refl _ v, ht1, ht2, .refl _ d⟩
    · rintro v' ⟨done, rfl, h⟩
      rw [List.append_nil] at ht0 hlt
      rw [h.index, h.keeps.regs .t0 (by decide), ht0, ge_holds (by omega) (by omega)]
      exact decide_eq_true (Nat.le_refl _)
    · rintro b rest v' ⟨done, rfl, h⟩
      have hbyte := get_of_bytes hbytes
      rw [List.length_append, List.length_cons] at ht0 hlt hblock hapart
      refine ⟨?_, ?_⟩
      · rw [h.index, h.keeps.regs .t0 (by decide), ht0, ge_holds (by omega) (by omega)]
        exact decide_eq_false (by omega)
      · obtain ⟨v'', hpassage, hnext⟩ :=
          widenByte_passage h hsp hbyte (hframe.mono (Nat.le_add_right _ _) (by omega))
          (hblock.mono (Nat.le_refl d) (by omega)) (by omega)
        exact ⟨v'', hpassage, done ++ [b], by simp, hnext⟩
  rw [List.append_nil] at heq
  exact ⟨v', hleads, hend.keeps, heq ▸ hend.written⟩

variable (stdin) in
theorem fillText_lead (hcode : Placed labels symbols code pc (openTextLines ++ widenBytesLines))
    (hdone : labels.lookup ".Linput_done" = some pc') (h : Reading v.memory p text ra)
    (hsp : v.regs .sp = Int32.ofNat p)
    (ha0 : v.regs .a0 = Int32.ofNat top) (hblock : v.memory.Covers top (4 + 4 * text.length))
    (hapart : top + (4 + 4 * text.length) ≤ p) :
    ∃ v', Leads code stdin pc v pc' v' ∧ v.Keeps (.t0 :: widenByteRegs) v' ∧
      v.memory.WrittenWords top (Int32.ofNat text.length :: text.map byteWord) v'.memory := by
  obtain ⟨hopen, hwiden⟩ := hcode.append
  have hload : v.regs .sp + 1024 = Int32.ofNat (p + 1024) := by
    rw [hsp, Int32.ofNat_add]
    rfl
  have hstore : v.regs .a0 + 0 = Int32.ofNat top := by rw [Int32.add_zero, ha0]
  have hlines : Passage labels symbols stdin openTextLines v _ :=
    .load hload (h.frame.mono (Nat.le_add_right p 1024) (by omega)) <|
      .store hstore (hblock.mono (Nat.le_refl top) (by omega)) <| .li <| .addi .nil
  generalize hv₁ : View.put _ Reg.t2 _ = v₁ at hlines
  have hkeeps₁ : v.Keeps [.t0, .t1, .t2] v₁ := by
    rw [← hv₁]
    exact .put (by decide) <| .put (by decide) <| .memory <| .put (by decide) <| .refl _ v
  have hwritten₁ : v.memory.WrittenWords top [Int32.ofNat text.length] v₁.memory := by
    rw [← hv₁, ← h.length]
    exact Memory.writtenWords_setWord _ _ _
  have ht0₁ : v₁.regs .t0 = Int32.ofNat text.length := by
    rw [← hv₁, ← h.length]
    rfl
  have ht2₁ : v₁.regs .t2 = Int32.ofNat (top + 4) := by
    rw [← hv₁, Int32.ofNat_add, ← ha0]
    rfl
  obtain ⟨v₂, hleads, hkeeps₂, hwritten₂⟩ := widenBytes_lead stdin hwiden hdone
    (h.congr hwritten₁.size fun i hi => hwritten₁.get i (by rw [List.length_singleton]; omega))
    ((hkeeps₁.regs _ (by decide)).trans hsp) ht0₁ (hv₁ ▸ rfl) ht2₁
    ((hblock.mono (Nat.le_add_right top 4) (by omega)).of_size hwritten₁.size) (by omega)
  exact ⟨v₂, (hlines.leads hopen.code).trans hleads, (hkeeps₁.trans hkeeps₂).mono (by decide),
    hwritten₁.append hwritten₂⟩

variable (stdin) in
theorem input_leads {cell : UInt32} (hcode : Placed labels symbols code pc input)
    (hmalloc : Placed labels symbols code pc' malloc) (hcell : symbols.lookup Asm.heapTopName = some cell)
    (hcodeSize : code.size ≤ 2147483648) {line : Array UInt8}
    (hline : line = Input.lineAt stdin v.stdinPos Input.lineLimit)
    (htext : text = (Input.stripNewline line).toList)
    (h : Workspace v.memory top (4 + 4 * (text.map byteWord).length) cell.toNat p 1032)
    (hzero : v.regs .zero = 0) (hsp : v.regs .sp - 1032 = Int32.ofNat p) (hra : 0 ≤ v.regs .ra) :
    ∃ v', Leads code stdin pc v (v.regs .ra).toInt.toNat v' ∧
      (∀ r : Reg, r.isScratch = false → v'.regs r = v.regs r) ∧
      v'.regs .a0 = Int32.ofNat top ∧
        Workspace.Filled v.memory top cell.toNat p 1032 (text.map byteWord) v'.memory ∧
      v'.stdinPos = v.stdinPos + line.size ∧ v'.stdout = v.stdout := by
  have hroom := h.room
  have hapart := h.apart
  rw [List.length_map] at hroom
  rw [input_eq] at hcode
  obtain ⟨hopen, hcode⟩ := hcode.append
  obtain ⟨-, hbehind⟩ := hcode.append
  obtain ⟨hfill, hbehind⟩ := hbehind.append
  obtain ⟨hdone, hrestore⟩ := hbehind.append
  -- The line is read into the frame.
  have hframe : v.regs .sp + -1032 = Int32.ofNat p := (Int32.sub_eq_add_neg _ _).symm.trans hsp
  obtain ⟨v₁, hleads₁, hregs₁, hsp₁, ha0₁, hpos₁, hout₁, hreading₁, hsize₁, hget₁⟩ :=
    openInput_lead stdin hopen hzero hframe h.covers hline
  rw [← htext] at ha0₁ hreading₁
  -- The string is allocated.
  have hwork₁ := h.congr hsize₁ fun i hi => hget₁ i (.inl hi)
  have hbytes : v₁.regs .a0 = Int32.ofNat (4 + 4 * (text.map byteWord).length) := by
    rw [ha0₁, List.length_map]
  obtain ⟨v₂, hleads₂, hkeeps₂, ha0₂, hmemory₂⟩ :=
    allocate_lead stdin hcode.code hmalloc hcell hcodeSize hwork₁ hbytes
  have hsize₂ : v₂.memory.size = v₁.memory.size := by rw [hmemory₂, Memory.size_setWord]
  have hsp₂ := (hkeeps₂.regs _ (by decide)).trans hsp₁
  have hreading₂ : Reading v₂.memory p text (v.regs .ra) := hreading₁.congr hsize₂ fun i hi => by
    rw [hmemory₂, Memory.get_setWord_of_disjoint _ _ _ _ (by omega)]
  have hblock : v₂.memory.Covers top (4 + 4 * text.length) := by
    rw [← List.length_map byteWord]
    exact h.covers_block.of_size (hsize₂.trans hsize₁)
  have hend := hdone.lookup 0 _ _ rfl rfl
  -- Its bytes are copied, a word for each.
  obtain ⟨v₃, hleads₃, hkeeps₃, hwritten₃⟩ :=
    fillText_lead stdin hfill hend hreading₂ hsp₂ ha0₂ hblock (by omega)
  have hget₃ := hwritten₃.get
  rw [List.length_cons, List.length_map] at hget₃
  have hreading₃ := hreading₂.congr hwritten₃.size fun i hi => hget₃ i (by omega)
  have hsp₃ := (hkeeps₃.regs _ (by decide)).trans hsp₂
  have hkeeps := hkeeps₂.trans hkeeps₃
  have hregs (r : Reg) (hr : r ∉ openInputRegs ++ ([.ra, .t0, .t1, .t2, .a0] ++ .t0 :: widenByteRegs)) :
      v₃.regs r = v.regs r := by
    rw [List.mem_append, not_or] at hr
    exact (hkeeps.regs r hr.2).trans (hregs₁ r hr.1)
  have hslot : v₃.regs .sp + 1028 = Int32.ofNat (p + 1028) := by
    rw [hsp₃, Int32.ofNat_add]
    rfl
  have hcovers := hreading₃.frame.mono (Nat.le_add_right p 1028) (show p + 1028 + 4 ≤ p + 1032 by omega)
  have hrestored := restore_lead stdin hrestore.code hslot hcovers hreading₃.back hra
  have hleads := hleads₁.trans (hleads₂.trans (hleads₃.trans ((Leads.label hdone.code).trans hrestored)))
  have hback : v₃.regs .sp + 1032 = v.regs .sp := by rw [hsp₃, ← hsp, Int32.sub_add_cancel]
  have hresult := (hkeeps₃.regs .a0 (by decide)).trans ha0₂
  rw [← List.length_map byteWord] at hwritten₃
  have hfilled := h.filled hsize₁ hget₁ hmemory₂ hwritten₃
  refine ⟨_, hleads, fun r hr => ?_, hresult, hfilled, hkeeps.stdinPos.trans hpos₁, hkeeps.stdout.trans hout₁⟩
  exact regs_restored hregs (by decide) hback hr

theorem input_mem_library : input <:+: Asm.Routine.all :=
  ⟨malloc ++ printInt ++ printBool ++ printStr,
    concat ++ strEq ++ Trap.all.flatMap ofTrap ++ errorExit, by simp [Asm.Routine.all]⟩

end Routine

section Agreement

variable {a : Assembly} {image : Image} {heapSize : UInt32} {cfg : Eval.Config} {total : Nat} {s : Machine}
  {st : Eval.State}

/-- The routine that reads a line is called, with room for its frame and for the string that it will read. -/
structure InputCall (image : Image) (heapSize : UInt32) (stdin : Array UInt8) (total : Nat) (s : Machine) :
    Prop where
  hosts : image.Hosts s
  label : s.atLabel image.code Library.input
  ra : 0 ≤ s.read .ra
  free : s.Free heapSize total
  room : total + (4 + 4 * (Input.stripNewline (Input.lineAt stdin s.stdinPos Input.lineLimit)).size) ≤
    heapSize.toNat
  frame : s.HasFrame heapSize 1032

/-- The routine that was called in `s` comes back in `t`, and an evaluation of `input()` leads from `st` to
`st'`. Both have read the string `text`, which is what comes next in the input, and have taken the same number
of bytes. -/
structure ReadsSame (image : Image) (heapSize : UInt32) (cfg : Eval.Config) (total : Nat) (s t : Machine)
    (st st' : Eval.State) (text : Array UInt8) : Prop where
  returned : Returned image.code cfg.stdin s t
  gains : Gains heapSize total 1032 (text.toList.map byteWord) s t
  objects : ∀ address zs, s.HeapObject total address zs → t.HeapObject total address zs
  stdout : t.stdout = s.stdout
  evaluated : ∃ object, Eval.input cfg st = .ok (.str object text) st'
  next : ∃ n, Input.Next (cfg.stdin.toList.drop s.stdinPos) text.toList n ∧ t.stdinPos = s.stdinPos + n ∧
    st'.stdinPos = st.stdinPos + n

/-- Calls of the routine and evaluations of `input()` read these strings one after the other, the first from
`s` and from `st`. Between two calls anything may be done that does not read. -/
def ReadAlike (image : Image) (heapSize : UInt32) (cfg : Eval.Config) :
    List (Array UInt8) → Machine → Eval.State → Prop
  | [], _, _ => True
  | text :: texts, s, st => ∃ total t st', ReadsSame image heapSize cfg total s t st st' text ∧
      ∀ s' st'' total', InputCall image heapSize cfg.stdin total' s' → s'.stdinPos = t.stdinPos →
        st''.stdinPos = st'.stdinPos → ReadAlike image heapSize cfg texts s' st''

theorem exists_readsSame (hload : Image.load a = .ok image) (ha : a.Equipped heapSize)
    (hcode : image.Addressable) (hcall : InputCall image heapSize cfg.stdin total s)
    (hpos : s.stdinPos = st.stdinPos) {line : Array UInt8}
    (hline : line = Input.lineAt cfg.stdin s.stdinPos Input.lineLimit) :
    ∃ t st', ReadsSame image heapSize cfg total s t st st' (Input.stripNewline line) ∧
      t.stdinPos = s.stdinPos + line.size ∧
      st'.stdinPos = st.stdinPos + line.size := by
  subst hline
  obtain ⟨hheap, labels, symbols, pc', hcell, hmalloc, hplaced⟩ := Image.load_equipped hload ha
  obtain ⟨pc, hinput, hpc⟩ := hplaced _ _ input_mem_library rfl
  have hroom := hcall.room
  rw [← Array.length_toList, ← List.length_map byteWord] at hroom
  have hwork := Workspace.of_free hcall.free hcall.frame (by decide) hroom hheap
    (hcall.hosts.size ▸ (Image.size_of_load hload).le)
  obtain ⟨v, hleads, hregs, ha0, hfilled, hpos', hout⟩ :=
    input_leads cfg.stdin (v := s.view) hinput hmalloc hcell hcode rfl rfl hwork
    hcall.hosts.zero (eq_ofNat_toNat _) hcall.ra
  obtain ⟨t, hreaches, hreturn, rfl⟩ := hleads s (hpc s hcall.label) rfl
  have hgains := hfilled.gains ha0 hcall.free
  obtain ⟨object, st', heval, hpos''⟩ := Eval.input_eq_ok cfg st
  rw [← hpos] at heval hpos'' ⊢
  exact ⟨t, st', ⟨⟨hreaches, hreturn, hregs⟩, hgains, fun _ _ => hgains.heapObject, hout, ⟨object, heval⟩, _,
    Input.next_lineAt cfg.stdin s.stdinPos, hpos', hpos ▸ hpos''⟩, hpos', hpos''⟩

theorem exists_readAlike (hload : Image.load a = .ok image) (ha : a.Equipped heapSize)
    (hcode : image.Addressable) (k pos : Nat) :
    ∃ texts, texts.length = k ∧ ∀ {total s st}, InputCall image heapSize cfg.stdin total s →
      s.stdinPos = pos → st.stdinPos = pos →
      ReadAlike image heapSize cfg texts s st := by
  induction k generalizing pos with
  | zero => exact ⟨[], rfl, fun _ _ _ => trivial⟩
  | succ k ih =>
    obtain ⟨texts, hlength, hrest⟩ := ih (pos + (Input.lineAt cfg.stdin pos Input.lineLimit).size)
    refine ⟨Input.stripNewline (Input.lineAt cfg.stdin pos Input.lineLimit) :: texts,
      congrArg (· + 1) hlength, fun {total s st} hcall hpos hpos' => ?_⟩
    subst hpos
    obtain ⟨t, st', hsame, hnext, hnext'⟩ := exists_readsSame hload ha hcode hcall hpos'.symm rfl
    refine ⟨total, t, st', hsame, fun s' st'' total' hcall' hs' hst'' => hrest hcall' (hs'.trans hnext) ?_⟩
    rw [hst'', hnext', hpos']

/-- The routine that reads a line, in any program with the library and a heap, from any position of any input:
it returns with a new string, and it has read what an evaluation of `input()` reads there. So have any number
of such calls. -/
theorem input_reads_alike (hload : Image.load a = .ok image) (ha : a.Equipped heapSize)
    (hcode : image.Addressable) (hcall : InputCall image heapSize cfg.stdin total s)
    (hpos : s.stdinPos = st.stdinPos) :
    (∃ t st' text, ReadsSame image heapSize cfg total s t st st' text) ∧
      ∀ k, ∃ texts, texts.length = k ∧ ReadAlike image heapSize cfg texts s st := by
  refine ⟨?_, fun k => ?_⟩
  · obtain ⟨t, st', hsame, -⟩ := exists_readsSame hload ha hcode hcall hpos rfl
    exact ⟨t, st', _, hsame⟩
  · obtain ⟨texts, hlength, hread⟩ := exists_readAlike hload ha hcode k s.stdinPos
    exact ⟨texts, hlength, hread hcall rfl hpos.symm⟩

/-- A program that reads a line. -/
def readLine : Assembly :=
  { Assembly.ofHeap 4084 with
    text := [label Library.start, la .t0 Asm.heapName, la .t1 Asm.heapTopName, sw .t0 0 .t1,
      jal Library.input] }.withLibrary

/-- A line that fills the buffer, so that its newline is left for the next call. -/
def fullLine : Array UInt8 := (List.replicate Input.lineLimit 97 ++ [Input.newline]).toArray

theorem read_fullLine : ∃ image s t st', Image.load readLine = .ok image ∧
    (ofImage image).after image.code fullLine 5 = some s ∧
    InputCall image 4084 fullLine 0 s ∧
    ReadsSame image 4084 { stdin := fullLine } 0 s t {} st' (List.replicate Input.lineLimit 97).toArray ∧
      t.stdinPos = 1020 := by
  have hcheck : ((Image.load readLine).toOption.bind fun image =>
      ((ofImage image).after image.code fullLine 5).map fun s =>
      decide (image.code.size ≤ 2147483648 ∧ s.atLabel image.code Library.input ∧ s.read .ra = 5 ∧
        s.stdinPos = 0 ∧ dataBase ≤ (heapTopAddress 4084).toInt32.toUInt32 ∧
        (heapTopAddress 4084).toInt32.toUInt32.toNat + 4 ≤ s.memory.size ∧
        s.memory.word (heapTopAddress 4084).toNat = 0x1000 ∧ dataBase ≤ (s.read .sp - 1032).toUInt32 ∧
        (s.read .sp - 1032).toUInt32.toNat + 1032 ≤ s.memory.size ∧
          (heapTopAddress 4084).toNat + 4 ≤ s.frameAt 1032)) = some true := by
    decide +kernel
  simp only [Option.bind_eq_some_iff, Option.map_eq_some_iff, decide_eq_true_eq] at hcheck
  obtain ⟨image, hload, s, hafter, hcode, hat, hra, hpos, hlow, hhigh, hword, hlow', hhigh', hapart⟩ := hcheck
  have hload := Outcome.eq_ok_of_toOption hload
  have hnot : Input.newline ∉ List.replicate Input.lineLimit 97 := by simp [Input.newline]
  have hrest : fullLine.toList.drop 0 = List.replicate Input.lineLimit 97 ++ Input.newline :: [] := rfl
  have hline : Input.lineAt fullLine 0 Input.lineLimit = (List.replicate Input.lineLimit 97).toArray :=
    Array.ext' (by rw [Input.lineAt_of_newline Input.lineLimit hrest hnot]; simp)
  have htext : Input.stripNewline (Input.lineAt fullLine 0 Input.lineLimit) =
      (List.replicate Input.lineLimit 97).toArray :=
    Array.ext' (by rw [hline]; exact Input.toList_stripNewline_of_not_mem hnot)
  have hcall : InputCall image 4084 fullLine 0 s :=
    ⟨(Image.hosts_ofImage image).reaches (reaches_of_after hafter),
      hat, by rw [hra]; decide, ⟨⟨hlow, hhigh⟩, hword⟩,
      by rw [hpos, htext, List.size_toArray, List.length_replicate]; decide, ⟨hlow', hhigh'⟩, .inr hapart⟩
  obtain ⟨⟨t, st', text, hsame⟩, -⟩ :
    (∃ t st' text, ReadsSame image 4084 { stdin := fullLine } 0 s t {} st' text) ∧ _ :=
    input_reads_alike hload (equipped_withLibrary 4084 _ (by decide)) hcode hcall hpos
  obtain ⟨object, heval⟩ := hsame.evaluated
  obtain ⟨object', st'', heval', hpos'⟩ := Eval.input_eq_ok { stdin := fullLine } {}
  cases heval.symm.trans heval'
  obtain ⟨n, -, ht, hst⟩ := hsame.next
  have hn : n = Input.lineLimit := by
    have hsize : 0 + n = 0 + (Input.lineAt fullLine 0 Input.lineLimit).size := hst.symm.trans hpos'
    rwa [hline, List.size_toArray, List.length_replicate, Nat.zero_add, Nat.zero_add] at hsize
  refine ⟨image, s, t, st', hload, hafter, hcall, htext ▸ hsame, ?_⟩
  rw [ht, hpos, hn]
  rfl

end Agreement

end Machine

end Choco
