import Choco.Proofs.Routines

namespace Choco.Machine

open Asm (Assembly Instr Reg)
open Asm.Instr

/-- The size of the buffer for a string of this length. -/
def bufferSize (length : Nat) : Nat := (length + 4) / 4 * 4

theorem lt_bufferSize (length : Nat) : length < bufferSize length := by
  unfold bufferSize
  omega

section Routine

open Asm.Routine

variable {labels : List (String × Nat)} {symbols : List (String × UInt32)} {code : Array Line}
  {stdin : Array UInt8} {pc p q : Nat} {v v₀ : View} {bs done rest : List UInt8} {b : UInt8}

def openBufferLines : List Instr :=
  [label Library.printStr,
    (lw .t0 0 .a0).note "length",
    addi .t1 .t0 4,
    (andi .t1 .t1 (-4)).note "buffer size, room for the newline",
    alu .sub .sp .sp .t1,
    li .t2 0,
    addi .t3 .a0 4]

def copyByteLines : List Instr :=
  [lw .t4 0 .t3,
    alu .add .t5 .sp .t2,
    sb .t4 0 .t5,
    addi .t3 .t3 4,
    addi .t2 .t2 1]

def copyBytesLines : List Instr :=
  label ".Lprint_str_copy" :: branch .ge .t2 .t0 ".Lprint_str_write" ::
    (copyByteLines ++ [j ".Lprint_str_copy"])

def writeTextLines : List Instr :=
  [label ".Lprint_str_write",
    alu .add .t5 .sp .t0,
    li .t4 newline,
    sb .t4 0 .t5,
    li .a0 Asm.stdoutDescriptor,
    mv .a1 .sp,
    addi .a2 .t0 1,
    li .a7 Asm.SystemCall.write,
    ecall,
    alu .add .sp .sp .t1]

theorem printStr_eq : printStr = openBufferLines ++ (copyBytesLines ++ (writeTextLines ++ [ret])) := rfl

def copyByteRegs : List Reg := [.t2, .t3, .t4, .t5]

/-- The string at `q` is partly copied to the buffer at `p`, since the machine was at `v₀`. -/
structure Spelling (v₀ : View) (p q : Nat) (done rest : List UInt8) (v : View) : Prop where
  keeps : v₀.Keeps copyByteRegs v
  index : v.regs .t2 = Int32.ofNat done.length
  source : v.Points .t3 (q + 4 + 4 * done.length) (rest.map byteWord)
  written : v₀.memory.Written p done v.memory

theorem copyByte_passage (h : Spelling v₀ p q done (b :: rest) v) (hsp : v₀.regs .sp = Int32.ofNat p)
    (hcovers : v₀.memory.Covers p (done.length + 1))
    (hapart : p + (done.length + 1) ≤ q + 4 ∨ q + 4 + 4 * (done.length + (b :: rest).length) ≤ p) :
    ∃ v', Passage labels symbols stdin copyByteLines v v' ∧ Spelling v₀ p q (done ++ [b]) rest v' := by
  have hload : v.regs .t3 + 0 = Int32.ofNat (q + 4 + 4 * done.length) := by
    rw [Int32.add_zero, h.source.address]
  have hstore : v.regs .sp + v.regs .t2 + 0 = Int32.ofNat (p + done.length) := by
    rw [Int32.add_zero, h.keeps.regs .sp (by decide), hsp, h.index, Int32.ofNat_add]
  have hbyte : v.memory.Covers (p + done.length) 1 :=
    (hcovers.mono (Nat.le_add_right _ _) (by omega)).of_size h.written.size
  have hlines : Passage labels symbols stdin copyByteLines v _ :=
    .load hload h.source.head_covers <| .alu <| .storeByte hstore hbyte <| .addi <| .addi .nil
  have hset : (v.memory.word (q + 4 + 4 * done.length)).toUInt32.toUInt8 = b := by
    rw [h.source.head_word, toUInt8_byteWord]
  rw [List.length_cons] at hapart
  refine ⟨_, hlines, .put (by decide) <| .put (by decide) <| .memory <| .put (by decide) <|
    .put (by decide) h.keeps, ?_, ?_, ?_⟩
  · change v.regs .t2 + 1 = _
    rw [h.index, List.length_append, Int32.ofNat_add]
    rfl
  · rw [List.length_append, List.length_singleton, Nat.mul_add, ← Nat.add_assoc]
    refine h.source.tail rfl rfl fun i hi hi' => ?_
    rw [List.length_map] at hi'
    exact (Memory.get_set _ _ _ _).trans (if_neg (by omega))
  · change v₀.memory.Written p (done ++ [b])
      (v.memory.set (p + done.length) (v.memory.word (q + 4 + 4 * done.length)).toUInt32.toUInt8)
    rw [hset]
    exact h.written.append (Memory.written_set _ _ _)

variable (stdin) in
theorem copyBytes_lead {pc' : Nat} (hcode : Placed labels symbols code pc copyBytesLines)
    (hdone : labels.lookup ".Lprint_str_write" = some pc') (hsp : v.regs .sp = Int32.ofNat p)
    (hlength : v.regs .t0 = Int32.ofNat bs.length) (hindex : v.regs .t2 = 0)
    (hsource : v.Points .t3 (q + 4) (bs.map byteWord))
    (hcovers : v.memory.Covers p bs.length) (hapart : p + bs.length ≤ q + 4 ∨ q + 4 + 4 * bs.length ≤ p) :
    ∃ v', Leads code stdin pc v pc' v' ∧ v.Keeps copyByteRegs v' ∧ v.memory.Written p bs v'.memory := by
  have hlt : bs.length < 1073741824 := by
    have hhigh := hsource.covers.high
    have hsize := hsource.covers.size
    unfold UInt32.size at hsize
    rw [List.length_map] at hhigh
    omega
  -- what the loop keeps is about the bytes that were copied and those that are left
  obtain ⟨v', hleads, done, heq, hend⟩ :
      ∃ v', Leads code stdin pc v pc' v' ∧ ∃ done, done ++ [] = bs ∧ Spelling v p q done [] v' := by
    refine Leads.loop (fun rest v' => ∃ done, done ++ rest = bs ∧ Spelling v p q done rest v') hcode
      hdone ?_ ?_ ⟨[], rfl, .refl _ v, hindex, hsource, .refl _ p⟩
    · rintro v' ⟨done, rfl, h⟩
      rw [List.append_nil] at hlength hlt
      rw [h.index, h.keeps.regs .t0 (by decide), hlength, ge_holds (by omega) (by omega)]
      exact decide_eq_true (Nat.le_refl _)
    · rintro b rest v' ⟨done, rfl, h⟩
      rw [List.length_append, List.length_cons] at hlength hcovers hapart hlt
      refine ⟨?_, ?_⟩
      · rw [h.index, h.keeps.regs .t0 (by decide), hlength, ge_holds (by omega) (by omega)]
        exact decide_eq_false (by omega)
      · obtain ⟨v'', hpassage, hnext⟩ := copyByte_passage h hsp (hcovers.mono (Nat.le_refl p) (by omega))
          (by rw [List.length_cons]; omega)
        exact ⟨v'', hpassage, done ++ [b], by simp, hnext⟩
  rw [List.append_nil] at heq
  exact ⟨v', hleads, hend.keeps, heq ▸ hend.written⟩

theorem openBuffer_passage (hobject : v.memory.Object q (bs.map byteWord)) (ha0 : v.regs .a0 = Int32.ofNat q)
    (hp : v.regs .sp - Int32.ofNat (bufferSize bs.length) = Int32.ofNat p) :
    ∃ v', Passage labels symbols stdin openBufferLines v v' ∧ v.Keeps [.sp, .t0, .t1, .t2, .t3] v' ∧
      v'.memory = v.memory ∧ v'.regs .sp = Int32.ofNat p ∧ v'.regs .t0 = Int32.ofNat bs.length ∧
        v'.regs .t1 = Int32.ofNat (bufferSize bs.length) ∧
      v'.regs .t2 = 0 ∧ v'.Points .t3 (q + 4) (bs.map byteWord) := by
  have hlt := hobject.length_lt
  have hlength := hobject.length
  rw [List.length_map] at hlt hlength
  have hload : v.regs .a0 + 0 = Int32.ofNat q := by rw [Int32.add_zero, ha0]
  have hsize : (v.memory.word q + 4) &&& (-4) = Int32.ofNat (bufferSize bs.length) := by
    rw [hlength, bufferSize, ← and_neg_four (by omega), Int32.ofNat_add]
    rfl
  have hlines : Passage labels symbols stdin openBufferLines v _ :=
    .label <| .note <| .load hload (hobject.covers.mono (Nat.le_refl q) (by omega)) <| .addi <| .note <|
      .andi <| .alu <| .li <| .addi .nil
  refine ⟨_, hlines, .put (by decide) <| .put (by decide) <| .put (by decide) <| .put (by decide) <|
    .put (by decide) <| .put (by decide) <| .refl _ v, rfl, ?_, hlength, hsize, rfl, .of_object hobject ?_⟩
  · rw [← hp, ← hsize]
    rfl
  · rw [← ha0]
    rfl

variable (stdin) in
theorem writeText_lead {m : Memory} (hcode : CodeAt labels symbols code pc writeTextLines)
    (hsp : v.regs .sp = Int32.ofNat p) (hlength : v.regs .t0 = Int32.ofNat bs.length)
    (hlt : bs.length < 1073741824) (hcovers : v.memory.Covers p (bs.length + 1))
    (hwritten : m.Written p bs v.memory) :
    ∃ v', Leads code stdin pc v (pc + 10) v' ∧ v'.regs .sp = v.regs .sp + v.regs .t1 ∧
      (∀ r, r ∉ [Reg.sp, .t4, .t5, .a0, .a1, .a2, .a7] → v'.regs r = v.regs r) ∧
        m.Written p (bs ++ [Input.newline]) v'.memory ∧
      v'.stdinPos = v.stdinPos ∧ v'.stdout = v.stdout ++ (bs ++ [Input.newline]) := by
  have hstore : v.regs .sp + v.regs .t0 + 0 = Int32.ofNat (p + bs.length) := by
    rw [Int32.add_zero, hsp, hlength, Int32.ofNat_add]
  have hcount : (v.regs .t0 + 1).toInt = (bs.length + 1 : Nat) := by
    rw [hlength, ← Int32.toInt_ofNat_of_lt (n := bs.length + 1) (by omega), Int32.ofNat_add]
    rfl
  have hbyte : v.memory.Covers (p + bs.length) 1 := hcovers.mono (Nat.le_add_right _ _) (by omega)
  have hall : m.Written p (bs ++ [Input.newline]) (v.memory.set (p + bs.length) Input.newline) :=
    hwritten.append (Memory.written_set _ _ _)
  obtain ⟨hmapped, haddress⟩ := View.mapped_of_covers hsp hcovers (Nat.succ_pos _)
  have hlines : Passage labels symbols stdin writeTextLines v _ :=
    .label <| .alu <| .li <| .storeByte hstore hbyte <| .li <| .mv <| .addi <| .li <|
      .write rfl rfl hcount hmapped <| .alu .nil
  refine ⟨_, hlines.leads hcode, rfl, fun r hr => ?_, hall, rfl, ?_⟩
  · simp only [List.mem_cons, List.not_mem_nil, or_false, not_or] at hr
    simp [hr]
  · change v.stdout ++ (v.memory.set (p + bs.length) Input.newline).bytes (v.regs .sp).toUInt32.toNat
      (bs.length + 1) = _
    have hbytes := hall.bytes
    rw [List.length_append, List.length_singleton] at hbytes
    rw [haddress, hbytes]

variable (stdin) in
theorem printStr_leads (hcode : Placed labels symbols code pc printStr)
    (hobject : v.memory.Object q (bs.map byteWord)) (ha0 : v.regs .a0 = Int32.ofNat q)
    (hp : v.regs .sp - Int32.ofNat (bufferSize bs.length) = Int32.ofNat p)
    (hcovers : v.memory.Covers p (bufferSize bs.length))
    (hapart : p + bufferSize bs.length ≤ q ∨ q + (4 + 4 * bs.length) ≤ p) (hra : 0 ≤ v.regs .ra) :
    ∃ v', Leads code stdin pc v (v.regs .ra).toInt.toNat v' ∧
      (∀ r : Reg, r.isScratch = false → v'.regs r = v.regs r) ∧
      v'.stdout = v.stdout ++ (bs ++ [Input.newline]) ∧ v'.stdinPos = v.stdinPos ∧
      v.memory.Written p (bs ++ [Input.newline]) v'.memory := by
  have hroom := lt_bufferSize bs.length
  have hlt := hobject.length_lt
  rw [List.length_map] at hlt
  rw [printStr_eq] at hcode
  obtain ⟨hopen, hcode⟩ := hcode.append
  obtain ⟨hcopy, hcode⟩ := hcode.append
  obtain ⟨hwrite, hret⟩ := hcode.append
  obtain ⟨v₁, hpassage, hkeeps₁, hmemory₁, hsp₁, ht0₁, ht1₁, ht2₁, hsource⟩ :=
    openBuffer_passage hobject ha0 hp
  rw [← hmemory₁] at hcovers ⊢
  obtain ⟨v₂, hleads₂, hkeeps₂, hwritten₂⟩ :=
    copyBytes_lead stdin hcopy (hwrite.lookup 0 _ _ rfl rfl) hsp₁ ht0₁ ht2₁ hsource
    (hcovers.mono (Nat.le_refl p) (by omega)) (by omega)
  rw [← hkeeps₂.regs .sp (by decide)] at hsp₁
  rw [← hkeeps₂.regs .t0 (by decide)] at ht0₁
  rw [← hkeeps₂.regs .t1 (by decide)] at ht1₁
  obtain ⟨v₃, hleads₃, hsp₃, hregs₃, hwritten₃, hpos, hout⟩ := writeText_lead stdin hwrite.code hsp₁ ht0₁ hlt
    ((hcovers.mono (Nat.le_refl p) (by omega)).of_size hwritten₂.size) hwritten₂
  have hkeeps := hkeeps₁.trans hkeeps₂
  have hregs (r : Reg) (hr : r.isScratch = false) : v₃.regs r = v.regs r := by
    by_cases hsp : r = .sp
    · rw [hsp, hsp₃, hsp₁, ht1₁, ← hp, Int32.sub_add_cancel]
    · -- all other registers that are written are scratch registers
      refine (hregs₃ r fun hmem => ?_).trans (hkeeps.regs r fun hmem => ?_)
      all_goals
        revert hr hsp
        decide +revert
  refine ⟨v₃, ?_, hregs, ?_, ?_, hwritten₃⟩
  · rw [← hregs .ra rfl] at hra ⊢
    exact (hpassage.leads hopen.code).trans <| hleads₂.trans <| hleads₃.trans <| .ret hret.code hra
  · rw [hout, hkeeps.stdout]
  · rw [hpos, hkeeps.stdinPos]

theorem printStr_mem_library : printStr <:+: Asm.Routine.all :=
  ⟨malloc ++ printInt ++ printBool,
    input ++ concat ++ strEq ++ Trap.all.flatMap ofTrap ++ errorExit, by simp [Asm.Routine.all]⟩

end Routine

/-- The routine that prints a string, in any program with the library: it returns, and has then printed the
bytes of the string and a newline. Of memory it changes the buffer below the stack pointer only. -/
theorem printStr_prints_bytes {a : Assembly} {image : Image} (hload : Image.load a = .ok image)
    (hlibrary : Asm.Routine.all <:+: a.text) (stdin : Array UInt8) {s : Machine}
    (hat : s.atLabel image.code Library.printStr) (hra : 0 ≤ s.read .ra) {bs : List UInt8} {p : Nat}
    (hobject : s.memory.Object (s.read .a0).toUInt32.toNat (bs.map byteWord))
    (hp : (s.read .sp - Int32.ofNat (bufferSize bs.length)).toUInt32.toNat = p)
    (hstack : s.Mapped (s.read .sp - Int32.ofNat (bufferSize bs.length)) (bufferSize bs.length))
    (hapart : p + bufferSize bs.length ≤ (s.read .a0).toUInt32.toNat ∨
      (s.read .a0).toUInt32.toNat + (4 + 4 * bs.length) ≤ p) :
    ∃ t, Returned image.code stdin s t ∧ t.stdout = s.stdout ++ (bs ++ [Input.newline]) ∧
      t.stdinPos = s.stdinPos ∧ t.memory.size = s.memory.size ∧
      ∀ i, i < p ∨ p + bufferSize bs.length ≤ i → t.memory.get i = s.memory.get i := by
  obtain ⟨labels, items, -, -, -, hplaced⟩ := Image.load_placed hload
  obtain ⟨pc, hcode, hpc⟩ := hplaced _ _ (printStr_mem_library.trans hlibrary) rfl
  have hroom := lt_bufferSize bs.length
  have hcovers : s.memory.Covers p (bufferSize bs.length) :=
    ⟨hp ▸ UInt32.le_iff_toNat_le.mp hstack.1, hp ▸ hstack.2, hobject.covers.size⟩
  obtain ⟨v, hleads, hregs, hout, hpos, hwritten⟩ :=
    printStr_leads stdin (v := s.view) hcode hobject (eq_ofNat_toNat _)
    (hp ▸ eq_ofNat_toNat _) hcovers hapart hra
  obtain ⟨t, hreaches, hreturn, rfl⟩ := hleads s (hpc s hat) rfl
  refine ⟨t, ⟨hreaches, hreturn, hregs⟩, hout, hpos, hwritten.size, fun i hi => hwritten.get i ?_⟩
  rw [List.length_append, List.length_singleton]
  omega

/-- A program that prints a string whose bytes and newline fill the buffer. -/
def shortText : Assembly :=
  { Assembly.ofHeap 4 with
    data := (Assembly.ofHeap 4).data ++
      ([⟨"text", .word 3⟩, ⟨"text_0", .word 97⟩, ⟨"text_1", .word 0⟩, ⟨"text_2", .word 255⟩] : List Asm.Datum)
    text := [label Library.start, la .a0 "text", jal Library.printStr] }.withLibrary

theorem printed_shortText : ∃ image s t, Image.load shortText = .ok image ∧
    (ofImage image).after image.code #[] 3 = some s ∧
    s.atLabel image.code Library.printStr ∧ Returned image.code #[] s t ∧ t.pc = 3 ∧
      t.stdout = #[97, 0, 255, Input.newline] := by
  have hcheck :
      ((Image.load shortText).toOption.bind fun image => ((ofImage image).after image.code #[] 3).map fun s =>
      decide (s.atLabel image.code Library.printStr ∧ s.read .ra = 3 ∧ s.stdout = #[] ∧
        s.memory.Object (s.read .a0).toUInt32.toNat [97, 0, 255] ∧ dataBase ≤ (s.read .sp - 4).toUInt32 ∧
        (s.read .sp - 4).toUInt32.toNat + 4 ≤ s.memory.size ∧
        (s.read .a0).toUInt32.toNat + 16 ≤ (s.read .sp - 4).toUInt32.toNat)) = some true := by decide +kernel
  simp only [Option.bind_eq_some_iff, Option.map_eq_some_iff, decide_eq_true_eq] at hcheck
  obtain ⟨image, hload, s, hafter, hat, hra, hout, hobject, hlow, hhigh, hapart⟩ := hcheck
  have hload := Outcome.eq_ok_of_toOption hload
  have hobject : s.memory.Object (s.read .a0).toUInt32.toNat (([97, 0, 255] : List UInt8).map byteWord) :=
    hobject
  obtain ⟨t, hreturned, hstdout, -⟩ := printStr_prints_bytes hload ⟨_, [], List.append_nil _⟩ #[] hat
    (by rw [hra]; decide) hobject rfl ⟨hlow, hhigh⟩ (.inr hapart)
  refine ⟨image, s, t, hload, hafter, hat, hreturned, hreturned.pc.trans (by rw [hra]; rfl), ?_⟩
  rw [hstdout, hout]
  rfl

end Choco.Machine
