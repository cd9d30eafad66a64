import Choco.Proofs.HeapCalls

namespace Choco.Machine

open Asm (Assembly Instr Reg)
open Asm.Instr

section Routine

open Asm.Routine

variable {labels : List (String × Nat)} {symbols : List (String × UInt32)} {code : Array Line}
  {stdin : Array UInt8} {pc p q d : Nat} {v v₀ : View} {ws xs ys done rest : List Int32} {w : Int32}

def copyWordLines : List Instr :=
  [lw .t5 0 .t3,
    sw .t5 0 .t2,
    addi .t3 .t3 4,
    addi .t2 .t2 4,
    addi .t4 .t4 (-1)]

def openObjectLines (slot : Int32) : List Instr :=
  [lw .t3 slot .sp,
    lw .t4 0 .t3,
    addi .t3 .t3 4]

theorem copyElements_eq (slot : Int32) (loop done : String) : copyElements slot loop done =
    openObjectLines slot ++ (label loop :: branch .eq .t4 .zero done ::
      (copyWordLines ++ [j loop]) ++ [label done]) := rfl

def copyWordRegs : List Reg := [.t2, .t3, .t4, .t5]

structure Copying (v₀ : View) (q d : Nat) (done rest : List Int32) (v : View) : Prop where
  keeps : v₀.Keeps copyWordRegs v
  source : v.Points .t3 (q + 4 * done.length) rest
  target : v.regs .t2 = Int32.ofNat (d + 4 * done.length)
  count : v.regs .t4 = Int32.ofNat rest.length
  written : v₀.memory.WrittenWords d done v.memory

theorem copyWord_passage (h : Copying v₀ q d done (w :: rest) v)
    (hcovers : v₀.memory.Covers d (4 * (done.length + 1)))
    (hapart : q + 4 * (done.length + (w :: rest).length) ≤ d) :
    ∃ v', Passage labels symbols stdin copyWordLines v v' ∧ Copying v₀ q d (done ++ [w]) rest v' := by
  have hload : v.regs .t3 + 0 = Int32.ofNat (q + 4 * done.length) := by rw [Int32.add_zero, h.source.address]
  have hstore : v.regs .t2 + 0 = Int32.ofNat (d + 4 * done.length) := by rw [Int32.add_zero, h.target]
  have hword : v.memory.Covers (d + 4 * done.length) 4 :=
    (hcovers.mono (Nat.le_add_right _ _) (by omega)).of_size h.written.size
  have hlines : Passage labels symbols stdin copyWordLines v _ :=
    .load hload h.source.head_covers <| .store hstore hword <| .addi <| .addi <| .addi .nil
  have hnext (a : Nat) : a + 4 * (done ++ [w]).length = a + 4 * done.length + 4 := by
    rw [List.length_append, List.length_singleton, Nat.mul_add, Nat.add_assoc]
  rw [List.length_cons] at hapart
  refine ⟨_, hlines, .put (by decide) <| .put (by decide) <| .put (by decide) <| .memory <|
    .put (by decide) h.keeps, ?_, ?_, ?_, ?_⟩
  · rw [hnext]
    exact h.source.tail rfl (Memory.size_setWord _ _ _) fun i _ hi =>
      Memory.get_setWord_of_disjoint _ _ _ _ (by omega)
  · change v.regs .t2 + 4 = _
    rw [hnext, h.target, Int32.ofNat_add (d + 4 * done.length)]
    rfl
  · change v.regs .t4 + (-1) = _
    rw [h.count, List.length_cons, ofNat_succ_pred]
  · change v₀.memory.WrittenWords d (done ++ [w])
      (v.memory.setWord (d + 4 * done.length) (v.memory.word (q + 4 * done.length)))
    rw [h.source.head_word]
    exact h.written.append (Memory.writtenWords_setWord _ _ _)

variable (stdin) in
theorem copyElements_lead {slot : Int32} {loop done : String}
    (hcode : Placed labels symbols code pc (copyElements slot loop done))
    (hzero : v.regs .zero = 0) (hsp : v.regs .sp + slot = Int32.ofNat p) (hslot : v.memory.Covers p 4)
    (hword : v.memory.word p = Int32.ofNat q) (hobject : v.memory.Object q ws)
    (ht2 : v.regs .t2 = Int32.ofNat d)
    (hcovers : v.memory.Covers d (4 * ws.length)) (hapart : q + (4 + 4 * ws.length) ≤ d) :
    ∃ v', Leads code stdin pc v (pc + 12) v' ∧ v.Keeps copyWordRegs v' ∧
      v'.regs .t2 = Int32.ofNat (d + 4 * ws.length) ∧
      v.memory.WrittenWords d ws v'.memory := by
  have hlt := hobject.length_lt
  rw [copyElements_eq] at hcode
  obtain ⟨hopen, hcode⟩ := hcode.append
  obtain ⟨hloop, hdone⟩ := hcode.append
  have hload : v.memory.word p + 0 = Int32.ofNat q := by rw [Int32.add_zero, hword]
  have hlines : Passage labels symbols stdin (openObjectLines slot) v _ :=
    .load hsp hslot <| .load hload (hobject.covers.mono (Nat.le_refl q) (by omega)) <| .addi .nil
  generalize hv₁ : View.put _ Reg.t3 _ = v₁ at hlines
  have hstart : Copying v (q + 4) d [] ws v₁ := by
    subst hv₁
    exact ⟨.put (by decide) <| .put (by decide) <| .put (by decide) <| .refl _ v,
      .of_object hobject (congrArg (· + 4) hword), ht2, hobject.length, .refl _ d⟩
  -- what the loop keeps is about the words that were copied and those that are left
  obtain ⟨v₂, hleads, copied, heq, hend⟩ :
    ∃ v₂, Leads code stdin (pc + 3) v₁ (pc + 3 + 8) v₂ ∧ ∃ copied, copied ++ [] = ws ∧
      Copying v (q + 4) d copied [] v₂ := by
    refine Leads.loop (fun rest v' => ∃ copied, copied ++ rest = ws ∧
      Copying v (q + 4) d copied rest v') hloop (hdone.lookup 0 _ _ rfl rfl) ?_ ?_ ⟨[], rfl, hstart⟩
    · rintro v' ⟨copied, -, h⟩
      rw [h.count, h.keeps.regs .zero (by decide), hzero]
      rfl
    · rintro w rest v' ⟨copied, rfl, h⟩
      rw [List.length_append, List.length_cons] at hcovers hapart hlt
      refine ⟨?_, ?_⟩
      · rw [h.count, h.keeps.regs .zero (by decide), hzero, List.length_cons, eq_holds_zero (by omega)]
        exact decide_eq_false (Nat.succ_ne_zero _)
      · obtain ⟨v'', hpassage, hnext⟩ := copyWord_passage h (hcovers.mono (Nat.le_refl d) (by omega))
          (by rw [List.length_cons]; omega)
        exact ⟨v'', hpassage, copied ++ [w], by simp, hnext⟩
  rw [List.append_nil] at heq
  subst heq
  exact ⟨v₂, (hlines.leads hopen.code).trans <| hleads.trans <| .label hdone.code, hend.keeps, hend.target,
    hend.written⟩

def saveArgumentsLines : List Instr :=
  [label Library.concat,
    addi .sp .sp (-16),
    sw .ra 12 .sp,
    sw .a0 8 .sp,
    sw .a1 4 .sp]

def measureLines : List Instr :=
  [lw .t0 0 .a0,
    lw .t1 0 .a1,
    (alu .add .t0 .t0 .t1).note "combined length",
    sw .t0 0 .sp,
    slli .a0 .t0 2,
    addi .a0 .a0 4]

def openResultLines : List Instr :=
  [lw .t0 0 .sp,
    sw .t0 0 .a0,
    (addi .t2 .a0 4).note "destination cursor"]

def joinElementsLines : List Instr :=
  openResultLines ++ (copyElements 8 ".Llist_concat_first" ".Llist_concat_first_done" ++
    copyElements 4 ".Llist_concat_second" ".Llist_concat_second_done")

theorem concat_eq : concat =
    saveArgumentsLines ++ measureLines ++
      ([jal Library.malloc] ++ (joinElementsLines ++ (restoreLines 12 16 ++ [ret]))) := rfl

section Join

variable {q₁ q₂ top : Nat} {ra : Int32}

theorem saveArguments_passage (hsp : v.regs .sp + (-16) = Int32.ofNat p) (hcovers : v.memory.Covers p 16) :
    ∃ v', Passage labels symbols stdin saveArgumentsLines v v' ∧ v.Keeps [.sp] v' ∧
      v'.regs .sp = Int32.ofNat p ∧ v.memory.WrittenWords (p + 4)
        [v.regs .a1, v.regs .a0, v.regs .ra] v'.memory := by
  have hslot (n : Nat) : v.regs .sp + (-16) + Int32.ofNat n = Int32.ofNat (p + n) := by
    rw [hsp, Int32.ofNat_add]
  have hmap {m : Memory} (n : Nat) (hn : n + 4 ≤ 16) (hm : m.size = v.memory.size) : m.Covers (p + n) 4 :=
    (hcovers.mono (Nat.le_add_right p n) (by omega)).of_size hm
  have hlines : Passage labels symbols stdin saveArgumentsLines v _ :=
    .label <| .addi <| .store (hslot 12) (hmap 12 (by decide) rfl) <|
      .store (hslot 8) (hmap 8 (by decide) (Memory.size_setWord _ _ _)) <|
      .store (hslot 4) (hmap 4 (by decide) ((Memory.size_setWord _ _ _).trans (Memory.size_setWord _ _ _)))
        .nil
  refine ⟨_, hlines, .memory <| .memory <| .memory <| .put (List.mem_singleton.mpr rfl) <| .refl _ v, hsp, ?_⟩
  exact .cons (.cons (Memory.writtenWords_setWord v.memory (p + 4 + 4 + 4) (v.regs .ra)))

theorem measure_passage (hsp : v.regs .sp = Int32.ofNat p) (hcovers : v.memory.Covers p 4)
    (ha0 : v.regs .a0 = Int32.ofNat q₁) (ha1 : v.regs .a1 = Int32.ofNat q₂) (hx : v.memory.Object q₁ xs)
    (hy : v.memory.Object q₂ ys) :
    ∃ v', Passage labels symbols stdin measureLines v v' ∧ v.Keeps [.t0, .t1, .a0] v' ∧
      v'.regs .a0 = Int32.ofNat (4 + 4 * (xs ++ ys).length) ∧
      v'.memory = v.memory.setWord p (Int32.ofNat (xs ++ ys).length) := by
  have hload₁ : v.regs .a0 + 0 = Int32.ofNat q₁ := by rw [Int32.add_zero, ha0]
  have hload₂ : v.regs .a1 + 0 = Int32.ofNat q₂ := by rw [Int32.add_zero, ha1]
  have hstore : v.regs .sp + 0 = Int32.ofNat p := by rw [Int32.add_zero, hsp]
  have hlength : v.memory.word q₁ + v.memory.word q₂ = Int32.ofNat (xs ++ ys).length := by
    rw [hx.length, hy.length, List.length_append, Int32.ofNat_add]
  have hlines : Passage labels symbols stdin measureLines v _ :=
    .load hload₁ (hx.covers.mono (Nat.le_refl _) (by omega)) <|
      .load hload₂ (hy.covers.mono (Nat.le_refl _) (by omega)) <| .note <|
      .alu <| .store hstore hcovers <| .slli <| .addi .nil
  refine ⟨_, hlines, .put (by decide) <| .put (by decide) <| .memory <| .put (by decide) <|
    .put (by decide) <| .put (by decide) <| .refl _ v, ?_, ?_⟩
  · change Word.shiftLeft (v.memory.word q₁ + v.memory.word q₂) 2 + 4 = _
    rw [hlength, shiftLeft_two, Nat.add_comm, Int32.ofNat_add]
    rfl
  · change v.memory.setWord p (v.memory.word q₁ + v.memory.word q₂) = _
    rw [hlength]

variable (stdin) in
theorem openJoin_lead (hcode : CodeAt labels symbols code pc (saveArgumentsLines ++ measureLines))
    (hsp : v.regs .sp + (-16) = Int32.ofNat p) (hcovers : v.memory.Covers p 16)
    (ha0 : v.regs .a0 = Int32.ofNat q₁)
    (ha1 : v.regs .a1 = Int32.ofNat q₂) (hx : v.memory.Object q₁ xs) (hx' : q₁ + (4 + 4 * xs.length) ≤ p)
    (hy : v.memory.Object q₂ ys) (hy' : q₂ + (4 + 4 * ys.length) ≤ p) :
    ∃ v', Leads code stdin pc v (pc + 11) v' ∧ v.Keeps [.sp, .t0, .t1, .a0] v' ∧ v'.regs .sp = Int32.ofNat p ∧
      v'.regs .a0 = Int32.ofNat (4 + 4 * (xs ++ ys).length) ∧
      v.memory.WrittenWords p [Int32.ofNat (xs ++ ys).length, Int32.ofNat q₂, Int32.ofNat q₁, v.regs .ra]
        v'.memory := by
  obtain ⟨hsave, hmeasure⟩ := codeAt_append.mp hcode
  obtain ⟨v₁, hpassage₁, hkeeps₁, hsp₁, hwritten⟩ := saveArguments_passage hsp hcovers
  have hget := hwritten.get
  obtain ⟨v₂, hpassage₂, hkeeps₂, ha0₂, hmemory⟩ := measure_passage hsp₁
    ((hcovers.mono (Nat.le_refl p) (by omega)).of_size hwritten.size) ((hkeeps₁.regs _ (by decide)).trans ha0)
    ((hkeeps₁.regs _ (by decide)).trans ha1) (hx.congr hwritten.size fun i _ hi => hget i (by omega))
    (hy.congr hwritten.size fun i _ hi => hget i (by omega))
  refine ⟨v₂, (hpassage₁.leads hsave).trans (hpassage₂.leads hmeasure), hkeeps₁.trans hkeeps₂,
    (hkeeps₂.regs _ (by decide)).trans hsp₁, ha0₂, ?_⟩
  rw [hmemory, ← ha0, ← ha1]
  exact .cons hwritten

/-- What the loops work on: the frame at `p` has the addresses of the arguments, which lie before the block at
`top`. -/
structure Joining (m : Memory) (p top q₁ q₂ : Nat) (xs ys : List Int32) (ra : Int32) : Prop where
  frame : m.Covers p 16
  saved : m.words p 4 = [Int32.ofNat (xs ++ ys).length, Int32.ofNat q₂, Int32.ofNat q₁, ra]
  first : m.Object q₁ xs
  second : m.Object q₂ ys
  first_le : q₁ + (4 + 4 * xs.length) ≤ top
  second_le : q₂ + (4 + 4 * ys.length) ≤ top
  room : top + (4 + 4 * (xs ++ ys).length) ≤ p

namespace Joining

variable {m m' m₁ m₂ : Memory}

theorem of_saved {cell : Nat} (h : Workspace m top (4 + 4 * (xs ++ ys).length) cell p 16)
    (hsaved : m.WrittenWords p [Int32.ofNat (xs ++ ys).length, Int32.ofNat q₂, Int32.ofNat q₁, ra] m₁)
    (hcell : m₂ = m₁.setWord cell w) (hx : m.Object q₁ xs) (hx' : q₁ + (4 + 4 * xs.length) ≤ top)
    (hy : m.Object q₂ ys)
    (hy' : q₂ + (4 + 4 * ys.length) ≤ top) : Joining m₂ p top q₁ q₂ xs ys ra := by
  have hroom := h.room
  have hapart := h.apart
  have hsize : m₂.size = m.size := by rw [hcell, Memory.size_setWord, hsaved.size]
  have hget (i : Nat) (hi : i < top ∨ p ≤ i) : m₂.get i = m₁.get i := by
    rw [hcell, Memory.get_setWord_of_disjoint _ _ _ _ (by omega)]
  have hbefore (i : Nat) (hi : i < top) : m₂.get i = m.get i :=
    (hget i (.inl hi)).trans (hsaved.get i (by omega))
  exact ⟨h.covers.of_size hsize, (Memory.words_congr fun i hi _ => hget i (.inr hi)).trans hsaved.words,
    hx.congr hsize fun i _ hi => hbefore i (by omega), hy.congr hsize fun i _ hi => hbefore i (by omega), hx',
    hy', by omega⟩

theorem congr (h : Joining m p top q₁ q₂ xs ys ra) (hsize : m'.size = m.size)
    (hget : ∀ i, i < top ∨ p ≤ i → m'.get i = m.get i) : Joining m' p top q₁ q₂ xs ys ra where
  frame := h.frame.of_size hsize
  saved := (Memory.words_congr fun i hi _ => hget i (.inr hi)).trans h.saved
  first := h.first.congr hsize fun i _ hi => hget i (.inl (Nat.lt_of_lt_of_le hi h.first_le))
  second := h.second.congr hsize fun i _ hi => hget i (.inl (Nat.lt_of_lt_of_le hi h.second_le))
  first_le := h.first_le
  second_le := h.second_le
  room := h.room

theorem slots (h : Joining m p top q₁ q₂ xs ys ra) :
    m.word p = Int32.ofNat (xs ++ ys).length ∧ m.word (p + 4) = Int32.ofNat q₂ ∧
      m.word (p + 8) = Int32.ofNat q₁ ∧
      m.word (p + 12) = ra := by
  have hsaved : [m.word p, m.word (p + 4), m.word (p + 8), m.word (p + 12)] = _ := h.saved
  simpa only [List.cons.injEq, and_true] using hsaved

theorem covers_slot (h : Joining m p top q₁ q₂ xs ys ra) {n : Nat} (hn : n + 4 ≤ 16) : m.Covers (p + n) 4 :=
  h.frame.mono (Nat.le_add_right p n) (by omega)

theorem covers_block (h : Joining m p top q₁ q₂ xs ys ra) : m.Covers top (4 + 4 * (xs ++ ys).length) := by
  have hlow := h.first.covers.low
  have hle := h.first_le
  have hroom := h.room
  have hhigh := h.frame.high
  exact ⟨by omega, by omega, h.frame.size⟩

end Joining

theorem openResult_passage (h : Joining v.memory p top q₁ q₂ xs ys ra) (hsp : v.regs .sp = Int32.ofNat p)
    (ha0 : v.regs .a0 = Int32.ofNat top) :
    ∃ v', Passage labels symbols stdin openResultLines v v' ∧ v.Keeps [.t0, .t2] v' ∧
      v'.regs .t2 = Int32.ofNat (top + 4) ∧
      v.memory.WrittenWords top [Int32.ofNat (xs ++ ys).length] v'.memory := by
  have hload : v.regs .sp + 0 = Int32.ofNat (p + 0) := by rw [Int32.add_zero, hsp, Nat.add_zero]
  have hstore : v.regs .a0 + 0 = Int32.ofNat top := by rw [Int32.add_zero, ha0]
  have hlines : Passage labels symbols stdin openResultLines v _ :=
    .load hload (h.covers_slot (by decide)) <|
      .store hstore (h.covers_block.mono (Nat.le_refl top) (by omega)) <| .note <| .addi .nil
  refine ⟨_, hlines, .put (by decide) <| .memory <| .put (by decide) <| .refl _ v, ?_, ?_⟩
  · rw [Int32.ofNat_add, ← ha0]
    rfl
  · rw [← h.slots.1]
    exact Memory.writtenWords_setWord _ _ _

variable (stdin) in
theorem joinElements_lead (hcode : Placed labels symbols code pc joinElementsLines) (hzero : v.regs .zero = 0)
    (hsp : v.regs .sp = Int32.ofNat p) (ha0 : v.regs .a0 = Int32.ofNat top)
    (h : Joining v.memory p top q₁ q₂ xs ys ra) :
    ∃ v', Leads code stdin pc v (pc + 27) v' ∧ v.Keeps [.t0, .t2, .t3, .t4, .t5] v' ∧
      v.memory.WrittenWords top (Int32.ofNat (xs ++ ys).length :: (xs ++ ys)) v'.memory := by
  obtain ⟨hopen, hcode⟩ := hcode.append
  obtain ⟨hfirst, hsecond⟩ := hcode.append
  have hroom := h.room
  have hblock := h.covers_block
  rw [List.length_append] at hroom hblock
  have hslot (n : Nat) : Int32.ofNat p + Int32.ofNat n = Int32.ofNat (p + n) := (Int32.ofNat_add p n).symm
  obtain ⟨v₁, hpassage, hkeeps₁, ht2₁, hwritten₁⟩ := openResult_passage h hsp ha0
  have h₁ : Joining v₁.memory p top q₁ q₂ xs ys ra := h.congr hwritten₁.size fun i hi => hwritten₁.get i (by
    rw [List.length_singleton]
    omega)
  obtain ⟨v₂, hleads₂, hkeeps₂, ht2₂, hwritten₂⟩ :=
    copyElements_lead stdin hfirst ((hkeeps₁.regs _ (by decide)).trans hzero)
    (by rw [hkeeps₁.regs _ (by decide), hsp]; exact hslot 8)
      (h₁.covers_slot (by decide)) h₁.slots.2.2.1 h₁.first ht2₁
    ((hblock.mono (Nat.le_add_right top 4) (by omega)).of_size hwritten₁.size)
      (Nat.le_trans h.first_le (Nat.le_add_right top 4))
  have hkeeps := hkeeps₁.trans hkeeps₂
  have hpart := hwritten₁.append hwritten₂
  have h₂ : Joining v₂.memory p top q₁ q₂ xs ys ra := h.congr hpart.size fun i hi => hpart.get i (by
    rw [List.length_append, List.length_singleton]
    omega)
  obtain ⟨v₃, hleads₃, hkeeps₃, -, hwritten₃⟩ :=
    copyElements_lead stdin hsecond ((hkeeps.regs _ (by decide)).trans hzero)
    (by rw [hkeeps.regs _ (by decide), hsp]; exact hslot 4)
      (h₂.covers_slot (by decide)) h₂.slots.2.1 h₂.second ht2₂
    ((hblock.mono (by omega) (by omega)).of_size hpart.size) (by have hle := h.second_le; omega)
  refine ⟨v₃, (hpassage.leads hopen.code).trans <| hleads₂.trans hleads₃,
    (hkeeps.trans hkeeps₃).mono (by decide), ?_⟩
  have hnext : top + 4 + 4 * xs.length = top + 4 * ([Int32.ofNat (xs ++ ys).length] ++ xs).length := by
    rw [List.length_append, List.length_singleton]
    omega
  rw [hnext] at hwritten₃
  exact hpart.append hwritten₃

variable (stdin) in
theorem concat_leads {cell : UInt32} {pc' : Nat} (hcode : Placed labels symbols code pc concat)
    (hmalloc : Placed labels symbols code pc' malloc) (hcell : symbols.lookup Asm.heapTopName = some cell)
    (hcodeSize : code.size ≤ 2147483648)
    (h : Workspace v.memory top (4 + 4 * (xs ++ ys).length) cell.toNat p 16)
    (hzero : v.regs .zero = 0) (hsp : v.regs .sp - 16 = Int32.ofNat p) (ha0 : v.regs .a0 = Int32.ofNat q₁)
    (ha1 : v.regs .a1 = Int32.ofNat q₂) (hx : v.memory.Object q₁ xs) (hx' : q₁ + (4 + 4 * xs.length) ≤ top)
    (hy : v.memory.Object q₂ ys) (hy' : q₂ + (4 + 4 * ys.length) ≤ top) (hra : 0 ≤ v.regs .ra) :
    ∃ v', Leads code stdin pc v (v.regs .ra).toInt.toNat v' ∧
      (∀ r : Reg, r.isScratch = false → v'.regs r = v.regs r) ∧
      v'.regs .a0 = Int32.ofNat top ∧ Workspace.Filled v.memory top cell.toNat p 16 (xs ++ ys) v'.memory ∧
      v'.stdinPos = v.stdinPos ∧ v'.stdout = v.stdout := by
  have hroom := h.room
  have hapart := h.apart
  rw [concat_eq] at hcode
  obtain ⟨hopen, hcode⟩ := hcode.append
  obtain ⟨-, hbehind⟩ := hcode.append
  obtain ⟨hjoin, hrestore⟩ := hbehind.append
  -- The arguments and the return address are saved in the frame.
  have hframe : v.regs .sp + -16 = Int32.ofNat p := (Int32.sub_eq_add_neg _ _).symm.trans hsp
  obtain ⟨v₁, hleads₁, hkeeps₁, hsp₁, ha0₁, hsaved⟩ :=
    openJoin_lead stdin hopen.code hframe h.covers ha0 ha1 hx (by omega) hy (by omega)
  have hget₁ := hsaved.get
  -- The object is allocated.
  have hwork₁ := h.congr hsaved.size fun i hi => hget₁ i (.inl hi)
  obtain ⟨v₂, hleads₂, hkeeps₂, ha0₂, hmemory₂⟩ :=
    allocate_lead stdin hcode.code hmalloc hcell hcodeSize hwork₁ ha0₁
  have hjoining := Joining.of_saved h hsaved hmemory₂ hx hx' hy hy'
  have hsp₂ := (hkeeps₂.regs _ (by decide)).trans hsp₁
  have hkeeps₁₂ := hkeeps₁.trans hkeeps₂
  have hzero₂ := (hkeeps₁₂.regs _ (by decide)).trans hzero
  -- The elements of both arguments are copied.
  obtain ⟨v₃, hleads₃, hkeeps₃, hwritten₃⟩ := joinElements_lead stdin hjoin hzero₂ hsp₂ ha0₂ hjoining
  have hkeeps := hkeeps₁₂.trans hkeeps₃
  have hget₃ := hwritten₃.get
  rw [List.length_cons] at hget₃
  have hjoined := hjoining.congr hwritten₃.size fun i hi => hget₃ i (by omega)
  have hsp₃ := (hkeeps₃.regs _ (by decide)).trans hsp₂
  have hslot : v₃.regs .sp + 12 = Int32.ofNat (p + 12) := hsp₃ ▸ (Int32.ofNat_add p 12).symm
  have hcovers := hjoined.covers_slot (show 12 + 4 ≤ 16 by decide)
  have hrestored := restore_lead stdin hrestore.code hslot hcovers hjoined.slots.2.2.2 hra
  have hleads := hleads₁.trans (hleads₂.trans (hleads₃.trans hrestored))
  have hback : v₃.regs .sp + 16 = v.regs .sp := by rw [hsp₃, ← hsp, Int32.sub_add_cancel]
  have hresult := (hkeeps₃.regs .a0 (by decide)).trans ha0₂
  have hfilled := h.filled hsaved.size hget₁ hmemory₂ hwritten₃
  refine ⟨_, hleads, fun r hr => ?_, hresult, hfilled, hkeeps.stdinPos, hkeeps.stdout⟩
  exact regs_restored hkeeps.regs (by decide) hback hr

end Join

theorem concat_mem_library : concat <:+: Asm.Routine.all :=
  ⟨malloc ++ printInt ++ printBool ++ printStr ++ input,
    strEq ++ Trap.all.flatMap ofTrap ++ errorExit, by simp [Asm.Routine.all]⟩

end Routine

theorem concat_gains {a : Assembly} {image : Image} {heapSize : UInt32} (hload : Image.load a = .ok image)
    (ha : a.Equipped heapSize) (hcode : image.Addressable) (stdin : Array UInt8) {s : Machine}
    (hs : image.Hosts s) (hat : s.atLabel image.code Library.concat)
    (hra : 0 ≤ s.read .ra) {total : Nat} {xs ys : List Int32} (hx : s.HeapObject total (s.read .a0) xs)
    (hy : s.HeapObject total (s.read .a1) ys) (hfree : s.Free heapSize total)
    (hroom : total + (4 + 4 * (xs ++ ys).length) ≤ heapSize.toNat) (hframe : s.HasFrame heapSize 16) :
    ∃ u, Returned image.code stdin s u ∧ Gains heapSize total 16 (xs ++ ys) s u ∧ u.stdinPos = s.stdinPos ∧
      u.stdout = s.stdout := by
  obtain ⟨hheap, labels, symbols, pc', hcell, hmalloc, hplaced⟩ := Image.load_equipped hload ha
  obtain ⟨pc, hconcat, hpc⟩ := hplaced _ _ concat_mem_library rfl
  have hwork := Workspace.of_free hfree hframe (by decide) hroom hheap
    (hs.size ▸ (Image.size_of_load hload).le)
  obtain ⟨v, hleads, hregs, ha0, hfilled, hio⟩ :=
    concat_leads stdin (v := s.view) hconcat hmalloc hcell hcode hwork hs.zero
    (eq_ofNat_toNat _) (eq_ofNat_toNat _) (eq_ofNat_toNat _) hx.object hx.given hy.object hy.given hra
  obtain ⟨u, hreaches, hreturn, rfl⟩ := hleads s (hpc s hat) rfl
  exact ⟨u, ⟨hreaches, hreturn, hregs⟩, hfilled.gains ha0 hfree, hio⟩

/-- The routine that joins two objects, in any program with the library and a heap: it returns with a new
object at the first free byte of the heap, which has the elements of the first argument and then those of the
second. The arguments may be one and the same object; they and all other objects on the heap stay what they
are. -/
theorem concat_joins_elements {a : Assembly} {image : Image} {heapSize : UInt32}
    (hload : Image.load a = .ok image) (ha : a.Equipped heapSize) (hcode : image.Addressable)
    (stdin : Array UInt8) {s : Machine} (hs : image.Hosts s) (hat : s.atLabel image.code Library.concat)
    (hra : 0 ≤ s.read .ra) {total : Nat} {xs ys : List Int32} (hx : s.HeapObject total (s.read .a0) xs)
    (hy : s.HeapObject total (s.read .a1) ys) (hfree : s.Free heapSize total)
    (hroom : total + (4 + 4 * (xs.length + ys.length)) ≤ heapSize.toNat) (hframe : s.HasFrame heapSize 16) :
    ∃ t, Returned image.code stdin s t ∧ Gains heapSize total 16 (xs ++ ys) s t ∧
      (∀ address zs, s.HeapObject total address zs → t.HeapObject total address zs) ∧
      t.stdinPos = s.stdinPos ∧ t.stdout = s.stdout := by
  rw [← List.length_append] at hroom
  obtain ⟨t, hreturned, hgains, hio⟩ := concat_gains hload ha hcode stdin hs hat hra hx hy hfree hroom hframe
  exact ⟨t, hreturned, hgains, fun _ _ => hgains.heapObject, hio⟩

/-- A program that puts a list on the heap and joins it with itself. -/
def doubledList : Assembly :=
  { Assembly.ofHeap 32 with
    text := [label Library.start, la .t0 Asm.heapName, la .t1 Asm.heapTopName, addi .t2 .t0 12, sw .t2 0 .t1,
      li .t3 2, sw .t3 0 .t0, li .t3 7, sw .t3 4 .t0, li .t3 8, sw .t3 8 .t0, mv .a0 .t0, mv .a1 .t0,
      jal Library.concat] }.withLibrary

theorem joined_doubledList : ∃ image s t, Image.load doubledList = .ok image ∧
    (ofImage image).after image.code #[] 14 = some s ∧
    s.atLabel image.code Library.concat ∧ Returned image.code #[] s t ∧ t.pc = 14 ∧
      t.memory.Object 0x100c [7, 8, 7, 8] ∧
    t.memory.Object 0x1000 [7, 8] := by
  have hcheck : ((Image.load doubledList).toOption.bind fun image =>
      ((ofImage image).after image.code #[] 14).map fun s =>
      decide (image.code.size ≤ 2147483648 ∧ s.atLabel image.code Library.concat ∧ s.read .ra = 14 ∧
        s.read .a0 = 0x1000 ∧ s.read .a1 = 0x1000 ∧ s.memory.Object 0x1000 [7, 8] ∧
        dataBase ≤ (heapTopAddress 32).toInt32.toUInt32 ∧ (heapTopAddress 32).toInt32.toUInt32.toNat + 4 ≤
        s.memory.size ∧ s.memory.word (heapTopAddress 32).toNat = 0x100c ∧
        dataBase ≤ (s.read .sp - 16).toUInt32 ∧ (s.read .sp - 16).toUInt32.toNat + 16 ≤ s.memory.size ∧
        (heapTopAddress 32).toNat + 4 ≤ s.frameAt 16)) = some true := by decide +kernel
  simp only [Option.bind_eq_some_iff, Option.map_eq_some_iff, decide_eq_true_eq] at hcheck
  obtain ⟨image, hload, s, hafter, hcode, hat, hra, ha0, ha1, hobject, hlow, hhigh, hword, hlow', hhigh',
    hapart⟩ := hcheck
  have hload := Outcome.eq_ok_of_toOption hload
  have hheap : s.HeapObject 12 0x1000 [7, 8] := ⟨hobject, by decide⟩
  have hfree : s.Free 32 12 := ⟨⟨hlow, hhigh⟩, hword⟩
  obtain ⟨t, hreturned, hgains, hkept, -⟩ :=
    concat_joins_elements hload (equipped_withLibrary 32 _ (by decide)) hcode #[]
    ((Image.hosts_ofImage image).reaches (reaches_of_after hafter)) hat (by rw [hra]; decide)
      (ha0 ▸ hheap) (ha1 ▸ hheap)
    hfree (by decide) ⟨⟨hlow', hhigh'⟩, .inr hapart⟩
  exact ⟨image, s, t, hload, hafter, hat, hreturned, hreturned.pc.trans (by rw [hra]; rfl), hgains.object,
    (hkept _ _ hheap).object⟩

end Choco.Machine
