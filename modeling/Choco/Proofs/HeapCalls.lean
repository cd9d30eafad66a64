import Choco.Proofs.Routines

namespace Choco

/-- A program with the library and with a heap of this size. -/
structure Asm.Assembly.Equipped (a : Assembly) (heapSize : UInt32) : Prop where
  library : Routine.all <:+: a.text
  data : ∃ rest, a.data = (Assembly.ofHeap heapSize).data ++ rest ∧ heapTopName ∉ rest.map Datum.name

namespace Machine

open Asm (Assembly Instr Reg Datum heapName heapTopName)
open Asm.Instr

/-- Every position of the code is a number that a register holds. -/
def Image.Addressable (image : Image) : Prop := image.code.size ≤ 2147483648

/-- Where the frame of a routine starts. -/
def frameAt (s : Machine) (length : Nat) : Nat := (s.read .sp - Int32.ofNat length).toUInt32.toNat

/-- Below the stack pointer there are bytes for a frame, apart from the heap and from the cell behind it. -/
structure HasFrame (heapSize : UInt32) (length : Nat) (s : Machine) : Prop where
  mapped : s.Mapped (s.read .sp - Int32.ofNat length) length
  apart : s.frameAt length + length ≤ dataBase.toNat ∨ (heapTopAddress heapSize).toNat + 4 ≤ s.frameAt length

/-- The word is the address of an object with these elements, among the bytes of the heap that were given
out. -/
structure HeapObject (total : Nat) (s : Machine) (a : Int32) (ws : List Int32) : Prop where
  object : s.memory.Object a.toUInt32.toNat ws
  given : a.toUInt32.toNat + (4 + 4 * ws.length) ≤ dataBase.toNat + total

/-- `t` has an object with these elements that was not there in `s`. Else only the cell behind the heap and
the frame differ. -/
structure Gains (heapSize : UInt32) (total length : Nat) (ws : List Int32) (s t : Machine) : Prop where
  address : t.read .a0 = Int32.ofNat (dataBase.toNat + total)
  object : t.memory.Object (dataBase.toNat + total) ws
  free : t.Free heapSize (total + (4 + 4 * ws.length))
  size : t.memory.size = s.memory.size
  get : ∀ i, i < dataBase.toNat + total ∨ dataBase.toNat + total + (4 + 4 * ws.length) ≤ i ∧
    i < (heapTopAddress heapSize).toNat ∨ (heapTopAddress heapSize).toNat + 4 ≤ i ∧ i < s.frameAt length ∨
    s.frameAt length + length ≤ i → t.memory.get i = s.memory.get i

section Heap

variable {heapSize : UInt32} {total length : Nat} {s t : Machine} {ws : List Int32}

theorem Gains.heapObject (h : Gains heapSize total length ws s t) {a : Int32} {zs : List Int32}
    (ha : s.HeapObject total a zs) :
    t.HeapObject total a zs :=
  ⟨ha.object.congr h.size fun i _ hi => h.get i (.inl (Nat.lt_of_lt_of_le hi ha.given)), ha.given⟩

theorem le_aligned {a : UInt32} (h : aligned a ≠ 0) : a.toNat ≤ (aligned a).toNat := by
  have haligned := toNat_aligned a
  have hpos : (aligned a).toNat ≠ 0 := fun heq => h (UInt32.toNat_inj.mp heq)
  have hlt := a.toNat_lt
  omega

theorem Free.low (h : s.Free heapSize total) : dataBase ≤ heapTopAddress heapSize := by
  have hmapped := h.mapped.1
  rwa [UInt32.toUInt32_toInt32] at hmapped

theorem Free.heap_le (h : s.Free heapSize total) (hheap : dataBase.toNat + heapSize.toNat < UInt32.size) :
    dataBase.toNat + heapSize.toNat ≤ (heapTopAddress heapSize).toNat := by
  have hle := le_aligned (a := dataBase + heapSize) fun heq => absurd (heq ▸ h.low : dataBase ≤ 0) (by decide)
  rwa [UInt32.toNat_add, Nat.mod_eq_of_lt hheap] at hle

theorem Free.covers (h : s.Free heapSize total) (hsize : s.memory.size ≤ UInt32.size) :
    s.memory.Covers (heapTopAddress heapSize).toNat 4 := by
  have hhigh := h.mapped.2
  rw [UInt32.toUInt32_toInt32] at hhigh
  exact ⟨UInt32.le_iff_toNat_le.mp h.low, hhigh, hsize⟩

end Heap

/-- What a routine has in memory for a new object: `size` free bytes at `top`, the cell, and the frame. -/
structure Workspace (m : Memory) (top size cell frame length : Nat) : Prop where
  low : dataBase.toNat ≤ top
  room : top + size ≤ cell
  apart : cell + 4 ≤ frame
  covers : m.Covers frame length
  word : m.word cell = Int32.ofNat top

/-- `m'` is `m` with an object at `top` and with the address behind it in the cell, apart from the frame. -/
structure Workspace.Filled (m : Memory) (top cell frame length : Nat) (ws : List Int32) (m' : Memory) :
    Prop where
  object : m'.Object top ws
  word : m'.word cell = Int32.ofNat (top + (4 + 4 * ws.length))
  size : m'.size = m.size
  get : ∀ i, i < top ∨ top + (4 + 4 * ws.length) ≤ i ∧ i < cell ∨ cell + 4 ≤ i ∧ i < frame ∨
    frame + length ≤ i → m'.get i = m.get i

namespace Workspace

variable {heapSize : UInt32} {m m₁ m₂ m' : Memory} {top size cell frame length total : Nat} {ws : List Int32}
  {s t : Machine}

theorem covers_cell (h : Workspace m top size cell frame length) : m.Covers cell 4 :=
  ⟨Nat.le_trans h.low (by have := h.room; omega), by have := h.apart; have := h.covers.high; omega,
    h.covers.size⟩

theorem covers_block (h : Workspace m top size cell frame length) : m.Covers top size :=
  ⟨h.low, by have := h.room; have := h.apart; have := h.covers.high; omega, h.covers.size⟩

theorem congr (h : Workspace m top size cell frame length) (hsize : m'.size = m.size)
    (hget : ∀ i, i < frame → m'.get i = m.get i) :
    Workspace m' top size cell frame length where
  low := h.low
  room := h.room
  apart := h.apart
  covers := h.covers.of_size hsize
  word := (Memory.word_congr fun i _ hi => hget i (Nat.lt_of_lt_of_le hi h.apart)).trans h.word

theorem filled (h : Workspace m top (4 + 4 * ws.length) cell frame length) (hsize : m₁.size = m.size)
    (hframe : ∀ i, i < frame ∨ frame + length ≤ i → m₁.get i = m.get i)
    (hcell : m₂ = m₁.setWord cell (Int32.ofNat (top + (4 + 4 * ws.length))))
    (hblock : m₂.WrittenWords top (Int32.ofNat ws.length :: ws) m') :
    Filled m top cell frame length ws m' := by
  have hroom := h.room
  have hapart := h.apart
  have hget := hblock.get
  rw [List.length_cons] at hget
  subst hcell
  refine ⟨hblock.object ⟨h.low, ?_, ?_⟩, ?_, ?_, fun i hi => ?_⟩
  · rw [Memory.size_setWord, hsize]
    exact h.covers_block.high
  · rw [Memory.size_setWord, hsize]
    exact h.covers.size
  · rw [Memory.word_congr fun i hi _ => hget i (by omega), Memory.word_setWord]
  · rw [hblock.size, Memory.size_setWord, hsize]
  · rw [hget i (by omega), Memory.get_setWord_of_disjoint _ _ _ _ (by omega), hframe i (by omega)]

theorem of_free (hfree : s.Free heapSize total) (hframe : s.HasFrame heapSize length) (hlength : 0 < length)
    (hroom : total + size ≤ heapSize.toNat) (hheap : dataBase.toNat + heapSize.toNat < UInt32.size)
    (hsize : s.memory.size ≤ UInt32.size) :
    Workspace s.memory (dataBase.toNat + total) size (heapTopAddress heapSize).toNat
      (s.frameAt length) length := by
  have hlow : dataBase.toNat ≤ s.frameAt length := UInt32.le_iff_toNat_le.mp hframe.mapped.1
  have hend := hfree.heap_le hheap
  refine ⟨Nat.le_add_right _ _, by omega, ?_, ⟨hlow, hframe.mapped.2, hsize⟩, ?_⟩
  · have hapart := hframe.apart
    omega
  · rw [hfree.word, UInt32.toInt32_ofNat']

theorem Filled.gains (h : Filled s.memory (dataBase.toNat + total) (heapTopAddress heapSize).toNat
    (s.frameAt length) length ws t.memory) (ha0 : t.read .a0 = Int32.ofNat (dataBase.toNat + total))
      (hfree : s.Free heapSize total) :
    Gains heapSize total length ws s t where
  address := ha0
  object := h.object
  free := ⟨hfree.mapped.of_memory h.size rfl, by rw [h.word, UInt32.toInt32_ofNat', Nat.add_assoc]⟩
  size := h.size
  get := h.get

end Workspace

section Calls

variable {labels : List (String × Nat)} {symbols : List (String × UInt32)} {code : Array Line}
  {stdin : Array UInt8} {pc pc' top size frame length : Nat} {cell : UInt32} {v : View} {i : Instr}
  {is : List Instr}

variable (stdin) in
theorem malloc_leads (hcode : CodeAt labels symbols code pc Asm.Routine.malloc)
    (hcell : symbols.lookup heapTopName = some cell) (hcovers : v.memory.Covers cell.toNat 4)
    (hra : 0 ≤ v.regs .ra) :
    ∃ v', Leads code stdin pc v (v.regs .ra).toInt.toNat v' ∧ v.Keeps [.t0, .t1, .t2, .a0] v' ∧
      v'.regs .a0 = v.memory.word cell.toNat ∧
      v'.memory = v.memory.setWord cell.toNat (v.memory.word cell.toNat + v.regs .a0) := by
  have haddress : cell.toInt32 = Int32.ofNat cell.toNat := by
    rw [eq_ofNat_toNat cell.toInt32, UInt32.toUInt32_toInt32]
  obtain ⟨v', hpassage, hkeeps, ha0, hmemory⟩ :=
    malloc_passage labels stdin hcell (View.mapped_of_covers haddress hcovers (by decide)).1
  rw [malloc_eq] at hcode
  obtain ⟨hlines, hret⟩ := codeAt_append.mp hcode
  have hra' : v'.regs .ra = v.regs .ra := hkeeps.regs .ra (by decide)
  refine ⟨v', ?_, hkeeps, ha0, hmemory⟩
  rw [← hra'] at hra ⊢
  exact (hpassage.leads hlines).trans (.ret hret hra)

theorem CodeAt.lt_size (h : CodeAt labels symbols code pc (i :: is)) : pc < code.size := by
  obtain ⟨line, hline, -⟩ := Option.map_eq_some_iff.mp (h 0 i rfl)
  exact (Array.getElem?_eq_some_iff.mp hline).1

variable (stdin) in
theorem allocate_lead (hcode : CodeAt labels symbols code pc (jal Library.malloc :: i :: is))
    (hmalloc : Placed labels symbols code pc' Asm.Routine.malloc)
    (hcell : symbols.lookup heapTopName = some cell)
    (hcodeSize : code.size ≤ 2147483648) (h : Workspace v.memory top size cell.toNat frame length)
    (ha0 : v.regs .a0 = Int32.ofNat size) :
    ∃ v', Leads code stdin pc v (pc + 1) v' ∧ v.Keeps [.ra, .t0, .t1, .t2, .a0] v' ∧
      v'.regs .a0 = Int32.ofNat top ∧
      v'.memory = v.memory.setWord cell.toNat (Int32.ofNat (top + size)) := by
  have hreturn : ((v.put .ra (Int32.ofNat (pc + 1))).regs .ra).toInt = (pc + 1 : Nat) := by
    have hlt := (codeAt_cons.mp hcode).2.lt_size
    exact Int32.toInt_ofNat_of_lt (by omega)
  have hra : 0 ≤ (v.put .ra (Int32.ofNat (pc + 1))).regs .ra := by
    rw [Int32.le_iff_toInt_le, hreturn]
    exact Int.natCast_nonneg _
  have hcall : Leads code stdin pc v pc' (v.put .ra (Int32.ofNat (pc + 1))) :=
    .call hcode (hmalloc.lookup 0 _ _ rfl rfl)
  have hcovers : (v.put .ra (Int32.ofNat (pc + 1))).memory.Covers cell.toNat 4 := h.covers_cell
  obtain ⟨v', hleads, hkeeps, haddress, hmemory⟩ := malloc_leads stdin hmalloc.code hcell hcovers hra
  rw [hreturn, Int.toNat_natCast] at hleads
  have hkeeps₀ : v.Keeps [.ra] (v.put .ra (Int32.ofNat (pc + 1))) :=
    .put (List.mem_singleton_self _) (.refl _ v)
  refine ⟨v', hcall.trans hleads, hkeeps₀.trans hkeeps, haddress.trans h.word, ?_⟩
  rw [hmemory, Int32.ofNat_add top, ← h.word, ← ha0]
  rfl

def restoreLines (slot size : Int32) : List Instr :=
  [lw .ra slot .sp,
    addi .sp .sp size]

variable (stdin) in
theorem restore_lead {slot size ra : Int32} {p : Nat}
    (hcode : CodeAt labels symbols code pc (restoreLines slot size ++ [ret]))
    (hslot : v.regs .sp + slot = Int32.ofNat p) (hcovers : v.memory.Covers p 4) (hword : v.memory.word p = ra)
    (hra : 0 ≤ ra) :
    Leads code stdin pc v ra.toInt.toNat ((v.put .ra ra).put .sp (v.regs .sp + size)) := by
  obtain ⟨hlines, hret⟩ := codeAt_append.mp hcode
  subst hword
  exact (Passage.leads (.load hslot hcovers <| .addi .nil) hlines).trans (.ret hret hra)

theorem regs_restored {v' : View} {touched : List Reg} {w : Int32}
    (hregs : ∀ r, r ∉ touched → v'.regs r = v.regs r)
    (htouched : ∀ r ∈ touched, r.isScratch = true ∨ r = .ra ∨ r = .sp) (hw : w = v.regs .sp) {r : Reg}
    (hr : r.isScratch = false) :
    ((v'.put .ra (v.regs .ra)).put .sp w).regs r = v.regs r := by
  rw [View.regs_put, View.regs_put]
  split
  next heq => rw [heq.1, hw]
  next hsp =>
    split
    next heq => rw [heq.1]
    next hra =>
      refine hregs r fun hmem => ?_
      obtain hscratch | rfl | rfl := htouched r hmem
      · rw [hr] at hscratch
        cases hscratch
      · exact hra ⟨rfl, by decide⟩
      · exact hsp ⟨rfl, by decide⟩

end Calls

section Loading

variable {a : Assembly} {image : Image} {heapSize : UInt32}

theorem Image.load_equipped (hload : Image.load a = .ok image) (ha : a.Equipped heapSize) :
    dataBase.toNat + heapSize.toNat < UInt32.size ∧ ∃ labels symbols pc, symbols.lookup heapTopName = some
      (heapTopAddress heapSize) ∧ Placed labels symbols image.code pc Asm.Routine.malloc ∧
      ∀ routine name, routine <:+: Asm.Routine.all → routine.head? = some (Instr.label name) →
        ∃ pc, Placed labels symbols image.code pc routine ∧ ∀ s : Machine, s.atLabel image.code name →
          s.pc = pc := by
  obtain ⟨rest, hdata, hrest⟩ := ha.data
  obtain ⟨labels, items, cursor, hitems, -, hplaced⟩ := Image.load_placed hload
  rw [hdata] at hitems
  obtain ⟨pc, hmalloc, -⟩ := hplaced _ _ (malloc_first.isInfix.trans ha.library) rfl
  exact ⟨(layoutData_heap hitems).1, labels, _, pc, lookup_heap hitems hrest, hmalloc,
    fun routine name hin hname => hplaced routine name (hin.trans ha.library) hname⟩

theorem equipped_withLibrary (heapSize : UInt32) {data : List Datum} (text : List Instr)
    (hdata : heapTopName ∉ data.map Datum.name) :
    ({ Assembly.ofHeap heapSize with
         data := (Assembly.ofHeap heapSize).data ++ data, text := text }.withLibrary).Equipped heapSize where
  library := (List.suffix_append _ _).isInfix
  data := by
    refine ⟨data ++ Asm.Routine.data, List.append_assoc _ _ _, ?_⟩
    rw [List.map_append, List.mem_append, not_or]
    exact ⟨hdata, by decide +kernel⟩

end Loading

end Machine

end Choco
