import Choco.Proofs.Confinement
import Choco.Proofs.Linking
import Choco.Proofs.Passages

namespace Choco

namespace Machine

open Asm (Assembly Instr Datum Reg heapName heapTopName labelsOf)
open Asm.Instr

variable {n : Nat} {blocks : List Block} {code : Array Line}

section Following

variable (code : Array Line) (stdin : Array UInt8) {cell : Nat}

/-- The machine is at a label with this name. -/
def atLabel (s : Machine) (name : String) : Bool := (code[s.pc]?.bind (·.instr.labelName?)) = some name

/-- Bytes of memory that the allocator gives out. -/
structure Block where
  address : UInt32
  size : UInt32
deriving DecidableEq, Repr

/-- The lines of the allocator before it returns. -/
def mallocSteps : Nat := 6

/-- Follow a run for some rounds and list the blocks that the allocator gives out: a round is a pass through
the allocator or one other step. There is no result if the machine stops, or if another step changes the word
at the address `cell`. -/
def follow (cell : Nat) : Nat → Machine → Option (List Block × Machine)
  | 0, s => some ([], s)
  | n + 1, s =>
    if s.atLabel code Library.malloc then do
      let s' ← s.after code stdin mallocSteps
      let (blocks, t) ← follow cell n s'
      return (⟨(s'.read .a0).toUInt32, (s.read .a0).toUInt32⟩ :: blocks, t)
    else do
      let s' ← s.after code stdin 1
      if s'.memory.word cell = s.memory.word cell then follow cell n s' else none

variable {code stdin} {s s' t : Machine}

theorem step_of_after_one (h : s.after code stdin 1 = some s') : s.step code stdin = .next s' := by
  rw [after] at h
  split at h
  next hstep =>
    cases h
    exact hstep
  next => cases h
  next => cases h

theorem follow_atLabel (hat : s.atLabel code Library.malloc)
    (h : s.follow code stdin cell (n + 1) = some (blocks, t)) :
    ∃ s' rest, s.after code stdin mallocSteps = some s' ∧ s'.follow code stdin cell n = some (rest, t) ∧
      blocks = ⟨(s'.read .a0).toUInt32, (s.read .a0).toUInt32⟩ :: rest := by
  rw [follow, if_pos hat] at h
  obtain ⟨s', hs', h⟩ := Option.bind_eq_some_iff.mp h
  obtain ⟨⟨rest, t'⟩, hrest, h⟩ := Option.bind_eq_some_iff.mp h
  cases h
  exact ⟨s', rest, hs', hrest, rfl⟩

theorem follow_of_not_atLabel (hat : ¬ s.atLabel code Library.malloc)
    (h : s.follow code stdin cell (n + 1) = some (blocks, t)) :
    ∃ s', s.after code stdin 1 = some s' ∧ s'.memory.word cell = s.memory.word cell ∧
      s'.follow code stdin cell n = some (blocks, t) := by
  rw [follow, if_neg hat] at h
  obtain ⟨s', hs', h⟩ := Option.bind_eq_some_iff.mp h
  split at h
  next hkept => exact ⟨s', hs', hkept, h⟩
  next => cases h

theorem exists_after_of_follow (h : s.follow code stdin cell n = some (blocks, t)) :
    ∃ k, s.after code stdin k = some t := by
  induction n generalizing s blocks with
  | zero =>
    cases h
    exact ⟨0, rfl⟩
  | succ n ih =>
    by_cases hat : s.atLabel code Library.malloc
    · obtain ⟨s', rest, hs', hrest, -⟩ := follow_atLabel hat h
      obtain ⟨k, hk⟩ := ih hrest
      exact ⟨_, (after_add hs').trans hk⟩
    · obtain ⟨s', hs', -, hrest⟩ := follow_of_not_atLabel hat h
      obtain ⟨k, hk⟩ := ih hrest
      exact ⟨_, (after_add hs').trans hk⟩

end Following

section Routine

variable {labels : List (String × Nat)} {symbols : List (String × UInt32)} {code : Array Line}
  {stdin : Array UInt8} {s : Machine} {offset : Int32} {s' : Machine}

theorem access_eq_next {base : Int32} {length : Nat} {k : Nat → Step}
    (h : s.access base offset length k = .next s') :
    s.Mapped (base + offset) length ∧ k (base + offset).toUInt32.toNat = .next s' := by
  unfold access at h
  dsimp only at h
  split at h
  next => cases h
  next hbase =>
    split at h
    next hsize => exact ⟨⟨UInt32.not_lt.mp hbase, hsize⟩, h⟩
    next => cases h

theorem exec_sw_eq_next {src base : Reg}
    (h : s.exec stdin (resolve labels symbols (sw src offset base)) = .next s') :
    s.Mapped (s.read base + offset) 4 ∧
      s' = { s with memory := s.memory.setWord (s.read base + offset).toUInt32.toNat (s.read src),
                    pc := s.pc + 1 } := by
  have haccess : s.access (s.read base) offset 4
      (fun a => .next { s with memory := s.memory.setWord a (s.read src), pc := s.pc + 1 }) = .next s' := h
  obtain ⟨hmapped, hnext⟩ := access_eq_next haccess
  cases hnext
  exact ⟨hmapped, rfl⟩

theorem malloc_eq : Asm.Routine.malloc = Asm.Routine.malloc.take mallocSteps ++ [ret] := rfl

/-- The allocator gives out the address in its cell and moves the address by the bytes asked for, whatever
they are. -/
theorem malloc_passage (labels : List (String × Nat)) (stdin : Array UInt8) {cell : UInt32} {v : View}
    (hcell : symbols.lookup heapTopName = some cell) (hmapped : v.Mapped cell.toInt32 4) :
    ∃ v', Passage labels symbols stdin (Asm.Routine.malloc.take mallocSteps) v v' ∧
      v.Keeps [.t0, .t1, .t2, .a0] v' ∧
      v'.regs .a0 = v.memory.word cell.toNat ∧
      v'.memory = v.memory.setWord cell.toNat (v.memory.word cell.toNat + v.regs .a0) := by
  have haddress : (cell.toInt32 + 0).toUInt32.toNat = cell.toNat := by
    rw [Int32.add_zero, UInt32.toUInt32_toInt32]
  have hmapped₀ : v.Mapped (cell.toInt32 + 0) 4 := by rwa [Int32.add_zero]
  rw [← haddress]
  refine ⟨_, .label <| .la hcell <| .note <| .lw hmapped₀ <| .alu <| .note <| .sw hmapped₀ <| .mv .nil,
    ?_, rfl, rfl⟩
  exact .put (by decide) <| .memory <| .put (by decide) <| .put (by decide) <| .put (by decide) <| .refl _ v

theorem malloc_after (stdin : Array UInt8) {cell : UInt32}
    (hcode : CodeAt labels symbols code s.pc Asm.Routine.malloc)
    (hcell : symbols.lookup heapTopName = some cell) (hmapped : s.Mapped cell.toInt32 4) :
    ∃ s', s.after code stdin mallocSteps = some s' ∧ CodeAt labels symbols code s'.pc [ret] ∧
      s'.read .a0 = s.memory.word cell.toNat ∧
      s'.memory = s.memory.setWord cell.toNat (s.memory.word cell.toNat + s.read .a0) ∧
      ∀ r, r ∉ [Reg.t0, .t1, .t2, .a0] → s'.read r = s.read r := by
  obtain ⟨v, hpassage, hkeeps, ha0, hmemory⟩ := malloc_passage labels stdin (v := s.view) hcell hmapped
  rw [malloc_eq] at hcode
  obtain ⟨hlines, hret⟩ := codeAt_append.mp hcode
  obtain ⟨s', hafter, hpc, rfl⟩ := hpassage code s hlines rfl
  exact ⟨s', hafter, hpc ▸ hret, ha0, hmemory, hkeeps.regs⟩

end Routine

section Loading

open Asm (Assembly.ofHeap)

variable {labels : List (String × Nat)} {symbols : List (String × UInt32)} {a : Assembly} {image : Image}
  {heapSize : UInt32} {rest : List Datum} {items : List (Datum × UInt32)} {cursor : UInt32} {name : String}

/-- Where the address of the first free byte of the heap is kept. -/
def heapTopAddress (heapSize : UInt32) : UInt32 := aligned (dataBase + heapSize)

structure Image.Links (image : Image) (heapSize : UInt32) (labels : List (String × Nat))
    (symbols : List (String × UInt32)) :
    Prop where
  start : ∃ main, CodeAt labels symbols image.code image.start (Asm.Routine.entry main)
  malloc : ∀ s : Machine, s.atLabel image.code Library.malloc →
    CodeAt labels symbols image.code s.pc Asm.Routine.malloc
  heap : symbols.lookup heapName = some dataBase
  heapTop : symbols.lookup heapTopName = some (heapTopAddress heapSize)
  heap_lt : dataBase.toNat + heapSize.toNat < UInt32.size

theorem layoutData_heap
    (h : layoutData dataBase ((Assembly.ofHeap heapSize).data ++ rest) = .ok (items, cursor)) :
    dataBase.toNat + heapSize.toNat < UInt32.size ∧ ∃ placed, items =
      (⟨heapName, .space heapSize⟩, dataBase) :: (⟨heapTopName, .word 0⟩, heapTopAddress heapSize) ::
        placed := by
  obtain ⟨next, placed, -, hnext, hrest, rfl⟩ := layoutData_cons h
  obtain ⟨next', placed', -, -, -, rfl⟩ := layoutData_cons hrest
  obtain ⟨hlt, rfl⟩ := addSize_eq_ok_iff.mp hnext
  exact ⟨hlt, placed', rfl⟩

theorem lookup_of_atLabel {text : List Instr} (hlabels : labelTable [] 0 text = .ok labels) {s : Machine}
    (h : s.atLabel (text.map (resolve labels symbols)).toArray name) : labels.lookup name = some s.pc := by
  simp only [atLabel, decide_eq_true_eq, List.getElem?_toArray, List.getElem?_map] at h
  obtain ⟨line, hline, hname⟩ := Option.bind_eq_some_iff.mp h
  obtain ⟨i, hi, rfl⟩ := Option.map_eq_some_iff.mp hline
  rw [instr_resolve] at hname
  rw [(lookup_labelTable hlabels name).2 s.pc i hi hname, Nat.zero_add]

theorem malloc_first : Asm.Routine.malloc.IsPrefix Asm.Routine.all := by decide +kernel

/-- The instructions stand at a position, and the names of their labels refer to them. -/
structure Placed (labels : List (String × Nat)) (symbols : List (String × UInt32)) (code : Array Line)
    (pc : Nat) (is : List Instr) :
    Prop where
  code : CodeAt labels symbols code pc is
  lookup : ∀ k i l, is[k]? = some i → i.labelName? = some l → labels.lookup l = some (pc + k)

theorem Placed.append {pc : Nat} {is is' : List Instr} (h : Placed labels symbols code pc (is ++ is')) :
    Placed labels symbols code pc is ∧ Placed labels symbols code (pc + is.length) is' := by
  obtain ⟨hleft, hright⟩ := codeAt_append.mp h.code
  refine ⟨⟨hleft, fun k i l hk => h.lookup k i l ?_⟩, ⟨hright, fun k i l hk => ?_⟩⟩
  · rw [List.getElem?_append_left (List.getElem?_eq_some_iff.mp hk).1, hk]
  · rw [Nat.add_assoc]
    exact h.lookup _ i l
      (by rw [List.getElem?_append_right (Nat.le_add_right _ _), Nat.add_sub_cancel_left, hk])

theorem Image.load_placed (hload : Image.load a = .ok image) :
    ∃ labels items cursor, layoutData dataBase a.data = .ok (items, cursor) ∧
      labels.lookup Library.start = some image.start ∧
      ∀ routine name, routine <:+: a.text → routine.head? = some (Instr.label name) →
        ∃ pc, Placed labels (items.map fun item => (item.1.name, item.2)).reverse image.code pc routine ∧
          ∀ s : Machine, s.atLabel image.code name → s.pc = pc := by
  obtain ⟨labels, items, cursor, -, -, memory, start, hlabels, hitems, -, -, -, hstart, rfl⟩ :=
    Image.load_eq_ok_iff.mp hload
  refine ⟨labels, items, cursor, hitems, hstart, fun routine name hin hname => ?_⟩
  generalize hsymbols : (items.map fun item => (item.1.name, item.2)).reverse = symbols
  generalize hcode : (a.text.map (resolve labels symbols)).toArray = code
  have htext : Placed labels symbols code 0 a.text := by
    refine ⟨hcode ▸ codeAt_map labels symbols a.text, fun k i l hk hl => ?_⟩
    rw [(lookup_labelTable hlabels l).2 k i hk hl]
  obtain ⟨before, behind, heq⟩ := hin
  rw [← heq] at htext
  -- the routine is what is left of the text between what comes before and behind it
  have hplaced := htext.append.1.append.2
  rw [Nat.zero_add] at hplaced
  refine ⟨before.length, hplaced, fun s hs => ?_⟩
  have hplace := hplaced.lookup 0 _ name (List.head?_eq_getElem? ▸ hname) rfl
  rw [← hcode] at hs
  exact Option.some.inj ((lookup_of_atLabel hlabels hs).symm.trans hplace)

theorem lookup_heap (h : layoutData dataBase ((Assembly.ofHeap heapSize).data ++ rest) = .ok (items, cursor))
    (hrest : name ∉ rest.map Datum.name) :
    (items.map fun item => (item.1.name, item.2)).reverse.lookup name =
      [(heapTopName, heapTopAddress heapSize), (heapName, dataBase)].lookup name := by
  have hitems := layoutData_items h
  obtain ⟨-, placed, rfl⟩ := layoutData_heap h
  have hplaced : placed.map Prod.fst = rest := (List.cons_eq_cons.mp (List.cons_eq_cons.mp hitems).2).2
  have hnone : (placed.map fun item => (item.1.name, item.2)).reverse.lookup name = none := by
    refine List.lookup_eq_none_iff.mpr fun p hp => ?_
    rw [List.mem_reverse, List.mem_map] at hp
    obtain ⟨item, hitem, rfl⟩ := hp
    rw [bne_iff_ne]
    intro heq
    exact hrest (heq ▸ hplaced ▸ List.mem_map_of_mem (List.mem_map_of_mem hitem))
  rw [List.map_cons, List.map_cons, List.reverse_cons, List.reverse_cons, List.append_assoc,
    List.lookup_append, hnone]
  rfl

theorem Image.load_links {main : String} (rest : List Datum) (h : Image.load a = .ok image)
    (hentry : Asm.Routine.entry main <+: a.text) (hlibrary : Asm.Routine.all <:+: a.text)
    (hdata : a.data = (Assembly.ofHeap heapSize).data ++ rest)
    (hrest : heapName ∉ rest.map Datum.name ∧ heapTopName ∉ rest.map Datum.name) :
    ∃ labels symbols, image.Links heapSize labels symbols := by
  obtain ⟨labels, items, cursor, hitems, hstart, hplaced⟩ := Image.load_placed h
  rw [hdata] at hitems
  obtain ⟨pc, hentry, -⟩ := hplaced _ _ hentry.isInfix rfl
  obtain ⟨pc', hmalloc, hpc⟩ := hplaced _ _ (malloc_first.isInfix.trans hlibrary) rfl
  cases hstart.symm.trans (hentry.lookup 0 _ _ rfl rfl)
  exact ⟨labels, _, ⟨main, hentry.code⟩, fun s hs => hpc s hs ▸ hmalloc.code, lookup_heap hitems hrest.1,
    lookup_heap hitems hrest.2, (layoutData_heap hitems).1⟩

end Loading

section Runs

variable {labels : List (String × Nat)} {symbols : List (String × UInt32)} {image : Image} {heapSize : UInt32}
  {stdin : Array UInt8} {s s' t : Machine} {total : Nat}

/-- The block lies in the heap. -/
def Block.InHeap (heapSize : UInt32) (b : Block) : Prop :=
  dataBase ≤ b.address ∧ b.address.toNat + b.size.toNat ≤ dataBase.toNat + heapSize.toNat

def totalBytes (blocks : List Block) : Nat := (blocks.map (·.size.toNat)).sum

/-- The blocks lie one behind the other from a number of bytes behind the start of the heap on. -/
def Consecutive : Nat → List Block → Prop
  | _, [] => True
  | total, b :: blocks =>
    b.address = UInt32.ofNat (dataBase.toNat + total) ∧ Consecutive (total + b.size.toNat) blocks

/-- The bytes of the heap that were given out end at the address in the cell. -/
structure Free (heapSize : UInt32) (total : Nat) (s : Machine) : Prop where
  mapped : s.Mapped (heapTopAddress heapSize).toInt32 4
  word : s.memory.word (heapTopAddress heapSize).toNat = (UInt32.ofNat (dataBase.toNat + total)).toInt32

theorem Consecutive.inHeap_iff (h : Consecutive total blocks) (htotal : total ≤ heapSize.toNat)
    (hlt : dataBase.toNat + heapSize.toNat < UInt32.size) :
    (∀ b ∈ blocks, b.InHeap heapSize) ↔ total + totalBytes blocks ≤ heapSize.toNat := by
  induction blocks generalizing total with
  | nil => simpa [totalBytes] using htotal
  | cons b blocks ih =>
    obtain ⟨haddress, h⟩ := h
    have hvalue : b.address.toNat = dataBase.toNat + total := by
      rw [haddress, UInt32.toNat_ofNat_of_lt' (by omega)]
    have hfirst : b.InHeap heapSize ↔ total + b.size.toNat ≤ heapSize.toNat := by
      rw [Block.InHeap, UInt32.le_iff_toNat_le, hvalue]
      omega
    have hsum : totalBytes (b :: blocks) = b.size.toNat + totalBytes blocks := List.sum_cons
    rw [List.forall_mem_cons, hfirst, hsum, ← Nat.add_assoc]
    constructor
    · rintro ⟨hle, hrest⟩
      exact (ih h hle).mp hrest
    · intro hle
      have hle' : total + b.size.toNat ≤ heapSize.toNat := by omega
      exact ⟨hle', (ih h hle').mpr hle⟩

theorem Free.step (h : s.Free heapSize total) (hstep : s.step code stdin = .next s')
    (hkept : s'.memory.word (heapTopAddress heapSize).toNat = s.memory.word (heapTopAddress heapSize).toNat) :
    s'.Free heapSize total := ⟨h.mapped.of_memory (kept_of_step hstep).size rfl, hkept.trans h.word⟩

theorem Image.Links.free_malloc (hlinks : image.Links heapSize labels symbols) (stdin : Array UInt8)
    (h : s.Free heapSize total) (hat : s.atLabel image.code Library.malloc) :
    ∃ s', s.after image.code stdin mallocSteps = some s' ∧
      (s'.read .a0).toUInt32 = UInt32.ofNat (dataBase.toNat + total) ∧
      s'.Free heapSize (total + (s.read .a0).toUInt32.toNat) ∧
      (0 ≤ s.read .ra → s'.step image.code stdin = .next { s' with pc := (s.read .ra).toInt.toNat }) := by
  obtain ⟨s', hafter, hret, haddress, hmemory, hregs⟩ :=
    malloc_after stdin (hlinks.malloc s hat) hlinks.heapTop h.mapped
  refine ⟨s', hafter, ?_, ⟨h.mapped.of_memory ?_ rfl, ?_⟩, fun hra => ?_⟩
  · rw [haddress, h.word, UInt32.toUInt32_toInt32]
  · rw [hmemory, Memory.size_setWord]
  · have hsum : UInt32.ofNat (dataBase.toNat + (total + (s.read .a0).toUInt32.toNat)) =
        UInt32.ofNat (dataBase.toNat + total) + (s.read .a0).toUInt32 := by
      rw [← Nat.add_assoc, UInt32.ofNat_add, UInt32.ofNat_toNat]
    rw [hmemory, Memory.word_setWord, h.word, hsum, UInt32.toInt32_add]
    rfl
  · rw [← hregs .ra (by decide)] at hra ⊢
    exact hret.step.trans (exec_ret hra)

theorem Image.Links.follow_free (hlinks : image.Links heapSize labels symbols) (h : s.Free heapSize total)
    (hfollow : s.follow image.code stdin (heapTopAddress heapSize).toNat n = some (blocks, t)) :
    Consecutive total blocks ∧ t.Free heapSize (total + totalBytes blocks) := by
  induction n generalizing s total blocks with
  | zero =>
    cases hfollow
    exact ⟨trivial, h⟩
  | succ n ih =>
    by_cases hat : s.atLabel image.code Library.malloc
    · obtain ⟨s', rest, hafter, hrest, rfl⟩ := follow_atLabel hat hfollow
      obtain ⟨s'', hafter', haddress, hfree, -⟩ := hlinks.free_malloc stdin h hat
      cases hafter.symm.trans hafter'
      obtain ⟨hconsecutive, hend⟩ := ih hfree hrest
      rw [Nat.add_assoc] at hend
      exact ⟨⟨haddress, hconsecutive⟩, hend⟩
    · obtain ⟨s', hafter, hkept, hrest⟩ := follow_of_not_atLabel hat hfollow
      exact ih (h.step (step_of_after_one hafter) hkept) hrest

/-- The lines at the start of a program that set up the heap. -/
def startSteps : Nat := 4

theorem Image.Links.free_start (hlinks : image.Links heapSize labels symbols)
    (h : (ofImage image).after image.code stdin startSteps = some s) : s.Free heapSize 0 := by
  obtain ⟨main, h₀⟩ := hlinks.start
  have hpc : (ofImage image).pc = image.start := pc_write _ _ _
  rw [← hpc] at h₀
  have hpassage : Passage labels symbols stdin ((Asm.Routine.entry main).take 3) (ofImage image).view _ :=
    .label <| .note <| .la hlinks.heap <| .la hlinks.heapTop .nil
  have hparts : Asm.Routine.entry main = (Asm.Routine.entry main).take 3 ++ (Asm.Routine.entry main).drop 3 :=
    rfl
  rw [hparts] at h₀
  obtain ⟨hlines, hstore⟩ := codeAt_append.mp h₀
  obtain ⟨t, hafter, hpc, hview⟩ := hpassage _ _ hlines rfl
  have hread (r : Reg) : t.read r = _ := congrFun (congrArg View.regs hview) r
  rw [← hpc] at hstore
  have hone : t.after image.code stdin 1 = some s := (after_add hafter).symm.trans h
  obtain ⟨hmapped, rfl⟩ := exec_sw_eq_next (hstore.step.symm.trans (step_of_after_one hone))
  have haddress : t.read .t1 + 0 = (heapTopAddress heapSize).toInt32 := by rw [hread, Int32.add_zero]; rfl
  refine ⟨hmapped.of_memory (Memory.size_setWord _ _ _) haddress.symm, ?_⟩
  change (t.memory.setWord (t.read .t1 + 0).toUInt32.toNat (t.read .t0)).word _ = _
  rw [haddress, UInt32.toUInt32_toInt32, Memory.word_setWord, hread]
  rfl

end Runs

end Machine

namespace Options

open Machine

variable {options : Options} {p : Program}

/-- In a run of a compiled program, up to a step that changes the cell behind the heap elsewhere, the
allocator gives out blocks one behind the other from the start of the heap on. They all lie in the heap iff
together they are no larger than it, and the allocator returns to its caller in any case. -/
theorem allocated_blocks {r : Compiled} {image : Image} {stdin : Array UInt8} {s₀ s : Machine} {n : Nat}
    {blocks : List Block} (hr : options.compile p = .ok r) (hload : Image.load r.asm = .ok image)
    (hstart : (Machine.ofImage image).after image.code stdin startSteps = some s₀)
    (hfollow : s₀.follow image.code stdin (heapTopAddress options.heapSize).toNat n = some (blocks, s)) :
    (∃ k, (Machine.ofImage image).after image.code stdin k = some s) ∧ Consecutive 0 blocks ∧
      ((∀ b ∈ blocks, b.InHeap options.heapSize) ↔ totalBytes blocks ≤ options.heapSize.toNat) ∧
      (s.atLabel image.code Library.malloc → ∃ s', s.after image.code stdin mallocSteps = some s' ∧
        (0 ≤ s.read .ra → s'.step image.code stdin = .next { s' with pc := (s.read .ra).toInt.toNat })) := by
  obtain ⟨m, c, bs, q, hmodels, hbodies, hfst, -, hasm⟩ := exists_bodies_of_compile hr
  obtain ⟨code, hcode, -, -⟩ := Asm.ofModule_text hmodels hbodies (by rw [hfst]; rfl) hasm
  rw [hcode] at hload
  obtain ⟨labels, symbols, hlinks⟩ :=
    Image.load_links Asm.Routine.data hload ⟨_, (List.append_assoc _ _ _).symm⟩
    (List.suffix_append _ _).isInfix rfl (by decide +kernel)
  obtain ⟨hconsecutive, hfree⟩ := hlinks.follow_free (hlinks.free_start hstart) hfollow
  obtain ⟨k, hk⟩ := exists_after_of_follow hfollow
  refine ⟨⟨_, (after_add hstart).trans hk⟩, hconsecutive, ?_, fun hat => ?_⟩
  · rw [hconsecutive.inHeap_iff (Nat.zero_le _) hlinks.heap_lt, Nat.zero_add]
  · obtain ⟨s', hafter, -, -, hreturn⟩ := hlinks.free_malloc stdin hfree hat
    exact ⟨s', hafter, hreturn⟩

/-- Two strings that each fill a heap of eight bytes, and then `print(True)`. -/
def crowdedHeap : Program where
  decls := []
  stmts := [.expr (.ofStr "a"), .expr (.ofStr "b"), .print (.ofBool true)]

/-- The second string lies where the text of `True` is, and nothing stops the program. -/
theorem allocated_crowdedHeap :
    ∃ r image s₀ s, ({ heapSize := 8, optLevel := 0 } : Options).compile crowdedHeap = .ok r ∧
      Image.load r.asm = .ok image ∧
      (Machine.ofImage image).after image.code #[] startSteps = some s₀ ∧
      s₀.follow image.code #[] (heapTopAddress 8).toNat 27 = some ([⟨0x1000, 8⟩, ⟨0x1008, 8⟩], s) ∧
      (¬ ∀ b ∈ [⟨0x1000, 8⟩, ⟨0x1008, 8⟩], Block.InHeap 8 b) ∧
        r.asm.run #[] 200 = .ok ⟨"b\x00\x00\x00\n", 0⟩ := by
  have hcheck : ((({ heapSize := 8, optLevel := 0 } : Options).compile crowdedHeap).toOption.bind fun r =>
      (Image.load r.asm).toOption.bind fun image =>
      ((Machine.ofImage image).after image.code #[] startSteps).bind fun s₀ =>
      (s₀.follow image.code #[] (heapTopAddress 8).toNat 27).bind fun found =>
      (r.asm.run #[] 200).toOption.map fun outcome =>
        decide (found.1 = [⟨0x1000, 8⟩, ⟨0x1008, 8⟩] ∧ outcome = ⟨"b\x00\x00\x00\n", 0⟩)) =
          some true := by decide +kernel
  simp only [Option.bind_eq_some_iff, Option.map_eq_some_iff, decide_eq_true_eq] at hcheck
  obtain ⟨r, hr, image, hload, s₀, hstart, ⟨blocks, s⟩, hfollow, outcome, hrun, rfl, rfl⟩ := hcheck
  have hr := Outcome.eq_ok_of_toOption hr
  have hload := Outcome.eq_ok_of_toOption hload
  obtain ⟨-, -, hfits, -⟩ := allocated_blocks hr hload hstart hfollow
  exact ⟨r, image, s₀, s, hr, hload, hstart, hfollow, fun hall => absurd (hfits.mp hall) (by decide),
    Outcome.eq_ok_of_toOption hrun⟩

end Options

end Choco
