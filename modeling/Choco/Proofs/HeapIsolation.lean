import Choco.Proofs.InputLines
import Choco.Proofs.JoinedLists

namespace Choco

open Asm (Assembly Datum heapName)

/-- A program with the library and a heap that starts with setting up the heap. -/
structure Asm.Assembly.Bootable (a : Assembly) (heapSize : UInt32) : Prop extends a.Equipped heapSize where
  entry : ∃ main, Routine.entry main <+: a.text
  heap : heapName ∉ a.data.tail.map Datum.name

namespace Machine

/-- The words of the string that is read next. -/
def nextWords (stdin : Array UInt8) (s : Machine) : List Int32 :=
  (Input.stripNewline (Input.lineAt stdin s.stdinPos Input.lineLimit)).toList.map byteWord

/-- The machine calls a routine that allocates a block of `size` bytes; `made` is what the routine will put
there. Objects to join are among `objects`. -/
inductive HeapCall (image : Image) (heapSize : UInt32) (stdin : Array UInt8)
    (objects : List (Int32 × List Int32)) (s : Machine) :
    Nat → Option (List Int32) → Prop
  | malloc {n : Nat} : s.atLabel image.code Library.malloc → (s.read .a0).toInt = (4 * n : Nat) →
      HeapCall image heapSize stdin objects s (4 * n) none
  | input {ws : List Int32} : s.atLabel image.code Library.input → s.HasFrame heapSize 1032 →
      ws = s.nextWords stdin → HeapCall image heapSize stdin objects s (4 + 4 * ws.length) (some ws)
  | concat {xs ys : List Int32} :
      s.atLabel image.code Library.concat → s.HasFrame heapSize 16 → (s.read .a0, xs) ∈ objects →
      (s.read .a1, ys) ∈ objects → HeapCall image heapSize stdin objects s (4 + 4 * (xs ++ ys).length)
        (some (xs ++ ys))

/-- The program goes on from `t` to `s`. It leaves alone the cell behind the heap and the objects that were
returned; it may put others into the bytes that were given out. -/
structure Resumes (image : Image) (heapSize : UInt32) (stdin : Array UInt8) (total : Nat)
    (objects : List (Int32 × List Int32)) (t : Machine) (objects' : List (Int32 × List Int32)) (s : Machine) :
    Prop where
  reaches : Reaches image.code stdin t s
  cell : s.memory.word (heapTopAddress heapSize).toNat = t.memory.word (heapTopAddress heapSize).toNat
  known : objects ⊆ objects'
  present : ∀ o ∈ objects', s.HeapObject total o.1 o.2

/-- A call in `s` has returned in `u` with this block. -/
structure Granted (heapSize : UInt32) (blocks : List Block) (objects : List (Int32 × List Int32)) (size : Nat)
    (made : Option (List Int32)) (s u : Machine) (block : Block) : Prop where
  address : (u.read .a0).toUInt32 = block.address
  size : block.size.toNat = size
  packed : block.address.toNat = dataBase.toNat + totalBytes blocks
  aligned : block.address.toNat % 4 = 0
  inHeap : block.InHeap heapSize
  apart : ∀ b ∈ blocks, b.address.toNat + b.size.toNat ≤ block.address.toNat
  fresh : ∀ ws ∈ made, u.memory.Object block.address.toNat ws
  kept : ∀ o ∈ objects, u.memory.Object o.1.toUInt32.toNat o.2
  bytes : ∀ b ∈ blocks, ∀ i, b.address.toNat ≤ i → i < b.address.toNat + b.size.toNat →
    u.memory.get i = s.memory.get i

/-- However the program goes on from `t`, the next `k` calls for which the heap has room return blocks apart
from these and from each other, and all objects stay what they are. -/
def Isolated (image : Image) (heapSize : UInt32) (stdin : Array UInt8) :
    Nat → List Block → List (Int32 × List Int32) → Machine → Prop
  | 0, _, _, _ => True
  | k + 1, blocks, objects, t =>
    ∀ {s objects' size made}, Resumes image heapSize stdin (totalBytes blocks) objects t objects' s →
      HeapCall image heapSize stdin objects' s size made → 0 ≤ s.read .ra →
        totalBytes blocks + size ≤ heapSize.toNat → ∃ u block, Returned image.code stdin s u ∧
          Granted heapSize blocks objects' size made s u block ∧
          Isolated image heapSize stdin k (block :: blocks) (made.toList.map (u.read .a0, ·) ++ objects') u

structure Grants (heapSize : UInt32) (total size : Nat) (made : Option (List Int32)) (s u : Machine) :
    Prop where
  address : u.read .a0 = Int32.ofNat (dataBase.toNat + total)
  free : u.Free heapSize (total + size)
  fresh : ∀ ws ∈ made, u.memory.Object (dataBase.toNat + total) ws
  size : u.memory.size = s.memory.size
  get : ∀ i, i < dataBase.toNat + total → u.memory.get i = s.memory.get i

section Calls

variable {a : Assembly} {image : Image} {heapSize : UInt32} {stdin : Array UInt8} {s t u : Machine}
  {total size length : Nat} {ws : List Int32} {made : Option (List Int32)}
  {objects objects' : List (Int32 × List Int32)} {blocks : List Block}

theorem Gains.grants (h : Gains heapSize total length ws s u) :
    Grants heapSize total (4 + 4 * ws.length) (some ws) s u where
  address := h.address
  free := h.free
  fresh _ hw := Option.mem_some.mp hw ▸ h.object
  size := h.size
  get i hi := h.get i (.inl hi)

theorem malloc_grants (hload : Image.load a = .ok image) (ha : a.Equipped heapSize) (stdin : Array UInt8)
    (hs : image.Hosts s) (hat : s.atLabel image.code Library.malloc) (hra : 0 ≤ s.read .ra)
    (hfree : s.Free heapSize total) (hsize : s.read .a0 = Int32.ofNat size)
    (hroom : total + size ≤ heapSize.toNat) :
    ∃ u, Returned image.code stdin s u ∧ Grants heapSize total size none s u := by
  obtain ⟨hheap, labels, symbols, -, hcell, -, hplaced⟩ := Image.load_equipped hload ha
  obtain ⟨pc, hmalloc, hpc⟩ := hplaced _ _ malloc_first.isInfix rfl
  have hend := hfree.heap_le hheap
  obtain ⟨v, hleads, hkeeps, ha0, hmemory⟩ := malloc_leads stdin (v := s.view) hmalloc.code hcell
    (hfree.covers (hs.size ▸ (Image.size_of_load hload).le)) hra
  obtain ⟨u, hreaches, hreturn, rfl⟩ := hleads s (hpc s hat) rfl
  have hword : s.memory.word (heapTopAddress heapSize).toNat = Int32.ofNat (dataBase.toNat + total) := by
    rw [hfree.word, UInt32.toInt32_ofNat']
  have hmemory : u.memory = s.memory.setWord (heapTopAddress heapSize).toNat
      (Int32.ofNat (dataBase.toNat + (total + size))) := by
    rw [← Nat.add_assoc, Int32.ofNat_add (dataBase.toNat + total), ← hword, ← hsize]
    exact hmemory
  refine ⟨u, ⟨hreaches, hreturn, fun r hr => hkeeps.regs r fun hmem => ?_⟩, ha0.trans hword,
    ⟨hfree.mapped.of_memory ?_ rfl, ?_⟩, by simp, ?_, fun i hi => ?_⟩
  · revert hr
    decide +revert
  · rw [hmemory, Memory.size_setWord]
  · rw [hmemory, Memory.word_setWord, UInt32.toInt32_ofNat']
  · rw [hmemory, Memory.size_setWord]
  · rw [hmemory, Memory.get_setWord_of_disjoint _ _ _ _ (by omega)]

theorem HeapCall.grants (hcall : HeapCall image heapSize stdin objects s size made)
    (hload : Image.load a = .ok image) (ha : a.Equipped heapSize) (hcode : image.Addressable)
    (hs : image.Hosts s) (hra : 0 ≤ s.read .ra) (hfree : s.Free heapSize total)
    (hobjects : ∀ o ∈ objects, s.HeapObject total o.1 o.2) (hroom : total + size ≤ heapSize.toNat) :
    ∃ u, Returned image.code stdin s u ∧ Grants heapSize total size made s u := by
  cases hcall with
  | malloc hat hsize =>
    refine malloc_grants hload ha stdin hs hat hra hfree ?_ hroom
    rw [← Int32.ofInt_toInt (s.read .a0), hsize]
    rfl
  | input hat hframe hws =>
    subst hws
    rw [nextWords, List.length_map, Array.length_toList] at hroom
    have hcall : InputCall image heapSize ({ stdin } : Eval.Config).stdin total s :=
      ⟨hs, hat, hra, hfree, hroom, hframe⟩
    have hpos : s.stdinPos = ({ stdinPos := s.stdinPos } : Eval.State).stdinPos := rfl
    obtain ⟨u, st', hsame, -⟩ := exists_readsSame hload ha hcode hcall hpos rfl
    exact ⟨u, hsame.returned, hsame.gains.grants⟩
  | concat hat hframe hx hy =>
    obtain ⟨u, hreturned, hgains, -⟩ :=
      concat_gains hload ha hcode stdin hs hat hra (hobjects _ hx) (hobjects _ hy) hfree hroom hframe
    exact ⟨u, hreturned, hgains.grants⟩

theorem HeapCall.dvd (hcall : HeapCall image heapSize stdin objects s size made) : 4 ∣ size := by
  cases hcall <;> omega

structure Settled (image : Image) (heapSize : UInt32) (blocks : List Block) (t : Machine) : Prop where
  hosts : image.Hosts t
  free : t.Free heapSize (totalBytes blocks)
  aligned : 4 ∣ totalBytes blocks
  below : ∀ b ∈ blocks, b.address.toNat + b.size.toNat ≤ dataBase.toNat + totalBytes blocks

theorem Settled.resumes (h : Settled image heapSize blocks t)
    (hs : Resumes image heapSize stdin (totalBytes blocks) objects t objects' s) :
    Settled image heapSize blocks s where
  hosts := h.hosts.reaches hs.reaches
  free := ⟨h.free.mapped.of_memory ((h.hosts.reaches hs.reaches).size.trans h.hosts.size.symm) rfl,
    hs.cell.trans h.free.word⟩
  aligned := h.aligned
  below := h.below

section Step

variable {block : Block} (h : Settled image heapSize blocks s)
  (hheap : dataBase.toNat + heapSize.toNat < UInt32.size) (hroom : totalBytes blocks + size ≤ heapSize.toNat)
  (hsize : 4 ∣ size) (hgrants : Grants heapSize (totalBytes blocks) size made s u)

def nextBlock (blocks : List Block) (size : Nat) : Block :=
  ⟨UInt32.ofNat (dataBase.toNat + totalBytes blocks), UInt32.ofNat size⟩

include hheap hroom in
theorem toNat_nextBlock : (nextBlock blocks size).address.toNat = dataBase.toNat + totalBytes blocks ∧
    (nextBlock blocks size).size.toNat = size :=
  ⟨UInt32.toNat_ofNat_of_lt' (by omega), UInt32.toNat_ofNat_of_lt' (by omega)⟩

include h hheap hroom hgrants in
theorem Settled.granted (hobjects : ∀ o ∈ objects, s.HeapObject (totalBytes blocks) o.1 o.2) :
    Granted heapSize blocks objects size made s u (nextBlock blocks size) := by
  obtain ⟨haddress, hbytes⟩ := toNat_nextBlock hheap hroom
  have haligned := h.aligned
  exact {
    address := by rw [hgrants.address, Int32.toUInt32_ofNat']; rfl
    size := hbytes
    packed := haddress
    aligned := by rw [haddress, show dataBase.toNat = 4 * 1024 from rfl]; omega
    inHeap := ⟨UInt32.le_iff_toNat_le.mpr (haddress ▸ Nat.le_add_right _ _), by rw [haddress, hbytes]; omega⟩
    apart := fun b hb => haddress ▸ h.below b hb
    fresh := haddress ▸ hgrants.fresh
    kept := fun o ho => (hobjects o ho).object.congr hgrants.size fun i _ hi =>
      hgrants.get i (Nat.lt_of_lt_of_le hi (hobjects o ho).given)
    bytes := fun b hb i _ hi => hgrants.get i (Nat.lt_of_lt_of_le hi (h.below b hb)) }

include h hheap hroom hsize hgrants in
theorem Settled.next (hu : image.Hosts u) : Settled image heapSize (nextBlock blocks size :: blocks) u := by
  obtain ⟨haddress, hbytes⟩ := toNat_nextBlock hheap hroom
  have hsum : totalBytes (nextBlock blocks size :: blocks) = (nextBlock blocks size).size.toNat + totalBytes
      blocks := List.sum_cons
  have htotal : totalBytes (nextBlock blocks size :: blocks) = totalBytes blocks + size := by
    rw [hsum, hbytes, Nat.add_comm]
  refine ⟨hu, htotal ▸ hgrants.free, htotal ▸ Nat.dvd_add h.aligned hsize, fun b hb => ?_⟩
  rw [htotal]
  obtain rfl | hb := List.mem_cons.mp hb
  · omega
  · have hbelow := h.below b hb
    omega

end Step

theorem Settled.isolated (h : Settled image heapSize blocks t) (hload : Image.load a = .ok image)
    (ha : a.Equipped heapSize) (hcode : image.Addressable) (k : Nat) (objects : List (Int32 × List Int32)) :
    Isolated image heapSize stdin k blocks objects t := by
  induction k generalizing blocks objects t with
  | zero => trivial
  | succ k ih =>
    intro s objects' size made hresumes hcall hra hroom
    have hs := h.resumes hresumes
    have hheap := (Image.load_equipped hload ha).1
    obtain ⟨u, hreturned, hgrants⟩ := hcall.grants hload ha hcode hs.hosts hra hs.free hresumes.present hroom
    exact ⟨u, nextBlock blocks size, hreturned, hs.granted hheap hroom hgrants hresumes.present,
      ih (hs.next hheap hroom hcall.dvd hgrants (hs.hosts.reaches hreturned.reaches)) _⟩

end Calls

/-- After a program has set up its heap, all calls that allocate on it, in any order and number, return blocks
of their own. -/
theorem heap_objects_isolated {a : Assembly} {image : Image} {heapSize : UInt32} {stdin : Array UInt8}
    {t : Machine} (hload : Image.load a = .ok image) (ha : a.Bootable heapSize) (hcode : image.Addressable)
    (hstart : (ofImage image).after image.code stdin startSteps = some t) (k : Nat) :
    Isolated image heapSize stdin k [] [] t := by
  obtain ⟨main, hentry⟩ := ha.entry
  obtain ⟨rest, hdata, hrest⟩ := ha.data
  have hheap := ha.heap
  rw [hdata] at hheap
  obtain ⟨labels, symbols, hlinks⟩ := Image.load_links _ hload hentry ha.library hdata
    ⟨fun hmem => hheap (List.mem_cons_of_mem _ hmem), hrest⟩
  have hsettled : Settled image heapSize [] t :=
    ⟨(Image.hosts_ofImage image).reaches (reaches_of_after hstart), hlinks.free_start hstart, Nat.dvd_zero 4,
      fun _ hb => by cases hb⟩
  exact hsettled.isolated hload ha.toEquipped hcode k []

/-- Between two calls: the result of the first one becomes both arguments of the second. -/
theorem after_handover {code : Array Line} {u : Machine} {name : String} {target : Nat} (stdin : Array UInt8)
    (hmv : code[u.pc]? = some (resolve [] [] (.mv .a1 .a0)))
    (hjal : code[u.pc + 1]? = some (resolve [(name, target)] [] (.jal name))) :
    ∃ s, u.after code stdin 2 = some s ∧ s.pc = target ∧ s.read .a1 = u.read .a0 ∧
      s.read .ra = Int32.ofNat (u.pc + 2) ∧ (∀ r, r ≠ .a1 → r ≠ .ra → s.read r = u.read r) ∧
      s.memory = u.memory := by
  let u₁ := u.advance (some .a1) (u.read .a0)
  let s := { u₁.advance (some .ra) (Int32.ofNat (u₁.pc + 1)) with pc := target }
  have hpc : u₁.pc = u.pc + 1 := pc_advance ..
  have hstep : u.step code stdin = .next u₁ := by
    rw [step, hmv]
    rfl
  have hstep₁ : u₁.step code stdin = .next s := by
    rw [step, hpc, hjal]
    exact exec_jal List.lookup_cons_self
  have hread (r : Asm.Reg) : s.read r =
      if r = .ra then Int32.ofNat (u.pc + 2) else if r = .a1 then u.read .a0 else u.read r := by
    change (u₁.advance (some .ra) _).read r = _
    rw [read_advance _ _ _ _ (by decide), read_advance _ _ _ _ (by decide), hpc]
  have hmemory : s.memory = u.memory := (memory_advance ..).trans (memory_advance ..)
  refine ⟨s, ?_, rfl, hread .a1, hread .ra, fun r ha1 hra => ?_, hmemory⟩
  · rw [after_succ hstep, after_succ hstep₁]
    rfl
  · rw [hread, if_neg hra, if_neg ha1]

/-- A program that reads a line and joins it with itself. -/
def doubledName : Assembly :=
  { Assembly.ofHeap 32 with
    text := Asm.Routine.entry "main" ++
      [Asm.Instr.label "main", .jal Library.input, .mv .a1 .a0, .jal Library.concat] }.withLibrary

/-- Two letters take twelve bytes, and twice as many of them the other twenty bytes of the heap. -/
theorem isolated_doubledName : ∃ image t s u s' u', Image.load doubledName = .ok image ∧
    (ofImage image).after image.code #[72, 105, 10] startSteps = some t ∧
    t.after image.code #[72, 105, 10] 3 = some s ∧ s.atLabel image.code Library.input ∧
    Returned image.code #[72, 105, 10] s u ∧
    u.after image.code #[72, 105, 10] 2 = some s' ∧ s'.atLabel image.code Library.concat ∧
    Returned image.code #[72, 105, 10] s' u' ∧
    u'.memory.Object 0x1000 [72, 105] ∧ u'.memory.Object 0x100c [72, 105, 72, 105] := by
  have hcheck : ((Image.load doubledName).toOption.bind fun image =>
      ((ofImage image).after image.code #[72, 105, 10] startSteps).bind fun t =>
      (t.after image.code #[72, 105, 10] 3).map fun s =>
        decide ((image.code.size ≤ 2147483648 ∧ image.code[10]? = some (resolve [] [] (.mv .a1 .a0)) ∧
          image.code[11]? = some (resolve [(Library.concat, 128)] [] (.jal Library.concat)) ∧
          (image.code[128]?.bind (·.instr.labelName?)) = some Library.concat) ∧
          s.atLabel image.code Library.input ∧ s.read .ra = 10 ∧
          s.memory.word (heapTopAddress 32).toNat = t.memory.word (heapTopAddress 32).toNat ∧
          (dataBase ≤ (s.read .sp - 1032).toUInt32 ∧
            (s.read .sp - 1032).toUInt32.toNat + 1032 ≤ s.memory.size ∧
            (heapTopAddress 32).toNat + 4 ≤ s.frameAt 1032) ∧
          (dataBase ≤ (s.read .sp - 16).toUInt32 ∧ (s.read .sp - 16).toUInt32.toNat + 16 ≤ s.memory.size ∧
            (heapTopAddress 32).toNat + 4 ≤ s.frameAt 16) ∧
          s.nextWords #[72, 105, 10] = [72, 105])) = some true := by
    decide +kernel
  simp only [Option.bind_eq_some_iff, Option.map_eq_some_iff, decide_eq_true_eq] at hcheck
  obtain ⟨image, hload, t, hstart, s, hafter, ⟨hcode, hmv, hjal, hlabel⟩, hat, hra, hcell,
    ⟨hlow, hhigh, hapart⟩, ⟨hlow', hhigh', hapart'⟩, hwords⟩ := hcheck
  have hload := Outcome.eq_ok_of_toOption hload
  have hboot : doubledName.Bootable 32 := ⟨equipped_withLibrary 32 _ (by decide),
    ⟨"main", ⟨_, (List.append_assoc _ _ _).symm⟩⟩, by decide +kernel⟩
  obtain ⟨u, block, hreturned, hgranted, hisolated⟩ := heap_objects_isolated hload hboot hcode hstart 2
    ⟨reaches_of_after hafter, hcell, List.Subset.refl _, fun _ ho => by cases ho⟩
    (.input hat ⟨⟨hlow, hhigh⟩, .inr hapart⟩ hwords.symm) (by rw [hra]; decide) (by decide)
  have hpc : u.pc = 10 := hreturned.pc.trans (by rw [hra]; rfl)
  rw [← hpc] at hmv
  rw [show 11 = u.pc + 1 by rw [hpc]] at hjal
  obtain ⟨s', hafter', hpc', ha1, hra', hread, hmemory⟩ := after_handover #[72, 105, 10] hmv hjal
  have ha0 : s'.read .a0 = u.read .a0 := hread .a0 (by decide) (by decide)
  have hsp : s'.read .sp = s.read .sp := (hread .sp (by decide) (by decide)).trans (hreturned.regs .sp rfl)
  have hhosts : image.Hosts s := (Image.hosts_ofImage image).reaches
    ((reaches_of_after hstart).trans (reaches_of_after hafter))
  have hsize : s'.memory.size = s.memory.size := by
    rw [hmemory, (hhosts.reaches hreturned.reaches).size, hhosts.size]
  have hbytes : totalBytes [block] = 12 := hgranted.size
  have hobject : s'.HeapObject (totalBytes [block]) (u.read .a0) [72, 105] := by
    refine ⟨?_, ?_⟩
    · rw [hmemory, hgranted.address]
      exact hgranted.fresh _ rfl
    · rw [hgranted.address, hgranted.packed, hbytes]
      decide
  have hframe : s'.HasFrame 32 16 := by
    refine ⟨⟨?_, ?_⟩, .inr ?_⟩
    · rw [hsp]
      exact hlow'
    · rw [hsp, hsize]
      exact hhigh'
    · rw [frameAt, hsp]
      exact hapart'
  have hat' : s'.atLabel image.code Library.concat := by
    rw [← hpc'] at hlabel
    exact decide_eq_true (Option.bind_eq_some_iff.mpr hlabel)
  have hcall : HeapCall image 32 #[72, 105, 10] [(u.read .a0, [72, 105])] s' 20 (some [72, 105, 72, 105]) :=
    .concat hat' hframe (by rw [ha0]; exact List.mem_singleton_self _)
      (by rw [ha1]; exact List.mem_singleton_self _)
  obtain ⟨u', block', hreturned', hgranted', -⟩ := hisolated
    ⟨reaches_of_after hafter', by rw [hmemory], List.Subset.refl _,
      fun o ho => List.mem_singleton.mp ho ▸ hobject⟩
    hcall (by rw [hra', hpc]; decide) (by rw [hbytes]; decide)
  refine ⟨image, t, s, u, s', u', hload, hstart, hafter, hat, hreturned, hafter', hat', hreturned', ?_, ?_⟩
  · have hkept := hgranted'.kept _ (List.mem_singleton_self _)
    rwa [hgranted.address, hgranted.packed] at hkept
  · have hfresh := hgranted'.fresh _ rfl
    rwa [hgranted'.packed, hbytes] at hfresh

end Machine

end Choco
