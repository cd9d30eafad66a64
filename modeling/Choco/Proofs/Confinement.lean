import Choco.Proofs.DataLayout

namespace Choco.Machine

open Asm (Assembly Reg)

/-- What every instruction keeps of the machine and of its input. -/
structure Kept (stdin : Array UInt8) (s s' : Machine) : Prop where
  zero : s'.read .zero = s.read .zero
  size : s'.memory.size = s.memory.size
  unmapped : ∀ i, i < dataBase.toNat ∨ s.memory.size ≤ i → s'.memory.get i = s.memory.get i
  forward : s.stdinPos ≤ s'.stdinPos
  input : s.stdinPos ≤ stdin.size → s'.stdinPos ≤ stdin.size
  output : s.stdout.toList <+: s'.stdout.toList

/-- How a step may end. -/
def Step.Confined (stdin : Array UInt8) (s : Machine) : Step → Prop
  | .next s' => s.Kept stdin s'
  | .exit code s' => code = s.read .a0 ∧ s' = s
  | .fault _ s' => s.Kept stdin s' ∧ s'.memory = s.memory ∧ s'.stdout = s.stdout

variable {code : Array Line} {stdin : Array UInt8} {s s' t : Machine}

namespace Kept

theorem of_eq (hzero : s'.read .zero = s.read .zero) (hmemory : s'.memory = s.memory)
    (hpos : s'.stdinPos = s.stdinPos) (hout : s'.stdout = s.stdout) : s.Kept stdin s' where
  zero := hzero
  size := by rw [hmemory]
  unmapped i _ := by rw [hmemory]
  forward := hpos.ge
  input h := hpos.trans_le h
  output := hout ▸ List.prefix_rfl

theorem trans (h : s.Kept stdin s') (h' : s'.Kept stdin t) : s.Kept stdin t where
  zero := h'.zero.trans h.zero
  size := h'.size.trans h.size
  unmapped i hi := (h'.unmapped i (h.size ▸ hi)).trans (h.unmapped i hi)
  forward := h.forward.trans h'.forward
  input hpos := h'.input (h.input hpos)
  output := h.output.trans h'.output

theorem advance (rd : Option Reg) (w : Int32) : s.Kept stdin (s.advance rd w) := by
  cases rd with
  | none => exact .of_eq rfl rfl rfl rfl
  | some r =>
    refine .of_eq ?_ (memory_advance s r w) (stdinPos_advance s r w) (stdout_advance s r w)
    by_cases hr : r = .zero
    · subst hr
      rfl
    · rw [read_advance s r .zero w hr, if_neg (Ne.symm hr)]

/-- Bytes that are mapped are overwritten. -/
theorem write {memory : Memory} {a : Nat} {bs : List UInt8} (h : s.memory.Written a bs memory)
    (hlow : dataBase.toNat ≤ a) (hhigh : a + bs.length ≤ s.memory.size) (pc : Nat) :
    s.Kept stdin { s with memory, pc } where
  zero := rfl
  size := h.size
  unmapped i hi := h.get i (by omega)
  forward := Nat.le_refl _
  input := id
  output := List.prefix_rfl

end Kept

section Steps

theorem fail_confined (fault : MachineFault) : (s.fail fault).Confined stdin s :=
  ⟨.of_eq rfl rfl rfl rfl, rfl, rfl⟩

theorem access_confined {base offset : Int32} {length : Nat} {k : Nat → Step}
    (hk : ∀ a, dataBase.toNat ≤ a → a + length ≤ s.memory.size → (k a).Confined stdin s) :
    (s.access base offset length k).Confined stdin s := by
  unfold access
  dsimp only
  split
  next => exact fail_confined _
  next hlow =>
    split
    next hhigh => exact hk _ (UInt32.le_iff_toNat_le.mp (UInt32.not_lt.mp hlow)) hhigh
    next => exact fail_confined _

theorem jump_confined {line : Line} {k : Nat → Machine} (hk : ∀ pc, s.Kept stdin (k pc)) :
    (s.jump line k).Confined stdin s := by
  unfold jump
  split
  · exact hk _
  · exact fail_confined _
  · exact fail_confined _

theorem accessBytes_confined {base length : Int32} {negative : MachineFault} {k : Nat → Nat → Step}
    (hk : ∀ a n, dataBase.toNat ≤ a → (k a n).Confined stdin s) :
    (s.accessBytes base length negative k).Confined stdin s := by
  unfold accessBytes
  split
  next => exact fail_confined _
  next hlow =>
    split
    next => exact fail_confined _
    next => exact hk _ _ (UInt32.le_iff_toNat_le.mp (UInt32.not_lt.mp hlow))

theorem writeCall_confined : s.writeCall.Confined stdin s := by
  unfold writeCall
  split
  · exact fail_confined _
  · refine accessBytes_confined fun a n _ => ?_
    split
    · have hwrite : s.Kept stdin { s with stdout := s.stdout ++ s.memory.bytes a n } :=
        ⟨rfl, rfl, fun _ _ => rfl, Nat.le_refl _, id, by simp⟩
      exact hwrite.trans (.advance _ _)
    · exact fail_confined _

theorem size_lineAt_add_le {pos : Nat} (limit : Nat) (h : pos ≤ stdin.size) :
    pos + (Input.lineAt stdin pos limit).size ≤ stdin.size := by
  unfold Input.lineAt
  simp only [Array.size_extract]
  omega

theorem readCall_confined : (s.readCall stdin).Confined stdin s := by
  unfold readCall
  split
  · exact fail_confined _
  · refine accessBytes_confined fun a limit hlow => ?_
    have hread : s.Kept stdin { s with
                                  stdinPos := s.stdinPos + (Input.lineAt stdin s.stdinPos limit).size } :=
      ⟨rfl, rfl, fun _ _ => rfl, Nat.le_add_right _ _, size_lineAt_add_le limit, List.prefix_rfl⟩
    dsimp only
    split
    next hhigh =>
      exact (hread.trans (.write (Memory.written_setBytes _ _ _) hlow (by simpa using hhigh) _)).trans
        (.advance _ _)
    next => exact ⟨hread, rfl, rfl⟩

theorem systemCall_confined : (s.systemCall stdin).Confined stdin s := by
  unfold systemCall
  dsimp only
  split
  · exact ⟨rfl, rfl⟩
  split
  · exact writeCall_confined
  split
  · exact readCall_confined
  · exact fail_confined _

theorem exec_confined (line : Line) : (s.exec stdin line).Confined stdin s := by
  unfold exec
  dsimp only
  cases line.instr.opcode with
  | label => exact .of_eq rfl rfl rfl rfl
  | li | alu | addi | andi | slli | seqz | snez | mv => exact .advance _ _
  | la =>
    dsimp only
    split
    · exact .advance _ _
    · exact fail_confined _
    · exact fail_confined _
  | lw | lbu => exact access_confined fun _ _ _ => .advance _ _
  | sw => exact access_confined fun _ hlow hhigh => .write (Memory.written_setWord _ _ _) hlow hhigh _
  | sb => exact access_confined fun _ hlow hhigh => .write (Memory.written_set _ _ _) hlow hhigh _
  | branch =>
    dsimp only
    split
    · exact jump_confined fun _ => .of_eq rfl rfl rfl rfl
    · exact .of_eq rfl rfl rfl rfl
  | j => exact jump_confined fun _ => .of_eq rfl rfl rfl rfl
  | jal => exact jump_confined fun _ => Kept.trans (.advance _ _) (.of_eq rfl rfl rfl rfl)
  | ret =>
    dsimp only
    split
    · exact fail_confined _
    · exact .of_eq rfl rfl rfl rfl
  | ecall => exact systemCall_confined

theorem step_confined : (s.step code stdin).Confined stdin s := by
  unfold step
  split
  · exact exec_confined _
  · exact fail_confined _

theorem kept_of_step (h : s.step code stdin = .next s') : s.Kept stdin s' := by
  have hstep : (s.step code stdin).Confined stdin s := step_confined
  rwa [h] at hstep

theorem kept_of_after {n : Nat} (h : s.after code stdin n = some s') : s.Kept stdin s' := by
  induction n generalizing s with
  | zero =>
    cases h
    exact .of_eq rfl rfl rfl rfl
  | succ n ih =>
    rw [after] at h
    split at h
    next hstep => exact (kept_of_step hstep).trans (ih h)
    next => cases h
    next => cases h

end Steps

theorem read_zero_ofImage (image : Image) : (ofImage image).read .zero = 0 := by
  rw [ofImage, read_write _ _ _ _ (by decide), if_neg (by decide)]
  rfl

/-- After any number of steps of any code, register zero holds zero, memory has its size and is untouched
where nothing is mapped, and the input is read forward to its end at most. Output is only added to. The next
step continues within these bounds, ends the program as it is, or fails and leaves memory and output as they
are. -/
theorem code_confined {a : Assembly} {image : Image} (hload : Image.load a = .ok image) {n : Nat}
    (hs : (ofImage image).after image.code stdin n = some s) :
    s.read .zero = 0 ∧ s.memory.size = image.memory.size ∧
      (∀ i, i < dataBase.toNat ∨ image.memory.size ≤ i → s.memory.get i = 0) ∧ s.stdinPos ≤ stdin.size ∧
      (∀ k t, s.after image.code stdin k = some t → s.stdinPos ≤ t.stdinPos ∧
        s.stdout.toList <+: t.stdout.toList) ∧
      (s.step image.code stdin).Confined stdin s := by
  have hkept := kept_of_after hs
  have hmemory : (ofImage image).memory = image.memory := memory_write _ _ _
  have hpos : (ofImage image).stdinPos = 0 := stdinPos_write _ _ _
  refine ⟨hkept.zero.trans (read_zero_ofImage image), hkept.size.trans (congrArg Memory.size hmemory),
    fun i hi => ?_, hkept.input (hpos.trans_le (Nat.zero_le _)), fun k t ht =>
    ⟨(kept_of_after ht).forward, (kept_of_after ht).output⟩, step_confined⟩
  rw [hkept.unmapped i (by rwa [hmemory]), hmemory]
  exact Image.get_of_load hload hi

/-- Code that asks for a line at the last byte of memory. -/
def overlongRead : Assembly :=
  { Assembly.ofHeap 8 with text :=
      [.label Library.start, .li .a0 Asm.stdinDescriptor, .addi .a1 .sp (-1), .li .a2 8,
        .li .a7 Asm.SystemCall.read, .ecall] }

/-- The line is taken from the input, and no byte of it is written. -/
theorem overlongRead_confined : ∃ image s t, Image.load overlongRead = .ok image ∧
    (ofImage image).after image.code #[104, 105] 5 = some s ∧
    s.step image.code #[104, 105] = .fault (.emulation 5 (.pastMemory 0x10100b)) t ∧
    t.stdinPos = 2 ∧ t.stdinPos ≤ 2 ∧ t.memory = s.memory ∧ t.stdout = s.stdout := by
  have hcheck : ((Image.load overlongRead).toOption.bind fun image =>
      ((ofImage image).after image.code #[104, 105] 5).bind fun s =>
      match s.step image.code #[104, 105] with
      | .fault e t => some (decide (e = .emulation 5 (.pastMemory 0x10100b) ∧ t.stdinPos = 2))
      | _ => none) = some true := by decide +kernel
  simp only [Option.bind_eq_some_iff] at hcheck
  obtain ⟨image, hload, s, hs, hcheck⟩ := hcheck
  have hload := Outcome.eq_ok_of_toOption hload
  obtain ⟨-, -, -, hpos, -, hstep⟩ := code_confined hload hs
  split at hcheck
  next e t heq =>
    rw [heq] at hstep
    obtain ⟨rfl, ht⟩ := of_decide_eq_true (Option.some.inj hcheck)
    exact ⟨image, s, t, hload, hs, heq, ht, hstep.1.input hpos, hstep.2⟩
  next => cases hcheck

end Choco.Machine
