import Choco.Asm.Emit
import Choco.Machine.Run
import Choco.Proofs.Words
import Mathlib.Logic.Relation

namespace Choco

theorem Asm.Reg.number_injective : Function.Injective Asm.Reg.number := by
  have hall : ∀ r : Asm.Reg, Asm.Reg.all[r.number.val]? = some r := by intro r; cases r <;> rfl
  intro r r' h
  exact Option.some.inj ((hall r).symm.trans
    ((congrArg (fun n : Fin 32 => Asm.Reg.all[n.val]?) h).trans (hall r')))

namespace Machine

open Asm (Instr Reg)
open Asm.Instr

variable {length : Nat}

section State

variable (s : Machine) (r r' : Reg) (w : Int32)

theorem read_write (h : r ≠ .zero) : (s.write r w).read r' = if r' = r then w else s.read r' := by
  have hw : s.write r w = { s with regs := s.regs.set r.number w } := by
    cases r <;> first | rfl | exact absurd rfl h
  rw [hw]
  change (s.regs.set r.number w)[r'.number.val] = if r' = r then w else s.regs[r'.number.val]
  by_cases hr : r' = r
  · subst hr
    simp
  · have hn : r.number.val ≠ r'.number.val := fun hn => hr (Reg.number_injective (Fin.ext hn)).symm
    simp [Vector.getElem_set_ne, hn, hr]

@[simp] theorem pc_write : (s.write r w).pc = s.pc := by cases r <;> rfl

@[simp] theorem memory_write : (s.write r w).memory = s.memory := by cases r <;> rfl

@[simp] theorem stdout_write : (s.write r w).stdout = s.stdout := by cases r <;> rfl

@[simp] theorem stdinPos_write : (s.write r w).stdinPos = s.stdinPos := by cases r <;> rfl

@[simp] theorem pc_advance : (s.advance (some r) w).pc = s.pc + 1 := pc_write _ _ _

@[simp] theorem memory_advance : (s.advance (some r) w).memory = s.memory := memory_write _ _ _

@[simp] theorem stdout_advance : (s.advance (some r) w).stdout = s.stdout := stdout_write _ _ _

@[simp] theorem stdinPos_advance : (s.advance (some r) w).stdinPos = s.stdinPos := stdinPos_write _ _ _

theorem read_advance (h : r ≠ .zero) : (s.advance (some r) w).read r' = if r' = r then w else s.read r' :=
  read_write _ _ _ _ h

/-- `length` bytes from the address `a` on are mapped. -/
def Mapped (a : Int32) (length : Nat) : Prop :=
  dataBase ≤ a.toUInt32 ∧ a.toUInt32.toNat + length ≤ s.memory.size

theorem Mapped.of_memory {s s' : Machine} {a a' : Int32} (h : s.Mapped a length)
    (hsize : s'.memory.size = s.memory.size) (ha : a' = a) : s'.Mapped a' length :=
  ⟨ha ▸ h.1, by rw [hsize, ha]; exact h.2⟩

end State

section Code

variable (labels : List (String × Nat)) (symbols : List (String × UInt32)) (code : Array Line)
  (stdin : Array UInt8) {base rd r r' : Reg} {offset : Int32} {l : String} {k n : Nat} {cond : Cond}

/-- The line without the comment of its instruction. -/
def Line.bare (line : Line) : Line := { line with instr := { line.instr with comment := none } }

/-- Comments apart, the code from position `pc` on is the list of instructions. -/
def CodeAt (pc : Nat) (is : List Instr) : Prop :=
  ∀ k i, is[k]? = some i → (code[pc + k]?).map Line.bare = some (resolve labels symbols i).bare

/-- The machine after some steps, if it does not stop before. -/
def after : Nat → Machine → Option Machine
  | 0, s => some s
  | n + 1, s =>
    match s.step code stdin with
    | .next s' => after n s'
    | .exit _ _ | .fault _ _ => none

/-- The machine gets from one state to the other. -/
def Reaches : Machine → Machine → Prop := Relation.ReflTransGen fun s s' => s.step code stdin = .next s'

variable {labels symbols code stdin} {pc : Nat} {is is' : List Instr} {i : Instr} {s s' s'' : Machine}

instance : Decidable (CodeAt labels symbols code pc is) :=
  decidable_of_iff (∀ k : Fin is.length,
    (code[pc + k]?).map Line.bare = some (resolve labels symbols is[k]).bare) <| by
    constructor
    · intro h k i hi
      obtain ⟨hk, rfl⟩ := List.getElem?_eq_some_iff.mp hi
      exact h ⟨k, hk⟩
    · exact fun h k => h k _ (List.getElem?_eq_getElem k.isLt)

theorem codeAt_cons :
    CodeAt labels symbols code pc (i :: is) ↔
      (code[pc]?).map Line.bare = some (resolve labels symbols i).bare ∧
        CodeAt labels symbols code (pc + 1) is := by
  constructor
  · intro h
    refine ⟨h 0 i rfl, fun k j hj => ?_⟩
    rw [Nat.add_assoc, Nat.add_comm 1 k]
    exact h (k + 1) j hj
  · rintro ⟨h, ht⟩ k j hj
    cases k with
    | zero => cases hj; exact h
    | succ k =>
      have hk := ht k j hj
      rwa [Nat.add_assoc, Nat.add_comm 1 k] at hk

theorem codeAt_append :
    CodeAt labels symbols code pc (is ++ is') ↔
      CodeAt labels symbols code pc is ∧ CodeAt labels symbols code (pc + is.length) is' := by
  induction is generalizing pc with
  | nil => simp [CodeAt]
  | cons i is ih =>
    rw [List.cons_append, codeAt_cons, codeAt_cons, ih, and_assoc, List.length_cons, Nat.add_assoc,
      Nat.add_comm 1 is.length]

theorem codeAt_map (labels : List (String × Nat)) (symbols : List (String × UInt32)) (text : List Instr) :
    CodeAt labels symbols (text.map (resolve labels symbols)).toArray 0 text := by
  intro k i hi
  simp [hi]

theorem codeAt_withComment (comment : String) :
    CodeAt labels symbols code pc (Asm.Context.withComment comment is) ↔
      CodeAt labels symbols code pc is := by
  cases is with
  | nil => rfl
  | cons i is =>
    have hnote : (resolve labels symbols (i.note comment)).bare = (resolve labels symbols i).bare := by
      have ht : (i.note comment).target? = i.target? := rfl
      unfold resolve
      rw [ht]
      cases i.target? <;> rfl
    simp only [Asm.Context.withComment, codeAt_cons, hnote]

theorem exec_bare (line : Line) : s.exec stdin line.bare = s.exec stdin line := rfl

theorem CodeAt.step (h : CodeAt labels symbols code s.pc (i :: is)) :
    s.step code stdin = s.exec stdin (resolve labels symbols i) := by
  obtain ⟨line, hline, hbare⟩ := Option.map_eq_some_iff.mp (codeAt_cons.mp h).1
  rw [Machine.step, hline]
  exact (exec_bare line).symm.trans ((congrArg (s.exec stdin) hbare).trans (exec_bare _))

@[simp] theorem exec_label (l : String) :
    s.exec stdin (resolve labels symbols (.label l)) = .next { s with pc := s.pc + 1 } := rfl

@[simp] theorem exec_li (r : Reg) (n : Int32) :
    s.exec stdin (resolve labels symbols (li r n)) = .next (s.advance (some r) n) := rfl

@[simp] theorem exec_alu (op : AluOp) (rd r r' : Reg) :
    s.exec stdin (resolve labels symbols (alu op rd r r')) =
      .next (s.advance (some rd) (op.eval (s.read r) (s.read r'))) := rfl

@[simp] theorem exec_addi (rd r : Reg) (n : Int32) :
    s.exec stdin (resolve labels symbols (addi rd r n)) = .next (s.advance (some rd) (s.read r + n)) := rfl

@[simp] theorem exec_seqz (rd r : Reg) :
    s.exec stdin (resolve labels symbols (seqz rd r)) =
      .next (s.advance (some rd) (Word.ofBool (s.read r == 0))) := rfl

@[simp] theorem exec_snez (rd r : Reg) :
    s.exec stdin (resolve labels symbols (snez rd r)) =
      .next (s.advance (some rd) (Word.ofBool (s.read r != 0))) := rfl

@[simp] theorem exec_mv (rd r : Reg) :
    s.exec stdin (resolve labels symbols (mv rd r)) = .next (s.advance (some rd) (s.read r)) := rfl

theorem access_of_mapped {base : Int32} (h : s.Mapped (base + offset) length) (k : Nat → Step) :
    s.access base offset length k = k (base + offset).toUInt32.toNat := by
  unfold access
  rw [if_neg (UInt32.not_lt.mpr h.1), if_pos h.2]

theorem exec_lw (h : s.Mapped (s.read base + offset) 4) :
    s.exec stdin (resolve labels symbols (lw rd offset base)) =
      .next (s.advance (some rd) (s.memory.word (s.read base + offset).toUInt32.toNat)) :=
  access_of_mapped h fun a => .next (s.advance (some rd) (s.memory.word a))

theorem exec_sw {src : Reg} (h : s.Mapped (s.read base + offset) 4) :
    s.exec stdin (resolve labels symbols (sw src offset base)) =
      .next { s with
        memory := s.memory.setWord (s.read base + offset).toUInt32.toNat (s.read src), pc := s.pc + 1 } :=
  access_of_mapped h fun a => .next { s with memory := s.memory.setWord a (s.read src), pc := s.pc + 1 }

theorem exec_j (h : labels.lookup l = some k) :
    s.exec stdin (resolve labels symbols (j l)) = .next { s with pc := k } := by
  have hplace : (resolve labels symbols (j l)).place = some k := h
  simp only [exec, jump, hplace]
  rfl

theorem exec_branch_taken (hcond : cond.holds (s.read r) (s.read r') = true) (h : labels.lookup l = some k) :
    s.exec stdin (resolve labels symbols (branch cond r r' l)) = .next { s with pc := k } := by
  have hplace : (resolve labels symbols (branch cond r r' l)).place = some k := h
  change (if cond.holds (s.read r) (s.read r') then s.jump _ _ else _) = _
  rw [if_pos hcond, jump, hplace]

theorem exec_branch_passed (hcond : cond.holds (s.read r) (s.read r') = false) :
    s.exec stdin (resolve labels symbols (branch cond r r' l)) = .next { s with pc := s.pc + 1 } := by
  change (if cond.holds (s.read r) (s.read r') then s.jump _ _ else _) = _
  rw [hcond]
  rfl

theorem exec_jal (h : labels.lookup l = some k) :
    s.exec stdin (resolve labels symbols (jal l)) =
      .next { s.advance (some .ra) (Int32.ofNat (s.pc + 1)) with pc := k } := by
  have hplace : (resolve labels symbols (jal l)).place = some k := h
  simp only [exec, jump, hplace]
  rfl

theorem exec_la {name : String} {a : UInt32} (h : symbols.lookup name = some a) :
    s.exec stdin (resolve labels symbols (la rd name)) = .next (s.advance (some rd) a.toInt32) := by
  have haddress : (resolve labels symbols (la rd name)).address = some a := h
  simp only [exec, haddress]
  rfl

theorem exec_ret (h : 0 ≤ s.read .ra) :
    s.exec stdin (resolve labels symbols ret) = .next { s with pc := (s.read .ra).toInt.toNat } :=
  if_neg (Int32.not_lt.mpr h)

theorem Reaches.of_code (h : CodeAt labels symbols code s.pc (i :: is))
    (hexec : s.exec stdin (resolve labels symbols i) = .next s') : Reaches code stdin s s' :=
  .single (h.step.trans hexec)

/-- A run that changes registers in `touched` only, and what it leaves in memory. -/
structure Ran (code : Array Line) (stdin : Array UInt8) (touched : List Reg) (s s' : Machine)
    (memory : Memory) :
    Prop where
  reaches : Reaches code stdin s s'
  regs : ∀ r, r ∉ touched → s'.read r = s.read r
  memory : s'.memory = memory
  stdinPos : s'.stdinPos = s.stdinPos
  stdout : s'.stdout = s.stdout

theorem after_succ (h : s.step code stdin = .next s') :
    s.after code stdin (n + 1) = s'.after code stdin n := by
  rw [after, h]

theorem after_add {m : Nat} (h : s.after code stdin m = some s') :
    s.after code stdin (m + n) = s'.after code stdin n := by
  induction m generalizing s with
  | zero =>
    cases h
    rw [Nat.zero_add]
  | succ m ih =>
    rw [after] at h
    split at h
    next hstep =>
      rw [Nat.add_right_comm, after_succ hstep]
      exact ih h
    next => cases h
    next => cases h

theorem reaches_of_after (h : s.after code stdin n = some s') : Reaches code stdin s s' := by
  induction n generalizing s with
  | zero =>
    cases h
    exact .refl
  | succ n ih =>
    rw [after] at h
    split at h
    next hstep => exact (ih h).head hstep
    next => cases h
    next => cases h

end Code

end Machine

end Choco
