import Choco.Proofs.Steps
import Choco.Proofs.StoredObjects

namespace Choco

theorem Input.size_lineAt_le (stdin : Array UInt8) (pos limit : Nat) :
    (lineAt stdin pos limit).size ≤ limit := by
  unfold lineAt
  simp only [Array.size_extract]
  omega

namespace Machine

open Asm (Instr Reg)
open Asm.Instr

@[ext] structure View where
  regs : Reg → Int32
  memory : Memory
  stdinPos : Nat
  stdout : Array UInt8

def view (s : Machine) : View := ⟨s.read, s.memory, s.stdinPos, s.stdout⟩

namespace View

def put (v : View) (r : Reg) (w : Int32) : View :=
  if r = .zero then v else { v with regs := Function.update v.regs r w }

def Mapped (v : View) (a : Int32) (length : Nat) : Prop :=
  dataBase ≤ a.toUInt32 ∧ a.toUInt32.toNat + length ≤ v.memory.size

variable (v : View) (r r' : Reg) (w : Int32)

@[simp] theorem regs_put : (v.put r w).regs r' = if r' = r ∧ r ≠ .zero then w else v.regs r' := by
  unfold put
  split <;> simp_all [Function.update_apply]

@[simp] theorem memory_put : (v.put r w).memory = v.memory := by
  unfold put
  split <;> rfl

@[simp] theorem stdinPos_put : (v.put r w).stdinPos = v.stdinPos := by
  unfold put
  split <;> rfl

@[simp] theorem stdout_put : (v.put r w).stdout = v.stdout := by
  unfold put
  split <;> rfl

theorem Mapped.of_size {v v' : View} {a a' : Int32} {length : Nat} (h : v.Mapped a length)
    (hsize : v'.memory.size = v.memory.size) (ha : a' = a) : v'.Mapped a' length :=
  ⟨ha ▸ h.1, by rw [hsize, ha]; exact h.2⟩

theorem mapped_of_covers {v : View} {a : Int32} {p length : Nat} (ha : a = Int32.ofNat p)
    (h : v.memory.Covers p length) (hlength : 0 < length) : v.Mapped a length ∧ a.toUInt32.toNat = p := by
  have hhigh := h.high
  have hsize := h.size
  unfold UInt32.size at hsize
  have hp : a.toUInt32.toNat = p := by rw [ha, toNat_ofNat_of_lt (by omega)]
  exact ⟨⟨UInt32.le_iff_toNat_le.mpr (hp ▸ h.low), hp ▸ hhigh⟩, hp⟩

structure Points (v : View) (r : Reg) (p : Nat) (ws : List Int32) : Prop where
  address : v.regs r = Int32.ofNat p
  covers : v.memory.Covers p (4 * ws.length)
  words : v.memory.words p ws.length = ws

namespace Points

variable {v v' : View} {r : Reg} {p : Nat} {w : Int32} {ws : List Int32}

theorem of_object (h : v.memory.Object p ws) (haddress : v.regs r = Int32.ofNat p + 4) :
    v.Points r (p + 4) ws where
  address := by
    rw [haddress, Int32.ofNat_add]
    rfl
  covers := h.covers.mono (Nat.le_add_right p 4) (by omega)
  words := h.elements

theorem head_covers (h : v.Points r p (w :: ws)) : v.memory.Covers p 4 :=
  h.covers.mono (Nat.le_refl p) (by rw [List.length_cons]; omega)

theorem head_word (h : v.Points r p (w :: ws)) : v.memory.word p = w := (List.cons_eq_cons.mp h.words).1

theorem tail (h : v.Points r p (w :: ws)) (haddress : v'.regs r = v.regs r + 4)
    (hsize : v'.memory.size = v.memory.size)
    (hget : ∀ i, p + 4 ≤ i → i < p + 4 * (ws.length + 1) → v'.memory.get i = v.memory.get i) :
    v'.Points r (p + 4) ws where
  address := by
    rw [haddress, h.address, Int32.ofNat_add]
    rfl
  covers := (h.covers.mono (Nat.le_add_right p 4) (by rw [List.length_cons]; omega)).of_size hsize
  words := (Memory.words_congr fun i hi hi' => hget i hi (by omega)).trans (List.cons_eq_cons.mp h.words).2

end Points

structure Keeps (touched : List Reg) (v v' : View) : Prop where
  regs : ∀ r, r ∉ touched → v'.regs r = v.regs r
  stdinPos : v'.stdinPos = v.stdinPos
  stdout : v'.stdout = v.stdout

theorem Keeps.trans {touched touched' : List Reg} {v v' v'' : View} (h : v.Keeps touched v')
    (h' : v'.Keeps touched' v'') :
    v.Keeps (touched ++ touched') v'' where
  regs r hr := by
    rw [List.mem_append, not_or] at hr
    exact (h'.regs r hr.2).trans (h.regs r hr.1)
  stdinPos := h'.stdinPos.trans h.stdinPos
  stdout := h'.stdout.trans h.stdout

theorem Keeps.refl (touched : List Reg) (v : View) : v.Keeps touched v := ⟨fun _ _ => rfl, rfl, rfl⟩

theorem Keeps.put {touched : List Reg} {v v' : View} {r : Reg} {w : Int32} (hr : r ∈ touched)
    (h : v.Keeps touched v') :
    v.Keeps touched (v'.put r w) where
  regs r' hr' := by
    have hne : r' ≠ r := fun heq => hr' (heq ▸ hr)
    rw [regs_put, if_neg fun heq => hne heq.1, h.regs r' hr']
  stdinPos := (stdinPos_put _ _ _).trans h.stdinPos
  stdout := (stdout_put _ _ _).trans h.stdout

theorem Keeps.memory {touched : List Reg} {v v' : View} (h : v.Keeps touched v') {m : Memory} :
    v.Keeps touched { v' with memory := m } := ⟨h.regs, h.stdinPos, h.stdout⟩

theorem Keeps.mono {touched touched' : List Reg} {v v' : View} (h : v.Keeps touched v')
    (hsub : touched ⊆ touched') :
    v.Keeps touched' v' := ⟨fun r hr => h.regs r fun hr' => hr (hsub hr'), h.stdinPos, h.stdout⟩

/-- Registers in `touched` may have changed, and nothing else. -/
structure Reads (touched : List Reg) (v v' : View) : Prop extends v.Keeps touched v' where
  memory : v'.memory = v.memory

namespace Reads

variable {touched touched' : List Reg} {v v' v'' : View}

theorem refl (touched : List Reg) (v : View) : v.Reads touched v := ⟨.refl touched v, rfl⟩

theorem put {r : Reg} {w : Int32} (hr : r ∈ touched) (h : v.Reads touched v') :
    v.Reads touched (v'.put r w) :=
  ⟨.put hr h.toKeeps, (memory_put _ _ _).trans h.memory⟩

theorem trans (h : v.Reads touched v') (h' : v'.Reads touched' v'') : v.Reads (touched ++ touched') v'' :=
  ⟨h.toKeeps.trans h'.toKeeps, h'.memory.trans h.memory⟩

theorem mono (h : v.Reads touched v') (hsub : touched ⊆ touched') : v.Reads touched' v' :=
  ⟨h.toKeeps.mono hsub, h.memory⟩

end Reads

end View

theorem view_advance (s : Machine) (r : Reg) (w : Int32) : (s.advance (some r) w).view = s.view.put r w := by
  by_cases hr : r = .zero
  · subst hr
    rfl
  · ext r'
    · simp [view, read_advance s r r' w hr, hr]
    all_goals simp [view]

theorem systemCall_write {s : Machine} {stdin : Array UInt8} {length : Nat}
    (hcall : s.read .a7 = Asm.SystemCall.write) (hfile : s.read .a0 = Asm.stdoutDescriptor)
    (hlength : (s.read .a2).toInt = length) (hmapped : s.Mapped (s.read .a1) length) :
    s.systemCall stdin = .next
      ({ s with stdout := s.stdout ++ s.memory.bytes (s.read .a1).toUInt32.toNat length }.advance
      (some .a0) (s.read .a2)) := by
  have hsign : ¬ s.read .a2 < 0 := by
    rw [Int32.lt_iff_toInt_lt, hlength]
    exact Int.not_lt.mpr (Int.natCast_nonneg _)
  rw [systemCall, hcall, if_neg (by decide), if_pos rfl, writeCall, if_neg (not_not.mpr hfile), accessBytes,
    if_neg (UInt32.not_lt.mpr hmapped.1), if_neg hsign, hlength, Int.toNat_natCast]
  exact if_pos hmapped.2

theorem systemCall_read {s : Machine} {stdin : Array UInt8} {limit : Nat}
    (hcall : s.read .a7 = Asm.SystemCall.read) (hfile : s.read .a0 = Asm.stdinDescriptor)
    (hlimit : (s.read .a2).toInt = limit) (hmapped : s.Mapped (s.read .a1) limit) :
    s.systemCall stdin = .next ({ s with
      memory := s.memory.setBytes (s.read .a1).toUInt32.toNat (Input.lineAt stdin s.stdinPos limit).toList
      stdinPos := s.stdinPos + (Input.lineAt stdin s.stdinPos limit).size }.advance
        (some .a0) (Int32.ofNat (Input.lineAt stdin s.stdinPos limit).size)) := by
  have hsign : ¬ s.read .a2 < 0 := by
    rw [Int32.lt_iff_toInt_lt, hlimit]
    exact Int.not_lt.mpr (Int.natCast_nonneg _)
  rw [systemCall, hcall, if_neg (by decide), if_neg (by decide), if_pos rfl, readCall,
    if_neg (not_not.mpr hfile), accessBytes, if_neg (UInt32.not_lt.mpr hmapped.1), if_neg hsign, hlimit,
    Int.toNat_natCast]
  exact if_pos (Nat.le_trans (Nat.add_le_add_left (Input.size_lineAt_le stdin s.stdinPos limit) _) hmapped.2)

/-- From the position `pc` with the view `v` the machine gets to the position `pc'` with the view `v'`. -/
def Leads (code : Array Line) (stdin : Array UInt8) (pc : Nat) (v : View) (pc' : Nat) (v' : View) : Prop :=
  ∀ s : Machine, s.pc = pc → s.view = v → ∃ t : Machine, Reaches code stdin s t ∧ t.pc = pc' ∧ t.view = v'

/-- The machine goes through the instructions one after the other, and its view changes from `v` to `v'`. -/
def Passage (labels : List (String × Nat)) (symbols : List (String × UInt32)) (stdin : Array UInt8)
    (is : List Instr) (v v' : View) : Prop :=
  ∀ code (s : Machine), CodeAt labels symbols code s.pc is → s.view = v →
    ∃ t : Machine, s.after code stdin is.length = some t ∧ t.pc = s.pc + is.length ∧ t.view = v'

section Leads

variable {labels : List (String × Nat)} {symbols : List (String × UInt32)} {code : Array Line}
  {stdin : Array UInt8} {pc pc' pc'' : Nat} {v v₁ v' v'' : View} {i : Instr} {is is' : List Instr}

theorem Leads.trans (h : Leads code stdin pc v pc' v') (h' : Leads code stdin pc' v' pc'' v'') :
    Leads code stdin pc v pc'' v'' := by
  intro s hpc hv
  obtain ⟨t, hreaches, hpc', hv'⟩ := h s hpc hv
  obtain ⟨u, hreaches', hpc'', hv''⟩ := h' t hpc' hv'
  exact ⟨u, hreaches.trans hreaches', hpc'', hv''⟩

theorem Leads.step (hcode : CodeAt labels symbols code pc (i :: is))
    (h : ∀ s : Machine, s.pc = pc → s.view = v → ∃ t, s.exec stdin (resolve labels symbols i) = .next t ∧
      t.pc = pc' ∧ t.view = v') :
    Leads code stdin pc v pc' v' := by
  intro s hpc hv
  obtain ⟨t, hexec, hpc', hv'⟩ := h s hpc hv
  subst hpc
  exact ⟨t, .of_code hcode hexec, hpc', hv'⟩

theorem codeAt_note {comment : String} :
    CodeAt labels symbols code pc (i.note comment :: is) ↔ CodeAt labels symbols code pc (i :: is) := by
  rw [show i.note comment :: is = Asm.Context.withComment comment (i :: is) from rfl, codeAt_withComment]

theorem Leads.label {l : String} (hcode : CodeAt labels symbols code pc (label l :: is)) :
    Leads code stdin pc v (pc + 1) v :=
  .step hcode fun s hpc hv => ⟨{ s with pc := s.pc + 1 }, rfl, congrArg (· + 1) hpc, hv⟩

theorem Leads.taken {cond : Cond} {r r' : Reg} {l : String}
    (hcode : CodeAt labels symbols code pc (branch cond r r' l :: is))
    (hcond : cond.holds (v.regs r) (v.regs r') = true)
    (hlabel : labels.lookup l = some pc') : Leads code stdin pc v pc' v := by
  refine .step hcode fun s _ hv => ?_
  subst hv
  exact ⟨{ s with pc := pc' }, exec_branch_taken hcond hlabel, rfl, rfl⟩

theorem Leads.passed {cond : Cond} {r r' : Reg} {l : String}
    (hcode : CodeAt labels symbols code pc (branch cond r r' l :: is))
    (hcond : cond.holds (v.regs r) (v.regs r') = false) :
    Leads code stdin pc v (pc + 1) v := by
  refine .step hcode fun s hpc hv => ?_
  subst hpc hv
  exact ⟨{ s with pc := s.pc + 1 }, exec_branch_passed hcond, rfl, rfl⟩

theorem Leads.ret (hcode : CodeAt labels symbols code pc (ret :: is)) (hra : 0 ≤ v.regs .ra) :
    Leads code stdin pc v (v.regs .ra).toInt.toNat v := by
  refine .step hcode fun s _ hv => ?_
  subst hv
  exact ⟨{ s with pc := (s.read .ra).toInt.toNat }, exec_ret hra, rfl, rfl⟩

theorem Leads.jump {l : String} (hcode : CodeAt labels symbols code pc (j l :: is))
    (hlabel : labels.lookup l = some pc') :
    Leads code stdin pc v pc' v := by
  refine .step hcode fun s _ hv => ?_
  subst hv
  exact ⟨{ s with pc := pc' }, exec_j hlabel, rfl, rfl⟩

theorem Leads.call {l : String} (hcode : CodeAt labels symbols code pc (jal l :: is))
    (hlabel : labels.lookup l = some pc') :
    Leads code stdin pc v pc' (v.put .ra (Int32.ofNat (pc + 1))) := by
  refine .step hcode fun s hpc hv => ?_
  subst hpc hv
  exact ⟨_, exec_jal hlabel, rfl, view_advance s .ra _⟩

theorem Leads.ran {s : Machine} {touched : List Reg} {memory : Memory}
    (h : Leads code stdin s.pc s.view pc' v') (hkeeps : s.view.Keeps touched v')
    (hmemory : v'.memory = memory) :
    ∃ t : Machine, Ran code stdin touched s t memory ∧ t.pc = pc' ∧ t.view = v' := by
  obtain ⟨t, hreaches, hpc, rfl⟩ := h s rfl rfl
  exact ⟨t, ⟨hreaches, hkeeps.regs, hmemory, hkeeps.stdinPos, hkeeps.stdout⟩, hpc, rfl⟩

namespace Passage

theorem leads (h : Passage labels symbols stdin is v v') (hcode : CodeAt labels symbols code pc is) :
    Leads code stdin pc v (pc + is.length) v' := by
  intro s hpc hv
  subst hpc
  obtain ⟨t, hafter, hpc, hv'⟩ := h code s hcode hv
  exact ⟨t, reaches_of_after hafter, hpc, hv'⟩

theorem nil : Passage labels symbols stdin [] v v := fun _ s _ hv => ⟨s, rfl, rfl, hv⟩

theorem cons (hstep : ∀ s : Machine, s.view = v →
      ∃ t, s.exec stdin (resolve labels symbols i) = .next t ∧ t.pc = s.pc + 1 ∧ t.view = v₁)
    (h : Passage labels symbols stdin is v₁ v') : Passage labels symbols stdin (i :: is) v v' := by
  intro code s hcode hv
  obtain ⟨t, hexec, hpc, hv₁⟩ := hstep s hv
  obtain ⟨u, hafter, hpc', hv'⟩ := h code t (hpc ▸ (codeAt_cons.mp hcode).2) hv₁
  refine ⟨u, (after_succ (hcode.step.trans hexec)).trans hafter, ?_, hv'⟩
  rw [hpc', hpc, List.length_cons, Nat.add_assoc, Nat.add_comm 1]

theorem append (h : Passage labels symbols stdin is v v₁) (h' : Passage labels symbols stdin is' v₁ v') :
    Passage labels symbols stdin (is ++ is') v v' := by
  intro code s hcode hv
  obtain ⟨hleft, hright⟩ := codeAt_append.mp hcode
  obtain ⟨t, hafter, hpc, hv₁⟩ := h code s hleft hv
  obtain ⟨u, hafter', hpc', hv'⟩ := h' code t (hpc ▸ hright) hv₁
  rw [List.length_append]
  exact ⟨u, (after_add hafter).trans hafter', by rw [hpc', hpc, Nat.add_assoc], hv'⟩

theorem put {r : Reg} {w : Int32}
    (hexec : ∀ s : Machine, s.view = v →
      s.exec stdin (resolve labels symbols i) = .next (s.advance (some r) w))
    (h : Passage labels symbols stdin is (v.put r w) v') : Passage labels symbols stdin (i :: is) v v' :=
  cons (fun s hv => ⟨_, hexec s hv, pc_advance s r w, by rw [view_advance, hv]⟩) h

theorem note {comment : String} (h : Passage labels symbols stdin (i :: is) v v') :
    Passage labels symbols stdin (i.note comment :: is) v v' :=
  fun code s hcode => h code s (codeAt_note.mp hcode)

theorem label {l : String} (h : Passage labels symbols stdin is v v') :
    Passage labels symbols stdin (label l :: is) v v' :=
  cons (fun s hv => ⟨{ s with pc := s.pc + 1 }, rfl, rfl, hv⟩) h

theorem li {r : Reg} {n : Int32} (h : Passage labels symbols stdin is (v.put r n) v') :
    Passage labels symbols stdin (li r n :: is) v v' := put (fun _ _ => rfl) h

theorem alu {op : AluOp} {rd r r' : Reg}
    (h : Passage labels symbols stdin is (v.put rd (op.eval (v.regs r) (v.regs r'))) v') :
    Passage labels symbols stdin (alu op rd r r' :: is) v v' := put (fun _ hv => hv ▸ rfl) h

theorem addi {rd r : Reg} {n : Int32} (h : Passage labels symbols stdin is (v.put rd (v.regs r + n)) v') :
    Passage labels symbols stdin (addi rd r n :: is) v v' := put (fun _ hv => hv ▸ rfl) h

theorem mv {rd r : Reg} (h : Passage labels symbols stdin is (v.put rd (v.regs r)) v') :
    Passage labels symbols stdin (mv rd r :: is) v v' := put (fun _ hv => hv ▸ rfl) h

theorem andi {rd r : Reg} {n : Int32} (h : Passage labels symbols stdin is (v.put rd (v.regs r &&& n)) v') :
    Passage labels symbols stdin (andi rd r n :: is) v v' := put (fun _ hv => hv ▸ rfl) h

theorem slli {rd r : Reg} {n : Int32}
    (h : Passage labels symbols stdin is (v.put rd (Word.shiftLeft (v.regs r) n)) v') :
    Passage labels symbols stdin (slli rd r n :: is) v v' := put (fun _ hv => hv ▸ rfl) h

theorem la {rd : Reg} {name : String} {a : UInt32} (ha : symbols.lookup name = some a)
    (h : Passage labels symbols stdin is (v.put rd a.toInt32) v') :
    Passage labels symbols stdin (la rd name :: is) v v' :=
  put (fun _ _ => exec_la ha) h

theorem lw {rd base : Reg} {offset : Int32} (hmapped : v.Mapped (v.regs base + offset) 4)
    (h : Passage labels symbols stdin is
      (v.put rd (v.memory.word (v.regs base + offset).toUInt32.toNat)) v') :
    Passage labels symbols stdin (lw rd offset base :: is) v v' := by
  refine put (fun s hv => ?_) h
  subst hv
  exact exec_lw hmapped

theorem load {rd base : Reg} {offset : Int32} {p : Nat} (ha : v.regs base + offset = Int32.ofNat p)
    (hp : v.memory.Covers p 4) (h : Passage labels symbols stdin is (v.put rd (v.memory.word p)) v') :
    Passage labels symbols stdin (Instr.lw rd offset base :: is) v v' := by
  obtain ⟨hmapped, haddress⟩ := View.mapped_of_covers ha hp (by decide)
  rw [← haddress] at h
  exact lw hmapped h

theorem loadByte {rd base : Reg} {offset : Int32} {p : Nat} (ha : v.regs base + offset = Int32.ofNat p)
    (hp : v.memory.Covers p 1)
    (h : Passage labels symbols stdin is (v.put rd (Int32.ofNat (v.memory.get p).toNat)) v') :
    Passage labels symbols stdin (lbu rd offset base :: is) v v' := by
  refine put (fun s hv => ?_) h
  subst hv
  obtain ⟨hmapped, haddress⟩ := View.mapped_of_covers ha hp (by decide)
  rw [← haddress]
  exact access_of_mapped hmapped fun a => .next (s.advance (some rd) (Int32.ofNat (s.memory.get a).toNat))

theorem sw {src base : Reg} {offset : Int32} (hmapped : v.Mapped (v.regs base + offset) 4)
    (h : Passage labels symbols stdin is
      { v with memory := v.memory.setWord (v.regs base + offset).toUInt32.toNat (v.regs src) } v') :
    Passage labels symbols stdin (sw src offset base :: is) v v' := by
  refine cons (fun s hv => ?_) h
  subst hv
  exact ⟨_, exec_sw hmapped, rfl, rfl⟩

theorem store {src base : Reg} {offset : Int32} {p : Nat} (ha : v.regs base + offset = Int32.ofNat p)
    (hp : v.memory.Covers p 4)
    (h : Passage labels symbols stdin is { v with memory := v.memory.setWord p (v.regs src) } v') :
    Passage labels symbols stdin (Instr.sw src offset base :: is) v v' := by
  obtain ⟨hmapped, haddress⟩ := View.mapped_of_covers ha hp (by decide)
  rw [← haddress] at h
  exact sw hmapped h

theorem sb {src base : Reg} {offset : Int32} (hmapped : v.Mapped (v.regs base + offset) 1)
    (h : Passage labels symbols stdin is
      { v with memory := v.memory.set (v.regs base + offset).toUInt32.toNat (v.regs src).toUInt32.toUInt8 }
        v') :
    Passage labels symbols stdin (sb src offset base :: is) v v' := by
  refine cons (fun s hv => ?_) h
  subst hv
  exact ⟨_, access_of_mapped hmapped fun a =>
    .next { s with memory := s.memory.set a (s.read src).toUInt32.toUInt8, pc := s.pc + 1 },
    rfl, rfl⟩

theorem storeByte {src base : Reg} {offset : Int32} {p : Nat} (ha : v.regs base + offset = Int32.ofNat p)
    (hp : v.memory.Covers p 1)
    (h : Passage labels symbols stdin is
      { v with memory := v.memory.set p (v.regs src).toUInt32.toUInt8 } v') :
    Passage labels symbols stdin (Instr.sb src offset base :: is) v v' := by
  obtain ⟨hmapped, haddress⟩ := View.mapped_of_covers ha hp (by decide)
  rw [← haddress] at h
  exact sb hmapped h

theorem write {length : Nat} (hcall : v.regs .a7 = Asm.SystemCall.write)
    (hfile : v.regs .a0 = Asm.stdoutDescriptor) (hlength : (v.regs .a2).toInt = length)
    (hmapped : v.Mapped (v.regs .a1) length) (h : Passage labels symbols stdin is
      ({ v with stdout := v.stdout ++ v.memory.bytes (v.regs .a1).toUInt32.toNat length }.put .a0
        (v.regs .a2)) v') :
    Passage labels symbols stdin (ecall :: is) v v' := by
  refine cons (fun s hv => ?_) h
  subst hv
  exact ⟨_, systemCall_write hcall hfile hlength hmapped, pc_advance _ _ _, view_advance _ _ _⟩

theorem read {p limit : Nat} (hcall : v.regs .a7 = Asm.SystemCall.read)
    (hfile : v.regs .a0 = Asm.stdinDescriptor) (ha : v.regs .a1 = Int32.ofNat p)
    (hlimit : (v.regs .a2).toInt = limit) (hp : v.memory.Covers p limit) (hpos : 0 < limit)
    (h : Passage labels symbols stdin is ({ v with
      memory := v.memory.setBytes p (Input.lineAt stdin v.stdinPos limit).toList
      stdinPos := v.stdinPos + (Input.lineAt stdin v.stdinPos limit).size }.put .a0
        (Int32.ofNat (Input.lineAt stdin v.stdinPos limit).size)) v') :
    Passage labels symbols stdin (ecall :: is) v v' := by
  refine cons (fun s hv => ?_) h
  subst hv
  obtain ⟨hmapped, haddress⟩ := View.mapped_of_covers ha hp hpos
  rw [← haddress]
  exact ⟨_, systemCall_read hcall hfile hlimit hmapped, pc_advance _ _ _, view_advance _ _ _⟩

end Passage

end Leads

end Machine

end Choco
