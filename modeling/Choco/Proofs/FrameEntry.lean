import Choco.Proofs.Confinement
import Choco.Proofs.Emission

namespace Choco.Asm

open IR (Module OpId ValueId)
open Machine (CodeAt Line Memory Passage View ofImage resolve)
open Instr

variable {labels : List (String × Nat)} {symbols : List (String × UInt32)} {stdin : Array UInt8} {f : Frame}
  {words base : Nat} {v v' : View} {i : Nat}

/-- The stack pointer is at a frame that lies at the address `base`. -/
structure Frame.LiesAt (f : Frame) (base : Nat) (v : View) : Prop where
  sp : (v.regs .sp).toUInt32.toNat = base
  low : Machine.dataBase.toNat ≤ base
  high : base + f.size.toUInt32.toNat ≤ v.memory.size
  bound : base + f.size.toUInt32.toNat < UInt32.size

namespace Frame.LiesAt

theorem of_keeps (h : f.LiesAt base v) (hsp : v'.regs .sp = v.regs .sp)
    (hsize : v'.memory.size = v.memory.size) :
    f.LiesAt base v' :=
  ⟨hsp ▸ h.sp, h.low, hsize ▸ h.high, h.bound⟩

theorem word (h : f.LiesAt base v) (hf : f.LaidOut words) (hi : i ≤ words) :
    (v.regs .sp + wordOffset i).toUInt32.toNat = base + 4 * i ∧ v.Mapped (v.regs .sp + wordOffset i) 4 := by
  obtain ⟨hsp, hlow, hhigh, hbound⟩ := h
  have hsmall := hf.small
  rw [hf.size, toNat_wordOffset hsmall] at hhigh hbound
  have hsum : (v.regs .sp + wordOffset i).toUInt32.toNat = base + 4 * i := by
    rw [Int32.toUInt32_add, UInt32.toNat_add, hsp, toNat_wordOffset (by omega)]
    exact Nat.mod_eq_of_lt (by unfold UInt32.size at hbound; omega)
  refine ⟨hsum, UInt32.le_iff_toNat_le.mpr ?_, ?_⟩
  · rw [hsum]
    exact Nat.le_trans hlow (Nat.le_add_right _ _)
  · rw [hsum]
    omega

theorem store (h : f.LiesAt base v) (hf : f.LaidOut words) (hi : i ≤ words) {src : Reg} (hsrc : src ≠ .t3) :
    ∃ v', Passage labels symbols stdin (storeWord src .sp (wordOffset i)) v v' ∧ v.Keeps [.t3] v' ∧
      f.LiesAt base v' ∧ v'.memory.word (base + 4 * i) = v.regs src ∧
        ∀ k ≠ i, v'.memory.word (base + 4 * k) = v.memory.word (base + 4 * k) := by
  obtain ⟨haddress, hmapped⟩ := h.word hf hi
  obtain ⟨v', hpassage, hkeeps, hmemory⟩ := storeWord_passage hsrc (by decide) hmapped
  have hupdated := Memory.setWord_updated v.memory (base + 4 * i) (v.regs src)
  rw [← haddress, ← hmemory, haddress] at hupdated
  refine ⟨v', hpassage, hkeeps, h.of_keeps (hkeeps.regs _ (by decide)) hupdated.size, hupdated.word,
    fun k hk => ?_⟩
  exact Memory.word_congr fun b hb hb' => hupdated.get b (by omega)

/-- Registers are stored in the places of values one after the other, so that the last one stays where a value
is listed twice. -/
theorem stores (h : f.LiesAt base v) (hf : f.LaidOut words) {w : Reg → Int32} {pairs : List (ValueId × Reg)}
    {codes : List (List Instr)}
    (hcodes : List.Forall₂ (fun p code => ∃ o, f.slot? p.1 = some o ∧ code = storeWord p.2 .sp o) pairs codes)
    (hregs : ∀ p ∈ pairs, p.2 ≠ .t3 ∧ v.regs p.2 = w p.2) :
    ∃ v', Passage labels symbols stdin codes.flatten v v' ∧ v.Keeps [.t3] v' ∧ f.LiesAt base v' ∧
      (∀ k ≤ words, (∀ p ∈ pairs, f.slot? p.1 ≠ some (wordOffset k)) →
        v'.memory.word (base + 4 * k) = v.memory.word (base + 4 * k)) ∧
      ∀ (i : Nat) p, pairs[i]? = some p → (∀ (j : Nat) q, i < j → pairs[j]? = some q → q.1 ≠ p.1) →
        ∃ k < words, f.slot? p.1 = some (wordOffset k) ∧ v'.memory.word (base + 4 * k) = w p.2 := by
  induction hcodes generalizing v with
  | nil => exact ⟨v, .nil, .refl _ v, h, fun _ _ _ => rfl, nofun⟩
  | @cons p code pairs codes hcode _ ih =>
    obtain ⟨o, hslot, rfl⟩ := hcode
    obtain ⟨i, hi, rfl⟩ := hf.slot _ _ hslot
    obtain ⟨⟨hne, hread⟩, hregs⟩ := List.forall_mem_cons.mp hregs
    obtain ⟨v₁, hstore, hkeeps, hlies, hword, hwords⟩ := h.store hf (Nat.le_of_lt hi) hne
    have hregs₁ : ∀ q ∈ pairs, q.2 ≠ .t3 ∧ v₁.regs q.2 = w q.2 := fun q hq =>
      ⟨(hregs q hq).1, (hkeeps.regs _ (by simpa using (hregs q hq).1)).trans (hregs q hq).2⟩
    obtain ⟨v₂, hrest, hkeeps', hlies', hsame, hlast⟩ := ih hlies hregs₁
    refine ⟨v₂, hstore.append hrest, (hkeeps.trans hkeeps').mono (by simp), hlies', fun k hk hfree => ?_,
      fun j q hq hbehind => ?_⟩
    · obtain ⟨hfirst, hfree⟩ := List.forall_mem_cons.mp hfree
      rw [hsame k hk hfree]
      exact hwords k fun heq => hfirst (heq ▸ hslot)
    · cases j with
      | zero =>
        cases hq
        refine ⟨i, hi, hslot, ?_⟩
        rw [hsame i (Nat.le_of_lt hi), hword, hread]
        intro q hq hslot'
        obtain ⟨j, hj⟩ := List.mem_iff_getElem?.mp hq
        exact hbehind (j + 1) q (Nat.succ_pos j) hj (hf.slot_inj _ _ _ hslot' hslot)
      | succ j => exact hlast j q hq fun k q' hk hq' => hbehind (k + 1) q' (Nat.succ_lt_succ hk) hq'

end Frame.LiesAt

namespace Context

variable {ctx : Context} {args : List ValueId}

/-- What the prologue of a function has done: the frame lies below the old stack pointer, the return address
is in its last word and the arguments are in the words of the parameters. The entry function makes its frame
known to all. -/
structure Entered (ctx : Context) (args : List ValueId) (s t : Machine) : Prop where
  sp : t.read .sp = s.read .sp - ctx.frame.size
  ra : t.memory.word (t.read .sp + ctx.frame.raOffset).toUInt32.toNat = s.read .ra
  arg : ∀ (i : Nat) x r, args[i]? = some x → Reg.args[i]? = some r → (∀ j : Nat, i < j → args[j]? ≠ some x) →
    ∃ o, ctx.frame.slot? x = some o ∧ t.memory.word (t.read .sp + o).toUInt32.toNat = s.read r
  tp : t.read .tp = if ctx.name = entryFunction then t.read .sp else s.read .tp

/-- The machine runs through the prologue wherever there is room for the frame below the stack pointer. -/
def Enters (ctx : Context) (args : List ValueId) : Prop :=
  ∃ start, ctx.prologue args = .ok start ∧ ∀ labels symbols code stdin (s : Machine),
    CodeAt labels symbols code s.pc start →
    Machine.dataBase.toNat + ctx.frame.size.toUInt32.toNat ≤ (s.read .sp).toUInt32.toNat →
    (s.read .sp).toUInt32.toNat ≤ s.memory.size →
    ∃ t, s.after code stdin start.length = some t ∧ t.pc = s.pc + start.length ∧ ctx.Entered args s t

/-- The machine runs through the epilogue up to its return wherever the word of the return address is
mapped. -/
def Leaves (ctx : Context) : Prop :=
  ∀ labels symbols code stdin (t : Machine) (sp ra : Int32), CodeAt labels symbols code t.pc ctx.epilogue →
    t.read .sp = sp - ctx.frame.size → t.Mapped (t.read .sp + ctx.frame.raOffset) 4 →
    t.memory.word (t.read .sp + ctx.frame.raOffset).toUInt32.toNat = ra →
    ∃ u, t.after code stdin (ctx.epilogue.length - 1) = some u ∧ u.read .sp = sp ∧ u.read .a0 = t.read .a0 ∧
      u.memory = t.memory ∧ u.step code stdin = if ra < 0 then u.fail (.badReturn ra)
      else .next { u with pc := ra.toInt.toNat }

theorem prologue_ok (hargs : ∀ x ∈ args, ∃ o, ctx.frame.slot? x = some o) :
    ∃ codes, List.Forall₂ (fun p code => ∃ o, ctx.frame.slot? p.1 = some o ∧ code = storeWord p.2 .sp o)
      (args.zip Reg.args) codes ∧ ctx.prologue args = .ok
      (label ctx.name :: address .sp .sp (-ctx.frame.size) ++ storeWord .ra .sp ctx.frame.raOffset ++
        codes.flatten ++ if ctx.name = entryFunction then [(mv .tp .sp).note "global frame"] else []) := by
  have hslot : ∀ p ∈ args.zip Reg.args, ctx.frame.slot? p.1 = some ((ctx.frame.slot? p.1).getD 0) := by
    intro p hp
    obtain ⟨o, ho⟩ := hargs p.1 (List.of_mem_zip hp).1
    rw [ho]
    rfl
  refine ⟨(args.zip Reg.args).map fun p => storeWord p.2 .sp ((ctx.frame.slot? p.1).getD 0), ?_,
    Outcome.bind_ok ?_⟩
  · exact List.forall₂_map_right_iff.mpr (List.forall₂_same.mpr fun p hp => ⟨_, hslot p hp, rfl⟩)
  · refine Outcome.mapM_eq_ok.mpr (List.forall₂_map_right_iff.mpr (List.forall₂_same.mpr fun p hp => ?_))
    dsimp only
    rw [hslot p hp]
    rfl

theorem liesAt_lowered {s : Machine}
    (hroom : Machine.dataBase.toNat + f.size.toUInt32.toNat ≤ (s.read .sp).toUInt32.toNat)
    (htop : (s.read .sp).toUInt32.toNat ≤ s.memory.size) (hsp : v.regs .sp = s.read .sp - f.size)
    (hmemory : v.memory = s.memory) :
    f.LiesAt ((s.read .sp).toUInt32.toNat - f.size.toUInt32.toNat) v := by
  have hlt := UInt32.toNat_lt_size (s.read .sp).toUInt32
  refine ⟨?_, by omega, by rw [hmemory]; omega, by omega⟩
  rw [hsp, Int32.toUInt32_sub, UInt32.toNat_sub_of_le _ _ (UInt32.le_iff_toNat_le.mpr (by omega))]

theorem globalFrame_passage (ctx : Context) (v : View) :
    ∃ v', Passage labels symbols stdin
      (if ctx.name = entryFunction then [(mv .tp .sp).note "global frame"] else []) v v' ∧
      v'.memory = v.memory ∧ v'.regs .sp = v.regs .sp ∧
      v'.regs .tp = if ctx.name = entryFunction then v.regs .sp else v.regs .tp := by
  split
  · exact ⟨_, .note (.mv .nil), by simp, by simp, by simp⟩
  · exact ⟨v, .nil, rfl, rfl, rfl⟩

theorem enters (hf : ctx.frame.LaidOut words) (hargs : ∀ x ∈ args, ∃ o, ctx.frame.slot? x = some o) :
    ctx.Enters args := by
  obtain ⟨codes, hcodes, hstart⟩ := prologue_ok hargs
  refine ⟨_, hstart, fun labels symbols code stdin s hcode hroom htop => ?_⟩
  obtain ⟨v₁, haddress, hreads, hsp₁⟩ := address_passage s.view .sp .sp (by decide) (by decide)
  have hsp : v₁.regs .sp = s.read .sp - ctx.frame.size := hsp₁.trans (Int32.sub_eq_add_neg _ _).symm
  have hlies := liesAt_lowered hroom htop hsp hreads.memory
  obtain ⟨v₂, hra, hkeeps₂, hlies₂, hraWord, -⟩ :=
    hlies.store hf (Nat.le_refl words) (show Reg.ra ≠ .t3 by decide)
  have hregs : ∀ p ∈ args.zip Reg.args, p.2 ≠ .t3 ∧ v₂.regs p.2 = s.read p.2 := by
    intro p hp
    have hfixed : ∀ r ∈ Reg.args, r ∉ [.t3] ∧ r ∉ [.sp, .t3] := by decide
    obtain ⟨ht3, hsp⟩ := hfixed p.2 (List.of_mem_zip hp).2
    exact ⟨by simpa using ht3, (hkeeps₂.regs _ ht3).trans (hreads.regs _ hsp)⟩
  obtain ⟨v₃, hstores, hkeeps₃, hlies₃, hsame, hlast⟩ := hlies₂.stores hf hcodes hregs
  obtain ⟨v₄, hmv, hmemory, hsp₄, htp⟩ := globalFrame_passage ctx v₃
  rw [← hf.raOffset_eq] at hra
  obtain ⟨t, hafter, hpc, hview⟩ :=
    ((((Passage.label haddress).append hra).append hstores).append hmv) code s hcode rfl
  have hread (r : Reg) : t.read r = v₄.regs r := congrFun (congrArg View.regs hview) r
  have hmemory : t.memory = v₃.memory := (congrArg View.memory hview).trans hmemory
  have hsp₃ : v₃.regs .sp = v₁.regs .sp := (hkeeps₃.regs _ (by decide)).trans (hkeeps₂.regs _ (by decide))
  have hword {k : Nat} (hk : k ≤ words) : t.memory.word (t.read .sp + Frame.wordOffset k).toUInt32.toNat =
      v₃.memory.word ((s.read .sp).toUInt32.toNat - ctx.frame.size.toUInt32.toNat + 4 * k) := by
    rw [hmemory, hread, hsp₄, (hlies₃.word hf hk).1]
  refine ⟨t, hafter, hpc, ?_, ?_, fun i x r hx hr hbehind => ?_, ?_⟩
  · rw [hread, hsp₄, hsp₃, hsp]
  · rw [hf.raOffset_eq, hword (Nat.le_refl words), hsame words (Nat.le_refl words), hraWord]
    · exact hreads.regs .ra (by decide)
    · -- The word of the return address is behind those of the values.
      intro p _ hslot
      obtain ⟨i, hi, heq⟩ := hf.slot _ _ hslot
      have hsmall := hf.small
      have := Frame.wordOffset_inj (by omega) (by omega) heq
      omega
  · obtain ⟨k, hk, hslot, hstored⟩ :=
      hlast i (x, r) (List.getElem?_zip_eq_some.mpr ⟨hx, hr⟩) fun j q hj hq heq =>
      hbehind j hj ((List.getElem?_zip_eq_some.mp hq).1.trans (congrArg some heq))
    exact ⟨_, hslot, (hword (Nat.le_of_lt hk)).trans hstored⟩
  · rw [hread, hread, htp, hsp₄, hkeeps₃.regs .tp (by decide), hkeeps₂.regs .tp (by decide),
      hreads.regs .tp (by decide)]
    rfl

theorem leaves (ctx : Context) : ctx.Leaves := by
  intro labels symbols code stdin t sp ra hcode hsp hmapped hra
  obtain ⟨v₁, hload, hreads, hra₁⟩ :=
    loadWord_passage (v := t.view) (show Reg.ra ≠ .zero by decide) (by decide) hmapped
  obtain ⟨v₂, haddress, hreads', hsp'⟩ := address_passage v₁ .sp .sp (by decide) (by decide)
  obtain ⟨hfront, hret⟩ := Machine.codeAt_append.mp hcode
  obtain ⟨u, hafter, hpc, hview⟩ := ((Passage.label hload).append haddress) code t hfront rfl
  have hread (r : Reg) : u.read r = v₂.regs r := congrFun (congrArg View.regs hview) r
  have hu : u.read .ra = ra := by
    rw [hread, hreads'.regs .ra (by decide), hra₁]
    exact hra
  refine ⟨u, ?_, ?_, ?_, ?_, ?_⟩
  · rw [epilogue, List.length_append, List.length_singleton, Nat.add_sub_cancel]
    exact hafter
  · rw [hread, hsp', hreads.regs .sp (by decide)]
    change t.read .sp + ctx.frame.size = sp
    rw [hsp, Int32.sub_add_cancel]
  · rw [hread, hreads'.regs .a0 (by decide), hreads.regs .a0 (by decide)]
    rfl
  · exact (congrArg View.memory hview).trans (hreads'.memory.trans hreads.memory)
  · rw [← hpc] at hret
    rw [hret.step, ← hu]
    rfl

end Context

theorem Frame.LaidOut.inside (hf : f.LaidOut words) (hi : i < words) :
    0 ≤ (wordOffset i).toInt ∧ (wordOffset i).toInt < f.raOffset.toInt ∧ 4 ∣ (wordOffset i).toInt := by
  have hsmall := hf.small
  rw [hf.raOffset_eq, toInt_wordOffset (by omega), toInt_wordOffset (by omega)]
  exact ⟨by omega, by omega, ⟨i, rfl⟩⟩

/-- In a frame every value and every allocated location has a word of its own below that of the return
address. The code of the function starts with its prologue and ends with its epilogue. The prologue takes the
room for the frame and fills it, and the epilogue takes the frame away and returns, however large it is. -/
theorem frame_entered_left {m : Module} {func : OpId} (h : Frame.layout m func = .ok f) :
    (∃ words, f.LaidOut words) ∧ f.raOffset.toInt = f.size.toInt - 4 ∧
      (∀ o, (∃ x, f.slot? x = some o) ∨ (∃ id, f.alloc? id = some o) → 0 ≤ o.toInt ∧
        o.toInt < f.raOffset.toInt ∧ 4 ∣ o.toInt) ∧
      ∃ op body, m.op func = .ok op ∧ op.regions.head? = some body ∧
        (∀ x ∈ body.args, ∃ o, f.slot? x = some o) ∧ (∀ id ∈ body.ops, ∀ op, m.op id = .ok op →
          (∀ x, op.result = some x → ∃ o, f.slot? x = some o) ∧
          (op.kind = .flat .alloc → ∃ o, f.alloc? id = some o)) ∧
        (∀ name global, (⟨m, func, name, f, global⟩ : Context).Enters body.args ∧
          (⟨m, func, name, f, global⟩ : Context).Leaves) ∧
        ∀ main global is, Frame.layout m main = .ok global → functionCode m main global func = .ok is →
          ∃ name start codes, functionName m func = .ok name ∧
            (⟨m, func, name, f, global⟩ : Context).prologue body.args = .ok start ∧
            is = start ++ codes ++ (⟨m, func, name, f, global⟩ : Context).epilogue := by
  obtain ⟨op, body, ops, hop, hbody, hops, hlists⟩ := Frame.layout_eq_ok h
  obtain ⟨hf, hslots, hallocs⟩ := Frame.ofLists_laidOut hlists
  have hargs : ∀ x ∈ body.args, ∃ o, f.slot? x = some o := fun x hx => hslots x (List.mem_append_left _ hx)
  refine ⟨⟨_, hf⟩, ?_, ?_, op, body, hop, hbody, hargs, fun id hid o ho => ⟨fun x hx => ?_, fun hkind => ?_⟩,
    fun name global => ⟨Context.enters hf hargs, Context.leaves _⟩, fun main global is hglobal his => ?_⟩
  · have hsmall := hf.small
    rw [hf.raOffset_eq, hf.size, Frame.toInt_wordOffset (by omega), Frame.toInt_wordOffset hsmall]
    omega
  · rintro o (⟨x, hx⟩ | ⟨id, hid⟩)
    · obtain ⟨i, hi, rfl⟩ := hf.slot x o hx
      exact hf.inside hi
    · obtain ⟨i, hi, rfl⟩ := hf.alloc id o hid
      exact hf.inside hi
  · exact Frame.slot?_result h hop hbody hid ho hx
  · exact hallocs id (List.mem_map.mpr ⟨(id, o),
      List.mem_filter.mpr ⟨Frame.mem_zip_of_op hops hid ho, decide_eq_true hkind⟩, rfl⟩)
  · obtain ⟨op', body', frame, name, start, codes, hop', hbody', hname, -, hframe, hstart, -, rfl⟩ :=
      functionCode_eq_ok hglobal his
    cases hop.symm.trans hop'
    cases hbody.symm.trans hbody'
    cases h.symm.trans hframe
    exact ⟨name, start, codes.flatten, hname, hstart, rfl⟩

/-- A function with two parameters and 256 locations, whose frame is too large for an immediate operand. -/
def wideFunction : Module where
  slots :=
    (⟨0, some ⟨.funcDef "f" .int, [], none, [⟨[⟨0⟩, ⟨1⟩], (List.range' 1 256).map (⟨·, 0⟩)⟩], some .top⟩⟩ ::
    (List.range' 2 256).map fun v =>
      ⟨0, some ⟨.flat .alloc, [], some ⟨v⟩, [], some (.nested ⟨0, 0⟩ 0)⟩⟩).toArray
  body := { ops := [⟨0, 0⟩] }

/-- A machine with a stack of 28672 bytes goes through the prologue of the function and its epilogue. -/
theorem wideFunction_entered_left :
    ∃ (f : Frame) (start : List Instr) (s t u : Machine) (code : Array Line), Frame.layout wideFunction
      ⟨0, 0⟩ = .ok f ∧ f.size = 2060 ∧ (⟨wideFunction, ⟨0, 0⟩, "f", f, {}⟩ : Context).prologue [⟨0⟩, ⟨1⟩] =
      .ok start ∧ CodeAt [] [] code 0 (start ++ (⟨wideFunction, ⟨0, 0⟩, "f", f, {}⟩ : Context).epilogue) ∧
      s.read .sp = 32768 ∧ s.after code #[] start.length = some t ∧
      (⟨wideFunction, ⟨0, 0⟩, "f", f, {}⟩ : Context).Entered [⟨0⟩, ⟨1⟩] s t ∧ Machine.Reaches code #[] t u ∧
      u.read .sp = s.read .sp ∧ u.step code #[] = .next { u with pc := (s.read .ra).toInt.toNat } := by
  have hcheck : (Frame.layout wideFunction ⟨0, 0⟩).toOption.any (·.size = 2060) = true := by decide +kernel
  cases h : Frame.layout wideFunction ⟨0, 0⟩ with
  | error e =>
    rw [h] at hcheck
    cases hcheck
  | ok f =>
    rw [h] at hcheck
    have hsize : f.size = 2060 := of_decide_eq_true hcheck
    obtain ⟨-, -, -, op, body, hop, hbody, -, -, hctx, -⟩ := frame_entered_left h
    obtain ⟨ops, hfunc⟩ : ∃ ops, wideFunction.op ⟨0, 0⟩ =
        .ok ⟨.funcDef "f" .int, [], none, [⟨[⟨0⟩, ⟨1⟩], ops⟩], some .top⟩ := by
      refine ⟨(List.range' 1 256).map (⟨·, 0⟩), ?_⟩
      simp only [Module.op, Module.get?, wideFunction, List.getElem?_toArray, List.getElem?_cons_zero]
      rfl
    cases hfunc.symm.trans hop
    cases hbody
    obtain ⟨⟨start, hstart, henters⟩, hleaves⟩ := hctx "f" {}
    have hcode := Machine.codeAt_map [] [] (start ++ (⟨wideFunction, ⟨0, 0⟩, "f", f, {}⟩ : Context).epilogue)
    generalize ((start ++ (⟨wideFunction, ⟨0, 0⟩, "f", f, {}⟩ : Context).epilogue).map
      (resolve [] [])).toArray = code at hcode
    obtain ⟨hprologue, hepilogue⟩ := Machine.codeAt_append.mp hcode
    let s := ofImage ⟨code, { size := 32768 }, 0⟩
    have hsp : s.read .sp = 32768 := rfl
    have hmemory : s.memory.size = 32768 := rfl
    obtain ⟨t, hafter, hpc, hentered⟩ := henters [] [] code #[] s hprologue (by rw [hsize, hsp]; decide)
      (by rw [hsp, hmemory]; decide)
    have hat : t.pc = 0 + start.length := hpc
    have hmapped : t.Mapped (t.read .sp + f.raOffset) 4 := by
      rw [hentered.sp, hsp, Frame.raOffset, hsize, Machine.Mapped,
        (Machine.kept_of_after hafter).size, hmemory]
      decide
    obtain ⟨u, hafter', hsp', -, -, hreturn⟩ :=
      hleaves [] [] code #[] t _ _ (hat ▸ hepilogue) hentered.sp hmapped hentered.ra
    exact ⟨f, start, s, t, u, code, rfl, hsize, hstart, hcode, hsp, hafter, hentered,
      Machine.reaches_of_after hafter', hsp', hreturn⟩

end Choco.Asm
