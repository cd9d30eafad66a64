import Choco.Proofs.Effects
import Choco.Proofs.FrameLayout
import Choco.Proofs.Passages

namespace Choco.Asm

open IR (Module Op OpId ValueId FlatOp Effect)
open Machine (CodeAt Leads Line Memory Passage Ran View)
open Instr

variable {labels : List (String × Nat)} {symbols : List (String × UInt32)} {code : Array Line}
  {stdin : Array UInt8} {s : Machine} {v v₁ v' : View} {rd base src : Reg} {offset : Int32}

theorem address_passage (v : View) (rd base : Reg) (hrd : rd ≠ .zero) (hbase : base ≠ .t3) :
    ∃ v', Passage labels symbols stdin (address rd base offset) v v' ∧ v.Reads [rd, .t3] v' ∧
      v'.regs rd = v.regs base + offset := by
  unfold address
  split
  next => exact ⟨_, .addi .nil, .put (by simp) (.refl _ v), by simp [hrd]⟩
  next =>
    exact ⟨_, .li (.alu .nil), .put (by simp) (.put (by simp) (.refl _ v)), by simp [hrd, hbase, AluOp.eval]⟩

theorem loadWord_passage (hrd : rd ≠ .zero) (hbase : base ≠ .t3)
    (hmapped : v.Mapped (v.regs base + offset) 4) :
    ∃ v', Passage labels symbols stdin (loadWord rd base offset) v v' ∧ v.Reads [rd, .t3] v' ∧
      v'.regs rd = v.memory.word (v.regs base + offset).toUInt32.toNat := by
  unfold loadWord
  split
  next => exact ⟨_, .lw hmapped .nil, .put (by simp) (.refl _ v), by simp [hrd]⟩
  next =>
    obtain ⟨v₁, haddress, hreads, ht3⟩ := address_passage v .t3 base (by decide) hbase
    have heq : v₁.regs .t3 + 0 = v.regs base + offset := by rw [ht3, Int32.add_zero]
    have hmapped₁ : v₁.Mapped (v₁.regs .t3 + 0) 4 := hmapped.of_size (by rw [hreads.memory]) heq
    exact ⟨_, haddress.append (.lw hmapped₁ .nil),
      .put (by simp) (hreads.mono (by simp)), by simp [hrd, ht3, hreads.memory]⟩

theorem storeWord_passage (hsrc : src ≠ .t3) (hbase : base ≠ .t3)
    (hmapped : v.Mapped (v.regs base + offset) 4) :
    ∃ v', Passage labels symbols stdin (storeWord src base offset) v v' ∧ v.Keeps [.t3] v' ∧
      v'.memory = v.memory.setWord (v.regs base + offset).toUInt32.toNat (v.regs src) := by
  unfold storeWord
  split
  next => exact ⟨_, .sw hmapped .nil, .memory (.refl _ v), rfl⟩
  next =>
    obtain ⟨v₁, haddress, hreads, ht3⟩ := address_passage v .t3 base (by decide) hbase
    have heq : v₁.regs .t3 + 0 = v.regs base + offset := by rw [ht3, Int32.add_zero]
    have hmapped₁ : v₁.Mapped (v₁.regs .t3 + 0) 4 := hmapped.of_size (by rw [hreads.memory]) heq
    refine ⟨_, haddress.append (.sw hmapped₁ .nil), .memory (hreads.toKeeps.mono (by simp)), ?_⟩
    rw [heq, hreads.memory, hreads.regs src (by simpa using hsrc)]

namespace Context

variable {ctx : Context} {x : ValueId} {is : List Instr} {touched : List Reg} {func : String}

/-- Where a value is kept: in the function's own frame or in the entry function's. -/
def addressOf? (ctx : Context) (s : Machine) (v : ValueId) : Option Int32 :=
  match ctx.frame.slot? v with
  | some offset => some (s.read .sp + offset)
  | none => (ctx.global.slot? v).map (s.read .tp + ·)

/-- The word in the place of a value. -/
def wordOf? (ctx : Context) (s : Machine) (v : ValueId) : Option Int32 :=
  (ctx.addressOf? s v).map fun a => s.memory.word a.toUInt32.toNat

/-- Both frames are mapped. -/
structure Ready (ctx : Context) (s : Machine) : Prop where
  size : s.memory.size ≤ UInt32.size
  frame : s.Mapped (s.read .sp) ctx.frame.size.toUInt32.toNat
  global : s.Mapped (s.read .tp) ctx.global.size.toUInt32.toNat

structure LaidOut (ctx : Context) : Prop where
  frame : ∃ words, ctx.frame.LaidOut words
  global : ∃ words, ctx.global.LaidOut words

/-- As for `addressOf?`, without a position. -/
def placeOf? (ctx : Context) (v : View) (x : ValueId) : Option Int32 :=
  match ctx.frame.slot? x with
  | some offset => some (v.regs .sp + offset)
  | none => (ctx.global.slot? x).map (v.regs .tp + ·)

def wordAt? (ctx : Context) (v : View) (x : ValueId) : Option Int32 :=
  (ctx.placeOf? v x).map fun a => v.memory.word a.toUInt32.toNat

structure Fits (ctx : Context) (v : View) : Prop where
  size : v.memory.size ≤ UInt32.size
  frame : v.Mapped (v.regs .sp) ctx.frame.size.toUInt32.toNat
  global : v.Mapped (v.regs .tp) ctx.global.size.toUInt32.toNat

theorem Ready.fits (h : ctx.Ready s) : ctx.Fits s.view := ⟨h.size, h.frame, h.global⟩

theorem Fits.of_reads (h : ctx.Fits v) (hreads : v.Reads touched v') (hsp : .sp ∉ touched)
    (htp : .tp ∉ touched) : ctx.Fits v' where
  size := hreads.memory ▸ h.size
  frame := h.frame.of_size (by rw [hreads.memory]) (hreads.regs _ hsp)
  global := h.global.of_size (by rw [hreads.memory]) (hreads.regs _ htp)

theorem wordAt?_of_reads (hreads : v.Reads touched v') (hsp : .sp ∉ touched) (htp : .tp ∉ touched) :
    ctx.wordAt? v' = ctx.wordAt? v := by
  funext x
  unfold wordAt? placeOf?
  rw [hreads.regs _ hsp, hreads.regs _ htp, hreads.memory]

theorem mapped_slot {f : Frame} {words i : Nat} (hf : f.LaidOut words) (hi : i < words)
    (hsize : v.memory.size ≤ UInt32.size) (h : v.Mapped (v.regs base) f.size.toUInt32.toNat) :
    v.Mapped (v.regs base + Frame.wordOffset i) 4 := by
  obtain ⟨hlow, hhigh⟩ := h
  rw [hf.size, Frame.toNat_wordOffset hf.small] at hhigh
  have hoffset : (Frame.wordOffset i).toUInt32.toNat = 4 * i :=
    Frame.toNat_wordOffset (by have := hf.small; omega)
  have hsum : (v.regs base + Frame.wordOffset i).toUInt32.toNat = (v.regs base).toUInt32.toNat + 4 * i := by
    rw [Int32.toUInt32_add, UInt32.toNat_add, hoffset]
    exact Nat.mod_eq_of_lt (by unfold UInt32.size at hsize; omega)
  refine ⟨?_, by omega⟩
  rw [UInt32.le_iff_toNat_le] at hlow ⊢
  omega

theorem locate_spec (hctx : ctx.LaidOut) (h : ctx.locate x = .ok (base, offset)) (hv : ctx.Fits v) :
    base ≠ .t3 ∧ ctx.placeOf? v x = some (v.regs base + offset) ∧ v.Mapped (v.regs base + offset) 4 := by
  unfold locate at h
  unfold placeOf?
  cases hslot : ctx.frame.slot? x with
  | some o =>
    rw [hslot] at h
    cases h
    obtain ⟨words, hf⟩ := hctx.frame
    obtain ⟨i, hi, rfl⟩ := hf.slot x _ hslot
    exact ⟨by decide, rfl, mapped_slot hf hi hv.size hv.frame⟩
  | none =>
    rw [hslot] at h
    simp only at h
    split at h
    next o hglobal =>
      cases h
      split at hglobal
      · cases hglobal
      · obtain ⟨words, hf⟩ := hctx.global
        obtain ⟨i, hi, rfl⟩ := hf.slot x _ hglobal
        exact ⟨by decide, by rw [hglobal]; rfl, mapped_slot hf hi hv.size hv.global⟩
    next => cases h

theorem load_passage (hctx : ctx.LaidOut) (hload : ctx.load rd x = .ok is) (hrd : rd ≠ .zero)
    (hv : ctx.Fits v) :
    ∃ v' w, Passage labels symbols stdin is v v' ∧ v.Reads [rd, .t3] v' ∧ ctx.wordAt? v x = some w ∧
      v'.regs rd = w := by
  obtain ⟨⟨base, offset⟩, hlocate, his⟩ := Outcome.bind_eq_ok.mp hload
  cases his
  obtain ⟨hbase, hplace, hmapped⟩ := locate_spec hctx hlocate hv
  obtain ⟨v', hpassage, hreads, hrd'⟩ := loadWord_passage hrd hbase hmapped
  exact ⟨v', _, hpassage, hreads, by rw [wordAt?, hplace]; rfl, hrd'⟩

/-- Registers that the code of any operation may change. -/
def scratch : List Reg := [.t0, .t1, .t2, .t3]

/-- The machine gets past the next `length` instructions and has put `w` in the place of the result. -/
def Yields (ctx : Context) (code : Array Line) (stdin : Array UInt8) (touched : List Reg) (length : Nat)
    (result : Option ValueId) (s : Machine) (w : Int32) : Prop :=
  ∃ s' v offset, result = some v ∧ ctx.frame.slot? v = some offset ∧ s'.pc = s.pc + length ∧
    Ran code stdin touched s s' (s.memory.setWord (s.read .sp + offset).toUInt32.toNat w) ∧
    s.memory.Updated (s.read .sp + offset).toUInt32.toNat w s'.memory

/-- What the code of an operation, `length` instructions from the machine's position on, does when the
operation has this effect. -/
def Performs (ctx : Context) (labels : List (String × Nat)) (code : Array Line) (stdin : Array UInt8)
    (length : Nat) (id : OpId) (result : Option ValueId) (s : Machine) : Effect Int32 → Prop
  | .value w => ctx.Yields code stdin scratch length result s w
  | .load a offset =>
    s.Mapped (a + offset) 4 →
      ctx.Yields code stdin scratch length result s (s.memory.word (a + offset).toUInt32.toNat)
  | .store a offset w =>
    s.Mapped (a + offset) 4 →
      ∃ s', Ran code stdin scratch s s' (s.memory.setWord (a + offset).toUInt32.toNat w) ∧
        s'.pc = s.pc + length ∧ s.memory.Updated (a + offset).toUInt32.toNat w s'.memory
  | .next => ∃ s', Ran code stdin scratch s s' s.memory ∧ s'.pc = s.pc + length
  | .goto l => ∀ k, labels.lookup l = some k → ∃ s', Ran code stdin scratch s s' s.memory ∧ s'.pc = k
  | .call func args =>
    args.length ≤ Reg.args.length ∧ ∃ before, before ≤ length ∧
      (∀ k, labels.lookup func = some k →
        ∃ s', Ran code stdin (.ra :: .t3 :: Reg.args.take args.length) s s' s.memory ∧ s'.pc = k ∧
          s'.read .ra = Int32.ofNat (s.pc + before) ∧
          ∀ p ∈ args.zip Reg.args, s'.read p.2 = p.1) ∧
      -- when the callee is back
      ∀ s', s'.pc = s.pc + before → ctx.Ready s' →
        if result.isSome then ctx.Yields code stdin [.t3] (length - before) result s' (s'.read .a0)
        else before = length
  | .ret w =>
    ∀ k, labels.lookup (returnLabel ctx.name) = some k →
      ∃ s', Ran code stdin [.a0, .t3] s s' s.memory ∧ s'.pc = k ∧ s'.read .a0 = w
  | .cell =>
    ∃ offset, ctx.frame.alloc? id = some offset ∧
      ctx.Yields code stdin scratch length result s (s.read .sp + offset)

variable {id : OpId} {flat : FlatOp} {operands : List ValueId} {result : Option ValueId}

def Owns (ctx : Context) (result : Option ValueId) : Prop :=
  ∀ v, result = some v → ∃ offset, ctx.frame.slot? v = some offset

theorem store_passage (hctx : ctx.LaidOut) (howns : ctx.Owns result) (hstore : ctx.store src result = .ok is)
    (hsrc : src ≠ .t3) (hv : ctx.Fits v) :
    ∃ v' x offset, result = some x ∧ ctx.frame.slot? x = some offset ∧ Passage labels symbols stdin is v v' ∧
      v.Keeps [.t3] v' ∧ v'.memory = v.memory.setWord (v.regs .sp + offset).toUInt32.toNat (v.regs src) := by
  cases result with
  | none => cases hstore
  | some x =>
    obtain ⟨⟨base, offset⟩, hlocate, his⟩ := Outcome.bind_eq_ok.mp hstore
    cases his
    obtain ⟨hbase, hplace, hmapped⟩ := locate_spec hctx hlocate hv
    obtain ⟨o, ho⟩ := howns x rfl
    obtain ⟨v', hpassage, hkeeps, hmemory⟩ := storeWord_passage hsrc hbase hmapped
    have heq : v.regs base + offset = v.regs .sp + o := by
      rw [placeOf?, ho] at hplace
      exact (Option.some.inj hplace).symm
    exact ⟨v', x, o, rfl, ho, hpassage, hkeeps, heq ▸ hmemory⟩

theorem operand₁_eq_ok (h : ctx.operand₁ operands = .ok x) : operands = [x] := by
  unfold operand₁ at h
  split at h
  · cases h; rfl
  · cases h

theorem operand₂_eq_ok {y : ValueId} (h : ctx.operand₂ operands = .ok (x, y)) : operands = [x, y] := by
  unfold operand₂ at h
  split at h
  · cases h; rfl
  · cases h

section Yields

variable {first last : List Instr} (hctx : ctx.LaidOut) (howns : ctx.Owns result) (hs : ctx.Ready s)

include hctx howns hs

/-- Code that computes a word and then stores it as the result. -/
theorem yields_of_passage (hfirst : Passage labels symbols stdin first s.view v₁)
    (hreads : s.view.Reads touched v₁) (hlast : ctx.store src result = .ok last) (hsrc : src ≠ .t3)
    (hcode : CodeAt labels symbols code s.pc (first ++ last))
    (hsub : .t3 ∈ touched ∧ .sp ∉ touched ∧ .tp ∉ touched) :
    ctx.Yields code stdin touched (first ++ last).length result s (v₁.regs src) := by
  obtain ⟨ht3, hsp, htp⟩ := hsub
  obtain ⟨v₂, x, o, hx, ho, hstore, hkeeps, hmemory⟩ :=
    store_passage hctx howns hlast hsrc (hs.fits.of_reads hreads hsp htp)
  rw [hreads.memory, hreads.regs _ hsp] at hmemory
  have hall := (hreads.toKeeps.trans hkeeps).mono
    (List.append_subset.mpr ⟨List.Subset.refl _, by simpa using ht3⟩)
  obtain ⟨t, hran, hpc, -⟩ := ((hfirst.append hstore).leads hcode).ran hall hmemory
  exact ⟨t, x, o, hx, ho, hpc, hran, hran.memory ▸ Memory.setWord_updated _ _ _⟩

theorem yields_of_put {w : Int32} (hfirst : Passage labels symbols stdin first s.view (v₁.put .t0 w))
    (hreads : s.view.Reads scratch v₁) (hlast : ctx.store .t0 result = .ok last)
    (hcode : CodeAt labels symbols code s.pc (first ++ last)) :
    ctx.Yields code stdin scratch (first ++ last).length result s w := by
  have hyields := yields_of_passage hctx howns hs hfirst (.put (by decide) hreads) hlast (by decide) hcode
    (by decide)
  rwa [View.regs_put, if_pos (by decide)] at hyields

theorem unary_yields {compute : Instr} (hunary : ctx.unary operands result compute = .ok is)
    (hcode : CodeAt labels symbols code s.pc is) :
    ∃ w, operands.mapM (ctx.wordOf? s) = some [w] ∧
      ∀ w', (∀ v₁ : View, v₁.regs .t1 = w → v₁.memory = s.memory →
        Passage labels symbols stdin [compute] v₁ (v₁.put .t0 w')) →
        ctx.Yields code stdin scratch is.length result s w' := by
  obtain ⟨x, hoperands, hunary⟩ := Outcome.bind_eq_ok.mp hunary
  obtain ⟨first, hx, hunary⟩ := Outcome.bind_eq_ok.mp hunary
  obtain ⟨last, hstore, his⟩ := Outcome.bind_eq_ok.mp hunary
  cases operand₁_eq_ok hoperands
  cases his
  obtain ⟨v₁, w, hfirst, hreads, hw, ht1⟩ := load_passage hctx hx (by decide) hs.fits
  refine ⟨w, Outcome.mapM_eq_some.mpr (.cons hw .nil), fun w' hcompute => ?_⟩
  rw [List.append_cons] at hcode ⊢
  exact yields_of_put hctx howns hs (hfirst.append (hcompute v₁ ht1 hreads.memory))
    (hreads.mono (by decide)) hstore hcode

end Yields

theorem loadTwo_passage (hctx : ctx.LaidOut) (hload : ctx.loadTwo operands = .ok is) (hs : ctx.Ready s) :
    ∃ v', operands.mapM (ctx.wordOf? s) = some [v'.regs .t1, v'.regs .t2] ∧
      Passage labels symbols stdin is s.view v' ∧
      s.view.Reads [.t1, .t2, .t3] v' := by
  obtain ⟨⟨x, y⟩, hoperands, hload⟩ := Outcome.bind_eq_ok.mp hload
  obtain ⟨first, hx, hload⟩ := Outcome.bind_eq_ok.mp hload
  obtain ⟨second, hy, his⟩ := Outcome.bind_eq_ok.mp hload
  cases operand₂_eq_ok hoperands
  cases his
  obtain ⟨v₁, w₁, hfirst, hreads₁, hw₁, ht1⟩ := load_passage hctx hx (by decide) hs.fits
  obtain ⟨v₂, w₂, hsecond, hreads₂, hw₂, rfl⟩ :=
    load_passage hctx hy (by decide) (hs.fits.of_reads hreads₁ (by decide) (by decide))
  rw [wordAt?_of_reads hreads₁ (by decide) (by decide)] at hw₂
  rw [← ht1, ← hreads₂.regs .t1 (by decide)] at hw₁
  exact ⟨v₂, Outcome.mapM_eq_some.mpr (.cons hw₁ (.cons hw₂ .nil)), hfirst.append hsecond,
    (hreads₁.trans hreads₂).mono (by decide)⟩

theorem loadArgs_passage {pairs : List (ValueId × Reg)} (hctx : ctx.LaidOut)
    (hload : ctx.loadArgs pairs = .ok is) (hv : ctx.Fits v) (hnodup : (pairs.map (·.2)).Nodup)
    (hregs : ∀ p ∈ pairs, p.2 ∈ Reg.args) :
    ∃ v' ws, List.Forall₂ (fun x w => ctx.wordAt? v x = some w) (pairs.map (·.1)) ws ∧
      Passage labels symbols stdin is v v' ∧
      v.Reads (.t3 :: pairs.map (·.2)) v' ∧ ∀ p ∈ ws.zip (pairs.map (·.2)), v'.regs p.2 = p.1 := by
  induction pairs generalizing v is with
  | nil =>
    cases hload
    exact ⟨v, [], .nil, .nil, .refl _ v, by simp⟩
  | cons p pairs ih =>
    obtain ⟨x, r⟩ := p
    obtain ⟨first, hx, hload⟩ := Outcome.bind_eq_ok.mp hload
    obtain ⟨rest, hrest, his⟩ := Outcome.bind_eq_ok.mp hload
    cases his
    have hfixed : ∀ r ∈ Reg.args, r ≠ .zero ∧ .sp ∉ [r, .t3] ∧ .tp ∉ [r, .t3] ∧ r ≠ .t3 := by decide
    obtain ⟨hzero, hsp, htp, ht3⟩ := hfixed r (hregs (x, r) List.mem_cons_self)
    obtain ⟨v₁, w, hfirst, hreads₁, hw, hread⟩ := load_passage hctx hx hzero hv
    obtain ⟨hnotMem, hnodup⟩ := List.nodup_cons.mp hnodup
    obtain ⟨v₂, ws, hws, hlast, hreads₂, hargs⟩ := ih hrest (hv.of_reads hreads₁ hsp htp) hnodup
      fun p hp => hregs p (List.mem_cons_of_mem _ hp)
    rw [wordAt?_of_reads hreads₁ hsp htp] at hws
    refine ⟨v₂, w :: ws, .cons hw hws, hfirst.append hlast, (hreads₁.trans hreads₂).mono (by simp),
      fun q hq => ?_⟩
    obtain rfl | hq := List.mem_cons.mp hq
    · rw [hreads₂.regs r (by simpa [ht3] using hnotMem), hread]
    · exact hargs q hq

section Performs

variable (hctx : ctx.LaidOut) (hcode : CodeAt labels symbols code s.pc is) (hs : ctx.Ready s)

include hctx hcode hs

theorem binary_yields {op : AluOp} (howns : ctx.Owns result)
    (hflat : ctx.flatCode id (.alu op) operands result = .ok is) :
    ∃ x y, operands.mapM (ctx.wordOf? s) = some [x, y] ∧
      ctx.Yields code stdin scratch is.length result s (op.eval x y) := by
  obtain ⟨first, hload, hflat⟩ := Outcome.bind_eq_ok.mp hflat
  obtain ⟨last, hstore, his⟩ := Outcome.bind_eq_ok.mp hflat
  cases his
  obtain ⟨v₁, hwords, hfirst, hreads⟩ := loadTwo_passage hctx hload hs
  refine ⟨_, _, hwords, ?_⟩
  rw [List.append_cons] at hcode ⊢
  exact yields_of_put hctx howns hs (hfirst.append (.alu .nil)) (hreads.mono (by decide)) hstore hcode

theorem store_performs (hflat : ctx.flatCode id (.sw offset) operands result = .ok is) :
    ∃ x y, operands.mapM (ctx.wordOf? s) = some [x, y] ∧
      ctx.Performs labels code stdin is.length id result s (.store x offset y) := by
  obtain ⟨first, hload, his⟩ := Outcome.bind_eq_ok.mp hflat
  cases his
  obtain ⟨v₁, hwords, hfirst, hreads⟩ := loadTwo_passage hctx hload hs
  refine ⟨_, _, hwords, fun hmapped => ?_⟩
  have hmapped₁ : v₁.Mapped (v₁.regs .t1 + offset) 4 := ⟨hmapped.1, hreads.memory ▸ hmapped.2⟩
  have hkeeps := hreads.toKeeps.mono (show _ ⊆ scratch by decide)
  obtain ⟨t, hran, hpc, -⟩ := ((hfirst.append (.sw hmapped₁ .nil)).leads hcode).ran hkeeps.memory
    (by rw [hreads.memory])
  exact ⟨t, hran, hpc, hran.memory ▸ Memory.setWord_updated _ _ _⟩

theorem branch_performs {cond : Cond} {l : String}
    (hflat : ctx.flatCode id (.branch cond l) operands result = .ok is) :
    ∃ x y, operands.mapM (ctx.wordOf? s) = some [x, y] ∧
      ctx.Performs labels code stdin is.length id result s (if cond.holds x y then .goto l else .next) := by
  obtain ⟨first, hload, his⟩ := Outcome.bind_eq_ok.mp hflat
  cases his
  obtain ⟨v₁, hwords, hfirst, hreads⟩ := loadTwo_passage hctx hload hs
  obtain ⟨hload, hbranch⟩ := Machine.codeAt_append.mp hcode
  have hkeeps := hreads.toKeeps.mono (show _ ⊆ scratch by decide)
  refine ⟨_, _, hwords, ?_⟩
  cases hcond : cond.holds (v₁.regs .t1) (v₁.regs .t2) with
  | true =>
    intro k hk
    obtain ⟨t, hran, hpc, -⟩ := ((hfirst.leads hload).trans (.taken hbranch hcond hk)).ran hkeeps
      hreads.memory
    exact ⟨t, hran, hpc⟩
  | false =>
    obtain ⟨t, hran, hpc, -⟩ := ((hfirst.leads hload).trans (.passed hbranch hcond)).ran hkeeps hreads.memory
    refine ⟨t, hran, ?_⟩
    rw [hpc, List.length_append, Nat.add_assoc]
    rfl

theorem return_performs (hflat : ctx.flatCode id .ret operands result = .ok is) :
    ∃ x, operands.mapM (ctx.wordOf? s) = some [x] ∧ ctx.Performs labels code stdin is.length id result s
      (.ret x) := by
  obtain ⟨x, hoperands, hflat⟩ := Outcome.bind_eq_ok.mp hflat
  obtain ⟨first, hload, his⟩ := Outcome.bind_eq_ok.mp hflat
  cases operand₁_eq_ok hoperands
  cases his
  obtain ⟨v₁, w, hfirst, hreads, hw, ha0⟩ := load_passage hctx hload (by decide) hs.fits
  obtain ⟨hload, hjump⟩ := Machine.codeAt_append.mp hcode
  refine ⟨w, Outcome.mapM_eq_some.mpr (.cons hw .nil), fun k hk => ?_⟩
  obtain ⟨t, hran, hpc, rfl⟩ := ((hfirst.leads hload).trans (.jump hjump hk)).ran hreads.toKeeps hreads.memory
  exact ⟨t, hran, hpc, ha0⟩

end Performs

theorem flatCode_call (h : ctx.flatCode id (.call func) operands result = .ok is) :
    operands.length ≤ Reg.args.length ∧
      ∃ args rest, is = args ++ jal func :: rest ∧ ctx.loadArgs (operands.zip Reg.args) = .ok args ∧
        (if result.isSome then ctx.store .a0 result = .ok rest else rest = []) := by
  simp only [flatCode] at h
  split at h
  next => cases h
  next hfew =>
    obtain ⟨args, hargs, h⟩ := Outcome.bind_eq_ok.mp h
    refine ⟨Nat.le_of_not_lt hfew, args, ?_⟩
    split at h
    next hsome =>
      obtain ⟨rest, hrest, his⟩ := Outcome.bind_eq_ok.mp h
      cases his
      exact ⟨rest, rfl, hargs, (if_pos hsome).mpr hrest⟩
    next hnone =>
      cases h
      exact ⟨[], rfl, hargs, (if_neg hnone).mpr rfl⟩

theorem call_performs (hctx : ctx.LaidOut) (howns : ctx.Owns result)
    (hflat : ctx.flatCode id (.call func) operands result = .ok is)
    (hcode : CodeAt labels symbols code s.pc is) (hs : ctx.Ready s) :
    ∃ xs, operands.mapM (ctx.wordOf? s) = some xs ∧
      ctx.Performs labels code stdin is.length id result s (.call func xs) := by
  obtain ⟨hfew, args, rest, rfl, hargs, hrest⟩ := flatCode_call hflat
  obtain ⟨hfirst, hlast⟩ := Machine.codeAt_append.mp hcode
  have hregs : (operands.zip Reg.args).map (·.2) = Reg.args.take operands.length := by
    rw [List.zip_eq_zip_take_min, Nat.min_eq_left hfew, List.take_length,
      List.map_snd_zip (List.length_take_le _ _)]
  have hnodup : (Reg.args.take operands.length).Nodup :=
    List.Sublist.nodup (List.take_sublist _ _) (by decide)
  obtain ⟨v₁, ws, hws, hpassage, hreads, hread⟩ := loadArgs_passage hctx hargs hs.fits (hregs ▸ hnodup)
    fun p hp => (List.of_mem_zip hp).2
  rw [List.map_fst_zip hfew] at hws
  have hlength := hws.length_eq
  rw [hregs, hlength] at hreads hread
  refine ⟨ws, Outcome.mapM_eq_some.mpr hws, hlength ▸ hfew,
    args.length + 1, by simp, fun k hk => ?_, fun s' hpc' hs' => ?_⟩
  · have hkeeps := (hreads.toKeeps.mono (List.subset_cons_self .ra _)).put
      (w := Int32.ofNat (s.pc + args.length + 1)) List.mem_cons_self
    obtain ⟨t, hran, hpc, hview⟩ := ((hpassage.leads hfirst).trans (.call hlast hk)).ran hkeeps
      ((View.memory_put _ _ _).trans hreads.memory)
    have hjal : ∀ r, t.read r = if r = .ra then Int32.ofNat (s.pc + args.length + 1) else v₁.regs r :=
      fun r => by
      rw [show t.read r = t.view.regs r from rfl, hview]
      simp
    refine ⟨t, hran, hpc, hjal .ra, fun p hp => ?_⟩
    have hne : p.2 ≠ .ra := fun h => absurd (List.of_mem_zip hp).2 (by rw [h]; decide)
    refine (hjal p.2).trans ((if_neg hne).trans (hread p ?_))
    rwa [List.zip_eq_zip_take_min, Nat.min_eq_left (hlength ▸ hfew), List.take_length] at hp
  · have hrestCode : CodeAt labels symbols code s'.pc rest := by
      rw [hpc', ← Nat.add_assoc]
      exact (Machine.codeAt_cons.mp hlast).2
    split
    next hsome =>
      rw [if_pos hsome] at hrest
      have hlen : (args ++ jal func :: rest).length - (args.length + 1) = rest.length := by simp; omega
      rw [hlen]
      exact yields_of_passage hctx howns hs' .nil (.refl [.t3] s'.view) hrest (by decide) hrestCode
        (by decide)
    next hnone =>
      rw [if_neg hnone] at hrest
      simp [hrest]

theorem alloc_performs (hctx : ctx.LaidOut) (howns : ctx.Owns result)
    (hflat : ctx.flatCode id .alloc operands result = .ok is) (hcode : CodeAt labels symbols code s.pc is)
    (hs : ctx.Ready s) : ctx.Performs labels code stdin is.length id result s .cell := by
  simp only [flatCode] at hflat
  split at hflat
  next o halloc =>
    obtain ⟨last, hstore, his⟩ := Outcome.bind_eq_ok.mp hflat
    cases his
    obtain ⟨v₁, hfirst, hreads, ht0⟩ := address_passage s.view .t0 .sp (by decide) (by decide)
    have hyields := yields_of_passage hctx howns hs hfirst (hreads.mono (show _ ⊆ scratch by decide)) hstore
      (by decide) hcode (by decide)
    exact ⟨o, halloc, ht0 ▸ hyields⟩
  next => cases hflat

theorem flatCode_performs (hctx : ctx.LaidOut) (howns : ctx.Owns result)
    (hflat : ctx.flatCode id flat operands result = .ok is) (hcode : CodeAt labels symbols code s.pc is)
    (hs : ctx.Ready s) :
    ∃ xs effect, (flat.inputs operands).mapM (ctx.wordOf? s) = some xs ∧
      flat.effect? (fun w => w) xs = some effect ∧
      ctx.Performs labels code stdin is.length id result s effect := by
  cases flat with
  | li n =>
    obtain ⟨last, hstore, his⟩ := Outcome.bind_eq_ok.mp hflat
    cases his
    exact ⟨[], _, rfl, rfl, yields_of_put hctx howns hs (.li .nil) (.refl scratch s.view) hstore hcode⟩
  | lw o =>
    obtain ⟨x, hx, hyields⟩ := unary_yields hctx howns hs hflat hcode
    refine ⟨[x], _, hx, rfl, fun hmapped => hyields _ fun v₁ ht1 hmemory => ?_⟩
    have hmapped₁ : v₁.Mapped (v₁.regs .t1 + o) 4 := ⟨ht1 ▸ hmapped.1, ht1 ▸ hmemory ▸ hmapped.2⟩
    rw [← ht1, ← hmemory]
    exact .lw hmapped₁ .nil
  | sw o =>
    obtain ⟨x, y, hxy, hperforms⟩ := store_performs hctx hcode hs hflat
    exact ⟨[x, y], _, hxy, rfl, hperforms⟩
  | alu op =>
    obtain ⟨x, y, hxy, hyields⟩ := binary_yields hctx hcode hs howns hflat
    exact ⟨[x, y], _, hxy, rfl, hyields⟩
  | addi n =>
    obtain ⟨x, hx, hyields⟩ := unary_yields hctx howns hs hflat hcode
    exact ⟨[x], _, hx, rfl, hyields _ fun v₁ ht1 _ => ht1 ▸ .addi .nil⟩
  | seqz | snez =>
    obtain ⟨x, hx, hyields⟩ := unary_yields hctx howns hs hflat hcode
    exact ⟨[x], _, hx, rfl, hyields _ fun v₁ ht1 _ => .put (fun _ hv => ht1 ▸ hv ▸ rfl) .nil⟩
  | branch cond l =>
    obtain ⟨x, y, hxy, hperforms⟩ := branch_performs hctx hcode hs hflat
    exact ⟨[x, y], _, hxy, rfl, hperforms⟩
  | jump l =>
    cases hflat
    refine ⟨[], _, rfl, rfl, fun k hk => ?_⟩
    obtain ⟨t, hran, hpc, -⟩ := (Leads.jump hcode hk).ran (.refl scratch s.view) rfl
    exact ⟨t, hran, hpc⟩
  | label l =>
    cases hflat
    obtain ⟨t, hran, hpc, -⟩ := (Leads.label hcode).ran (.refl scratch s.view) rfl
    exact ⟨[], _, rfl, rfl, t, hran, hpc⟩
  | call func =>
    obtain ⟨xs, hxs, hperforms⟩ := call_performs hctx howns hflat hcode hs
    exact ⟨xs, _, hxs, rfl, hperforms⟩
  | ret =>
    obtain ⟨x, hx, hperforms⟩ := return_performs hctx hcode hs hflat
    exact ⟨[x], _, hx, rfl, hperforms⟩
  | alloc => exact ⟨[], _, rfl, rfl, alloc_performs hctx howns hflat hcode hs⟩

end Context

end Choco.Asm
