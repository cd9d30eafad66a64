import Choco.Proofs.Emission
import Choco.Proofs.FlatLabels

namespace Choco.Asm

open IR (Module OpId ValueId FlatOp Code Instruction)
open Instr

variable {operands : List ValueId} {id : OpId} {op : IR.Op}

namespace Instr

/-- The instruction without its comment. -/
def bare (i : Instr) : Instr := { i with comment := none }

def Moves (i : Instr) : Prop :=
  match i.opcode with
  | .li | .mv | .alu .add => True
  | .lw | .sw | .addi => ∃ n, i.imm = some (.int n) ∧ minImmediate ≤ n ∧ n ≤ maxImmediate
  | _ => False

end Instr

/-- Code that moves words to registers before an instruction, and from them after it. -/
def Wraps (core is : List Instr) : Prop :=
  ∃ before behind, is = before ++ (core ++ behind) ∧ (∀ i ∈ before, i.Moves) ∧ ∀ i ∈ behind, i.Moves

/-- The instruction that an operation becomes in the function of a name; numbers and storage are only
moved. -/
def core (name : String) : FlatOp → List Instr
  | .label l => [label l]
  | .jump l => [j l]
  | .lw offset => [lw .t0 offset .t1]
  | .sw offset => [sw .t2 offset .t1]
  | .addi n => [addi .t0 .t1 n]
  | .seqz => [seqz .t0 .t1]
  | .snez => [snez .t0 .t1]
  | .alu op => [alu op .t0 .t1 .t2]
  | .branch cond l => [branch cond .t1 .t2 l]
  | .call func => [jal func]
  | .ret => [j (returnLabel name)]
  | .li _ | .alloc => []

def FunctionText (name : String) (is : List Instruction) (code : List Instr) : Prop :=
  ∃ start codes final, code = label name ::
    start ++ codes.flatten ++ (label (returnLabel name) :: final ++ [ret]) ∧
    (∀ i ∈ start, i.Moves) ∧ (∀ i ∈ final, i.Moves) ∧
    List.Forall₂ (fun i code => Wraps (core name i.op) (code.map bare)) is codes

section Pieces

variable {ctx : Context} {is : List Instr} {offset : Int32} {v : ValueId}

theorem minImmediate_le_ofNat {n : Nat} (h : n < 2147483648) : minImmediate ≤ Int32.ofNat n := by
  rw [Int32.le_iff_toInt_le, Int32.toInt_ofNat_of_lt (by omega)]
  change (-2048 : Int) ≤ n
  omega

theorem moves_address (rd base : Reg) (offset : Int32) : ∀ i ∈ address rd base offset, i.Moves := by
  unfold address
  split
  next hfits => exact List.forall_mem_singleton.mpr ⟨offset, rfl, hfits⟩
  next => exact List.forall_mem_cons.mpr ⟨trivial, List.forall_mem_singleton.mpr trivial⟩

def IsWordOffset (offset : Int32) : Prop := ∃ index, 4 * index < 2147483648 ∧ offset = Frame.wordOffset index

theorem IsWordOffset.minImmediate_le (h : IsWordOffset offset) : minImmediate ≤ offset := by
  obtain ⟨index, hlt, rfl⟩ := h
  exact minImmediate_le_ofNat hlt

theorem moves_loadWord (rd base : Reg) (h : IsWordOffset offset) :
    ∀ i ∈ loadWord rd base offset, i.Moves := by
  unfold loadWord
  split
  next hle => exact List.forall_mem_singleton.mpr ⟨offset, rfl, h.minImmediate_le, hle⟩
  next =>
    exact List.forall_mem_append.mpr ⟨moves_address _ _ _,
      List.forall_mem_singleton.mpr ⟨0, rfl, by decide, by decide⟩⟩

theorem moves_storeWord (src base : Reg) (h : IsWordOffset offset) :
    ∀ i ∈ storeWord src base offset, i.Moves := by
  unfold storeWord
  split
  next hle => exact List.forall_mem_singleton.mpr ⟨offset, rfl, h.minImmediate_le, hle⟩
  next =>
    exact List.forall_mem_append.mpr ⟨moves_address _ _ _,
      List.forall_mem_singleton.mpr ⟨0, rfl, by decide, by decide⟩⟩

namespace Frame.LaidOut

variable {f : Frame} {words : Nat}

theorem isWordOffset_slot (h : f.LaidOut words) (hv : f.slot? v = some offset) : IsWordOffset offset := by
  obtain ⟨index, hlt, rfl⟩ := h.slot v offset hv
  have hsmall := h.small
  exact ⟨index, by omega, rfl⟩

theorem isWordOffset_raOffset (h : f.LaidOut words) : IsWordOffset f.raOffset :=
  ⟨words, by have := h.small; omega, h.raOffset_eq⟩

end Frame.LaidOut

namespace Context

variable (hctx : ctx.LaidOut) {result : Option ValueId} {flat : FlatOp}

include hctx

theorem isWordOffset_locate {base : Reg} (h : ctx.locate v = .ok (base, offset)) : IsWordOffset offset := by
  obtain ⟨⟨words, hframe⟩, ⟨words', hglobal⟩⟩ := hctx
  unfold locate at h
  split at h
  next hslot =>
    cases h
    exact hframe.isWordOffset_slot hslot
  next =>
    split at h
    next hslot =>
      cases h
      split at hslot
      · cases hslot
      · exact hglobal.isWordOffset_slot hslot
    next => cases h

theorem moves_load {rd : Reg} (h : ctx.load rd v = .ok is) : ∀ i ∈ is, i.Moves := by
  obtain ⟨⟨base, offset⟩, hlocate, h⟩ := Outcome.bind_eq_ok.mp h
  cases h
  exact moves_loadWord _ _ (isWordOffset_locate hctx hlocate)

theorem moves_store {src : Reg} (h : ctx.store src result = .ok is) : ∀ i ∈ is, i.Moves := by
  cases result with
  | none => cases h
  | some v =>
    obtain ⟨⟨base, offset⟩, hlocate, h⟩ := Outcome.bind_eq_ok.mp h
    cases h
    exact moves_storeWord _ _ (isWordOffset_locate hctx hlocate)

theorem moves_loadTwo (h : ctx.loadTwo operands = .ok is) : ∀ i ∈ is, i.Moves := by
  obtain ⟨⟨x, y⟩, -, h⟩ := Outcome.bind_eq_ok.mp h
  obtain ⟨code, hload, h⟩ := Outcome.bind_eq_ok.mp h
  obtain ⟨code', hload', h⟩ := Outcome.bind_eq_ok.mp h
  cases h
  exact List.forall_mem_append.mpr ⟨moves_load hctx hload, moves_load hctx hload'⟩

theorem moves_loadArgs {args : List (ValueId × Reg)} (h : ctx.loadArgs args = .ok is) :
    ∀ i ∈ is, i.Moves := by
  induction args generalizing is with
  | nil =>
    cases h
    exact List.forall_mem_nil _
  | cons arg rest ih =>
    obtain ⟨code, hload, h⟩ := Outcome.bind_eq_ok.mp h
    obtain ⟨code', hrest, h⟩ := Outcome.bind_eq_ok.mp h
    cases h
    exact List.forall_mem_append.mpr ⟨moves_load hctx hload, ih hrest⟩

theorem wraps_unary {compute : Instr} (h : ctx.unary operands result compute = .ok is) :
    Wraps [compute] is := by
  obtain ⟨x, -, h⟩ := Outcome.bind_eq_ok.mp h
  obtain ⟨code, hload, h⟩ := Outcome.bind_eq_ok.mp h
  obtain ⟨code', hstore, h⟩ := Outcome.bind_eq_ok.mp h
  cases h
  exact ⟨code, code', rfl, moves_load hctx hload, moves_store hctx hstore⟩

theorem wraps_flatCode (h : ctx.flatCode id flat operands result = .ok is) :
    Wraps (core ctx.name flat) is := by
  have hnil := List.forall_mem_nil Moves
  cases flat with
  | label l | jump l =>
    cases h
    exact ⟨[], [], rfl, hnil, hnil⟩
  | li n =>
    obtain ⟨code, hstore, h⟩ := Outcome.bind_eq_ok.mp h
    cases h
    exact ⟨[li .t0 n], code, rfl, List.forall_mem_singleton.mpr trivial, moves_store hctx hstore⟩
  | lw offset | addi n | seqz | snez => exact wraps_unary hctx h
  | sw offset | branch cond l =>
    obtain ⟨code, hload, h⟩ := Outcome.bind_eq_ok.mp h
    cases h
    exact ⟨code, [], rfl, moves_loadTwo hctx hload, hnil⟩
  | alu op =>
    obtain ⟨code, hload, h⟩ := Outcome.bind_eq_ok.mp h
    obtain ⟨code', hstore, h⟩ := Outcome.bind_eq_ok.mp h
    cases h
    exact ⟨code, code', rfl, moves_loadTwo hctx hload, moves_store hctx hstore⟩
  | call func =>
    unfold flatCode at h
    simp only at h
    split at h
    · cases h
    · obtain ⟨args, hargs, h⟩ := Outcome.bind_eq_ok.mp h
      split at h
      · obtain ⟨rest, hrest, h⟩ := Outcome.bind_eq_ok.mp h
        cases h
        exact ⟨args, rest, rfl, moves_loadArgs hctx hargs, moves_store hctx hrest⟩
      · cases h
        exact ⟨args, [], rfl, moves_loadArgs hctx hargs, hnil⟩
  | ret =>
    obtain ⟨x, -, h⟩ := Outcome.bind_eq_ok.mp h
    obtain ⟨code, hload, h⟩ := Outcome.bind_eq_ok.mp h
    cases h
    exact ⟨code, [], rfl, moves_load hctx hload, hnil⟩
  | alloc =>
    unfold flatCode at h
    simp only at h
    split at h
    · obtain ⟨code, hstore, h⟩ := Outcome.bind_eq_ok.mp h
      cases h
      exact ⟨_, code, rfl, moves_address _ _ _, moves_store hctx hstore⟩
    · cases h

theorem wraps_opCode (hop : ctx.module.op id = .ok op) (hkind : op.kind = .flat flat)
    (h : ctx.opCode id = .ok is) :
    Wraps (core ctx.name flat) (is.map bare) := by
  obtain ⟨op', flat', hop', hkind', code, hflat, rfl⟩ := opCode_eq_ok h
  cases hop.symm.trans hop'
  cases hkind.symm.trans hkind'
  have hbare : (if flat.isLabel then code else withComment (ctx.module.opText id) code).map bare =
      code.map bare := by
    split
    · rfl
    · cases code <;> rfl
  have hcore : (core ctx.name flat).map bare = core ctx.name flat := by cases flat <;> rfl
  obtain ⟨before, behind, rfl, hbefore, hbehind⟩ := wraps_flatCode hctx hflat
  rw [hbare, List.map_append, List.map_append, hcore]
  exact ⟨_, _, rfl, List.forall_mem_map.mpr hbefore, List.forall_mem_map.mpr hbehind⟩

theorem prologue_eq_ok {args : List ValueId} (h : ctx.prologue args = .ok is) :
    ∃ start, is = label ctx.name :: start ∧ ∀ i ∈ start, i.Moves := by
  obtain ⟨stores, hstores, h⟩ := Outcome.bind_eq_ok.mp h
  cases h
  obtain ⟨words, hframe⟩ := hctx.frame
  have hall : ∀ i ∈ stores.flatten, i.Moves := by
    clear h
    replace hstores := Outcome.mapM_eq_ok.mp hstores
    generalize args.zip Reg.args = pairs at hstores
    induction hstores with
    | nil => exact List.forall_mem_nil _
    | cons hcode _ ih =>
      refine List.forall_mem_append.mpr ⟨?_, ih⟩
      dsimp only at hcode
      split at hcode
      next offset hslot =>
        cases hcode
        exact moves_storeWord _ _ (hframe.isWordOffset_slot hslot)
      next => cases hcode
  have hlast : ∀ i ∈ if ctx.name = entryFunction then [(mv .tp .sp).note "global frame"]
      else [], i.Moves := by
    split
    · exact List.forall_mem_singleton.mpr trivial
    · exact List.forall_mem_nil _
  refine ⟨_, rfl, List.forall_mem_append.mpr
    ⟨List.forall_mem_append.mpr ⟨List.forall_mem_append.mpr ⟨?_, ?_⟩, hall⟩, hlast⟩⟩
  · exact moves_address _ _ _
  · exact moves_storeWord _ _ hframe.isWordOffset_raOffset

theorem epilogue_eq : ∃ final, ctx.epilogue = label (returnLabel ctx.name) :: final ++ [ret] ∧
    ∀ i ∈ final, i.Moves := by
  obtain ⟨words, hframe⟩ := hctx.frame
  exact ⟨_, rfl, List.forall_mem_append.mpr
    ⟨moves_loadWord _ _ hframe.isWordOffset_raOffset, moves_address _ _ _⟩⟩

end Context

end Pieces

section Functions

variable {m : Module} {c : Code} {bs : List (String × List Instruction)} {parent : Option IR.Place}
  {codes : List (List Instr)}

theorem op_eq_ok (h : m.get? id = some op) : m.op id = .ok op := by rw [Module.op, h]

theorem wraps_body {ctx : Context} (hctx : ctx.LaidOut) {is : List Instruction} (hreads : c.Reads is)
    (h : ctx.module.Holds parent c) (hcodes : c.ids.mapM ctx.opCode = .ok codes) :
    List.Forall₂ (fun i code => Wraps (core ctx.name i.op) (code.map bare)) is codes := by
  replace hcodes := Outcome.mapM_eq_ok.mp hcodes
  induction hreads generalizing codes with
  | nil =>
    cases hcodes
    exact .nil
  | leaf id i _ ih =>
    cases hcodes with
    | cons hcode hrest =>
      exact .cons (Context.wraps_opCode hctx (op_eq_ok h.1.get?_leaf) rfl hcode) (ih h.2 hrest)

theorem functionName_of_get? {label : String} {ty : Ty} {result : Option IR.Def} {regions : List IR.Region}
    (h : m.get? id = some ((⟨id, .funcDef label ty, operands, result⟩ : IR.Node).op regions parent)) :
    functionName m id = .ok label := by
  rw [functionName, op_eq_ok h]
  rfl

theorem functionText {main : OpId} {global : Frame} (hbodies : c.Bodies bs) (h : m.Holds (some .top) c)
    (hglobal : Frame.layout m main = .ok global)
    (hcodes : List.Forall₂ (fun func code => functionCode m main global func = .ok code) c.ids codes) :
    List.Forall₂ (fun b code => FunctionText b.1 b.2 code) bs codes := by
  induction hbodies generalizing codes with
  | nil =>
    cases hcodes
    exact .nil
  | @function id label ty args body rest is bs hreads _ ih =>
    obtain ⟨hnode, hids, hbody, hrest⟩ := h
    cases hcodes with
    | cons hcode hcodes =>
      refine .cons ?_ (ih hrest hcodes)
      have hget := hnode.regions_each hids
      obtain ⟨f, region, frame, name, start, ops, hf, hregion, hname, -, hframe, hstart, hops, rfl⟩ :=
        functionCode_eq_ok hglobal hcode
      cases hname.symm.trans (functionName_of_get? hget)
      cases hf.symm.trans (op_eq_ok hget)
      cases hregion
      have hctx : (⟨m, id, label, frame, global⟩ : Context).LaidOut :=
        ⟨Frame.layout_laidOut hframe, Frame.layout_laidOut hglobal⟩
      obtain ⟨moves, rfl, hmoves⟩ := Context.prologue_eq_ok hctx hstart
      obtain ⟨final, hfinal, hmoves'⟩ := Context.epilogue_eq hctx
      rw [hfinal]
      exact ⟨moves, ops, final, rfl, hmoves, hmoves', wraps_body hctx hreads hbody hops⟩

end Functions

end Choco.Asm
