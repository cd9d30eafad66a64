import Choco.Proofs.OpCode

namespace Choco.Asm

open IR (Module Op OpId ValueId FlatOp Region)
open Machine (CodeAt Line Image ofImage)
open Instr

variable {heapSize : UInt32} {m : Module} {asm : Assembly} {main func id : OpId} {global : Frame}
  {is : List Instr} {ctx : Context}

theorem functionCode_eq_ok (hglobal : Frame.layout m main = .ok global)
    (h : functionCode m main global func = .ok is) :
    ∃ f body frame name start codes, m.op func = .ok f ∧ f.regions.head? = some body ∧
      functionName m func = .ok name ∧ body.args.length ≤ Reg.args.length ∧ Frame.layout m func = .ok frame ∧
      (⟨m, func, name, frame, global⟩ : Context).prologue body.args = .ok start ∧
      body.ops.mapM (⟨m, func, name, frame, global⟩ : Context).opCode = .ok codes ∧
      is = start ++ codes.flatten ++ (⟨m, func, name, frame, global⟩ : Context).epilogue := by
  obtain ⟨name, hname, h⟩ := Outcome.bind_eq_ok.mp h
  obtain ⟨f, hf, h⟩ := Outcome.bind_eq_ok.mp h
  cases hbody : f.regions.head? with
  | none => rw [hbody] at h; cases h
  | some body =>
    rw [hbody] at h
    simp only at h
    split at h
    next => cases h
    next hfew =>
      split at h
      next heq =>
        obtain ⟨frame, hframe, h⟩ := Outcome.bind_eq_ok.mp h
        obtain ⟨start, hstart, h⟩ := Outcome.bind_eq_ok.mp h
        obtain ⟨codes, hcodes, h⟩ := Outcome.bind_eq_ok.mp h
        cases h
        cases hframe
        exact ⟨f, body, global, name, start, codes, hf, hbody, hname, Nat.le_of_not_lt hfew,
          heq ▸ hglobal, hstart, hcodes, rfl⟩
      next =>
        obtain ⟨frame, hframe, h⟩ := Outcome.bind_eq_ok.mp h
        obtain ⟨start, hstart, h⟩ := Outcome.bind_eq_ok.mp h
        obtain ⟨codes, hcodes, h⟩ := Outcome.bind_eq_ok.mp h
        cases h
        exact ⟨f, body, frame, name, start, codes, hf, hbody, hname, Nat.le_of_not_lt hfew, hframe, hstart,
          hcodes, rfl⟩

/-- The text of a program: its start, the code of each function, the entry function first, and the
library. -/
theorem ofModule_eq_ok (h : Assembly.ofModule heapSize m = .ok asm) :
    ∃ main global codes, entry? m = some main ∧ Frame.layout m main = .ok global ∧
      List.Forall₂ (fun func is =>
          (∃ name, functionName m func = .ok name ∧ name ∉ Library.reserved) ∧
            functionCode m main global func = .ok is)
        (main :: m.body.ops.filter (· ≠ main)) codes ∧
      asm = { Assembly.ofHeap heapSize with
                text := Routine.entry entryFunction ++ codes.flatten }.withLibrary := by
  unfold Assembly.ofModule at h
  cases hmain : entry? m with
  | none => rw [hmain] at h; cases h
  | some main =>
    rw [hmain] at h
    obtain ⟨global, hglobal, h⟩ := Outcome.bind_eq_ok.mp h
    obtain ⟨codes, hcodes, h⟩ := Outcome.bind_eq_ok.mp h
    cases h
    refine ⟨main, global, codes, rfl, hglobal,
      (Outcome.mapM_eq_ok.mp hcodes).imp fun func is hfunc => ?_, rfl⟩
    obtain ⟨name, hname, hfunc⟩ := Outcome.bind_eq_ok.mp hfunc
    simp only at hfunc
    split at hfunc
    next => cases hfunc
    next hreserved => exact ⟨⟨name, hname, by simpa using hreserved⟩, hfunc⟩

theorem infix_flatten {α : Type} {l : List α} {ls : List (List α)} (h : l ∈ ls) : l <:+: ls.flatten := by
  obtain ⟨before, after, rfl⟩ := List.append_of_mem h
  exact ⟨before.flatten, after.flatten, by simp⟩

theorem functionCode_infix (h : Assembly.ofModule heapSize m = .ok asm) (hmain : entry? m = some main)
    (hfunc : func ∈ m.body.ops) :
    ∃ global is, Frame.layout m main = .ok global ∧ functionCode m main global func = .ok is ∧
      is <:+: asm.text := by
  obtain ⟨main', global, codes, hmain', hglobal, hcodes, rfl⟩ := ofModule_eq_ok h
  cases hmain.symm.trans hmain'
  have hmem : func ∈ main :: m.body.ops.filter (· ≠ main) := by
    by_cases heq : func = main
    · exact heq ▸ List.mem_cons_self
    · exact List.mem_cons_of_mem _ (List.mem_filter.mpr ⟨hfunc, by simpa using heq⟩)
  obtain ⟨k, hk, hget⟩ := List.getElem_of_mem hmem
  have hk' : k < codes.length := hcodes.length_eq ▸ hk
  have hcode := (hcodes.get hk hk').2
  rw [List.get_eq_getElem, hget] at hcode
  refine ⟨global, codes[k], hglobal, hcode, ?_⟩
  have hin : codes[k] <:+: codes.flatten := infix_flatten (List.getElem_mem hk')
  exact hin.trans ⟨Routine.entry entryFunction, Routine.all, rfl⟩

theorem opCode_eq_ok (h : ctx.opCode id = .ok is) :
    ∃ op flat, ctx.module.op id = .ok op ∧ op.kind = .flat flat ∧
      ∃ is', ctx.flatCode id flat op.operands op.result = .ok is' ∧
        is = if flat.isLabel then is' else Context.withComment (ctx.module.opText id) is' := by
  obtain ⟨op, hop, h⟩ := Outcome.bind_eq_ok.mp h
  split at h
  next flat hkind =>
    obtain ⟨is', his', h⟩ := Outcome.bind_eq_ok.mp h
    cases h
    exact ⟨op, flat, hop, hkind, is', his', rfl⟩
  next => cases h

theorem length_withComment (comment : String) (is : List Instr) :
    (Context.withComment comment is).length = is.length := by
  cases is <;> rfl

theorem opCode_performs {op : Op} {flat : FlatOp} {labels : List (String × Nat)}
    {symbols : List (String × UInt32)} {code : Array Line} (stdin : Array UInt8) {s : Machine}
    (hctx : ctx.LaidOut) (hop : ctx.module.op id = .ok op) (hkind : op.kind = .flat flat)
    (howns : ctx.Owns op.result) (h : ctx.opCode id = .ok is) (hcode : CodeAt labels symbols code s.pc is)
    (hs : ctx.Ready s) :
    ∃ xs effect, (flat.inputs op.operands).mapM (ctx.wordOf? s) = some xs ∧
      flat.effect? (fun w => w) xs = some effect ∧
      ctx.Performs labels code stdin is.length id op.result s effect := by
  obtain ⟨op', flat', hop', hkind', is', hflat, rfl⟩ := opCode_eq_ok h
  cases hop.symm.trans hop'
  cases hkind.symm.trans hkind'
  have hcode' : CodeAt labels symbols code s.pc is' := by
    split at hcode
    · exact hcode
    · exact (Machine.codeAt_withComment _).mp hcode
  have hlength : (if flat.isLabel then is' else Context.withComment (ctx.module.opText id) is').length =
      is'.length := by
    split
    · rfl
    · exact length_withComment _ _
  rw [hlength]
  exact Context.flatCode_performs hctx howns hflat hcode' hs

/-- When a module becomes a program, the code of every operation of every function stands in the
program and does what the operation says on words that lie in the function's frame and, for what
belongs to the entry function, in the frame that `tp` points to. -/
theorem emitted_code_refines {f : Op} {body : Region} (h : Assembly.ofModule heapSize m = .ok asm)
    (hmain : entry? m = some main) (hfunc : func ∈ m.body.ops) (hf : m.op func = .ok f)
    (hbody : f.regions.head? = some body) (hid : id ∈ body.ops) :
    ∃ (ctx : Context) (op : Op) (flat : FlatOp) (is : List Instr), ctx.module = m ∧ ctx.func = func ∧
      functionName m func = .ok ctx.name ∧
      Frame.layout m func = .ok ctx.frame ∧ Frame.layout m main = .ok ctx.global ∧
      m.op id = .ok op ∧ op.kind = .flat flat ∧
      (∃ words, ctx.frame.LaidOut words) ∧ (∃ words, ctx.global.LaidOut words) ∧
      ctx.opCode id = .ok is ∧ is <:+: asm.text ∧ ctx.epilogue <:+: asm.text ∧
      ∀ labels symbols code stdin (s : Machine), CodeAt labels symbols code s.pc is → ctx.Ready s →
        ∃ xs effect, (flat.inputs op.operands).mapM (ctx.wordOf? s) = some xs ∧
          flat.effect? (fun w => w) xs = some effect ∧
          ctx.Performs labels code stdin is.length id op.result s effect := by
  obtain ⟨global, text, hglobal, htext, hinfix⟩ := functionCode_infix h hmain hfunc
  obtain ⟨f', body', frame, name, start, codes, hf', hbody', hname, -, hframe, -, hcodes, rfl⟩ :=
    functionCode_eq_ok hglobal htext
  cases hf.symm.trans hf'
  cases hbody.symm.trans hbody'
  obtain ⟨k, hk, rfl⟩ := List.getElem_of_mem hid
  have hforall := Outcome.mapM_eq_ok.mp hcodes
  have hk' : k < codes.length := hforall.length_eq ▸ hk
  have hcode := hforall.get hk hk'
  obtain ⟨op, flat, hop, hkind, -⟩ := opCode_eq_ok hcode
  have hlaid : (⟨m, func, name, frame, global⟩ : Context).LaidOut :=
    ⟨Frame.layout_laidOut hframe, Frame.layout_laidOut hglobal⟩
  have howns : (⟨m, func, name, frame, global⟩ : Context).Owns op.result :=
    fun v hv => Frame.slot?_result hframe hf hbody hid hop hv
  have hin : codes[k] <:+: codes.flatten := infix_flatten (List.getElem_mem hk')
  refine ⟨⟨m, func, name, frame, global⟩, op, flat, codes[k], rfl, rfl, hname, hframe, hglobal, hop, hkind,
    hlaid.frame, hlaid.global, hcode, ?_, ?_, fun labels symbols code stdin s hat hs =>
      opCode_performs stdin hlaid hop hkind howns hcode hat hs⟩
  · exact (hin.trans ⟨start, _, rfl⟩).trans hinfix
  · exact (List.suffix_append _ _).isInfix.trans hinfix

/-- Two functions, of which the second stores to a location of the entry function. -/
def sharedLocation : Module where
  slots := #[
    ⟨0, some ⟨.funcDef entryFunction .none, [], none, [{ ops := [⟨1, 0⟩, ⟨2, 0⟩, ⟨3, 0⟩] }], some .top⟩⟩,
    ⟨0, some ⟨.flat .alloc, [], some ⟨0⟩, [], some (.nested ⟨0, 0⟩ 0)⟩⟩,
    ⟨0, some ⟨.flat (.call "f"), [], some ⟨1⟩, [], some (.nested ⟨0, 0⟩ 0)⟩⟩,
    ⟨0, some ⟨.flat .ret, [⟨1⟩], none, [], some (.nested ⟨0, 0⟩ 0)⟩⟩,
    ⟨0, some ⟨.funcDef "f" .int, [], none, [{ ops := [⟨5, 0⟩, ⟨6, 0⟩, ⟨7, 0⟩] }], some .top⟩⟩,
    ⟨0, some ⟨.flat (.li 5), [], some ⟨2⟩, [], some (.nested ⟨4, 0⟩ 0)⟩⟩,
    ⟨0, some ⟨.flat (.sw 0), [⟨0⟩, ⟨2⟩], none, [], some (.nested ⟨4, 0⟩ 0)⟩⟩,
    ⟨0, some ⟨.flat .ret, [⟨2⟩], none, [], some (.nested ⟨4, 0⟩ 0)⟩⟩]
  values := #[⟨.word, .result ⟨1, 0⟩⟩, ⟨.word, .result ⟨2, 0⟩⟩, ⟨.word, .result ⟨5, 0⟩⟩]
  body := { ops := [⟨0, 0⟩, ⟨4, 0⟩] }

/-- The program runs to the store, and the store puts the word in the location of the entry function. -/
theorem shared_location_stored :
    ∃ asm image s s' is, Assembly.ofModule 0 sharedLocation = .ok asm ∧ Image.load asm = .ok image ∧
      (ofImage image).after image.code #[] 17 = some s ∧
      ∃ ctx : Context, ctx.func = ⟨4, 0⟩ ∧ ctx.opCode ⟨6, 0⟩ = .ok is ∧ CodeAt [] [] image.code s.pc is ∧
        [⟨0⟩, ⟨2⟩].mapM (ctx.wordOf? s) = some [1052852, 5] ∧ Machine.Reaches image.code #[] s s' ∧
        s'.pc = s.pc + is.length ∧ s.memory.Updated 1052852 5 s'.memory := by
  have hcheck : ((Assembly.ofModule 0 sharedLocation).toOption.bind fun asm =>
      (Image.load asm).toOption.bind fun image =>
      ((ofImage image).after image.code #[] 17).bind fun s =>
      (Frame.layout sharedLocation ⟨4, 0⟩).toOption.bind fun frame =>
      (Frame.layout sharedLocation ⟨0, 0⟩).toOption.bind fun global =>
      ((⟨sharedLocation, ⟨4, 0⟩, "f", frame, global⟩ : Context).opCode ⟨6, 0⟩).toOption.map fun is =>
        decide (CodeAt [] [] image.code s.pc is ∧ s.memory.size ≤ UInt32.size ∧
          (Machine.dataBase ≤ (s.read .sp).toUInt32 ∧
            (s.read .sp).toUInt32.toNat + frame.size.toUInt32.toNat ≤ s.memory.size) ∧
          (Machine.dataBase ≤ (s.read .tp).toUInt32 ∧
            (s.read .tp).toUInt32.toNat + global.size.toUInt32.toNat ≤ s.memory.size) ∧
          1052852 + 4 ≤ s.memory.size ∧ [⟨0⟩, ⟨2⟩].mapM
            ((⟨sharedLocation, ⟨4, 0⟩, "f", frame, global⟩ : Context).wordOf? s) = some [1052852, 5])) =
              some true := by
    decide +kernel
  simp only [Option.bind_eq_some_iff, Option.map_eq_some_iff, decide_eq_true_eq] at hcheck
  obtain ⟨asm, hasm, image, hload, s, hafter, frame, hframe, global, hglobal, is, his, hat, hsize, hsp, htp,
    hhigh, hwords⟩ :=
    hcheck
  have hasm := Outcome.eq_ok_of_toOption hasm
  have hmem : (⟨4, 0⟩ : OpId) ∈ sharedLocation.body.ops := by decide
  have hid : (⟨6, 0⟩ : OpId) ∈ [⟨5, 0⟩, ⟨6, 0⟩, ⟨7, 0⟩] := by decide
  obtain ⟨⟨m, func, name, frame', global'⟩, op, flat, is', rfl, rfl, hname, hframe', hglobal', hop, hkind, -,
    -, his', -, -, hall⟩ := emitted_code_refines hasm rfl hmem rfl rfl hid
  -- There is only one such context.
  cases hname
  cases hframe'.symm.trans (Outcome.eq_ok_of_toOption hframe)
  cases hglobal'.symm.trans (Outcome.eq_ok_of_toOption hglobal)
  cases his'.symm.trans (Outcome.eq_ok_of_toOption his)
  cases hop
  cases hkind
  obtain ⟨xs, effect, hxs, heffect, hperforms⟩ := hall [] [] image.code #[] s hat ⟨hsize, hsp, htp⟩
  cases hxs.symm.trans hwords
  cases heffect
  obtain ⟨s', hran, hpc, hupdated⟩ := hperforms ⟨by decide, hhigh⟩
  exact ⟨asm, image, s, s', is, hasm, Outcome.eq_ok_of_toOption hload, hafter, _, rfl, his', hat, hwords,
    hran.reaches, hpc, hupdated⟩

end Choco.Asm
