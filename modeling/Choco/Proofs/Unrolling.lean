import Choco.IR.Loops
import Choco.Proofs.Erase
import Choco.Proofs.Shape
import Choco.Proofs.Walk

namespace Choco.IR

/-- Code for the element of a sequence at an index. -/
def ElementCode (ty : Ty) (sequence index : ValueId) (c : Code) (v : ValueId) : Prop :=
  match ty with
  | .str => CharacterCode sequence index c v
  | .list elem =>
    ∃ address id₁ id₂, c = .leaf ⟨id₁, .getAddress, [sequence, index], some ⟨address, .location elem⟩⟩
      (.leaf ⟨id₂, .load, [address], some ⟨v, .plain elem⟩⟩ .nil)
  | _ => False

/-- The test whether an index is below the length of a sequence. -/
def TestCode (sequence index : ValueId) (c : Code) : Prop :=
  ∃ length current less id₁ id₂ id₃ id₄,
    c = .leaf ⟨id₁, .call "len", [sequence], some ⟨length, .plain .int⟩⟩
      (.leaf ⟨id₂, .load, [index], some ⟨current, .plain .int⟩⟩
        (.leaf ⟨id₃, .binary .lt, [current, length], some ⟨less, .plain .bool⟩⟩
          (.leaf ⟨id₄, .yield, [less], none⟩ .nil)))

/-- The next element is stored to the target. -/
def HeadCode (ty : Ty) (sequence target index : ValueId) (c : Code) : Prop :=
  ∃ current item id₁ id₂ c₁, ElementCode ty sequence current c₁ item ∧
    c = .leaf ⟨id₁, .load, [index], some ⟨current, .plain .int⟩⟩
      (c₁ ++ .leaf ⟨id₂, .store, [target, item], none⟩ .nil)

/-- The index goes up by one. -/
def TailCode (index : ValueId) (c : Code) : Prop :=
  ∃ current one next id₁ id₂ id₃ id₄,
    c = .leaf ⟨id₁, .load, [index], some ⟨current, .plain .int⟩⟩
      (.leaf ⟨id₂, .literal (.int 1), [], some ⟨one, .plain .int⟩⟩
        (.leaf ⟨id₃, .binary .add, [current, one], some ⟨next, .plain .int⟩⟩
          (.leaf ⟨id₄, .store, [index, next], none⟩ .nil)))

/-- The loop over a sequence that stores each element to the target and runs the body. -/
def WhileOf (types : Types) (sequence target : ValueId) (body c : Code) : Prop :=
  ∃ ty index zero id₁ id₂ id₃ id₄ test head tail, types sequence = some (.plain ty) ∧
    TestCode sequence index test ∧ HeadCode ty sequence target index head ∧ TailCode index tail ∧
    c = .leaf ⟨id₁, .alloc .int, [], some ⟨index, .location .int⟩⟩
      (.leaf ⟨id₂, .literal (.int 0), [], some ⟨zero, .plain .int⟩⟩
        (.leaf ⟨id₃, .store, [index, zero], none⟩
          (.fork ⟨id₄, .whileLoop, [], none⟩ test (head ++ (body ++ tail)) .nil)))

namespace Build

theorem gives_element (sequence : ValueId) (ty : Ty) (index : ValueId) :
    Gives (element sequence ty index) fun _ v c => ElementCode ty sequence index c v := by
  cases ty with
  | str => exact gives_character sequence index
  | list elem =>
    refine ((gives_emit .getAddress [sequence, index] (.location elem)).bind fun address =>
      gives_emit .load [address] (.plain elem)).imp ?_
    rintro _ v c ⟨address, c₁, c₂, rfl, ⟨id₁, rfl⟩, id₂, rfl⟩
    exact ⟨address, id₁, id₂, rfl⟩
  | _ => exact gives_throw _

theorem gives_test (sequence index : ValueId) :
    Makes (yielding do
      let length ← emit (.call "len") [sequence] (.plain .int)
      let current ← emit .load [index] (.plain .int)
      emit (.binary .lt) [current, length] (.plain .bool)) fun _ c => TestCode sequence index c := by
  intro b r b' hb hrun
  obtain ⟨c, hext, hblock, hr, hc⟩ := makes_yielding ((gives_emit (.call "len") [sequence] (.plain .int)).bind
    fun length => (gives_emit .load [index] (.plain .int)).bind fun current =>
      gives_emit (.binary .lt) [current, length] (.plain .bool)) b r b' hb hrun
  refine ⟨c, hext, hblock, hr, fun types ht => ?_⟩
  obtain ⟨less, c₁, id₄, rfl, length, c₂, c₃, rfl, ⟨id₁, rfl⟩, current, c₄, c₅, rfl, ⟨id₂, rfl⟩, id₃, rfl⟩ :=
    hc types ht
  exact ⟨length, current, less, id₁, id₂, id₃, id₄, rfl⟩

theorem gives_head (sequence target index : ValueId) (ty : Ty) :
    Gives (do
      let current ← emit .load [index] (.plain .int)
      let item ← element sequence ty current
      emitVoid .store [target, item]) fun _ _ c => HeadCode ty sequence target index c := by
  refine ((gives_emit .load [index] (.plain .int)).bind fun current =>
    (gives_element sequence ty current).bind fun item =>
    gives_emitVoid .store [target, item]).imp ?_
  rintro types _ c ⟨current, _, _, rfl, ⟨id₁, rfl⟩, item, c₁, _, rfl, hitem, id₂, rfl⟩
  exact ⟨current, item, id₁, id₂, c₁, hitem, rfl⟩

theorem gives_tail (index : ValueId) :
    Gives (do
      let current ← emit .load [index] (.plain .int)
      let one ← literal (.int 1) .int
      let next ← emit (.binary .add) [current, one] (.plain .int)
      emitVoid .store [index, next]) fun _ _ c => TailCode index c := by
  refine ((gives_emit .load [index] (.plain .int)).bind fun current =>
    (gives_emit (.literal (.int 1)) [] (.plain .int)).bind fun one => (gives_emit (.binary .add)
    [current, one] (.plain .int)).bind fun next => gives_emitVoid .store [index, next]).imp ?_
  rintro types _ c ⟨current, _, _, rfl, ⟨id₁, rfl⟩, one, _, _, rfl, ⟨id₂, rfl⟩, next, _, _, rfl,
    ⟨id₃, rfl⟩, id₄, rfl⟩
  exact ⟨current, one, next, id₁, id₂, id₃, id₄, rfl⟩

open Choco.IR.Module

theorem Gives.models {α : Type} {x : Build α} {P : Types → α → Code → Prop} (h : Gives x P)
    {b b' : Builder} {a : α} {c d : Code} (hb : b.module.Models c d) (hrun : x b = .ok a b') :
    ∃ e, b'.module.Models c (d ++ e) ∧ b'.block.toList = b.block.toList ++ e.ids ∧
      Settles b.module.values b'.module.values ∧ ∀ types, b'.module.Typed types → P types a e := by
  obtain ⟨e, hgrown, hP⟩ := h b a b' hb.sound hrun
  exact ⟨e, hb.grow hgrown.module, hgrown.block, hgrown.module.change.values, hP⟩

variable {C : Context} {n : Node} {body rest : Code}

theorem round_models {loop : OpId} {sequence target index : ValueId} {ty : Ty} {b b' : Builder} {r : Region}
    {d : Code} (hloop : loop = n.id) (hb : b.module.Models (C.plug (.each n [] body rest)) d)
    (hrun : (region do
      let current ← emit .load [index] (.plain .int)
      let item ← element sequence ty current
      emitVoid .store [target, item]
      append (← edit (Edit.takeRegion loop 0)).ops
      let current ← emit .load [index] (.plain .int)
      let one ← literal (.int 1) .int
      let next ← emit (.binary .add) [current, one] (.plain .int)
      emitVoid .store [index, next]) b = .ok r b') :
    ∃ head tail, b'.module.Models (C.plug (.each n [] .nil rest)) (d ++ (head ++ (body ++ tail))) ∧
      b'.block = b.block ∧ r = { ops := (head ++ (body ++ tail)).ids } ∧
        Settles b.module.values b'.module.values ∧
      ∀ types, b'.module.Typed types → HeadCode ty sequence target index head ∧ TailCode index tail := by
  subst hloop
  obtain ⟨⟨_, ops⟩, b₁, hblock, hpure⟩ := Action.bind_eq_ok.mp hrun
  obtain ⟨rfl, rfl⟩ := Action.pure_eq_ok.mp hpure
  unfold block at hblock
  split at hblock
  next a inner hbody =>
    cases hblock
    obtain ⟨current, s₁, hrun₁, hbody₁⟩ := Action.bind_eq_ok.mp hbody
    obtain ⟨item, s₂, hrun₂, hbody₂⟩ := Action.bind_eq_ok.mp hbody₁
    obtain ⟨_, s₃, hrun₃, hbody₃⟩ := Action.bind_eq_ok.mp hbody₂
    obtain ⟨taken, s₄, hrun₄, hbody₄⟩ := Action.bind_eq_ok.mp hbody₃
    obtain ⟨_, s₅, hrun₅, hrun₆⟩ := Action.bind_eq_ok.mp hbody₄
    have hb₀ : (⟨b.module, #[]⟩ : Builder).module.Models (C.plug (.each n [] body rest)) d := hb
    obtain ⟨head, hb₃, hblock₃, hv₃, hhead⟩ := (gives_head sequence target index ty).models hb₀
      (Action.bind_eq_ok.mpr ⟨current, s₁, hrun₁, Action.bind_eq_ok.mpr ⟨item, s₂, hrun₂, hrun₃⟩⟩)
    obtain ⟨m₄, htake, hb₄, hv₄⟩ := hb₃.takeBody
    have hs₄ : taken = { ops := body.ids } ∧ s₄ = ⟨m₄, s₃.block⟩ := by
      simp only [edit, htake] at hrun₄
      cases hrun₄
      exact ⟨rfl, rfl⟩
    obtain ⟨rfl, rfl⟩ := hs₄
    have hs₅ : s₅ = ⟨m₄, s₃.block ++ body.ids⟩ := by
      cases hrun₅
      rfl
    subst hs₅
    have hv₄' : Settles s₃.module.values m₄.values := hv₄ ▸ .refl _
    obtain ⟨tail, hb₆, hblock₆, hv₆, htail⟩ := (gives_tail index).models hb₄ hrun₆
    refine ⟨head, tail, ?_, rfl, ?_, hv₃.trans (hv₄'.trans hv₆), fun types ht => ?_⟩
    · simpa only [Code.append_assoc] using hb₆
    · rw [hblock₆]
      simp [hblock₃]
    · exact ⟨hhead types ((ht.of_settles hv₆).of_settles hv₄'), htail types ht⟩
  next => cases hblock

theorem whileOfFor_models {sequence target : ValueId} {ty : Ty} {b b' : Builder}
    (hb : b.module.Models (C.plug (.each n [] body rest)) .nil) (hempty : b.block.toList = [])
    (hrun : whileOfFor n.id sequence target ty b = .ok () b') :
    ∃ d, b'.module.Models (C.plug (.each n [] .nil rest)) d ∧ b'.block.toList = d.ids ∧
      Settles b.module.values b'.module.values ∧
      ∀ types, b'.module.Typed types → types sequence = some (.plain ty) →
        WhileOf types sequence target body d := by
  unfold whileOfFor at hrun
  obtain ⟨index, b₁, hrun₁, hbody₁⟩ := Action.bind_eq_ok.mp hrun
  obtain ⟨zero, b₂, hrun₂, hbody₂⟩ := Action.bind_eq_ok.mp hbody₁
  obtain ⟨_, b₃, hrun₃, hbody₃⟩ := Action.bind_eq_ok.mp hbody₂
  obtain ⟨test, b₄, hrun₄, hbody₄⟩ := Action.bind_eq_ok.mp hbody₃
  obtain ⟨round, b₅, hrun₅, hrun₆⟩ := Action.bind_eq_ok.mp hbody₄
  obtain ⟨e₁, hb₁, hblock₁, hv₁, he₁⟩ := (gives_emit (.alloc .int) [] (.location .int)).models hb hrun₁
  obtain ⟨e₂, hb₂, hblock₂, hv₂, he₂⟩ := (gives_emit (.literal (.int 0)) [] (.plain .int)).models hb₁ hrun₂
  obtain ⟨e₃, hb₃, hblock₃, hv₃, he₃⟩ := (gives_emitVoid .store [index, zero]).models hb₂ hrun₃
  obtain ⟨e₄, hext₄, hblock₄, rfl, he₄⟩ := gives_test sequence index _ _ _ hb₃.sound hrun₄
  obtain ⟨head, tail, hb₅, hblock₅, rfl, hv₅, he₅⟩ := round_models rfl (hb₃.grow hext₄) hrun₅
  obtain ⟨w, m₆, hkind, hoperands, hresult, hrun', hmade, hnew, hstays⟩ :=
    emitVoid_made hb₅.sound .whileLoop []
      [{ ops := e₄.ids }, { ops := (head ++ (body ++ tail)).ids }] (by simp)
  cases hrun₆.symm.trans hrun'
  have hall : b₅.module.Models (C.plug (.each n [] .nil rest))
      (e₁ ++ (e₂ ++ e₃) ++ (e₄ ++ (head ++ (body ++ tail)))) := by
    simpa only [Code.append_assoc, Code.nil_append] using hb₅
  refine ⟨_, hall.wrap hmade hnew, ?_, ?_, fun types ht hty => ?_⟩
  · simp [hblock₅, hblock₄, hblock₃, hblock₂, hblock₁, hempty, Code.ids]
  · exact hv₁.trans (hv₂.trans (hv₃.trans (hext₄.change.values.trans (hv₅.trans hmade.values))))
  · have ht₅ : b₅.module.Typed types := ht.of_settles hmade.values
    have ht₄ := ht₅.of_settles hv₅
    have ht₃ := ht₄.of_settles hext₄.change.values
    have ht₂ := ht₃.of_settles hv₃
    have ht₁ := ht₂.of_settles hv₂
    obtain ⟨id₁, rfl⟩ := he₁ types ht₁
    obtain ⟨id₂, rfl⟩ := he₂ types ht₂
    obtain ⟨id₃, rfl⟩ := he₃ types ht₃
    obtain ⟨hhead, htail⟩ := he₅ types ht₅
    obtain ⟨id, kind, operands, result⟩ := w
    cases hkind
    cases hoperands
    cases hresult
    exact ⟨ty, index, zero, id₁, id₂, id₃, id, e₄, head, tail, hty, he₄ types ht₄, hhead, htail, rfl⟩

end Build

inductive Unrolls (types : Types) : Code → Code → Prop
  | nil : Unrolls types .nil .nil
  | leaf {n : Node} {rest rest' : Code} (hrest : Unrolls types rest rest') :
      Unrolls types (.leaf n rest) (.leaf n rest')
  | loop {id : OpId} {x location : ValueId} {body body' rest rest' c : Code}
      (hloop : WhileOf types x location body' c) (hbody : Unrolls types body body')
      (hrest : Unrolls types rest rest') :
      Unrolls types (.each ⟨id, .forLoop, [x, location], none⟩ [] body rest) (c ++ rest')
  | each {n : Node} {args : List ValueId} {body body' rest rest' : Code} (hn : n.kind ≠ .forLoop)
      (hbody : Unrolls types body body') (hrest : Unrolls types rest rest') :
      Unrolls types (.each n args body rest) (.each n args body' rest')
  | fork {n : Node} {first first' second second' rest rest' : Code} (hfirst : Unrolls types first first')
      (hsecond : Unrolls types second second') (hrest : Unrolls types rest rest') :
      Unrolls types (.fork n first second rest) (.fork n first' second' rest')

namespace Module

variable {m m' : Module} {C : Context} {body rest c : Code}

theorem replaceFor_models {id : OpId} {sequence target : ValueId}
    (h : m.Models (C.plug (.each ⟨id, .forLoop, [sequence, target], none⟩ [] body rest)) .nil)
    (hrun : Edit.replaceFor id m = .ok () m') :
    ∃ d, m'.Models (C.plug (d ++ rest)) .nil ∧ Settles m.values m'.values ∧
      ∀ types, m'.Typed types → WhileOf types sequence target body d := by
  obtain ⟨-, hnode, hids, -⟩ := h.around
  have hop := hnode.regions_each hids
  unfold Edit.replaceFor at hrun
  rw [Action.bind_ok (Edit.op_run hop)] at hrun
  obtain ⟨ty, m₁, hquery, hrun⟩ := Action.bind_eq_ok.mp hrun
  have hm₁ : m.valueType sequence = .ok ty ∧ m₁ = m := by
    simp only [Edit.query] at hquery
    split at hquery
    next a hty => cases hquery; exact ⟨hty, rfl⟩
    next => cases hquery
  obtain ⟨hty, rfl⟩ := hm₁
  cases ty with
  | location ty | word => cases hrun
  | plain ty =>
    obtain ⟨⟨_, ops⟩, m₂, hcollect, hreplace⟩ := Action.bind_eq_ok.mp hrun
    unfold Build.collect at hcollect
    split at hcollect
    next a b hbuild =>
      cases hcollect
      obtain ⟨d, hb, hblock, hv, hd⟩ := Build.whileOfFor_models (b := ⟨m₁, #[]⟩) h rfl hbuild
      obtain ⟨m₃, hreplace', hmodels, hvalues⟩ := hb.replaceOp .each (.same rfl)
      rw [hblock] at hreplace
      cases hreplace.symm.trans hreplace'
      rw [Code.rename_id, Context.rename_id] at hmodels
      refine ⟨d, hmodels, hvalues ▸ hv, fun types ht => ?_⟩
      have htb : b.module.Typed types := ht.of_settles (hvalues ▸ .refl _)
      refine hd types htb ?_
      obtain ⟨info, hinfo, hplain⟩ := valueType_eq_ok.mp hty
      exact (htb.of_settles hv sequence info hinfo).trans (congrArg some hplain)
    next => cases hcollect

def forLoops (c : Code) : List OpId := (c.nodes.filter fun n => n.kind = .forLoop).map Node.id

theorem forLoops_plain {n : Node} (h : n.kind ≠ .forLoop) (rest : Code) :
    forLoops (.leaf n rest) = forLoops rest := by
  simp [forLoops, Code.nodes, h]

theorem forLoops_each {n : Node} (h : n.kind ≠ .forLoop) (args : List ValueId) (body rest : Code) :
    forLoops (.each n args body rest) = forLoops body ++ forLoops rest := by
  simp [forLoops, Code.nodes, h]

theorem forLoops_loop {n : Node} (h : n.kind = .forLoop) (args : List ValueId) (body rest : Code) :
    forLoops (.each n args body rest) = n.id :: (forLoops body ++ forLoops rest) := by
  simp [forLoops, Code.nodes, h]

theorem forLoops_fork {n : Node} (h : n.kind ≠ .forLoop) (first second rest : Code) :
    forLoops (.fork n first second rest) = forLoops first ++ (forLoops second ++ forLoops rest) := by
  simp [forLoops, Code.nodes, h]

theorem replaceFors_models {y : Bool} (hshape : c.Shaped y) {tail : Code}
    (h : m.Models (C.plug (c ++ tail)) .nil) (hrun : (forLoops c).forM Edit.replaceFor m = .ok () m') :
    ∃ c', m'.Models (C.plug (c' ++ tail)) .nil ∧ Settles m.values m'.values ∧
      ∀ types, m'.Typed types → Unrolls types c c' := by
  induction hshape generalizing m m' C tail with
  | nil =>
    cases hrun
    exact ⟨.nil, h, .refl _, fun _ _ => .nil⟩
  | yield id x =>
    cases hrun
    exact ⟨_, h, .refl _, fun _ _ => .leaf .nil⟩
  | @leaf y n rest hn hrest ih =>
    have hkind : n.kind ≠ .forLoop := by cases hn <;> exact nofun
    rw [forLoops_plain hkind] at hrun
    obtain ⟨rest', hmodels, hv, hunrolls⟩ := ih (C := .after C (.leaf n .nil)) h hrun
    exact ⟨.leaf n rest', hmodels, hv, fun types ht => .leaf (hunrolls types ht)⟩
  | @loop y id x location body rest hbody hrest ihb ih =>
    rw [forLoops_loop rfl] at hrun
    obtain ⟨m₁, hrun₁, hrun⟩ := Action.forM_cons_eq_ok.mp hrun
    obtain ⟨m₂, hrun₂, hrun₃⟩ := Action.forM_append_eq_ok.mp hrun
    obtain ⟨d, h₁, hv₁, hd⟩ := replaceFor_models h hrun₁
    obtain ⟨ty, index, zero, id₁, id₂, id₃, id₄, test, head, tail', hty, htest, hhead, htail, rfl⟩ :=
      hd m₁.types m₁.typed_types
    -- What the loop runs lies in the second region of the new loop, between the code for its element and its
    -- index.
    obtain ⟨body', h₂, hv₂, hbody'⟩ :=
      ihb (C := .after (.second (.after C (.leaf _ (.leaf _ (.leaf _ .nil)))) _ test
      (rest ++ tail)) head) h₁ hrun₂
    obtain ⟨rest', h₃, hv₃, hrest'⟩ := ih (C := .after C (.leaf _ (.leaf _ (.leaf _ (.fork _ test
      (head ++ (body' ++ tail')) .nil))))) h₂ hrun₃
    refine ⟨_ ++ rest', by rw [Code.append_assoc]; exact h₃, hv₁.trans (hv₂.trans hv₃), fun types ht => ?_⟩
    have ht₂ := ht.of_settles hv₃
    have ht₁ := ht₂.of_settles hv₂
    exact .loop ⟨ty, index, zero, id₁, id₂, id₃, id₄, test, head, tail', ht₁.eq_some hty, htest, hhead,
      htail, rfl⟩ (hbody' types ht₂) (hrest' types ht)
  | @fork y a b n first second rest hn hfirst hsecond hrest iha ihb ih =>
    have hkind : n.kind ≠ .forLoop := by cases hn <;> exact nofun
    rw [forLoops_fork hkind] at hrun
    obtain ⟨m₁, hrun₁, hrun⟩ := Action.forM_append_eq_ok.mp hrun
    obtain ⟨m₂, hrun₂, hrun₃⟩ := Action.forM_append_eq_ok.mp hrun
    have h₀ : m.Models ((Context.first C n second (rest ++ tail)).plug (first ++ .nil)) .nil := by
      rw [Code.append_nil]
      exact h
    obtain ⟨first', h₁, hv₁, hfirst'⟩ := iha h₀ hrun₁
    have h₁' : m₁.Models ((Context.second C n first' (rest ++ tail)).plug (second ++ .nil)) .nil := by
      rw [Code.append_nil] at h₁ ⊢
      exact h₁
    obtain ⟨second', h₂, hv₂, hsecond'⟩ := ihb h₁' hrun₂
    rw [Code.append_nil] at h₂
    obtain ⟨rest', h₃, hv₃, hrest'⟩ := ih (C := .after C (.fork n first' second' .nil)) h₂ hrun₃
    refine ⟨.fork n first' second' rest', h₃, hv₁.trans (hv₂.trans hv₃), fun types ht => ?_⟩
    have ht₂ := ht.of_settles hv₃
    exact .fork (hfirst' types (ht₂.of_settles hv₂)) (hsecond' types ht₂) (hrest' types ht)

theorem replaceFors_functions (hshape : c.Functions) (h : m.Models (C.plug c) .nil)
    (hrun : (forLoops c).forM Edit.replaceFor m = .ok () m') :
    ∃ c', m'.Models (C.plug c') .nil ∧ Settles m.values m'.values ∧ ∀ types, m'.Typed types →
      Unrolls types c c' := by
  induction hshape generalizing m m' C with
  | nil =>
    cases hrun
    exact ⟨.nil, h, .refl _, fun _ _ => .nil⟩
  | @function id label ty args body rest hbody hrest ih =>
    rw [forLoops_each (by exact nofun)] at hrun
    obtain ⟨m₁, hrun₁, hrun₂⟩ := Action.forM_append_eq_ok.mp hrun
    have h₀ : m.Models ((Context.each C ⟨id, .funcDef label ty, [], none⟩ args rest).plug (body ++ .nil))
        .nil := by
      rw [Code.append_nil]
      exact h
    obtain ⟨body', h₁, hv₁, hbody'⟩ := replaceFors_models hbody h₀ hrun₁
    rw [Code.append_nil] at h₁
    obtain ⟨rest', h₂, hv₂, hrest'⟩ := ih (C := .after C (.each _ args body' .nil)) h₁ hrun₂
    exact ⟨.each _ args body' rest', h₂, hv₁.trans hv₂, fun types ht =>
      .each nofun (hbody' types (ht.of_settles hv₂)) (hrest' types ht)⟩

theorem Models.walk_filter {d : Code} (h : m.Models c d) (p : Kind → Bool) :
    m.walk.filter (fun id => (m.get? id).any fun op => p op.kind) =
      (c.nodes.filter fun n => p n.kind).map Node.id := by
  rw [h.walk, Code.allIds, List.filter_map]
  congr 1
  refine List.filter_congr fun n hn => ?_
  obtain ⟨parent, args, hnode⟩ := h.holds.hasNode hn
  obtain ⟨regions, hop, -⟩ := hnode.get?
  simp [hop, Node.op]

theorem replaceLoops_models {k : Nat} (hshape : c.Functions) (h : m.Models c .nil)
    (hrun : Edit.replaceLoops m = .ok k m') :
    ∃ c', m'.Models c' .nil ∧ Settles m.values m'.values ∧ ∀ types, m'.Typed types → Unrolls types c c' := by
  unfold Edit.replaceLoops at hrun
  obtain ⟨loops, m₁, hquery, hrun₁⟩ := Action.bind_eq_ok.mp hrun
  have hloops : loops = forLoops c ∧ m₁ = m := by
    cases hquery
    exact ⟨h.walk_filter fun kind => kind = .forLoop, rfl⟩
  obtain ⟨rfl, rfl⟩ := hloops
  obtain ⟨⟨⟩, m₂, hall, hpure⟩ := Action.bind_eq_ok.mp hrun₁
  obtain ⟨-, rfl⟩ := Action.pure_eq_ok.mp hpure
  exact replaceFors_functions (C := .top) hshape h hall

end Module

end Choco.IR
