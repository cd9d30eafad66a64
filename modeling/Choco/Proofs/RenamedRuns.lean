import Choco.Proofs.FlatFunctions
import Choco.Proofs.Worlds

namespace Choco.IR

namespace Effect

variable {α β : Type}

def map (f : α → β) : Effect α → Effect β
  | value w => value w
  | load base offset => load (f base) offset
  | store base offset x => store (f base) offset (f x)
  | next => next
  | goto label => goto label
  | call func args => call func (args.map f)
  | ret x => ret (f x)
  | cell => cell

def contents : Effect α → List α
  | load x _ | ret x => [x]
  | store x _ y => [x, y]
  | call _ xs => xs
  | value _ | next | goto _ | cell => []

end Effect

namespace FlatOp

variable {α β : Type} {word : α → Int32} {word' : β → Int32} {f : α → β} {op : FlatOp}

theorem inputs_map (op : FlatOp) (θ : ValueId → ValueId) (xs : List ValueId) :
    op.inputs (xs.map θ) = (op.inputs xs).map θ := by
  cases op <;> rfl

theorem inputs_subset (op : FlatOp) (xs : List ValueId) : op.inputs xs ⊆ xs := by
  cases op with
  | li | jump | label | alloc => exact List.nil_subset xs
  | _ => exact List.Subset.refl xs

theorem effect?_map (op : FlatOp) {xs : List α} (h : ∀ x ∈ xs, word' (f x) = word x) :
    op.effect? word' (xs.map f) = (op.effect? word xs).map (Effect.map f) := by
  rcases xs with _ | ⟨x, _ | ⟨y, _ | ⟨z, xs⟩⟩⟩
  · cases op <;> rfl
  · have hx := h x List.mem_cons_self
    cases op with
    | addi n => exact congrArg (fun w => some (Effect.value (w + n))) hx
    | seqz => exact congrArg (fun w => some (Effect.value (Word.ofBool (w == 0)))) hx
    | snez => exact congrArg (fun w => some (Effect.value (Word.ofBool (w != 0)))) hx
    | _ => rfl
  · have hx := h x List.mem_cons_self
    have hy := h y (List.mem_cons_of_mem x List.mem_cons_self)
    cases op with
    | alu op => exact congrArg₂ (fun v w => some (Effect.value (op.eval v w))) hx hy
    | branch cond label =>
      refine (congrArg₂ (fun v w => some (if cond.holds v w then Effect.goto label else .next)) hx hy).trans
        ?_
      exact congrArg some (apply_ite (Effect.map f) _ (.goto label) .next).symm
    | _ => rfl
  · cases op <;> rfl

theorem effect?_contents {xs : List α} {e : Effect α} (h : op.effect? word xs = some e) :
    ∀ x ∈ e.contents, x ∈ xs := by
  cases op with
  | li | jump | label | alloc | call =>
    cases h
    simp [Effect.contents]
  | branch cond label =>
    rcases xs with _ | ⟨x, _ | ⟨y, _ | ⟨z, xs⟩⟩⟩ <;> cases h
    split <;> exact nofun
  | _ =>
    rcases xs with _ | ⟨x, _ | ⟨y, _ | ⟨z, xs⟩⟩⟩ <;> cases h
    simp [Effect.contents]

end FlatOp

structure Renamed (N : List ValueId) (θ : ValueId → ValueId) (s s' : State) : Prop where
  values : ∀ x ∈ N, s'.values (θ x) = (s.values x).rename θ
  within : ∀ x ∈ N, (s.values x).Within N
  world : s.world.Alike N θ s'.world

inductive Outcome.Renamed (N : List ValueId) (θ : ValueId → ValueId) : Outcome → Outcome → Prop
  | next {s s' : State} (h : IR.Renamed N θ s s') : Renamed N θ (.next s) (.next s')
  | jump (label : String) : Renamed N θ (.jump label) (.jump label)
  | ret (value : Int32) : Renamed N θ (.ret value) (.ret value)

section Renaming

variable {N : List ValueId} {θ : ValueId → ValueId} {host host' : Host} {s s' : State} {i : Instruction}
  {P : List Instruction} {result : Option ValueId}

theorem Renamed.define (h : Renamed N θ s s') (hhost : host.Alike N θ host') (hresult : ∀ v ∈ result, v ∈ N)
    {c : Content} (hc : c.Within N) :
    Renamed N θ (s.define result (some c)) (s'.define (result.map θ) (some (c.rename θ))) := by
  cases result with
  | none => exact h
  | some v =>
    have hv := hresult v rfl
    refine ⟨fun x hx => ?_, fun x hx => ?_, by simpa using h.world⟩
    · by_cases hxv : x = v
      · simp [hxv]
      · have hne : θ x ≠ θ v := fun he => hxv (hhost.injective x hx v hv he)
        simp [hxv, hne, h.values x hx]
    · by_cases hxv : x = v
      · simpa [hxv] using hc
      · simpa [hxv] using h.within x hx

theorem Renamed.define_word (h : Renamed N θ s s') (hhost : host.Alike N θ host')
    (hresult : ∀ v ∈ result, v ∈ N) {w w' : Int32} (hw : w' = w) :
    Renamed N θ (s.define result (some (.word w))) (s'.define (result.map θ) (some (.word w'))) := by
  subst hw
  exact h.define hhost hresult (Content.within_word N w')

theorem Host.Alike.words_eq (h : host.Alike N θ host') {cs : List Content} (hcs : ∀ c ∈ cs, c.Within N) :
    (cs.map (Content.rename θ)).map host'.word = cs.map host.word := by
  rw [List.map_map]
  exact List.map_congr_left fun c hc => h.word_eq (hcs c hc)

theorem Instruction.outcome_renamed (hhost : host.Alike N θ host') (h : Renamed N θ s s')
    (hresult : ∀ v ∈ result, v ∈ N) {e : Effect Content} (he : ∀ c ∈ e.contents, c.Within N) :
    Outcome.Renamed N θ (outcome host result s e)
      (outcome host' (result.map θ) s' (e.map (Content.rename θ))) := by
  cases e with
  | value w => exact .next (h.define_word hhost hresult rfl)
  | load base offset =>
    exact .next (h.define_word hhost hresult
      (hhost.load_eq h.world (he base (by simp [Effect.contents])) offset))
  | store base offset x =>
    refine .next ⟨h.values, h.within, ?_⟩
    rw [hhost.word_eq (he x (by simp [Effect.contents]))]
    exact hhost.store h.world (he base (by simp [Effect.contents])) offset _
  | next => exact .next h
  | goto label => exact .jump label
  | call func args =>
    have hargs : (args.map (Content.rename θ)).map host'.word = args.map host.word := hhost.words_eq he
    simp only [outcome, Effect.map, hargs, hhost.answer_eq h.world]
    have hnoted : Renamed N θ { s with world := s.world.note (.call func (args.map host.word)) }
        { s' with world := s'.world.note (.call func (args.map host.word)) } :=
      ⟨h.values, h.within, h.world.note_call ..⟩
    exact .next (hnoted.define_word hhost hresult rfl)
  | ret x =>
    simp only [outcome, Effect.map, hhost.word_eq (he x (by simp [Effect.contents]))]
    exact .ret _
  | cell =>
    cases result with
    | none => exact .next h
    | some v =>
      exact .next (h.define hhost hresult (c := .cell v) fun u hu => Content.cell.inj hu ▸ hresult v rfl)

theorem Instruction.run_renamed (hhost : host.Alike N θ host') (h : Renamed N θ s s')
    (hresult : ∀ v ∈ i.result, v ∈ N) (hoperands : ∀ x ∈ i.operands, x ∈ N) {o : Outcome}
    (hrun : i.run host s = some o) :
    ∃ o', (i.map θ).run host' s' = some o' ∧ Outcome.Renamed N θ o o' := by
  have hinputs (x : ValueId) (hx : x ∈ i.op.inputs i.operands) :
      x ∈ N := hoperands x (i.op.inputs_subset _ hx)
  have hvalues : (i.op.inputs (i.operands.map θ)).map s'.values =
      ((i.op.inputs i.operands).map s.values).map (Content.rename θ) := by
    rw [FlatOp.inputs_map, List.map_map, List.map_map]
    exact List.map_congr_left fun x hx => h.values x (hinputs x hx)
  have hwithin : ∀ c ∈ (i.op.inputs i.operands).map s.values, c.Within N := by
    rw [List.forall_mem_map]
    exact fun x hx => h.within x (hinputs x hx)
  obtain ⟨e, he, rfl⟩ := Option.map_eq_some_iff.mp hrun
  have heffect : (i.map θ).run host' s' =
      some (outcome host' (i.result.map θ) s' (e.map (Content.rename θ))) := by
    have hmap := i.op.effect?_map (f := Content.rename θ) fun c hc => hhost.word_eq (hwithin c hc)
    rw [he] at hmap
    rw [run, Instruction.map, hvalues, hmap]
    rfl
  exact ⟨_, heffect, outcome_renamed hhost h hresult fun c hc => hwithin c (FlatOp.effect?_contents he c hc)⟩

theorem labelPosition_map (P : List Instruction) (label : String) :
    labelPosition (P.map (·.map θ)) label = labelPosition P label := by
  rw [labelPosition, List.findIdx?_map]
  rfl

variable {n k k₁ : Nat} {t : State}

theorem step_renamed (hhost : host.Alike N θ host') (h : Renamed N θ s s')
    (hP : ∀ i ∈ P, (∀ v ∈ i.result, v ∈ N) ∧ ∀ x ∈ i.operands, x ∈ N) :
    (∀ c, step host P ⟨k, s⟩ = .to c → ∃ t', step host' (P.map (·.map θ)) ⟨k, s'⟩ = .to ⟨c.position, t'⟩ ∧
      Renamed N θ c.state t') ∧ ∀ e, step host P ⟨k, s⟩ = .stop e →
        step host' (P.map (·.map θ)) ⟨k, s'⟩ = .stop e := by
  cases hi : P[k]? with
  | none => simp [step, hi]
  | some i =>
    obtain ⟨hresult, hoperands⟩ := hP i (List.mem_of_getElem? hi)
    cases hrun : i.run host s with
    | none => simp [step, hi, hrun]
    | some o =>
      obtain ⟨o', hrun', ho⟩ := Instruction.run_renamed hhost h hresult hoperands hrun
      cases ho with
      | next h => simpa [step, hi, hrun, hrun'] using h
      | ret value => simp [step, hi, hrun, hrun']
      | jump label =>
        simp only [step, List.getElem?_map, hi, Option.map_some, hrun, hrun', labelPosition_map]
        cases Trap.ofRoutine? label <;> cases labelPosition P label <;> simp [h]

theorem Steps.renamed (hhost : host.Alike N θ host')
    (hP : ∀ i ∈ P, (∀ v ∈ i.result, v ∈ N) ∧ ∀ x ∈ i.operands, x ∈ N)
    {c c₁ : Config} (h : Steps host P n c c₁) (hs : Renamed N θ c.state s') :
    ∃ t', Steps host' (P.map (·.map θ)) n ⟨c.position, s'⟩ ⟨c₁.position, t'⟩ ∧ Renamed N θ c₁.state t' := by
  induction h generalizing s' with
  | refl c => exact ⟨s', .refl _, hs⟩
  | head hstep _ ih =>
    obtain ⟨t', ht', hs'⟩ := (step_renamed hhost hs hP).1 _ hstep
    obtain ⟨t₁, hsteps, ht₁⟩ := ih hs'
    exact ⟨t₁, .head ht' hsteps, ht₁⟩

end Renaming

end Choco.IR
