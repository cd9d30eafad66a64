import Choco.Proofs.Linking
import Choco.Proofs.Worlds

namespace Choco

variable {label : String}

theorem Trap.ofRoutine?_eq_none (h : label.toList.head? = some '.') : ofRoutine? label = none := by
  rw [ofRoutine?, List.find?_eq_none]
  intro fault _ hlabel
  obtain rfl := of_decide_eq_true hlabel
  cases fault <;> revert h <;> decide

namespace IR

open Instruction

section Steps

variable {host : Host} {P is js : List Instruction} {i : Instruction} {m n k : Nat} {c c₁ c₂ : Config}
  {s t : State}

theorem Steps.one (h : step host P c = .to c₁) : Steps host P 1 c c₁ := .head h (.refl c₁)

theorem Steps.trans (h : Steps host P m c c₁) (h' : Steps host P n c₁ c₂) : Steps host P (m + n) c c₂ := by
  induction h with
  | refl => rwa [Nat.zero_add]
  | head hstep _ ih =>
    rw [Nat.add_right_comm]
    exact .head hstep (ih h')

def Sits (P : List Instruction) (k : Nat) (is : List Instruction) : Prop := is <+: P.drop k

theorem Sits.head (h : Sits P k (i :: is)) : P[k]? = some i := by
  obtain ⟨post, hpost⟩ := h
  have hhead := congrArg (·[0]?) hpost
  simpa using hhead.symm

theorem Sits.append (h : Sits P k (is ++ js)) : Sits P k is ∧ Sits P (k + is.length) js := by
  obtain ⟨post, hpost⟩ := h
  refine ⟨⟨js ++ post, by rw [← List.append_assoc, hpost]⟩, ⟨post, ?_⟩⟩
  rw [← List.drop_drop, ← hpost, List.append_assoc, List.drop_left]

theorem Sits.tail (h : Sits P k (i :: is)) : Sits P (k + 1) is := by
  have hsplit : Sits P k ([i] ++ is) := h
  exact hsplit.append.2

theorem Sits.steps (h : Sits P k is) (hrun : host.straight is s = some (.next none, t)) :
    Steps host P is.length ⟨k, s⟩ ⟨k + is.length, t⟩ := by
  induction is generalizing k s with
  | nil =>
    cases hrun
    exact .refl _
  | cons i is ih =>
    rw [Host.straight] at hrun
    split at hrun
    · next s₁ hstep =>
        have hmove : step host P ⟨k, s⟩ = .to ⟨k + 1, s₁⟩ := by simp [step, h.head, hstep]
        rw [List.length_cons, ← Nat.add_assoc, Nat.add_right_comm]
        exact .head hmove (ih h.tail hrun)
    · simp at hrun
    · cases hrun
    · cases hrun

def Exit.ending? : Exit → Option Ending
  | ret value => some (.ret value)
  | trap fault => some (.trap fault)
  | next _ | timeout => none

theorem Sits.stops (h : Sits P k is) {exit : Exit} (hrun : host.straight is s = some (exit, t)) {e : Ending}
    (he : exit.ending? = some e) : ∃ n position, Steps host P n ⟨k, s⟩ ⟨position, t⟩ ∧
      step host P ⟨position, t⟩ = .stop e := by
  induction is generalizing k s with
  | nil =>
    cases hrun
    cases he
  | cons i is ih =>
    rw [Host.straight] at hrun
    split at hrun
    · next s₁ hstep =>
        obtain ⟨n, position, hsteps, hstop⟩ := ih h.tail hrun
        exact ⟨n + 1, position, .head (by simp [step, h.head, hstep]) hsteps, hstop⟩
    · next label hstep =>
        obtain ⟨fault, hfault, hpair⟩ := Option.map_eq_some_iff.mp hrun
        cases hpair
        cases he
        exact ⟨0, k, .refl _, by simp [step, h.head, hstep, hfault]⟩
    · next value hstep =>
        cases hrun
        cases he
        exact ⟨0, k, .refl _, by simp [step, h.head, hstep]⟩
    · cases hrun

def Labeled (P : List Instruction) : Prop := (namesOf FlatOp.label? P).Nodup

theorem Labeled.position_eq (h : Labeled P) {xs : List ValueId}
    (hsits : Sits P k (act (.label label) xs :: is)) :
    labelPosition P label = some k := by
  obtain ⟨post, hpost⟩ := hsits
  have hk : k ≤ P.length := by
    by_contra hk
    rw [List.drop_eq_nil_of_le (Nat.le_of_not_le hk)] at hpost
    cases hpost
  have hP : P = P.take k ++ act (.label label) xs :: (is ++ post) := by
    conv_lhs => rw [← List.take_append_drop k P, ← hpost]
    rfl
  have hbefore : ∀ i ∈ P.take k, ¬ decide (i.op = .label label) = true := by
    intro i hi hlabel
    rw [Labeled, hP, namesOf_append, namesOf_cons, List.nodup_append] at h
    refine h.2.2 label (List.mem_filterMap.mpr ⟨i, hi, ?_⟩) label (by simp [FlatOp.label?]) rfl
    rw [of_decide_eq_true hlabel]
    rfl
  rw [labelPosition, hP, List.findIdx?_append, List.findIdx?_eq_none_iff.mpr (by simpa using hbefore),
    List.findIdx?_cons]
  simp [hk]

theorem Sits.jump (h : Sits P k (i :: is)) (hrun : i.run host s = some (.jump label))
    (hlabel : label.toList.head? = some '.') {position : Nat}
    (hposition : labelPosition P label = some position) : Steps host P 1 ⟨k, s⟩ ⟨position, s⟩ :=
  .one (by simp [step, h.head, hrun, Trap.ofRoutine?_eq_none hlabel, hposition])

end Steps

/-- The states agree on the values with the property, which are no addresses of other storage, and on the
world. -/
structure Agree (K : List ValueId) (V : ValueId → Prop) (s s' : State) : Prop where
  values : ∀ x, V x → s'.values x = s.values x
  within : ∀ x, V x → (s.values x).Within K
  world : s.world.Alike K id s'.world

section Agree

variable {K : List ValueId} {V V' : ValueId → Prop} {s s' : State}

theorem Agree.mono (h : Agree K V s s') (hV : ∀ x, V' x → V x) : Agree K V' s s' :=
  ⟨fun x hx => h.values x (hV x hx), fun x hx => h.within x (hV x hx), h.world⟩

theorem Agree.change {u : State} (h : Agree K V s s') (hvalues : ∀ x, V x → u.values x = s'.values x)
    (hworld : s.world.Alike K id u.world) : Agree K V s u :=
  ⟨fun x hx => (hvalues x hx).trans (h.values x hx), h.within, hworld⟩

theorem Agree.define (h : Agree K V s s') {u : ValueId} (hu : ¬ V u) (value : Option Content) :
    Agree K V s (s'.define (some u) value) := by
  apply h.change
  · intro x hx
    exact State.values_define_of_ne fun he => hu (he ▸ hx)
  · rw [State.world_define]
    exact h.world

end Agree

/-- How instructions between two positions follow code that is left in this way. `Q` relates the states at the
end. -/
def Follows (host : Host) (P : List Instruction) (K : List ValueId) (fuel : Nat) (start : Config) (stop : Nat)
    (Q : Option Content → State → State → Prop) (r : Exit × State) : Prop :=
  match r.1 with
  | .next value => ∃ n t', Steps host P n start ⟨stop, t'⟩ ∧ Q value r.2 t'
  | .timeout => ∃ n c, fuel ≤ n ∧ Steps host P n start c ∧ r.2.world.Alike K id c.state.world
  | exit => ∃ n c, Steps host P n start c ∧ (∃ e, exit.ending? = some e ∧ step host P c = .stop e) ∧
      r.2.world.Alike K id c.state.world

section Follows

variable {host : Host} {P : List Instruction} {K : List ValueId} {fuel fuel' m stop stop' : Nat}
  {c c₁ : Config} {Q Q' : Option Content → State → State → Prop} {r : Exit × State}

theorem Follows.after (hsteps : Steps host P m c c₁) (h : Follows host P K fuel c₁ stop Q r) :
    Follows host P K (m + fuel) c stop Q r := by
  obtain ⟨exit, t⟩ := r
  cases exit with
  | next value =>
    obtain ⟨n, t', hn, hQ⟩ := h
    exact ⟨m + n, t', hsteps.trans hn, hQ⟩
  | timeout =>
    obtain ⟨n, c₂, hle, hn, hw⟩ := h
    exact ⟨m + n, c₂, Nat.add_le_add_left hle m, hsteps.trans hn, hw⟩
  | ret | trap =>
    obtain ⟨n, c₂, hn, hstop⟩ := h
    exact ⟨m + n, c₂, hsteps.trans hn, hstop⟩

theorem Follows.mono (h : Follows host P K fuel c stop Q r) (hle : fuel' ≤ fuel) :
    Follows host P K fuel' c stop Q r := by
  obtain ⟨exit, t⟩ := r
  cases exit with
  | timeout =>
    obtain ⟨n, c₂, hn, hrest⟩ := h
    exact ⟨n, c₂, hle.trans hn, hrest⟩
  | next | ret | trap => exact h

theorem Follows.begin (hsteps : Steps host P m c c₁) (h : Follows host P K fuel c₁ stop Q r) :
    Follows host P K fuel c stop Q r :=
  (h.after hsteps).mono (Nat.le_add_left fuel m)

theorem Follows.andThen (h : Follows host P K fuel c stop Q r) {rest : Option Content → State → Exit × State}
    (hrest : ∀ value t t', Q value t t' → Follows host P K fuel ⟨stop, t'⟩ stop' Q' (rest value t)) :
    Follows host P K fuel c stop' Q' (andThen r rest) := by
  obtain ⟨exit, t⟩ := r
  cases exit with
  | next value =>
    obtain ⟨n, t', hn, hQ⟩ := h
    exact (hrest value t t' hQ).begin hn
  | ret | trap | timeout => exact h

theorem Follows.finish (h : Follows host P K fuel c stop Q r)
    (hrest : ∀ value t t', Q value t t' → ∃ n t₁, Steps host P n ⟨stop, t'⟩ ⟨stop', t₁⟩ ∧ Q' value t t₁) :
    Follows host P K fuel c stop' Q' r := by
  obtain ⟨exit, t⟩ := r
  cases exit with
  | next value =>
    obtain ⟨n, t', hn, hQ⟩ := h
    obtain ⟨k, t₁, hk, hQ'⟩ := hrest value t t' hQ
    exact ⟨n + k, t₁, hn.trans hk, hQ'⟩
  | ret | trap | timeout => exact h

end Follows

/-- The states after some instructions agree again, and only what the instructions define has changed. -/
structure After (K : List ValueId) (V : ValueId → Prop) (is : List Instruction) (s' t t' : State) : Prop where
  agree : Agree K V t t'
  frame : ∀ u ∉ definitions is, t'.values u = s'.values u

/-- Wherever the instructions stand in the program, they follow the code, and give the value that it
yields. -/
def Simulates (host : Host) (P : List Instruction) (K : List ValueId) (fuel : Nat) (V : ValueId → Prop)
    (is : List Instruction) (out : Option ValueId) (run : State → Exit × State) : Prop :=
  ∀ k s s', Sits P k is → Agree K V s s' → Follows host P K fuel ⟨k, s'⟩ (k + is.length)
    (fun value t t' => After K V is s' t t' ∧ ∀ u ∈ out, value = some (.word (host.word (t'.values u))))
      (run s)

def SimulatesNode (host : Host) (P : List Instruction) (K : List ValueId) (fuel : Nat) (V : ValueId → Prop)
    (is : List Instruction) (n : Node) (run : State → Exit × State) : Prop :=
  ∀ k s s', Sits P k is → Agree K V s s' → Follows host P K fuel ⟨k, s'⟩ (k + is.length)
    (fun value t t' => After K V is s' t t' ∧ ∀ u ∈ n.results, value = some (t'.values u) ∧
      (t'.values u).Within K) (run s)

section Nodes

variable {host : Host} {P is js ks : List Instruction} {K : List ValueId} {fuel k : Nat}
  {V : ValueId → Prop} {n : Node} {out : Option ValueId}

theorem Agree.result {t t' : State} {value : Option Content} (h : Agree K V t t')
    (hfresh : ∀ u ∈ n.results, ¬ V u)
    (hvalue : ∀ u ∈ n.results, value = some (t'.values u) ∧ (t'.values u).Within K) :
    Agree K (fun v => v ∈ n.results ∨ V v) (t.define (n.result.map Def.value) value) t' := by
  cases hr : n.result with
  | none =>
    have hresults : n.results = [] := by simp [Node.results, hr]
    simp only [hresults, List.not_mem_nil, false_or]
    exact h
  | some r =>
    have hresults : n.results = [r.value] := by simp [Node.results, hr]
    simp only [hresults, List.mem_singleton, forall_eq] at hfresh hvalue ⊢
    obtain ⟨rfl, hwithin⟩ := hvalue
    have hother {x : ValueId} (hx : V x) : x ≠ r.value := fun he => hfresh (he ▸ hx)
    refine ⟨fun x hx => ?_, fun x hx => ?_, ?_⟩
    · obtain rfl | hx := hx
      · simp
      · simp [hother hx, h.values x hx]
    · obtain rfl | hx := hx
      · simpa using hwithin
      · simpa [hother hx] using h.within x hx
    · simpa using h.world

theorem SimulatesNode.andThen {run : State → Exit × State} {rest : State → Exit × State}
    (h : SimulatesNode host P K fuel V is n run) (hfresh : ∀ u ∈ n.results, ¬ V u)
    (hrest : Simulates host P K fuel (fun v => v ∈ n.results ∨ V v) js out rest) :
    Simulates host P K fuel V (is ++ js) out fun s => andThen (run s) fun value t =>
      rest (t.define (n.result.map Def.value) value) := by
  intro k s s' hsits hagree
  obtain ⟨hi, hj⟩ := hsits.append
  refine (h k s s' hi hagree).andThen fun value t t' hafter => ?_
  obtain ⟨hafter, hvalue⟩ := hafter
  rw [List.length_append, ← Nat.add_assoc]
  refine (hrest _ _ _ hj (hafter.agree.result hfresh hvalue)).finish fun value t t₁ ⟨hrest, hout⟩ => ?_
  refine ⟨0, t₁, .refl _, ⟨hrest.agree.mono fun _ => .inr, fun u hu => ?_⟩, hout⟩
  rw [definitions_append, List.mem_append, not_or] at hu
  exact (hrest.frame u hu.2).trans (hafter.frame u hu.1)

theorem Node.Plain.not_isAlloc (h : n.Plain) (hresult : n.result = none) : n.kind.isAlloc = false := by
  cases h with
  | alloc => cases hresult
  | _ => rfl

theorem LeafFlat.simulates {result : Option ValueId}
    (h : LeafFlat n.kind n.operands n.result.isSome result is) (hn : n.Plain)
    (hresult : ∀ r ∈ n.result, result = some r.value) (hapart : Apart n.operands is)
    (hfresh : ∀ v ∈ definitions is, ¬ V v)
    (hoperands : ∀ x ∈ n.operands, V x) (halloc : n.kind.isAlloc → ∀ v ∈ n.results, v ∈ K) :
    SimulatesNode host P K fuel V is n fun s =>
      let (exit, w) := host.perform n.kind (n.operands.map s.values) (n.result.map Def.value) s.world
      (exit, { s with world := w }) := by
  intro k s s' hsits hagree
  have hvalues : n.operands.map s'.values = n.operands.map s.values :=
    List.map_congr_left fun x hx => hagree.values x (hoperands x hx)
  have hname : host.perform n.kind (n.operands.map s.values) (n.result.map Def.value) =
      host.perform n.kind (n.operands.map s.values) result := by
    cases hr : n.result with
    | none => exact Host.perform_result (hn.not_isAlloc hr) ..
    | some r => rw [hresult r hr, Option.map_some]
  have hwithin : ∀ c ∈ n.operands.map s.values, c.Within K := by
    rw [List.forall_mem_map]
    exact fun x hx => hagree.within x (hoperands x hx)
  obtain ⟨hexit, hworld⟩ := host.steady_perform n.kind result hwithin _ _ hagree.world
  have hkeeping : Keeping K (host.perform n.kind (n.operands.map s.values) (n.result.map Def.value)) :=
    Host.keeping_perform (by simpa [Node.results] using halloc)
  obtain ⟨t', ht', hleft⟩ : Does host is result s'
    (host.perform n.kind (n.operands.map s'.values) result s'.world) := h.does hapart
  rw [hvalues] at ht' hleft
  rw [hexit] at hleft
  rw [← ht'] at hworld
  rw [hname] at hkeeping
  simp only [hname]
  have hkept := hkeeping s.world
  generalize host.perform n.kind (n.operands.map s.values) result s.world = r at hleft hworld hkept
  obtain ⟨exit, w⟩ := r
  cases exit with
  | next value =>
    obtain ⟨hrun, hvalue⟩ := hleft
    have hframe (u : ValueId) (hu : u ∉ definitions is) : t'.values u = s'.values u := straight_frame hrun hu
    refine ⟨_, t', hsits.steps hrun, ⟨⟨fun x hx => ?_, hagree.within, hworld⟩, hframe⟩, fun u hu => ?_⟩
    · exact (hframe x fun hd => hfresh x hd hx).trans (hagree.values x hx)
    · obtain ⟨r, hr, rfl⟩ : ∃ r ∈ n.result, r.value = u := by simpa [Node.results] using hu
      have hu := hvalue r.value (hresult r hr)
      exact ⟨hu, hkept _ (congrArg Exit.next hu)⟩
  | timeout => exact absurd hleft (straight_ne_timeout _ _)
  | ret | trap =>
    obtain ⟨m, position, hsteps, hstop⟩ := hsits.stops hleft rfl
    exact ⟨m, ⟨position, t'⟩, hsteps, ⟨_, rfl, hstop⟩, hworld⟩

end Nodes

end IR

end Choco
