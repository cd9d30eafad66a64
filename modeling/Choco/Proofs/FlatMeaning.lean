import Choco.Proofs.ForkRuns
import Choco.Proofs.RenamedRuns
import Choco.Proofs.Returns

namespace Choco

namespace IR

open Instruction

variable {k : Nat} {c : Code}

section Code

variable {host : Host} {P is js ks ls : List Instruction} {K : List ValueId} {fuel : Nat}
  {A S : ValueId → Prop} {n : Node} {first second rest c : Code} {p p' : Progress} {out : Option ValueId}

/-- Names where code has instructions: what these define is new, and of the storage in `K` they make only that
of the code. -/
structure Fitting (K : List ValueId) (A S : ValueId → Prop) (c : Code) (is : List Instruction) : Prop where
  scope : c.Scoped A S
  nodup : (definitions is).Nodup
  fresh : ∀ v ∈ definitions is, ¬ (S v ∨ A v)
  kept : ∀ v ∈ K, v ∈ definitions is → v ∈ c.results
  allocs : ∀ v ∈ c.resultsOf Kind.isAlloc, v ∈ K

theorem Node.Sees.known (h : n.Sees A S) : ∀ x ∈ n.operands, S x ∨ A x :=
  fun x hx => (h x hx).imp_right And.right

/-- What the instructions of a construct define: names of its own, and what those of its regions define. -/
theorem ForkFlat.definitions_perm {x y : Option ValueId} (h : ForkFlat k n is x js y ks) :
    ∃ own, (definitions ks).Perm (own ++ (definitions is ++ definitions js)) ∧ ∀ v ∈ n.results, v ∈ own := by
  cases h with
  | @shortCircuit _ _ _ _ r _ _ _ _ _ slot zero | @ifExpr _ r _ _ _ _ _ slot zero =>
    refine ⟨[slot, zero, r.value], List.perm_iff_count.mpr fun u => ?_, by simp [Node.results]⟩
    simp only [definitions_cons, definitions_append, definitions_nil, Option.toList_some, Option.toList_none,
      List.count_append, List.count_cons, List.count_nil]
    omega
  | @ifElse _ _ _ _ zero | @whileLoop _ _ _ _ zero =>
    refine ⟨[zero], List.perm_iff_count.mpr fun u => ?_, by simp [Node.results]⟩
    simp only [definitions_cons, definitions_append, definitions_nil, Option.toList_some, Option.toList_none,
      List.count_append, List.count_cons, List.count_nil]
    omega

theorem Lowers.simulates (h : Lowers p c is out p') (hP : Labeled P) (hfit : Fitting K A S c is) :
    Simulates host P K fuel (fun v => S v ∨ A v) is out (host.exec fuel c) := by
  induction h generalizing S with
  | nil => exact fun k s s' _ hagree => ⟨0, s', .refl _, ⟨hagree, fun _ _ => rfl⟩, nofun⟩
  | yield id x =>
    intro k s s' _ hagree
    refine ⟨0, s', .refl _, ⟨hagree, fun _ _ => rfl⟩, fun u hu => ?_⟩
    obtain rfl := Option.mem_some.mp hu
    rw [hagree.values x (hfit.scope.1.known x (by simp))]
    rfl
  | @leaf p p' n rest is js v out hn hflat hv hrest ih =>
    obtain ⟨⟨hsees, hscope⟩, hnodup, hfresh, hkept, hallocs⟩ := hfit
    rw [definitions_append, List.nodup_append] at hnodup
    simp only [definitions_append, List.mem_append, Code.results_leaf, Code.resultsOf_leaf]
      at hfresh hkept hallocs
    have hresults (u : ValueId) (hu : u ∈ n.results) : u ∈ definitions is := by
      obtain ⟨r, hr, rfl⟩ : ∃ r ∈ n.result, r.value = u := by simpa [Node.results] using hu
      exact hflat.names.1 _ (hv r hr)
    have hapart (u : ValueId) (hu : u ∈ n.results) (hj : u ∈ definitions js) :
        False := hnodup.2.2 u (hresults u hu) u hj rfl
    have hrestFit : Fitting K A (fun v => v ∈ n.results ∨ S v) rest js := by
      refine ⟨hscope, hnodup.2.1, fun u hu => ?_, fun u hK hu => ?_, fun u hu => hallocs u (.inr hu)⟩
      · rintro ((hn | hS) | hA)
        · exact hapart u hn hu
        · exact hfresh u (.inr hu) (.inl hS)
        · exact hfresh u (.inr hu) (.inr hA)
      · exact (hkept u hK (.inr hu)).resolve_left fun hn => hapart u hn hu
    rw [Host.exec_leaf hn.ne_yield]
    have hknown := hsees.known
    refine (hflat.simulates hn hv ⟨hnodup.1, fun x hx hd => hfresh x (.inl hd) (hknown x hx)⟩
      (fun u hu => hfresh u (.inl hu)) hknown fun halloc u hu =>
      hallocs u (.inl (by simpa [halloc] using hu))).andThen (fun u hu => hfresh u (.inl (hresults u hu))) ?_
    simpa only [or_assoc] using ih hrestFit
  | @fork p p₁ p₂ p' n first second rest is js ks ls x y out hfirst hsecond hflat hrest iha ihb ih =>
    obtain ⟨⟨hsees, hscope₁, hscope₂, hscope⟩, hnodup, hfresh, hkept, hallocs⟩ := hfit
    rw [definitions_append, List.nodup_append] at hnodup
    simp only [definitions_append, List.mem_append, Code.results_fork, Code.resultsOf_fork]
      at hfresh hkept hallocs
    obtain ⟨own, hperm, hown⟩ := hflat.definitions_perm
    have hmem (u : ValueId) : u ∈ definitions ks ↔ u ∈ own ∨ u ∈ definitions is ∨ u ∈ definitions js := by
      rw [hperm.mem_iff, List.mem_append, List.mem_append]
    have hparts := hperm.nodup hnodup.1
    simp only [List.nodup_append, List.mem_append] at hparts
    obtain ⟨-, ⟨hnodup₁, hnodup₂, hbetween⟩, hapart⟩ := hparts
    have hout := (hfirst.inScope hscope₁).2
    have hdefines₁ (u : ValueId) : u ∈ first.results → u ∈ definitions is := hfirst.defines
    have hdefines₂ (u : ValueId) : u ∈ second.results → u ∈ definitions js := hsecond.defines
    have hdefines (u : ValueId) : u ∈ rest.results → u ∈ definitions ls := hrest.defines
    have hfit₁ : Fitting K A S first is := by
      refine ⟨hscope₁, hnodup₁, fun u hu => hfresh u (by grind), fun u hK hu => ?_,
        fun u hu => hallocs u (by grind)⟩
      have hu' := hkept u hK
      grind
    have hfit₂ : Fitting K A S second js := by
      refine ⟨hscope₂, hnodup₂, fun u hu => hfresh u (by grind), fun u hK hu => ?_,
        fun u hu => hallocs u (by grind)⟩
      have hu' := hkept u hK
      grind
    have hfit : Fitting K A (fun v => v ∈ n.results ∨ S v) rest ls := by
      refine ⟨hscope, hnodup.2.1, fun u hu => ?_, fun u hK hu => ?_, fun u hu => hallocs u (by grind)⟩
      · have hu' := hfresh u (.inr hu)
        grind
      · have hu' := hkept u hK
        grind
    have hnode : SimulatesNode host P K fuel (fun v => S v ∨ A v) ks n
        (host.select fuel n (host.exec fuel first) (host.exec fuel second)) := by
      refine hflat.simulates hP (iha hfit₁) (ihb hfit₂) hnodup.1 (fun u hu => hfresh u (.inl hu)) hsees.known
        (fun u hu => (hout u hu).imp_right .inl) fun u hK hu => ?_
      have hu' := hkept u hK (.inl hu)
      grind
    rw [Host.exec_fork]
    refine hnode.andThen (fun u hu => hfresh u (by grind)) ?_
    simpa only [or_assoc] using ih hfit

end Code

section Runs

variable {host : Host} {P : List Instruction} {m n : Nat} {c c₁ c₂ : Config} {e e' : Ending}

theorem Steps.le_of_stop (h : Steps host P m c c₁) (hstop : step host P c₁ = .stop e)
    (h' : Steps host P n c c₂) : n ≤ m := by
  induction h generalizing n with
  | refl c =>
    cases h' with
    | refl => exact le_rfl
    | head hstep => cases hstop.symm.trans hstep
  | head hstep _ ih =>
    cases h' with
    | refl => exact Nat.zero_le _
    | head hstep' hrest' =>
      cases hstep.symm.trans hstep'
      exact Nat.succ_le_succ (ih hstop hrest')

theorem Steps.eq_of_stop (h : Steps host P m c c₁) (hstop : step host P c₁ = .stop e)
    (h' : Steps host P n c c₂) (hstop' : step host P c₂ = .stop e') : c₁ = c₂ := by
  induction h generalizing n with
  | refl c =>
    cases h' with
    | refl => rfl
    | head hstep => cases hstop.symm.trans hstep
  | head hstep _ ih =>
    cases h' with
    | refl => cases hstop'.symm.trans hstep
    | head hstep' hrest' =>
      cases hstep.symm.trans hstep'
      exact ih hstop hrest'

theorem Steps.exists_of_le (h : Steps host P m c c₂) (hle : n ≤ m) : ∃ c₁, Steps host P n c c₁ := by
  induction h generalizing n with
  | refl c =>
    cases Nat.le_zero.mp hle
    exact ⟨c, .refl c⟩
  | head hstep _ ih =>
    cases n with
    | zero => exact ⟨_, .refl _⟩
    | succ n =>
      obtain ⟨c₁, hsteps⟩ := ih (Nat.le_of_succ_le_succ hle)
      exact ⟨c₁, .head hstep hsteps⟩

end Runs

/-- The host of code whose storage has other names. -/
def Host.under (host : Host) (θ : ValueId → ValueId) : Host := ⟨fun v => host.address (θ v), host.reply⟩

/-- The state in which a function starts: its arguments are words, and any other name stands for the storage
of this name. -/
def State.start (args : List ValueId) (given : ValueId → Int32) (memory : Int32 → Int32)
    (cells : ValueId → Int32) : State :=
  ⟨fun x => if x ∈ args then .word (given x) else .cell x, ⟨memory, cells, []⟩⟩

/-- How a function ends whose code is left in this way. -/
def Exit.final? : Exit → Option Ending
  | next _ => some .fall
  | exit => exit.ending?

/-- The code of a function ends in this way, and leaves this world. -/
def Host.Finishes (host : Host) (c : Code) (s : State) (e : Ending) (w : World) : Prop :=
  ∃ fuel exit t, host.exec fuel c s = (exit, t) ∧ exit.final? = some e ∧ t.world = w

/-- The code of a function ends with a return or an error, if it ends. -/
def Code.NeverFalls (c : Code) : Prop := ∀ (host : Host) (s : State) (w : World), ¬ host.Finishes c s .fall w

theorem Code.Shaped.neverFalls (h : c.Shaped false) (hc : c.Returns) : c.NeverFalls := by
  rintro host s w ⟨fuel, exit, t, hexec, hfinal, -⟩
  cases exit with
  | next value => exact h.exec_ne_next hc s value (congrArg Prod.fst hexec)
  | ret | trap | timeout => cases hfinal

/-- The instructions of a function end in this way, and leave this world. -/
def Host.Halts (host : Host) (is : List Instruction) (s : State) (e : Ending) (w : World) : Prop :=
  ∃ n c, Steps host is n ⟨0, s⟩ c ∧ step host is c = .stop e ∧ c.state.world = w

/-- Instructions do the same from one state as code does from another. The storage `K` of the code has other
names in the instructions, which may have more storage. -/
structure SameRuns (K : List ValueId) (θ : ValueId → ValueId) (body : Code) (is : List Instruction)
    (host : Host) (s s' : State) :
    Prop where
  finishes : ∀ e w, (host.under θ).Finishes body s e w → ∃ w', host.Halts is s' e w' ∧ w.Alike K θ w'
  halts : ∀ e w', host.Halts is s' e w' → ∃ w, (host.under θ).Finishes body s e w ∧ w.Alike K θ w'
  endless : (∀ fuel, ((host.under θ).exec fuel body s).1 = .timeout) ↔ ∀ n, ∃ c, Steps host is n ⟨0, s'⟩ c
  /-- As long as there is no end, the same has happened so far. -/
  running : ∀ fuel t, (host.under θ).exec fuel body s = (.timeout, t) →
    ∃ n c, fuel ≤ n ∧ Steps host is n ⟨0, s'⟩ c ∧ t.world.Alike K θ c.state.world

/-- The instructions of a function do the same as its code, whatever memory, storage and arguments it starts
with. -/
def SameMeaning (K : List ValueId) (θ : ValueId → ValueId) (args : List ValueId) (body : Code)
    (is : List Instruction) : Prop :=
  ∀ (host : Host) (given : ValueId → Int32) (memory : Int32 → Int32) (cells : ValueId → Int32),
    SameRuns K θ body is host (State.start args given memory fun v => cells (θ v))
      (State.start args given memory cells)

section Meaning

variable {K N args : List ValueId} {θ : ValueId → ValueId} {host : Host} {body : Code} {is : List Instruction}
  {s s' : State} {w w₁ w' : World} {x : ValueId} {S : ValueId → Prop}

theorem filter_visible (hKN : K ⊆ N) (log : List Event) :
    (log.filter (Event.visible N)).filter (Event.visible K) = log.filter (Event.visible K) := by
  rw [List.filter_filter]
  refine List.filter_congr fun e _ => ?_
  cases e with
  | assign v value => simpa using @hKN v
  | call | store => rfl

theorem Event.rename_id (e : Event) : e.rename id = e := by
  cases e <;> rfl

theorem World.Alike.under (h : w.Alike K id w₁) (h' : w₁.Alike N θ w') (hKN : K ⊆ N)
    (hθ : ∀ u ∈ N, ∀ v ∈ N, θ u = θ v → u = v) : w.Alike K θ w' where
  memory := h'.memory.trans h.memory
  cells v hv := (h'.cells v (hKN hv)).trans (h.cells v hv)
  log := by
    have hlog : w₁.log.filter (Event.visible K) = w.log.filter (Event.visible K) := by
      simpa only [List.map_id, funext Event.rename_id, List.map_id'] using h.log
    have hvisible : ∀ e ∈ w₁.log.filter (Event.visible N), (Event.visible (K.map θ) ∘ Event.rename θ) e =
        Event.visible K e := by
      intro e he
      cases e with
      | call | store => rfl
      | assign v value =>
        have hv : v ∈ N := by simpa using (List.mem_filter.mp he).2
        simp only [Function.comp_apply, Event.rename_assign, Event.visible_assign, decide_eq_decide,
          List.mem_map]
        refine ⟨?_, fun hv => ⟨v, hv, rfl⟩⟩
        rintro ⟨u, hu, he⟩
        exact hθ u (hKN hu) v hv he ▸ hu
    rw [← filter_visible (List.map_subset θ hKN), h'.log, List.filter_map, List.filter_congr hvisible,
      filter_visible hKN, hlog]

/-- What the run of the instructions is like for each amount of fuel decides what the instructions mean. -/
theorem SameRuns.of_follows
    (h : ∀ fuel exit t, (host.under θ).exec fuel body s = (exit, t) →
      (∀ e, exit.final? = some e → ∃ n c, Steps host is n ⟨0, s'⟩ c ∧ step host is c = .stop e ∧
        t.world.Alike K θ c.state.world) ∧
      (exit.final? = none → ∃ n c, fuel ≤ n ∧ Steps host is n ⟨0, s'⟩ c ∧ t.world.Alike K θ c.state.world)) :
    SameRuns K θ body is host s s' := by
  have hfinal {exit : Exit} : exit.final? = none ↔ exit = .timeout := by
    cases exit <;> simp [Exit.final?, Exit.ending?]
  refine ⟨?_, ?_, ⟨?_, ?_⟩, ?_⟩
  · rintro e w ⟨fuel, exit, t, hexec, he, rfl⟩
    obtain ⟨n, c, hsteps, hstop, hworld⟩ := (h fuel exit t hexec).1 e he
    exact ⟨_, ⟨n, c, hsteps, hstop, rfl⟩, hworld⟩
  · rintro e w' ⟨n, c, hsteps, hstop, rfl⟩
    -- With more fuel than the instructions take steps, the code comes to an end as well.
    rcases hexec : (host.under θ).exec (n + 1) body s with ⟨exit, t⟩
    obtain ⟨hend, hendless⟩ := h _ exit t hexec
    cases he : exit.final? with
    | none =>
      obtain ⟨n', c', hle, hsteps', -⟩ := hendless he
      exact absurd (hsteps.le_of_stop hstop hsteps') (by omega)
    | some e' =>
      obtain ⟨n', c', hsteps', hstop', hworld⟩ := hend e' he
      obtain rfl := hsteps.eq_of_stop hstop hsteps' hstop'
      cases hstop.symm.trans hstop'
      exact ⟨t.world, ⟨n + 1, exit, t, hexec, he, rfl⟩, hworld⟩
  · intro hendless n
    rcases hexec : (host.under θ).exec n body s with ⟨exit, t⟩
    have hexit : exit = .timeout := by simpa [hexec] using hendless n
    obtain ⟨n', c, hle, hsteps, -⟩ := (h n exit t hexec).2 (hfinal.mpr hexit)
    exact hsteps.exists_of_le hle
  · intro hendless fuel
    rcases hexec : (host.under θ).exec fuel body s with ⟨exit, t⟩
    rw [← hfinal]
    cases he : exit.final? with
    | none => rfl
    | some e =>
      obtain ⟨n, c, hsteps, hstop, -⟩ := (h fuel exit t hexec).1 e he
      obtain ⟨c', hsteps'⟩ := hendless (n + 1)
      exact absurd (hsteps.le_of_stop hstop hsteps') (by omega)
  · intro fuel t hexec
    exact (h fuel .timeout t hexec).2 rfl

theorem InScope.known {A : ValueId → Prop} (h : InScope A S is) {i : Instruction} (hi : i ∈ is)
    (hx : x ∈ i.operands) :
    x ∈ definitions is ∨ S x ∨ A x := by
  induction is generalizing S with
  | nil => cases hi
  | cons j is ih =>
    rw [definitions_cons, List.mem_append]
    obtain rfl | hi := List.mem_cons.mp hi
    · exact .inr ((h.1 x hx).imp_right And.right)
    · obtain hd | (hr | hS) | hA := ih h.2 hi
      · exact .inl (.inr hd)
      · exact .inl (.inl hr)
      · exact .inr (.inl hS)
      · exact .inr (.inr hA)

theorem State.start_within {given : ValueId → Int32} {memory : Int32 → Int32} {cells : ValueId → Int32}
    (h : x ∈ args ∨ x ∈ K) :
    ((State.start args given memory cells).values x).Within K := by
  intro v hv
  by_cases hx : x ∈ args
  · simp [State.start, hx] at hv
  · obtain rfl : x = v := by simpa [State.start, hx] using hv
    exact h.resolve_left hx

theorem State.start_renamed (hargs : ∀ a ∈ args, a ∈ N ∧ θ a = a) (hθ : ∀ u ∈ N, ∀ v ∈ N, θ u = θ v → u = v)
    (given : ValueId → Int32) (memory : Int32 → Int32) (cells : ValueId → Int32) :
    Renamed N θ (State.start args given memory fun v => cells (θ v))
      (State.start args given memory cells) := by
  refine ⟨fun x hx => ?_, fun x hx => State.start_within (.inr hx), rfl, fun _ _ => rfl, rfl⟩
  by_cases ha : x ∈ args
  · simp [State.start, ha, (hargs x ha).2, Content.rename]
  · have hne : θ x ∉ args := by
      intro hmem
      obtain ⟨hN, hself⟩ := hargs _ hmem
      exact ha (hθ x hx _ hN hself.symm ▸ hmem)
    simp [State.start, ha, hne, Content.rename]

theorem Lowers.sameMeaning {p p' : Progress} (h : Lowers p body is none p') (hP : Labeled is)
    (hfit : Fitting K (· ∈ args) S body is) (hS : ∀ v, S v → v ∈ K) (hargs : ∀ a ∈ args, θ a = a)
    (hθ : ∀ u ∈ K ++ (args ++ definitions is), ∀ v ∈ K ++ (args ++ definitions is), θ u = θ v → u = v) :
    SameMeaning K θ args body (is.map (·.map θ)) := by
  intro host given memory cells
  have hhost : (host.under θ).Alike (K ++ (args ++ definitions is)) θ host := ⟨hθ, fun _ _ => rfl, rfl⟩
  have hnames : ∀ i ∈ is, (∀ v ∈ i.result, v ∈ K ++ (args ++ definitions is)) ∧
      ∀ x ∈ i.operands, x ∈ K ++ (args ++ definitions is) := by
    intro i hi
    simp only [List.mem_append]
    refine ⟨fun v hv => .inr (.inr (List.mem_flatMap.mpr ⟨i, hi, by simpa using hv⟩)), fun x hx => ?_⟩
    obtain hd | hx | hx := (h.inScope hfit.scope).1.known hi hx
    · exact .inr (.inr hd)
    · exact .inl (hS x hx)
    · exact .inr (.inl hx)
  have hagree : Agree K (fun v => S v ∨ v ∈ args) (State.start args given memory fun v => cells (θ v))
      (State.start args given memory fun v => cells (θ v)) :=
    ⟨fun _ _ => rfl, fun x hx => State.start_within (hx.symm.imp_right (hS x)), rfl, fun _ _ => rfl, rfl⟩
  have hrenamed := State.start_renamed
    (fun a ha => ⟨List.mem_append_right K (List.mem_append_left _ ha), hargs a ha⟩) hθ given memory cells
  have hKN : K ⊆ K ++ (args ++ definitions is) := List.subset_append_left _ _
  refine .of_follows fun fuel exit t hexec => ?_
  have hsimulates : Simulates (host.under θ) is K fuel (fun v => S v ∨ v ∈ args) is none
      ((host.under θ).exec fuel body) :=
    h.simulates hP hfit
  have hfollows := hsimulates 0 _ _ ⟨[], by simp⟩ hagree
  rw [hexec] at hfollows
  cases exit with
  | next value =>
    obtain ⟨n, t₁, hsteps, hafter, -⟩ := hfollows
    obtain ⟨t', hsteps', hworld⟩ := hsteps.renamed hhost hnames hrenamed
    refine ⟨fun e he => ?_, fun he => by cases he⟩
    cases he
    exact ⟨n, _, hsteps', by simp [step], hafter.agree.world.under hworld.world hKN hθ⟩
  | timeout =>
    obtain ⟨n, c, hle, hsteps, hworld⟩ := hfollows
    obtain ⟨t', hsteps', hworld'⟩ := hsteps.renamed hhost hnames hrenamed
    exact ⟨fun _ he => (by cases he), fun _ => ⟨n, _, hle, hsteps', hworld.under hworld'.world hKN hθ⟩⟩
  | ret | trap =>
    obtain ⟨n, ⟨position, t₁⟩, hsteps, ⟨e, he, hstop⟩, hworld⟩ := hfollows
    obtain ⟨t', hsteps', hworld'⟩ := hsteps.renamed hhost hnames hrenamed
    refine ⟨fun e' he' => ?_, fun he => by cases he⟩
    cases he.symm.trans he'
    exact ⟨n, _, hsteps', (step_renamed hhost hworld' hnames).2 e hstop, hworld.under hworld'.world hKN hθ⟩

end Meaning

/-- Code and flat code have the same functions, and the code of each and its instructions are related. -/
inductive Code.Functionwise (R : List ValueId → Code → List Instruction → Prop) : Code → Code → Prop
  | nil : Functionwise R nil nil
  | function (id : OpId) (label : String) (ty : Ty) (args : List ValueId) {body body' rest rest' : Code}
      {is : List Instruction} (hreads : body'.Reads is) (h : R args body is)
      (hrest : Functionwise R rest rest') :
      Functionwise R (each ⟨id, .funcDef label ty, [], none⟩ args body rest)
        (each ⟨id, .funcDef label ty, [], none⟩ args body' rest')

theorem Code.Functionwise.neverFalls {R : List ValueId → Code → List Instruction → Prop} {c' : Code}
    (h : c.Functionwise R c') (hc : c.Functions) (hreturns : c.AllReturn) :
    c.Functionwise (fun args body is => R args body is ∧ body.NeverFalls) c' := by
  induction h with
  | nil => exact .nil
  | function id label ty args hreads hR _ ih =>
    cases hc with
    | function _ _ _ _ hshape hrest =>
      exact .function id label ty args hreads ⟨hR, hshape.neverFalls hreturns.1⟩ (ih hrest hreturns.2)

section Functions

variable {K : List ValueId} {θ : ValueId → ValueId} {is : List Instruction}
  {S : ValueId → Prop} {c c' body : Code} {p p' : Progress}

theorem Lowers.labeled (h : Lowers p body is none p') : Labeled is :=
  (h.marked (P := fun _ => True) trivial fun _ _ _ _ _ => trivial).nodup_labels.1

theorem LowersFunctions.sameMeaning (h : LowersFunctions p c c' p') (hc : c.Functions)
    (hscope : c.ScopedFunctions S) (hnodup : c'.results.Nodup) (hS : ∀ v, S v → v ∈ K ∧ v ∉ c'.results)
    (hK : ∀ v ∈ c'.results, v ∈ K ↔ v ∈ c.resultsOf Kind.isAlloc)
    (hargs : ∀ a ∈ c'.args, θ a = a ∧ a ∉ c'.results)
    (hθ : ∀ u ∈ K ++ (c'.args ++ c'.results), ∀ v ∈ K ++ (c'.args ++ c'.results), θ u = θ v → u = v) :
    c.Functionwise (SameMeaning K θ) (c'.relabel θ) := by
  induction h generalizing S with
  | nil => exact .nil
  | @function p p₁ p' n args body body' rest rest' is hbody hreads hrest ih =>
    cases hc with
    | function id label ty _ _ hfunctions =>
      obtain ⟨-, hscopeBody, hscopeRest⟩ := hscope
      have hallocs (v : ValueId) (hv : v ∈ rest.resultsOf Kind.isAlloc) : v ∈ rest'.results :=
        Code.resultsOf_subset _ _ (hrest.alloc_mem hv)
      have hallocsBody (v : ValueId) (hv : v ∈ body.resultsOf Kind.isAlloc) : v ∈ definitions is :=
        hbody.defines (Code.resultsOf_subset _ _ hv)
      simp only [Code.results_each, Code.args_each, Code.resultsOf_each, Node.results, Option.map_none,
        Option.toList_none, List.nil_append, hreads.results_eq, List.mem_append, hreads.args_eq, Kind.isAlloc,
        Bool.false_eq_true, if_false] at hnodup hS hK hargs hθ
      rw [List.nodup_append] at hnodup
      have hapart (v : ValueId) (hv : v ∈ definitions is) (hv' : v ∈ rest'.results) :
          False := hnodup.2.2 v hv v hv' rfl
      have hfit : Fitting K (· ∈ args) (fun v => S v ∨ v ∈ rest.resultsOf Kind.isAlloc) body is := by
        refine ⟨hscopeBody, hnodup.1, fun v hv => ?_, fun v hvK hv => ?_, fun v hv => ?_⟩
        · rintro ((hvS | hvR) | hva)
          · exact (hS v hvS).2 (.inl hv)
          · exact hapart v hv (hallocs v hvR)
          · exact (hargs v (.inl hva)).2 (.inl hv)
        · have hv' := ((hK v (.inl hv)).mp hvK).resolve_right fun hvR => hapart v hv (hallocs v hvR)
          exact Code.resultsOf_subset _ _ hv'
        · exact (hK v (.inl (hallocsBody v hv))).mpr (.inl hv)
      refine .function id label ty args (hreads.map θ) ?_ ?_
      · refine hbody.sameMeaning hbody.labeled hfit (fun v hv => ?_) (fun a ha => (hargs a (.inl ha)).1)
          fun u hu v hv => ?_
        · obtain hvS | hvR := hv
          · exact (hS v hvS).1
          · exact (hK v (.inr (hallocs v hvR))).mpr (.inr hvR)
        · simp only [List.mem_append] at hu hv
          exact hθ u (hu.imp_right (Or.imp .inl .inl)) v (hv.imp_right (Or.imp .inl .inl))
      · refine ih hfunctions hscopeRest hnodup.2.1 (fun v hv => ?_) (fun v hv => ?_)
          (fun a ha => (hargs a (.inr ha)).imp_right fun hne hv => hne (.inr hv)) fun u hu v hv => ?_
        · obtain hvS | hvB := hv
          · exact (hS v hvS).imp_right fun hne hv => hne (.inr hv)
          · exact ⟨(hK v (.inl (hallocsBody v hvB))).mpr (.inl hvB), hapart v (hallocsBody v hvB)⟩
        · refine (hK v (.inr hv)).trans
            ⟨fun h => h.resolve_left fun hvB => hapart v (hallocsBody v hvB) hv, .inr⟩
        · simp only [List.mem_append] at hu hv
          exact hθ u (hu.imp_right (Or.imp .inr .inr)) v (hv.imp_right (Or.imp .inr .inr))

theorem Module.Renders.flatten_meaning {m m' : Module} (h : m.Renders Kind.flattens c)
    (hrun : Edit.flatten m = .ok k m') :
    ∃ c' θ, m'.Models c' .nil ∧
      (∀ u ∈ c.resultsOf Kind.isAlloc, ∀ v ∈ c.resultsOf Kind.isAlloc, θ u = θ v → u = v) ∧
      c.Functionwise (SameMeaning (c.resultsOf Kind.isAlloc) θ) c' := by
  obtain ⟨m₁, θ, c', p, hrun', hnamed, hlowers, -⟩ | ⟨e, m₁, hrun', -⟩ := h.flatten
  · cases hrun.symm.trans hrun'
    have hallocs (v : ValueId) (hv : v ∈ c.resultsOf Kind.isAlloc) : v ∈ c'.results :=
      Code.resultsOf_subset _ _ (hlowers.alloc_mem hv)
    refine ⟨c'.relabel θ, θ, hnamed.models,
      fun u hu v hv => hnamed.injective (hallocs u hu) (hallocs v hv), ?_⟩
    refine hlowers.sameMeaning h.functions h.scope hnamed.nodup (fun _ => False.elim) (fun _ _ => Iff.rfl)
      (fun a ha => ⟨(hnamed.args a ha).1, fun hv => hnamed.arg_ne ha hv rfl⟩) fun u hu v hv he => ?_
    have hname (x : ValueId) (hx : x ∈ c.resultsOf Kind.isAlloc ++ (c'.args ++ c'.results)) :
        x ∈ c'.args ∨ x ∈ c'.results := by
      rw [List.mem_append, List.mem_append] at hx
      exact hx.elim (fun hx => .inr (hallocs x hx)) fun hx => hx
    obtain hu | hu := hname u hu
    · obtain hv | hv := hname v hv
      · rwa [(hnamed.args u hu).1, (hnamed.args v hv).1] at he
      · exact absurd ((hnamed.args u hu).1.symm.trans he) (hnamed.arg_ne_result hu hv)
    · obtain hv | hv := hname v hv
      · exact absurd ((hnamed.args v hv).1.symm.trans he.symm) (hnamed.arg_ne_result hv hu)
      · exact hnamed.injective hu hv he
  · cases hrun.symm.trans hrun'

end Functions

end IR

namespace Options

open IR (Module Edit Code Kind)

variable {options : Options} {p : Program} {m m' : Module}

/-- Each function of a flat module ends as its code in the module before ends, with the same calls and the
same stores, or does not end if that does not. Storage that the code has keeps its words under other names. No
function is left at the end of its code. -/
theorem flattening_preserves_meaning {k : Nat} (h : options.Checkpoint p .optimization m)
    (hrun : Edit.flatten m = .ok k m') :
    ∃ c c' θ, m.Models c .nil ∧ m'.Models c' .nil ∧
      (∀ u ∈ c.resultsOf Kind.isAlloc, ∀ v ∈ c.resultsOf Kind.isAlloc, θ u = θ v → u = v) ∧
      c.Functionwise (fun args body is => IR.SameMeaning (c.resultsOf Kind.isAlloc) θ args body is ∧
        body.NeverFalls) c' := by
  obtain ⟨c, h⟩ := h.exists_stageCode nofun
  obtain ⟨c', θ, hmodels, hinjective, hmeaning⟩ := h.renders_optimization.flatten_meaning hrun
  have hrenders := h.renders_optimization
  exact ⟨c, c', θ, hrenders.models, hmodels, hinjective, hmeaning.neverFalls hrenders.functions h.allReturn⟩

/-- A loop around a choice: `while x > 0 and True: x = 1 if True else 3 // x`. -/
def guardedLoop : Program :=
  let x : Expr := .name "x" .int
  { decls := [.var ⟨"x", .int, .int 3⟩]
    stmts := [.whileLoop (.binary .and (.binary .gt x (.ofInt 0) .bool) (.ofBool true) .bool) [
      .assign ⟨x, [], .ifExpr (.ofBool true) (.ofInt 1) (.binary .floorDiv (.ofInt 3) x .int) .int⟩]] }

theorem flattening_guardedLoop :
    ∃ m k m', ({} : Options).Checkpoint guardedLoop .optimization m ∧ Edit.flatten m = .ok k m' ∧
      ∃ c c' θ, m.Models c .nil ∧ m'.Models c' .nil ∧
        (∀ u ∈ c.resultsOf Kind.isAlloc, ∀ v ∈ c.resultsOf Kind.isAlloc, θ u = θ v → u = v) ∧
        c.Functionwise (fun args body is => IR.SameMeaning (c.resultsOf Kind.isAlloc) θ args body is ∧
          body.NeverFalls) c' := by
  have hok : (({} : Options).compile guardedLoop).isOk := by decide +kernel
  cases hr : ({} : Options).compile guardedLoop with
  | error e =>
    rw [hr] at hok
    cases hok
  | ok r =>
    obtain ⟨m', h, -⟩ := exists_checkpoint_of_compile hr
    cases h with
    | @flattening m _ k h hrun => exact ⟨m, k, m', h, hrun, flattening_preserves_meaning h hrun⟩

end Options

end Choco
