import Choco.Proofs.ModuleRuns

namespace Choco.IR

variable {c d : Code} {v : ValueId} {exit : Exit} {x : Content} {host : Host}

section Sparing

variable {K : List ValueId} {host : Host} {w w' : World} {xs : List Content}

def Sparing (K : List ValueId) (f : World → Exit × World) : Prop := ∀ w, ∀ v ∉ K, (f w).2.cells v = w.cells v

theorem World.cells_fill (address : Int32) (index : Nat) (values : List Int32) (w : World) :
    (w.fill address index values).cells = w.cells := by
  induction values generalizing index w with
  | nil => rfl
  | cons value values ih => exact ih (index + 1) _

theorem Host.cells_store {c : Content} (hc : c.Within K) (offset value : Int32) (hv : v ∉ K) :
    (host.store w c offset value).cells v = w.cells v := by
  cases c with
  | word a => rfl
  | cell u =>
    rw [Host.store]
    split
    · exact Function.update_of_ne (fun he : v = u => hv (he ▸ hc u rfl)) _ _
    · rfl

theorem Host.sparing_object (values : List Int32) : Sparing K (host.object values) := fun w v _ => by
  rw [Host.object, World.cells_fill]
  rfl

theorem Host.sparing_perform (kind : Kind) (result : Option ValueId) (hxs : ∀ x ∈ xs, x.Within K) :
    Sparing K (host.perform kind xs result) := by
  have hsame {exit : World → Exit} : Sparing K fun w => (exit w, w) := fun _ _ _ => rfl
  have hlength (x : Content) : Sparing K (host.length x) := fun w v _ => by
    rw [Host.length]
    split <;> rfl
  have helement (x : Content) (i : Int32) : Sparing K (host.element x i) := fun w v _ => by
    rw [Host.element]
    split
    · rfl
    · split <;> rfl
  unfold Host.perform
  split
  · exact Host.sparing_object _
  · exact hsame
  · exact hsame
  · split <;> exact hsame
  · exact hsame
  · next x locations =>
      rw [List.forall_mem_cons] at hxs
      intro w v hv
      have hlocations := hxs.2
      clear hxs
      induction locations generalizing w with
      | nil => rfl
      | cons l locations ih =>
        rw [List.forall_mem_cons] at hlocations
        exact (ih _ hlocations.2).trans (Host.cells_store hlocations.1 0 _ hv)
  · exact hsame
  · exact hsame
  · exact fun w v hv => Host.cells_store (hxs _ List.mem_cons_self) 0 _ hv
  · split
    · exact hlength _
    · exact fun _ _ _ => rfl
  · exact Host.sparing_object _
  · exact helement _ _
  · exact helement _ _
  · exact hsame

theorem Host.steady_item (ty : Option ValueType) (x : Content) (i : Nat) : Steady K (host.item ty x i) := by
  intro w w' hw
  rw [Host.item, Host.item, hw.memory]
  split
  · exact Host.steady_object _ w w' hw
  · exact ⟨rfl, hw⟩

theorem Host.sparing_item (ty : Option ValueType) (x : Content) (i : Nat) : Sparing K (host.item ty x i) := by
  intro w v hv
  rw [Host.item]
  split
  · exact Host.sparing_object _ w v hv
  · rfl

/-- Calls do the same to worlds that are alike, and change no storage that is not in `K`. -/
structure Callees.Alike (K : List ValueId) (callees callees' : Callees) : Prop where
  same : ∀ label args w w', w.Alike K id w' → (callees' label args w').1 = (callees label args w).1 ∧
    (callees label args w).2.Alike K id (callees' label args w').2
  sparing : ∀ label args, Sparing K (callees' label args)

theorem Platform.routine_alike (platform : Platform) : Callees.Alike K platform.routine platform.routine where
  same label args w w' hw := by
    rw [routine, routine, hw.calls_eq, hw.memory]
    have hnote := hw.note_call label args
    exact ⟨rfl, rfl, hnote.cells, hnote.log⟩
  sparing _ _ _ _ _ := rfl

theorem Exit.within_returned (h : exit.returned = .next (some x)) : x.Within K := by
  cases exit with
  | next value | ret value =>
    cases h
    exact Content.within_word K _
  | trap fault | timeout => cases h

theorem Exit.within_negated (h : exit.negated host = .next (some x)) : x.Within K := by
  cases exit with
  | next value =>
    obtain ⟨y, -, rfl⟩ := Option.map_eq_some_iff.mp (Exit.next.inj h)
    exact Content.within_word K _
  | ret value | trap fault | timeout => cases h

section Act

variable {platform : Platform} {types : Types} {callees callees' : Callees} {n : Node}

theorem Platform.act_alike (hcallees : callees.Alike K callees') (hxs : ∀ x ∈ xs, x.Within K)
    (hw : w.Alike K id w') :
    (platform.act types callees' n xs w').1 = (platform.act types callees n xs w).1 ∧
      (platform.act types callees n xs w).2.Alike K id (platform.act types callees' n xs w').2 := by
  have hroutine (label : String) (f : Exit → Exit) :=
    ((platform.routine_alike).same label (xs.map platform.word) w w' hw).imp_left (congrArg f)
  have hdirect : (platform.direct callees' n xs w').1 = (platform.direct callees n xs w).1 ∧
      (platform.direct callees n xs w).2.Alike K id (platform.direct callees' n xs w').2 := by
    unfold direct
    cases n.kind.callee? with
    | some func => exact (hcallees.same func (xs.map platform.word) w w' hw).imp_left (congrArg Exit.returned)
    | none => exact platform.steady_perform _ _ hxs w w' hw
  unfold act
  split
  next label _ => exact hroutine label Exit.returned
  next label _ => exact hroutine label fun exit => exit.returned.negated platform.toHost
  next => exact hdirect
  next => exact hdirect

theorem Platform.sparing_act (hcallees : callees.Alike K callees') (hxs : ∀ x ∈ xs, x.Within K) :
    Sparing K (platform.act types callees' n xs) := by
  have hdirect : Sparing K (platform.direct callees' n xs) := by
    unfold direct
    cases n.kind.callee? with
    | some func => exact hcallees.sparing func (xs.map platform.word)
    | none => exact platform.sparing_perform _ _ hxs
  intro w v hv
  unfold act
  split
  next label _ => exact platform.routine_alike.sparing label _ w v hv
  next label _ => exact platform.routine_alike.sparing label _ w v hv
  next => exact hdirect w v hv
  next => exact hdirect w v hv

theorem Platform.keeping_act (hallocs : n.kind.isAlloc → ∀ v ∈ n.results, v ∈ K) :
    Keeping K (platform.act types callees n xs) := by
  have hdirect : Keeping K (platform.direct callees n xs) := by
    unfold direct
    cases n.kind.callee? with
    | some func => exact fun _ _ h => Exit.within_returned h
    | none => exact Host.keeping_perform (by simpa [Node.results] using hallocs)
  intro w x h
  unfold act at h
  split at h
  next => exact Exit.within_returned h
  next => exact Exit.within_negated h
  next => exact hdirect w x h
  next => exact hdirect w x h

end Act

end Sparing

theorem Code.results_subset (h : c.nodes ⊆ d.nodes) : c.results ⊆ d.results := fun v hv => by
  obtain ⟨n, hn, hv⟩ := List.mem_flatMap.mp hv
  exact List.mem_flatMap.mpr ⟨n, h hn, hv⟩

theorem Code.results_leaf_some (id : OpId) (kind : Kind) (xs : List ValueId) (d : Def) (rest : Code) :
    (leaf ⟨id, kind, xs, some d⟩ rest).results = d.value :: rest.results := rfl

theorem Code.results_leaf_none (id : OpId) (kind : Kind) (xs : List ValueId) (rest : Code) :
    (leaf ⟨id, kind, xs, none⟩ rest).results = rest.results := rfl

theorem Code.resultsOf_mono {p : Kind → Bool} (h : c.nodes ⊆ d.nodes) : c.resultsOf p ⊆ d.resultsOf p :=
  fun v hv => by
  obtain ⟨n, hn, hv⟩ := (mem_resultsOf p).mp hv
  exact (mem_resultsOf p).mpr ⟨n, h hn, hv⟩

/-- The second of two runs ends as the first. The states agree again; of the second one only what the code
defines has changed, and storage that the code makes or that is in `K`. -/
structure Tracks (K : List ValueId) (V : ValueId → Prop) (c : Code) (s' : State) (r r' : Exit × State) :
    Prop where
  exit : r'.1 = r.1
  agree : Agree K V r.2 r'.2
  within : ∀ x, r.1 = .next (some x) → x.Within K
  values : ∀ v ∉ c.results, r'.2.values v = s'.values v
  cells : ∀ v ∉ K, v ∉ c.resultsOf Kind.isAlloc → r'.2.world.cells v = s'.world.cells v

def Imitates (K : List ValueId) (V : ValueId → Prop) (c : Code) (f f' : State → Exit × State) : Prop :=
  ∀ s s', Agree K V s s' → Tracks K V c s' (f s) (f' s')

section Tracks

variable {K : List ValueId} {V : ValueId → Prop} {c d : Code} {s s' t t' : State} {r r' : Exit × State}
  {f f' : State → Exit × State}

namespace Tracks

variable {k k' : Option Content → State → Exit × State}

theorem mono (h : Tracks K V c s' r r') (hnodes : c.nodes ⊆ d.nodes) : Tracks K V d s' r r' :=
  ⟨h.exit, h.agree, h.within, fun v hv => h.values v fun hin => hv (Code.results_subset hnodes hin),
    fun v hK hv => h.cells v hK fun hin => hv (Code.resultsOf_mono hnodes hin)⟩

theorem stay (h : Agree K V s s') (hexit : ∀ x, exit = .next (some x) → x.Within K) :
    Tracks K V c s' (exit, s) (exit, s') := ⟨rfl, h, hexit, fun _ _ => rfl, fun _ _ _ => rfl⟩

theorem begin (hvalues : ∀ v ∉ c.results, t'.values v = s'.values v)
    (hcells : ∀ v ∉ K, v ∉ c.resultsOf Kind.isAlloc → t'.world.cells v = s'.world.cells v)
    (h : Tracks K V c t' r r') :
    Tracks K V c s' r r' :=
  ⟨h.exit, h.agree, h.within, fun v hv => (h.values v hv).trans (hvalues v hv),
    fun v hK hv => (h.cells v hK hv).trans (hcells v hK hv)⟩

theorem andThen_of_subset (h : Tracks K V c s' r r') (hnodes : c.nodes ⊆ d.nodes)
    (hk : ∀ value t t', Tracks K V c s' (.next value, t) (.next value, t') →
      Tracks K V d t' (k value t) (k' value t')) :
    Tracks K V d s' (andThen r k) (andThen r' k') := by
  obtain ⟨exit, t⟩ := r
  obtain ⟨exit', t'⟩ := r'
  obtain rfl : exit' = exit := h.exit
  have hd := h.mono hnodes
  cases exit' with
  | next value => exact (hk value t t' h).begin hd.values hd.cells
  | ret | trap | timeout => exact hd

theorem andThen (h : Tracks K V c s' r r')
    (hk : ∀ value t t', Tracks K V c s' (.next value, t) (.next value, t') →
      Tracks K V c t' (k value t) (k' value t')) :
    Tracks K V c s' (andThen r k) (andThen r' k') := h.andThen_of_subset (List.Subset.refl _) hk

end Tracks

theorem Imitates.mono (h : Imitates K V c f f') (hnodes : c.nodes ⊆ d.nodes) : Imitates K V d f f' :=
  fun s s' hagree => (h s s' hagree).mono hnodes

theorem Agree.define_both (h : Agree K V t t') (name : Option ValueId) {value : Option Content}
    (hvalue : ∀ x ∈ value, x.Within K) :
    Agree K V (t.define name value) (t'.define name value) := by
  rcases name with _ | u
  · exact h
  rcases value with _ | x
  · exact h
  refine ⟨fun v hv => ?_, fun v hv => ?_, by simpa using h.world⟩
  · simp only [State.values_define]
    split
    · rfl
    · exact h.values v hv
  · simp only [State.values_define]
    split
    · exact hvalue x rfl
    · exact h.within v hv

section Nodes

variable {platform : Platform} {types : Types} {callees callees' : Callees} {fuel : Nat} {n : Node}
  {first first' second second' : Code} {g g' : State → Exit × State}

theorem Tracks.act (hcallees : callees.Alike K callees') (hoperands : ∀ x ∈ n.operands, V x)
    (hallocs : n.kind.isAlloc → ∀ v ∈ n.results, v ∈ K) (h : Agree K V s s') :
    Tracks K V c s' (s.after (platform.act types callees n (n.operands.map s.values) s.world))
      (s'.after (platform.act types callees' n (n.operands.map s'.values) s'.world)) := by
  have hvalues : n.operands.map s'.values = n.operands.map s.values :=
    List.map_congr_left fun x hx => h.values x (hoperands x hx)
  have hwithin : ∀ x ∈ n.operands.map s.values, x.Within K := by
    rw [List.forall_mem_map]
    exact fun x hx => h.within x (hoperands x hx)
  rw [hvalues]
  refine ⟨(platform.act_alike hcallees hwithin h.world).1,
    ⟨h.values, h.within, (platform.act_alike hcallees hwithin h.world).2⟩,
    ?_, fun _ _ => rfl, ?_⟩
  · exact platform.keeping_act hallocs s.world
  · exact fun v hv _ => platform.sparing_act hcallees hwithin s'.world v hv

theorem Imitates.node (hnode : Imitates K V c g g') (hrest : Imitates K V c f f')
    (hresults : ∀ v ∈ n.results, v ∈ c.results) :
    Imitates K V c (fun s => andThen (g s) fun value t => f (t.define (n.result.map Def.value) value))
      fun s => andThen (g' s) fun value t => f' (t.define (n.result.map Def.value) value) := by
  intro s s' h
  refine (hnode s s' h).andThen fun value t t' ht => ?_
  have hwithin : ∀ x ∈ value, x.Within K := fun x hx => ht.within x (congrArg Exit.next hx)
  have hdefined := ht.agree.define_both (n.result.map Def.value) hwithin
  refine (hrest _ _ hdefined).begin (fun v hv => State.values_define_frame fun hin => hv (hresults v ?_))
    fun v _ _ => ?_
  · simpa [Node.results] using hin
  · rw [State.world_define]

theorem Host.iterate_imitates (htest : Imitates K V c f f') (hbody : Imitates K V c g g') (rounds : Nat) :
    Imitates K V c (host.iterate f g rounds) (host.iterate f' g' rounds) := by
  induction rounds with
  | zero => exact fun s s' h => .stay h (by simp)
  | succ rounds ih =>
    intro s s' h
    refine (htest s s' h).andThen fun value t t' ht => ?_
    split
    · exact .stay ht.agree (by simp)
    · exact (hbody t t' ht.agree).andThen fun _ u u' hu => ih u u' hu.agree

theorem Host.select_imitates {a b : Bool} (hn : n.Forks a b) (hoperands : ∀ x ∈ n.operands, V x)
    (hfirst : Imitates K V c f f') (hsecond : Imitates K V c g g') :
    Imitates K V c (host.select fuel n f g) (host.select fuel n f' g') := by
  intro s s' h
  cases hn with
  | shortCircuit id op r hop =>
    refine (hfirst s s' h).andThen fun value t t' ht => ?_
    split
    · exact .stay ht.agree ht.within
    · exact hsecond t t' ht.agree
  | ifExpr id x r =>
    have hx := h.values x (hoperands x List.mem_cons_self)
    simp only [Host.select, hx]
    split
    · exact hsecond s s' h
    · exact hfirst s s' h
  | ifElse id x =>
    have hx := h.values x (hoperands x List.mem_cons_self)
    simp only [Host.select, hx]
    split
    · exact hsecond s s' h
    · exact hfirst s s' h
  | whileLoop id => exact Host.iterate_imitates hfirst hsecond fuel s s' h

end Nodes

end Tracks

section Loops

variable {platform : Platform} {types : Types} {callees : Callees} {fuel i : Nat} {n : Node} {c : Code}
  {s : State} {sequence target index : ValueId} {ty : Ty}

/-- Operations that are neither uses of the library nor calls, whose work depends on their kind alone. -/
def Kind.isDirect (types : Types) (kind : Kind) (operands : List ValueId) : Prop :=
  kind ≠ .yield ∧ kind.callee? = none ∧ LibraryUse.ofOp kind (operands.map types.operand) = .ok .keep

theorem Platform.act_direct (hn : n.kind.isDirect types n.operands) (xs : List Content) (w : World) :
    platform.act types callees n xs w = platform.perform n.kind xs (n.result.map Def.value) w := by
  rw [act, Node.libraryUse, hn.2.2]
  simp only [direct, hn.2.1]

theorem Platform.run_direct {rest : Code} (value : Option Content) (w : World)
    (hn : n.kind.isDirect types n.operands)
    (h : platform.perform n.kind (n.operands.map s.values) (n.result.map Def.value) s.world =
      (.next value, w)) :
    platform.run types callees fuel (.leaf n rest) s =
      platform.run types callees fuel rest
        (State.define { s with world := w } (n.result.map Def.value) value) := by
  exact run_leaf_next hn.1 ((act_direct hn _ _).trans h)

theorem Host.element_eq {w : World} (hx : host.word x ≠ 0) {j : Int32} (hlow : ¬ j < 0)
    (hhigh : j < host.load w x 0) :
    host.element x j w = (.next (some (.word (host.word x + 4 + 4 * j))), w) := by
  rw [Host.element, if_neg hx, if_neg]
  rintro (hneg | hle)
  · exact hlow hneg
  · exact absurd (Int32.lt_of_lt_of_le hhigh hle) Int32.lt_irrefl

variable (platform types callees fuel)

theorem ElementCode.run_eq {current item : ValueId} (h : ElementCode ty sequence current c item)
    (hty : types sequence = some (.plain ty)) (hx : platform.word (s.values sequence) ≠ 0)
    (hcurrent : s.values current = .word (Int32.ofNat i)) (hlow : ¬ Int32.ofNat i < 0)
    (hhigh : Int32.ofNat i < platform.load s.world (s.values sequence) 0) :
    ∃ t, platform.run types callees fuel c s = (.next none, t) ∧ (∀ v ∉ c.results, t.values v = s.values v) ∧
      platform.item (types sequence) (s.values sequence) i s.world =
        (.next (some (t.values item)), t.world) := by
  have helement := Host.element_eq hx hlow hhigh
  generalize haddress : platform.word (s.values sequence) + 4 + 4 * Int32.ofNat i = address at helement
  unfold ElementCode at h
  split at h
  next =>
    obtain ⟨u, code, id₁, id₂, id₃, rfl⟩ := h
    let t := (s.define (some u) (some (.word address))).define (some code)
      (some (.word (s.world.memory address)))
    have hobject : ∃ value w, platform.object [s.world.memory address] s.world = (.next (some value), w) :=
      ⟨_, _, rfl⟩
    obtain ⟨value, w, hobject⟩ := hobject
    refine ⟨State.define { t with world := w } (some item) (some value), ?_, fun v hv => ?_, ?_⟩
    · rw [Platform.run_direct (some (.word address)) s.world ⟨by simp, rfl, rfl⟩
          (by simpa [Host.perform, hcurrent, Host.word] using helement),
        Platform.run_direct (some (.word (s.world.memory address))) s.world ⟨by simp, rfl, rfl⟩
          (by simp [Host.perform, Host.load]),
        Platform.run_direct (some value) w ⟨by simp, rfl, rfl⟩
        (by simpa [Host.perform, Host.word] using hobject)]
      rfl
    · simp only [Code.results_leaf_some, Code.results_nil, List.mem_cons, not_or] at hv
      simp [t, hv]
    · simp [Host.item, hty, haddress, hobject]
  next elem =>
    obtain ⟨u, id₁, id₂, rfl⟩ := h
    refine ⟨(s.define (some u) (some (.word address))).define (some item)
      (some (.word (s.world.memory address))), ?_, fun v hv => ?_, ?_⟩
    · rw [Platform.run_direct (some (.word address)) s.world ⟨by simp, rfl, rfl⟩
          (by simpa [Host.perform, hcurrent, Host.word] using helement),
        Platform.run_direct (some (.word (s.world.memory address))) s.world ⟨by simp, rfl, rfl⟩
          (by simp [Host.perform, Host.load])]
      rfl
    · simp only [Code.results_leaf_some, Code.results_nil, List.mem_cons, not_or] at hv
      simp [hv]
    · simp [Host.item, hty, haddress]
  next => cases h

theorem TestCode.run_eq (h : TestCode sequence index c) (hnodup : (index :: c.results).Nodup)
    (hindex : s.values index = .cell index) :
    (platform.word (s.values sequence) = 0 → platform.run types callees fuel c s = (.trap .lenOfNone, s)) ∧
      (platform.word (s.values sequence) ≠ 0 → ∃ t, t.world = s.world ∧
        (∀ v ∉ c.results, t.values v = s.values v) ∧
        platform.run types callees fuel c s =
          (.next
            (some (.word (Word.ofBool (s.world.cells index < platform.load s.world (s.values sequence) 0)))),
              t)) := by
  obtain ⟨length, current, less, id₁, id₂, id₃, id₄, rfl⟩ := h
  simp only [Code.results_leaf_some, Code.results_leaf_none, Code.results_nil, List.nodup_cons, List.mem_cons,
    List.not_mem_nil, not_or] at hnodup
  obtain ⟨⟨hlength, hcurrent, -⟩, ⟨hne, -⟩, -⟩ := hnodup
  have hperform : platform.perform (.call "len") [s.values sequence] (some length) =
      platform.length (s.values sequence) := rfl
  refine ⟨fun hx => ?_, fun hx => ?_⟩
  · rw [Platform.run_leaf (by simp), Platform.act_direct ⟨by simp, rfl, rfl⟩]
    simp only [List.map_cons, List.map_nil, Option.map_some, hperform, Host.length, if_pos hx]
    rfl
  · let l := platform.load s.world (s.values sequence) 0
    let t := ((s.define (some length) (some (.word l))).define (some current)
      (some (.word (s.world.cells index)))).define (some less)
      (some (.word (Word.ofBool (s.world.cells index < l))))
    refine ⟨t, by simp [t], fun v hv => ?_, ?_⟩
    · simp only [Code.results_leaf_some, Code.results_leaf_none, Code.results_nil, List.mem_cons, not_or]
        at hv
      simp [t, hv]
    · rw [Platform.run_direct (some (.word l)) s.world ⟨by simp, rfl, rfl⟩
          (by simpa [Host.length, hx] using congrFun hperform s.world),
        Platform.run_direct (some (.word (s.world.cells index))) s.world ⟨by simp, rfl, rfl⟩
          (by simp [Host.perform, Host.load, hindex, hlength]),
        Platform.run_direct (some (.word (Word.ofBool (s.world.cells index < l)))) s.world ⟨by simp, rfl, rfl⟩
          (by simp [Host.perform, Host.word, BinaryOp.word?, hne]; rfl),
        Platform.run, if_pos rfl]
      simp only [List.head?_cons, Option.map_some, State.values_define, if_true, Host.word]
      rfl

theorem HeadCode.shaped (h : HeadCode ty sequence target index c) : c.Shaped false := by
  obtain ⟨current, item, id₁, id₂, c₁, helement, rfl⟩ := h
  exact .leaf (.load id₁ _ _) (helement.shaped.append (.leaf (.store id₂ _ _) .nil))

theorem HeadCode.run_eq (h : HeadCode ty sequence target index c) (hty : types sequence = some (.plain ty))
    (hsequence : sequence ∉ c.results) (htarget : target ∉ c.results)
    (hx : platform.word (s.values sequence) ≠ 0) (hindex : s.values index = .cell index)
    (hcell : s.world.cells index = Int32.ofNat i) (hlow : ¬ Int32.ofNat i < 0)
    (hhigh : Int32.ofNat i < platform.load s.world (s.values sequence) 0) :
    ∃ item w t, platform.item (types sequence) (s.values sequence) i s.world = (.next (some item), w) ∧
      platform.run types callees fuel c s = (.next none, t) ∧ (∀ v ∉ c.results, t.values v = s.values v) ∧
      t.world = platform.store w (s.values target) 0 (platform.word item) := by
  obtain ⟨current, item, id₁, id₂, c₁, helement, rfl⟩ := h
  simp only [Code.results_leaf_some, Code.results_leaf_none, Code.results_append, Code.results_nil,
    List.append_nil, List.mem_cons, not_or] at hsequence htarget ⊢
  let s₁ := s.define (some current) (some (.word (Int32.ofNat i)))
  have hvalue (v : ValueId) (hv : v ≠ current) : s₁.values v = s.values v := State.values_define_of_ne hv
  have hhigh' : Int32.ofNat i < platform.load s₁.world (s₁.values sequence) 0 := by
    rw [hvalue _ hsequence.1]
    exact hhigh
  have hx' : platform.word (s₁.values sequence) ≠ 0 := by rwa [hvalue _ hsequence.1]
  have hcurrent : s₁.values current = .word (Int32.ofNat i) := by simp [s₁]
  obtain ⟨t, hrun, hframe, hitem⟩ := helement.run_eq platform types callees fuel hty hx' hcurrent hlow hhigh'
  have hvalues (v : ValueId) (hv : ¬ v = current ∧ v ∉ c₁.results) : t.values v = s.values v :=
    (hframe v hv.2).trans (hvalue v hv.1)
  refine ⟨t.values item, t.world,
    { t with world := platform.store t.world (s.values target) 0 (platform.word (t.values item)) }, ?_,
    ?_, fun v hv => ?_, rfl⟩
  · rw [hvalue _ hsequence.1] at hitem
    simpa [s₁] using hitem
  · rw [Platform.run_direct (some (.word (Int32.ofNat i))) s.world ⟨by simp, rfl, rfl⟩
      (by simp [Host.perform, Host.load, hindex, hcell])]
    change platform.run types callees fuel (c₁ ++ _) s₁ = _
    rw [Platform.run_append helement.shaped, hrun, andThen,
      Platform.run_direct none (platform.store t.world (s.values target) 0 (platform.word (t.values item)))
        ⟨by simp, rfl, rfl⟩ (by simp [Host.perform, hvalues target htarget])]
    rfl
  · exact hvalues v hv

theorem TailCode.run_eq (h : TailCode index c)
    (htyped : ∀ n ∈ c.nodes, ∀ d ∈ n.result, types d.value = some d.ty)
    (hnodup : (index :: c.results).Nodup) (hindex : s.values index = .cell index) :
    ∃ t, platform.run types callees fuel c s = (.next none, t) ∧ (∀ v ∉ c.results, t.values v = s.values v) ∧
      t.world = s.world.assign index (s.world.cells index + 1) := by
  obtain ⟨current, one, next, id₁, id₂, id₃, id₄, rfl⟩ := h
  have hint : types current = some (.plain .int) := htyped _ List.mem_cons_self _ rfl
  have hkeep : LibraryUse.ofOp (.binary .add) ([current, one].map types.operand) = .ok .keep := by
    simp [LibraryUse.ofOp, Types.operand, hint, ValueType.source?, Ty.isSequence]
  simp only [Code.results_leaf_some, Code.results_leaf_none, Code.results_nil, List.nodup_cons, List.mem_cons,
    List.not_mem_nil, not_or] at hnodup
  obtain ⟨⟨hcurrent, hone, hnext, -⟩, ⟨hne, -⟩, -⟩ := hnodup
  let k := s.world.cells index
  let t := ((s.define (some current) (some (.word k))).define (some one) (some (.word 1))).define (some next)
    (some (.word (k + 1)))
  refine ⟨{ t with world := s.world.assign index (k + 1) }, ?_, fun v hv => ?_, rfl⟩
  · rw [Platform.run_direct (some (.word k)) s.world ⟨by simp, rfl, rfl⟩
      (by simp [Host.perform, Host.load, hindex, k]), Platform.run_direct (some (.word 1)) s.world
      ⟨by simp, rfl, rfl⟩ rfl, Platform.run_direct (some (.word (k + 1))) s.world ⟨by simp, rfl, hkeep⟩
        (by simp [Host.perform, Host.word, BinaryOp.word?, hne]),
      Platform.run_direct none (s.world.assign index (k + 1)) ⟨by simp, rfl, rfl⟩
        (by simp [Host.perform, Host.store, Host.word, hindex, hcurrent, hone, hnext])]
    rfl
  · simp only [Code.results_leaf_some, Code.results_leaf_none, Code.results_nil, List.mem_cons, not_or] at hv
    simp [t, hv]

end Loops

section Turns

variable {platform : Platform} {types : Types} {callees callees' : Callees} {fuel i : Nat} {K : List ValueId}
  {V : ValueId → Prop} {sequence target index : ValueId} {body body' test head tail d : Code} {x y : Content}
  {s s' : State} {t' : State}

/-- The parts of the loop that takes the place of a loop through a sequence. What they define is new and known
to nobody else. -/
structure LoopParts (types : Types) (K : List ValueId) (V : ValueId → Prop) (sequence target index : ValueId)
    (body test head tail : Code) : Prop where
  testCode : TestCode sequence index test
  headCode : ∃ ty, types sequence = some (.plain ty) ∧ HeadCode ty sequence target index head
  tailCode : TailCode index tail
  typed : ∀ n ∈ tail.nodes, ∀ d ∈ n.result, types d.value = some d.ty
  shaped : body.Shaped false
  testNames : (index :: test.results).Nodup
  tailNames : (index :: tail.results).Nodup
  own : index ∉ head.results ∧ index ∉ body.results
  hidden : index ∉ K
  fresh : ∀ v, V v → v ∉ test.results ∧ v ∉ head.results ∧ v ∉ tail.results
  kept : ∀ v, v = sequence ∨ v = target → V v ∧ v ∉ body.results

/-- What is known before turn number `i`: the second run has the number in the storage of its index. -/
structure BeforeTurn (K : List ValueId) (V : ValueId → Prop) (sequence target index : ValueId)
    (x y : Content) (i : Nat) (s s' : State) : Prop where
  agree : Agree K V s s'
  storage : s'.values index = .cell index
  count : s'.world.cells index = Int32.ofNat i
  bound : i < 2 ^ 31
  object : s'.values sequence = x
  location : s'.values target = y

theorem lt_length_iff (hi : i < 2 ^ 31) (l : Int32) : Int32.ofNat i < l ↔ (i : Int) < l.toInt := by
  rw [Int32.lt_iff_toInt_lt, Int32.toInt_ofNat_of_lt hi]

theorem not_ofNat_neg (hi : i < 2 ^ 31) : ¬ Int32.ofNat i < 0 := by
  rw [lt_length_iff hi]
  exact Int.not_lt.mpr (Int.natCast_nonneg i)

theorem Agree.frame (h : Agree K V s s') (hc : ∀ v ∈ c.results, ¬ V v)
    (hvalues : ∀ v ∉ c.results, t'.values v = s'.values v) (hworld : s.world.Alike K id t'.world) :
    Agree K V s t' :=
  h.change (fun v hv => hvalues v fun hin => hc v hin hv) hworld

theorem ofNat_add_one (i : Nat) : Int32.ofNat i + 1 = Int32.ofNat (i + 1) := by
  rw [Int32.ofNat_add]
  rfl

/-- What is known before a turn is known as long as the names of the loop keep their values and the index its
storage. -/
theorem BeforeTurn.move {t : State} (h : BeforeTurn K V sequence target index x y i s s')
    (hagree : Agree K V t t') (hvalues : ∀ v, v = index ∨ v = sequence ∨ v = target →
      t'.values v = s'.values v)
    (hcell : t'.world.cells index = s'.world.cells index) :
    BeforeTurn K V sequence target index x y i t t' where
  agree := hagree
  storage := (hvalues index (.inl rfl)).trans h.storage
  count := hcell.trans h.count
  bound := h.bound
  object := (hvalues sequence (.inr (.inl rfl))).trans h.object
  location := (hvalues target (.inr (.inr rfl))).trans h.location

namespace LoopParts

theorem within (h : LoopParts types K V sequence target index body' test head tail)
    (hs : BeforeTurn K V sequence target index x y i s s') : x.Within K ∧ y.Within K := by
  have hknown {v : ValueId} (hv : V v) : (s'.values v).Within K := hs.agree.values v hv ▸ hs.agree.within v hv
  exact ⟨hs.object ▸ hknown (h.kept sequence (.inl rfl)).1, hs.location ▸ hknown (h.kept target (.inr rfl)).1⟩

theorem names (h : LoopParts types K V sequence target index body' test head tail)
    (hv : v = index ∨ v = sequence ∨ v = target) :
    v ∉ test.results ∧ v ∉ head.results ∧ v ∉ body'.results ∧ v ∉ tail.results := by
  rcases hv with rfl | hv
  · exact ⟨(List.nodup_cons.mp h.testNames).1, h.own.1, h.own.2, (List.nodup_cons.mp h.tailNames).1⟩
  · obtain ⟨hV, hbody⟩ := h.kept v hv
    obtain ⟨htest, hhead, htail⟩ := h.fresh v hV
    exact ⟨htest, hhead, hbody, htail⟩

theorem head_runs (h : LoopParts types K V sequence target index body' test head tail)
    (hs : BeforeTurn K V sequence target index x y i s s') (hx : platform.word x ≠ 0)
    (hi : Int32.ofNat i < platform.load s'.world x 0) (callees' : Callees) (fuel : Nat)
    (run : State → Exit × State) :
    ∃ t t', platform.turn (types sequence) x y run i s = run t ∧
      platform.run types callees' fuel head s' = (.next none, t') ∧
      BeforeTurn K V sequence target index x y i t t' ∧ (∀ v ∉ head.results, t'.values v = s'.values v) ∧
      ∀ v ∉ K, t'.world.cells v = s'.world.cells v := by
  obtain ⟨ty, hty, hhead⟩ := h.headCode
  have hy := (h.within hs).2
  obtain ⟨item, w', t', hitem', hrun, hframe, hworld⟩ := hhead.run_eq platform types callees' fuel hty
    (h.names (.inr (.inl rfl))).2.1 (h.names (.inr (.inr rfl))).2.1 (by rwa [hs.object])
    hs.storage hs.count (not_ofNat_neg hs.bound) (by rwa [hs.object])
  rw [hs.object] at hitem'
  rw [hs.location] at hworld
  obtain ⟨hexit, halike⟩ := platform.steady_item (types sequence) x i s.world s'.world hs.agree.world
  have hsparing : ∀ v ∉ K, _ := platform.sparing_item (types sequence) x i s'.world
  rw [hitem'] at hexit halike hsparing
  have hcells (v : ValueId) (hv : v ∉ K) : t'.world.cells v = s'.world.cells v := by
    rw [hworld, Host.cells_store hy 0 _ hv]
    exact hsparing v hv
  let t : State :=
    { s with world := platform.store (platform.item (types sequence) x i s.world).2 y 0 (platform.word item) }
  refine ⟨t, t', ?_, hrun, ?_, hframe, hcells⟩
  · have hitem : platform.item (types sequence) x i s.world =
        (.next (some item), (platform.item (types sequence) x i s.world).2) :=
      Prod.ext hexit.symm rfl
    rw [Host.turn, hitem]
    rfl
  · refine hs.move ⟨fun v hv => ?_, hs.agree.within, ?_⟩ (fun v hv => hframe v (h.names hv).2.1)
      (hcells index h.hidden)
    · exact (hframe v (h.fresh v hv).2.1).trans (hs.agree.values v hv)
    · rw [hworld]
      exact Host.store_alike halike hy 0 _

theorem tail_runs (h : LoopParts types K V sequence target index body' test head tail)
    (hs : BeforeTurn K V sequence target index x y i s s') (hi : i + 1 < 2 ^ 31) (callees' : Callees)
    (fuel : Nat) :
    ∃ t', platform.run types callees' fuel tail s' = (.next none, t') ∧
      BeforeTurn K V sequence target index x y (i + 1) s t' ∧
      (∀ v ∉ tail.results, t'.values v = s'.values v) ∧ ∀ v, v ≠ index →
        t'.world.cells v = s'.world.cells v := by
  obtain ⟨t', hrun, hframe, hworld⟩ :=
    h.tailCode.run_eq platform types callees' fuel h.typed h.tailNames hs.storage
  rw [hs.count, ofNat_add_one] at hworld
  have hvalues (v : ValueId) (hv : v = index ∨ v = sequence ∨ v = target) : t'.values v = s'.values v :=
    hframe v (h.names hv).2.2.2
  refine ⟨t', hrun, ⟨hs.agree.frame (fun v hin hv => (h.fresh v hv).2.2 hin) hframe ?_, ?_, ?_, hi, ?_, ?_⟩,
    hframe, fun v hv => ?_⟩
  · rw [hworld]
    exact hs.agree.world.assign_hidden h.hidden _
  · exact (hvalues index (.inl rfl)).trans hs.storage
  · rw [hworld]
    exact Function.update_self ..
  · exact (hvalues sequence (.inr (.inl rfl))).trans hs.object
  · exact (hvalues target (.inr (.inr rfl))).trans hs.location
  · rw [hworld]
    exact Function.update_of_ne hv _ _

theorem turn_tracks (h : LoopParts types K V sequence target index body' test head tail)
    (hbody : Imitates K V body' (platform.run types callees fuel body)
      (platform.run types callees' fuel body'))
    (hnodes : (head ++ (body' ++ tail)).nodes ⊆ d.nodes) (hindex : index ∈ d.resultsOf Kind.isAlloc)
    (hs : BeforeTurn K V sequence target index x y i s s') (hx : platform.word x ≠ 0)
    (hi : Int32.ofNat i < platform.load s'.world x 0) {k k' : State → Exit × State}
    (hk : ∀ t t', BeforeTurn K V sequence target index x y (i + 1) t t' → Tracks K V d t' (k t) (k' t')) :
    Tracks K V d s'
      (andThen (platform.turn (types sequence) x y (platform.run types callees fuel body) i s) fun _ t => k t)
      (andThen (platform.run types callees' fuel (head ++ (body' ++ tail)) s') fun _ t => k' t) := by
  simp only [Code.nodes_append, List.append_subset] at hnodes
  obtain ⟨hheadNodes, hbodyNodes, htailNodes⟩ := hnodes
  have hlast : i + 1 < 2 ^ 31 := by
    have hlength := (lt_length_iff hs.bound _).mp hi
    have hmax := Int32.toInt_lt (platform.load s'.world x 0)
    omega
  obtain ⟨t, t', hturn, hrun, ht, hframe, hcells⟩ :=
    h.head_runs hs hx hi callees' fuel (platform.run types callees fuel body)
  obtain ⟨ty, -, hhead⟩ := h.headCode
  rw [hturn, Platform.run_append hhead.shaped, hrun, andThen, Platform.run_append h.shaped, andThen_assoc]
  refine Tracks.begin (fun v hv => hframe v fun hin => hv (Code.results_subset hheadNodes hin))
    (fun v hv _ => hcells v hv) ((hbody t t' ht.agree).andThen_of_subset hbodyNodes fun value u u' hu => ?_)
  have hu' := ht.move hu.agree (fun v hv => hu.values v (h.names hv).2.2.1)
    (hu.cells index h.hidden fun hin => h.own.2 (Code.resultsOf_subset _ _ hin))
  obtain ⟨z', hrun', hz, hframe', hcells'⟩ := h.tail_runs hu' hlast callees' fuel
  rw [hrun', andThen]
  exact Tracks.begin (fun v hv => hframe' v fun hin => hv (Code.results_subset htailNodes hin))
    (fun v _ hv => hcells' v fun he => hv (he ▸ hindex)) (hk u z' hz)

theorem visit_tracks (h : LoopParts types K V sequence target index body' test head tail)
    (hbody : Imitates K V body' (platform.run types callees fuel body)
      (platform.run types callees' fuel body'))
    (hnodes : (test ++ (head ++ (body' ++ tail))).nodes ⊆ d.nodes) (hindex : index ∈ d.resultsOf Kind.isAlloc)
    (rounds : Nat)
    (hs : BeforeTurn K V sequence target index x y i s s') :
    Tracks K V d s' (platform.visit (types sequence) x y (platform.run types callees fuel body) rounds i s)
      (platform.iterate (platform.run types callees' fuel test)
        (platform.run types callees' fuel (head ++ (body' ++ tail))) rounds s') := by
  rw [Code.nodes_append, List.append_subset] at hnodes
  induction rounds generalizing i s s' with
  | zero => exact .stay hs.agree (by simp)
  | succ rounds ih =>
    obtain ⟨hnone, hsome⟩ := h.testCode.run_eq platform types callees' fuel h.testNames hs.storage
    rw [hs.object] at hnone hsome
    rw [hs.count] at hsome
    by_cases hx : platform.word x = 0
    · rw [Host.visit_none hx, Host.iterate, hnone hx]
      exact .stay hs.agree (by simp)
    obtain ⟨t', hworld, hframe, hrun⟩ := hsome hx
    have hload : platform.load s'.world x 0 = platform.load s.world x 0 :=
      Host.load_eq_of_alike hs.agree.world (h.within hs).1 0
    have ht : BeforeTurn K V sequence target index x y i s t' :=
      hs.move (hs.agree.frame (fun v hin hv => (h.fresh v hv).1 hin) hframe (hworld ▸ hs.agree.world))
        (fun v hv => hframe v (h.names hv).1) (by rw [hworld])
    refine Tracks.begin (fun v hv => hframe v fun hin => hv (Code.results_subset hnodes.1 hin))
      (fun v _ _ => by rw [hworld]) ?_
    by_cases hi : Int32.ofNat i < platform.load s'.world x 0
    · rw [decide_eq_true hi] at hrun
      rw [Host.visit_next hx (hload ▸ (lt_length_iff hs.bound _).mp hi), Host.iterate_next hrun (by decide)]
      exact h.turn_tracks hbody hnodes.2 hindex ht hx (hworld ▸ hi) fun u u' hu => ih hu
    · rw [decide_eq_false hi] at hrun
      rw [Host.visit_done hx (hload ▸ (lt_length_iff hs.bound _).not.mp hi), Host.iterate_done hrun]
      exact .stay ht.agree (by simp)

end LoopParts

def startCode (index zero : ValueId) (id₁ id₂ id₃ : OpId) (rest : Code) : Code :=
  .leaf ⟨id₁, .alloc .int, [], some ⟨index, .location .int⟩⟩
    (.leaf ⟨id₂, .literal (.int 0), [], some ⟨zero, .plain .int⟩⟩
      (.leaf ⟨id₃, .store, [index, zero], none⟩ rest))

theorem run_startCode {zero : ValueId} (hne : index ≠ zero) (id₁ id₂ id₃ : OpId) (rest : Code) (s : State) :
    platform.run types callees fuel (startCode index zero id₁ id₂ id₃ rest) s =
      platform.run types callees fuel rest
      { (s.define (some index) (some (.cell index))).define (some zero) (some (.word 0)) with
          world := s.world.assign index 0 } := by
  rw [startCode, Platform.run_direct (some (.cell index)) s.world ⟨by simp, rfl, rfl⟩ rfl,
    Platform.run_direct (some (.word 0)) s.world ⟨by simp, rfl, rfl⟩ rfl,
    Platform.run_direct none (s.world.assign index 0) ⟨by simp, rfl, rfl⟩
    (by simp [Host.perform, Host.store, Host.word, hne])]
  rfl

theorem WhileOf.exists_parts (h : WhileOf types sequence target body' d) (hshape : body'.Shaped false)
    (hnodup : d.results.Nodup) (hfresh : ∀ v ∈ d.results, V v → v ∈ body'.results) (hKV : ∀ v ∈ K, V v)
    (htyped : ∀ n ∈ d.nodes, ∀ r ∈ n.result, types r.value = some r.ty)
    (hkept : ∀ v, v = sequence ∨ v = target → V v ∧ v ∉ d.results) :
    ∃ index zero id₁ id₂ id₃ id₄ test head tail,
      d = startCode index zero id₁ id₂ id₃
        (.fork ⟨id₄, .whileLoop, [], none⟩ test (head ++ (body' ++ tail)) .nil) ∧
      index ≠ zero ∧ ¬ V index ∧ ¬ V zero ∧
        LoopParts types K V sequence target index body' test head tail := by
  obtain ⟨ty, index, zero, id₁, id₂, id₃, id₄, test, head, tail, hty, htest, hhead, htail, rfl⟩ := h
  simp only [Code.results_leaf_some, Code.results_leaf_none, Code.results_fork, Code.results_append,
    Code.results_nil, Node.results, Option.map_none, Option.toList_none, List.nil_append, List.append_nil,
    List.nodup_cons, List.nodup_append, List.mem_cons, List.mem_append, not_or] at hnodup hfresh hkept
  obtain ⟨⟨hne, hindex⟩, hzero, htestNodup, ⟨hheadNodup, ⟨hbodyNodup, htailNodup, hbodyTail⟩, hheadRest⟩,
    htestRest⟩ := hnodup
  have hindexFresh : ¬ V index := fun hv => hindex.2.2.1 (hfresh index (.inl rfl) hv)
  have hzeroFresh : ¬ V zero := fun hv => hzero.2.2.1 (hfresh zero (.inr (.inl rfl)) hv)
  refine ⟨index, zero, id₁, id₂, id₃, id₄, test, head, tail, rfl, hne, hindexFresh, hzeroFresh, htest,
    ⟨ty, hty, hhead⟩, htail, fun n hn => htyped n (by simp [Code.nodes, hn]), hshape,
    List.nodup_cons.mpr ⟨hindex.1, htestNodup⟩, List.nodup_cons.mpr ⟨hindex.2.2.2, htailNodup⟩,
    ⟨hindex.2.1, hindex.2.2.1⟩, fun hK => hindexFresh (hKV index hK), fun v hv => ?_,
    fun v hv => ⟨(hkept v hv).1, (hkept v hv).2.2.2.2.2.1⟩⟩
  have hbody := fun hin => hfresh v hin hv
  exact ⟨fun hin => htestRest v hin v (.inr (.inl (hbody (by simp [hin])))) rfl,
    fun hin => hheadRest v hin v (.inl (hbody (by simp [hin]))) rfl, fun hin =>
    hbodyTail v (hbody (by simp [hin])) v hin rfl⟩

theorem WhileOf.imitates (h : WhileOf types sequence target body' d) (hshape : body'.Shaped false)
    (hbody : Imitates K V body' (platform.run types callees fuel body)
      (platform.run types callees' fuel body'))
    (hnodup : d.results.Nodup) (hfresh : ∀ v ∈ d.results, V v → v ∈ body'.results) (hKV : ∀ v ∈ K, V v)
    (htyped : ∀ n ∈ d.nodes, ∀ r ∈ n.result, types r.value = some r.ty)
    (hkept : ∀ v, v = sequence ∨ v = target → V v ∧ v ∉ d.results) :
    Imitates K V d
      (fun s =>
        andThen (platform.visit (types sequence) (s.values sequence) (s.values target)
          (platform.run types callees fuel body) fuel 0 s)
          fun _ t => (.next none, t))
      (platform.run types callees' fuel d) := by
  obtain ⟨index, zero, id₁, id₂, id₃, id₄, test, head, tail, rfl, hne, hindexFresh, hzeroFresh, hparts⟩ :=
    h.exists_parts hshape hnodup hfresh hKV htyped hkept
  intro s s' hs
  rw [run_startCode hne, Platform.run]
  have hother {v : ValueId} (hindex : v ≠ index) (hzero : v ≠ zero) :
      ((s'.define (some index) (some (.cell index))).define (some zero) (some (.word 0))).values v =
        s'.values v :=
    (State.values_define_of_ne hzero).trans (State.values_define_of_ne hindex)
  have hknown {v : ValueId} (hv : V v) :
      ((s'.define (some index) (some (.cell index))).define (some zero) (some (.word 0))).values v =
        s.values v :=
    (hother (fun he => hindexFresh (he ▸ hv)) fun he => hzeroFresh (he ▸ hv)).trans (hs.values v hv)
  have hstart : BeforeTurn K V sequence target index (s.values sequence) (s.values target) 0 s
      { (s'.define (some index) (some (.cell index))).define (some zero) (some (.word 0)) with
          world := s'.world.assign index 0 } :=
    ⟨⟨fun v hv => hknown hv, hs.within, hs.world.assign_hidden hparts.hidden 0⟩, by simp [hne],
      Function.update_self .., Nat.two_pow_pos 31, hknown (hparts.kept sequence (.inl rfl)).1,
      hknown (hparts.kept target (.inr rfl)).1⟩
  refine Tracks.begin (fun v hv => ?_) (fun v _ hv => ?_)
    ((hparts.visit_tracks hbody (fun n hn => ?_) ?_ fuel hstart).andThen fun _ t t' ht => .stay ht.agree
      (by simp))
  · simp only [startCode, Code.results_leaf_some, List.mem_cons, not_or] at hv
    exact hother hv.1 hv.2.1
  · refine Function.update_of_ne (fun he => hv ?_) _ _
    simp [he, startCode, Node.results, Kind.isAlloc]
  · simp only [startCode, Code.nodes, List.mem_cons, Code.nodes_append] at hn ⊢
    simp [hn]
  · simp [startCode, Node.results, Kind.isAlloc]

theorem WhileOf.nodes_sublist (h : WhileOf types sequence target body d) : body.nodes.Sublist d.nodes := by
  obtain ⟨_, _, _, _, _, _, _, _, _, _, -, -, -, -, rfl⟩ := h
  simp only [Code.nodes, Code.nodes_append, List.append_nil]
  refine .cons _ (.cons _ (.cons _ (.cons _ ?_)))
  exact .trans (.trans (List.sublist_append_left ..) (List.sublist_append_right ..))
    (List.sublist_append_right ..)

end Turns

end Choco.IR
