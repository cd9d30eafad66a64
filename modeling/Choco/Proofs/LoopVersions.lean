import Mathlib.Data.List.Flatten
import Choco.Proofs.LoopRuns
import Choco.Proofs.Passes

namespace Choco.IR

variable {n : Node} {body : Code}

section Unrolled

variable {platform : Platform} {types : Types} {callees callees' : Callees} {fuel : Nat} {K : List ValueId}
  {V A S : ValueId → Prop} {c c' : Code} {y : Bool}

theorem Unrolls.mem_nodes (h : Unrolls types c c') (hn : n ∈ c.nodes) : n.results = [] ∨ n ∈ c'.nodes := by
  induction h with
  | nil => cases hn
  | leaf _ ih =>
    simp only [Code.nodes, List.mem_cons] at hn ⊢
    rcases hn with rfl | hn
    exacts [Or.inr (.inl rfl), (ih hn).imp_right .inr]
  | loop hloop _ _ ihb ih =>
    simp only [Code.nodes, Code.nodes_append, List.mem_cons, List.mem_append] at hn ⊢
    rcases hn with rfl | hn | hn
    exacts [Or.inl rfl, (ihb hn).imp_right fun hn => .inl (hloop.nodes_sublist.subset hn),
      (ih hn).imp_right .inr]
  | each _ _ _ ihb ih =>
    simp only [Code.nodes, List.mem_cons, List.mem_append] at hn ⊢
    rcases hn with rfl | hn | hn
    exacts [Or.inr (.inl rfl), (ihb hn).imp_right fun hn => .inr (.inl hn),
      (ih hn).imp_right fun hn => .inr (.inr hn)]
  | fork _ _ _ iha ihb ih =>
    simp only [Code.nodes, List.mem_cons, List.mem_append] at hn ⊢
    rcases hn with rfl | hn | hn | hn
    exacts [Or.inr (.inl rfl), (iha hn).imp_right fun hn => .inr (.inl hn),
      (ihb hn).imp_right fun hn => .inr (.inr (.inl hn)), (ih hn).imp_right fun hn => .inr (.inr (.inr hn))]

theorem Unrolls.results_subset (h : Unrolls types c c') : ∀ v ∈ c.results, v ∈ c'.results := by
  intro v hv
  obtain ⟨n, hn, hv⟩ := List.mem_flatMap.mp hv
  obtain hnone | hn := h.mem_nodes hn
  · rw [hnone] at hv
    cases hv
  · exact List.mem_flatMap.mpr ⟨n, hn, hv⟩

/-- Code with loops through sequences and the code without them. All that the first uses is known to both
runs, and what the second defines beyond the first is not. -/
structure Versions (types : Types) (K : List ValueId) (V : ValueId → Prop) (c c' : Code) : Prop where
  unrolls : Unrolls types c c'
  uses : ∀ x ∈ c.uses, V x
  allocs : ∀ v ∈ c.resultsOf Kind.isAlloc, v ∈ K
  nodup : c'.results.Nodup
  fresh : ∀ v ∈ c'.results, V v → v ∈ c.results
  typed : ∀ n ∈ c'.nodes, ∀ d ∈ n.result, types d.value = some d.ty

/-- Two versions of code in a scope. What is defined around the code is not defined in it again. -/
structure ScopedVersions (types : Types) (K : List ValueId) (V A S : ValueId → Prop) (c c' : Code) : Prop
    extends Versions types K V c c' where
  scope : c.Scoped A S
  unseen : ∀ v, S v → v ∉ c'.results

namespace ScopedVersions

variable {n : Node} {rest rest' first first' second second' body body' d : Code} {sequence target : ValueId}
  {id : OpId}

theorem leaf (h : ScopedVersions types K V A S (.leaf n rest) (.leaf n rest'))
    (hrest : Unrolls types rest rest') :
    (∀ x ∈ n.operands, V x) ∧ (n.kind.isAlloc → ∀ v ∈ n.results, v ∈ K) ∧
      ScopedVersions types K V A (fun v => v ∈ n.results ∨ S v) rest rest' := by
  obtain ⟨⟨-, huses, hallocs, hnodup, hfresh, htyped⟩, ⟨-, hscope⟩, hunseen⟩ := h
  simp only [Code.results_leaf, Code.uses_leaf, Code.resultsOf_leaf, Code.nodes, List.mem_append,
    List.mem_cons, List.nodup_append, or_imp, forall_and, forall_eq, not_or]
    at hunseen huses hallocs hnodup hfresh htyped
  refine ⟨huses.1, fun hn v hv => hallocs.1 v (by simpa [hn] using hv),
    ⟨hrest, huses.2, hallocs.2, hnodup.2.1, ?_, htyped.2⟩, hscope, ?_⟩
  all_goals grind

theorem fork (h : ScopedVersions types K V A S (.fork n first second rest) (.fork n first' second' rest'))
    (hfirst : Unrolls types first first') (hsecond : Unrolls types second second')
    (hrest : Unrolls types rest rest') :
    (∀ x ∈ n.operands, V x) ∧ ScopedVersions types K V A S first first' ∧
      ScopedVersions types K V A S second second' ∧
      ScopedVersions types K V A (fun v => v ∈ n.results ∨ S v) rest rest' := by
  obtain ⟨⟨-, huses, hallocs, hnodup, hfresh, htyped⟩, ⟨-, hscope₁, hscope₂, hscope₃⟩, hunseen⟩ := h
  have hsub₁ := hfirst.results_subset
  have hsub₂ := hsecond.results_subset
  have hsub₃ := hrest.results_subset
  simp only [Code.results_fork, Code.uses_fork, Code.resultsOf_fork, Code.nodes, List.mem_append,
    List.mem_cons, List.nodup_append, or_imp, forall_and, forall_eq, not_or]
    at hunseen huses hallocs hnodup hfresh htyped
  refine ⟨huses.1, ⟨⟨hfirst, huses.2.1, hallocs.2.1, hnodup.2.1.1, ?_, htyped.2.1⟩, hscope₁, ?_⟩,
    ⟨⟨hsecond, huses.2.2.1, hallocs.2.2.1, hnodup.2.1.2.1.1, ?_, htyped.2.2.1⟩, hscope₂, ?_⟩,
    ⟨⟨hrest, huses.2.2.2, hallocs.2.2.2, hnodup.2.1.2.1.2.1, ?_, htyped.2.2.2⟩, hscope₃, ?_⟩⟩
  all_goals grind

theorem loop (h : ScopedVersions types K V A S (.each ⟨id, .forLoop, [sequence, target], none⟩ [] body rest)
    (d ++ rest')) (hloop : WhileOf types sequence target body' d) (hbody : Unrolls types body body')
      (hrest : Unrolls types rest rest') :
    (∀ v, v = sequence ∨ v = target → V v ∧ v ∉ d.results) ∧ (∀ v ∈ d.results, V v → v ∈ body'.results) ∧
      d.results.Nodup ∧ (∀ n ∈ d.nodes, ∀ d ∈ n.result, types d.value = some d.ty) ∧
      ScopedVersions types K V A S body body' ∧ ScopedVersions types K V A S rest rest' := by
  obtain ⟨⟨-, huses, hallocs, hnodup, hfresh, htyped⟩, ⟨hsees, hscopeBody, hscope⟩, hunseen⟩ := h
  have hin := Code.results_subset hloop.nodes_sublist.subset
  have hsub₁ := hbody.results_subset
  have hsub₂ := hrest.results_subset
  have hnodupBody : d.results.Nodup → body'.results.Nodup := (hloop.nodes_sublist.flatMap _).nodup
  have htypedBody := fun n (hn : n ∈ body'.nodes) => htyped n (by simp [hloop.nodes_sublist.subset hn])
  have hsight {x : ValueId} (hx : x ∈ [sequence, target]) :=
    (hsees x hx).resolve_right (by simp [Kind.isStore])
  simp only [Code.results_each, Code.results_append, Code.uses_each, Code.resultsOf_each, Code.nodes_append,
    Node.results, Option.map_none, Option.toList_none, List.nil_append, List.mem_append, List.mem_cons,
    List.not_mem_nil, or_false, List.nodup_append, or_imp, forall_and, forall_eq, not_or]
    at hunseen huses hallocs hnodup hfresh htyped hsight ⊢
  refine ⟨?_, ?_, hnodup.1, htyped.1,
    ⟨⟨hbody, huses.2.1, hallocs.2.1, hnodupBody hnodup.1, ?_, htypedBody⟩,
    hscopeBody.mono (by simp) fun _ hv => hv, ?_⟩, ⟨⟨hrest, huses.2.2, hallocs.2.2, hnodup.2.1, ?_, htyped.2⟩,
    hscope.mono (fun _ hv => hv) (by simp [Node.results]), ?_⟩⟩
  all_goals grind

end ScopedVersions

theorem ScopedVersions.imitates (h : ScopedVersions types K V A S c c') (hshape : c.Shaped y)
    (hcallees : callees.Alike K callees') (hKV : ∀ v ∈ K, V v) :
    Imitates K V c' (platform.run types callees fuel c) (platform.run types callees' fuel c') := by
  have hunrolls := h.unrolls
  induction hunrolls generalizing A S y with
  | nil => exact fun s s' hs => .stay hs (by simp)
  | @leaf n rest rest' hrest ih =>
    obtain ⟨hoperands, hallocs, hbehind⟩ := h.leaf hrest
    cases hshape with
    | yield id x =>
      intro s s' hs
      rw [Platform.run, Platform.run, if_pos rfl, if_pos rfl]
      simp only [List.head?_cons, Option.map_some, hs.values x (hoperands x List.mem_cons_self)]
      refine .stay hs fun z hz => ?_
      cases hz
      exact Content.within_word K _
    | leaf hn hshape =>
      intro s s' hs
      rw [Platform.run_leaf hn.ne_yield, Platform.run_leaf hn.ne_yield]
      refine Imitates.node (fun s s' hs => Tracks.act hcallees hoperands hallocs hs)
        ((ih hbehind hshape).mono ?_) ?_ s s' hs
      · exact List.subset_cons_self ..
      · simp +contextual
  | @loop id sequence target body body' rest rest' d hloop hbody hrest ihb ih =>
    obtain ⟨hkept, hfresh, hnodup, htyped, hinside, hbehind⟩ := h.loop hloop hbody hrest
    cases hshape with
    | loop _ _ _ hshapeBody hshape =>
      have hshapeBody' := (hbody.shaped hshapeBody).1
      have himitates := hloop.imitates hshapeBody' (ihb hinside hshapeBody) hnodup hfresh hKV htyped hkept
      intro s s' hs
      have hends := (himitates s s' hs).andThen_of_subset
        (by simp : d.nodes ⊆ (d ++ rest').nodes) fun _ t t' ht =>
        (ih hbehind hshape t t' ht.agree).mono (by simp)
      rw [andThen_assoc] at hends
      rw [Platform.run, Platform.run_append (hloop.shaped hshapeBody')]
      exact hends
  | each hn _ _ _ _ =>
    cases hshape with
    | loop id x location hbody hrest => exact absurd rfl hn
  | @fork n first first' second second' rest rest' hfirst hsecond hrest iha ihb ih =>
    obtain ⟨hoperands, hthen, helse, hbehind⟩ := h.fork hfirst hsecond hrest
    cases hshape with
    | fork hn hshape₁ hshape₂ hshape =>
      refine Imitates.node (Host.select_imitates hn hoperands ((iha hthen hshape₁).mono ?_)
        ((ihb helse hshape₂).mono ?_)) ((ih hbehind hshape).mono ?_) ?_
      all_goals simp +contextual [Code.nodes, List.subset_def]

end Unrolled

section Calls

variable {platform : Platform} {types : Types} {fuel : Nat} {K : List ValueId}
  {V S : ValueId → Prop} {c c' : Code} {w w' : World}

theorem World.Alike.refl (K : List ValueId) (w : World) : w.Alike K id w where
  memory := rfl
  cells _ _ := rfl
  log := by
    have hid : Event.rename id = id := funext fun e => by cases e <;> rfl
    rw [List.map_id, hid, List.map_id]

theorem World.Alike.leave {own own' : List ValueId} {before before' : World} (h : w.Alike K id w')
    (hbefore : before.Alike K id before') (hown : ∀ v ∈ K, v ∈ own' ↔ v ∈ own) :
    (w.leave own before).Alike K id (w'.leave own' before') where
  memory := h.memory
  cells v hv := by
    have hcell := h.cells v hv
    have hcell' := hbefore.cells v hv
    simp only [id] at hcell hcell'
    simp only [World.leave, id, hown v hv, hcell, hcell']
  log := h.log

namespace Versions

theorem each {args : List ValueId} {body' rest rest' : Code}
    (h : Versions types K V (.each n args body rest) (.each n args body' rest'))
    (hscope : (Code.each n args body rest).ScopedFunctions S)
    (hunseen : ∀ v, S v → v ∉ (Code.each n args body' rest').results)
    (hbody : Unrolls types body body') (hrest : Unrolls types rest rest') :
    ScopedVersions types K V (· ∈ args) (fun v => S v ∨ v ∈ rest.resultsOf Kind.isAlloc) body body' ∧
      Versions types K V rest rest' ∧
      ∀ v, S v ∨ v ∈ body.resultsOf Kind.isAlloc → v ∉ rest'.results := by
  obtain ⟨-, huses, hallocs, hnodup, hfresh, htyped⟩ := h
  have hsub₁ := hbody.results_subset
  have hsub₂ := hrest.results_subset
  have hown₁ := body.resultsOf_subset (p := Kind.isAlloc)
  have hown₂ := rest.resultsOf_subset (p := Kind.isAlloc)
  simp only [Code.results_each, Code.uses_each, Code.resultsOf_each, Code.nodes, List.mem_append,
    List.mem_cons, List.nodup_append, or_imp, forall_and, forall_eq, not_or]
    at hunseen huses hallocs hnodup hfresh htyped
  refine ⟨⟨⟨hbody, huses.2.1, hallocs.2.1, hnodup.2.1.1, ?_, htyped.2.1⟩, hscope.2.1, ?_⟩,
    ⟨hrest, huses.2.2, hallocs.2.2, hnodup.2.1.2.1, ?_, htyped.2.2⟩, ?_⟩
  all_goals grind

theorem mem_allocs (h : Versions types K V c c') {v : ValueId} (hv : V v) :
    v ∈ c'.resultsOf Kind.isAlloc ↔ v ∈ c.resultsOf Kind.isAlloc := by
  refine ⟨fun hin => ?_, h.unrolls.allocs⟩
  obtain ⟨n', hn', halloc, hv'⟩ := (Code.mem_resultsOf _).mp hin
  obtain ⟨n, hn, hvn⟩ := List.mem_flatMap.mp (h.fresh v (Code.resultsOf_subset _ _ hin) hv)
  obtain hnone | hin := h.unrolls.mem_nodes hn
  · rw [hnone] at hvn
    cases hvn
  · obtain rfl := Code.eq_of_mem_results h.nodup hin hn' hvn hv'
    exact (Code.mem_resultsOf _).mpr ⟨n, hn, halloc, hv'⟩

theorem function? (h : Versions types K V c c') (hc : c.Functions) (hscope : c.ScopedFunctions S)
    (hunseen : ∀ v, S v → v ∉ c'.results) (label : String) :
    (c.function? label = none ∧ c'.function? label = none) ∨
      ∃ params body body' S', c.function? label = some (params, body) ∧
        c'.function? label = some (params, body') ∧
        body.Shaped false ∧ ScopedVersions types K V (· ∈ params) S' body body' := by
  induction hc generalizing c' S with
  | nil =>
    cases h.unrolls
    exact .inl ⟨rfl, rfl⟩
  | @function id l ty args body rest hbody hrest ih =>
    cases hunrolls : h.unrolls with
    | @each _ _ _ body' _ rest' _ hbody' hrest' =>
      obtain ⟨hin, hbehind, hunseen⟩ := h.each hscope hunseen hbody' hrest'
      by_cases hl : l = label
      · exact .inr ⟨args, body, body', _, if_pos hl, if_pos hl, hbody, hin⟩
      · simp only [Code.function?, if_neg hl]
        exact ih hbehind hscope.2.2 hunseen

theorem enter_agree (h : Versions types K V c c') (hw : w.Alike K id w') (params : List ValueId)
    (args : List Int32) :
    Agree K V (.enter (c.resultsOf Kind.isAlloc) params args w)
      (.enter (c'.resultsOf Kind.isAlloc) params args w') where
  values v hv := by simp only [State.enter, h.mem_allocs hv]
  within v hv := by
    simp only [State.enter]
    split
    next hin =>
      intro u hu
      cases hu
      exact h.allocs v hin
    next => exact Content.within_word K _
  world := hw

theorem call_alike (h : Versions types K V c c') (hc : c.Functions)
    (hscope : c.ScopedFunctions fun _ => False) (hKV : ∀ v ∈ K, V v)
    (depth : Nat) : (platform.call types fuel c depth).Alike K (platform.call types fuel c' depth) := by
  induction depth with
  | zero => exact ⟨fun _ _ _ _ hw => ⟨rfl, hw⟩, fun _ _ _ _ _ => rfl⟩
  | succ depth ih =>
    have hruns {params : List ValueId} {body body' : Code} {S : ValueId → Prop} (hshape : body.Shaped false)
        (hbody : ScopedVersions types K V (· ∈ params) S body body') (label : String) (args : List Int32)
          {w w' : World}
        (hw : w.Alike K id w') : Tracks K V body' _ (platform.run types _ fuel body _)
          (platform.run types _ fuel body' _) :=
      hbody.imitates hshape ih hKV _ _ (h.enter_agree (hw.note_call label args) params args)
    refine ⟨fun label args w w' hw => ?_, fun label args w v hv => ?_⟩
    · obtain ⟨hnone, hnone'⟩ | ⟨params, body, body', S, hsome, hsome', hshape, hbody⟩ :=
        h.function? hc hscope (fun _ => False.elim) label
      · simp only [Platform.call, hnone, hnone']
        exact platform.routine_alike.same label args w w' hw
      · simp only [Platform.call, hsome, hsome']
        have hrun := hruns hshape hbody label args hw
        exact ⟨hrun.exit, hrun.agree.world.leave hw fun v hv => hbody.mem_allocs (hKV v hv)⟩
    · obtain ⟨hnone, hnone'⟩ | ⟨params, body, body', S, hsome, hsome', hshape, hbody⟩ :=
        h.function? hc hscope (fun _ => False.elim) label
      · simp only [Platform.call, hnone']
        exact platform.routine_alike.sparing label args w v hv
      · simp only [Platform.call, hsome', World.leave]
        split
        · rfl
        · next hown => exact (hruns hshape hbody label args (.refl K w)).cells v hv hown

end Versions

end Calls

section Types

variable {platform : Platform} {types types' : Types} {fuel : Nat} {c : Code}

theorem Platform.run_types (h : ∀ x ∈ c.uses, types' x = types x) (callees : Callees) :
    platform.run types' callees fuel c = platform.run types callees fuel c := by
  induction c with
  | nil => rfl
  | leaf n rest ih =>
    simp only [Code.uses_leaf, List.mem_append, or_imp, forall_and] at h
    have huse : n.libraryUse types' = n.libraryUse types :=
      congrArg _ (List.map_congr_left fun x hx => by rw [Types.operand, Types.operand, h.1 x hx])
    funext s
    simp only [run, act, huse, ih h.2]
  | each n args body rest ihb ih =>
    simp only [Code.uses_each, List.mem_append, or_imp, forall_and] at h
    funext s
    unfold run
    split
    next heq => cases heq
    next heq => cases heq
    next heq =>
      cases heq
      simp only [h.1 _ List.mem_cons_self, ihb h.2.1, ih h.2.2]
    next heq =>
      cases heq
      rw [ih h.2.2]
    next heq => cases heq
  | fork n first second rest iha ihb ih =>
    simp only [Code.uses_fork, List.mem_append, or_imp, forall_and] at h
    funext s
    simp only [run, iha h.2.1, ihb h.2.2.1, ih h.2.2.2]

theorem Code.uses_of_function? {label : String} {params : List ValueId}
    (h : c.function? label = some (params, body)) :
    ∀ x ∈ body.uses, x ∈ c.uses := by
  fun_induction Code.function? label c with
  | case1 =>
    cases h
    simp +contextual
  | case2 id l ty operands result params' body' rest hl ih => simp +contextual [ih h]
  | case3 | case4 | case5 | case6 => cases h

theorem Platform.call_types (h : ∀ x ∈ c.uses, types' x = types x) (depth : Nat) :
    platform.call types' fuel c depth = platform.call types fuel c depth := by
  induction depth with
  | zero => rfl
  | succ depth ih =>
    funext label args w
    simp only [call, ih]
    cases hfunction : c.function? label with
    | none => rfl
    | some function => simp only [run_types fun x hx => h x (Code.uses_of_function? hfunction x hx)]

end Types

end Choco.IR
