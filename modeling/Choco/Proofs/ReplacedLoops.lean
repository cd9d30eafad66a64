import Mathlib.Data.List.Forall2
import Choco.Proofs.LoopVersions

namespace Choco.IR

/-- The operations that use a value. -/
def usersOf (v : ValueId) (ns : List Node) : List Node := ns.filter fun n => v ∈ n.operands

theorem usersOf_append (v : ValueId) (ns ns' : List Node) :
    usersOf v (ns ++ ns') = usersOf v ns ++ usersOf v ns' :=
  List.filter_append ..

theorem usersOf_eq_nil {v : ValueId} {ns : List Node} : usersOf v ns = [] ↔ ∀ n ∈ ns, v ∉ n.operands := by
  simp [usersOf, List.filter_eq_nil_iff]

/-- The loop `n` has become code that starts with storage for this index, among the operations `ns`. The index
is used five times: it is set to zero, read for the test, for the element and to count, and counted; the body
does not use it, nor does anything else. -/
def KeepsIndex (types : Types) (ns : List Node) (n : Node) (index : ValueId) : Prop :=
  ∃ x target body d id, n.operands = [x, target] ∧ WhileOf types x target body d ∧ d.nodes <:+: ns ∧
    d.nodes.head? = some ⟨id, .alloc .int, [], some ⟨index, .location .int⟩⟩ ∧
    usersOf index body.nodes = [] ∧ usersOf index ns = usersOf index d.nodes ∧
    (usersOf index d.nodes).map Node.kind = [.store, .load, .load, .load, .store]

structure Replaces (types : Types) (V : ValueId → Prop) (ns ns' : List Node) (indices : List ValueId) :
    Prop where
  others : (ns.filter fun n => n.kind ≠ .forLoop).Sublist ns'
  loops : List.Forall₂ (KeepsIndex types ns') (ns.filter fun n => n.kind = .forLoop) indices
  hidden : ∀ index ∈ indices, ¬ V index
  made : indices.Sublist (ns'.flatMap Node.results)
  uses : ∀ n ∈ ns', ∀ x ∈ n.operands, V x ∨ x ∈ ns'.flatMap Node.results

section Replaces

variable {types : Types} {V : ValueId → Prop} {ns ns' ns₁ ns₁' ns₂ ns₂' before behind : List Node} {n : Node}
  {index : ValueId} {indices indices₁ indices₂ : List ValueId} {sequence target : ValueId}
  {c body body' d : Code}

theorem KeepsIndex.between (h : KeepsIndex types ns n index) (hbefore : usersOf index before = [])
    (hbehind : usersOf index behind = []) : KeepsIndex types (before ++ (ns ++ behind)) n index := by
  obtain ⟨x, target, body, d, id, hn, hloop, hin, hhead, hbody, husers, hkinds⟩ := h
  refine ⟨x, target, body, d, id, hn, hloop, hin.trans ⟨before, behind, by rw [List.append_assoc]⟩, hhead,
    hbody, ?_, hkinds⟩
  rw [usersOf_append, usersOf_append, hbefore, hbehind, List.nil_append, List.append_nil, husers]

theorem forall₂_keepsIndex (before behind : List Node) {loops : List Node}
    (h : List.Forall₂ (KeepsIndex types ns) loops indices)
    (hbefore : ∀ index ∈ indices, usersOf index before = [])
    (hbehind : ∀ index ∈ indices, usersOf index behind = []) :
    List.Forall₂ (KeepsIndex types (before ++ (ns ++ behind))) loops indices := by
  induction h with
  | nil => exact .nil
  | cons hn _ ih =>
    rw [List.forall_mem_cons] at hbefore hbehind
    exact .cons (hn.between hbefore.1 hbehind.1) (ih hbefore.2 hbehind.2)

/-- Operations that use what they define, the values in `known`, and the index; it is used by operations of
these kinds. -/
structure Accesses (known : List ValueId) (index : ValueId) (kinds : List Kind) (ns : List Node) : Prop where
  uses : ∀ n ∈ ns, ∀ u ∈ n.operands, u ∈ known ∨ u = index ∨ u ∈ ns.flatMap Node.results
  kinds : index ∉ known → index ∉ ns.flatMap Node.results → (usersOf index ns).map Node.kind = kinds

theorem Accesses.append {known : List ValueId} {kinds₁ kinds₂ : List Kind}
    (h₁ : Accesses known index kinds₁ ns₁) (h₂ : Accesses known index kinds₂ ns₂) :
    Accesses known index (kinds₁ ++ kinds₂) (ns₁ ++ ns₂) where
  uses n hn u hu := by
    rw [List.flatMap_append, List.mem_append]
    obtain hn | hn := List.mem_append.mp hn
    · exact (h₁.uses n hn u hu).imp_right (Or.imp_right .inl)
    · exact (h₂.uses n hn u hu).imp_right (Or.imp_right .inr)
  kinds hknown hresults := by
    rw [List.flatMap_append, List.mem_append, not_or] at hresults
    rw [usersOf_append, List.map_append, h₁.kinds hknown hresults.1, h₂.kinds hknown hresults.2]

theorem TestCode.accesses (target : ValueId) (h : TestCode sequence index c) :
    Accesses [sequence, target] index [.load] c.nodes := by
  obtain ⟨length, current, less, id₁, id₂, id₃, id₄, rfl⟩ := h
  refine ⟨by simp [Code.nodes, Node.results], fun hknown hresults => ?_⟩
  simp_all [Code.nodes, Node.results, usersOf]

theorem HeadCode.accesses {ty : Ty} (h : HeadCode ty sequence target index c) :
    Accesses [sequence, target] index [.load] c.nodes := by
  obtain ⟨current, item, id₁, id₂, c₁, helement, rfl⟩ := h
  unfold ElementCode at helement
  split at helement
  next =>
    obtain ⟨address, code, j₁, j₂, j₃, rfl⟩ := helement
    refine ⟨by simp [Code.nodes, Node.results], fun hknown hresults => ?_⟩
    simp_all [Code.nodes, Node.results, usersOf]
  next elem =>
    obtain ⟨address, j₁, j₂, rfl⟩ := helement
    refine ⟨by simp [Code.nodes, Node.results], fun hknown hresults => ?_⟩
    simp_all [Code.nodes, Node.results, usersOf]
  next => cases helement

theorem TailCode.accesses (sequence target : ValueId) (h : TailCode index c) :
    Accesses [sequence, target] index [.load, .store] c.nodes := by
  obtain ⟨current, one, next, id₁, id₂, id₃, id₄, rfl⟩ := h
  refine ⟨by simp [Code.nodes, Node.results], fun hknown hresults => ?_⟩
  simp_all [Code.nodes, Node.results, usersOf]

theorem WhileOf.exists_index (h : WhileOf types sequence target body d) :
    ∃ id index before behind, d.nodes = ⟨id, .alloc .int, [], some ⟨index, .location .int⟩⟩ ::
      (before ++ (body.nodes ++ behind)) ∧
      Accesses [sequence, target] index [.store, .load, .load, .load, .store] (before ++ behind) := by
  obtain ⟨ty, index, zero, id₁, id₂, id₃, id₄, test, head, tail, -, htest, hhead, htail, rfl⟩ := h
  let start : List Node :=
    [⟨id₂, .literal (.int 0), [], some ⟨zero, .plain .int⟩⟩, ⟨id₃, .store, [index, zero], none⟩,
      ⟨id₄, .whileLoop, [], none⟩]
  have hstart : Accesses [sequence, target] index [.store] start := by
    refine ⟨by simp [start, Node.results], fun hknown hresults => ?_⟩
    simp_all [start, usersOf]
  refine ⟨id₁, index, start ++ (test.nodes ++ head.nodes), tail.nodes, by simp [start, Code.nodes], ?_⟩
  exact (hstart.append ((htest.accesses target).append hhead.accesses)).append
    (htail.accesses sequence target)

theorem WhileOf.uses (h : WhileOf types sequence target body d) (hn : n ∈ d.nodes) {u : ValueId}
    (hu : u ∈ n.operands) :
    u ∈ [sequence, target] ∨ u ∈ d.results ∨ n ∈ body.nodes := by
  obtain ⟨id, index, before, behind, hnodes, haccesses⟩ := h.exists_index
  have hresults : u = index ∨ u ∈ (before ++ behind).flatMap Node.results → u ∈ d.results := by
    simp only [Code.results, hnodes, List.flatMap_cons, List.flatMap_append, List.mem_append]
    rintro (rfl | hu | hu)
    · exact .inl List.mem_cons_self
    · exact .inr (.inl hu)
    · exact .inr (.inr (.inr hu))
  have haround (hn : n ∈ before ++ behind) : u ∈ [sequence, target] ∨ u ∈ d.results ∨ n ∈ body.nodes :=
    (haccesses.uses n hn u hu).imp_right fun hu => .inl (hresults hu)
  rw [hnodes, List.mem_cons, List.mem_append, List.mem_append] at hn
  rcases hn with rfl | hn | hn | hn
  · cases hu
  · exact haround (List.mem_append_left _ hn)
  · exact .inr (.inr hn)
  · exact haround (List.mem_append_right _ hn)

namespace Replaces

theorem nil : Replaces types V [] [] [] where
  others := .slnil
  loops := .nil
  hidden := by simp
  made := .slnil
  uses := by simp

theorem kept (hn : n.kind ≠ .forLoop) (hoperands : ∀ x ∈ n.operands, V x) : Replaces types V [n] [n] [] where
  others := by simp [hn]
  loops := by simp [hn]
  hidden := by simp
  made := List.nil_sublist _
  uses := by simpa using fun x hx => .inl (hoperands x hx)

theorem usersOf_eq_nil_of_disjoint (h : Replaces types V ns₁ ns₁' indices₁)
    (h' : Replaces types V ns₂ ns₂' indices₂)
    (hdisjoint : ∀ v ∈ ns₁'.flatMap Node.results, v ∉ ns₂'.flatMap Node.results) :
    ∀ index ∈ indices₁, usersOf index ns₂' = [] :=
  fun index hindex => usersOf_eq_nil.mpr fun n hn hin =>
    (h'.uses n hn index hin).elim (h.hidden index hindex) (hdisjoint index (h.made.subset hindex))

theorem append (h₁ : Replaces types V ns₁ ns₁' indices₁) (h₂ : Replaces types V ns₂ ns₂' indices₂)
    (hnodup : ((ns₁' ++ ns₂').flatMap Node.results).Nodup) :
    Replaces types V (ns₁ ++ ns₂) (ns₁' ++ ns₂') (indices₁ ++ indices₂) := by
  rw [List.flatMap_append, List.nodup_append] at hnodup
  have hfirst := h₁.usersOf_eq_nil_of_disjoint h₂ fun v hv hv' => hnodup.2.2 v hv v hv' rfl
  have hsecond := h₂.usersOf_eq_nil_of_disjoint h₁ fun v hv hv' => hnodup.2.2 v hv' v hv rfl
  refine ⟨?_, ?_, ?_, ?_, ?_⟩
  · rw [List.filter_append]
    exact h₁.others.append h₂.others
  · rw [List.filter_append]
    refine List.rel_append (forall₂_keepsIndex [] ns₂' h₁.loops (fun _ _ => rfl) hfirst) ?_
    have hloops := forall₂_keepsIndex ns₁' [] h₂.loops hsecond fun _ _ => rfl
    rwa [List.append_nil] at hloops
  · exact List.forall_mem_append.mpr ⟨h₁.hidden, h₂.hidden⟩
  · rw [List.flatMap_append]
    exact h₁.made.append h₂.made
  · simp only [List.flatMap_append, List.mem_append]
    rintro n (hn | hn) x hx
    · exact (h₁.uses n hn x hx).imp_right .inl
    · exact (h₂.uses n hn x hx).imp_right .inr

theorem loop (hbody : Replaces types V body.nodes body'.nodes indices)
    (hloop : WhileOf types sequence target body' d) (hnodup : d.results.Nodup)
    (hkept : ∀ v, v = sequence ∨ v = target → V v ∧ v ∉ d.results)
    (hfresh : ∀ v ∈ d.results, V v → v ∈ body'.results) (id : OpId) :
    ∃ index, Replaces types V (⟨id, .forLoop, [sequence, target], none⟩ :: body.nodes) d.nodes
      (index :: indices) := by
  obtain ⟨id', index, before, behind, hnodes, haccesses⟩ := hloop.exists_index
  have hresults : d.results = index ::
      (before.flatMap Node.results ++ (body'.results ++ behind.flatMap Node.results)) := by
    simp [Code.results, hnodes, Node.results]
  have hindex : index ∉ (before ++ behind).flatMap Node.results ∧ index ∉ body'.results := by
    grind
  have hapart : ∀ v ∈ body'.results, v ∉ (before ++ behind).flatMap Node.results := by
    grind
  have hhidden : ¬ V index := fun hv => hindex.2 (hfresh index (by simp [hresults]) hv)
  have hknown {v : ValueId} (hv : ¬ V v) : v ∉ [sequence, target] :=
    fun hin => hv (hkept v (by simpa using hin)).1
  have hunused : usersOf index body'.nodes = [] :=
    usersOf_eq_nil.mpr fun n hn hin => (hbody.uses n hn index hin).elim hhidden hindex.2
  have hothers : ∀ i ∈ indices, usersOf i (before ++ behind) = [] := by
    refine fun i hi => usersOf_eq_nil.mpr fun n hn hin => ?_
    have hmade : i ∈ body'.results := hbody.made.subset hi
    rcases haccesses.uses n hn i hin with hi' | rfl | hi'
    exacts [hknown (hbody.hidden i hi) hi', hindex.2 hmade, hapart i hmade hi']
  have hkinds : (usersOf index d.nodes).map Node.kind = [.store, .load, .load, .load, .store] := by
    rw [← haccesses.kinds (hknown hhidden) hindex.1, hnodes]
    change (usersOf index (before ++ (body'.nodes ++ behind))).map Node.kind = _
    rw [usersOf_append, usersOf_append, hunused, List.nil_append, usersOf_append]
  refine ⟨index, ⟨?_, ?_, ?_, ?_, ?_⟩⟩
  · rw [List.filter_cons_of_neg (by simp)]
    exact hbody.others.trans hloop.nodes_sublist
  · rw [List.filter_cons_of_pos (by simp)]
    refine .cons ⟨sequence, target, body', d, id', rfl, hloop,
      List.infix_rfl, by rw [hnodes]; rfl, hunused, rfl, hkinds⟩ ?_
    rw [hnodes, ← List.cons_append]
    simp only [usersOf_append, List.append_eq_nil_iff] at hothers
    exact forall₂_keepsIndex _ behind hbody.loops (fun i hi => (hothers i hi).1) fun i hi => (hothers i hi).2
  · exact List.forall_mem_cons.mpr ⟨hhidden, hbody.hidden⟩
  · rw [← Code.results, hresults]
    exact (hbody.made.trans (.trans (List.sublist_append_left ..) (List.sublist_append_right ..))).cons_cons _
  · intro n hn x hx
    rcases hloop.uses hn hx with hx | hx | hn
    · exact .inl (hkept x (by simpa using hx)).1
    · exact .inr hx
    · exact (hbody.uses n hn x hx).imp_right fun hx => Code.results_subset hloop.nodes_sublist.subset hx

end Replaces

end Replaces

section Programs

variable {types : Types} {K : List ValueId} {V A S : ValueId → Prop} {c c' : Code} {y : Bool}
  {m m' : Module} {k : Nat}

theorem ScopedVersions.exists_replaces (h : ScopedVersions types K V A S c c') (hshape : c.Shaped y) :
    ∃ indices, Replaces types V c.nodes c'.nodes indices := by
  have hunrolls := h.unrolls
  have hnodup : (c'.nodes.flatMap Node.results).Nodup := h.nodup
  induction hunrolls generalizing A S y with
  | nil => exact ⟨[], .nil⟩
  | @leaf n rest rest' hrest ih =>
    obtain ⟨hoperands, -, hbehind⟩ := h.leaf hrest
    cases hshape with
    | yield id x =>
      cases hrest
      exact ⟨[], .kept (by simp) hoperands⟩
    | leaf hn hshape =>
      obtain ⟨indices, hindices⟩ := ih hbehind hshape hbehind.nodup
      exact ⟨indices, (Replaces.kept (by cases hn <;> simp) hoperands).append hindices hnodup⟩
  | @loop id sequence target body body' rest rest' d hloop hbody hrest ihb ih =>
    obtain ⟨hkept, hfresh, hnodup', -, hinside, hbehind⟩ := h.loop hloop hbody hrest
    cases hshape with
    | loop _ _ _ hshapeBody hshape =>
      obtain ⟨indices₁, hindices₁⟩ := ihb hinside hshapeBody hinside.nodup
      obtain ⟨indices₂, hindices₂⟩ := ih hbehind hshape hbehind.nodup
      obtain ⟨index, hindex⟩ := hindices₁.loop hloop hnodup' hkept hfresh id
      rw [Code.nodes_append] at hnodup ⊢
      exact ⟨_, hindex.append hindices₂ hnodup⟩
  | each hn _ _ _ _ =>
    cases hshape with
    | loop id x location hbody hrest => exact absurd rfl hn
  | @fork n first first' second second' rest rest' hfirst hsecond hrest iha ihb ih =>
    obtain ⟨hoperands, hthen, helse, hbehind⟩ := h.fork hfirst hsecond hrest
    cases hshape with
    | fork hn hshape₁ hshape₂ hshape =>
      obtain ⟨indices₁, hindices₁⟩ := iha hthen hshape₁ hthen.nodup
      obtain ⟨indices₂, hindices₂⟩ := ihb helse hshape₂ helse.nodup
      obtain ⟨indices₃, hindices₃⟩ := ih hbehind hshape hbehind.nodup
      have hnodup₁ := hnodup.sublist ((List.sublist_cons_self ..).flatMap _)
      have hnodup₂ := hnodup₁.sublist ((List.sublist_append_right ..).flatMap _)
      exact ⟨_, (Replaces.kept (by cases hn <;> simp) hoperands).append
        (hindices₁.append (hindices₂.append hindices₃ hnodup₂) hnodup₁) hnodup⟩

theorem Versions.exists_replaces (h : Versions types K V c c') (hc : c.Functions)
    (hscope : c.ScopedFunctions S) (hunseen : ∀ v, S v → v ∉ c'.results) :
    ∃ indices, Replaces types V c.nodes c'.nodes indices := by
  induction hc generalizing c' S with
  | nil =>
    cases h.unrolls
    exact ⟨[], .nil⟩
  | @function id l ty args body rest hbody hrest ih =>
    cases hunrolls : h.unrolls with
    | @each _ _ _ body' _ rest' _ hbody' hrest' =>
      obtain ⟨hin, hbehind, hunseen⟩ := h.each hscope hunseen hbody' hrest'
      obtain ⟨indices₁, hindices₁⟩ := hin.exists_replaces hbody
      obtain ⟨indices₂, hindices₂⟩ := ih hbehind hscope.2.2 hunseen
      have hnodup : ((_ :: (body'.nodes ++ rest'.nodes)).flatMap Node.results).Nodup := h.nodup
      have hnodup' := hnodup.sublist ((List.sublist_cons_self ..).flatMap _)
      exact ⟨_, (Replaces.kept (by simp) (by simp)).append (hindices₁.append hindices₂ hnodup') hnodup⟩

theorem replaceLoops_count (h : m.Models c .nil) (hrun : Edit.replaceLoops m = .ok k m') :
    k = (c.nodes.filter fun n => n.kind = .forLoop).length := by
  unfold Edit.replaceLoops at hrun
  obtain ⟨loops, m₁, hquery, hrun⟩ := Action.bind_eq_ok.mp hrun
  obtain ⟨⟨⟩, m₂, -, hpure⟩ := Action.bind_eq_ok.mp hrun
  have hloops : loops = Module.forLoops c := by
    cases hquery
    exact h.walk_filter fun kind => kind = .forLoop
  rw [← (Action.pure_eq_ok.mp hpure).1, hloops, Module.forLoops, List.length_map]

theorem Module.Renders.exists_versions {P : Kind → Prop} (h : m.Renders P c)
    (hrun : Edit.replaceLoops m = .ok k m') :
    ∃ c', m'.Models c' .nil ∧ (∀ n ∈ c'.nodes, n.kind ≠ .forLoop) ∧ (∀ x ∈ c.uses, m'.types x = m.types x) ∧
      Versions m'.types (c.resultsOf Kind.isAlloc) (fun v => v ∈ c.results ∨ v ∈ c.args) c c' := by
  obtain ⟨c', hmodels, hvalues, hunrolls⟩ := Module.replaceLoops_models h.functions h.models hrun
  have hunrolls := hunrolls m'.types m'.typed_types
  refine ⟨c', hmodels, (hunrolls.functions h.functions).2,
    fun x hx => Module.types_of_settles hvalues (h.use_lt hx), hunrolls,
    fun x hx => (h.scope.uses_mem hx).resolve_left id, fun _ hv => hv, hmodels.distinct.of_append_left,
    fun v hv hold => ?_, fun n hn d hd => ?_⟩
  · refine hold.resolve_right fun harg => ?_
    obtain ⟨ty, owner, i, hvalue⟩ := (h.args v harg).settles hvalues
    obtain ⟨n, hn, hv⟩ := List.mem_flatMap.mp hv
    obtain ⟨r, hr, rfl⟩ : ∃ r ∈ n.result, r.value = v := by simpa [Node.results] using hv
    obtain ⟨parent, args, hnode⟩ := hmodels.holds.hasNode hn
    cases hvalue.symm.trans (hnode.value r hr)
  · obtain ⟨parent, args, hnode⟩ := hmodels.holds.hasNode hn
    exact m'.typed_types _ _ (hnode.value d hd)

/-- Replacing the loops of the module of a program leaves no loop through a sequence and counts those that
there were. The other operations stay as they are and in their order, and each loop has an index of its own.
Every function does the same, whatever it is called with and wherever it is stopped: it is left in the same
way, with the same memory, the same effects in the same order, and the same contents of all storage that the
program has itself. -/
theorem replaceLoops_preserves {p : Program} {k : Nat} (hp : Module.ofProgram p = .ok m)
    (hrun : Edit.replaceLoops m = .ok k m') :
    ∃ c c', m.Models c .nil ∧ m'.Models c' .nil ∧ (∀ id op, m'.get? id = some op → op.kind ≠ .forLoop) ∧
      k = (c.nodes.filter fun n => n.kind = .forLoop).length ∧
        (c.nodes.filter fun n => n.kind ≠ .forLoop).Sublist c'.nodes ∧
      (∃ indices : List ValueId, indices.Nodup ∧ (∀ index ∈ indices, index ∉ c.results ∧ index ∉ c.uses) ∧
        List.Forall₂ (KeepsIndex m'.types c'.nodes) (c.nodes.filter fun n => n.kind = .forLoop) indices) ∧
      ∀ (platform : Platform) (fuel depth : Nat) (label : String) (args : List Int32) (w : World),
        (platform.call m'.types fuel c' depth label args w).1 =
          (platform.call m.types fuel c depth label args w).1 ∧
          (platform.call m.types fuel c depth label args w).2.Alike (c.resultsOf Kind.isAlloc) id
            (platform.call m'.types fuel c' depth label args w).2 := by
  obtain ⟨c, hrenders, -⟩ := ofProgram_renders hp
  obtain ⟨c', hmodels, hkinds, htypes, hversions⟩ := hrenders.exists_versions hrun
  obtain ⟨indices, hreplaces⟩ := hversions.exists_replaces hrenders.functions hrenders.scope fun _ =>
    False.elim
  refine ⟨c, c', hrenders.models, hmodels, fun id op hop => ?_, replaceLoops_count hrenders.models hrun,
    hreplaces.others, ⟨indices, hreplaces.made.nodup hversions.nodup, fun index hindex => ?_,
    hreplaces.loops⟩, fun platform fuel depth label args w => ?_⟩
  · obtain ⟨n, hn, rfl⟩ : ∃ n ∈ c'.nodes, n.id = id := by
      simpa [Code.allIds, Code.nodes] using hmodels.cover id op hop
    obtain ⟨parent, args, hnode⟩ := hmodels.holds.hasNode hn
    obtain ⟨regions, hop', -⟩ := hnode.get?
    cases hop.symm.trans hop'
    exact hkinds n hn
  · have hhidden := hreplaces.hidden index hindex
    exact ⟨fun hin => hhidden (.inl hin), fun hin => hhidden (hversions.uses index hin)⟩
  · rw [← Platform.call_types htypes]
    exact (hversions.call_alike hrenders.functions hrenders.scope
      (fun v hv => .inl (Code.resultsOf_subset _ _ hv)) depth).same
      label args w w (.refl _ w)

/-- Two loops, one inside the other. The outer one goes through a list whose second element changes in the
first turn, the inner one through the string that the outer one has bound. -/
def nestedLoops : Program where
  decls := [.var ⟨"words", .list .str, .none⟩, .var ⟨"word", .str, .str ""⟩, .var ⟨"letter", .str, .str ""⟩]
  stmts := [
    .assign ⟨.name "words" (.list .str), [], .list [.literal (.str "ab") .str, .literal (.str "c") .str]
      (.list .str)⟩,
    .forLoop "word" (.name "words" (.list .str)) [
      .forLoop "letter" (.name "word" .str) [.expr (.call "print" [.name "letter" .str] .none)],
      .assign ⟨.index (.name "words" (.list .str)) (.literal (.int 1) .int) .str, [],
      .literal (.str "de") .str⟩]]

theorem replaceLoops_nestedLoops :
    ∃ m m' c c', Module.ofProgram nestedLoops = .ok m ∧ Edit.replaceLoops m = .ok 2 m' ∧ m.Models c .nil ∧
      m'.Models c' .nil ∧
        (∃ outer inner index index', c.nodes.filter (fun n => n.kind = .forLoop) = [outer, inner] ∧
        index ≠ index' ∧ KeepsIndex m'.types c'.nodes outer index ∧
          KeepsIndex m'.types c'.nodes inner index') ∧
      ∀ (platform : Platform) (fuel depth : Nat) (w : World),
        (platform.call m'.types fuel c' depth entryFunction [] w).1 =
        (platform.call m.types fuel c depth entryFunction [] w).1 := by
  have hruns : (match Module.ofProgram nestedLoops with
      | .ok m =>
        match Edit.replaceLoops m with
        | .ok k _ => decide (k = 2)
        | .error _ _ => false
      | .error _ => false) = true := by decide +kernel
  split at hruns
  next m hm =>
    split at hruns
    next k m' hm' =>
      obtain rfl := of_decide_eq_true hruns
      obtain ⟨c, c', hmodels, hmodels', -, hcount, -, ⟨indices, hnodup, -, hindices⟩, hcalls⟩ :=
        replaceLoops_preserves hm hm'
      refine ⟨m, m', c, c', hm, hm', hmodels, hmodels', ?_,
        fun platform fuel depth w => (hcalls platform fuel depth _ [] w).1⟩
      obtain ⟨outer, inner, hloops⟩ := List.length_eq_two.mp hcount.symm
      rw [hloops] at hindices
      obtain _ | ⟨houter, _ | ⟨hinner, _ | _⟩⟩ := hindices
      exact ⟨outer, inner, _, _, hloops, by simpa using hnodup, houter, hinner⟩
    next => cases hruns
  next => cases hruns

end Programs

end Choco.IR
