import Choco.Proofs.Traces

namespace Choco

namespace IR

open Choco.IR.Module Code Instruction

variable {N k : Nat} {id : OpId} {n n' : Node} {m' : Module} {c : Code}

section Idle

variable {m : Module} {c : Code}

theorem Edit.query_live (id : OpId) : Edit.query (fun m => .ok (m.isLive id)) m = .ok (m.get? id).isSome m :=
  rfl

theorem Edit.visit_idle {f : OpId → Edit Bool} (h : ∀ id op, m.get? id = some op → f id m = .ok false m)
    (ids : List OpId) :
    ids.foldlM (Edit.visit f) 0 m = .ok 0 m := by
  have hvisit (id : OpId) : Edit.visit f 0 id m = .ok 0 m := by
    cases hop : m.get? id with
    | none =>
      have hlive := Edit.query_live (m := m) id
      rw [hop] at hlive
      exact Action.bind_ok hlive
    | some op => exact Edit.visit_ok hop (h id op hop) 0
  induction ids with
  | nil => rfl
  | cons id ids ih => rw [Action.foldlM_cons_ok (hvisit id), ih]

theorem Named.exists_node {θ : ValueId → ValueId} (h : Named N m θ c) {op : Op} (hop : m.get? id = some op) :
    ∃ n ∈ c.nodes, ∃ regions parent, n.id = id ∧ op = (n.map θ θ).op regions parent := by
  have hid := h.models.cover id op hop
  rw [allIds_nil, List.append_nil, Code.relabel, allIds_map] at hid
  obtain ⟨n, hn, rfl⟩ := List.mem_map.mp hid
  obtain ⟨parent, args, hnode⟩ := h.hasNode hn
  obtain ⟨regions, hop', -⟩ := hnode.get?
  exact ⟨n, hn, regions, parent, rfl, Option.some.inj (hop.symm.trans hop')⟩

theorem replaceLoops_idle (h : m.Renders (· ≠ .forLoop) c) : Edit.replaceLoops m = .ok 0 m := by
  have hnone : m.walk.filter (fun id => (m.get? id).any fun op => op.kind = .forLoop) = [] := by
    rw [h.models.walk_filter fun kind => kind = .forLoop, List.map_eq_nil_iff, List.filter_eq_nil_iff]
    intro n hn
    simpa using h.kinds n hn
  have hquery : Edit.query (fun m => .ok (m.walk.filter fun id => (m.get? id).any (·.kind = .forLoop))) m =
      .ok [] m := by
    simp only [Edit.query, hnone]
  exact Action.bind_ok hquery

end Idle

section Library

/-- An operation that is kept under all types that agree with `types` on the names below `N`. -/
def Node.Settled (N : Nat) (types : Types) (n : Node) : Prop :=
  ∀ types' : Types, (∀ x ∈ n.operands, x.index < N → types' x = types x) → n.libraryUse types' = .ok .keep

theorem LibraryCode.settled {types : Types} {e : Code} (h : LibraryCode types n e)
    (hold : ∀ x ∈ n.operands, x.index < N) (hn' : n' ∈ e.nodes) : n'.Settled N types := by
  intro types' htypes
  cases h with
  | keep h =>
    obtain rfl := List.mem_singleton.mp hn'
    rw [← h, Node.libraryUse, Node.libraryUse]
    congr 1
    refine List.map_congr_left fun x hx => ?_
    rw [Types.operand, Types.operand, htypes x hx (hold x hx)]
  | call routine h =>
    obtain rfl := List.mem_singleton.mp hn'
    obtain ⟨hprint, hinput⟩ := (LibraryUse.ofOp_call h).2
    exact LibraryUse.ofOp_routine_keep hprint hinput _
  | negated routine h id₁ id₂ equal r hr =>
    obtain ⟨hprint, hinput⟩ := LibraryUse.ofOp_routine h
    rcases List.mem_cons.mp hn' with rfl | hn'
    · exact LibraryUse.ofOp_routine_keep hprint hinput _
    · obtain rfl := List.mem_singleton.mp hn'
      rfl

theorem replaceLibraryUses_idle {m : Module} (h : m.Renders (· ≠ .forLoop) c)
    (hrun : Edit.replaceLibraryUses m = .ok k m') :
    Edit.replaceLibraryUses m' = .ok 0 m' := by
  obtain ⟨c₁, θ, hmaps, hnamed, htyped, -⟩ := h.replaceLibraryUses hrun
  have hsettled : ∀ n' ∈ c₁.nodes, n'.Settled m.values.size m.types :=
    hmaps.forall_nodes (K := (· ∈ c.nodes))
      (fun n _ hregions types' _ => LibraryUse.ofOp_hasRegions hregions _)
      (h.functions.fits fun _ _ _ => trivial)
      (fun n e he hn n' hn' => he.settled (fun x hx => h.use_lt (List.mem_flatMap.mpr ⟨n, hn, hx⟩)) hn')
        fun n hn => hn
  have hquery : Edit.query (fun m => .ok m.walk) m' = .ok m'.walk m' := rfl
  apply (Action.bind_ok hquery).trans
  refine Edit.visit_idle (fun id op hop => ?_) _
  obtain ⟨n', hn', regions, parent, rfl, rfl⟩ := hnamed.exists_node hop
  refine replaceLibraryUse_keep hop (fun x hx => hnamed.operand_lt hn' hx) ?_
  have hkeep := hsettled n' hn' (fun x => m'.types (θ x)) fun x hx hlt =>
    htyped x hlt (hnamed.closed x (List.mem_flatMap.mpr ⟨n', hn', hx⟩))
  rw [← hkeep, Node.libraryUse]
  simp only [Node.op, Node.map, List.map_map]
  rfl

end Library

section Sums

variable {N : Nat} {m : Module} {θ : ValueId → ValueId} {C : Context} {n : Node} {rest c c₀ e : Code}
  {d : Code}

theorem Code.IsSum.mono (h : c.IsSum n) (hsub : c.nodes ⊆ d.nodes) : d.IsSum n := by
  obtain ⟨hkind, x, y, j, k, hoperands, ⟨n₁, hn₁, hx⟩, ⟨n₂, hn₂, hy⟩⟩ := h
  exact ⟨hkind, x, y, j, k, hoperands, ⟨n₁, hsub hn₁, hx⟩, ⟨n₂, hsub hn₂, hy⟩⟩

theorem FoldCode.pures (h : FoldCode c n e) : e.uses ⊆ n.operands ∧ e.results = n.results := by
  cases h with
  | keep => simp
  | sum id x y j k r hkind hoperands hr hx hy => simp [Node.results, hr]

theorem FoldCode.isSum (h : FoldCode d n e) (hout : n.kind.isPure → ∀ v ∈ n.results, v ∉ C.uses)
    (hn' : n' ∈ C.nodes) (hsum : (C.plug (e ++ rest)).IsSum n') : (C.plug (.leaf n rest)).IsSum n' := by
  cases h with
  | keep => exact hsum
  | sum id x y j k r hkind hoperands hr hx hy =>
    have hv : r.value ∉ C.uses := hout (by rw [hkind]; rfl) r.value (by simp [Node.results, hr])
    have hliteral {x : ValueId} {i : Int32} (hx : x ∈ n'.operands)
        (h : (C.plug (.leaf ⟨id, .literal (.int (j + k)), [], some ⟨r.value, .plain .int⟩⟩ .nil ++
          rest)).HasLiteral x i) :
        (C.plug (.leaf n rest)).HasLiteral x i := by
      obtain ⟨n₁, hn₁, hlit, ty, hr₁⟩ := h
      refine ⟨n₁, ?_, hlit, ty, hr₁⟩
      rw [(C.nodes_plug _).mem_iff, List.mem_append] at hn₁ ⊢
      refine hn₁.imp_right fun hn₁ => ?_
      rcases List.mem_cons.mp hn₁ with rfl | hn₁
      · cases hr₁
        exact absurd (List.mem_flatMap.mpr ⟨n', hn', hx⟩) hv
      · exact List.mem_cons_of_mem _ hn₁
    obtain ⟨hadd, x, y, i, l, hxy, hi, hl⟩ := hsum
    exact ⟨hadd, x, y, i, l, hxy, hliteral (by simp [hxy]) hi, hliteral (by simp [hxy]) hl⟩

/-- Once the sums of code are folded, no operation of it is a sum of literals, and no other operation has
become one. -/
theorem foldSums_all (hfits : c.Fits fun n => n.kind = .binary .add → ∃ r, n.result = some r)
    (h : Named N m θ (C.plug c)) (hI : Traced N c₀ θ (C.plug c)) (hnodup₀ : c₀.results.Nodup)
    (hold : ∀ v ∈ c.results, v.index < N) (hlocal : c.Local) (hout : ∀ v ∈ c.pures, v ∉ C.uses) (k : Nat) :
    ∃ k' m' θ' c', c.allIds.foldlM (Edit.visit Edit.foldSum) k m = .ok k' m' ∧ Named N m' θ' (C.plug c') ∧
      Traced N c₀ θ' (C.plug c') ∧ c'.uses ⊆ c.uses ∧ (∀ n ∈ c'.nodes, ¬ (C.plug c').IsSum n) ∧
      ∀ n ∈ C.nodes, (C.plug c').IsSum n → (C.plug c).IsSum n := by
  induction c generalizing m θ C k with
  | nil => exact ⟨k, m, θ, .nil, rfl, h, hI, fun _ hv => hv, nofun, fun _ _ hsum => hsum⟩
  | leaf n rest ih =>
    simp only [results_leaf, List.forall_mem_append] at hold
    obtain ⟨b, m₁, θ₁, e, hrun, h₁, hI₁, he, hsum, -⟩ := foldSum_run h hI hnodup₀ hfits.1 hold.1
    obtain ⟨huses, -⟩ := he.pures
    have hrest : ∀ v ∈ rest.pures, v ∉ (C.after e).uses := by
      intro v hv
      have hv' : v ∈ (Code.leaf n rest).pures := by simp [Code.pures, hv]
      rw [Context.uses_after, List.mem_append, not_or]
      exact ⟨hout v hv', fun hve => hlocal.1 v hv' (huses hve)⟩
    obtain ⟨k', m', θ', rest', hrun', h', hI', huses', hnone, hkept⟩ :=
      ih (C := C.after e) hfits.2 h₁ hI₁ hold.2 hlocal.2 hrest (if b then k + 1 else k)
    refine ⟨k', m', θ', e ++ rest', ?_, h', hI', ?_, ?_, fun n' hn' hs => ?_⟩
    · rw [allIds_leaf, Action.foldlM_cons_ok (Edit.visit_ok h.get?_leaf hrun k), hrun']
    · rw [uses_append, uses_leaf]
      exact List.append_subset.mpr ⟨List.subset_append_of_subset_left _ huses,
        List.subset_append_of_subset_right _ huses'⟩
    · rw [nodes_append, List.forall_mem_append]
      exact ⟨fun n' hn' hs => hsum n' hn' (hkept n' (List.mem_append_right _ hn') hs), hnone⟩
    · refine he.isSum (C := C) (fun hpure v hv => hout v ?_) hn' (hkept n' (List.mem_append_left _ hn') hs)
      simp [Code.pures, hpure, hv]
  | each n args body rest ihb ih =>
    obtain ⟨hkind, hfitsBody, hfitsRest⟩ := hfits
    obtain ⟨hn, hbody, hrest, hlocalBody, hlocalRest⟩ := hlocal
    have hpure := Kind.not_isPure_of_hasRegions hkind
    have hmem : n ∈ (C.plug (.each n args body rest)).nodes := C.mem_nodes_plug List.mem_cons_self
    simp only [Code.pures, resultsOf_each, hpure, Bool.false_eq_true, if_false, List.nil_append,
      List.mem_append] at hout hn
    simp only [results_each, List.forall_mem_append] at hold
    obtain ⟨k₁, m₁, θ₁, body', hrun₁, h₁, hI₁, huses₁, hnone₁, hkept₁⟩ :=
      ihb (C := C.each n args rest) hfitsBody h hI hold.2.1 hlocalBody (fun v hv => by grind) k
    obtain ⟨k₂, m₂, θ₂, rest', hrun₂, h₂, hI₂, huses₂, hnone₂, hkept₂⟩ :=
      ih (C := C.after (.each n args body' .nil)) hfitsRest h₁ hI₁ hold.2.2 hlocalRest
        (fun v hv => by have := @huses₁ v; grind) k₁
    refine ⟨k₂, m₂, θ₂, .each n args body' rest', ?_, h₂, hI₂, ?_, ?_, fun n' hn' hs => ?_⟩
    · rw [allIds_each, Action.foldlM_cons_ok ((rewriting_foldSums N hnodup₀).visit_skip h hmem hkind k),
        Action.foldlM_append_ok hrun₁, hrun₂]
    · simp only [uses_each]
      exact fun v hv => by have := @huses₁ v; have := @huses₂ v; grind
    · simp only [nodes, List.forall_mem_cons, List.forall_mem_append]
      refine ⟨fun hs => ?_, fun n' hn' hs => hnone₁ n' hn'
        (hkept₂ n' (by simp [Context.nodes, nodes, hn']) hs), hnone₂⟩
      rw [hs.1] at hkind
      cases hkind
    · exact hkept₁ n' (by simp [Context.nodes, hn']) (hkept₂ n' (by simp [Context.nodes, hn']) hs)
  | fork n first second rest iha ihb ih =>
    obtain ⟨hkind, hfitsFirst, hfitsSecond, hfitsRest⟩ := hfits
    obtain ⟨hn, hfirst, hsecond, hrest, hlocalFirst, hlocalSecond, hlocalRest⟩ := hlocal
    have hpure := Kind.not_isPure_of_hasRegions hkind
    have hmem : n ∈ (C.plug (.fork n first second rest)).nodes := C.mem_nodes_plug List.mem_cons_self
    simp only [Code.pures, resultsOf_fork, hpure, Bool.false_eq_true, if_false, List.nil_append,
      List.mem_append] at hout hn hfirst hsecond hrest
    simp only [results_fork, List.forall_mem_append] at hold
    obtain ⟨k₁, m₁, θ₁, first', hrun₁, h₁, hI₁, huses₁, hnone₁, hkept₁⟩ :=
      iha (C := C.first n second rest) hfitsFirst h hI hold.2.1 hlocalFirst (fun v hv => by grind) k
    obtain ⟨k₂, m₂, θ₂, second', hrun₂, h₂, hI₂, huses₂, hnone₂, hkept₂⟩ :=
      ihb (C := C.second n first' rest) hfitsSecond h₁ hI₁ hold.2.2.1 hlocalSecond
        (fun v hv => by have := @huses₁ v; grind) k₁
    obtain ⟨k₃, m₃, θ₃, rest', hrun₃, h₃, hI₃, huses₃, hnone₃, hkept₃⟩ :=
      ih (C := C.after (.fork n first' second' .nil)) hfitsRest h₂ hI₂ hold.2.2.2 hlocalRest
        (fun v hv => by have := @huses₁ v; have := @huses₂ v; grind) k₂
    refine ⟨k₃, m₃, θ₃, .fork n first' second' rest', ?_, h₃, hI₃, ?_, ?_, fun n' hn' hs => ?_⟩
    · rw [allIds_fork, Action.foldlM_cons_ok ((rewriting_foldSums N hnodup₀).visit_skip h hmem hkind k),
        Action.foldlM_append_ok hrun₁, Action.foldlM_append_ok hrun₂, hrun₃]
    · simp only [uses_fork]
      exact fun v hv => by have := @huses₁ v; have := @huses₂ v; have := @huses₃ v; grind
    · simp only [nodes, List.forall_mem_cons, List.forall_mem_append]
      refine ⟨fun hs => ?_, fun n' hn' hs => hnone₁ n' hn' ?_, fun n' hn' hs => hnone₂ n' hn' ?_, hnone₃⟩
      · rw [hs.1] at hkind
        cases hkind
      · exact hkept₂ n' (by simp [Context.nodes, hn']) (hkept₃ n' (by simp [Context.nodes, nodes, hn']) hs)
      · exact hkept₃ n' (by simp [Context.nodes, nodes, hn']) hs
    · exact hkept₁ n' (by simp [Context.nodes, hn'])
        (hkept₂ n' (by simp [Context.nodes, hn']) (hkept₃ n' (by simp [Context.nodes, hn']) hs))

def Module.NoSums (m : Module) : Prop := ∀ id op, m.get? id = some op → m.literalSum? op = none

theorem Named.noSums_iff (h : Named N m θ c) : m.NoSums ↔ ∀ n ∈ c.nodes, ¬ c.IsSum n := by
  constructor
  · intro hsums n hn
    obtain ⟨parent, args, hnode⟩ := h.hasNode hn
    obtain ⟨regions, hop, -⟩ := hnode.get?
    exact (h.literalSum?_eq_none hn regions parent).mp (hsums _ _ hop)
  · intro hsums id op hop
    obtain ⟨n, hn, regions, parent, -, rfl⟩ := h.exists_node hop
    exact (h.literalSum?_eq_none hn regions parent).mpr (hsums n hn)

theorem Module.NoSums.foldSums_idle (h : m.NoSums) : Edit.foldSums m = .ok 0 m := by
  have hquery : Edit.query (fun m => .ok m.walk) m = .ok m.walk m := rfl
  refine (Action.bind_ok hquery).trans (Edit.visit_idle (fun id op hop => ?_) _)
  have hsum : Edit.query (fun m => .ok (m.literalSum? op)) m = .ok none m := by
    simp only [Edit.query, h id op hop]
  exact (Action.bind_ok (Edit.op_run hop)).trans (Action.bind_ok hsum)

theorem Module.Renders.noSums {K : Kind → Prop} (h : m.Renders K c) (hrun : Edit.foldSums m = .ok k m') :
    m'.NoSums := by
  have hlocal : c.Local := h.scope.isLocal h.named.nodup (fun v hv ha => h.named.arg_ne ha hv rfl) fun _ _ =>
    not_false
  obtain ⟨k', m'', θ', c', hrun', h', -, -, hnone, -⟩ := foldSums_all (C := .top) h.fits_adds h.named
    (fun n hn => .inl ⟨hn, fun _ _ => rfl⟩) h.named.nodup h.result_lt hlocal (by simp) 0
  have hwalk : m.walk = c.allIds := h.models.walk
  have hquery : Edit.query (fun m => .ok m.walk) m = .ok c.allIds m := by simp only [Edit.query, hwalk]
  cases (Action.bind_ok hquery).symm.trans hrun |>.symm.trans hrun'
  exact h'.noSums_iff.mpr hnone

end Sums

section Dead

variable {N : Nat} {m : Module} {θ : ValueId → ValueId} {c : Code} {ε σ α : Type} {count : Nat}

theorem Code.sweep_used (hfits : c.Fits fun _ => True) (hn : n ∈ c.sweep.nodes) (hpure : n.kind.isPure) :
    ∀ v ∈ n.results, v ∈ c.sweep.uses := by
  intro v hv
  induction c with
  | nil => cases hn
  | leaf n' rest ih =>
    rw [sweep] at hn ⊢
    split at hn
    next hdead =>
      rw [if_pos hdead]
      exact ih hfits.2 hn
    next hused =>
      rw [if_neg hused, uses_leaf, List.mem_append]
      refine .inr ?_
      obtain rfl | hn := List.mem_cons.mp hn
      · obtain ⟨r, hr, rfl⟩ : ∃ r ∈ n.result, r.value = v := by simpa [Node.results] using hv
        by_contra hout
        exact hused ⟨hpure, r, hr, hout⟩
      · exact ih hfits.2 hn
  | each n' args body rest ihb ih =>
    obtain ⟨hkind, hbody, hrest⟩ := hfits
    simp only [sweep, nodes, uses_each, List.mem_cons, List.mem_append] at hn ⊢
    obtain rfl | hn | hn := hn
    · simp [Kind.not_isPure_of_hasRegions hkind] at hpure
    · exact .inr (.inl (ihb hbody hn))
    · exact .inr (.inr (ih hrest hn))
  | fork n' first second rest iha ihb ih =>
    obtain ⟨hkind, hfirst, hsecond, hrest⟩ := hfits
    simp only [sweep, nodes, uses_fork, List.mem_cons, List.mem_append] at hn ⊢
    obtain rfl | hn | hn | hn := hn
    · simp [Kind.not_isPure_of_hasRegions hkind] at hpure
    · exact .inr (.inl (iha hfirst hn))
    · exact .inr (.inr (.inl (ihb hsecond hn)))
    · exact .inr (.inr (.inr (ih hrest hn)))

def Module.NoneDead (m : Module) : Prop := ∀ id op, m.get? id = some op → m.isDead op = false

theorem Named.noneDead (h : Named N m θ c.sweep) (hfits : c.Fits fun _ => True) : m.NoneDead := by
  intro id op hop
  obtain ⟨n, hn, regions, parent, -, rfl⟩ := h.exists_node hop
  by_contra hdead
  rw [Bool.not_eq_false, isDead, Bool.and_eq_true] at hdead
  obtain ⟨hunused, hpure⟩ := hdead
  obtain ⟨r, hr, hno⟩ : ∃ r ∈ n.result, m.usersOf (θ r.value) = [] := by
    simpa [Node.op, Node.map, hasUsers, Option.any_eq_true] using hunused
  have hv : r.value ∈ n.results := by simp_all [Node.results]
  have hresult : r.value ∈ c.sweep.results := List.mem_flatMap.mpr ⟨n, hn, hv⟩
  exact (h.usersOf_eq_nil hresult).mp hno (sweep_used hfits hn hpure _ hv)

theorem Action.foldlM_idle {β : Type} {g : β → α → EStateM ε σ β} {b b' : β} {s s' : σ} {xs : List α}
    (h : ∀ x b₁ s₁, g b x s = .ok b₁ s₁ → b₁ = b ∧ s₁ = s) (hrun : xs.foldlM g b s = .ok b' s') :
    b' = b ∧ s' = s := by
  induction xs with
  | nil =>
    cases hrun
    exact ⟨rfl, rfl⟩
  | cons x xs ih =>
    rw [List.foldlM_cons] at hrun
    obtain ⟨b₁, s₁, hfirst, hrest⟩ := Action.bind_eq_ok.mp hrun
    obtain ⟨rfl, rfl⟩ := h x b₁ s₁ hfirst
    exact ih hrest

theorem Action.mapM_idle {g : α → EStateM ε σ Nat} {counts : List Nat} {s s' : σ} {xs : List α}
    (h : ∀ x k s₁, g x s = .ok k s₁ → k = 0 ∧ s₁ = s) (hrun : xs.mapM g s = .ok counts s') :
    counts.sum = 0 ∧ s' = s := by
  induction xs generalizing counts s' with
  | nil =>
    cases hrun
    exact ⟨rfl, rfl⟩
  | cons x xs ih =>
    rw [List.mapM_cons] at hrun
    obtain ⟨k, s₁, hfirst, hrun₁⟩ := Action.bind_eq_ok.mp hrun
    obtain ⟨rfl, rfl⟩ := h x k s₁ hfirst
    obtain ⟨counts', s₂, hrest, hrun₂⟩ := Action.bind_eq_ok.mp hrun₁
    obtain ⟨hsum, rfl⟩ := ih hrest
    cases hrun₂
    exact ⟨by simp [hsum], rfl⟩

theorem Module.NoneDead.dropStep_idle (h : m.NoneDead) {count' : Nat}
    (hnested : ∀ place n m₁, Edit.dropDeadWithin k place m = .ok n m₁ → n = 0 ∧ m₁ = m)
    (hrun : Edit.dropStep k count id m = .ok count' m') : count' = count ∧ m' = m := by
  have hlive := Edit.query_live (m := m) id
  cases hop : m.get? id with
  | none =>
    rw [hop] at hlive
    cases (Action.bind_ok hlive).symm.trans hrun
    exact ⟨rfl, rfl⟩
  | some op =>
    rw [hop] at hlive
    have hrun' := ((Action.bind_ok hlive).trans (Action.bind_ok (Edit.op_run hop))).symm.trans hrun
    obtain ⟨counts, m₁, hcounts, -⟩ := Action.bind_eq_ok.mp hrun'
    obtain ⟨hsum, rfl⟩ := Action.mapM_idle (fun index => hnested (.nested id index)) hcounts
    rw [Edit.dropStep_run k count hop hcounts hop, h id op hop] at hrun
    cases hrun
    exact ⟨by omega, rfl⟩

theorem Module.NoneDead.dropDeadWithin_idle (h : m.NoneDead) {place : Place}
    (hrun : Edit.dropDeadWithin k place m = .ok count m') :
    count = 0 ∧ m' = m := by
  induction k generalizing place count m' with
  | zero => cases hrun
  | succ k ih =>
    obtain ⟨region, m₁, hquery, hrest⟩ := Action.bind_eq_ok.mp hrun
    obtain rfl : m₁ = m := by
      unfold Edit.query at hquery
      split at hquery <;> cases hquery
      rfl
    exact Action.foldlM_idle (fun id _ _ => h.dropStep_idle fun _ _ _ hrun => ih hrun) hrest

theorem Module.Renders.optimize_idle (h : m.Renders Kind.flattens c) {level : Nat} (hlevel : level ≠ 0)
    {savings : Savings} (hrun : Edit.optimize level m = .ok savings m') (level' : Nat) :
    Edit.optimize level' m' = .ok {} m' := by
  obtain ⟨folded, m₁, c₁, θ, hfold, -, -, hnamed₁, hfunctions, hscope⟩ := h.foldSums
  have hfits : c₁.Fits fun _ => True := hfunctions.fits fun _ _ _ => trivial
  obtain ⟨eliminated, m₂, hdrop, hnamed⟩ := dropDead_named hfits hnamed₁ hscope
  rw [Edit.optimize, if_neg hlevel] at hrun
  cases ((Action.bind_ok hfold).trans (Action.bind_ok hdrop)).symm.trans hrun
  have hsums : m'.NoSums := by
    refine hnamed.noSums_iff.mpr fun n hn hsum => ?_
    exact hnamed₁.noSums_iff.mp (h.noSums hfold) n (mem_nodes_sweep hn) (hsum.mono fun _ => mem_nodes_sweep)
  obtain ⟨count, m₃, hdrop', -⟩ :=
    dropDead_named (hfunctions.sweep.fits fun _ _ _ => trivial) hnamed hscope.sweep
  obtain ⟨rfl, rfl⟩ := (hnamed.noneDead hfits).dropDeadWithin_idle hdrop'
  rw [Edit.optimize]
  split
  · rfl
  · exact (Action.bind_ok hsums.foldSums_idle).trans (Action.bind_ok hdrop')

end Dead

section Flat

variable {bs : List (String × List Instruction)}

def Observer.returns : Observer Unit := ⟨some (), fun _ => none⟩

theorem Observer.steady_returns : Observer.returns.Steady := ⟨rfl, rfl, rfl, rfl, fun _ _ => rfl, rfl⟩

variable {types : Types} {c : Code}

theorem ReturnCode.trace_ne_nil (h : ReturnCode c) : c.trace .returns ≠ [] := by
  obtain ⟨v, id, id', rfl⟩ := h
  simp [Observer.kind, Observer.returns]

theorem FunctionsTree.returns {names : Names} {path : String} {decls : List Decl}
    (h : FunctionsTree types names path decls c) :
    ∀ t ∈ c.traces .returns, t ≠ [] := by
  induction h with
  | nil => exact List.forall_mem_nil _
  | func _ _ _ _ _ hreturn hinner _ ihInner ih =>
    have hne := hreturn.trace_ne_nil
    rw [traces_append _ hinner.functions, List.forall_mem_append, traces, List.forall_mem_cons]
    exact ⟨ihInner, by simp [hne], ih⟩
  | var _ _ ih | global _ _ ih | «nonlocal» _ _ ih => exact ih

theorem ProgramCode.returns {p : Program} (h : ProgramCode types p c) : ∀ t ∈ c.traces .returns, t ≠ [] := by
  obtain ⟨names₁, names₂, c₁, c₂, c₃, inner, id, rfl, -, -, -, hfunctions, -, hreturn⟩ := h
  have hne := hreturn.trace_ne_nil
  rw [traces, List.forall_mem_cons]
  exact ⟨by simp [hne], hfunctions.tree.returns⟩

variable {m : Module}

theorem flatten_instructions_idle {parent : Option Place} {is : List Instruction} (hreads : c.Reads is)
    (h : m.Holds parent c) (k : Nat) (p : Progress) : c.ids.foldlM (Edit.flattenStep k) p m = .ok p m := by
  induction hreads with
  | nil => rfl
  | leaf id i _ ih =>
    have hop := h.1.get?_leaf
    rw [ids, Action.foldlM_cons_ok
      ((Edit.flattenStep_leaf k p hop rfl).trans (Edit.flattenOp_stays p hop rfl))]
    exact ih h.2

theorem flatten_functions_idle (hbodies : c.Bodies bs) (hfull : ∀ b ∈ bs, b.2 ≠ [])
    (h : m.Holds (some .top) c) (hk : c.height ≤ k) (p : Progress) :
    c.ids.foldlM (Edit.flattenStep k) p m = .ok p m := by
  induction hbodies with
  | nil => rfl
  | @function id label ty args body rest is bs hreads _ ih =>
    obtain ⟨hnode, hids, hbody, hrest⟩ := h
    obtain ⟨hne, hfull⟩ := List.forall_mem_cons.mp hfull
    have hop := hnode.regions_each hids
    have hbodyIds : body.ids ≠ [] := by
      cases hreads with
      | nil => exact absurd rfl hne
      | leaf => exact List.cons_ne_nil _ _
    cases k with
    | zero => simp [Code.height] at hk
    | succ k =>
      simp only [Code.height] at hk
      have hrun := flatten_instructions_idle hreads hbody k p
      rw [← Edit.flattenWithin_run hids] at hrun
      have hstep := (Edit.flattenStep_ok hop (by simpa [Node.op] using hbodyIds)
        (Action.foldlM_cons_ok hrun)).trans (Edit.flattenOp_stays p hop rfl)
      rw [ids, Action.foldlM_cons_ok hstep]
      exact ih hfull hrest (by omega)

theorem Module.Models.flatten_idle (h : m.Models c .nil) (hbodies : c.Bodies bs)
    (hfull : ∀ b ∈ bs, b.2 ≠ []) :
    Edit.flatten m = .ok 0 m := by
  have hheight : c.height ≤ m.slots.size := Nat.lt_succ_iff.mp h.height_lt
  have hrun := flatten_functions_idle hbodies hfull h.holds hheight {}
  rw [← Edit.flattenWithin_run h.top] at hrun
  exact Action.bind_ok hrun

end Flat

end IR

namespace Options

open IR (Edit Module Observer)

variable {options : Options} {p : Program} {m : Module}

theorem Checkpoint.flatten_idle (h : options.Checkpoint p .flattening m) : Edit.flatten m = .ok 0 m := by
  obtain ⟨m₀, c, c', bs, hstage, hmodels, hbodies, -, -, htraces⟩ := h.exists_bodies
  obtain ⟨types, c₀, hcode, heq⟩ := hstage.traces_eq Observer.steady_returns
  refine hmodels.flatten_idle hbodies fun b hb hnil => ?_
  have hmem : Observer.returns.trace b.2 ∈ c₀.traces .returns := by
    rw [← heq, ← htraces _ Observer.steady_returns]
    exact List.mem_map_of_mem hb
  exact hcode.returns _ hmem (by rw [hnil]; rfl)

/-- Each pass, run again on the module that it left, succeeds, changes nothing and counts nothing. -/
theorem rerun_idle (options : Options) (p : Program) :
    (∀ m, options.Checkpoint p .loops m → Edit.replaceLoops m = .ok 0 m) ∧
      (∀ m, options.Checkpoint p .libraryUses m → Edit.replaceLibraryUses m = .ok 0 m) ∧
      (1 ≤ options.optLevel → ∀ m, options.Checkpoint p .optimization m →
        Edit.optimize options.optLevel m = .ok { folded := 0, eliminated := 0 } m) ∧
      ∀ m, options.Checkpoint p .flattening m → Edit.flatten m = .ok 0 m := by
  refine ⟨fun m h => ?_, fun m h => ?_, fun hlevel m h => ?_, fun m h => h.flatten_idle⟩
  · obtain ⟨c, h⟩ := h.exists_stageCode nofun
    exact IR.replaceLoops_idle h.renders_loops
  · cases h with
    | libraryUses h hrun =>
      obtain ⟨c, h⟩ := h.exists_stageCode nofun
      exact IR.replaceLibraryUses_idle h.renders_loops hrun
  · cases h with
    | optimization h hrun =>
      obtain ⟨c, h⟩ := h.exists_stageCode nofun
      exact h.renders_libraryUses.optimize_idle (Nat.one_le_iff_ne_zero.mp hlevel) hrun _

/-- A program with work for every pass: a loop over the string `"ab"` with `print(1 + 2)` in it. -/
def loopedSum : Program where
  decls := [.var ⟨"c", .str, .str ""⟩]
  stmts := [.forLoop "c" (.literal (.str "ab") .str)
    [.expr (.call "print" [.binary .add (.literal (.int 1) .int) (.literal (.int 2) .int) .int] .none)]]

theorem rerun_loopedSum :
    ∃ m₁ m₂ m₃ m₄, ({} : Options).Checkpoint loopedSum .loops m₁ ∧ Edit.replaceLoops m₁ = .ok 0 m₁ ∧
      ({} : Options).Checkpoint loopedSum .libraryUses m₂ ∧ Edit.replaceLibraryUses m₂ = .ok 0 m₂ ∧
      ({} : Options).Checkpoint loopedSum .optimization m₃ ∧
        Edit.optimize 1 m₃ = .ok { folded := 0, eliminated := 0 } m₃ ∧
      ({} : Options).Checkpoint loopedSum .flattening m₄ ∧ Edit.flatten m₄ = .ok 0 m₄ := by
  have hok : (({} : Options).compile loopedSum).isOk := by decide +kernel
  cases hr : ({} : Options).compile loopedSum with
  | error e =>
    rw [hr] at hok
    cases hok
  | ok r =>
    obtain ⟨hloops, hlibrary, hoptimize, hflatten⟩ := rerun_idle {} loopedSum
    obtain ⟨m₄, h₄, -⟩ := exists_checkpoint_of_compile hr
    cases id h₄ with
    | @flattening m₃ _ _ h₃ _ =>
      cases id h₃ with
      | @optimization m₂ _ _ h₂ _ =>
        cases id h₂ with
        | @libraryUses m₁ _ _ h₁ _ =>
          exact ⟨m₁, m₂, m₃, m₄, h₁, hloops m₁ h₁, h₂, hlibrary m₂ h₂, h₃, hoptimize (Nat.le_refl 1) m₃ h₃,
            h₄, hflatten m₄ h₄⟩

end Options

end Choco
