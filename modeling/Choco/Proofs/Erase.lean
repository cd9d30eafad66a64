import Choco.Proofs.Take

namespace Choco.IR.Module

variable {m : Module} {C : Context} {n : Node} {rest c d : Code}

theorem Models.setKind (h : m.Models (C.plug (.leaf n rest)) .nil) (kind : Kind) :
    ∃ m', Edit.setKind n.id kind m = .ok () m' ∧ m'.Models (C.plug (.leaf { n with kind } rest)) .nil ∧
      m'.values = m.values := by
  obtain ⟨haround, hnode, hrest⟩ := h.around
  have hnodup := h.nodup_plug
  rw [Code.allIds_leaf, Code.allIds_nil, List.append_nil] at hnodup
  obtain ⟨-, hinner, hapart⟩ := List.nodup_append.mp hnodup
  obtain ⟨hn, -⟩ := List.nodup_cons.mp hinner
  have hnC {id : OpId} (hid : id ∈ C.allIds) : id ≠ n.id := fun he => hapart id hid n.id (by simp) he
  refine ⟨_, Edit.updateOp_run _ hnode.get?_leaf, ?_, rfl⟩
  generalize hm' : m.updateOp n.id (fun op => { op with kind }) = m'
  have hvalues : m'.values = m.values := by rw [← hm', values_updateOp]
  have hget (id : OpId) : m'.get? id = if id = n.id then (m.get? n.id).map fun op => { op with kind }
      else m.get? id := by
    rw [← hm', get?_updateOp]
  have hhead {id : OpId} (hne : id ≠ n.id) : m'.head? id = (m.head? id).map (Op.rename fun v => v) := by
    rw [head?, hget, if_neg hne, Op.rename_id, Option.map_id', head?]
  have hops (q : Place) : m'.ops? q = m.ops? q := by
    cases q with
    | top => rw [← hm']; rfl
    | nested id index =>
      rw [ops?, hget, ops?]
      split
      next he => rw [he]; cases m.get? n.id <;> rfl
      next => rfl
  have hsettles : Settles m.values m'.values := hvalues.symm ▸ .refl _
  have hmodels : m'.Models ((C.rename fun v => v).plug (.leaf { n with kind } rest)) .nil := by
    refine h.refill (fun v => v) ?_ hsettles ?_ (fun id hid => hhead (hnC hid)) (fun q _ _ => hops q) ?_
      ⟨⟨?_, ?_⟩, ?_⟩ trivial (fun id => ?_) (fun v => ?_) (fun id op hop => ?_)
    · rw [← hm']
      exact h.sound.updateOp _ _ (fun _ _ => rfl) fun _ _ => rfl
    · rw [← hm', body_updateOp]
    · rw [hops, haround.here]
      rfl
    · simp only [head?, hget, if_true, hnode.get?_leaf]
      rfl
    · exact fun r hr => hvalues.symm ▸ hnode.value r hr
    · rw [← Code.rename_id rest]
      exact hrest.frame (fun id hid => hhead fun he => hn (he ▸ hid)) (fun id _ index => hops _) hsettles
    · exact Nat.le_refl _
    · simp only [Code.results_leaf, Node.results, Code.results_nil, List.append_nil]
      exact Nat.le_refl _
    · rw [hget] at hop
      have hlive : ∃ old, m.get? id = some old := by
        split at hop
        next he =>
          obtain ⟨old, hold, -⟩ := Option.map_eq_some_iff.mp hop
          exact ⟨old, he ▸ hold⟩
        next => exact ⟨op, hop⟩
      obtain ⟨old, hold⟩ := hlive
      exact h.cover_plug hold
  rwa [Context.rename_id] at hmodels

theorem filter_ne {id : OpId} {before after : List OpId} (hbefore : id ∉ before) (hafter : id ∉ after) :
    (before ++ id :: after).filter (· ≠ id) = before ++ after := by
  rw [List.filter_append, List.filter_cons_of_neg (by simp), List.filter_eq_self.mpr, List.filter_eq_self.mpr]
  · exact fun a ha => by simpa using fun (he : a = id) => hafter (he ▸ ha)
  · exact fun a ha => by simpa using fun (he : a = id) => hbefore (he ▸ ha)

theorem Models.erase (h : m.Models (C.plug (.leaf n rest)) .nil)
    (hunused : ∀ v ∈ n.results, m.usersOf v = []) :
    ∃ m', Edit.erase n.id m = .ok () m' ∧ m'.Models (C.plug rest) .nil ∧ m'.values = m.values := by
  obtain ⟨haround, hnode, hrest⟩ := h.around
  have hnodup := h.nodup_plug
  rw [Code.allIds_leaf, Code.allIds_nil, List.append_nil] at hnodup
  obtain ⟨-, hinner, hapart⟩ := List.nodup_append.mp hnodup
  obtain ⟨hn, -⟩ := List.nodup_cons.mp hinner
  have hnC {id : OpId} (hid : id ∈ C.allIds) : id ≠ n.id := fun he => hapart id hid n.id (by simp) he
  have hplace : C.place.owner? ≠ some n.id := fun ho => hnC (Context.owner_mem ho) rfl
  have hlist : m.ops? C.place = some (C.earlier ++ n.id :: rest.ids) := haround.here
  obtain ⟨r, hr, -⟩ := region_eq_ok_of_ops? hlist
  have hunused' : ∀ v, n.result.map Def.value = some v → m.usersOf v = [] := fun v hv =>
    hunused v (by simp [Node.results, hv])
  have hrun : Edit.erase n.id m =
      .ok () (Edit.released (m.relist C.place fun ids => ids.filter (· ≠ n.id)) n.id
        (n.op [] (some C.place))) :=
    Edit.eraseWithin_run _ hnode.get?_leaf hunused' (by simp [Node.op])
      (fun p hp => Option.some.inj hp ▸ ⟨r, hr⟩) fun index hp => hplace (Option.some.inj hp ▸ rfl)
  refine ⟨_, hrun, ?_, values_relist _ _⟩
  have hself := (get?_relist (fun ids => ids.filter (· ≠ n.id)) hplace).trans hnode.get?_leaf
  generalize hm₁ : (m.relist C.place fun ids => ids.filter (· ≠ n.id)) = m₁ at hself
  have hvalues : m₁.values = m.values := by simp [← hm₁]
  have hhead {id : OpId} (hne : id ≠ n.id) :
      (Edit.released m₁ n.id (n.op [] (some C.place))).head? id = (m.head? id).map
        (Op.rename fun v => v) := by
    rw [head?_released hself, if_neg hne, ← hm₁, head?_relist, Op.rename_id, Option.map_id']
  have hops {q : Place} (hne : q.owner? ≠ some n.id) :
      (Edit.released m₁ n.id (n.op [] (some C.place))).ops? q =
        if q = C.place then some (C.earlier ++ rest.ids) else m.ops? q := by
    rw [ops?_released hself hne, ← hm₁, ops?_relist, hlist, Option.map_some,
      filter_ne (fun hin => hnC (C.earlier_subset hin) rfl) fun hin => hn (rest.ids_subset_allIds hin)]
  have hsettles : Settles m.values (Edit.released m₁ n.id (n.op [] (some C.place))).values :=
    hvalues.symm ▸ .refl _
  have hmodels : (Edit.released m₁ n.id (n.op [] (some C.place))).Models
      ((C.rename fun v => v).plug rest) .nil := by
    refine h.refill (fun v => v) ?_ hsettles ?_ (fun id hid => hhead (hnC hid))
      (fun q hq hne => ?_) ?_ ?_ trivial (fun id => ?_) (fun v => ?_) (fun id op hop => ?_)
    · rw [← hm₁] at hself ⊢
      exact (sound_relist _ h.sound _).released hself fun v hv => (usersOf_relist _ _ v).trans (hunused' v hv)
    · exact hm₁ ▸ bodyArgs_relist _ _
    · have howner : q.owner? ≠ some n.id := by
        obtain rfl | ⟨id, hid, ho⟩ := hq
        · exact fun he => by cases he
        · rw [ho]
          exact fun he => hnC hid (Option.some.inj he)
      rw [hops howner, if_neg hne]
    · rw [hops hplace, if_pos rfl]
    · rw [← Code.rename_id rest]
      refine hrest.frame (fun id hid => hhead fun he => hn (he ▸ hid)) (fun id hid index => ?_) hsettles
      have howner : (Place.nested id index).owner? ≠ some n.id := fun he => hn (Option.some.inj he ▸ hid)
      rw [hops howner, if_neg]
      intro he
      exact hapart id (Context.owner_mem (he ▸ rfl)) id (by simp [hid]) rfl
    · simp only [Code.allIds_leaf, Code.allIds_nil, List.append_nil, List.count_cons]
      omega
    · simp only [Code.results_leaf, Code.results_nil, List.append_nil, List.count_append]
      omega
    · rw [get?_released hself] at hop
      split at hop
      next => cases hop
      next hne =>
        have hold := head?_relist (m := m) (fun ids => ids.filter (· ≠ n.id)) C.place id
        rw [hm₁, head?, hop, head?] at hold
        obtain ⟨old, hold, -⟩ := Option.map_eq_some_iff.mp hold.symm
        have hall := h.cover_plug hold
        simpa [hne] using hall
  rwa [Context.rename_id] at hmodels

theorem Models.eraseLoose (h : m.Models c (d ++ .leaf n .nil)) (hresult : n.result = none) :
    ∃ m', Edit.erase n.id m = .ok () m' ∧ m'.Models c d ∧ m'.values = m.values := by
  obtain ⟨hd, hnode, -⟩ := holds_append.mp h.loose
  have hself := hnode.get?_leaf
  have hrun : Edit.erase n.id m = .ok () (Edit.released m n.id (n.op [] none)) :=
    Edit.eraseWithin_run _ hself (fun v hv => by simp [Node.op, hresult] at hv) (by simp [Node.op])
      (fun p hp => by cases hp) fun index hp => by cases hp
  have hnodup := h.nodup
  rw [Code.allIds_append, ← List.append_assoc] at hnodup
  obtain ⟨hcd, -, hapart⟩ := List.nodup_append.mp hnodup
  have hne {id : OpId} (hid : id ∈ c.allIds ++ d.allIds) :
      id ≠ n.id := fun he => hapart id hid n.id (by simp) he
  have hhead {id : OpId} (hne : id ≠ n.id) :
      (Edit.released m n.id (n.op [] none)).head? id = (m.head? id).map (Op.rename fun v => v) := by
    rw [head?_released hself, if_neg hne, Op.rename_id, Option.map_id']
  have hkeep {parent : Option Place} {e : Code} (he : m.Holds parent e)
      (hsub : e.allIds ⊆ c.allIds ++ d.allIds) :
      (Edit.released m n.id (n.op [] none)).Holds parent e := by
    rw [← Code.rename_id e]
    refine he.frame (fun id hid => hhead (hne (hsub hid))) (fun id hid index => ?_) (.refl _)
    exact ops?_released hself fun ho => hne (hsub hid) (Option.some.inj ho)
  refine ⟨_, hrun, ⟨?_, ?_, ?_, ?_, hcd, ?_, fun id op hop => ?_, h.noArgs⟩, rfl⟩
  · exact h.sound.released hself fun v hv => by simp [Node.op, hresult] at hv
  · exact (ops?_released hself (q := .top) (by simp [Place.owner?])).trans h.top
  · exact hkeep h.holds (by simp)
  · exact hkeep hd (by simp)
  · have hdistinct := h.distinct
    simpa [Node.results, hresult] using hdistinct
  · rw [get?_released hself] at hop
    split at hop
    next => cases hop
    next hne =>
      have hin := h.cover id op hop
      simpa [hne] using hin

end Choco.IR.Module
