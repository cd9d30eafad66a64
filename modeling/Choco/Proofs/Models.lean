import Choco.Proofs.Context
import Choco.Proofs.Growth

namespace Choco.IR.Module

variable {m m' : Module} {C : Context} {c c' d d' e : Code}

/-- The module is the code `c` and has nothing beside it but `d`, which is in no list. -/
structure Models (m : Module) (c d : Code) : Prop where
  sound : m.Sound
  top : m.ops? .top = some c.ids
  holds : m.Holds (some .top) c
  loose : m.Holds none d
  nodup : (c.allIds ++ d.allIds).Nodup
  distinct : (c.results ++ d.results).Nodup
  cover : ∀ id op, m.get? id = some op → id ∈ c.allIds ++ d.allIds
  noArgs : m.body.args = []

namespace Models

theorem around (h : m.Models (C.plug c) d) : m.Around C c.ids ∧ m.Holds (some C.place) c :=
  holds_plug.mp ⟨h.top, h.holds⟩

theorem nodup_plug (h : m.Models (C.plug c) d) : (C.allIds ++ (c.allIds ++ d.allIds)).Nodup := by
  rw [← List.append_assoc]
  exact ((C.allIds_plug c).append_right _).nodup h.nodup

theorem distinct_plug (h : m.Models (C.plug c) d) : (C.results ++ (c.results ++ d.results)).Nodup := by
  rw [← List.append_assoc]
  exact ((C.results_plug c).append_right _).nodup h.distinct

theorem cover_plug (h : m.Models (C.plug c) d) {id : OpId} {op : Op} (hop : m.get? id = some op) :
    id ∈ C.allIds ∨ id ∈ c.allIds ++ d.allIds := by
  have hid := h.cover id op hop
  rw [List.mem_append, (C.allIds_plug c).mem_iff, List.mem_append] at hid
  simpa [or_assoc] using hid

theorem grow (h : m.Models c d) (he : Extends m m' e) : m'.Models c (d ++ e) where
  sound := he.change.sound
  top := (he.change.lists .top (by simp) (by simp [Place.owner?])).trans h.top
  holds := he.keeps h.holds
  loose := holds_append.mpr ⟨he.keeps h.loose, he.holds⟩
  nodup := by
    rw [Code.allIds_append, ← List.append_assoc, List.nodup_append]
    refine ⟨h.nodup, he.nodup, fun a ha b hb hab => ?_⟩
    subst hab
    obtain ha | ha := List.mem_append.mp ha
    · exact he.apart h.holds ha hb
    · exact he.apart h.loose ha hb
  distinct := by
    rw [Code.results_append, ← List.append_assoc, List.nodup_append]
    refine ⟨h.distinct, he.distinct, fun a ha b hb hab => ?_⟩
    subst hab
    have hlt : a.index < m.values.size := by
      obtain ha | ha := List.mem_append.mp ha
      · exact h.holds.result_lt ha
      · exact h.loose.result_lt ha
    have hle := he.fresh a hb
    omega
  cover id op hop := by
    by_cases hid : id ∈ e.allIds
    · simp [hid]
    · have hhead := he.change.heads id (Set.notMem_empty id) hid
      rw [Op.rename_id, Option.map_id', head?, head?, hop] at hhead
      obtain ⟨old, hold, -⟩ := Option.map_eq_some_iff.mp hhead.symm
      have hin := h.cover id old hold
      rw [Code.allIds_append, ← List.append_assoc]
      exact List.mem_append_left _ hin
  noArgs := he.change.args.trans h.noArgs

theorem wrap {n : Node} {first second : Code} (h : m.Models c (d ++ (first ++ second)))
    (hmade : Made m m' n.id (n.op [{ ops := first.ids }, { ops := second.ids }] none))
    (hresult : NewResult m m' n) :
    m'.Models c (d ++ .fork n first second .nil) := by
  obtain ⟨hd, hinner⟩ := holds_append.mp h.loose
  obtain ⟨hfirst, hsecond⟩ := holds_append.mp hinner
  have hnodup := h.nodup
  simp only [Code.allIds_append] at hnodup
  have hsub : (first.allIds ++ second.allIds).Nodup := hnodup.of_append_right.of_append_right
  have hout {id : OpId} (hid : id ∈ c.allIds ∨ id ∈ d.allIds) : id ∉ first.ids ∧ id ∉ second.ids := by
    have happart {a : OpId} (ha : a ∈ first.allIds ++ second.allIds) : a ≠ id := by
      rintro rfl
      rw [← List.append_assoc] at hnodup
      exact (List.nodup_append.mp hnodup).2.2 a (List.mem_append.mpr hid) a ha rfl
    exact ⟨fun hin => happart (List.mem_append_left _ (first.ids_subset_allIds hin)) rfl,
      fun hin => happart (List.mem_append_right _ (second.ids_subset_allIds hin)) rfl⟩
  have hne {parent : Option Place} {e : Code} (he : m.Holds parent e) {id : OpId} (hid : id ∈ e.allIds) :
      id ≠ n.id := by
    rintro rfl
    obtain ⟨op, hop⟩ := he.live hid
    rw [hmade.dead] at hop
    cases hop
  have hkeep {parent : Option Place} {e : Code} (he : m.Holds parent e)
      (hsub : ∀ id ∈ e.allIds, id ∈ c.allIds ∨ id ∈ d.allIds) : m'.Holds parent e := by
    rw [← Code.rename_id e]
    refine he.frame (fun id hid => ?_) (fun id hid index => ?_) hmade.values
    · have hid' := hout (hsub id hid)
      rw [hmade.head?_kept (hne he hid) (by simp [Node.op, hid']), Op.rename_id, Option.map_id']
    · exact hmade.ops?_kept fun ho => hne he hid (Option.some.inj ho)
  have hnew : n.id ∉ c.allIds ++ (d.allIds ++ (first.allIds ++ second.allIds)) := by
    intro hin
    simp only [List.mem_append] at hin
    rcases hin with hin | hin | hin | hin
    · exact hne h.holds hin rfl
    · exact hne hd hin rfl
    · exact hne hfirst hin rfl
    · exact hne hsecond hin rfl
  have hresults : ∀ v ∈ n.results, v ∉ c.results ++ (d.results ++ (first.results ++ second.results)) := by
    intro v hv hin
    have hindex := hresult.mem_results hv
    have hlt : v.index < m.values.size := by
      simp only [List.mem_append] at hin
      rcases hin with hin | hin | hin | hin
      · exact h.holds.result_lt hin
      · exact hd.result_lt hin
      · exact hfirst.result_lt hin
      · exact hsecond.result_lt hin
    omega
  refine ⟨hmade.sound, ?_, hkeep h.holds fun id hid => .inl hid, holds_append.mpr
    ⟨hkeep hd fun id hid => .inr hid, hmade.holds_fork hresult hfirst hsecond hsub⟩, ?_, ?_,
      fun id op hop => ?_, ?_⟩
  · have hkept : m'.ops? .top = m.ops? .top := hmade.ops?_kept (by simp [Place.owner?])
    exact hkept.trans h.top
  · simp only [Code.allIds_append, Code.allIds_fork, Code.allIds_nil, List.append_nil]
    refine List.Perm.nodup ?_ (List.nodup_cons.mpr ⟨hnew, hnodup⟩)
    rw [List.perm_iff_count]
    intro id
    simp only [List.count_append, List.count_cons]
    omega
  · have hdistinct := h.distinct
    simp only [Code.results_append, Code.results_fork, Code.results_nil, List.append_nil] at hdistinct ⊢
    have hnodup' : (n.results ++ (c.results ++ (d.results ++ (first.results ++ second.results)))).Nodup := by
      refine List.nodup_append.mpr ⟨?_, hdistinct, fun a ha b hb hab => hresults a ha (hab ▸ hb)⟩
      rw [Node.results]
      cases n.result <;> simp
    refine List.Perm.nodup ?_ hnodup'
    rw [List.perm_iff_count]
    intro v
    simp only [List.count_append]
    omega
  · by_cases hid : id = n.id
    · simp [hid]
    · have hold := hmade.others id hid
      rw [hop] at hold
      obtain ⟨old, hold, -⟩ := Option.map_eq_some_iff.mp hold.symm
      have hin := h.cover id old hold
      simp only [Code.allIds_append, Code.allIds_fork, Code.allIds_nil, List.append_nil, List.mem_append,
        List.mem_cons] at hin ⊢
      tauto
  · rw [hmade.body]
    exact h.noArgs

theorem reorder (h : m.Models c d) (hholds : m.Holds none d → m.Holds none d')
    (hids : d.allIds.Perm d'.allIds) (hresults : d.results.Perm d'.results) : m.Models c d' where
  sound := h.sound
  top := h.top
  holds := h.holds
  loose := hholds h.loose
  nodup := (hids.append_left _).nodup h.nodup
  distinct := (hresults.append_left _).nodup h.distinct
  cover id op hop := (hids.append_left _).mem_iff.mp (h.cover id op hop)
  noArgs := h.noArgs

theorem swap {t w : Code} (h : m.Models c (w ++ t ++ e)) : m.Models c (w ++ e ++ t) := by
  refine h.reorder (fun h => ?_) ?_ ?_
  · obtain ⟨hwt, he⟩ := holds_append.mp h
    obtain ⟨hw, ht⟩ := holds_append.mp hwt
    exact holds_append.mpr ⟨holds_append.mpr ⟨hw, he⟩, ht⟩
  · simp only [Code.allIds_append, List.append_assoc]
    exact List.perm_append_comm.append_left _
  · simp only [Code.results_append, List.append_assoc]
    exact List.perm_append_comm.append_left _

theorem refill (h : m.Models (C.plug c) d) (τ : ValueId → ValueId) (hsound : m'.Sound)
    (hvalues : Settles m.values m'.values) (hargs : m'.body.args = m.body.args)
    (hheads : ∀ id ∈ C.allIds, m'.head? id = (m.head? id).map (Op.rename τ))
    (hlists : ∀ q, C.Owns q → q ≠ C.place → m'.ops? q = m.ops? q)
    (hhere : m'.ops? C.place = some (C.earlier ++ c'.ids)) (hholds : m'.Holds (some C.place) c')
    (hloose : m'.Holds none d')
    (hids : ∀ id, (c'.allIds ++ d'.allIds).count id ≤ (c.allIds ++ d.allIds).count id)
    (hresults : ∀ v, (c'.results ++ d'.results).count v ≤ (c.results ++ d.results).count v)
    (hcover : ∀ id op, m'.get? id = some op → id ∈ C.allIds ∨ id ∈ c'.allIds ++ d'.allIds) :
    m'.Models ((C.rename τ).plug c') d' := by
  have hnodup := h.nodup_plug
  have hdistinct := h.distinct_plug
  have haround : m'.Around (C.rename τ) c'.ids :=
    h.around.1.refill (List.nodup_append.mp hnodup).1 hheads hlists hhere hvalues
  obtain ⟨htop, hall⟩ := holds_plug.mpr ⟨haround, by rw [Context.place_rename]; exact hholds⟩
  refine ⟨hsound, htop, hall, hloose, ?_, ?_, fun id op hop => ?_, hargs.trans h.noArgs⟩
  · refine (((C.rename τ).allIds_plug c').append_right _).symm.nodup ?_
    rw [List.nodup_iff_count_le_one] at hnodup ⊢
    intro id
    have := hnodup id
    have := hids id
    simp only [Context.allIds_rename, List.count_append] at *
    omega
  · refine (((C.rename τ).results_plug c').append_right _).symm.nodup ?_
    rw [List.nodup_iff_count_le_one] at hdistinct ⊢
    intro v
    have := hdistinct v
    have := hresults v
    simp only [Context.results_rename, List.count_append] at *
    omega
  · have hid := hcover id op hop
    rw [List.mem_append, ((C.rename τ).allIds_plug c').mem_iff, List.mem_append, Context.allIds_rename]
    simpa [or_assoc] using hid

end Models

end Choco.IR.Module
