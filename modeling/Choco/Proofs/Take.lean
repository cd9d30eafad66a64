import Choco.Proofs.Replace

namespace Choco.IR.Module

variable {m : Module} {C : Context} {n : Node} {body first second rest c d : Code} {id : OpId} {op : Op}
  {ids : List OpId} {index : Nat}

theorem updateOp_congr {f g : Op → Op} (hop : m.get? id = some op) (h : f op = g op) :
    m.updateOp id f = m.updateOp id g := by
  have hs := get?_eq_some.mp hop
  simp only [updateOp, mk.injEq, and_true]
  apply Array.ext_getElem?
  intro i
  rw [Array.getElem?_modify, Array.getElem?_modify]
  split
  next hi => simp [← hi, hs, h]
  next => rfl

theorem HasNode.region {parent : Option Place} {args : List (List ValueId)} {vs : List ValueId}
    (h : m.HasNode parent n args) (hargs : args[index]? = some vs)
    (hids : m.ops? (.nested n.id index) = some ids) :
    m.region (.nested n.id index) = .ok { args := vs, ops := ids } := by
  obtain ⟨regions, hop, hmap⟩ := h.get?
  simp only [ops?, hop, Node.op, Option.bind_some, Option.map_eq_some_iff] at hids
  obtain ⟨⟨args', ops⟩, hr, rfl⟩ := hids
  rw [← hmap, List.getElem?_map, hr] at hargs
  cases hargs
  simp [Module.region, Module.op, hop, Node.op, hr]

theorem takeRegion_run (hr : m.region (.nested id index) = .ok { ops := ids })
    (hlive : ∀ id' ∈ ids, ∃ op, m.get? id' = some op) :
    Edit.takeRegion id index m = .ok { ops := ids }
      ((m.relist (.nested id index) fun _ => []).moved ids none) := by
  have hquery : Edit.query (fun m => m.region (.nested id index)) m = .ok { ops := ids } m := by
    simp [Edit.query, hr]
  have hsame : m.modifyRegion (.nested id index) (fun _ => {}) = m.relist (.nested id index) fun _ => [] := by
    simp only [Module.region, Module.op] at hr
    cases hop : m.get? id with
    | none => simp [hop] at hr
    | some op =>
      refine updateOp_congr hop ?_
      simp only [hop] at hr
      cases hregion : op.regions[index]? with
      | none => simp [hregion] at hr
      | some r =>
        simp only [hregion, Except.ok.injEq] at hr
        subst hr
        simp only [Op.mk.injEq, true_and, and_true]
        apply List.ext_getElem?
        intro i
        rw [List.getElem?_modify, List.getElem?_modify]
        by_cases hi : index = i
        · subst hi
          simp [hregion]
        · simp [hi]
  have hmoved : ∀ id' ∈ ids, ∃ op, (m.relist (.nested id index) fun _ => []).get? id' = some op := by
    intro id' hid'
    obtain ⟨op, hop⟩ := hlive id' hid'
    have hhead := head?_relist (m := m) (fun _ => []) (.nested id index) id'
    rw [head?, head?, hop] at hhead
    obtain ⟨op', hop', -⟩ := Option.map_eq_some_iff.mp hhead
    exact ⟨op', hop'⟩
  have hupdate := Edit.updateRegion_run (fun _ => {}) hr
  rw [hsame] at hupdate
  rw [Edit.takeRegion, Action.bind_ok hquery, Action.bind_ok hupdate,
    Action.bind_ok (Edit.forM_setParent_run none ids hmoved)]
  rfl

theorem Models.take (h : m.Models (C.plug body) d) (hplace : C.place = .nested id index)
    (hearlier : C.earlier = []) (hr : m.region C.place = .ok { ops := body.ids }) :
    ∃ m', Edit.takeRegion id index m = .ok { ops := body.ids } m' ∧ m'.Models (C.plug .nil) (d ++ body) ∧
      m'.values = m.values := by
  obtain ⟨haround, hholds⟩ := h.around
  have hnodup := h.nodup_plug
  obtain ⟨-, hinner, hapart⟩ := List.nodup_append.mp hnodup
  obtain ⟨hbody, -, hbodyd⟩ := List.nodup_append.mp hinner
  have hCbody {id : OpId} (hid : id ∈ C.allIds) : id ∉ body.allIds :=
    fun hin => hapart id hid id (by simp [hin]) rfl
  have hCd {id : OpId} (hid : id ∈ C.allIds) : id ∉ d.allIds :=
    fun hin => hapart id hid id (by simp [hin]) rfl
  rw [hplace] at hr
  refine ⟨_, takeRegion_run hr fun id' hid' => hholds.live (body.ids_subset_allIds hid'), ?_, by simp⟩
  rw [← hplace]
  generalize hm' : (m.relist C.place fun _ => []).moved body.ids none = m'
  have hvalues : m'.values = m.values := by simp [← hm']
  have hhead (id' : OpId) :
      m'.head? id' = if id' ∈ body.ids then (m.head? id').map fun op => { op with parent := none }
        else m.head? id' := by
    rw [← hm', head?_moved, head?_relist]
  have hops (q : Place) : m'.ops? q = if q = C.place then (m.ops? C.place).map fun _ => [] else m.ops? q := by
    rw [← hm', ops?_moved, ops?_relist]
  have hnested {id' : OpId} (hid : id' ∉ C.allIds) (i : Nat) :
      m'.ops? (.nested id' i) = m.ops? (.nested id' i) := by
    rw [hops, if_neg]
    exact fun he => hid (Context.owner_mem (he ▸ rfl))
  have hsettles : Settles m.values m'.values := hvalues.symm ▸ .refl _
  have hkept {id' : OpId} (hid : id' ∉ body.ids) :
      m'.head? id' = (m.head? id').map (Op.rename fun v => v) := by
    rw [hhead, if_neg hid, Op.rename_id, Option.map_id']
  have hmodels : m'.Models ((C.rename fun v => v).plug .nil) (d ++ body) := by
    refine h.refill (fun v => v) ?_ hsettles ?_ (fun id' hid => ?_) (fun q hq hne => ?_) ?_ trivial ?_
      (fun id' => ?_) (fun v => ?_) (fun id' op hop => ?_)
    · rw [← hm']
      exact sound_moved _ _ (sound_relist _ h.sound _)
    · simp [← hm']
    · exact hkept fun hin => hCbody hid (body.ids_subset_allIds hin)
    · rw [hops, if_neg hne]
    · rw [hops, if_pos rfl, haround.here, hearlier]
      rfl
    · refine holds_append.mpr ⟨?_, hholds.reparent hbody (fun id' hid => ?_) (fun id' hid hout => ?_)
        (fun id' hid i => hnested (fun hin => hCbody hin hid) i) hsettles⟩
      · rw [← Code.rename_id d]
        refine h.loose.frame (fun id' hid => hkept fun hin => ?_)
          (fun id' hid i => hnested (fun hin => hCd hin hid) i) hsettles
        exact hbodyd id' (body.ids_subset_allIds hin) id' hid rfl
      · rw [hhead, if_pos hid]
      · rw [hhead, if_neg hout]
    · simp only [Code.allIds_nil, Code.allIds_append, List.count_append, List.count_nil]
      omega
    · simp only [Code.results_nil, Code.results_append, List.count_append, List.count_nil]
      omega
    · have hlive : m.get? id' ≠ none := by
        intro hnone
        have hthen := hhead id'
        rw [head?_eq_none.mpr hnone, head?, hop] at hthen
        split at hthen <;> cases hthen
      obtain ⟨old, hold⟩ := Option.ne_none_iff_exists'.mp hlive
      have hall := h.cover_plug hold
      simp only [Code.allIds_nil, Code.allIds_append, List.mem_append, List.not_mem_nil, false_or] at hall ⊢
      tauto
  rwa [Context.rename_id] at hmodels

theorem Models.takeBody (h : m.Models (C.plug (.each n [] body rest)) d) :
    ∃ m', Edit.takeRegion n.id 0 m = .ok { ops := body.ids } m' ∧
      m'.Models (C.plug (.each n [] .nil rest)) (d ++ body) ∧
      m'.values = m.values := by
  obtain ⟨-, hnode, hlist, -⟩ := h.around
  exact Models.take (C := .each C n [] rest) h rfl rfl (hnode.region rfl hlist)

theorem Models.takeFirst (h : m.Models (C.plug (.fork n first second rest)) d) :
    ∃ m', Edit.takeRegion n.id 0 m = .ok { ops := first.ids } m' ∧
      m'.Models (C.plug (.fork n .nil second rest)) (d ++ first) ∧ m'.values = m.values := by
  obtain ⟨-, hnode, hlist, -⟩ := h.around
  exact Models.take (C := .first C n second rest) h rfl rfl (hnode.region rfl hlist)

theorem Models.takeSecond (h : m.Models (C.plug (.fork n first second rest)) d) :
    ∃ m', Edit.takeRegion n.id 1 m = .ok { ops := second.ids } m' ∧
      m'.Models (C.plug (.fork n first .nil rest)) (d ++ second) ∧ m'.values = m.values := by
  obtain ⟨-, hnode, -, hlist, -⟩ := h.around
  exact Models.take (C := .second C n first rest) h rfl rfl (hnode.region rfl hlist)

end Choco.IR.Module
