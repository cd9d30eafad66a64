import Choco.Proofs.Change

namespace Choco.IR

variable {C : Context}

inductive Context where
  | top
  | after (outer : Context) (c : Code)
  | each (outer : Context) (n : Node) (args : List ValueId) (rest : Code)
  | first (outer : Context) (n : Node) (second rest : Code)
  | second (outer : Context) (n : Node) (first rest : Code)

namespace Context

variable {id : OpId} {q : Place}

def plug : Context → Code → Code
  | top, c => c
  | after C b, c => C.plug (b ++ c)
  | each C n args rest, c => C.plug (.each n args c rest)
  | first C n other rest, c => C.plug (.fork n c other rest)
  | second C n other rest, c => C.plug (.fork n other c rest)

def place : Context → Place
  | top => .top
  | after C _ => C.place
  | each _ n _ _ | first _ n _ _ => .nested n.id 0
  | second _ n _ _ => .nested n.id 1

def earlier : Context → List OpId
  | after C b => C.earlier ++ b.ids
  | top | each _ _ _ _ | first _ _ _ _ | second _ _ _ _ => []

def nodes : Context → List Node
  | top => []
  | after C b => C.nodes ++ b.nodes
  | each C n _ rest => C.nodes ++ n :: rest.nodes
  | first C n other rest | second C n other rest => C.nodes ++ n :: (other.nodes ++ rest.nodes)

def allIds (C : Context) : List OpId := C.nodes.map Node.id

def results (C : Context) : List ValueId := C.nodes.flatMap Node.results

def rename (τ : ValueId → ValueId) : Context → Context
  | top => top
  | after C b => after (C.rename τ) (b.rename τ)
  | each C n args rest => each (C.rename τ) (n.rename τ) args (rest.rename τ)
  | first C n other rest => first (C.rename τ) (n.rename τ) (other.rename τ) (rest.rename τ)
  | second C n other rest => second (C.rename τ) (n.rename τ) (other.rename τ) (rest.rename τ)

theorem nodes_plug (C : Context) (c : Code) : (C.plug c).nodes.Perm (C.nodes ++ c.nodes) := by
  induction C generalizing c with
  | top => exact .refl _
  | after C b ih =>
    refine (ih _).trans ?_
    rw [nodes, Code.nodes_append, List.append_assoc]
  | each C n args rest ih =>
    refine (ih _).trans ?_
    rw [nodes, Code.nodes, List.append_assoc, List.cons_append]
    exact .append_left _ (.cons _ List.perm_append_comm)
  | first C n second rest ih =>
    refine (ih _).trans ?_
    rw [nodes, Code.nodes, List.append_assoc, List.cons_append]
    exact .append_left _ (.cons _ List.perm_append_comm)
  | second C n first rest ih =>
    refine (ih _).trans ?_
    rw [nodes, Code.nodes, List.append_assoc, List.cons_append, List.append_assoc]
    exact .append_left _ (.cons _ (.append_left _ List.perm_append_comm))

theorem mem_nodes_plug (C : Context) {c : Code} {n : Node} (h : n ∈ c.nodes) : n ∈ (C.plug c).nodes :=
  (C.nodes_plug c).mem_iff.mpr (List.mem_append_right _ h)

section AllIds

variable (C : Context) (n : Node) (other rest : Code)

theorem allIds_after : (after C rest).allIds = C.allIds ++ rest.allIds := by simp [allIds, nodes, Code.allIds]

theorem allIds_each (args : List ValueId) : (each C n args rest).allIds = C.allIds ++ n.id ::
    rest.allIds := by
  simp [allIds, nodes, Code.allIds]

theorem allIds_first : (first C n other rest).allIds = C.allIds ++ n.id :: (other.allIds ++ rest.allIds) := by
  simp [allIds, nodes, Code.allIds]

theorem allIds_second : (second C n other rest).allIds = C.allIds ++ n.id :: (other.allIds ++ rest.allIds) :=
  allIds_first ..

end AllIds

theorem allIds_plug (C : Context) (c : Code) : (C.plug c).allIds.Perm (C.allIds ++ c.allIds) := by
  rw [allIds, Code.allIds, Code.allIds, ← List.map_append]
  exact (C.nodes_plug c).map _

theorem results_plug (C : Context) (c : Code) : (C.plug c).results.Perm (C.results ++ c.results) := by
  rw [results, Code.results, Code.results, ← List.flatMap_append]
  exact (C.nodes_plug c).flatMap_right _

section Rename

variable (τ : ValueId → ValueId)

theorem nodes_rename (C : Context) : (C.rename τ).nodes = C.nodes.map (Node.rename τ) := by
  induction C with
  | top => rfl
  | after C b ih => simp [rename, nodes, ih, Code.nodes_rename]
  | each C n args rest ih => simp [rename, nodes, ih, Code.nodes_rename]
  | first C n second rest ih => simp [rename, nodes, ih, Code.nodes_rename]
  | second C n first rest ih => simp [rename, nodes, ih, Code.nodes_rename]

@[simp] theorem allIds_rename (C : Context) : (C.rename τ).allIds = C.allIds := by
  simp [allIds, nodes_rename, Function.comp_def]

@[simp] theorem results_rename (C : Context) : (C.rename τ).results = C.results := by
  simp [results, nodes_rename, List.flatMap_map]

@[simp] theorem place_rename (C : Context) : (C.rename τ).place = C.place := by
  induction C with
  | after C b ih => exact ih
  | top | each C n args rest | first C n second rest | second C n first rest => rfl

@[simp] theorem rename_id (C : Context) : C.rename (fun v => v) = C := by
  induction C with
  | top => rfl
  | after C b ih => simp [rename, ih]
  | each C n args rest ih => simp [rename, ih]
  | first C n second rest ih => simp [rename, ih]
  | second C n first rest ih => simp [rename, ih]

end Rename

theorem owner_mem (h : C.place.owner? = some id) : id ∈ C.allIds := by
  induction C with
  | top => cases h
  | after C b ih =>
    rw [allIds_after]
    exact List.mem_append_left _ (ih h)
  | each C n args rest | first C n second rest | second C n first rest =>
    cases h
    simp [allIds, nodes]

theorem earlier_subset (C : Context) : C.earlier ⊆ C.allIds := by
  induction C with
  | after C b ih =>
    rw [earlier, allIds_after]
    exact List.append_subset.mpr ⟨fun id hid => List.mem_append_left _ (ih hid),
      fun id hid => List.mem_append_right _ (b.ids_subset_allIds hid)⟩
  | top | each C n args rest | first C n second rest | second C n first rest => exact List.nil_subset _

def Owns (C : Context) (q : Place) : Prop := q = .top ∨ ∃ id ∈ C.allIds, q.owner? = some id

theorem Owns.mono {D : Context} (h : C.allIds ⊆ D.allIds) (hq : C.Owns q) : D.Owns q :=
  hq.imp_right fun ⟨id, hid, ho⟩ => ⟨id, h hid, ho⟩

theorem owns_place (C : Context) : C.Owns C.place := by
  cases h : C.place with
  | top => exact .inl rfl
  | nested id index => exact .inr ⟨id, owner_mem (by rw [h]; rfl), rfl⟩

theorem Owns.ne_nested (hq : C.Owns q) (hid : id ∉ C.allIds) (index : Nat) : q ≠ .nested id index := by
  rintro rfl
  obtain hq | ⟨_, hmem, ho⟩ := hq
  · cases hq
  · cases ho
    exact hid hmem

end Context

namespace Module

variable {m m' : Module} {τ : ValueId → ValueId}

def Around (m : Module) : Context → List OpId → Prop
  | .top, ids => m.ops? .top = some ids
  | .after C b, ids => Around m C (b.ids ++ ids) ∧ m.Holds (some C.place) b
  | .each C n args rest, ids =>
    Around m C (n.id :: rest.ids) ∧ m.HasNode (some C.place) n [args] ∧ m.ops? (.nested n.id 0) = some ids ∧
      m.Holds (some C.place) rest
  | .first C n second rest, ids =>
    Around m C (n.id :: rest.ids) ∧ m.HasNode (some C.place) n [[], []] ∧ m.ops? (.nested n.id 0) = some ids ∧
      m.ops? (.nested n.id 1) = some second.ids ∧ m.Holds (some (.nested n.id 1)) second ∧
        m.Holds (some C.place) rest
  | .second C n first rest, ids =>
    Around m C (n.id :: rest.ids) ∧ m.HasNode (some C.place) n [[], []] ∧ m.ops? (.nested n.id 1) = some ids ∧
      m.ops? (.nested n.id 0) = some first.ids ∧ m.Holds (some (.nested n.id 0)) first ∧
        m.Holds (some C.place) rest

theorem holds_plug {c : Code} :
    m.ops? .top = some (C.plug c).ids ∧ m.Holds (some .top) (C.plug c) ↔
      m.Around C c.ids ∧ m.Holds (some C.place) c := by
  induction C generalizing c with
  | top => exact Iff.rfl
  | after C b ih =>
    rw [Context.plug, ih, Code.ids_append, holds_append, Around, Context.place]
    tauto
  | each C n args rest ih =>
    rw [Context.plug, ih]
    simp only [Around, Holds, Code.ids, Context.place]
    tauto
  | first C n second rest ih =>
    rw [Context.plug, ih]
    simp only [Around, Holds, Code.ids, Context.place]
    tauto
  | second C n first rest ih =>
    rw [Context.plug, ih]
    simp only [Around, Holds, Code.ids, Context.place]
    tauto

theorem Around.here {ids : List OpId} (h : m.Around C ids) : m.ops? C.place = some (C.earlier ++ ids) := by
  induction C generalizing ids with
  | top => exact h
  | after C b ih =>
    rw [Context.place, ih h.1, Context.earlier, List.append_assoc]
  | each C n args rest | first C n second rest | second C n first rest => exact h.2.2.1

section Frame

variable {C : Context} {ids ids' : List OpId}

theorem Around.refill (h : m.Around C ids) (hnodup : C.allIds.Nodup)
    (hheads : ∀ id ∈ C.allIds, m'.head? id = (m.head? id).map (Op.rename τ))
    (hlists : ∀ q, C.Owns q → q ≠ C.place → m'.ops? q = m.ops? q)
    (hhere : m'.ops? C.place = some (C.earlier ++ ids')) (hvalues : Settles m.values m'.values) :
    m'.Around (C.rename τ) ids' := by
  have hholds {parent : Option Place} {c : Code} (hc : m.Holds parent c) (hsub : c.allIds ⊆ C.allIds)
      (hout : ∀ id ∈ c.allIds, C.place.owner? ≠ some id) : m'.Holds parent (c.rename τ) :=
    hc.frame (fun id hid => hheads id (hsub hid))
      (fun id hid index => hlists _ (.inr ⟨id, hsub hid, rfl⟩) fun he => hout id hid (he ▸ rfl)) hvalues
  induction C generalizing ids ids' with
  | top => exact hhere
  | after C b ih =>
    have hsub : C.allIds ⊆ (Context.after C b).allIds := by simp [Context.allIds_after]
    rw [Context.allIds_after] at hnodup hheads hholds
    obtain ⟨hnodup, -, hapart⟩ := List.nodup_append.mp hnodup
    rw [Context.rename, Around, Code.ids_rename, Context.place_rename]
    refine ⟨ih h.1 hnodup (fun id hid => hheads id (by simp [hid])) (fun q hq => hlists q (hq.mono hsub)) ?_
      fun hc hc' => hholds hc (by simp [hc']), hholds h.2 (by simp) fun id hid ho => ?_⟩
    · rw [Context.earlier, Context.place, List.append_assoc] at hhere
      exact hhere
    · exact hapart id (Context.owner_mem ho) id hid rfl
  | each C n args rest ih =>
    have hsub : C.allIds ⊆ (Context.each C n args rest).allIds := by simp [Context.allIds_each]
    rw [Context.allIds_each] at hnodup hheads hholds
    obtain ⟨hnodup, hrest, hapart⟩ := List.nodup_append.mp hnodup
    have hout : n.id ∉ C.allIds := fun hid => hapart n.id hid n.id (by simp) rfl
    have hlists {q : Place} (hq : C.Owns q) : m'.ops? q = m.ops? q :=
      hlists q (hq.mono hsub) (hq.ne_nested hout _)
    rw [Context.rename, Around, Code.ids_rename, Context.place_rename, Node.id_rename]
    refine ⟨ih h.1 hnodup (fun id hid => hheads id (by simp [hid])) (fun q hq _ => hlists hq)
      ((hlists C.owns_place).trans h.1.here) fun hc hc' _ => hholds hc (by simp [hc']) fun id hid ho => ?_,
      h.2.1.renamed (hheads _ (by simp)) hvalues, hhere, hholds h.2.2.2 (by simp) fun id hid ho => ?_⟩
    · cases ho
      exact hout (hc' hid)
    · cases ho
      exact (List.nodup_cons.mp hrest).1 hid
  | first C n other rest ih | second C n other rest ih =>
    have hsub : C.allIds ⊆ (Context.first C n other rest).allIds := by simp [Context.allIds_first]
    simp only [Context.allIds_first, Context.allIds_second] at hnodup hheads hholds
    obtain ⟨hnodup, hrest, hapart⟩ := List.nodup_append.mp hnodup
    have hout : n.id ∉ C.allIds := fun hid => hapart n.id hid n.id (by simp) rfl
    have hin {id : OpId} (hid : id ∈ other.allIds ++ rest.allIds) : some n.id ≠ some id := fun he =>
      (List.nodup_cons.mp hrest).1 (Option.some.inj he ▸ hid)
    have hother (index : Nat) := hlists (.nested n.id index)
      (.inr ⟨n.id, by simp [Context.allIds_first, Context.allIds_second], rfl⟩)
    have hlists {q : Place} (hq : C.Owns q) : m'.ops? q = m.ops? q :=
      hlists q (hq.mono hsub) (hq.ne_nested hout _)
    rw [Context.rename, Around, Code.ids_rename, Code.ids_rename, Context.place_rename, Node.id_rename]
    refine ⟨ih h.1 hnodup (fun id hid => hheads id (by simp [hid])) (fun q hq _ => hlists hq)
      ((hlists C.owns_place).trans h.1.here) fun hc hc' _ => hholds hc (by simp [hc']) fun id hid ho => ?_,
      h.2.1.renamed (hheads _ (by simp)) hvalues, hhere, (hother _ (by simp [Context.place])).trans h.2.2.2.1,
      hholds h.2.2.2.2.1 ?_ fun id hid => hin (by simp [hid]), hholds h.2.2.2.2.2 ?_ fun id hid =>
      hin (by simp [hid])⟩
    · cases ho
      exact hout (hc' hid)
    · exact fun id hid => by simp [hid]
    · exact fun id hid => by simp [hid]

end Frame

end Module

end Choco.IR
