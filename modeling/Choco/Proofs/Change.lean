import Choco.Proofs.View

namespace Choco.IR

theorem Op.rename_id : (Op.rename fun v => v) = fun op => op := by
  funext op
  simp [rename]

namespace Module

variable {m m' m₁ m₂ : Module} {id : OpId} {τ : ValueId → ValueId} {old new : Set OpId}
  {place parent : Option Place} {c : Code}

/-- From `m` to `m'` only the operations in `old` and `new` and the list at `place` changed; everywhere else
operands were renamed. What is in `new` alone was not live before, what is in `old` alone is not live
after. -/
structure Change (m m' : Module) (τ : ValueId → ValueId) (old new : Set OpId) (place : Option Place) :
    Prop where
  fresh : ∀ id ∈ new, id ∉ old → m.get? id = none
  gone : ∀ id ∈ old, id ∉ new → m'.get? id = none
  heads : ∀ id, id ∉ old → id ∉ new → m'.head? id = (m.head? id).map (Op.rename τ)
  lists : ∀ q, some q ≠ place → (∀ id, q.owner? = some id → id ∉ old ∧ id ∉ new) → m'.ops? q = m.ops? q
  values : Settles m.values m'.values
  args : m'.body.args = m.body.args
  sound : m'.Sound

theorem ops?_nested_of_dead (h : m.get? id = none) (index : Nat) : m.ops? (.nested id index) = none := by
  simp [ops?, h]

theorem Change.refl (h : m.Sound) (place : Option Place) : Change m m (fun v => v) ∅ ∅ place where
  fresh := by simp
  gone := by simp
  heads id _ _ := by rw [Op.rename_id, Option.map_id']
  lists _ _ _ := rfl
  values := .refl _
  args := rfl
  sound := h

theorem Change.dead (h : Change m m' τ old new place) (hold : id ∉ old) (hnew : id ∉ new) :
    m'.get? id = none ↔ m.get? id = none := by
  rw [← head?_eq_none, ← head?_eq_none, h.heads id hold hnew, Option.map_eq_none_iff]

theorem Change.trans {τ₁ τ₂ : ValueId → ValueId} {a b c : Set OpId} (h₁ : Change m m₁ τ₁ a b place)
    (h₂ : Change m₁ m₂ τ₂ b c place) :
    Change m m₂ (τ₂ ∘ τ₁) a c place where
  fresh id hc ha := by
    by_cases hb : id ∈ b
    · exact h₁.fresh id hb ha
    · exact (h₁.dead ha hb).mp (h₂.fresh id hc hb)
  gone id ha hc := by
    by_cases hb : id ∈ b
    · exact h₂.gone id hb hc
    · exact (h₂.dead hb hc).mpr (h₁.gone id ha hb)
  heads id ha hc := by
    by_cases hb : id ∈ b
    · rw [head?_eq_none.mpr (h₁.fresh id hb ha), head?_eq_none.mpr (h₂.gone id hb hc), Option.map_none]
    · rw [h₂.heads id hb hc, h₁.heads id ha hb, Option.map_map]
      congr 1
      funext op
      simp [Op.rename]
  lists q hq howner := by
    cases q with
    | top => rw [h₂.lists .top hq (by simp [Place.owner?]), h₁.lists .top hq (by simp [Place.owner?])]
    | nested id index =>
      obtain ⟨ha, hc⟩ := howner id rfl
      by_cases hb : id ∈ b
      · rw [ops?_nested_of_dead (h₁.fresh id hb ha), ops?_nested_of_dead (h₂.gone id hb hc)]
      · rw [h₂.lists _ hq fun id' he => by cases he; exact ⟨hb, hc⟩,
          h₁.lists _ hq fun id' he => by cases he; exact ⟨ha, hb⟩]
  values := h₁.values.trans h₂.values
  args := h₂.args.trans h₁.args
  sound := h₂.sound

theorem Change.widen {place' : Option Place} (h : Change m m' τ old new place) (extra : Set OpId)
    (hplace : ∀ q, place = some q → place' = some q ∨ ∃ id, q.owner? = some id ∧ (id ∈ old ∨ id ∈ extra)) :
    Change m m' τ (old ∪ extra) (new ∪ extra) place' where
  fresh id hnew hold := by
    rcases hnew with hnew | hextra
    · exact h.fresh id hnew fun ho => hold (.inl ho)
    · exact absurd (.inr hextra) hold
  gone id hold hnew := by
    rcases hold with hold | hextra
    · exact h.gone id hold fun hn => hnew (.inl hn)
    · exact absurd (.inr hextra) hnew
  heads id hold hnew := h.heads id (fun ho => hold (.inl ho)) fun hn => hnew (.inl hn)
  lists q hq howner := by
    refine h.lists q (fun he => ?_) fun id hid => ?_
    · rcases hplace q he.symm with hp | ⟨id, hid, hin⟩
      · exact hq hp.symm
      · exact (howner id hid).1 hin
    · obtain ⟨hold, hnew⟩ := howner id hid
      exact ⟨fun ho => hold (.inl ho), fun hn => hnew (.inl hn)⟩
  values := h.values
  args := h.args
  sound := h.sound

theorem HasNode.renamed {n : Node} {args : List (List ValueId)} (h : m.HasNode parent n args)
    (hhead : m'.head? n.id = (m.head? n.id).map (Op.rename τ)) (hvalues : Settles m.values m'.values) :
    m'.HasNode parent (n.rename τ) args where
  head := by rw [Node.id_rename, hhead, h.head, Option.map_some, Node.op_rename]
  value d hd := hvalues.result (h.value d hd)

theorem Holds.frame (h : m.Holds parent c)
    (hheads : ∀ id ∈ c.allIds, m'.head? id = (m.head? id).map (Op.rename τ))
    (hlists : ∀ id ∈ c.allIds, ∀ index, m'.ops? (.nested id index) = m.ops? (.nested id index))
    (hvalues : Settles m.values m'.values) : m'.Holds parent (c.rename τ) := by
  induction c generalizing parent with
  | nil => trivial
  | leaf n rest ih =>
    simp only [Code.allIds_leaf, List.forall_mem_cons] at hheads hlists
    exact ⟨h.1.renamed hheads.1 hvalues, ih h.2 hheads.2 hlists.2⟩
  | each n args body rest ihb ih =>
    simp only [Code.allIds_each, List.forall_mem_cons, List.forall_mem_append] at hheads hlists
    obtain ⟨hnode, hops, hbody, hrest⟩ := h
    refine ⟨hnode.renamed hheads.1 hvalues, ?_, ihb hbody hheads.2.1 hlists.2.1,
      ih hrest hheads.2.2 hlists.2.2⟩
    rw [Node.id_rename, hlists.1, hops, Code.ids_rename]
  | fork n first second rest iha ihb ih =>
    simp only [Code.allIds_fork, List.forall_mem_cons, List.forall_mem_append] at hheads hlists
    obtain ⟨hnode, hops₁, hops₂, hfirst, hsecond, hrest⟩ := h
    refine ⟨hnode.renamed hheads.1 hvalues, ?_, ?_, iha hfirst hheads.2.1 hlists.2.1,
      ihb hsecond hheads.2.2.1 hlists.2.2.1, ih hrest hheads.2.2.2 hlists.2.2.2⟩
    · rw [Node.id_rename, hlists.1, hops₁, Code.ids_rename]
    · rw [Node.id_rename, hlists.1, hops₂, Code.ids_rename]

theorem Change.holds (h : Change m m' τ old new place) (hc : m.Holds parent c)
    (hapart : ∀ id ∈ c.allIds, id ∉ old ∧ id ∉ new)
    (hplace : ∀ q id, place = some q → q.owner? = some id → id ∉ c.allIds) :
    m'.Holds parent (c.rename τ) := by
  refine hc.frame (fun id hid => h.heads id (hapart id hid).1 (hapart id hid).2)
    (fun id hid index => ?_) h.values
  refine h.lists _ (fun he => hplace _ id he.symm rfl hid) fun id' he => ?_
  cases he
  exact hapart id hid

theorem Holds.reparent {parent' : Option Place} (h : m.Holds parent c) (hnodup : c.allIds.Nodup)
    (hids : ∀ id ∈ c.ids, m'.head? id = (m.head? id).map fun op => { op with parent := parent' })
    (hnested : ∀ id ∈ c.allIds, id ∉ c.ids → m'.head? id = m.head? id)
    (hlists : ∀ id ∈ c.allIds, ∀ index, m'.ops? (.nested id index) = m.ops? (.nested id index))
    (hvalues : Settles m.values m'.values) : m'.Holds parent' c := by
  have hnode {n : Node} {args : List (List ValueId)} (hn : m.HasNode parent n args)
      (hhead : m'.head? n.id = (m.head? n.id).map fun op => { op with parent := parent' }) :
      m'.HasNode parent' n args :=
    ⟨by rw [hhead, hn.head]; rfl, fun d hd => hvalues.result (hn.value d hd)⟩
  have hinner {parent : Option Place} {d : Code} (hd : m.Holds parent d)
      (hheads : ∀ id ∈ d.allIds, m'.head? id = m.head? id)
      (hlists : ∀ id ∈ d.allIds, ∀ index, m'.ops? (.nested id index) = m.ops? (.nested id index)) :
      m'.Holds parent d := by
    rw [← Code.rename_id d]
    refine hd.frame (fun id hid => ?_) hlists hvalues
    rw [hheads id hid, Op.rename_id, Option.map_id']
  induction c with
  | nil => trivial
  | leaf n rest ih =>
    rw [Code.allIds_leaf] at hnodup hnested hlists
    obtain ⟨hn, hnodup⟩ := List.nodup_cons.mp hnodup
    refine ⟨hnode h.1 (hids _ (by simp [Code.ids])),
      ih h.2 hnodup (fun id hid => hids id (by simp [Code.ids, hid]))
      (fun id hid hout => hnested id (by simp [hid]) ?_) fun id hid => hlists id (by simp [hid])⟩
    have hne : id ≠ n.id := fun he => hn (he ▸ hid)
    simp [Code.ids, hne, hout]
  | each n args body rest _ ih =>
    rw [Code.allIds_each] at hnodup hnested hlists
    obtain ⟨hn, hnodup⟩ := List.nodup_cons.mp hnodup
    obtain ⟨-, hrest, hapart⟩ := List.nodup_append.mp hnodup
    have hne {id : OpId} (hid : id ∈ body.allIds ++ rest.allIds) : id ≠ n.id := fun he => hn (he ▸ hid)
    have hout {id : OpId} (hid : id ∈ body.allIds) : id ∉ rest.ids := fun hin =>
      hapart id hid id (rest.ids_subset_allIds hin) rfl
    refine ⟨hnode h.1 (hids _ (by simp [Code.ids])), ?_, hinner h.2.2.1 ?_ ?_, ih h.2.2.2 hrest ?_ ?_ ?_⟩
    · rw [hlists n.id (by simp), h.2.1]
    · exact fun id hid => hnested id (by simp [hid]) (by simp [Code.ids, hne, hout, hid])
    · exact fun id hid => hlists id (by simp [hid])
    · exact fun id hid => hids id (by simp [Code.ids, hid])
    · exact fun id hid hout => hnested id (by simp [hid]) (by simp [Code.ids, hne, hout, hid])
    · exact fun id hid => hlists id (by simp [hid])
  | fork n first second rest _ _ ih =>
    rw [Code.allIds_fork] at hnodup hnested hlists
    obtain ⟨hn, hnodup⟩ := List.nodup_cons.mp hnodup
    obtain ⟨-, hnodup, hapart₁⟩ := List.nodup_append.mp hnodup
    obtain ⟨-, hrest, hapart₂⟩ := List.nodup_append.mp hnodup
    have hne {id : OpId} (hid : id ∈ first.allIds ++ (second.allIds ++ rest.allIds)) : id ≠ n.id :=
      fun he => hn (he ▸ hid)
    have hout₁ {id : OpId} (hid : id ∈ first.allIds) : id ∉ rest.ids := fun hin =>
      hapart₁ id hid id (List.mem_append_right _ (rest.ids_subset_allIds hin)) rfl
    have hout₂ {id : OpId} (hid : id ∈ second.allIds) : id ∉ rest.ids := fun hin =>
      hapart₂ id hid id (rest.ids_subset_allIds hin) rfl
    refine ⟨hnode h.1 (hids _ (by simp [Code.ids])), ?_, ?_, hinner h.2.2.2.1 ?_ ?_, hinner h.2.2.2.2.1 ?_ ?_,
      ih h.2.2.2.2.2 hrest ?_ ?_ ?_⟩
    · rw [hlists n.id (by simp), h.2.1]
    · rw [hlists n.id (by simp), h.2.2.1]
    · exact fun id hid => hnested id (by simp [hid]) (by simp [Code.ids, hne, hout₁, hid])
    · exact fun id hid => hlists id (by simp [hid])
    · exact fun id hid => hnested id (by simp [hid]) (by simp [Code.ids, hne, hout₂, hid])
    · exact fun id hid => hlists id (by simp [hid])
    · exact fun id hid => hids id (by simp [Code.ids, hid])
    · exact fun id hid hout => hnested id (by simp [hid]) (by simp [Code.ids, hne, hout, hid])
    · exact fun id hid => hlists id (by simp [hid])

end Module

end Choco.IR
