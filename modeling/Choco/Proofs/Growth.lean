import Choco.Proofs.Made
import Mathlib.Data.Set.Insert

namespace Choco.IR

theorem Op.head_moved (op : Op) (place : Option Place) : (op.moved place).head = op.head.moved place := by
  cases place <;> rfl

namespace Module

variable {m m₁ m₂ m' : Module} {id id' : OpId} {op : Op} {n : Node} {c d first second body : Code}
  {parent : Option Place} {v : ValueId}

theorem placeIn_eq_none {regions : List Region} {index : Nat} (h : ∀ r ∈ regions, id' ∉ r.ops) :
    placeIn id index regions id' = none := by
  induction regions generalizing index with
  | nil => rfl
  | cons r rs ih =>
    rw [List.forall_mem_cons] at h
    rw [placeIn, ih h.2, if_neg h.1]
    rfl

section Made

variable {place : Place}

theorem Made.head? (h : Made m m' id op) (hne : id' ≠ id) :
    m'.head? id' = (m.head? id').map fun o => o.moved (placeIn id 0 op.regions id') := by
  rw [Module.head?, h.others id' hne, Option.map_map, Module.head?, Option.map_map]
  congr 1
  funext o
  exact Op.head_moved o _

theorem Made.head?_kept (h : Made m m' id op) (hne : id' ≠ id) (hout : ∀ r ∈ op.regions, id' ∉ r.ops) :
    m'.head? id' = m.head? id' := by
  rw [h.head? hne, placeIn_eq_none hout]
  exact Option.map_id'

theorem Made.head?_self (h : Made m m' id op) : m'.head? id = some op.head := by
  rw [Module.head?, h.self]
  rfl

theorem Made.ops?_self (h : Made m m' id op) (index : Nat) :
    m'.ops? (.nested id index) = op.regions[index]?.map Region.ops := by
  rw [ops?, h.self]
  rfl

theorem Made.ops?_kept (h : Made m m' id op) (hne : place.owner? ≠ some id) :
    m'.ops? place = m.ops? place := by
  cases place with
  | top => simp only [ops?, h.body]
  | nested id' index =>
    have hne' : id' ≠ id := fun he => hne (congrArg some he)
    rw [ops?, h.others id' hne', ops?]
    cases m.get? id' with
    | none => rfl
    | some o => cases placeIn id 0 op.regions id' <;> rfl

theorem Made.change (h : Made m m' id op) (moved : Set OpId)
    (hmoved : ∀ r ∈ op.regions, ∀ id' ∈ r.ops, id' ∈ moved) :
    Change m m' (fun v => v) moved ({id} ∪ moved) none where
  fresh id' hnew hold := by
    obtain rfl | hnew := hnew
    · exact h.dead
    · exact absurd hnew hold
  gone id' hold hnew := absurd (.inr hold) hnew
  heads id' hold hnew := by
    have hne : id' ≠ id := fun he => hnew (.inl he)
    rw [h.head?_kept hne fun r hr hin => hold (hmoved r hr id' hin), Op.rename_id, Option.map_id']
  lists q _ howner := h.ops?_kept fun he => (howner id he).2 (.inl rfl)
  values := h.values
  args := by rw [h.body]
  sound := h.sound

theorem Made.ne_self (h : Made m m' id op) (hc : m.Holds parent c) (hid : id' ∈ c.allIds) : id' ≠ id := by
  rintro rfl
  obtain ⟨o, ho⟩ := hc.live hid
  cases h.dead.symm.trans ho

/-- Code whose own operations are listed in one region of the new operation is now in that region. -/
theorem Made.holds_region (h : Made m m' id op) (hc : m.Holds none c) (hnodup : c.allIds.Nodup)
    (hin : ∀ id' ∈ c.ids, placeIn id 0 op.regions id' = some place)
    (hout : ∀ id' ∈ c.allIds, id' ∉ c.ids → ∀ r ∈ op.regions, id' ∉ r.ops) : m'.Holds (some place) c := by
  refine hc.reparent hnodup (fun id' hid => ?_) (fun id' hid hids => h.head?_kept (h.ne_self hc hid)
    (hout id' hid hids)) (fun id' hid index => h.ops?_kept fun he =>
    h.ne_self hc hid (Option.some.inj he)) h.values
  rw [h.head? (h.ne_self hc (c.ids_subset_allIds hid)), hin id' hid]
  rfl

end Made

/-- The values of `m` are the same in `m'`. -/
def Stays (m m' : Module) : Prop := ∀ (i : Nat) info, m.values[i]? = some info → m'.values[i]? = some info

/-- `m'` is `m` with new code that is in no list yet. -/
structure Extends (m m' : Module) (c : Code) : Prop where
  holds : m'.Holds none c
  change : Change m m' (fun v => v) ∅ {id | id ∈ c.allIds} none
  nodup : c.allIds.Nodup
  fresh : ∀ v ∈ c.results, m.values.size ≤ v.index
  distinct : c.results.Nodup
  args : ∀ a ∈ c.args, m'.IsArg a
  stays : Stays m m'

theorem Holds.result_lt (h : m.Holds parent c) (hv : v ∈ c.results) : v.index < m.values.size := by
  obtain ⟨n, hn, hv⟩ := List.mem_flatMap.mp hv
  obtain ⟨_, _, hnode⟩ := h.hasNode hn
  cases hr : n.result with
  | none => simp [Node.results, hr] at hv
  | some d =>
    have hvd : v = d.value := by simpa [Node.results, hr] using hv
    have hvalue := hnode.value d hr
    rw [← hvd] at hvalue
    exact (Array.getElem?_eq_some_iff.mp hvalue).1

theorem Extends.nil (h : m.Sound) : Extends m m .nil where
  holds := trivial
  change := by simpa using Change.refl h none
  nodup := List.nodup_nil
  fresh := by simp
  distinct := List.nodup_nil
  args := by simp
  stays _ _ h := h

theorem Extends.keeps (h : Extends m m' c) (hd : m.Holds parent d) : m'.Holds parent d := by
  rw [← Code.rename_id d]
  refine h.change.holds hd (fun id hid => ⟨Set.notMem_empty id, fun hin => ?_⟩) (by simp)
  obtain ⟨op, hop⟩ := hd.live hid
  rw [h.change.fresh id hin (Set.notMem_empty id)] at hop
  cases hop

theorem Extends.apart (h : Extends m m' c) (hd : m.Holds parent d) {id : OpId} (hid : id ∈ d.allIds) :
    id ∉ c.allIds := by
  intro hin
  obtain ⟨op, hop⟩ := hd.live hid
  rw [h.change.fresh id hin (Set.notMem_empty id)] at hop
  cases hop

theorem Extends.trans (h₁ : Extends m m₁ c) (h₂ : Extends m₁ m₂ d) : Extends m m₂ (c ++ d) where
  holds := holds_append.mpr ⟨h₂.keeps h₁.holds, h₂.holds⟩
  change := by
    have hfirst : Change m m₁ (fun v => v) ∅ {id | id ∈ c.allIds} none := h₁.change
    have hsecond : Change m₁ m₂ (fun v => v) (∅ ∪ {id | id ∈ c.allIds})
        ({id | id ∈ d.allIds} ∪ {id | id ∈ c.allIds}) none := h₂.change.widen _ (by simp)
    rw [Set.empty_union] at hsecond
    have hboth : Change m m₂ (fun v => v) ∅ _ none := hfirst.trans hsecond
    have hset : {id | id ∈ d.allIds} ∪ {id | id ∈ c.allIds} = {id | id ∈ (c ++ d).allIds} := by
      ext id
      simp [or_comm]
    rwa [hset] at hboth
  nodup := by
    rw [Code.allIds_append, List.nodup_append]
    exact ⟨h₁.nodup, h₂.nodup, fun a ha b hb hab => h₂.apart h₁.holds ha (hab ▸ hb)⟩
  fresh v hv := by
    rw [Code.results_append, List.mem_append] at hv
    obtain hv | hv := hv
    · exact h₁.fresh v hv
    · exact h₁.change.values.size_le.trans (h₂.fresh v hv)
  distinct := by
    rw [Code.results_append, List.nodup_append]
    refine ⟨h₁.distinct, h₂.distinct, fun a ha b hb hab => ?_⟩
    have hlt := h₁.holds.result_lt ha
    have hle := h₂.fresh b hb
    rw [hab] at hlt
    omega
  args a ha := by
    rw [Code.args_append, List.mem_append] at ha
    obtain ha | ha := ha
    · exact (h₁.args a ha).settles h₂.change.values
    · exact h₂.args a ha
  stays i info hi := h₂.stays i info (h₁.stays i info hi)

def NewResult (m m' : Module) (n : Node) : Prop :=
  ∀ d, n.result = some d →
    d.value.index = m.values.size ∧ m'.values[d.value.index]? = some ⟨d.ty, .result n.id⟩

theorem NewResult.mem_results (h : NewResult m m' n) (hv : v ∈ n.results) : v.index = m.values.size := by
  cases hr : n.result with
  | none => simp [Node.results, hr] at hv
  | some d =>
    have hvd : v = d.value := by simpa [Node.results, hr] using hv
    exact hvd ▸ (h d hr).1

theorem Made.extends_leaf (h : Made m m' n.id (n.op [] none)) (hresult : NewResult m m' n)
    (hstays : Stays m m') :
    Extends m m' (.leaf n .nil) where
  holds := ⟨⟨h.head?_self, fun d hd => (hresult d hd).2⟩, trivial⟩
  change := by
    have hchange := h.change ∅ (by simp [Node.op])
    have hset : {n.id} ∪ (∅ : Set OpId) = {id | id ∈ (Code.leaf n .nil).allIds} := by ext id; simp
    rwa [hset] at hchange
  nodup := List.nodup_singleton _
  fresh v hv := by
    rw [Code.results_leaf, Code.results_nil, List.append_nil] at hv
    exact (hresult.mem_results hv).ge
  distinct := by
    rw [Code.results_leaf, Code.results_nil, List.append_nil, Node.results]
    cases n.result <;> simp
  args := by simp
  stays := hstays

theorem Extends.distinct_new (hc : Extends m m₁ c) (hresult : NewResult m₁ m₂ n) :
    (∀ v ∈ n.results ++ c.results, m.values.size ≤ v.index) ∧ (n.results ++ c.results).Nodup := by
  have hn {v : ValueId} (hv : v ∈ n.results) : v.index = m₁.values.size := hresult.mem_results hv
  constructor
  · intro v hv
    obtain hv | hv := List.mem_append.mp hv
    · exact hn hv ▸ hc.change.values.size_le
    · exact hc.fresh v hv
  · refine List.nodup_append.mpr ⟨?_, hc.distinct, fun a ha b hb hab => ?_⟩
    · rw [Node.results]
      cases n.result <;> simp
    · have hlt := hc.holds.result_lt hb
      rw [← hab, hn ha] at hlt
      omega

theorem Made.extends_each {args : List ValueId} (hboth : Extends m m₁ (c ++ body))
    (h : Made m₁ m₂ n.id (n.op [{ args, ops := body.ids }] none)) (hresult : NewResult m₁ m₂ n)
    (hargs : ∀ a ∈ args, m₂.IsArg a) (hstays : Stays m m₂) : Extends m m₂ (c ++ .each n args body .nil) := by
  obtain ⟨hother, hbody⟩ := holds_append.mp hboth.holds
  obtain ⟨-, hnodup, hapart⟩ := List.nodup_append.mp (Code.allIds_append _ _ ▸ hboth.nodup)
  have hout {id : OpId} (hid : id ∈ c.allIds) : id ∉ body.ids := fun hin =>
    hapart id hid id (body.ids_subset_allIds hin) rfl
  obtain ⟨hfresh, hdistinct⟩ := hboth.distinct_new hresult
  refine ⟨holds_append.mpr ⟨?_, ⟨h.head?_self, fun d hd => (hresult d hd).2⟩, h.ops?_self 0, ?_, trivial⟩, ?_,
    ?_, ?_, ?_, fun a ha => ?_, hstays⟩
  · rw [← Code.rename_id c]
    refine hother.frame (fun id hid => ?_) (fun id hid index => ?_) h.values
    · rw [h.head?_kept (h.ne_self hother hid) (by simp [Node.op, hout hid]), Op.rename_id, Option.map_id']
    · exact h.ops?_kept fun he => h.ne_self hother hid (Option.some.inj he)
  · exact h.holds_region hbody hnodup (fun id hid => by simp [Node.op, placeIn, hid]) fun id hid hids => by
      simp [Node.op, hids]
  · have hwrap := h.change {id | id ∈ (c ++ body).allIds} (by
      simpa [Node.op] using fun id hid => .inr (body.ids_subset_allIds hid))
    have hall : Change m m₂ (fun v => v) ∅ _ none := hboth.change.trans hwrap
    have hset : {n.id} ∪ {id | id ∈ (c ++ body).allIds} =
        {id | id ∈ (c ++ Code.each n args body .nil).allIds} := by
      ext id
      simp [or_left_comm]
    rwa [hset] at hall
  · have hin : n.id ∉ c.allIds ++ body.allIds := fun hin =>
      h.ne_self hboth.holds (Code.allIds_append c body ▸ hin) rfl
    have hperm : (n.id :: (c.allIds ++ body.allIds)).Perm (c.allIds ++ n.id :: body.allIds) :=
      List.perm_middle.symm
    rw [Code.allIds_append, Code.allIds_each, Code.allIds_nil, List.append_nil]
    exact hperm.nodup (List.nodup_cons.mpr ⟨hin, Code.allIds_append c body ▸ hboth.nodup⟩)
  · intro v hv
    apply hfresh
    simpa [or_left_comm] using hv
  · rw [Code.results_append] at hdistinct ⊢
    rw [Code.results_each, Code.results_nil, List.append_nil]
    refine List.Perm.nodup ?_ hdistinct
    rw [← List.append_assoc, ← List.append_assoc]
    exact List.Perm.append_right _ List.perm_append_comm
  · have hold (a : ValueId) (ha : a ∈ (c ++ body).args) : m₂.IsArg a := (hboth.args a ha).settles h.values
    simp only [Code.args_append, Code.args_each, Code.args_nil, List.append_nil, List.mem_append] at ha hold
    obtain ha | ha | ha := ha
    · exact hold a (.inl ha)
    · exact hargs a ha
    · exact hold a (.inr ha)

theorem Made.holds_fork (h : Made m m' n.id (n.op [{ ops := first.ids }, { ops := second.ids }] none))
    (hresult : NewResult m m' n) (hfirst : m.Holds none first) (hsecond : m.Holds none second)
    (hnodup : (first.allIds ++ second.allIds).Nodup) : m'.Holds none (.fork n first second .nil) := by
  obtain ⟨hnodup₁, hnodup₂, hapart⟩ := List.nodup_append.mp hnodup
  refine ⟨⟨h.head?_self, fun d hd => (hresult d hd).2⟩, h.ops?_self 0, h.ops?_self 1, ?_, ?_, trivial⟩
  · have hout {id : OpId} (hid : id ∈ first.allIds) : id ∉ second.ids := fun hin =>
      hapart id hid id (second.ids_subset_allIds hin) rfl
    exact h.holds_region hfirst hnodup₁
      (fun id hid => by simp [Node.op, placeIn, hid, hout (first.ids_subset_allIds hid)])
      fun id hid hids => by simp [Node.op, hids, hout hid]
  · have hout {id : OpId} (hid : id ∈ second.allIds) : id ∉ first.ids := fun hin =>
      hapart id (first.ids_subset_allIds hin) id hid rfl
    exact h.holds_region hsecond hnodup₂ (fun id hid => by simp [Node.op, placeIn, hid])
      fun id hid hids => by simp [Node.op, hids, hout hid]

theorem Made.extends_fork (hboth : Extends m m₁ (first ++ second))
    (h : Made m₁ m₂ n.id (n.op [{ ops := first.ids }, { ops := second.ids }] none))
    (hresult : NewResult m₁ m₂ n)
    (hstays : Stays m₁ m₂) : Extends m m₂ (.fork n first second .nil) := by
  obtain ⟨hholds₁, hholds₂⟩ := holds_append.mp hboth.holds
  have hnodup := Code.allIds_append _ _ ▸ hboth.nodup
  obtain ⟨hfresh, hdistinct⟩ := hboth.distinct_new hresult
  refine ⟨h.holds_fork hresult hholds₁ hholds₂ hnodup, ?_, ?_, ?_, ?_, ?_,
    fun i info hi => hstays i info (hboth.stays i info hi)⟩
  · have hwrap := h.change {id | id ∈ (first ++ second).allIds} (by
      simp only [Node.op, List.forall_mem_cons, Code.allIds_append, List.mem_append]
      exact ⟨fun id hid => .inl (first.ids_subset_allIds hid),
        fun id hid => .inr (second.ids_subset_allIds hid),
        by simp⟩)
    have hall : Change m m₂ (fun v => v) ∅ _ none := hboth.change.trans hwrap
    have hset : {n.id} ∪ {id | id ∈ (first ++ second).allIds} =
        {id | id ∈ (Code.fork n first second .nil).allIds} := by
      ext id
      simp
    rwa [hset] at hall
  · have hin : n.id ∉ (first ++ second).allIds := fun hin => h.ne_self hboth.holds hin rfl
    simpa using And.intro (by simpa using hin) hboth.nodup
  · simpa [or_assoc] using hfresh
  · simpa using hdistinct
  · intro a ha
    exact (hboth.args a (by simpa using ha)).settles h.values

theorem stays_push {info : ValueInfo} (h : m'.values = m.values.push info) : Stays m m' := by
  intro i info' hi
  have hlt : i < m.values.size := (Array.getElem?_eq_some_iff.mp hi).1
  rw [h, Array.getElem?_push, if_neg (Nat.ne_of_lt hlt), hi]

theorem stays_of_eq (h : m'.values = m.values) : Stays m m' := fun _ _ hi => h ▸ hi

theorem Extends.reorder (h : Extends m m' c) (hholds : m'.Holds none c → m'.Holds none d)
    (hids : c.allIds.Perm d.allIds) (hresults : c.results.Perm d.results) (hargs : d.args ⊆ c.args) :
    Extends m m' d where
  holds := hholds h.holds
  change := by
    have hset : {id | id ∈ c.allIds} = {id | id ∈ d.allIds} := by
      ext id
      exact hids.mem_iff
    exact hset ▸ h.change
  nodup := hids.nodup h.nodup
  fresh v hv := h.fresh v (hresults.mem_iff.mpr hv)
  distinct := hresults.nodup h.distinct
  args a ha := h.args a (hargs ha)
  stays := h.stays

theorem Extends.swap (h : Extends m m' (first ++ (second ++ c))) : Extends m m' (second ++ (first ++ c)) := by
  refine h.reorder (fun h => ?_) ?_ ?_ fun a ha => ?_
  · simp only [holds_append] at h ⊢
    tauto
  · rw [List.perm_iff_count]
    intro id
    simp only [Code.allIds_append, List.count_append]
    omega
  · rw [List.perm_iff_count]
    intro v
    simp only [Code.results_append, List.count_append]
    omega
  · simp only [Code.args_append, List.mem_append] at ha ⊢
    tauto

theorem newValue_extends (h : m.Sound) (ty : ValueType) (k : Nat) :
    Extends m (m.newValue ty (.arg none k)).2 .nil where
  holds := trivial
  change := by
    refine ⟨by simp, by simp, fun id _ _ => ?_, fun q _ _ => ?_, .push _ _, rfl, h.free_nodup, h.mem_free,
      h.users, ?_⟩
    · rw [Op.rename_id, Option.map_id']
      rfl
    · cases q <;> rfl
    · intro id op v hop hv
      obtain ⟨ty', hty'⟩ := h.results id op v hop hv
      exact ⟨ty', (Settles.push _ _).result hty'⟩
  nodup := List.nodup_nil
  fresh := by simp
  distinct := List.nodup_nil
  args := by simp
  stays := stays_push rfl

end Module

end Choco.IR
