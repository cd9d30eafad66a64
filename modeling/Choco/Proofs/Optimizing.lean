import Choco.Proofs.Computes

namespace Choco.IR

open Choco.IR.Module

variable {c d : Code} {n : Node} {args : List (List ValueId)} {q : Place} {id : OpId} {m : Module}

namespace Code

def heads : Code → List (Node × List (List ValueId))
  | nil => []
  | leaf n rest => (n, []) :: rest.heads
  | each n args _ rest => (n, [args]) :: rest.heads
  | fork n _ _ rest => (n, [[], []]) :: rest.heads

theorem ids_eq_heads (c : Code) : c.ids = c.heads.map (·.1.id) := by
  induction c with
  | nil => rfl
  | leaf n rest ih => simp [ids, heads, ih]
  | each n args body rest _ ih => simp [ids, heads, ih]
  | fork n first second rest _ _ ih => simp [ids, heads, ih]

theorem mem_nodes_of_heads (h : (n, args) ∈ c.heads) : n ∈ c.nodes := by
  induction c with
  | nil => cases h
  | leaf n' rest ih =>
    simp only [heads, nodes, List.mem_cons, Prod.mk.injEq] at h ⊢
    exact h.imp (·.1) ih
  | each n' args' body rest _ ih =>
    simp only [heads, nodes, List.mem_cons, List.mem_append, Prod.mk.injEq] at h ⊢
    exact h.imp (·.1) fun h => .inr (ih h)
  | fork n' first second rest _ _ ih =>
    simp only [heads, nodes, List.mem_cons, List.mem_append, Prod.mk.injEq] at h ⊢
    exact h.imp (·.1) fun h => .inr (.inr (ih h))

def Inside : Code → Place → Code → Prop
  | nil, _, _ => False
  | leaf _ rest, q, d => rest.Inside q d
  | each n _ body rest, q, d => (q = .nested n.id 0 ∧ d = body) ∨ body.Inside q d ∨ rest.Inside q d
  | fork n first second rest, q, d =>
    (q = .nested n.id 0 ∧ d = first) ∨ (q = .nested n.id 1 ∧ d = second) ∨ first.Inside q d ∨
      second.Inside q d ∨ rest.Inside q d

theorem Inside.nodes_subset (h : c.Inside q d) : d.nodes ⊆ c.nodes := by
  induction c with
  | nil => cases h
  | leaf n rest ih => exact List.subset_cons_of_subset _ (ih h)
  | each n args body rest ihb ih =>
    simp only [nodes]
    rcases h with ⟨-, rfl⟩ | h | h
    · simp
    · exact List.subset_cons_of_subset _ (List.subset_append_of_subset_left _ (ihb h))
    · exact List.subset_cons_of_subset _ (List.subset_append_of_subset_right _ (ih h))
  | fork n first second rest iha ihb ih =>
    simp only [nodes]
    intro n' hn'
    simp only [List.mem_cons, List.mem_append]
    rcases h with ⟨-, rfl⟩ | ⟨-, rfl⟩ | h | h | h
    · exact .inr (.inl hn')
    · exact .inr (.inr (.inl hn'))
    · exact .inr (.inl (iha h hn'))
    · exact .inr (.inr (.inl (ihb h hn')))
    · exact .inr (.inr (.inr (ih h hn')))

def ListAt (c : Code) (q : Place) (d : Code) : Prop := (q = .top ∧ d = c) ∨ c.Inside q d

theorem ListAt.mem_nodes (h : c.ListAt q d) (hn : (n, args) ∈ d.heads) : n ∈ c.nodes := by
  obtain ⟨-, rfl⟩ | h := h
  · exact mem_nodes_of_heads hn
  · exact h.nodes_subset (mem_nodes_of_heads hn)

theorem exists_listAt (hn : n ∈ c.nodes) : ∃ q d args, c.ListAt q d ∧ (n, args) ∈ d.heads := by
  have hstep (c : Code) (hn : n ∈ c.nodes) :
      (∃ args, (n, args) ∈ c.heads) ∨ ∃ q d args, c.Inside q d ∧ (n, args) ∈ d.heads := by
    induction c with
    | nil => cases hn
    | leaf n' rest ih =>
      obtain rfl | hn := List.mem_cons.mp hn
      · exact .inl ⟨_, List.mem_cons_self⟩
      · exact (ih hn).imp_left fun ⟨args, h⟩ => ⟨args, List.mem_cons_of_mem _ h⟩
    | each n' args' body rest ihb ih =>
      simp only [nodes, List.mem_cons, List.mem_append] at hn
      rcases hn with rfl | hn | hn
      · exact .inl ⟨_, List.mem_cons_self⟩
      · right
        obtain ⟨args, h⟩ | ⟨q, d, args, hd, h⟩ := ihb hn
        · exact ⟨_, body, args, .inl ⟨rfl, rfl⟩, h⟩
        · exact ⟨q, d, args, .inr (.inl hd), h⟩
      · obtain ⟨args, h⟩ | ⟨q, d, args, hd, h⟩ := ih hn
        · exact .inl ⟨args, List.mem_cons_of_mem _ h⟩
        · exact .inr ⟨q, d, args, .inr (.inr hd), h⟩
    | fork n' first second rest iha ihb ih =>
      simp only [nodes, List.mem_cons, List.mem_append] at hn
      rcases hn with rfl | hn | hn | hn
      · exact .inl ⟨_, List.mem_cons_self⟩
      · right
        obtain ⟨args, h⟩ | ⟨q, d, args, hd, h⟩ := iha hn
        · exact ⟨_, first, args, .inl ⟨rfl, rfl⟩, h⟩
        · exact ⟨q, d, args, .inr (.inr (.inl hd)), h⟩
      · right
        obtain ⟨args, h⟩ | ⟨q, d, args, hd, h⟩ := ihb hn
        · exact ⟨_, second, args, .inr (.inl ⟨rfl, rfl⟩), h⟩
        · exact ⟨q, d, args, .inr (.inr (.inr (.inl hd))), h⟩
      · obtain ⟨args, h⟩ | ⟨q, d, args, hd, h⟩ := ih hn
        · exact .inl ⟨args, List.mem_cons_of_mem _ h⟩
        · exact .inr ⟨q, d, args, .inr (.inr (.inr (.inr hd))), h⟩
  obtain ⟨args, h⟩ | ⟨q, d, args, hd, h⟩ := hstep c hn
  · exact ⟨.top, c, args, .inl ⟨rfl, rfl⟩, h⟩
  · exact ⟨q, d, args, .inr hd, h⟩

end Code

open Code

section Places

variable {N : Nat} {m : Module} {θ f g : ValueId → ValueId} {c d : Code} {q : Place} {parent : Option Place}
  {ids : List OpId}

theorem Module.Holds.inside (h : m.Holds parent (c.map f g)) (hin : c.Inside q d) :
    m.ops? q = some d.ids ∧ m.Holds (some q) (d.map f g) := by
  induction c generalizing parent with
  | nil => cases hin
  | leaf n rest ih => exact ih h.2 hin
  | each n args body rest ihb ih =>
    obtain ⟨-, hids, hbody, hrest⟩ := h
    rw [ids_map] at hids
    rcases hin with ⟨rfl, rfl⟩ | hin | hin
    · exact ⟨hids, hbody⟩
    · exact ihb hbody hin
    · exact ih hrest hin
  | fork n first second rest iha ihb ih =>
    obtain ⟨-, hids₁, hids₂, hfirst, hsecond, hrest⟩ := h
    rw [ids_map] at hids₁ hids₂
    rcases hin with ⟨rfl, rfl⟩ | ⟨rfl, rfl⟩ | hin | hin | hin
    · exact ⟨hids₁, hfirst⟩
    · exact ⟨hids₂, hsecond⟩
    · exact iha hfirst hin
    · exact ihb hsecond hin
    · exact ih hrest hin

theorem Module.Holds.exists_inside (h : m.Holds parent (c.map f g)) (hn : n ∈ c.nodes) {i : Nat}
    (hids : m.ops? (.nested n.id i) = some ids) : ∃ d, c.Inside (.nested n.id i) d := by
  have hregion {n : Node} {args : List (List ValueId)} {parent : Option Place}
      (hnode : m.HasNode parent (n.map f g) args) (hids : m.ops? (.nested n.id i) = some ids) :
      i < args.length := by
    obtain ⟨regions, hop, rfl⟩ := hnode.get?
    by_contra hlt
    rw [List.length_map, Nat.not_lt] at hlt
    rw [ops?, show m.get? n.id = _ from hop] at hids
    simp [Node.op, List.getElem?_eq_none hlt] at hids
  induction c generalizing parent with
  | nil => cases hn
  | leaf n' rest ih =>
    obtain rfl | hn := List.mem_cons.mp hn
    · exact absurd (hregion h.1 hids) (by simp)
    · exact ih h.2 hn
  | each n' args body rest ihb ih =>
    obtain ⟨hnode, -, hbody, hrest⟩ := h
    simp only [nodes, List.mem_cons, List.mem_append] at hn
    rcases hn with rfl | hn | hn
    · obtain rfl : i = 0 := by simpa using hregion hnode hids
      exact ⟨body, .inl ⟨rfl, rfl⟩⟩
    · exact (ihb hbody hn).imp fun d hd => .inr (.inl hd)
    · exact (ih hrest hn).imp fun d hd => .inr (.inr hd)
  | fork n' first second rest iha ihb ih =>
    obtain ⟨hnode, -, -, hfirst, hsecond, hrest⟩ := h
    simp only [nodes, List.mem_cons, List.mem_append] at hn
    rcases hn with rfl | hn | hn | hn
    · have hlt : i < 2 := hregion hnode hids
      obtain rfl | rfl : i = 0 ∨ i = 1 := by omega
      · exact ⟨first, .inl ⟨rfl, rfl⟩⟩
      · exact ⟨second, .inr (.inl ⟨rfl, rfl⟩)⟩
    · exact (iha hfirst hn).imp fun d hd => .inr (.inr (.inl hd))
    · exact (ihb hsecond hn).imp fun d hd => .inr (.inr (.inr (.inl hd)))
    · exact (ih hrest hn).imp fun d hd => .inr (.inr (.inr (.inr hd)))

theorem Module.Holds.hasNode_heads (h : m.Holds parent (c.map f g)) (hn : (n, args) ∈ c.heads) :
    m.HasNode parent (n.map f g) args := by
  induction c with
  | nil => cases hn
  | leaf n' rest ih =>
    obtain he | hn := List.mem_cons.mp hn
    · cases he
      exact h.1
    · exact ih h.2 hn
  | each n' args' body rest _ ih =>
    obtain he | hn := List.mem_cons.mp hn
    · cases he
      exact h.1
    · exact ih h.2.2.2 hn
  | fork n' first second rest _ _ ih =>
    obtain he | hn := List.mem_cons.mp hn
    · cases he
      exact h.1
    · exact ih h.2.2.2.2.2 hn

theorem Named.listAt (h : Named N m θ c) (hd : c.ListAt q d) :
    m.ops? q = some d.ids ∧ ∀ n args, (n, args) ∈ d.heads → m.HasNode (some q) (n.map θ θ) args := by
  have htop := h.models.top
  rw [Code.relabel, ids_map] at htop
  obtain ⟨rfl, rfl⟩ | hd := hd
  · exact ⟨htop, fun n args => h.models.holds.hasNode_heads⟩
  · obtain ⟨hids, hholds⟩ := h.models.holds.inside hd
    exact ⟨hids, fun n args => hholds.hasNode_heads⟩

theorem Named.exists_listAt (h : Named N m θ c) (hids : m.ops? q = some ids) :
    ∃ d, c.ListAt q d ∧ ids = d.ids := by
  suffices hd : ∃ d, c.ListAt q d by
    obtain ⟨d, hd⟩ := hd
    exact ⟨d, hd, Option.some.inj (hids.symm.trans (h.listAt hd).1)⟩
  cases q with
  | top => exact ⟨c, .inl ⟨rfl, rfl⟩⟩
  | nested id i =>
    obtain ⟨op, hop⟩ : ∃ op, m.get? id = some op := by
      cases hop : m.get? id with
      | none => simp [ops?, hop] at hids
      | some op => exact ⟨op, rfl⟩
    have hid := h.models.cover id op hop
    rw [allIds_nil, List.append_nil, Code.relabel, allIds_map] at hid
    obtain ⟨n, hn, rfl⟩ := List.mem_map.mp hid
    exact (h.models.holds.exists_inside hn hids).imp fun d hd => .inr hd

theorem Named.exists_head (h : Named N m θ c) {op : Op} (hop : m.get? id = some op) :
    ∃ q d n args regions, c.ListAt q d ∧ (n, args) ∈ d.heads ∧ n.id = id ∧
      op = (n.map θ θ).op regions (some q) ∧
      regions.map Region.args = args := by
  have hid := h.models.cover id op hop
  rw [allIds_nil, List.append_nil, Code.relabel, allIds_map] at hid
  obtain ⟨n, hn, rfl⟩ := List.mem_map.mp hid
  obtain ⟨q, d, args, hd, hhead⟩ := Code.exists_listAt hn
  obtain ⟨regions, hop', hargs⟩ := ((h.listAt hd).2 n args hhead).get?
  exact ⟨q, d, n, args, regions, hd, hhead, rfl, Option.some.inj (hop.symm.trans hop'), hargs⟩

end Places

section Pruning

variable {c₁ : Code}

/-- Operations without regions become others or, if they have no effect, are left out. -/
inductive Pruned (R : Node → Node → Prop) : Code → Code → Prop
  | nil : Pruned R nil nil
  | leaf {n n' : Node} {rest rest' : Code} (hn : R n n') (hrest : Pruned R rest rest') :
      Pruned R (leaf n rest) (leaf n' rest')
  | drop {n : Node} {rest rest' : Code} (hn : n.kind.isPure) (hrest : Pruned R rest rest') :
      Pruned R (leaf n rest) rest'
  | each {n : Node} {args : List ValueId} {body body' rest rest' : Code} (hbody : Pruned R body body')
      (hrest : Pruned R rest rest') : Pruned R (each n args body rest) (each n args body' rest')
  | fork {n : Node} {first first' second second' rest rest' : Code} (hfirst : Pruned R first first')
      (hsecond : Pruned R second second') (hrest : Pruned R rest rest') :
      Pruned R (fork n first second rest) (fork n first' second' rest')

namespace Pruned

variable {R : Node → Node → Prop} {c c' d d' : Code} {q : Place}

theorem inside (h : Pruned R c c') (hd : c.Inside q d) : ∃ d', c'.Inside q d' ∧ Pruned R d d' := by
  induction h with
  | nil => cases hd
  | leaf _ _ ih | drop _ _ ih => exact ih hd
  | each hbody _ ihb ih =>
    rcases hd with ⟨rfl, rfl⟩ | hd | hd
    · exact ⟨_, .inl ⟨rfl, rfl⟩, hbody⟩
    · exact (ihb hd).imp fun d' => And.imp_left fun hd' => .inr (.inl hd')
    · exact (ih hd).imp fun d' => And.imp_left fun hd' => .inr (.inr hd')
  | fork hfirst hsecond _ iha ihb ih =>
    rcases hd with ⟨rfl, rfl⟩ | ⟨rfl, rfl⟩ | hd | hd | hd
    · exact ⟨_, .inl ⟨rfl, rfl⟩, hfirst⟩
    · exact ⟨_, .inr (.inl ⟨rfl, rfl⟩), hsecond⟩
    · exact (iha hd).imp fun d' => And.imp_left fun hd' => .inr (.inr (.inl hd'))
    · exact (ihb hd).imp fun d' => And.imp_left fun hd' => .inr (.inr (.inr (.inl hd')))
    · exact (ih hd).imp fun d' => And.imp_left fun hd' => .inr (.inr (.inr (.inr hd')))

theorem of_inside (h : Pruned R c c') (hd : c'.Inside q d') : ∃ d, c.Inside q d ∧ Pruned R d d' := by
  induction h with
  | nil => cases hd
  | leaf _ _ ih | drop _ _ ih => exact ih hd
  | each hbody _ ihb ih =>
    rcases hd with ⟨rfl, rfl⟩ | hd | hd
    · exact ⟨_, .inl ⟨rfl, rfl⟩, hbody⟩
    · exact (ihb hd).imp fun d => And.imp_left fun hd => .inr (.inl hd)
    · exact (ih hd).imp fun d => And.imp_left fun hd => .inr (.inr hd)
  | fork hfirst hsecond _ iha ihb ih =>
    rcases hd with ⟨rfl, rfl⟩ | ⟨rfl, rfl⟩ | hd | hd | hd
    · exact ⟨_, .inl ⟨rfl, rfl⟩, hfirst⟩
    · exact ⟨_, .inr (.inl ⟨rfl, rfl⟩), hsecond⟩
    · exact (iha hd).imp fun d => And.imp_left fun hd => .inr (.inr (.inl hd))
    · exact (ihb hd).imp fun d => And.imp_left fun hd => .inr (.inr (.inr (.inl hd)))
    · exact (ih hd).imp fun d => And.imp_left fun hd => .inr (.inr (.inr (.inr hd)))

theorem listAt (h : Pruned R c c') (hd : c.ListAt q d) : ∃ d', c'.ListAt q d' ∧ Pruned R d d' := by
  obtain ⟨rfl, rfl⟩ | hd := hd
  · exact ⟨c', .inl ⟨rfl, rfl⟩, h⟩
  · exact (h.inside hd).imp fun d' => And.imp_left .inr

theorem of_listAt (h : Pruned R c c') (hd : c'.ListAt q d') : ∃ d, c.ListAt q d ∧ Pruned R d d' := by
  obtain ⟨rfl, rfl⟩ | hd := hd
  · exact ⟨c, .inl ⟨rfl, rfl⟩, h⟩
  · exact (h.of_inside hd).imp fun d => And.imp_left .inr

theorem of_heads (h : Pruned R c c') {n' : Node} (hn' : (n', args) ∈ c'.heads) :
    ∃ n, (n, args) ∈ c.heads ∧ (n' = n ∨ R n n' ∧ args = []) := by
  induction h with
  | nil => cases hn'
  | leaf hn _ ih =>
    obtain he | hn' := List.mem_cons.mp hn'
    · cases he
      exact ⟨_, List.mem_cons_self, .inr ⟨hn, rfl⟩⟩
    · exact (ih hn').imp fun n => And.imp_left (List.mem_cons_of_mem _)
  | drop _ _ ih => exact (ih hn').imp fun n => And.imp_left (List.mem_cons_of_mem _)
  | each _ _ _ ih | fork _ _ _ _ _ ih =>
    obtain he | hn' := List.mem_cons.mp hn'
    · cases he
      exact ⟨_, List.mem_cons_self, .inl rfl⟩
    · exact (ih hn').imp fun n => And.imp_left (List.mem_cons_of_mem _)

theorem filter_heads (h : Pruned R c c') (hR : ∀ n n', R n n' → n = n' ∨ n.kind.isPure ∧ n'.kind.isPure) :
    c'.heads.filter (!·.1.kind.isPure) = c.heads.filter (!·.1.kind.isPure) := by
  induction h with
  | nil => rfl
  | @leaf n n' _ _ hn _ ih =>
    obtain rfl | ⟨hpure, hpure'⟩ := hR n n' hn
    · simp only [heads, List.filter_cons, ih]
    · simp [heads, hpure, hpure', ih]
  | drop hn _ ih => simp [heads, hn, ih]
  | each _ _ _ ih | fork _ _ _ _ _ ih => simp only [heads, List.filter_cons, ih]

end Pruned

theorem pruned_sweep (h : c.Maps (FoldCode c₁) d) :
    Pruned (fun n n' => FoldCode c₁ n (.leaf n' .nil)) c d.sweep := by
  induction c generalizing d with
  | nil =>
    obtain rfl : d = Code.nil := h
    exact .nil
  | leaf n rest ih =>
    obtain ⟨e, rest', rfl, he, hrest⟩ := h
    have hsweep {n' : Node} (hn' : FoldCode c₁ n (.leaf n' .nil)) (hpure : n'.kind.isPure → n.kind.isPure) :
        Pruned (fun n n' => FoldCode c₁ n (.leaf n' .nil)) (leaf n rest)
          (Code.leaf n' .nil ++ rest').sweep := by
      rw [leaf_append, nil_append]
      obtain ⟨hdrop, -, heq⟩ | heq := sweep_leaf_eq n' rest'
      · rw [heq]
        exact .drop (hpure hdrop) (ih hrest)
      · rw [heq]
        exact .leaf hn' (ih hrest)
    cases he with
    | keep => exact hsweep .keep id
    | sum id x y j k r hkind hoperands hr hx hy =>
      exact hsweep (.sum id x y j k r hkind hoperands hr hx hy) fun _ => by rw [hkind]; rfl
  | each n args body rest ihb ih =>
    obtain ⟨body', rest', rfl, hbody, hrest⟩ := h
    exact .each (ihb hbody) (ih hrest)
  | fork n first second rest iha ihb ih =>
    obtain ⟨first', second', rest', rfl, hfirst, hsecond, hrest⟩ := h
    exact .fork (iha hfirst) (ihb hsecond) (ih hrest)

theorem results_fold (h : c.Maps (FoldCode c₁) d) : d.results = c.results ∧ d.args = c.args := by
  induction c generalizing d with
  | nil => exact h ▸ ⟨rfl, rfl⟩
  | leaf n rest ih =>
    obtain ⟨e, rest', rfl, he, hrest⟩ := h
    obtain ⟨hresults, hargs⟩ := ih hrest
    cases he with
    | keep => simp [Code.args, hresults, hargs]
    | sum id x y j k r hkind hoperands hr hx hy => simp [Code.args, hresults, hargs, Node.results, hr]
  | each n args body rest ihb ih =>
    obtain ⟨body', rest', rfl, hbody, hrest⟩ := h
    simp [ihb hbody, ih hrest]
  | fork n first second rest iha ihb ih =>
    obtain ⟨first', second', rest', rfl, hfirst, hsecond, hrest⟩ := h
    simp [Code.args, iha hfirst, ihb hsecond, ih hrest]

theorem args_sweep (c : Code) : c.sweep.args = c.args := by
  induction c with
  | nil => rfl
  | leaf n rest ih =>
    obtain ⟨-, -, heq⟩ | heq := sweep_leaf_eq n rest
    · rw [heq, ih, Code.args]
    · rw [heq, Code.args, ih, Code.args]
  | each n args body rest ihb ih => simp [Code.sweep, ihb, ih]
  | fork n first second rest iha ihb ih => simp [Code.sweep, Code.args, iha, ihb, ih]

end Pruning

theorem Code.Functions.plain (h : c.Functions) (n : Node) (hn : n ∈ c.nodes) (hcomputed : n.kind.isComputed) :
    n.Plain := by
  obtain hplain | hyield | hregions := h.mem_nodes hn
  · exact hplain
  · rw [hyield] at hcomputed
    cases hcomputed
  · rw [not_isComputed_of_hasRegions hregions] at hcomputed
    cases hcomputed

/-- Whatever words the values have that are not computed, the two values have the same word, each in its own
module. -/
def SameWord (m m' : Module) (x x' : ValueId) : Prop :=
  ∀ ρ, ∃ w, (∀ w', Computes m.Defines ρ x w' ↔ w' = w) ∧ ∀ w', Computes m'.Defines ρ x' w' ↔ w' = w

/-- The second operation, of the second module, is the first apart from its operands, which have the same
words, and from what its regions hold. -/
structure Op.Survives (m m' : Module) (op op' : Op) : Prop where
  kind : op'.kind = op.kind
  result : op'.result = op.result
  parent : op'.parent = op.parent
  args : op'.regions.map Region.args = op.regions.map Region.args
  operands : List.Forall₂ (SameWord m m') op.operands op'.operands

/-- The operation is a literal for the word of a sum that was in its list. -/
def Op.StandsForSum (m m' : Module) (op' : Op) : Prop :=
  ∃ id x y v v' k, m.get? id = some ⟨.binary .add, [x, y], some v, [], op'.parent⟩ ∧
    op' = ⟨.literal (.int k), [], some v', [], op'.parent⟩ ∧ (∀ ρ, Computes m.Defines ρ v k) ∧
      SameWord m m' v v' ∧
    ∀ id' op, m'.get? id' = some op → op.result ≠ some v

def Module.hasEffect (m : Module) (id : OpId) : Bool := (m.get? id).any fun op => !op.kind.isPure

section Optimizing

variable {m m' : Module} {c c₁ : Code} {θ : ValueId → ValueId}

theorem sameWord_optimize (h : m.Renders Kind.flattens c) (hmaps : c.Maps (FoldCode c₁) c₁)
    (htraced : Traced m.values.size c θ c₁) (hnamed : Named m.values.size m' θ c₁.sweep) {v : ValueId}
    (hv : v ∈ c₁.sweep.results ∨ v ∈ c₁.sweep.args) : SameWord m m' v (θ v) := by
  obtain ⟨hresults, hargs⟩ := results_fold hmaps
  have hsub : c₁.sweep.results ⊆ c.results := by
    intro v hv
    obtain ⟨n, hn, hv⟩ := List.mem_flatMap.mp hv
    rw [← hresults]
    exact List.mem_flatMap.mpr ⟨n, mem_nodes_sweep hn, hv⟩
  have hargs' : c₁.sweep.args = c.args := (args_sweep c₁).trans hargs
  have hnodup : c.results.Nodup := h.named.nodup
  have hnodup₁ : c₁.results.Nodup := hresults ▸ hnodup
  have harg {v : ValueId} (hv : v ∈ c₁.sweep.args) : v ∉ c.results := by
    rw [hargs'] at hv
    exact fun hv' => h.named.arg_ne hv hv' rfl
  have hleft {v : ValueId} (hv : v ∈ c₁.sweep.results ∨ v ∈ c₁.sweep.args) :
      v ∈ c₁.sweep.results ∨ v ∉ c₁.results := by
    rw [hresults]
    exact hv.imp_right harg
  have hplain₁ := (hmaps.functions (localRewrite_fold c₁) h.functions).plain
  intro ρ
  obtain ⟨w, hw⟩ : ∃ w, Computes c.Defines ρ v w := by
    obtain hv | hv := hv
    · exact h.scope.exists_computes hnodup h.functions.plain (List.Subset.refl _)
        (fun _ => False.elim) v (hsub hv)
    · exact ⟨_, computes_of_not_mem (harg hv)⟩
  have hm : Computes m.Defines ρ v w :=
    (h.models.computes_iff h.args h.named.closed (hv.imp (hsub ·) (hargs' ▸ ·))).mpr hw
  have hrelabel : Computes (c₁.sweep.relabel θ).Defines ρ (θ v) w := by
    have hw₁ := computes_fold hmaps hnodup₁ hplain₁ hw
    have hw₂ := computes_sweep hnodup₁ (fun x hx => hleft (hnamed.closed x hx)) (hleft hv) hw₁
    refine hnamed.computes_relabel (fun u hu hgiven => ?_) hv hw₂
    obtain ⟨n, hn, hu⟩ := List.mem_flatMap.mp hu
    obtain ⟨-, hfix⟩ | ⟨-, ⟨k, hk⟩, -⟩ := htraced n (mem_nodes_sweep hn)
    · exact hfix u hu
    · cases hgiven _ _ ⟨n, hn, hu, hk, rfl⟩
  have hm' : Computes m'.Defines ρ (θ v) w := by
    have hv' : θ v ∈ (c₁.sweep.relabel θ).results ∨ θ v ∈ (c₁.sweep.relabel θ).args := by
      rw [Code.relabel, results_map, args_map]
      obtain hv | hv := hv
      · exact .inl (List.mem_map_of_mem hv)
      · exact .inr (by rwa [(hnamed.args v hv).1])
    refine (hnamed.models.computes_iff (fun a ha => ?_) (fun x hx => ?_) hv').mpr hrelabel
    · rw [Code.relabel, args_map] at ha
      exact (hnamed.args a ha).2
    · rw [Code.relabel, uses_map] at hx
      rw [Code.relabel, results_map, args_map]
      obtain ⟨u, hu, rfl⟩ := List.mem_map.mp hx
      obtain hu | hu := hnamed.closed u hu
      · exact .inl (List.mem_map_of_mem hu)
      · exact .inr (by rwa [(hnamed.args u hu).1])
  exact ⟨w, fun w' => ⟨fun hw' => hw'.unique Module.Defines.unique hm, fun he => he ▸ hm⟩,
    fun w' => ⟨fun hw' => hw'.unique Module.Defines.unique hm', fun he => he ▸ hm'⟩⟩

theorem survives_optimize (h : m.Renders Kind.flattens c) (hmaps : c.Maps (FoldCode c₁) c₁)
    (htraced : Traced m.values.size c θ c₁) (hnamed : Named m.values.size m' θ c₁.sweep) (hn : n ∈ c.nodes)
    (hn' : n ∈ c₁.sweep.nodes) {regions regions' : List Region}
    (hargs : regions'.map Region.args = regions.map Region.args) (q : Place) :
    (n.op regions (some q)).Survives m m' ((n.map θ θ).op regions' (some q)) where
  kind := rfl
  result := by
    obtain ⟨-, hfix⟩ | ⟨hout, -⟩ := htraced n (mem_nodes_sweep hn')
    · cases hr : n.result with
      | none => simp [Node.op, Node.map, hr]
      | some r => simpa [Node.op, Node.map, hr] using hfix r.value (by simp [Node.results, hr])
    · exact absurd hn hout
  parent := rfl
  args := hargs
  operands := by
    refine List.forall₂_map_right_iff.mpr (List.forall₂_same.mpr fun x hx => ?_)
    exact sameWord_optimize h hmaps htraced hnamed (hnamed.closed x (List.mem_flatMap.mpr ⟨n, hn', hx⟩))

theorem standsForSum_optimize (h : m.Renders Kind.flattens c) (hmaps : c.Maps (FoldCode c₁) c₁)
    (htraced : Traced m.values.size c θ c₁) (hnamed : Named m.values.size m' θ c₁.sweep) {k : Int32}
    {x y : ValueId} {r : Def}
    {ty : ValueType} (hn : n ∈ c.nodes) (hop : m.get? n.id = some (n.op [] (some q)))
    (hkind : n.kind = .binary .add)
    (hoperands : n.operands = [x, y]) (hr : n.result = some r)
    (hn' : ⟨id, .literal (.int k), [], some ⟨r.value, ty⟩⟩ ∈ c₁.sweep.nodes) :
    (Op.mk (.literal (.int k)) [] (some (θ r.value)) [] (some q)).StandsForSum m m' := by
  have hv : r.value ∈ n.results := by simp [Node.results, hr]
  have hv' : r.value ∈ c₁.sweep.results := List.mem_flatMap.mpr ⟨_, hn', by simp [Node.results]⟩
  have hsame := sameWord_optimize h hmaps htraced hnamed (.inl hv')
  have hnodup₁ : c₁.results.Nodup := (results_fold hmaps).1 ▸ h.named.nodup
  refine ⟨n.id, x, y, r.value, θ r.value, k, ?_, rfl, fun ρ => ?_, hsame, fun id' op hop' he => ?_⟩
  · simpa [Node.op, hkind, hoperands, hr] using hop
  · obtain ⟨w, hw, hw'⟩ := hsame ρ
    rw [hw]
    refine (hw' k).mp (.literal (l := .int k) ?_ rfl)
    obtain ⟨parent, args, hnode⟩ := hnamed.hasNode hn'
    obtain ⟨regions, hget, -⟩ := hnode.get?
    have hvalue := hnode.value ⟨θ r.value, ty⟩ rfl
    exact ⟨_, by rw [definingOp?, hvalue]; exact hget, rfl, rfl⟩
  · -- An operation that has kept its result would be the sum, and other results are new.
    obtain ⟨q', d, n', args, regions, hd, hhead, -, rfl, -⟩ := hnamed.exists_head hop'
    have hin := mem_nodes_sweep (hd.mem_nodes hhead)
    obtain ⟨r', hr', hθ⟩ : ∃ r' ∈ n'.result, θ r'.value = r.value := by
      simpa [Node.op, Node.map] using he
    have hvr' : r'.value ∈ n'.results := by simp_all [Node.results]
    obtain ⟨hin₀, hfix⟩ | ⟨-, -, hle⟩ := htraced n' hin
    · rw [hfix _ hvr'] at hθ
      obtain rfl := eq_of_mem_results h.named.nodup hn hin₀ hv (hθ ▸ hvr')
      have heq := eq_of_mem_results hnodup₁ hin (mem_nodes_sweep hn') hv (by simp [Node.results])
      rw [heq] at hkind
      cases hkind
    · have hlt := h.result_lt _ (List.mem_flatMap.mpr ⟨n, hn, hv⟩)
      have hle := hle _ hvr'
      rw [hθ] at hle
      omega

end Optimizing

theorem hasEffect_iff {parent : Option Place} (h : m.HasNode parent n args) :
    m.hasEffect n.id = !n.kind.isPure := by
  obtain ⟨regions, hop, -⟩ := h.get?
  simp [Module.hasEffect, hop, Node.op]

theorem Named.filter_hasEffect {N : Nat} {θ : ValueId → ValueId} (h : Named N m θ c) (hd : c.ListAt q d) :
    d.ids.filter m.hasEffect = (d.heads.filter (!·.1.kind.isPure)).map (·.1.id) := by
  rw [ids_eq_heads, List.filter_map]
  congr 1
  refine List.filter_congr fun ⟨n, args⟩ hn => ?_
  have heffect := hasEffect_iff ((h.listAt hd).2 n args hn)
  exact heffect

/-- Folding and dropping code keeps every operation with an effect, each in its list and in order. All that is
new are literals for sums, and all operands have the words that they had. -/
theorem optimize_preserves_meaning {p : Program} {m₀ m₁ m : Module} {loops libraryUses level : Nat}
    (hprogram : Module.ofProgram p = .ok m₀) (hloops : Edit.replaceLoops m₀ = .ok loops m₁)
    (hlibrary : Edit.replaceLibraryUses m₁ = .ok libraryUses m) (hlevel : 1 ≤ level) :
    ∃ savings m', Edit.optimize level m = .ok savings m' ∧
      (∀ id op, m.get? id = some op → op.kind.isPure = false → ∃ op', m'.get? id = some op' ∧
        op.Survives m m' op') ∧
      (∀ place ids, m.ops? place = some ids →
        ∃ ids', m'.ops? place = some ids' ∧ ids'.filter m'.hasEffect = ids.filter m.hasEffect) ∧
      ∀ id op', m'.get? id = some op' → (∃ op, m.get? id = some op ∧ op.Survives m m' op') ∨
        op'.StandsForSum m m' := by
  obtain ⟨c₀, h₀, -⟩ := ofProgram_renders hprogram
  obtain ⟨c', h₁, -⟩ := h₀.replaceLoops hloops
  obtain ⟨c'', θ', -, -, -, h⟩ := h₁.replaceLibraryUses hlibrary
  generalize c''.relabel θ' = c at h
  obtain ⟨savings, m', c₁, θ, hrun, hmaps, htraced, hnamed, -⟩ :=
    h.optimize (Nat.one_le_iff_ne_zero.mp hlevel)
  have hpruned := pruned_sweep hmaps
  have hpure (n n' : Node) (hn : FoldCode c₁ n (.leaf n' .nil)) :
      n = n' ∨ n.kind.isPure ∧ n'.kind.isPure := by
    cases hn with
    | keep => exact .inl rfl
    | sum id x y j k r hkind hoperands hr hx hy => exact .inr ⟨by rw [hkind]; rfl, rfl⟩
  have hnode {q : Place} {d : Code} (hd : c.ListAt q d) {n : Node} {args : List (List ValueId)}
      (hn : (n, args) ∈ d.heads) :
      m.HasNode (some q) n args := by
    have hnode := (h.named.listAt hd).2 n args hn
    rwa [Node.map_id] at hnode
  refine ⟨savings, m', hrun, fun id op hop heffect => ?_, fun place ids hids => ?_, fun id op' hop' => ?_⟩
  · obtain ⟨q, d, n, args, regions, hd, hn, rfl, rfl, hargs⟩ := h.named.exists_head hop
    rw [Node.map_id] at heffect ⊢
    obtain ⟨d', hd', hpruned⟩ := hpruned.listAt hd
    have hn' : (n, args) ∈ d'.heads := by
      have hin : (n, args) ∈ d.heads.filter (!·.1.kind.isPure) :=
        List.mem_filter.mpr ⟨hn, by simpa [Node.op] using heffect⟩
      rw [← hpruned.filter_heads hpure] at hin
      exact (List.mem_filter.mp hin).1
    obtain ⟨regions', hop', hargs'⟩ := ((hnamed.listAt hd').2 n args hn').get?
    exact ⟨_, hop', survives_optimize h hmaps htraced hnamed (hd.mem_nodes hn) (hd'.mem_nodes hn')
      (hargs'.trans hargs.symm) q⟩
  · obtain ⟨d, hd, rfl⟩ := h.named.exists_listAt hids
    obtain ⟨d', hd', hpruned⟩ := hpruned.listAt hd
    refine ⟨d'.ids, (hnamed.listAt hd').1, ?_⟩
    rw [hnamed.filter_hasEffect hd', h.named.filter_hasEffect hd, hpruned.filter_heads hpure]
  · obtain ⟨q, d', n', args, regions', hd', hn', rfl, rfl, hargs'⟩ := hnamed.exists_head hop'
    obtain ⟨d, hd, hpruned⟩ := hpruned.of_listAt hd'
    obtain ⟨n, hn, hfold⟩ := hpruned.of_heads hn'
    obtain ⟨regions, hop, hargs⟩ := (hnode hd hn).get?
    have hkept (he : n' = n) : ∃ op, m.get? n'.id = some op ∧
        op.Survives m m' ((n'.map θ θ).op regions' (some q)) := by
      subst he
      exact ⟨_, hop, survives_optimize h hmaps htraced hnamed (hd.mem_nodes hn) (hd'.mem_nodes hn')
        (hargs'.trans hargs.symm) q⟩
    obtain he | ⟨hfold, rfl⟩ := hfold
    · exact .inl (hkept he)
    · generalize he : Code.leaf n' .nil = e at hfold
      cases hfold with
      | keep => exact .inl (hkept (Code.leaf.inj he).1)
      | sum id x y j k r hkind hoperands hr hx hy =>
        right
        obtain rfl := (Code.leaf.inj he).1
        rw [List.map_eq_nil_iff.mp hargs] at hop
        rw [List.map_eq_nil_iff.mp hargs']
        exact standsForSum_optimize (r := r) h hmaps htraced hnamed (hd.mem_nodes hn) hop hkind hoperands hr
          (hd'.mem_nodes hn')

/-- The program `print(1 + 2)`. -/
def printedSum : Program where
  decls := []
  stmts := [.expr (.call "print" [.binary .add (.literal (.int 1) .int) (.literal (.int 2) .int) .int] .none)]

theorem optimize_printedSum :
    ∃ m₀ m₁ m loops libraryUses savings m', Module.ofProgram printedSum = .ok m₀ ∧
      Edit.replaceLoops m₀ = .ok loops m₁ ∧
      Edit.replaceLibraryUses m₁ = .ok libraryUses m ∧ Edit.optimize 1 m = .ok savings m' ∧
      ∀ id op', m'.get? id = some op' → (∃ op, m.get? id = some op ∧ op.Survives m m' op') ∨
        op'.StandsForSum m m' := by
  have hrun : (match Module.ofProgram printedSum with
      | .ok m₀ =>
        match Edit.replaceLoops m₀ with
        | .ok _ m₁ =>
          match Edit.replaceLibraryUses m₁ with
          | .ok _ _ => true
          | .error _ _ => false
        | .error _ _ => false
      | .error _ => false) = true := by decide +kernel
  split at hrun
  next m₀ h₀ =>
    split at hrun
    next loops m₁ h₁ =>
      split at hrun
      next libraryUses m h =>
        obtain ⟨savings, m', hoptimize, -, -, hall⟩ := optimize_preserves_meaning h₀ h₁ h (Nat.le_refl 1)
        exact ⟨m₀, m₁, m, loops, libraryUses, savings, m', h₀, h₁, h, hoptimize, hall⟩
      next => cases hrun
    next => cases hrun
  next => cases hrun

end Choco.IR
