import Choco.IR.Verify
import Choco.Proofs.FlatFunctions
import Mathlib.Data.List.Perm.Basic

namespace Choco.IR

open Choco.IR.Module Code

variable {c : Code} {v : ValueId} {id : OpId} {op : Op} {n : Node}

namespace Code

def Tidy : Code → Prop
  | nil => True
  | leaf n rest => (n.kind = .yield → rest = nil) ∧ Tidy rest
  | each n args body rest => n.kind ≠ .yield ∧ args = [] ∧ Tidy body ∧ Tidy rest
  | fork n first second rest => n.kind ≠ .yield ∧ Tidy first ∧ Tidy second ∧ Tidy rest

def TidyFunctions : Code → Prop
  | nil => True
  | each n _ body rest => n.kind ≠ .yield ∧ Tidy body ∧ TidyFunctions rest
  | leaf _ _ | fork _ _ _ _ => False

variable {c : Code}

theorem Shaped.tidy {y : Bool} (h : c.Shaped y) : c.Tidy := by
  induction h with
  | nil => trivial
  | yield id x => exact ⟨fun _ => rfl, trivial⟩
  | leaf hn _ ih =>
    refine ⟨fun hkind => ?_, ih⟩
    cases hn <;> cases hkind
  | loop id x location _ _ ihb ih => exact ⟨nofun, rfl, ihb, ih⟩
  | fork hn _ _ _ iha ihb ih =>
    refine ⟨fun hkind => ?_, iha, ihb, ih⟩
    cases hn <;> cases hkind

theorem Functions.tidy (h : c.Functions) : c.TidyFunctions := by
  induction h with
  | nil => trivial
  | function id label ty args hbody _ ih => exact ⟨nofun, hbody.tidy, ih⟩

theorem Reads.tidy {is : List Instruction} (h : c.Reads is) : c.Tidy := by
  induction h with
  | nil => trivial
  | leaf id i _ ih => exact ⟨nofun, ih⟩

theorem Tidy.map (h : c.Tidy) (f g : ValueId → ValueId) : (c.map f g).Tidy := by
  induction c with
  | nil => trivial
  | leaf n rest ih => exact ⟨fun hkind => by rw [h.1 hkind, map_nil], ih h.2⟩
  | each n args body rest ihb ih => exact ⟨h.1, h.2.1, ihb h.2.2.1, ih h.2.2.2⟩
  | fork n first second rest iha ihb ih => exact ⟨h.1, iha h.2.1, ihb h.2.2.1, ih h.2.2.2⟩

theorem TidyFunctions.map (h : c.TidyFunctions) (f g : ValueId → ValueId) : (c.map f g).TidyFunctions := by
  induction c with
  | nil => trivial
  | each n args body rest _ ih => exact ⟨h.1, h.2.1.map f g, ih h.2.2⟩
  | leaf | fork => cases h

end Code

theorem LowersFunctions.tidy {p p' : Progress} {c' : Code} (h : LowersFunctions p c c' p')
    (hc : c.Functions) :
    c'.TidyFunctions := by
  induction h with
  | nil => trivial
  | function _ hreads _ ih =>
    cases hc with
    | function id label ty args _ hrest => exact ⟨nofun, hreads.tidy, ih hrest⟩

section Visibility

variable {visible : Visible} {vs : List ValueId} {v : ValueId}

theorem index_eq_iff {w : ValueId} : v.index = w.index ↔ v = w := by
  cases v
  cases w
  simp

theorem contains_reveal : (reveal visible vs).contains v.index = true ↔ v ∈ vs ∨
    visible.contains v.index = true := by
  induction vs generalizing visible with
  | nil => simp [reveal]
  | cons w vs ih =>
    rw [reveal, List.foldl_cons]
    refine ih.trans ?_
    rw [Std.TreeSet.contains_insert, Bool.or_eq_true, beq_iff_eq, compare_eq_iff_eq, index_eq_iff,
      List.mem_cons]
    tauto

theorem contains_hide : (hide visible vs).contains v.index = true ↔ v ∉ vs ∧
    visible.contains v.index = true := by
  induction vs generalizing visible with
  | nil => simp [hide]
  | cons w vs ih =>
    rw [hide, List.foldl_cons]
    refine ih.trans ?_
    rw [Std.TreeSet.contains_erase, Bool.and_eq_true, bne_iff_ne, ne_eq, compare_eq_iff_eq, index_eq_iff,
      List.mem_cons]
    tauto

end Visibility

section Enclosing

variable {m : Module} {c : Code} {f o : OpId} {i : Nat} {a k : Nat} {args : List (List ValueId)}

theorem enclosingWithin_nested (hop : m.get? id = some op) (hparent : op.parent = some (.nested o i))
    (ho : ∀ k, a ≤ k → m.enclosingWithin k o = some f) (hk : a + 1 ≤ k) :
    m.enclosingWithin k id = some f := by
  cases k with
  | zero => omega
  | succ k =>
    simp only [enclosingWithin, hop, hparent]
    exact ho k (by omega)

theorem Module.HasNode.enclosingWithin (h : m.HasNode (some (.nested o i)) n args)
    (ho : ∀ k, a ≤ k → m.enclosingWithin k o = some f) (hk : a + 1 ≤ k) :
    m.enclosingWithin k n.id = some f := by
  obtain ⟨regions, hop, -⟩ := h.get?
  exact enclosingWithin_nested hop rfl ho hk

theorem Module.Holds.enclosingWithin (h : m.Holds (some (.nested o i)) c)
    (ho : ∀ k, a ≤ k → m.enclosingWithin k o = some f) (hn : n ∈ c.nodes) (hk : a + 1 + c.height ≤ k) :
    m.enclosingWithin k n.id = some f := by
  induction c generalizing o i a with
  | nil => cases hn
  | leaf n' rest ih =>
    rw [height] at hk
    obtain rfl | hn := List.mem_cons.mp hn
    · exact h.1.enclosingWithin ho (by omega)
    · exact ih h.2 ho hn hk
  | each n' args body rest ihb ih =>
    obtain ⟨hnode, -, hbody, hrest⟩ := h
    rw [height] at hk
    simp only [nodes, List.mem_cons, List.mem_append] at hn
    rcases hn with rfl | hn | hn
    · exact hnode.enclosingWithin ho (by omega)
    · exact ihb hbody (a := a + 1) (fun k hk => hnode.enclosingWithin ho hk) hn (by omega)
    · exact ih hrest ho hn (by omega)
  | fork n' first second rest iha ihb ih =>
    obtain ⟨hnode, -, -, hfirst, hsecond, hrest⟩ := h
    rw [height] at hk
    simp only [nodes, List.mem_cons, List.mem_append] at hn
    rcases hn with rfl | hn | hn | hn
    · exact hnode.enclosingWithin ho (by omega)
    · exact iha hfirst (a := a + 1) (fun k hk => hnode.enclosingWithin ho hk) hn (by omega)
    · exact ihb hsecond (a := a + 1) (fun k hk => hnode.enclosingWithin ho hk) hn (by omega)
    · exact ih hrest ho hn (by omega)

theorem Module.HasNode.enclosing? (h : m.HasNode (some .top) n args)
    (hbody : m.Holds (some (.nested n.id i)) c) (hheight : c.height < m.slots.size) {n' : Node}
    (hn' : n' ∈ c.nodes) : m.enclosing? n'.id = some n.id := by
  refine hbody.enclosingWithin (a := 1) (fun k hk => ?_) hn' (by omega)
  obtain ⟨regions, hop, -⟩ := h.get?
  cases k with
  | zero => omega
  | succ k => simp only [Module.enclosingWithin, hop, Node.op]

end Enclosing

section Verify

variable {m : Module} {c : Code} {A S : ValueId → Prop} {visible : Visible} {place : Place} {k : Nat}
  {f : OpId} {visible₁ visible₂ : Visible}

def Foreign (m : Module) (f : OpId) (v : ValueId) : Prop :=
  ∃ ty id g, m.values[v.index]? = some ⟨ty, .result id⟩ ∧ m.isLive id ∧ m.enclosing? id = some g ∧ g ≠ f

theorem verifyOperand_ok {user : OpId} {x : ValueId} (huser : m.enclosing? user = some f)
    (hx : visible.contains x.index ∨ Foreign m f x) : m.verifyOperand user visible x = .ok () := by
  unfold verifyOperand
  by_cases hvisible : visible.contains x.index
  · simp only [hvisible, if_true]
    rfl
  · obtain ⟨ty, id, g, hvalue, hlive, hg, hne⟩ := hx.resolve_left hvisible
    have hvalue : m.value x = .ok ⟨ty, .result id⟩ := by simp [value, hvalue]
    simp only [hvisible]
    refine (Outcome.bind_ok hvalue).trans ?_
    simp [hlive, hg, huser, hne]
    rfl

theorem verifyYield_ok {kind : Kind} {isLast : Bool} (h : kind = .yield → place ≠ .top ∧ isLast = true) :
    verifyYield place kind isLast = .ok () := by
  unfold verifyYield
  by_cases hkind : kind = .yield
  · obtain ⟨hplace, hlast⟩ := h hkind
    simp [hkind, hplace, hlast]
  · simp [hkind]

theorem forM_ok {α ε : Type} {g : α → Except ε Unit} {xs : List α} (h : ∀ x ∈ xs, g x = .ok ()) :
    xs.forM g = .ok () := by
  induction xs with
  | nil => rfl
  | cons x xs ih =>
    rw [List.forall_mem_cons] at h
    exact (Outcome.bind_ok h.1).trans (ih h.2)

theorem verifyOps_cons {check : Place → Region → Visible → Except Error Visible} {rest : List OpId}
    {defined : List ValueId} (hop : m.get? id = some op) (hparent : op.parent = some place)
    (hoperands : ∀ x ∈ op.operands, m.verifyOperand id visible x = .ok ())
    (hyield : verifyYield place op.kind rest.isEmpty = .ok ())
    (hregions : verifyRegions check id 0 op.regions visible = .ok visible₁)
    (hrest : m.verifyOps check place rest (reveal visible₁ op.result.toList) = .ok (visible₂, defined)) :
    m.verifyOps check place (id :: rest) visible = .ok (visible₂, op.result.toList ++ defined) := by
  rw [verifyOps]
  simp only [hop, hparent, ne_eq, not_true_eq_false, if_false]
  refine (Outcome.bind_ok (forM_ok hoperands)).trans
    ((Outcome.bind_ok hyield).trans ((Outcome.bind_ok hregions).trans ?_))
  exact (Outcome.bind_ok hrest).trans rfl

def Keeps (c : Code) (visible visible' : Visible) : Prop :=
  (∀ v : ValueId, visible.contains v.index → v ∉ c.results → visible'.contains v.index) ∧
    ∀ v ∈ c.tops, visible'.contains v.index

theorem verifyRegion_ok (args : List ValueId) {visible' : Visible}
    (hrun : m.verifyOps (m.verifyRegion k) place c.ids (reveal visible args) = .ok (visible', c.tops))
    (hkeeps : Keeps c (reveal visible args) visible') :
    ∃ visible₁, m.verifyRegion (k + 1) place { args, ops := c.ids } visible = .ok visible₁ ∧
      ∀ v : ValueId, visible.contains v.index → v ∉ args → v ∉ c.results → visible₁.contains v.index := by
  refine ⟨hide visible' (args ++ c.tops), (Outcome.bind_ok hrun).trans rfl, fun v hv hargs hresults => ?_⟩
  rw [contains_hide, List.mem_append, not_or]
  exact ⟨⟨hargs, fun htops => hresults (mem_results_of_tops htops)⟩,
    hkeeps.1 v (contains_reveal.mpr (.inr hv)) hresults⟩

theorem Keeps.cons {rest : Code} {R : List ValueId} (hrest : Keeps rest (reveal visible₁ n.results) visible₂)
    (hresults : ∀ v, v ∈ c.results ↔ v ∈ n.results ∨ v ∈ R ∨ v ∈ rest.results)
    (htops : c.tops = n.results ++ rest.tops)
    (hn : ∀ v ∈ n.results, v ∉ rest.results)
    (hregions : ∀ v : ValueId, visible.contains v.index → v ∉ R → visible₁.contains v.index) :
    Keeps c visible visible₂ := by
  constructor
  · intro v hv hout
    rw [hresults, not_or, not_or] at hout
    exact hrest.1 v (contains_reveal.mpr (.inr (hregions v hv hout.2.1))) hout.2.2
  · rw [htops, List.forall_mem_append]
    exact ⟨fun v hv => hrest.1 v (contains_reveal.mpr (.inl hv)) (hn v hv), hrest.2⟩

structure Sights (m : Module) (f : OpId) (A S : ValueId → Prop) (visible : Visible) : Prop where
  args : ∀ v, A v → visible.contains v.index
  values : ∀ v, S v → visible.contains v.index ∨ Foreign m f v

theorem Sights.operands (h : Sights m f A S visible) (hn : n.Sees A S) (hencl : m.enclosing? n.id = some f) :
    ∀ x ∈ n.operands, m.verifyOperand n.id visible x = .ok () := fun x hx =>
  verifyOperand_ok hencl ((hn x hx).elim (h.values x) fun hx => .inl (h.args x hx.2))

theorem Sights.keep (h : Sights m f A S visible)
    (hregions : ∀ v : ValueId, A v ∨ S v → visible.contains v.index → visible₁.contains v.index) :
    Sights m f A S visible₁ where
  args v hv := hregions v (.inl hv) (h.args v hv)
  values v hv := (h.values v hv).imp_left (hregions v (.inr hv))

theorem Sights.reveal (h : Sights m f A S visible) (vs : List ValueId) :
    Sights m f A (fun v => v ∈ vs ∨ S v) (reveal visible vs) where
  args v hv := contains_reveal.mpr (.inr (h.args v hv))
  values v hv := by
    obtain hv | hv := hv
    · exact .inl (contains_reveal.mpr (.inl hv))
    · exact (h.values v hv).imp_left fun hv => contains_reveal.mpr (.inr hv)

theorem verifyOps_ok (hholds : m.Holds (some place) c) (hscope : c.Scoped A S) (htidy : c.Tidy)
    (hplace : place ≠ .top) (hk : c.height ≤ k) (hencl : ∀ n ∈ c.nodes, m.enclosing? n.id = some f)
    (hnodup : c.results.Nodup) (hfresh : ∀ v, A v ∨ S v → v ∉ c.results) (hsights : Sights m f A S visible) :
    ∃ visible', m.verifyOps (m.verifyRegion k) place c.ids visible = .ok (visible', c.tops) ∧
      Keeps c visible visible' := by
  induction c generalizing A S visible place k with
  | nil => exact ⟨visible, rfl, fun v hv _ => hv, by simp [tops]⟩
  | leaf n rest ih =>
    obtain ⟨hnode, hrest⟩ := hholds
    rw [nodes, List.forall_mem_cons] at hencl
    simp only [results_leaf, List.nodup_append, List.mem_append] at hnodup hfresh
    obtain ⟨visible₂, hrun, hkeeps⟩ := ih hrest hscope.2 htidy.2 hplace hk hencl.2 hnodup.2.1 (by grind)
      (hsights.reveal n.results)
    refine ⟨visible₂, ?_, hkeeps.cons (R := []) (by simp) rfl (by grind) fun v hv _ => hv⟩
    refine verifyOps_cons hnode.get?_leaf rfl (hsights.operands hscope.1 hencl.1)
      (verifyYield_ok fun hkind => ⟨hplace, ?_⟩) rfl hrun
    rw [htidy.1 hkind]
    rfl
  | each n args body rest ihb ih =>
    obtain ⟨hnode, hids, hbody, hrest⟩ := hholds
    obtain ⟨hyield, rfl, htidyBody, htidyRest⟩ := htidy
    rw [nodes, List.forall_mem_cons, List.forall_mem_append] at hencl
    simp only [results_each, List.nodup_append, List.mem_append] at hnodup hfresh
    rw [height] at hk
    cases k with
    | zero => omega
    | succ k =>
      have hscopeBody : body.Scoped A S :=
        hscope.2.1.mono (fun v hv => hv.resolve_left List.not_mem_nil) fun _ => id
      obtain ⟨visible', hinner, hkeeps'⟩ :=
        ihb (k := k) hbody hscopeBody htidyBody Place.noConfusion (by omega) hencl.2.1 hnodup.2.1.1
        (by grind) hsights
      obtain ⟨visible₁, hregion, hregions⟩ := verifyRegion_ok [] hinner hkeeps'
      have hsights₁ := hsights.keep fun v hin hv => hregions v hv List.not_mem_nil (by grind)
      obtain ⟨visible₂, hrun, hkeeps⟩ :=
        ih (k := k + 1) hrest hscope.2.2 htidyRest hplace (by omega) hencl.2.2 hnodup.2.1.2.1
        (by grind) (hsights₁.reveal n.results)
      refine ⟨visible₂, ?_, hkeeps.cons (R := body.results) (by simp) rfl (by grind) fun v hv =>
        hregions v hv List.not_mem_nil⟩
      exact verifyOps_cons (hnode.regions_each hids) rfl (hsights.operands hscope.1 hencl.1)
        (verifyYield_ok fun hkind => absurd hkind hyield) ((Outcome.bind_ok hregion).trans rfl) hrun
  | fork n first second rest iha ihb ih =>
    obtain ⟨hnode, hids₁, hids₂, hfirst, hsecond, hrest⟩ := hholds
    obtain ⟨hyield, htidyFirst, htidySecond, htidyRest⟩ := htidy
    rw [nodes, List.forall_mem_cons, List.forall_mem_append, List.forall_mem_append] at hencl
    simp only [results_fork, List.nodup_append, List.mem_append] at hnodup hfresh
    rw [height] at hk
    cases k with
    | zero => omega
    | succ k =>
      obtain ⟨visible₁', hinner₁, hkeeps₁⟩ :=
        iha (k := k) hfirst hscope.2.1 htidyFirst Place.noConfusion (by omega) hencl.2.1 hnodup.2.1.1
        (by grind) hsights
      obtain ⟨visible₁, hregion₁, hregions₁⟩ := verifyRegion_ok [] hinner₁ hkeeps₁
      have hsights₁ := hsights.keep fun v hin hv => hregions₁ v hv List.not_mem_nil (by grind)
      obtain ⟨visible₂', hinner₂, hkeeps₂⟩ :=
        ihb (k := k) hsecond hscope.2.2.1 htidySecond Place.noConfusion (by omega) hencl.2.2.1
        hnodup.2.1.2.1.1 (by grind) hsights₁
      obtain ⟨visible₂, hregion₂, hregions₂⟩ := verifyRegion_ok [] hinner₂ hkeeps₂
      have hsights₂ := hsights₁.keep fun v hin hv => hregions₂ v hv List.not_mem_nil (by grind)
      obtain ⟨visible₃, hrun, hkeeps⟩ :=
        ih (k := k + 1) hrest hscope.2.2.2 htidyRest hplace (by omega) hencl.2.2.2
        hnodup.2.1.2.1.2.1 (by grind) (hsights₂.reveal n.results)
      refine ⟨visible₃, ?_, hkeeps.cons (R := first.results ++ second.results) (by simp [or_assoc]) rfl
        (by grind) fun v hv hR => ?_⟩
      · exact verifyOps_cons (hnode.regions_fork hids₁ hids₂) rfl (hsights.operands hscope.1 hencl.1)
          (verifyYield_ok fun hkind => absurd hkind hyield)
          ((Outcome.bind_ok hregion₁).trans ((Outcome.bind_ok hregion₂).trans rfl)) hrun
      · rw [List.mem_append, not_or] at hR
        exact hregions₂ v (hregions₁ v hv List.not_mem_nil hR.1) List.not_mem_nil hR.2

theorem Module.Holds.exists_enclosing (h : m.Holds (some .top) c) (hc : c.TidyFunctions)
    (hheight : c.height ≤ m.slots.size) (hn : n ∈ c.nodes) : ∃ g ∈ c.ids, m.enclosing? n.id = some g := by
  induction c with
  | nil => cases hn
  | each n' args body rest _ ih =>
    obtain ⟨hnode, -, hbody, hrest⟩ := h
    rw [height] at hheight
    simp only [nodes, List.mem_cons, List.mem_append] at hn
    simp only [ids, List.mem_cons, exists_eq_or_imp]
    rcases hn with rfl | hn | hn
    · obtain ⟨regions, hop, -⟩ := hnode.get?
      exact .inl (by simp only [Module.enclosing?, Module.enclosingWithin, hop, Node.op])
    · exact .inl (hnode.enclosing? hbody (by omega) hn)
    · exact .inr (ih hrest hc.2.2 (by omega) hn)
  | leaf | fork => cases hc

theorem Module.Holds.result_value {parent : Option Place} (h : m.Holds parent c) (hn : n ∈ c.nodes)
    (hv : v ∈ n.results) :
    ∃ ty, m.values[v.index]? = some ⟨ty, .result n.id⟩ ∧ m.isLive n.id := by
  obtain ⟨parent, args, hnode⟩ := h.hasNode hn
  obtain ⟨r, hr, rfl⟩ : ∃ r ∈ n.result, r.value = v := by simpa [Node.results] using hv
  exact ⟨r.ty, hnode.value r hr, isLive_iff.mpr hnode.live⟩

theorem verifyOps_functions (hholds : m.Holds (some .top) c) (hscope : c.ScopedFunctions S)
    (htidy : c.TidyFunctions) (hk : c.height ≤ k) (hheight : c.height ≤ m.slots.size) (hids : c.allIds.Nodup)
    (hnodup : c.results.Nodup) (hargs : ∀ v ∈ c.results, v ∉ c.args) (hfresh : ∀ v, S v → v ∉ c.results)
    (hS : ∀ v, S v → ∀ f ∈ c.ids, Foreign m f v) (visible : Visible) :
    ∃ visible', m.verifyOps (m.verifyRegion k) .top c.ids visible = .ok (visible', c.tops) := by
  induction c generalizing S visible with
  | nil => exact ⟨visible, rfl⟩
  | each n args body rest _ ih =>
    obtain ⟨hnode, hidsBody, hbody, hrest⟩ := hholds
    obtain ⟨hyield, htidyBody, htidyRest⟩ := htidy
    obtain ⟨hoperands, hscopeBody, hscopeRest⟩ := hscope
    rw [height] at hk hheight
    simp only [results_each, Code.args, List.nodup_append, List.mem_append] at hnodup hargs hfresh
    simp only [allIds_each, List.nodup_cons, List.nodup_append, List.mem_append] at hids
    have hencl (n' : Node) (hn' : n' ∈ body.nodes) : m.enclosing? n'.id = some n.id :=
      hnode.enclosing? hbody (by omega) hn'
    have hbodyAllocs := body.resultsOf_subset Kind.isAlloc
    have hrestAllocs := rest.resultsOf_subset Kind.isAlloc
    have hne (g : OpId) (hg : g ∈ rest.ids) :
        g ≠ n.id := fun he => hids.1 (.inr (rest.ids_subset_allIds (he ▸ hg)))
    cases k with
    | zero => omega
    | succ k =>
      have hsights : Sights m n.id (· ∈ args) (fun v => S v ∨ v ∈ rest.resultsOf Kind.isAlloc)
          (reveal visible args) := by
        refine ⟨fun v hv => contains_reveal.mpr (.inl hv), fun v hv => .inr ?_⟩
        obtain hv | hv := hv
        · exact hS v hv n.id List.mem_cons_self
        · obtain ⟨n', hn', -, hv⟩ := (mem_resultsOf _).mp hv
          obtain ⟨ty, hvalue, hlive⟩ := hrest.result_value hn' hv
          obtain ⟨g, hg, hgencl⟩ := hrest.exists_enclosing htidyRest (by omega) hn'
          exact ⟨ty, n'.id, g, hvalue, hlive, hgencl, hne g hg⟩
      obtain ⟨visible', hinner, hkeeps⟩ :=
        verifyOps_ok (k := k) hbody hscopeBody htidyBody Place.noConfusion (by omega) hencl
        hnodup.2.1.1 (by grind) hsights
      obtain ⟨visible₁, hregion, -⟩ := verifyRegion_ok args hinner hkeeps
      have hforeign (v : ValueId) (hv : S v ∨ v ∈ body.resultsOf Kind.isAlloc) (f : OpId)
          (hf : f ∈ rest.ids) : Foreign m f v := by
        obtain hv | hv := hv
        · exact hS v hv f (List.mem_cons_of_mem _ hf)
        · obtain ⟨n', hn', -, hv⟩ := (mem_resultsOf _).mp hv
          obtain ⟨ty, hvalue, hlive⟩ := hbody.result_value hn' hv
          exact ⟨ty, n'.id, n.id, hvalue, hlive, hencl n' hn', (hne f hf).symm⟩
      obtain ⟨visible₂, hrun⟩ := ih hrest hscopeRest htidyRest (by omega) (by omega) hids.2.2.1 hnodup.2.1.2.1
        (by grind) (by grind) hforeign (reveal visible₁ n.results)
      refine ⟨visible₂, verifyOps_cons (hnode.regions_each hidsBody) rfl ?_
        (verifyYield_ok fun hkind => absurd hkind hyield) ((Outcome.bind_ok hregion).trans rfl) hrun⟩
      simp [Node.op, hoperands]
  | leaf | fork => cases hscope

end Verify

section Users

variable {m : Module}

def Module.useCount (m : Module) (v : ValueId) (id : OpId) : Nat :=
  ((m.get? id).map fun op => op.operands.count v).getD 0

theorem count_expectedUsers (v : ValueId) (id : OpId) :
    (m.expectedUsers.getD v.index []).count id = m.useCount v id := by
  obtain ⟨step, hnone, hsome, hstep⟩ : ∃ step,
      (∀ i (hi : i < m.slots.size) users, m.slots[i].op = none → step i hi users = users) ∧
      (∀ i (hi : i < m.slots.size) users (op : Op), m.slots[i].op = some op →
        step i hi users = op.operands.foldl (addUser ⟨i, m.slots[i].generation⟩) users) ∧
      m.expectedUsers = m.slots.size.fold step {} := by
    refine ⟨_, fun i hi users hop => ?_, fun i hi users op hop => ?_, rfl⟩
    · simp only [hop]
    · simp only [hop]
  have hfold (n : Nat) (hn : n ≤ m.slots.size) :
      ((n.fold (fun i hi => step i (Nat.lt_of_lt_of_le hi hn)) {}).getD v.index []).count id =
        if id.index < n then m.useCount v id else 0 := by
    induction n with
    | zero => simp
    | succ n ih =>
      have hslot : m.slots[n]? = some m.slots[n] := Array.getElem?_eq_getElem hn
      have ih := ih (Nat.le_of_succ_le hn)
      obtain ⟨i, g⟩ := id
      rw [Nat.fold_succ]
      cases hop : m.slots[n].op with
      | none =>
        rw [hnone _ _ _ hop]
        refine ih.trans ?_
        by_cases hi : i = n
        · subst hi
          simp [useCount, get?, hslot, hop]
        · simp [show i < n + 1 ↔ i < n by omega]
      | some op =>
        rw [hsome _ _ _ op hop, count_addUsers]
        refine (congrArg (· + _) ih).trans ?_
        by_cases hi : i = n
        · subst hi
          by_cases hg : m.slots[i].generation = g
          · simp [useCount, get?, hslot, hop, hg]
          · simp [useCount, get?, hslot, hg, Ne.symm hg]
        · simp [hi, show i < n + 1 ↔ i < n by omega]
  rw [hstep]
  refine (hfold _ (Nat.le_refl _)).trans ?_
  by_cases hid : id.index < m.slots.size
  · rw [if_pos hid]
  · rw [if_neg hid]
    have hnone : m.slots[id.index]? = none := Array.getElem?_eq_none (Nat.not_lt.mp hid)
    simp [useCount, get?, hnone]

theorem usersWithin_of_count {a b : Std.TreeMap Nat (List OpId)}
    (h : ∀ (v : ValueId) (id : OpId), (a.getD v.index []).count id = (b.getD v.index []).count id) :
    usersWithin a b = true := by
  refine List.all_eq_true.mpr fun ⟨v, ids⟩ hv => ?_
  rw [Std.TreeMap.mem_toList_iff_getElem?_eq_some] at hv
  refine List.isPerm_iff.mpr (List.perm_iff_count.mpr fun id => ?_)
  have hcount := h ⟨v⟩ id
  rwa [Std.TreeMap.getD_eq_getD_getElem?, hv] at hcount

theorem Module.Sound.usersAgree (h : m.Sound) : m.usersAgree = true := by
  rw [Module.usersAgree, Bool.and_eq_true]
  exact ⟨usersWithin_of_count fun v id => (h.users v id).trans (count_expectedUsers v id).symm,
    usersWithin_of_count fun v id => (count_expectedUsers v id).trans (h.users v id).symm⟩

end Users

section Counting

variable {m : Module} {c : Code}

theorem Module.Models.opCount_eq (h : m.Models c .nil) : m.opCount = m.walk.length := by
  have hnodup := h.nodup
  rw [allIds_nil, List.append_nil] at hnodup
  have hlive (id : OpId) (hid : id ∈ c.allIds) : ∃ op, m.get? id = some op := h.holds.live hid
  have hslots : m.slots.toList = (List.range m.slots.size).map fun i => m.slots.getD i {} := by
    refine List.ext_getElem (by simp) fun i hi _ => ?_
    simp only [Array.length_toList] at hi
    simp [hi]
  have hindices : (c.allIds.map OpId.index).Perm
      ((List.range m.slots.size).filter fun i => (m.slots.getD i {}).op.isSome) := by
    refine (List.perm_ext_iff_of_nodup ?_ (List.nodup_range.filter _)).mpr fun i => ?_
    · refine hnodup.map_on fun a ha b hb hab => ?_
      obtain ⟨opA, hA⟩ := hlive a ha
      obtain ⟨opB, hB⟩ := hlive b hb
      exact eq_of_index_eq hA hB hab
    · rw [List.mem_map, List.mem_filter, List.mem_range]
      constructor
      · rintro ⟨id, hid, rfl⟩
        obtain ⟨op, hop⟩ := hlive id hid
        obtain ⟨hlt, hslot⟩ := Array.getElem?_eq_some_iff.mp (get?_eq_some.mp hop)
        exact ⟨hlt, by simp [hlt, hslot]⟩
      · rintro ⟨hlt, hsome⟩
        obtain ⟨op, hop⟩ := Option.isSome_iff_exists.mp hsome
        refine ⟨⟨i, (m.slots.getD i {}).generation⟩, ?_, rfl⟩
        have hget : m.get? ⟨i, (m.slots.getD i {}).generation⟩ = some op := by
          have hslot : m.slots[i]? = some (m.slots.getD i {}) := by simp [hlt]
          rw [get?, hslot]
          simpa using hop
        simpa using h.cover _ _ hget
  calc m.opCount = m.slots.toList.countP (·.op.isSome) := Array.countP_toList.symm
    _ = ((List.range m.slots.size).filter fun i => (m.slots.getD i {}).op.isSome).length := by
      rw [hslots, List.countP_map, List.countP_eq_length_filter]
      rfl
    _ = m.walk.length := by
      rw [h.walk, ← hindices.length_eq, List.length_map]

end Counting

/-- The whole structure of a module is in order: it passes the check, and each operation is in one place. -/
structure Module.Valid (m : Module) : Prop where
  verify : m.verify = .ok ()
  walk_live : ∀ id ∈ m.walk, m.isLive id
  walk_once : ∀ id, m.isLive id → m.walk.count id = 1
  opCount : m.opCount = m.walk.length

theorem Module.Models.valid {m : Module} (h : m.Models c .nil) (hargs : ∀ a ∈ c.args, m.IsArg a)
    (hscope : c.ScopedFunctions fun _ => False) (htidy : c.TidyFunctions) : m.Valid where
  verify := by
    have hnodup := h.nodup
    have hdistinct := h.distinct
    rw [allIds_nil, List.append_nil] at hnodup
    rw [results_nil, List.append_nil] at hdistinct
    have hheight : c.height ≤ m.slots.size := Nat.lt_succ_iff.mp h.height_lt
    have happart (v : ValueId) (hv : v ∈ c.results) (ha : v ∈ c.args) : False := by
      obtain ⟨n, hn, hv⟩ := List.mem_flatMap.mp hv
      obtain ⟨ty, hvalue, -⟩ := h.holds.result_value hn hv
      obtain ⟨ty', owner, i, ha⟩ := hargs v ha
      cases hvalue.symm.trans ha
    obtain ⟨visible, hrun⟩ := verifyOps_functions h.holds hscope htidy hheight hheight hnodup
      hdistinct happart (fun _ => False.elim) (fun _ => False.elim) {}
    have htop : m.body = { args := [], ops := c.ids } := by
      have hops : m.body.ops = c.ids := Option.some.inj h.top
      rw [← hops, ← h.noArgs]
    rw [Module.verify, depthBound, htop]
    have hregion : m.verifyRegion (m.slots.size + 1) .top { args := [], ops := c.ids }
        {} = .ok (hide visible c.tops) :=
      Outcome.bind_ok hrun
    refine (Outcome.bind_ok hregion).trans ?_
    simp only [h.sound.usersAgree]
    rfl
  walk_live id hid := by
    rw [h.walk] at hid
    exact isLive_iff.mpr (h.holds.live hid)
  walk_once id hid := by
    obtain ⟨op, hop⟩ := isLive_iff.mp hid
    rw [h.walk]
    exact List.count_eq_one_of_mem (by simpa using h.nodup) (by simpa using h.cover id op hop)
  opCount := h.opCount_eq

end Choco.IR
