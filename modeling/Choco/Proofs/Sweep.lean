import Choco.Proofs.Folding
import Choco.Proofs.Scope
import Mathlib.Algebra.GroupWithZero.Nat

namespace Choco.IR

variable {v : ValueId} {ids : List OpId} {id : OpId} {m₁ : Module} {k : Nat}

namespace Code

variable {c : Code} {A S : ValueId → Prop}

/-- The code without the operations that have no effect and whose result nothing after them uses, from the
last to the first. -/
def sweep : Code → Code
  | nil => nil
  | leaf n rest =>
    if n.kind.isPure ∧ ∃ r ∈ n.result, r.value ∉ rest.sweep.uses then rest.sweep else leaf n rest.sweep
  | each n args body rest => each n args body.sweep rest.sweep
  | fork n first second rest => fork n first.sweep second.sweep rest.sweep

abbrev pures (c : Code) : List ValueId := c.resultsOf Kind.isPure

/-- Results of operations without effect are used in what follows them in their list only. -/
def Local : Code → Prop
  | nil => True
  | leaf n rest => (∀ v ∈ (leaf n rest).pures, v ∉ n.operands) ∧ Local rest
  | each n _ body rest =>
    (∀ v ∈ body.pures ++ rest.pures, v ∉ n.operands) ∧ (∀ v ∈ body.pures, v ∉ rest.uses) ∧
      (∀ v ∈ rest.pures, v ∉ body.uses) ∧ Local body ∧ Local rest
  | fork n first second rest =>
    (∀ v ∈ first.pures ++ (second.pures ++ rest.pures), v ∉ n.operands) ∧
      (∀ v ∈ first.pures, v ∉ second.uses ++ rest.uses) ∧ (∀ v ∈ second.pures, v ∉ first.uses ++ rest.uses) ∧
      (∀ v ∈ rest.pures, v ∉ first.uses ++ second.uses) ∧ Local first ∧ Local second ∧ Local rest

theorem uses_sweep (c : Code) : c.sweep.uses ⊆ c.uses := by
  induction c with
  | nil => exact fun _ hv => hv
  | leaf n rest ih =>
    intro v hv
    rw [sweep] at hv
    split at hv
    next => simp [ih hv]
    next => simpa using (List.mem_append.mp hv).imp_right (ih ·)
  | each n args body rest ihb ih =>
    intro v hv
    simp only [sweep, uses_each, List.mem_append] at hv ⊢
    exact hv.imp_right (Or.imp (ihb ·) (ih ·))
  | fork n first second rest iha ihb ih =>
    intro v hv
    simp only [sweep, uses_fork, List.mem_append] at hv ⊢
    exact hv.imp_right (Or.imp (iha ·) (Or.imp (ihb ·) (ih ·)))

theorem mem_pures (hv : v ∈ c.pures) : v ∈ c.results := c.resultsOf_subset _ hv

theorem Scoped.not_mem_uses (h : c.Scoped A S) (hA : ¬ A v) (hS : ¬ S v) (hresults : v ∉ c.results)
    (hargs : v ∉ c.args) :
    v ∉ c.uses := fun hv => by
  obtain hv | hv | hv | hv := h.uses_mem hv
  exacts [hA hv, hS hv, hresults hv, hargs hv]

theorem Scoped.isLocal (h : c.Scoped A S) (hnodup : c.results.Nodup) (hargs : ∀ v ∈ c.results, v ∉ c.args)
    (hA : ∀ v ∈ c.results, ¬ A v) (hS : ∀ v ∈ c.results, ¬ S v) : c.Local := by
  induction c generalizing A S with
  | nil => trivial
  | leaf n rest ih =>
    have hpures (v : ValueId) : v ∈ (leaf n rest).pures → v ∈ (leaf n rest).results := mem_pures
    have hn := h.1
    simp only [results_leaf, Code.args, List.nodup_append, List.mem_append] at hnodup hargs hA hS hpures
    refine ⟨?_, ih h.2 hnodup.2.1 ?_ ?_ ?_⟩ <;> grind [Node.Sees]
  | each n args body rest ihb ih =>
    have hb (v : ValueId) : v ∈ body.pures → v ∈ body.results := mem_pures
    have hr (v : ValueId) : v ∈ rest.pures → v ∈ rest.results := mem_pures
    have hbody (v : ValueId) := h.2.1.not_mem_uses (v := v)
    have hrest (v : ValueId) := h.2.2.not_mem_uses (v := v)
    have hn := h.1
    simp only [results_each, Code.args, List.nodup_append, List.mem_append] at hnodup hargs hA hS
    refine ⟨?_, ?_, ?_, ihb h.2.1 hnodup.2.1.1 ?_ ?_ ?_, ih h.2.2 hnodup.2.1.2.1 ?_ ?_ ?_⟩ <;>
      grind [Node.Sees]
  | fork n first second rest iha ihb ih =>
    have ha (v : ValueId) : v ∈ first.pures → v ∈ first.results := mem_pures
    have hb (v : ValueId) : v ∈ second.pures → v ∈ second.results := mem_pures
    have hr (v : ValueId) : v ∈ rest.pures → v ∈ rest.results := mem_pures
    have hfirst (v : ValueId) := h.2.1.not_mem_uses (v := v)
    have hsecond (v : ValueId) := h.2.2.1.not_mem_uses (v := v)
    have hrest (v : ValueId) := h.2.2.2.not_mem_uses (v := v)
    have hn := h.1
    simp only [results_fork, Code.args, List.nodup_append, List.mem_append] at hnodup hargs hA hS
    refine ⟨?_, ?_, ?_, ?_, iha h.2.1 hnodup.2.1.1 ?_ ?_ ?_, ihb h.2.2.1 hnodup.2.1.2.1.1 ?_ ?_ ?_,
      ih h.2.2.2 hnodup.2.1.2.1.2.1 ?_ ?_ ?_⟩ <;> grind [Node.Sees]

theorem not_isPure_of_isAlloc (k : Kind) (h : k.isPure) : ¬ k.isAlloc := by
  cases k <;> simp_all [Kind.isPure, Kind.isAlloc]

theorem ScopedFunctions.isLocal (h : c.ScopedFunctions S) (hnodup : c.results.Nodup)
    (hargs : ∀ v ∈ c.results, v ∉ c.args) (hS : ∀ v ∈ c.results, ¬ S v) : c.Local := by
  induction c generalizing S with
  | nil => trivial
  | each n args body rest _ ih =>
    have hb (v : ValueId) : v ∈ body.pures → v ∈ body.results := mem_pures
    have hr (v : ValueId) : v ∈ rest.pures → v ∈ rest.results := mem_pures
    have hba : body.resultsOf Kind.isAlloc ⊆ body.results := body.resultsOf_subset _
    have hra : rest.resultsOf Kind.isAlloc ⊆ rest.results := rest.resultsOf_subset _
    have hbody (v : ValueId) := h.2.1.not_mem_uses (v := v)
    have hrest (v : ValueId) := h.2.2.uses_mem (x := v)
    simp only [results_each, Code.args, List.nodup_append, List.mem_append] at hnodup hargs hS
    have hbodyPure (v : ValueId) : v ∈ body.pures → v ∉ body.resultsOf Kind.isAlloc :=
      resultsOf_disjoint not_isPure_of_isAlloc hnodup.2.1.1
    have hrestPure (v : ValueId) : v ∈ rest.pures → v ∉ rest.resultsOf Kind.isAlloc :=
      resultsOf_disjoint not_isPure_of_isAlloc hnodup.2.1.2.1
    have hn := h.1
    refine ⟨by simp [hn], ?_, ?_, h.2.1.isLocal hnodup.2.1.1 ?_ ?_ ?_, ih h.2.2 hnodup.2.1.2.1 ?_ ?_⟩ <;>
      grind
  | leaf | fork => cases h

end Code

open Choco.IR.Module

variable {N : Nat} {m : Module} {θ : ValueId → ValueId} {C : Context} {n : Node} {rest c : Code}

theorem Module.Models.usersOf_eq_nil (h : m.Models c .nil) : m.usersOf v = [] ↔ v ∉ c.uses := by
  constructor
  · intro hnil hv
    obtain ⟨n, hn, hv⟩ := List.mem_flatMap.mp hv
    obtain ⟨parent, args, hnode⟩ := h.holds.hasNode hn
    obtain ⟨regions, hop, -⟩ := hnode.get?
    have hcount := h.sound.users v n.id
    rw [hnil, hop, Option.map_some, Option.getD_some] at hcount
    exact List.count_eq_zero.mp hcount.symm hv
  · intro hv
    refine List.eq_nil_iff_forall_not_mem.mpr fun id hid => ?_
    have hcount := h.sound.users v id
    have hpos := List.count_pos_iff.mpr hid
    cases hop : m.get? id with
    | none =>
      rw [hop, Option.map_none, Option.getD_none] at hcount
      omega
    | some op =>
      have hin := h.cover id op hop
      rw [Code.allIds_nil, List.append_nil] at hin
      obtain ⟨n, hn, rfl⟩ := List.mem_map.mp hin
      obtain ⟨parent, args, hnode⟩ := h.holds.hasNode hn
      obtain ⟨regions, hop', -⟩ := hnode.get?
      rw [hop', Option.map_some, Option.getD_some] at hcount
      have hmem := List.count_pos_iff.mp (hcount ▸ hpos)
      exact hv (List.mem_flatMap.mpr ⟨n, hn, hmem⟩)

theorem Named.usersOf_eq_nil (h : Named N m θ c) (hv : v ∈ c.results) :
    m.usersOf (θ v) = [] ↔ v ∉ c.uses := by
  rw [h.models.usersOf_eq_nil, Code.relabel, Code.uses_map, not_iff_not, List.mem_map]
  constructor
  · rintro ⟨x, hx, he⟩
    by_contra hne
    exact h.use_ne hx hv (fun hxv => hne (hxv ▸ hx)) he
  · exact fun hx => ⟨v, hx, rfl⟩

theorem Named.erase (h : Named N m θ (C.plug (.leaf n rest)))
    (hunused : ∀ v ∈ n.results, v ∉ (C.plug (.leaf n rest)).uses) :
    ∃ m', Edit.erase n.id m = .ok () m' ∧ Named N m' θ (C.plug rest) := by
  have hmodels : m.Models ((C.map θ θ).plug (.leaf (n.map θ θ) (rest.map θ θ))) .nil := by
    have hm := h.models
    rwa [Code.relabel, Context.map_plug, Code.map_leaf] at hm
  have hfree : ∀ v ∈ (n.map θ θ).results, m.usersOf v = [] := by
    intro v hv
    rw [Node.results_map] at hv
    obtain ⟨u, hu, rfl⟩ := List.mem_map.mp hv
    exact (h.usersOf_eq_nil (Context.mem_results_plug.mpr (.inr (by simp [hu])))).mpr (hunused u hu)
  obtain ⟨m', hrun, hm', hvalues⟩ := hmodels.erase hfree
  refine ⟨m', hrun, ⟨?_, fun x hx => ?_, fun a ha => ?_, hvalues ▸ h.size, h.fresh⟩⟩
  · rw [Code.relabel, Context.map_plug]
    exact hm'
  · have huse : x ∈ (C.plug (.leaf n rest)).uses := by
      simp only [Context.mem_uses_plug, Code.uses_leaf, List.mem_append] at hx ⊢
      exact hx.imp_right .inr
    have hne : x ∉ n.results := fun hin => hunused x hin huse
    have hx' := h.closed x huse
    simpa [Context.mem_results_plug, Context.mem_args_plug, hne] using hx'
  · obtain ⟨hθ, harg⟩ := h.args a (by simpa [Context.mem_args_plug] using ha)
    exact ⟨hθ, harg.settles (hvalues ▸ .refl _)⟩

namespace Edit

def dropStep (k count : Nat) (id : OpId) : Edit Nat := do
  if ← query fun m => .ok (m.isLive id) then
    let nested ← (List.range (← op id).regions.length).mapM fun index => dropDeadWithin k (.nested id index)
    let count := count + nested.sum
    let old ← op id
    if ← query fun m => .ok (m.isDead old) then
      erase id
      return count + 1
    else return count
  else return count

theorem dropDeadWithin_run {place : Place} (h : m.ops? place = some ids) (k : Nat) :
    dropDeadWithin (k + 1) place m = ids.reverse.foldlM (dropStep k) 0 m := by
  obtain ⟨r, hr, rfl⟩ := region_eq_ok_of_ops? h
  have hquery : query (fun m => m.region place) m = .ok r m := by simp [query, hr]
  exact Action.bind_ok hquery

theorem dropStep_run {op op' : Op} {counts : List Nat} (k count : Nat) (hop : m.get? id = some op)
    (hnested : ((List.range op.regions.length).mapM fun index => dropDeadWithin k (.nested id index)) m =
      .ok counts m₁)
    (hop' : m₁.get? id = some op') :
    dropStep k count id m =
      if m₁.isDead op' then (do erase id; return count + counts.sum + 1 : Edit Nat) m₁
        else .ok (count + counts.sum) m₁ := by
  refine (Action.bind_ok (isLive_run hop)).trans
    ((Action.bind_ok (op_run hop)).trans ((Action.bind_ok hnested).trans
    ((Action.bind_ok (op_run hop')).trans ?_)))
  have hquery : query (fun m => .ok (m.isDead op')) m₁ = .ok (m₁.isDead op') m₁ := rfl
  refine (Action.bind_ok hquery).trans ?_
  cases m₁.isDead op' <;> rfl

end Edit

theorem dropStep_leaf (h : Named N m θ (C.plug (.leaf n rest)))
    (hunused : n.kind.isPure → ∀ v ∈ n.results, v ∉ C.uses ∧ v ∉ n.operands) (k count : Nat) :
    ∃ count' m', Edit.dropStep k count n.id m = .ok count' m' ∧
      Named N m' θ
        (C.plug (if n.kind.isPure ∧ ∃ r ∈ n.result, r.value ∉ rest.uses then rest else .leaf n rest)) := by
  have hop := h.get?_leaf
  have hnested : ((List.range ((n.map θ θ).op [] (some (C.map θ θ).place)).regions.length).mapM fun index =>
      Edit.dropDeadWithin k (.nested n.id index)) m = .ok [] m := rfl
  have hstep := Edit.dropStep_run k count hop hnested hop
  have hdead : m.isDead ((n.map θ θ).op [] (some (C.map θ θ).place)) ↔ n.kind.isPure ∧
      ∃ r ∈ n.result, r.value ∉ rest.uses := by
    cases hr : n.result with
    | none => simp [isDead, Node.op, Node.map, hr]
    | some r =>
      have hv : r.value ∈ n.results := by simp [Node.results, hr]
      have husers := h.usersOf_eq_nil (v := r.value) (Context.mem_results_plug.mpr (.inr (by simp [hv])))
      simp only [isDead, Node.op, Node.map, hr, Option.map_some, Option.any_some, hasUsers, Bool.not_not,
        List.isEmpty_iff, Bool.and_eq_true, husers, Option.mem_def, Option.some.injEq, exists_eq_left']
      rw [and_comm, and_congr_right_iff]
      intro hpure
      have hfree := hunused hpure r.value hv
      simp [Context.mem_uses_plug, hfree]
  by_cases hd : n.kind.isPure ∧ ∃ r ∈ n.result, r.value ∉ rest.uses
  · rw [if_pos (hdead.mpr hd)] at hstep
    obtain ⟨hpure, r, hr, hrest⟩ := hd
    obtain ⟨m', hrun, h'⟩ := h.erase fun v hv => by
      obtain rfl : v = r.value := by simpa [Node.results, Option.mem_def.mp hr] using hv
      have hfree := hunused hpure r.value hv
      simp [Context.mem_uses_plug, hfree, hrest]
    rw [if_pos ⟨hpure, r, hr, hrest⟩]
    exact ⟨_, m', hstep.trans (Action.bind_ok hrun), h'⟩
  · rw [if_neg fun hdead' => hd (hdead.mp hdead')] at hstep
    rw [if_neg hd]
    exact ⟨_, m, hstep, h⟩

theorem Kind.not_isPure_of_hasRegions {k : Kind} (h : k.hasRegions) : k.isPure = false := by
  cases k <;> simp_all [Kind.hasRegions, Kind.isPure]

theorem foldlM_reverse_cons {count count₁ : Nat}
    (h : ids.reverse.foldlM (Edit.dropStep k) count m = .ok count₁ m₁) :
    (id :: ids).reverse.foldlM (Edit.dropStep k) count m = Edit.dropStep k count₁ id m₁ := by
  rw [List.reverse_cons, Action.foldlM_append_ok h]
  simp only [List.foldlM_cons, List.foldlM_nil, bind_pure]

theorem sweep_all (hfits : c.Fits fun _ => True) (h : Named N m θ (C.plug c)) (hlocal : c.Local)
    (hout : ∀ v ∈ c.pures, v ∉ C.uses) (hk : c.height ≤ k) (count : Nat) :
    ∃ count' m', c.ids.reverse.foldlM (Edit.dropStep k) count m = .ok count' m' ∧
      Named N m' θ (C.plug c.sweep) := by
  induction c generalizing m C k count with
  | nil => exact ⟨count, m, rfl, h⟩
  | leaf n rest ih =>
    have hn := hlocal.1
    have hrestOut : ∀ v ∈ rest.pures, v ∉ (C.after (.leaf n .nil)).uses := fun v hv => by
      have hv' : v ∈ (Code.leaf n rest).pures := by simp [Code.pures, hv]
      simp [hout v hv', hn v hv']
    obtain ⟨count₁, m₁, hrun, h₁⟩ := ih (C := C.after (.leaf n .nil)) hfits.2 h hlocal.2 hrestOut hk count
    obtain ⟨count', m', hstep, h'⟩ := dropStep_leaf (C := C) h₁ (fun hpure v hv => by
      have hv' : v ∈ (Code.leaf n rest).pures := by simp [Code.pures, hpure, hv]
      exact ⟨hout v hv', hn v hv'⟩) k count₁
    refine ⟨count', m', (foldlM_reverse_cons hrun).trans hstep, ?_⟩
    rw [Code.sweep]
    exact h'
  | each n args body rest ihb ih =>
    obtain ⟨hkind, hfitsBody, hfitsRest⟩ := hfits
    obtain ⟨hn, hbody, hrest, hlocalBody, hlocalRest⟩ := hlocal
    have hpure := Kind.not_isPure_of_hasRegions hkind
    simp only [Code.pures, Code.resultsOf_each, hpure, Bool.false_eq_true, if_false, List.nil_append,
      List.mem_append] at hout hn
    have hsweep (v : ValueId) := rest.uses_sweep (a := v)
    obtain ⟨count₁, m₁, hrun, h₁⟩ :=
      ih (C := C.after (.each n args body .nil)) (k := k) hfitsRest h hlocalRest
      (fun v hv => by grind) (by simp [Code.height] at hk; omega) count
    cases k with
    | zero => simp [Code.height] at hk
    | succ k =>
      obtain ⟨hids, hop⟩ := Named.regions_each (C := C) h₁
      obtain ⟨count₂, m₂, hrun₂, h₂⟩ := ihb (C := C.each n args rest.sweep) (k := k) hfitsBody h₁ hlocalBody
        (fun v hv => by grind)
        (by simp [Code.height] at hk; omega) 0
      obtain ⟨-, hop₂⟩ := Named.regions_each (C := C) h₂
      rw [← Edit.dropDeadWithin_run hids] at hrun₂
      have hstep := Edit.dropStep_run (k + 1) count₁ hop (Action.mapM_range_one hrun₂) hop₂
      refine ⟨_, m₂, (foldlM_reverse_cons hrun).trans (hstep.trans (if_neg ?_)), h₂⟩
      simp [isDead, Node.op, hpure]
  | fork n first second rest iha ihb ih =>
    obtain ⟨hkind, hfitsFirst, hfitsSecond, hfitsRest⟩ := hfits
    obtain ⟨hn, hfirst, hsecond, hrest, hlocalFirst, hlocalSecond, hlocalRest⟩ := hlocal
    have hpure := Kind.not_isPure_of_hasRegions hkind
    simp only [Code.pures, Code.resultsOf_fork, hpure, Bool.false_eq_true, if_false, List.nil_append,
      List.mem_append] at hout hn hfirst hsecond hrest
    have hsweep₁ (v : ValueId) := first.uses_sweep (a := v)
    have hsweep₃ (v : ValueId) := rest.uses_sweep (a := v)
    obtain ⟨count₁, m₁, hrun, h₁⟩ :=
      ih (C := C.after (.fork n first second .nil)) (k := k) hfitsRest h hlocalRest
      (fun v hv => by grind) (by simp [Code.height] at hk; omega) count
    cases k with
    | zero => simp [Code.height] at hk
    | succ k =>
      obtain ⟨hids, -, hop⟩ := Named.regions_fork (C := C) h₁
      obtain ⟨count₂, m₂, hrun₂, h₂⟩ :=
        iha (C := C.first n second rest.sweep) (k := k) hfitsFirst h₁ hlocalFirst
        (fun v hv => by grind) (by simp [Code.height] at hk; omega) 0
      obtain ⟨-, hids₂, -⟩ := Named.regions_fork (C := C) h₂
      obtain ⟨count₃, m₃, hrun₃, h₃⟩ :=
        ihb (C := C.second n first.sweep rest.sweep) (k := k) hfitsSecond h₂ hlocalSecond
        (fun v hv => by grind) (by simp [Code.height] at hk; omega) 0
      obtain ⟨-, -, hop₃⟩ := Named.regions_fork (C := C) h₃
      rw [← Edit.dropDeadWithin_run hids] at hrun₂
      rw [← Edit.dropDeadWithin_run hids₂] at hrun₃
      have hstep := Edit.dropStep_run (k + 1) count₁ hop (Action.mapM_range_two hrun₂ hrun₃) hop₃
      refine ⟨_, m₃, (foldlM_reverse_cons hrun).trans (hstep.trans (if_neg ?_)), h₃⟩
      simp [isDead, Node.op, hpure]

theorem dropDead_named (hfits : c.Fits fun _ => True) (h : Named N m θ c)
    (hscope : c.ScopedFunctions fun _ => False) :
    ∃ count m', Edit.dropDead m = .ok count m' ∧ Named N m' θ c.sweep := by
  have hlocal : c.Local := hscope.isLocal h.nodup (fun v hv ha => h.arg_ne ha hv rfl) fun _ _ => not_false
  have hheight : c.height < m.depthBound := by
    have hlt := h.models.height_lt
    rwa [Code.relabel, Code.height_map] at hlt
  have htop : m.ops? .top = some c.ids := by
    rw [h.models.top, Code.relabel, Code.ids_map]
  rw [Edit.dropDead]
  cases hk : m.depthBound with
  | zero => omega
  | succ k =>
    rw [Edit.dropDeadWithin_run htop]
    exact sweep_all (C := .top) hfits h hlocal (by simp) (by omega) 0

end Choco.IR
