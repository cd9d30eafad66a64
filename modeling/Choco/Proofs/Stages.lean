import Choco.Proofs.Flattening
import Choco.Proofs.Generation
import Choco.Proofs.Scoping
import Choco.Proofs.Sweep
import Choco.Proofs.Unrolling

namespace Choco.IR

variable {v : ValueId}

namespace Code

variable {A S : ValueId → Prop} {θ : ValueId → ValueId} {y : Bool} {c d : Code}

section Names

theorem resultsOf_map (p : Kind → Bool) (f g : ValueId → ValueId) (c : Code) :
    (c.map f g).resultsOf p = (c.resultsOf p).map g := by
  simp [resultsOf, nodes_map, List.filter_map, List.flatMap_map, List.map_flatMap, Function.comp_def]

theorem Shaped.map (h : c.Shaped y) (f g : ValueId → ValueId) : (c.map f g).Shaped y := by
  induction h with
  | nil => exact .nil
  | yield id x => exact .yield id (f x)
  | leaf hn _ ih => exact .leaf (hn.map f g) ih
  | loop id x location _ _ ihb ih => exact .loop id (f x) (f location) ihb ih
  | fork hn _ _ _ iha ihb ih => exact .fork (hn.map f g) iha ihb ih

theorem Functions.map (h : c.Functions) (f g : ValueId → ValueId) : (c.map f g).Functions := by
  induction h with
  | nil => exact .nil
  | function id label ty args hbody _ ih => exact .function id label ty args (hbody.map f g) ih

def Image (θ : ValueId → ValueId) (S : ValueId → Prop) (v : ValueId) : Prop := ∃ u, S u ∧ θ u = v

theorem Scoped.relabel (h : c.Scoped A S) (hargs : ∀ a ∈ c.args, θ a = a) :
    (c.relabel θ).Scoped (Image θ A) (Image θ S) := by
  have hsees {n : Node} {A S : ValueId → Prop} (hn : n.Sees A S) :
      (n.map θ θ).Sees (Image θ A) (Image θ S) := by
    intro x hx
    obtain ⟨u, hu, rfl⟩ := List.mem_map.mp hx
    exact (hn u hu).imp (fun h => ⟨u, h, rfl⟩) fun h => ⟨h.1, u, h.2, rfl⟩
  have hrest {n : Node} {S : ValueId → Prop} (v : ValueId) (hv : Image θ (fun v => v ∈ n.results ∨ S v) v) :
      v ∈ (n.map θ θ).results ∨ Image θ S v := by
    obtain ⟨u, hu | hu, rfl⟩ := hv
    · exact .inl (by rw [Node.results_map]; exact List.mem_map_of_mem hu)
    · exact .inr ⟨u, hu, rfl⟩
  induction c generalizing A S with
  | nil => trivial
  | leaf n rest ih => exact ⟨hsees h.1, (ih h.2 hargs).mono (fun _ hv => hv) hrest⟩
  | each n args body rest ihb ih =>
    simp only [args_each, List.forall_mem_append] at hargs
    refine ⟨hsees h.1, (ihb h.2.1 hargs.2.1).mono ?_ fun _ hv => hv,
      (ih h.2.2 hargs.2.2).mono (fun _ hv => hv) hrest⟩
    rintro v ⟨u, hu | hu, rfl⟩
    · rw [hargs.1 u hu]
      exact .inl hu
    · exact .inr ⟨u, hu, rfl⟩
  | fork n first second rest iha ihb ih =>
    simp only [args_fork, List.forall_mem_append] at hargs
    exact ⟨hsees h.1, iha h.2.1 hargs.1, ihb h.2.2.1 hargs.2.1,
      (ih h.2.2.2 hargs.2.2).mono (fun _ hv => hv) hrest⟩

theorem ScopedFunctions.relabel (h : c.ScopedFunctions S) (hargs : ∀ a ∈ c.args, θ a = a) :
    (c.relabel θ).ScopedFunctions (Image θ S) := by
  have hallocs {d : Code} {S : ValueId → Prop} (v : ValueId)
      (hv : Image θ (fun v => S v ∨ v ∈ d.resultsOf Kind.isAlloc) v) :
      Image θ S v ∨ v ∈ (d.map θ θ).resultsOf Kind.isAlloc := by
    obtain ⟨u, hu | hu, rfl⟩ := hv
    · exact .inl ⟨u, hu, rfl⟩
    · exact .inr (by rw [resultsOf_map]; exact List.mem_map_of_mem hu)
  induction c generalizing S with
  | nil => trivial
  | each n args body rest _ ih =>
    simp only [args_each, List.forall_mem_append] at hargs
    refine ⟨by simp [h.1], (h.2.1.relabel hargs.2.1).mono ?_ hallocs, (ih h.2.2 hargs.2.2).mono hallocs⟩
    rintro v ⟨u, hu, rfl⟩
    rw [hargs.1 u hu]
    exact hu
  | leaf | fork => exact h

end Names

structure LocalRewrite (R : Node → Code → Prop) : Prop where
  scope : ∀ {n e}, R n e → ∀ {A S}, n.Sees A S → e.Scoped A S
  results : ∀ {n e}, R n e → ∀ v ∈ n.results, v ∈ e.tops
  alloc : ∀ {n e}, R n e → n.kind.isAlloc → e = leaf n nil
  plain : ∀ {n e}, R n e → n.Plain → e.Shaped false
  yield : ∀ {id x e}, R ⟨id, .yield, [x], none⟩ e → e = leaf ⟨id, .yield, [x], none⟩ nil

section Maps

variable {R : Node → Code → Prop} (hR : LocalRewrite R)

include hR

theorem Maps.shaped (h : c.Maps R d) (hc : c.Shaped y) : d.Shaped y := by
  induction hc generalizing d with
  | nil => exact h ▸ .nil
  | yield id x =>
    obtain ⟨e, rest', rfl, he, rfl⟩ := h
    rw [hR.yield he]
    exact .yield id x
  | leaf hn _ ih =>
    obtain ⟨e, rest', rfl, he, hrest⟩ := h
    exact (hR.plain he hn).append (ih hrest)
  | loop id x location _ _ ihb ih =>
    obtain ⟨body', rest', rfl, hbody, hrest⟩ := h
    exact .loop id x location (ihb hbody) (ih hrest)
  | fork hn _ _ _ iha ihb ih =>
    obtain ⟨first', second', rest', rfl, hfirst, hsecond, hrest⟩ := h
    exact .fork hn (iha hfirst) (ihb hsecond) (ih hrest)

theorem Maps.functions (h : c.Maps R d) (hc : c.Functions) : d.Functions := by
  induction hc generalizing d with
  | nil => exact h ▸ .nil
  | function id label ty args hbody _ ih =>
    obtain ⟨body', rest', rfl, hbody', hrest⟩ := h
    exact .function id label ty args (hbody'.shaped hR hbody) (ih hrest)

theorem Maps.allocs (h : c.Maps R d) (hv : v ∈ c.resultsOf Kind.isAlloc) : v ∈ d.resultsOf Kind.isAlloc := by
  induction c generalizing d with
  | nil => cases hv
  | leaf n rest ih =>
    obtain ⟨e, rest', rfl, he, hrest⟩ := h
    rw [resultsOf_leaf, List.mem_append] at hv
    rw [resultsOf_append, List.mem_append]
    obtain hv | hv := hv
    · split at hv
      next halloc =>
        rw [hR.alloc he halloc]
        simp [halloc, hv]
      next => cases hv
    · exact .inr (ih hrest hv)
  | each n args body rest ihb ih =>
    obtain ⟨body', rest', rfl, hbody, hrest⟩ := h
    simp only [resultsOf_each, List.mem_append] at hv ⊢
    exact hv.imp_right (Or.imp (ihb hbody) (ih hrest))
  | fork n first second rest iha ihb ih =>
    obtain ⟨first', second', rest', rfl, hfirst, hsecond, hrest⟩ := h
    simp only [resultsOf_fork, List.mem_append] at hv ⊢
    exact hv.imp_right (Or.imp (iha hfirst) (Or.imp (ihb hsecond) (ih hrest)))

theorem Maps.scoped (h : c.Maps R d) (hc : c.Scoped A S) : d.Scoped A S := by
  induction c generalizing A S d with
  | nil => exact h ▸ trivial
  | leaf n rest ih =>
    obtain ⟨e, rest', rfl, he, hrest⟩ := h
    refine (hR.scope he hc.1).append
      ((ih hrest hc.2).mono (fun _ hv => hv) fun v => Or.imp_left (hR.results he v))
  | each n args body rest ihb ih =>
    obtain ⟨body', rest', rfl, hbody, hrest⟩ := h
    exact ⟨hc.1, ihb hbody hc.2.1, ih hrest hc.2.2⟩
  | fork n first second rest iha ihb ih =>
    obtain ⟨first', second', rest', rfl, hfirst, hsecond, hrest⟩ := h
    exact ⟨hc.1, iha hfirst hc.2.1, ihb hsecond hc.2.2.1, ih hrest hc.2.2.2⟩

theorem Maps.scopedFunctions (h : c.Maps R d) (hc : c.ScopedFunctions S) : d.ScopedFunctions S := by
  induction c generalizing S d with
  | nil => exact h ▸ trivial
  | each n args body rest _ ih =>
    obtain ⟨body', rest', rfl, hbody, hrest⟩ := h
    refine ⟨hc.1, (hbody.scoped hR hc.2.1).mono (fun _ hv => hv) fun v => ?_,
      (ih hrest hc.2.2).mono fun v => ?_⟩
    · exact Or.imp_right (hrest.allocs hR)
    · exact Or.imp_right (hbody.allocs hR)
  | leaf | fork => cases hc

end Maps

end Code

namespace LibraryUse

variable {kind : Kind} {tys : List Ty} {routine : String}

theorem ofOp_call (h : ofOp kind tys = .ok (.call routine)) :
    (kind.isStore = false ∧ kind.isAlloc = false ∧ kind ≠ .yield) ∧ routine ≠ "print" ∧
      routine ≠ "input" := by
  unfold ofOp at h
  split at h
  next => unfold ofPrint at h; split at h <;> cases h <;> decide
  next => cases h
  next => cases h; decide
  next => cases h
  next => split at h <;> cases h; decide
  next => cases h; decide
  next => cases h
  next => cases h

theorem ofOp_routine (h : ofOp kind tys = .ok (.negated routine)) :
    routine ≠ "print" ∧ routine ≠ "input" := by
  unfold ofOp at h
  split at h
  next => unfold ofPrint at h; split at h <;> cases h
  next => cases h
  next => cases h
  next => cases h
  next => split at h <;> cases h
  next => cases h
  next => cases h; decide
  next => cases h

theorem ofOp_keep (h : ofOp kind tys = .ok .keep) : kind ≠ .call "print" ∧ kind ≠ .call "input" := by
  constructor
  · rintro rfl
    obtain _ | ⟨ty, _ | ⟨ty', tys⟩⟩ := tys
    · simp [ofOp] at h
    · cases ty <;> simp [ofOp, ofPrint] at h
    · simp [ofOp] at h
  · rintro rfl
    cases tys <;> simp [ofOp] at h

end LibraryUse

open Code

theorem localRewrite_library (types : Types) : LocalRewrite (LibraryCode types) where
  scope {n e} h A S hn := by
    cases h with
    | keep h => exact ⟨hn, trivial⟩
    | call routine h =>
      refine ⟨fun x hx => ?_, trivial⟩
      have hstore := (LibraryUse.ofOp_call h).1.1
      exact .inl ((hn x hx).resolve_right (by simp [hstore]))
    | negated routine h id₁ id₂ equal r hr =>
      have hkind := LibraryUse.ofOp_negated h
      refine ⟨fun x hx => ?_, by simp [Node.Sees, Node.results], trivial⟩
      exact .inl ((hn x hx).resolve_right (by simp [hkind, Kind.isStore]))
  results {n e} h v hv := by
    cases h with
    | keep h | call routine h => simpa [tops, Node.results] using hv
    | negated routine h id₁ id₂ equal r hr =>
      obtain rfl : v = r.value := by simpa [Node.results, hr] using hv
      simp [tops, Node.results]
  alloc {n e} h halloc := by
    cases h with
    | keep h => rfl
    | call routine h => exact absurd halloc (by simp [(LibraryUse.ofOp_call h).1.2.1])
    | negated routine h id₁ id₂ equal r hr => simp [LibraryUse.ofOp_negated h, Kind.isAlloc] at halloc
  plain {n e} h hn := by
    cases h with
    | keep h => exact .leaf hn .nil
    | call routine h => exact .leaf (.call n.id routine n.operands n.result) .nil
    | negated routine h id₁ id₂ equal r hr =>
      exact .leaf (.call id₁ routine _ _) (.leaf (.unary id₂ .not equal r) .nil)
  yield {id x e} h := by
    cases h with
    | keep h => rfl
    | call routine h => exact absurd rfl (LibraryUse.ofOp_call h).1.2.2
    | negated routine h id₁ id₂ equal r hr => cases hr

theorem localRewrite_fold (c : Code) : LocalRewrite (FoldCode c) where
  scope {n e} h A S hn := by
    cases h with
    | keep => exact ⟨hn, trivial⟩
    | sum id x y j k r hkind hoperands hr hx hy => exact ⟨nofun, trivial⟩
  results {n e} h v hv := by
    cases h with
    | keep => simpa [tops] using hv
    | sum id x y j k r hkind hoperands hr hx hy => simpa [tops, Node.results, hr] using hv
  alloc {n e} h halloc := by
    cases h with
    | keep => rfl
    | sum id x y j k r hkind hoperands hr hx hy => simp [hkind, Kind.isAlloc] at halloc
  plain {n e} h hn := by
    cases h with
    | keep => exact .leaf hn .nil
    | sum id x y j k r hkind hoperands hr hx hy => exact .leaf (.literal id _ _) .nil
  yield {id x e} h := by
    cases h with
    | keep => rfl
    | sum id x y j k r hkind hoperands hr hx hy => cases hr

section Loops

variable {types : Types} {A S : ValueId → Prop} {sequence target index : ValueId} {ty : Ty} {body c c' : Code}
  {y : Bool}

theorem ElementCode.shaped (h : ElementCode ty sequence index c v) : c.Shaped false := by
  unfold ElementCode at h
  split at h
  next => exact h.shaped
  next =>
    obtain ⟨address, id₁, id₂, rfl⟩ := h
    exact .leaf (.getAddress id₁ _ _ _) (.leaf (.load id₂ _ _) .nil)
  next => cases h

theorem ElementCode.leaves (h : ElementCode ty sequence index c v) (hsequence : S sequence)
    (hindex : S index) :
    c.Leaves A S v := by
  unfold ElementCode at h
  split at h
  next => exact h.leaves hsequence hindex
  next =>
    obtain ⟨address, id₁, id₂, rfl⟩ := h
    simp [Leaves, Scoped, Node.Sees, tops, Node.results, hsequence, hindex]
  next => cases h

theorem WhileOf.shaped (h : WhileOf types sequence target body c) (hbody : body.Shaped false) :
    c.Shaped false := by
  obtain ⟨_, _, _, id₁, id₂, id₃, id₄, _, _, _, -, ⟨_, _, _, i₁, i₂, i₃, i₄, rfl⟩,
    ⟨_, _, j₁, j₂, _, helement, rfl⟩, ⟨_, _, _, k₁, k₂, k₃, k₄, rfl⟩, rfl⟩ := h
  refine .leaf (.alloc id₁ _ _) (.leaf (.literal id₂ _ _)
    (.leaf (.store id₃ _ _) (.fork (.whileLoop id₄) ?_ ?_ .nil)))
  · exact .leaf (.call i₁ _ _ _)
      (.leaf (.load i₂ _ _) (.leaf (.binary i₃ .lt _ _ _ rfl fun _ => rfl) (.yield i₄ _)))
  · refine Shaped.append (.leaf (.load j₁ _ _) (helement.shaped.append (.leaf (.store j₂ _ _) .nil)))
      (hbody.append ?_)
    exact .leaf (.load k₁ _ _) (.leaf (.literal k₂ _ _)
      (.leaf (.binary k₃ .add _ _ _ rfl nofun) (.leaf (.store k₄ _ _) .nil)))

theorem WhileOf.scoped (h : WhileOf types sequence target body c) (hsequence : S sequence)
    (htarget : S target) (hbody : body.Scoped A S) : c.Scoped A S := by
  obtain ⟨_, index, zero, _, _, _, _, _, _, _, -, ⟨_, _, _, _, _, _, _, rfl⟩,
    ⟨current, _, _, _, _, helement, rfl⟩, ⟨_, _, _, _, _, _, _, rfl⟩, rfl⟩ := h
  obtain ⟨helement, hitem⟩ := helement.leaves (A := A)
    (S := fun v => v = current ∨ v = zero ∨ v = index ∨ S v) (.inr (.inr (.inr hsequence))) (.inl rfl)
  simp only [Scoped, Node.Sees, Node.results, scoped_append, tops, tops_append, leaf_append]
  simp only [List.not_mem_nil, false_or, IsEmpty.forall_iff, implies_true, Option.map_some,
    Option.toList_some, List.mem_cons, or_false, forall_eq_or_imp, forall_eq, true_or, or_true,
    true_and, and_true, Option.map_none, Option.toList_none, List.nil_append, List.mem_append,
    hsequence, htarget]
  exact ⟨⟨helement, .inl hitem⟩, hbody.mono (fun _ hv => hv) fun v hv => .inr (.inr (.inr (.inr hv)))⟩

theorem ElementCode.loopless (h : ElementCode ty sequence index c v) : ∀ n ∈ c.nodes, n.kind ≠ .forLoop := by
  unfold ElementCode at h
  split at h
  next =>
    obtain ⟨address, code, id₁, id₂, id₃, rfl⟩ := h
    simp [nodes]
  next =>
    obtain ⟨address, id₁, id₂, rfl⟩ := h
    simp [nodes]
  next => cases h

theorem WhileOf.loopless (h : WhileOf types sequence target body c)
    (hbody : ∀ n ∈ body.nodes, n.kind ≠ .forLoop) :
    ∀ n ∈ c.nodes, n.kind ≠ .forLoop := by
  obtain ⟨_, _, _, _, _, _, _, _, _, _, -, ⟨_, _, _, _, _, _, _, rfl⟩, ⟨_, _, _, _, _, helement, rfl⟩,
    ⟨_, _, _, _, _, _, _, rfl⟩, rfl⟩ := h
  have helement := helement.loopless
  simp only [nodes, nodes_append, List.forall_mem_cons, List.forall_mem_append]
  simpa using ⟨helement, hbody⟩

theorem Unrolls.shaped (h : Unrolls types c c') (hc : c.Shaped y) :
    c'.Shaped y ∧ ∀ n ∈ c'.nodes, n.kind ≠ .forLoop := by
  induction h generalizing y with
  | nil => exact ⟨hc, by simp [nodes]⟩
  | leaf hrest ih =>
    cases hc with
    | yield id x =>
      cases hrest
      exact ⟨.yield id x, by simp [nodes]⟩
    | leaf hn hshape =>
      obtain ⟨hshape, hrest⟩ := ih hshape
      exact ⟨.leaf hn hshape, List.forall_mem_cons.mpr ⟨by cases hn <;> simp, hrest⟩⟩
  | loop hloop _ _ ihb ih =>
    cases hc with
    | loop id x location hbody hrest =>
      obtain ⟨hshape₁, hbody⟩ := ihb hbody
      obtain ⟨hshape₂, hrest⟩ := ih hrest
      refine ⟨(hloop.shaped hshape₁).append hshape₂, ?_⟩
      rw [nodes_append, List.forall_mem_append]
      exact ⟨hloop.loopless hbody, hrest⟩
  | each hn _ _ _ _ =>
    cases hc with
    | loop id x location hbody hrest => exact absurd rfl hn
  | fork _ _ _ iha ihb ih =>
    cases hc with
    | fork hn hfirst hsecond hrest =>
      obtain ⟨hshape₁, hfirst⟩ := iha hfirst
      obtain ⟨hshape₂, hsecond⟩ := ihb hsecond
      obtain ⟨hshape₃, hrest⟩ := ih hrest
      refine ⟨.fork hn hshape₁ hshape₂ hshape₃, ?_⟩
      simp only [nodes, List.forall_mem_cons, List.forall_mem_append]
      exact ⟨by cases hn <;> simp, hfirst, hsecond, hrest⟩

theorem Unrolls.functions (h : Unrolls types c c') (hc : c.Functions) :
    c'.Functions ∧ ∀ n ∈ c'.nodes, n.kind ≠ .forLoop := by
  induction h with
  | nil => exact ⟨hc, by simp [nodes]⟩
  | leaf | loop | fork => cases hc
  | each _ hbody _ _ ih =>
    cases hc with
    | function id label ty _ hshape hrest =>
      obtain ⟨hshape, hbody⟩ := hbody.shaped hshape
      obtain ⟨hfunctions, hrest⟩ := ih hrest
      refine ⟨.function id label ty _ hshape hfunctions, ?_⟩
      simp only [nodes, List.forall_mem_cons, List.forall_mem_append]
      exact ⟨by simp, hbody, hrest⟩

theorem Unrolls.scoped (h : Unrolls types c c') (hc : c.Scoped A S) : c'.Scoped A S := by
  induction h generalizing A S with
  | nil => exact hc
  | leaf _ ih => exact ⟨hc.1, ih hc.2⟩
  | @loop id x location body body' rest rest' c hloop _ _ ihb ih =>
    obtain ⟨hsees, hbody, hrest⟩ := hc
    have hsight {x : ValueId} (hx : x ∈ _) := (hsees x hx).resolve_right (by simp [Kind.isStore])
    have hbody : body'.Scoped A S := (ihb hbody).mono (by simp) fun _ hv => hv
    refine (hloop.scoped (hsight (by simp)) (hsight (by simp)) hbody).append
      ((ih hrest).mono (fun _ hv => hv) fun v hv => ?_)
    exact .inr (by simpa [Node.results] using hv)
  | each _ _ _ ihb ih => exact ⟨hc.1, ihb hc.2.1, ih hc.2.2⟩
  | fork _ _ _ iha ihb ih => exact ⟨hc.1, iha hc.2.1, ihb hc.2.2.1, ih hc.2.2.2⟩

theorem WhileOf.allocs (h : WhileOf types sequence target body c) (hv : v ∈ body.resultsOf Kind.isAlloc) :
    v ∈ c.resultsOf Kind.isAlloc := by
  obtain ⟨_, _, _, _, _, _, _, _, _, _, -, -, -, -, rfl⟩ := h
  simp [hv]

theorem Unrolls.allocs (h : Unrolls types c c') (hv : v ∈ c.resultsOf Kind.isAlloc) :
    v ∈ c'.resultsOf Kind.isAlloc := by
  induction h with
  | nil => exact hv
  | leaf _ ih =>
    simp only [resultsOf_leaf, List.mem_append] at hv ⊢
    exact hv.imp_right ih
  | loop hloop _ _ ihb ih =>
    simp only [resultsOf_each, Kind.isAlloc, Bool.false_eq_true, if_false, List.nil_append, resultsOf_append,
      List.mem_append] at hv ⊢
    exact hv.imp (fun hv => hloop.allocs (ihb hv)) ih
  | each _ _ _ ihb ih =>
    simp only [resultsOf_each, List.mem_append] at hv ⊢
    exact hv.imp_right (Or.imp ihb ih)
  | fork _ _ _ iha ihb ih =>
    simp only [resultsOf_fork, List.mem_append] at hv ⊢
    exact hv.imp_right (Or.imp iha (Or.imp ihb ih))

theorem Unrolls.scopedFunctions (h : Unrolls types c c') (hfunctions : c.Functions)
    (hc : c.ScopedFunctions S) :
    c'.ScopedFunctions S := by
  induction h generalizing S with
  | nil => exact hc
  | leaf | loop | fork => cases hfunctions
  | each _ hbody hrest _ ih =>
    cases hfunctions with
    | function id label ty _ _ hfunctions =>
      refine ⟨hc.1, (hbody.scoped hc.2.1).mono (fun _ hv => hv) fun v => ?_,
        (ih hfunctions hc.2.2).mono fun v => ?_⟩
      · exact Or.imp_right hrest.allocs
      · exact Or.imp_right hbody.allocs

end Loops

section Sweep

variable {A S : ValueId → Prop} {c : Code} {y : Bool} {n : Node}

theorem Code.Scoped.forget {P : ValueId → Prop} (h : c.Scoped A fun v => P v ∨ S v)
    (hP : ∀ v, P v → v ∉ c.uses) :
    c.Scoped A S := by
  have hsees {n : Node} {A S : ValueId → Prop} (hn : n.Sees A fun v => P v ∨ S v)
      (hP : ∀ v, P v → v ∉ n.operands) :
      n.Sees A S := fun x hx => (hn x hx).imp_left (Or.resolve_left · fun hx' => hP x hx' hx)
  induction c generalizing A S with
  | nil => trivial
  | leaf n rest ih =>
    simp only [uses_leaf, List.mem_append, not_or] at hP
    refine ⟨hsees h.1 fun v hv => (hP v hv).1,
      ih (h.2.mono (fun _ hv => hv) fun v => ?_) fun v hv => (hP v hv).2⟩
    exact or_left_comm.mp
  | each n args body rest ihb ih =>
    simp only [uses_each, List.mem_append, not_or] at hP
    refine ⟨hsees h.1 fun v hv => (hP v hv).1, ihb h.2.1 fun v hv => (hP v hv).2.1,
      ih (h.2.2.mono (fun _ hv => hv) fun v => ?_) fun v hv => (hP v hv).2.2⟩
    exact or_left_comm.mp
  | fork n first second rest iha ihb ih =>
    simp only [uses_fork, List.mem_append, not_or] at hP
    refine ⟨hsees h.1 fun v hv => (hP v hv).1, iha h.2.1 fun v hv => (hP v hv).2.1,
      ihb h.2.2.1 fun v hv => (hP v hv).2.2.1, ih (h.2.2.2.mono (fun _ hv => hv) fun v => ?_) fun v hv =>
      (hP v hv).2.2.2⟩
    exact or_left_comm.mp

theorem sweep_leaf_eq (n : Node) (rest : Code) :
    (n.kind.isPure ∧ (∃ r, n.result = some r ∧ r.value ∉ rest.sweep.uses) ∧
      (leaf n rest).sweep = rest.sweep) ∨ (leaf n rest).sweep = leaf n rest.sweep := by
  rw [sweep]
  split
  next h => exact .inl ⟨h.1, h.2, rfl⟩
  next => exact .inr rfl

theorem Code.Scoped.sweep (h : c.Scoped A S) : c.sweep.Scoped A S := by
  induction c generalizing A S with
  | nil => trivial
  | leaf n rest ih =>
    obtain ⟨-, ⟨r, hr, hunused⟩, heq⟩ | heq := sweep_leaf_eq n rest
    · rw [heq]
      refine (ih h.2).forget fun v hv => ?_
      obtain rfl : v = r.value := by simpa [Node.results, hr] using hv
      exact hunused
    · rw [heq]
      exact ⟨h.1, ih h.2⟩
  | each n args body rest ihb ih => exact ⟨h.1, ihb h.2.1, ih h.2.2⟩
  | fork n first second rest iha ihb ih => exact ⟨h.1, iha h.2.1, ihb h.2.2.1, ih h.2.2.2⟩

theorem Code.Shaped.sweep (h : c.Shaped y) : c.sweep.Shaped y := by
  induction h with
  | nil => exact .nil
  | yield id x => exact .yield id x
  | @leaf y n rest hn _ ih =>
    obtain ⟨-, -, heq⟩ | heq := sweep_leaf_eq n rest
    · rw [heq]
      exact ih
    · rw [heq]
      exact .leaf hn ih
  | loop id x location _ _ ihb ih => exact .loop id x location ihb ih
  | fork hn _ _ _ iha ihb ih => exact .fork hn iha ihb ih

theorem Code.Functions.sweep (h : c.Functions) : c.sweep.Functions := by
  induction h with
  | nil => exact .nil
  | function id label ty args hbody _ ih => exact .function id label ty args hbody.sweep ih

theorem mem_nodes_sweep (hn : n ∈ c.sweep.nodes) : n ∈ c.nodes := by
  induction c with
  | nil => exact hn
  | leaf n' rest ih =>
    obtain ⟨-, -, heq⟩ | heq := sweep_leaf_eq n' rest
    · rw [heq] at hn
      exact List.mem_cons_of_mem _ (ih hn)
    · rw [heq] at hn
      exact List.mem_cons.mpr ((List.mem_cons.mp hn).imp_right ih)
  | each n' args body rest ihb ih =>
    simp only [Code.sweep, nodes, List.mem_cons, List.mem_append] at hn ⊢
    exact hn.imp_right (Or.imp ihb ih)
  | fork n' first second rest iha ihb ih =>
    simp only [Code.sweep, nodes, List.mem_cons, List.mem_append] at hn ⊢
    exact hn.imp_right (Or.imp iha (Or.imp ihb ih))

theorem nodes_sweep_of_not_pure (hn : n ∈ c.nodes) (hpure : n.kind.isPure = false) : n ∈ c.sweep.nodes := by
  induction c with
  | nil => exact hn
  | leaf n' rest ih =>
    obtain ⟨hpure', -, heq⟩ | heq := sweep_leaf_eq n' rest
    · rw [heq]
      obtain rfl | hn := List.mem_cons.mp hn
      · rw [hpure] at hpure'
        cases hpure'
      · exact ih hn
    · rw [heq]
      exact List.mem_cons.mpr ((List.mem_cons.mp hn).imp_right ih)
  | each n' args body rest ihb ih =>
    simp only [Code.sweep, nodes, List.mem_cons, List.mem_append] at hn ⊢
    exact hn.imp_right (Or.imp ihb ih)
  | fork n' first second rest iha ihb ih =>
    simp only [Code.sweep, nodes, List.mem_cons, List.mem_append] at hn ⊢
    exact hn.imp_right (Or.imp iha (Or.imp ihb ih))

theorem resultsOf_alloc_sweep (hv : v ∈ c.resultsOf Kind.isAlloc) : v ∈ c.sweep.resultsOf Kind.isAlloc := by
  obtain ⟨n, hn, halloc, hv⟩ := (mem_resultsOf _).mp hv
  refine (mem_resultsOf _).mpr ⟨n, nodes_sweep_of_not_pure hn ?_, halloc, hv⟩
  cases hpure : n.kind.isPure with
  | false => rfl
  | true => exact absurd halloc (not_isPure_of_isAlloc _ hpure)

theorem Code.ScopedFunctions.sweep (h : c.ScopedFunctions S) : c.sweep.ScopedFunctions S := by
  induction c generalizing S with
  | nil => trivial
  | each n args body rest _ ih =>
    refine ⟨h.1, h.2.1.sweep.mono (fun _ hv => hv) fun v => ?_, (ih h.2.2).mono fun v => ?_⟩
    · exact Or.imp_right resultsOf_alloc_sweep
    · exact Or.imp_right resultsOf_alloc_sweep
  | leaf | fork => cases h

end Sweep

end Choco.IR
