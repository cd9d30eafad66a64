import Choco.IR.Optimize
import Choco.Proofs.LibraryCalls
import Choco.Proofs.Scope

namespace Choco.IR

variable {x : ValueId} {k : Int32} {d e c : Code} {op : Op}

def Code.HasLiteral (c : Code) (x : ValueId) (k : Int32) : Prop :=
  ∃ n ∈ c.nodes, n.kind = .literal (.int k) ∧ ∃ ty, n.result = some ⟨x, ty⟩

inductive FoldCode (c : Code) (n : Node) : Code → Prop
  | keep : FoldCode c n (.leaf n .nil)
  | sum (id : OpId) (x y : ValueId) (j k : Int32) (r : Def) (hkind : n.kind = .binary .add)
      (hoperands : n.operands = [x, y]) (hr : n.result = some r) (hx : c.HasLiteral x j)
      (hy : c.HasLiteral y k) :
      FoldCode c n (.leaf ⟨id, .literal (.int (j + k)), [], some ⟨r.value, .plain .int⟩⟩ .nil)

def Code.IsSum (c : Code) (n : Node) : Prop :=
  n.kind = .binary .add ∧ ∃ x y j k, n.operands = [x, y] ∧ c.HasLiteral x j ∧ c.HasLiteral y k

/-- The operations of the code are those of `c₀`, whose results keep their names, and literals with new
names. -/
def Traced (N : Nat) (c₀ : Code) (θ : ValueId → ValueId) (c : Code) : Prop :=
  ∀ n ∈ c.nodes, (n ∈ c₀.nodes ∧ ∀ v ∈ n.results, θ v = v) ∨
    (n ∉ c₀.nodes ∧ (∃ k, n.kind = .literal (.int k)) ∧ ∀ v ∈ n.results, N ≤ (θ v).index)

open Choco.IR.Module

variable {N : Nat} {m : Module} {θ : ValueId → ValueId} {C : Context} {n : Node} {rest c c₀ : Code}

theorem Traced.replace (h : Traced N c₀ θ (C.plug (.leaf n rest)))
    (hnodup : (C.plug (.leaf n rest)).results.Nodup) (hnodup₀ : c₀.results.Nodup) {r : Def}
    (hr : n.result = some r) (hkind : ∀ k, n.kind ≠ .literal (.int k)) (id : OpId)
    (k : Int32) (ty : ValueType) {w : ValueId} (hw : N ≤ w.index) :
    Traced N c₀ (Function.update θ r.value w)
      (C.plug (.leaf ⟨id, .literal (.int k), [], some ⟨r.value, ty⟩⟩ rest)) := by
  have hv : r.value ∈ n.results := by simp [Node.results, hr]
  have hn : n ∈ c₀.nodes := by
    obtain ⟨hn, -⟩ | ⟨-, ⟨k, hk⟩, -⟩ := h n (C.mem_nodes_plug (by simp [Code.nodes]))
    · exact hn
    · exact absurd hk (hkind k)
  have hother {n' : Node} (hn' : n' ∈ C.nodes ∨ n' ∈ rest.nodes) : r.value ∉ n'.results := by
    intro hv'
    have hnodup := (C.results_plug _).nodup hnodup
    rw [Code.results_leaf, List.nodup_append, List.nodup_append] at hnodup
    obtain hn' | hn' := hn'
    · exact hnodup.2.2 _ (List.mem_flatMap.mpr ⟨n', hn', hv'⟩) _ (List.mem_append_left _ hv) rfl
    · exact hnodup.2.1.2.2 _ hv _ (List.mem_flatMap.mpr ⟨n', hn', hv'⟩) rfl
  intro n' hn'
  rw [(C.nodes_plug _).mem_iff, List.mem_append, Code.nodes, List.mem_cons] at hn'
  have hold {n' : Node} (hn' : n' ∈ C.nodes ∨ n' ∈ rest.nodes) :
      (n' ∈ c₀.nodes ∧ ∀ v ∈ n'.results, Function.update θ r.value w v = v) ∨
        (n' ∉ c₀.nodes ∧ (∃ k, n'.kind = .literal (.int k)) ∧ ∀ v ∈ n'.results,
          N ≤ (Function.update θ r.value w v).index) := by
    have hsame (v : ValueId) (hv : v ∈ n'.results) : Function.update θ r.value w v = θ v := by
      refine Function.update_of_ne ?_ _ _
      rintro rfl
      exact hother hn' hv
    have hin : n' ∈ (C.plug (.leaf n rest)).nodes := by
      simp only [(C.nodes_plug _).mem_iff, Code.nodes, List.mem_append, List.mem_cons]
      tauto
    obtain ⟨hin, hfix⟩ | ⟨hout, hlit, hle⟩ := h n' hin
    · exact .inl ⟨hin, fun v hv => (hsame v hv).trans (hfix v hv)⟩
    · exact .inr ⟨hout, hlit, fun v hv => hsame v hv ▸ hle v hv⟩
  obtain hn' | rfl | hn' := hn'
  · exact hold (.inl hn')
  · refine .inr ⟨fun hin => hkind k ?_, ⟨k, rfl⟩, by simpa [Node.results] using hw⟩
    rw [Code.eq_of_mem_results hnodup₀ hn hin hv (by simp [Node.results])]
  · exact hold (.inr hn')

theorem Named.hasLiteral (h : Named N m θ c) (hx : x ∈ c.uses) (hk : m.intLiteral? (θ x) = some k) :
    c.HasLiteral x k := by
  obtain hx | hx := h.closed x hx
  · obtain ⟨n, hn, hx⟩ := List.mem_flatMap.mp hx
    obtain ⟨parent, args, hnode⟩ := h.hasNode hn
    obtain ⟨regions, hop, -⟩ := hnode.get?
    cases hr : n.result with
    | none => simp [Node.results, hr] at hx
    | some r =>
      obtain rfl : x = r.value := by simpa [Node.results, hr] using hx
      have hvalue := hnode.value ⟨θ r.value, r.ty⟩ (by simp [Node.map, hr])
      simp only [intLiteral?, definingOp?, hvalue, hop, Node.op] at hk
      refine ⟨n, hn, ?_, r.ty, hr⟩
      split at hk
      next he =>
        cases hk
        simp only [Node.kind_map, Option.some.injEq, Op.mk.injEq] at he
        exact he.1
      next => cases hk
  · obtain ⟨hθ, ty, owner, i, ha⟩ := h.args x hx
    simp [intLiteral?, definingOp?, hθ, ha] at hk

theorem hasLiteral_mono (hsub : ∀ n ∈ d.nodes, n.kind = .literal (.int k) → n ∈ e.nodes)
    (h : (C.plug d).HasLiteral x k) :
    (C.plug e).HasLiteral x k := by
  obtain ⟨n, hn, hkind, hr⟩ := h
  refine ⟨n, ?_, hkind, hr⟩
  rw [(C.nodes_plug d).mem_iff, List.mem_append] at hn
  rw [(C.nodes_plug e).mem_iff, List.mem_append]
  exact hn.imp_right fun hn => hsub n hn hkind

theorem FoldCode.mono (hsub : ∀ k, ∀ n ∈ d.nodes, n.kind = .literal (.int k) → n ∈ e.nodes)
    (h : FoldCode (C.plug d) n c) :
    FoldCode (C.plug e) n c := by
  cases h with
  | keep => exact .keep
  | sum id x y j k r hkind hoperands hr hx hy =>
    exact .sum id x y j k r hkind hoperands hr (hasLiteral_mono (hsub j) hx) (hasLiteral_mono (hsub k) hy)

theorem literalSum?_eq_some {sum : Int32} (h : m.literalSum? op = some sum) :
    ∃ x y j k, op.kind = .binary .add ∧ op.operands = [x, y] ∧ m.intLiteral? x = some j ∧
      m.intLiteral? y = some k ∧ sum = j + k := by
  unfold literalSum? at h
  split at h
  next x y hkind hoperands =>
    obtain ⟨j, hj, h⟩ := Option.bind_eq_some_iff.mp h
    obtain ⟨k, hk, h⟩ := Option.bind_eq_some_iff.mp h
    exact ⟨x, y, j, k, hkind, hoperands, hj, hk, (Option.some.inj h).symm⟩
  next => cases h

theorem Named.intLiteral?_eq (h : Named N m θ c) (hx : c.HasLiteral x k) : m.intLiteral? (θ x) = some k := by
  obtain ⟨n, hn, hkind, ty, hr⟩ := hx
  obtain ⟨parent, args, hnode⟩ := h.hasNode hn
  obtain ⟨regions, hop, -⟩ := hnode.get?
  have hvalue := hnode.value ⟨θ x, ty⟩ (by simp [Node.map, hr])
  simp only [intLiteral?, definingOp?, hvalue, hop, Node.op, Node.kind_map, hkind]

theorem Named.literalSum?_eq_none (h : Named N m θ c) (hn : n ∈ c.nodes) (regions : List Region)
    (parent : Option Place) :
    m.literalSum? ((n.map θ θ).op regions parent) = none ↔ ¬ c.IsSum n := by
  constructor
  · rintro hnone ⟨hkind, x, y, j, k, hoperands, hx, hy⟩
    simp [literalSum?, Node.op, hkind, hoperands, h.intLiteral?_eq hx, h.intLiteral?_eq hy] at hnone
  · intro hsum
    refine Option.eq_none_iff_forall_ne_some.mpr fun sum hsome => hsum ?_
    obtain ⟨x', y', j, k, hkind, hoperands, hj, hk, -⟩ := literalSum?_eq_some hsome
    obtain ⟨x, ys, hxy, rfl, hys⟩ := List.map_eq_cons_iff.mp hoperands
    obtain ⟨y, rfl, rfl⟩ := List.map_eq_singleton_iff.mp hys
    have huse {z : ValueId} (hz : z ∈ [x, y]) : z ∈ c.uses :=
      List.mem_flatMap.mpr ⟨n, hn, by rw [show n.operands = [x, y] from hxy]; exact hz⟩
    exact ⟨hkind, x, y, j, k, hxy, h.hasLiteral (huse (by simp)) hj, h.hasLiteral (huse (by simp)) hk⟩

theorem literal_extends (h : m.Sound) (k : Int32) :
    ∃ id m₁, Edit.make (fun m =>
        let (literal, v, m) := m.createValue (.literal (.int k)) [] (.plain .int) []
        ((literal, v), m)) m = .ok (id, ⟨m.values.size⟩) m₁ ∧
      Extends m m₁ (.leaf ⟨id, .literal (.int k), [], some ⟨⟨m.values.size⟩, .plain .int⟩⟩ .nil) := by
  obtain ⟨hmade, hv, hvalues⟩ := createValue_made h (.literal (.int k)) [] (.plain .int) [] (by simp)
  refine ⟨(m.createValue (.literal (.int k)) [] (.plain .int) []).1, _, ?_,
    Made.extends_leaf (n := ⟨_, .literal (.int k), [], some ⟨⟨m.values.size⟩, .plain .int⟩⟩) hmade
      (fun d hd => ?_) (stays_push hvalues)⟩
  · simp only [Edit.make, hv]
  · cases hd
    exact ⟨rfl, by rw [hvalues]; simp⟩

theorem foldSum_run (h : Named N m θ (C.plug (.leaf n rest))) (hI : Traced N c₀ θ (C.plug (.leaf n rest)))
    (hnodup₀ : c₀.results.Nodup) (hQ : n.kind = .binary .add → ∃ r, n.result = some r)
    (hold : ∀ v ∈ n.results, v.index < N) :
    ∃ b m' θ' e, Edit.foldSum n.id m = .ok b m' ∧ Named N m' θ' (C.plug (e ++ rest)) ∧
      Traced N c₀ θ' (C.plug (e ++ rest)) ∧
      FoldCode (C.plug (e ++ rest)) n e ∧ (∀ n' ∈ e.nodes, ¬ (C.plug (e ++ rest)).IsSum n') ∧
      ∀ n' e', FoldCode (C.plug (.leaf n rest)) n' e' → FoldCode (C.plug (e ++ rest)) n' e' := by
  cases hsum : m.literalSum? ((n.map θ θ).op [] (some (C.map θ θ).place)) with
  | none =>
    have hkept : ¬ (C.plug (.leaf n rest)).IsSum n :=
      (h.literalSum?_eq_none (C.mem_nodes_plug List.mem_cons_self) _ _).mp hsum
    refine ⟨false, m, θ, .leaf n .nil, ?_, h, hI, .keep, by simpa [Code.nodes] using hkept, fun _ _ hR => hR⟩
    have hquery : Edit.query (fun m => .ok (m.literalSum? ((n.map θ θ).op [] (some (C.map θ θ).place)))) m =
        .ok none m := by
      simp only [Edit.query, hsum]
    rw [Edit.foldSum, Action.bind_ok (Edit.op_run h.get?_leaf)]
    exact Action.bind_ok hquery
  | some sum =>
    obtain ⟨x', y', j, k, hkind, hoperands, hj, hk, rfl⟩ := literalSum?_eq_some hsum
    obtain ⟨x, ys, hxy, rfl, hys⟩ := List.map_eq_cons_iff.mp hoperands
    obtain ⟨y, rfl, rfl⟩ := List.map_eq_singleton_iff.mp hys
    obtain ⟨r, hr⟩ := hQ hkind
    have huse {z : ValueId} (hz : z ∈ n.operands) : z ∈ (C.plug (.leaf n rest)).uses :=
      Context.mem_uses_plug.mpr (.inr (by simp [hz]))
    obtain ⟨id, m₁, hmake, hext⟩ := literal_extends h.models.sound (j + k)
    obtain ⟨e, he⟩ : ∃ e, e = Code.leaf ⟨id, .literal (.int (j + k)), [], some ⟨r.value, .plain .int⟩⟩ .nil :=
      ⟨_, rfl⟩
    have hcode : (Code.leaf ⟨id, .literal (.int (j + k)), [], some ⟨⟨m.values.size⟩, .plain .int⟩⟩ .nil) =
        e.map θ (Function.update θ r.value ⟨m.values.size⟩) := by
      simp [he, Node.map]
    have hresults : e.results = [r.value] := by simp [he, Node.results]
    rw [hcode] at hext
    obtain ⟨m', hreplace, h', -⟩ :=
      h.replaceLeaf (.swap r ⟨m.values.size⟩ hr) (fun _ _ => .inl rfl) hext (by simp) hold
      (by simp [he]) (by simp [hresults, Node.results, hr]) (by simp [hresults, Node.results, hr])
        (by simp [he])
    have hsub (i : Int32) : ∀ n' ∈ (Code.leaf n rest).nodes, n'.kind = .literal (.int i) →
        n' ∈ (e ++ rest).nodes := by
      intro n' hn' hlit
      obtain rfl | hn' := List.mem_cons.mp hn'
      · have hadd : n'.kind = .binary .add := hkind
        rw [hadd] at hlit
        cases hlit
      · simp [hn']
    refine ⟨true, m', _, e, ?_, h', ?_,
      ?_, by simp [he, Code.nodes, Code.IsSum], fun n' e' hR => hR.mono hsub⟩
    · have hquery : Edit.query (fun m => .ok (m.literalSum? ((n.map θ θ).op [] (some (C.map θ θ).place)))) m =
          .ok (some (j + k)) m := by
        simp only [Edit.query, hsum]
      have hids : e.ids = [id] := by simp [he, Code.ids]
      rw [hids] at hreplace
      rw [Edit.foldSum, Action.bind_ok (Edit.op_run h.get?_leaf)]
      exact (Action.bind_ok hquery).trans ((Action.bind_ok hmake).trans (Action.bind_ok hreplace))
    · have hadd : n.kind = .binary .add := hkind
      rw [he]
      exact hI.replace h.nodup hnodup₀ hr (fun k hk => by rw [hadd] at hk; cases hk) id (j + k) _ h.size
    · have hxy' : n.operands = [x, y] := hxy
      rw [he]
      rw [he] at hsub
      exact .sum id x y j k r hkind hxy hr
        (hasLiteral_mono (hsub j) (h.hasLiteral (huse (by simp [hxy'])) hj))
        (hasLiteral_mono (hsub k) (h.hasLiteral (huse (by simp [hxy'])) hk))

theorem foldSum_skip {id : OpId} (hop : m.get? id = some op) (hkind : op.kind.hasRegions) :
    Edit.foldSum id m = .ok false m := by
  have hnone : m.literalSum? op = none := by
    unfold literalSum?
    split
    next hadd _ => rw [hadd] at hkind; cases hkind
    next => rfl
  have hquery : Edit.query (fun m => .ok (m.literalSum? op)) m = .ok none m := by
    simp only [Edit.query, hnone]
  exact (Action.bind_ok (Edit.op_run hop)).trans (Action.bind_ok hquery)

theorem rewriting_foldSums (N : Nat) (hnodup₀ : c₀.results.Nodup) :
    Rewriting Edit.foldSum N (fun n => n.kind = .binary .add → ∃ r, n.result = some r) (fun _ => True)
      (fun _ => Traced N c₀) FoldCode where
  run h hI hQ hold hrun := by
    obtain ⟨b', m'', θ', e, hrun', h', hI', he, -, hmono⟩ := foldSum_run h hI hnodup₀ hQ hold
    cases hrun.symm.trans hrun'
    exact ⟨θ', e, h', hI', he, hmono⟩
  succeeds h hI hQ hold _ := by
    obtain ⟨b, m', -, -, hrun, -⟩ := foldSum_run h hI hnodup₀ hQ hold
    exact ⟨b, m', hrun⟩
  skip hop hkind _ := foldSum_skip hop hkind

theorem Code.fits_true {Q : Node → Prop} (h : c.Fits Q) : c.Fits fun _ => True := by
  induction c with
  | nil => trivial
  | leaf n rest ih => exact ⟨trivial, ih h.2⟩
  | each n args body rest ihb ih => exact ⟨h.1, ihb h.2.1, ih h.2.2⟩
  | fork n first second rest iha ihb ih => exact ⟨h.1, iha h.2.1, ihb h.2.2.1, ih h.2.2.2⟩

theorem foldSums_named (h : Named N m θ c)
    (hfits : c.Fits fun n => n.kind = .binary .add → ∃ r, n.result = some r)
    (hold : ∀ v ∈ c.results, v.index < N) (hθ : ∀ v ∈ c.results, θ v = v) :
    ∃ k m' θ' c', Edit.foldSums m = .ok k m' ∧ Named N m' θ' c' ∧ Traced N c θ' c' ∧
      c.Maps (FoldCode c') c' := by
  have hwalk : m.walk = c.allIds := by rw [h.models.walk, Code.relabel, Code.allIds_map]
  have hrun : Edit.foldSums m = c.allIds.foldlM (Edit.visit Edit.foldSum) 0 m := by
    have hquery : Edit.query (fun m => .ok m.walk) m = .ok c.allIds m := by simp only [Edit.query, hwalk]
    exact Action.bind_ok hquery
  have hI : Traced N c θ c := fun n hn => .inl ⟨hn, fun v hv => hθ v (List.mem_flatMap.mpr ⟨n, hn, hv⟩)⟩
  rw [hrun]
  obtain ⟨k, m', θ', c', hok, h', hI', hmaps, -⟩ | ⟨e, m', -, hfail⟩ :=
    (rewriting_foldSums N h.nodup).visit_all (C := .top) hfits h hI hold 0
  · exact ⟨k, m', θ', c', hok, h', hI', hmaps⟩
  · exact absurd (Code.fits_true hfits) hfail

end Choco.IR
