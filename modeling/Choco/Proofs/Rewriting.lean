import Choco.Proofs.Named
import Choco.Proofs.Walk

namespace Choco.IR

def Kind.hasRegions : Kind → Bool
  | .shortCircuit _ | .ifExpr | .ifElse | .whileLoop | .forLoop | .funcDef _ _ => true
  | _ => false

namespace Code

/-- The operations with regions are of such kinds, and those without have the property. -/
def Fits (Q : Node → Prop) : Code → Prop
  | nil => True
  | leaf n rest => Q n ∧ Fits Q rest
  | each n _ body rest => n.kind.hasRegions ∧ Fits Q body ∧ Fits Q rest
  | fork n first second rest => n.kind.hasRegions ∧ Fits Q first ∧ Fits Q second ∧ Fits Q rest

/-- Code in the place of each operation without regions. -/
def Maps (R : Node → Code → Prop) : Code → Code → Prop
  | nil, d => d = nil
  | leaf n rest, d => ∃ e rest', d = e ++ rest' ∧ R n e ∧ Maps R rest rest'
  | each n args body rest, d =>
    ∃ body' rest', d = each n args body' rest' ∧ Maps R body body' ∧ Maps R rest rest'
  | fork n first second rest, d =>
    ∃ first' second' rest', d = fork n first' second' rest' ∧ Maps R first first' ∧ Maps R second second' ∧
      Maps R rest rest'

theorem Maps.mono {R R' : Node → Code → Prop} (hR : ∀ n e, R n e → R' n e) {c d : Code} (h : Maps R c d) :
    Maps R' c d := by
  induction c generalizing d with
  | nil => exact h
  | leaf n rest ih =>
    obtain ⟨e, rest', rfl, he, hrest⟩ := h
    exact ⟨e, rest', rfl, hR n e he, ih hrest⟩
  | each n args body rest ihb ih =>
    obtain ⟨body', rest', rfl, hbody, hrest⟩ := h
    exact ⟨body', rest', rfl, ihb hbody, ih hrest⟩
  | fork n first second rest iha ihb ih =>
    obtain ⟨first', second', rest', rfl, hfirst, hsecond, hrest⟩ := h
    exact ⟨first', second', rest', rfl, iha hfirst, ihb hsecond, ih hrest⟩

end Code

open Choco.IR.Module

namespace Named

variable {N : Nat} {m : Module} {θ : ValueId → ValueId} {C : Context} {c rest : Code} {n : Node} {x : ValueId}

theorem hasNode (h : Named N m θ c) (hn : n ∈ c.nodes) :
    ∃ parent args, m.HasNode parent (n.map θ θ) args := by
  refine h.models.holds.hasNode ?_
  rw [Code.relabel, Code.nodes_map]
  exact List.mem_map_of_mem hn

theorem use_lt (h : Named N m θ c) (hx : x ∈ c.uses) : (θ x).index < m.values.size := by
  obtain hx | hx := h.closed x hx
  · exact h.result_lt hx
  · obtain ⟨hθ, harg⟩ := h.args x hx
    rw [hθ]
    exact harg.lt

theorem operand_lt (h : Named N m θ c) (hn : n ∈ c.nodes) (hx : x ∈ (n.map θ θ).operands) :
    x.index < m.values.size := by
  obtain ⟨y, hy, rfl⟩ := List.mem_map.mp hx
  exact h.use_lt (List.mem_flatMap.mpr ⟨n, hn, hy⟩)

theorem regions_each {args : List ValueId} {body : Code} (h : Named N m θ (C.plug (.each n args body rest))) :
    m.ops? (.nested n.id 0) = some body.ids ∧
      m.get? n.id = some ((n.map θ θ).op [{ args, ops := body.ids }] (some (C.map θ θ).place)) := by
  have hmodels := h.models
  rw [Code.relabel, Context.map_plug] at hmodels
  obtain ⟨-, hnode, hids, -⟩ := hmodels.around
  rw [Code.ids_map] at hids
  exact ⟨hids, hnode.regions_each hids⟩

theorem regions_fork {first second : Code} (h : Named N m θ (C.plug (.fork n first second rest))) :
    m.ops? (.nested n.id 0) = some first.ids ∧ m.ops? (.nested n.id 1) = some second.ids ∧
      m.get? n.id = some
        ((n.map θ θ).op [{ ops := first.ids }, { ops := second.ids }] (some (C.map θ θ).place)) := by
  have hmodels := h.models
  rw [Code.relabel, Context.map_plug] at hmodels
  obtain ⟨-, hnode, hids₁, hids₂, -⟩ := hmodels.around
  rw [Code.ids_map] at hids₁ hids₂
  exact ⟨hids₁, hids₂, hnode.regions_fork hids₁ hids₂⟩

end Named

namespace Edit

/-- Rewrite an operation that is live when its turn comes, and count it if it changed. -/
def visit (f : OpId → Edit Bool) (count : Nat) (id : OpId) : Edit Nat := do
  if ← query fun m => .ok (m.isLive id) then
    return if ← f id then count + 1 else count
  else return count

variable {f : OpId → Edit Bool} {m m' : Module} {id : OpId} {op : Op}

theorem visit_ok {b : Bool} (hop : m.get? id = some op) (h : f id m = .ok b m') (k : Nat) :
    visit f k id m = .ok (if b then k + 1 else k) m' := by
  exact (Action.bind_ok (isLive_run hop)).trans (Action.bind_ok h)

theorem visit_error {e : Error} (hop : m.get? id = some op) (h : f id m = .error e m') (k : Nat) :
    visit f k id m = .error e m' := by
  exact (Action.bind_ok (isLive_run hop)).trans (Action.bind_error h)

end Edit

/-- An edit that rewrites operations without regions one at a time. What it needs of a module is `I`, and code
that it may put in the place of an operation satisfies `R`, which may depend on all the code. It succeeds
where `G` holds. -/
structure Rewriting (f : OpId → Edit Bool) (N : Nat) (Q G : Node → Prop)
    (I : Module → (ValueId → ValueId) → Code → Prop) (R : Code → Node → Code → Prop) : Prop where
  run : ∀ {m m' : Module} {θ : ValueId → ValueId} {C : Context} {n : Node} {rest : Code} {b : Bool},
    Named N m θ (C.plug (.leaf n rest)) → I m θ (C.plug (.leaf n rest)) → Q n →
      (∀ v ∈ n.results, v.index < N) →
    f n.id m = .ok b m' →
    ∃ θ' e, Named N m' θ' (C.plug (e ++ rest)) ∧ I m' θ' (C.plug (e ++ rest)) ∧ R (C.plug (e ++ rest)) n e ∧
      ∀ n' e', R (C.plug (.leaf n rest)) n' e' → R (C.plug (e ++ rest)) n' e'
  succeeds : ∀ {m : Module} {θ : ValueId → ValueId} {C : Context} {n : Node} {rest : Code},
    Named N m θ (C.plug (.leaf n rest)) → I m θ (C.plug (.leaf n rest)) → Q n →
      (∀ v ∈ n.results, v.index < N) → G n →
    ∃ b m', f n.id m = .ok b m'
  skip : ∀ {m : Module} {id : OpId} {op : Op}, m.get? id = some op → op.kind.hasRegions →
    (∀ x ∈ op.operands, x.index < m.values.size) → f id m = .ok false m

namespace Rewriting

variable {f : OpId → Edit Bool} {N : Nat} {Q G : Node → Prop} {I : Module → (ValueId → ValueId) → Code → Prop}
  {R : Code → Node → Code → Prop} {m : Module} {θ : ValueId → ValueId} {C : Context} {c : Code}

theorem visit_skip (hf : Rewriting f N Q G I R) (h : Named N m θ c) {n : Node} (hn : n ∈ c.nodes)
    (hkind : n.kind.hasRegions) (k : Nat) : Edit.visit f k n.id m = .ok k m := by
  obtain ⟨parent, args, hnode⟩ := h.hasNode hn
  obtain ⟨regions, hop, -⟩ := hnode.get?
  exact Edit.visit_ok hop (hf.skip hop hkind fun x hx => h.operand_lt hn hx) k

theorem visit_all (hf : Rewriting f N Q G I R) (hc : c.Fits Q) (h : Named N m θ (C.plug c))
    (hI : I m θ (C.plug c)) (hold : ∀ v ∈ c.results, v.index < N) (k : Nat) :
    (∃ k' m' θ' c', c.allIds.foldlM (Edit.visit f) k m = .ok k' m' ∧ Named N m' θ' (C.plug c') ∧
      I m' θ' (C.plug c') ∧ c.Maps (R (C.plug c')) c' ∧ ∀ n' e', R (C.plug c) n' e' → R (C.plug c') n' e') ∨
    (∃ e m', c.allIds.foldlM (Edit.visit f) k m = .error e m' ∧ ¬ c.Fits G) := by
  induction c generalizing m θ C k with
  | nil => exact .inl ⟨k, m, θ, .nil, rfl, h, hI, rfl, fun _ _ hR => hR⟩
  | leaf n rest ih =>
    have hn : n ∈ (C.plug (.leaf n rest)).nodes := C.mem_nodes_plug List.mem_cons_self
    obtain ⟨parent, args, hnode⟩ := h.hasNode hn
    obtain ⟨regions, hop, -⟩ := hnode.get?
    rw [Node.id_map] at hop
    simp only [Code.results_leaf, List.forall_mem_append] at hold
    rw [Code.allIds_leaf]
    cases hrun : f n.id m with
    | error e m' =>
      refine .inr ⟨e, m', Action.foldlM_cons_error (Edit.visit_error hop hrun k), fun hG => ?_⟩
      obtain ⟨b, m'', hok⟩ := hf.succeeds h hI hc.1 hold.1 hG.1
      rw [hrun] at hok
      cases hok
    | ok b m₁ =>
      obtain ⟨θ₁, e, h₁, hI₁, hR, hmono⟩ := hf.run h hI hc.1 hold.1 hrun
      rw [Action.foldlM_cons_ok (Edit.visit_ok hop hrun k)]
      obtain ⟨k', m', θ', rest', hrest, h', hI', hmaps, hmono'⟩ | ⟨e', m', hrest, hG⟩ :=
        ih (C := .after C e) hc.2 h₁ hI₁ hold.2 (if b then k + 1 else k)
      · exact .inl ⟨k', m', θ', e ++ rest', hrest, h', hI', ⟨e, rest', rfl, hmono' _ _ hR, hmaps⟩,
          fun n' e' hR' => hmono' _ _ (hmono _ _ hR')⟩
      · exact .inr ⟨e', m', hrest, fun hG' => hG hG'.2⟩
  | each n args body rest ihb ih =>
    have hn : n ∈ (C.plug (.each n args body rest)).nodes := C.mem_nodes_plug List.mem_cons_self
    simp only [Code.results_each, List.forall_mem_append] at hold
    rw [Code.allIds_each, Action.foldlM_cons_ok (hf.visit_skip h hn hc.1 k)]
    obtain ⟨k₁, m₁, θ₁, body', hrun₁, h₁, hI₁, hmaps₁, hmono₁⟩ | ⟨e, m', hrun₁, hG⟩ :=
      ihb (C := .each C n args rest) hc.2.1 h hI hold.2.1 k
    · rw [Action.foldlM_append_ok hrun₁]
      obtain ⟨k₂, m₂, θ₂, rest', hrun₂, h₂, hI₂, hmaps₂, hmono₂⟩ | ⟨e, m', hrun₂, hG⟩ :=
        ih (C := .after C (.each n args body' .nil)) hc.2.2 h₁ hI₁ hold.2.2 k₁
      · exact .inl ⟨k₂, m₂, θ₂, .each n args body' rest', hrun₂, h₂, hI₂,
          ⟨body', rest', rfl, hmaps₁.mono hmono₂, hmaps₂⟩, fun n' e' hR => hmono₂ _ _ (hmono₁ _ _ hR)⟩
      · exact .inr ⟨e, m', hrun₂, fun hG' => hG hG'.2.2⟩
    · exact .inr ⟨e, m', Action.foldlM_append_error hrun₁, fun hG' => hG hG'.2.1⟩
  | fork n first second rest iha ihb ih =>
    have hn : n ∈ (C.plug (.fork n first second rest)).nodes := C.mem_nodes_plug List.mem_cons_self
    simp only [Code.results_fork, List.forall_mem_append] at hold
    rw [Code.allIds_fork, Action.foldlM_cons_ok (hf.visit_skip h hn hc.1 k)]
    obtain ⟨k₁, m₁, θ₁, first', hrun₁, h₁, hI₁, hmaps₁, hmono₁⟩ | ⟨e, m', hrun₁, hG⟩ :=
      iha (C := .first C n second rest) hc.2.1 h hI hold.2.1 k
    · rw [Action.foldlM_append_ok hrun₁]
      obtain ⟨k₂, m₂, θ₂, second', hrun₂, h₂, hI₂, hmaps₂, hmono₂⟩ | ⟨e, m', hrun₂, hG⟩ :=
        ihb (C := .second C n first' rest) hc.2.2.1 h₁ hI₁ hold.2.2.1 k₁
      · rw [Action.foldlM_append_ok hrun₂]
        obtain ⟨k₃, m₃, θ₃, rest', hrun₃, h₃, hI₃, hmaps₃, hmono₃⟩ | ⟨e, m', hrun₃, hG⟩ :=
          ih (C := .after C (.fork n first' second' .nil)) hc.2.2.2 h₂ hI₂ hold.2.2.2 k₂
        · exact .inl ⟨k₃, m₃, θ₃, .fork n first' second' rest', hrun₃, h₃, hI₃,
            ⟨first', second', rest', rfl, hmaps₁.mono fun _ _ hR => hmono₃ _ _ (hmono₂ _ _ hR),
            hmaps₂.mono hmono₃, hmaps₃⟩, fun n' e' hR => hmono₃ _ _ (hmono₂ _ _ (hmono₁ _ _ hR))⟩
        · exact .inr ⟨e, m', hrun₃, fun hG' => hG hG'.2.2.2⟩
      · exact .inr ⟨e, m', Action.foldlM_append_error hrun₂, fun hG' => hG hG'.2.2.1⟩
    · exact .inr ⟨e, m', Action.foldlM_append_error hrun₁, fun hG' => hG hG'.2.1⟩

end Rewriting

end Choco.IR
