import Choco.Proofs.Erase
import Choco.Proofs.Labels
import Mathlib.Logic.Function.Basic

namespace Choco.IR

open Choco.IR.Module

/-- The module is the code under other names. Names from `N` on stand for themselves. -/
structure Named (N : Nat) (m : Module) (θ : ValueId → ValueId) (c : Code) : Prop where
  models : m.Models (c.relabel θ) .nil
  closed : ∀ x ∈ c.uses, x ∈ c.results ∨ x ∈ c.args
  args : ∀ a ∈ c.args, θ a = a ∧ m.IsArg a
  size : N ≤ m.values.size
  fresh : ∀ u : ValueId, N ≤ u.index → θ u = u

/-- The names once an operation with a result was replaced: its name stands for the new result then. -/
inductive Relabels (n : Node) (θ : ValueId → ValueId) : List ValueId → (ValueId → ValueId) → Prop
  | same (h : n.result = none) : Relabels n θ [] θ
  | swap (r : Def) (w : ValueId) (h : n.result = some r) : Relabels n θ [w] (Function.update θ r.value w)

namespace Named

variable {N : Nat} {m m₁ : Module} {θ θ' : ValueId → ValueId} {C : Context} {n : Node} {c c₀ e rest : Code}
  {ws : List ValueId} {x a v : ValueId} {f : ValueId → ValueId}

theorem injective (h : Named N m θ c) {y : ValueId} (hx : x ∈ c.results) (hy : y ∈ c.results)
    (he : θ x = θ y) : x = y := by
  have hnodup := h.models.distinct
  rw [Code.results_nil, List.append_nil, Code.relabel, Code.results_map] at hnodup
  exact List.inj_on_of_nodup_map hnodup hx hy he

theorem arg_ne_result (h : Named N m θ c) (ha : a ∈ c.args) (hv : v ∈ c.results) : a ≠ θ v := by
  intro he
  obtain ⟨-, ty, owner, k, ha⟩ := h.args a ha
  obtain ⟨n, hn, hv⟩ := List.mem_flatMap.mp hv
  obtain ⟨_, _, hnode⟩ := h.models.holds.hasNode (n := n.map θ θ)
    (by rw [Code.relabel, Code.nodes_map]; exact List.mem_map_of_mem hn)
  cases hr : n.result with
  | none => simp [Node.results, hr] at hv
  | some r =>
    have hvr : v = r.value := by simpa [Node.results, hr] using hv
    have hvalue := hnode.value ⟨θ v, r.ty⟩ (by simp [Node.map, hr, hvr])
    rw [he] at ha
    cases ha.symm.trans hvalue

theorem use_ne (h : Named N m θ c) (hx : x ∈ c.uses) (hv : v ∈ c.results) (hne : x ≠ v) : θ x ≠ θ v := by
  intro he
  obtain hx | hx := h.closed x hx
  · exact hne (h.injective hx hv he)
  · exact h.arg_ne_result hx hv ((h.args x hx).1 ▸ he)

theorem result_lt (h : Named N m θ c) (hv : v ∈ c.results) : (θ v).index < m.values.size := by
  refine h.models.holds.result_lt ?_
  rw [Code.relabel, Code.results_map]
  exact List.mem_map_of_mem hv

theorem nodup (h : Named N m θ c) : c.results.Nodup := by
  have hnodup := h.models.distinct
  rw [Code.results_nil, List.append_nil, Code.relabel, Code.results_map] at hnodup
  exact hnodup.of_map

theorem arg_ne (h : Named N m θ c) (ha : a ∈ c.args) (hv : v ∈ c.results) : a ≠ v := by
  rintro rfl
  exact h.arg_ne_result ha hv (h.args a ha).1.symm

theorem emptied_map (hc : Emptied n rest c) (f g : ValueId → ValueId) :
    Emptied (n.map f g) (rest.map f g) (c.map f g) := by
  cases hc with
  | leaf => exact .leaf
  | each => exact .each
  | fork => exact .fork

theorem relabels_eq (hθ : Relabels n θ ws θ') {u : ValueId} (hu : u ∉ n.results) : θ' u = θ u := by
  cases hθ with
  | same hn => rfl
  | swap r w hn =>
    refine Function.update_of_ne (fun he => hu ?_) _ _
    simp [Node.results, hn, he]

theorem replace (h : Named N m θ (C.plug c₀)) (hc : Emptied n rest c) (hθ : Relabels n θ ws θ')
    (hf : ∀ x ∈ e.uses, f x = θ x ∨ f x = θ' x) (hm₁ : m₁.Models ((C.plug c).relabel θ) (e.map f θ'))
    (hvalues : Settles m.values m₁.values) (hnew : ∀ w ∈ ws, m.values.size ≤ w.index)
    (hold : ∀ v ∈ n.results, v.index < N)
    (hn : ∀ v ∈ n.results, v ∈ c₀.results) (hrest : ∀ v ∈ rest.results, v ∈ c₀.results ∧ v ∉ n.results)
    (huses : ∀ x ∈ e.uses, x ∈ (C.plug c₀).uses ∨ x ∈ e.results) (hrestUses : rest.uses ⊆ c₀.uses)
    (hkeep : ∀ v ∈ c₀.results, v ∈ e.results ∨ v ∈ rest.results)
    (hfresh : ∀ v ∈ e.results, v ∈ c₀.results ∨ m.values.size ≤ v.index)
    (hargs : ∀ a, a ∈ e.args ∨ a ∈ rest.args ↔ a ∈ c₀.args) :
    ∃ m', Edit.replaceOp n.id e.ids ws m₁ = .ok () m' ∧ Named N m' θ' (C.plug (e ++ rest)) ∧
      m'.values = m₁.values := by
  have hplug : m₁.Models ((C.map θ θ).plug (c.map θ θ)) (e.map f θ') := by
    rw [← Context.map_plug]
    exact hm₁
  have hin {v : ValueId} (hv : v ∈ n.results) : v ∈ (C.plug c₀).results :=
    Context.mem_results_plug.mpr (.inr (hn v hv))
  have hCn {v : ValueId} (hv : v ∈ C.results) : v ∉ n.results := by
    have hnodup := (C.results_plug c₀).nodup h.nodup
    exact fun hvn => (List.nodup_append.mp hnodup).2.2 v hv v (hn v hvn) rfl
  have huse {x : ValueId} (hx : x ∈ C.uses ∨ x ∈ e.uses ∨ x ∈ rest.uses) :
      x ∈ (C.plug c₀).uses ∨ x ∈ e.results := by
    obtain hx | hx | hx := hx
    · exact .inl (Context.mem_uses_plug.mpr (.inl hx))
    · exact huses x hx
    · exact .inl (Context.mem_uses_plug.mpr (.inr (hrestUses hx)))
  -- No other name stands for the result that goes away.
  have hother {x v : ValueId} (hv : v ∈ n.results) (hx : x ∈ C.uses ∨ x ∈ e.uses ∨ x ∈ rest.uses)
      (hne : x ≠ v) :
      θ x ≠ θ v := by
    obtain hx | hx := huse hx
    · exact h.use_ne hx (hin hv) hne
    · obtain hx | hx := hfresh x hx
      · exact fun he => hne (h.injective (Context.mem_results_plug.mpr (.inr hx)) (hin hv) he)
      · have hlt := h.result_lt (hin hv)
        rw [h.fresh x (h.size.trans hx)]
        rintro rfl
        omega
  have hτ : ∃ τ, Redirects (n.map θ θ) ws τ ∧
      ∀ x, x ∈ C.uses ∨ x ∈ e.uses ∨ x ∈ rest.uses → τ (θ x) = θ' x ∧ τ (θ' x) = θ' x := by
    cases hθ with
    | same hr => exact ⟨_, .same (by simp [Node.map, hr]), fun x _ => ⟨rfl, rfl⟩⟩
    | swap r w hr =>
      have hv : r.value ∈ n.results := by simp [Node.results, hr]
      have hlt := h.result_lt (hin hv)
      have hle := hnew w (List.mem_singleton_self w)
      have hne : θ r.value ≠ w := fun he => by
        rw [← he] at hle
        exact absurd hle (Nat.not_le_of_lt hlt)
      refine ⟨.redirect (θ r.value) w, .swap ⟨θ r.value, r.ty⟩ w (by simp [Node.map, hr]) hne, fun x hx => ?_⟩
      by_cases hxv : x = r.value
      · simp [hxv, ValueId.redirect, hne.symm]
      · simp [Function.update_of_ne hxv, ValueId.redirect, hother hv hx hxv]
  obtain ⟨τ, hredirects, hτ⟩ := hτ
  obtain ⟨m', hrun, hmodels, hsame⟩ := hplug.replaceOp (emptied_map hc θ θ) hredirects
  rw [Code.ids_map] at hrun
  refine ⟨m', hrun, ?_, hsame⟩
  have hcode : ((C.map θ θ).rename τ).plug ((e.map f θ' ++ rest.map θ θ).rename τ) =
      (C.plug (e ++ rest)).relabel θ' := by
    have hC : (C.map θ θ).rename τ = C.map θ' θ' := by
      rw [Context.rename_map]
      exact Context.map_congr (fun x hx => (hτ x (.inl hx)).1) fun v hv => (relabels_eq hθ (hCn hv)).symm
    have he : (e.map f θ').rename τ = e.map θ' θ' := by
      rw [Code.rename_map]
      refine Code.map_congr (fun x hx => ?_) fun v hv => rfl
      obtain ⟨hold, hself⟩ := hτ x (.inr (.inl hx))
      obtain hfx | hfx := hf x hx
      · rw [Function.comp_apply, hfx, hold]
      · rw [Function.comp_apply, hfx, hself]
    have hr : (rest.map θ θ).rename τ = rest.map θ' θ' := by
      rw [Code.rename_map]
      exact Code.map_congr (fun x hx => (hτ x (.inr (.inr hx))).1) fun v hv =>
        (relabels_eq hθ (hrest v hv).2).symm
    rw [hC, Code.rename_append, he, hr, ← Code.map_append, ← Context.map_plug]
    rfl
  rw [hcode] at hmodels
  have hsize : m.values.size ≤ m'.values.size := hsame ▸ hvalues.size_le
  refine ⟨hmodels, fun x hx => ?_, fun a ha => ?_, h.size.trans hsize, fun u hu => ?_⟩
  · simp only [Context.mem_uses_plug, Code.uses_append, List.mem_append, Context.mem_results_plug,
      Code.results_append, Context.mem_args_plug, Code.args_append] at hx ⊢
    obtain hx | hx := huse hx
    · obtain hx | hx := h.closed x hx
      · obtain hx | hx := Context.mem_results_plug.mp hx
        · exact .inl (.inl hx)
        · exact .inl (.inr (hkeep x hx))
      · obtain hx | hx := Context.mem_args_plug.mp hx
        · exact .inr (.inl hx)
        · exact .inr (.inr ((hargs x).mpr hx))
    · exact .inl (.inr (.inl hx))
  · have ha₀ : a ∈ (C.plug c₀).args := by
      simp only [Context.mem_args_plug, Code.args_append, List.mem_append] at ha ⊢
      exact ha.imp_right (hargs a).mp
    obtain ⟨hθa, harg⟩ := h.args a ha₀
    have hna : a ∉ n.results := fun hv => h.arg_ne ha₀ (hin hv) rfl
    exact ⟨(relabels_eq hθ hna).trans hθa, harg.settles (hsame ▸ hvalues)⟩
  · refine (relabels_eq hθ fun hun => ?_).trans (h.fresh u hu)
    have hlt := hold u hun
    omega

theorem apart_leaf (h : Named N m θ (C.plug (.leaf n rest))) (hv : v ∈ rest.results) : v ∉ n.results := by
  have hnodup := (C.results_plug (.leaf n rest)).nodup h.nodup
  rw [Code.results_leaf] at hnodup
  intro hvn
  exact (List.nodup_append.mp (List.nodup_append.mp hnodup).2.1).2.2 v hvn v hv rfl

theorem apart_fork {first second : Code} (h : Named N m θ (C.plug (.fork n first second rest)))
    (hv : v ∈ first.results ∨ v ∈ second.results ∨ v ∈ rest.results) : v ∉ n.results := by
  have hnodup := (C.results_plug _).nodup h.nodup
  rw [Code.results_fork] at hnodup
  intro hvn
  exact (List.nodup_append.mp (List.nodup_append.mp hnodup).2.1).2.2 v hvn v (by simpa using hv) rfl

theorem replaceLeaf (h : Named N m θ (C.plug (.leaf n rest))) (hθ : Relabels n θ ws θ')
    (hf : ∀ x ∈ e.uses, f x = θ x ∨ f x = θ' x) (hext : Extends m m₁ (e.map f θ'))
    (hws : ∀ w ∈ ws, m.values.size ≤ w.index) (hold : ∀ v ∈ n.results, v.index < N)
    (huses : ∀ x ∈ e.uses, x ∈ n.operands ∨ x ∈ e.results) (hkeep : ∀ v ∈ n.results, v ∈ e.results)
    (hfresh : ∀ v ∈ e.results, v ∈ n.results ∨ m.values.size ≤ v.index) (hargs : e.args = []) :
    ∃ m', Edit.replaceOp n.id e.ids ws m₁ = .ok () m' ∧ Named N m' θ' (C.plug (e ++ rest)) ∧
      m'.values = m₁.values := by
  have hm₁ := h.models.grow hext
  rw [Code.nil_append] at hm₁
  refine h.replace .leaf hθ hf hm₁ hext.change.values hws hold (fun v hv => by simp [hv])
    (fun v hv => ⟨by simp [hv], h.apart_leaf hv⟩) (fun x hx => ?_) (fun x hx => by simp [hx])
      (fun v hv => ?_) (fun v hv => ?_)
    (by simp [hargs])
  · exact (huses x hx).imp_left fun hx => Context.mem_uses_plug.mpr (.inr (by simp [hx]))
  · obtain hv | hv := List.mem_append.mp (Code.results_leaf n rest ▸ hv)
    · exact .inl (hkeep v hv)
    · exact .inr hv
  · exact (hfresh v hv).imp_left fun hv => by simp [hv]

end Named

end Choco.IR
