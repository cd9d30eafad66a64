import Choco.Proofs.Named

namespace Choco.IR

open Choco.IR.Module

namespace Named

variable {N : Nat} {m m₁ : Module} {θ θ' : ValueId → ValueId} {C : Context} {n : Node} {c c₀ d rest : Code}
  {ws : List ValueId} {x : ValueId}

theorem name_lt (h : Named N m θ c) (hx : x ∈ c.uses ∨ x ∈ c.results) : (θ x).index < m.values.size := by
  obtain hx | hx := hx
  · obtain hx | hx := h.closed x hx
    · exact h.result_lt hx
    · obtain ⟨hθ, harg⟩ := h.args x hx
      rw [hθ]
      exact harg.lt
  · exact h.result_lt hx

theorem injective_names (h : Named N m θ c) {y : ValueId} (hx : x ∈ c.uses ∨ x ∈ c.results)
    (hy : y ∈ c.uses ∨ y ∈ c.results) (he : θ x = θ y) : x = y := by
  have hcases {z : ValueId} (hz : z ∈ c.uses ∨ z ∈ c.results) : z ∈ c.results ∨ z ∈ c.args :=
    hz.elim (h.closed z) .inl
  obtain hx | hx := hcases hx <;> obtain hy | hy := hcases hy
  · exact h.injective hx hy he
  · exact absurd ((h.args y hy).1 ▸ he.symm) (h.arg_ne_result hy hx)
  · exact absurd ((h.args x hx).1 ▸ he) (h.arg_ne_result hx hy)
  · rwa [(h.args x hx).1, (h.args y hy).1] at he

/-- From the names of a module back to those of its code, where a new name is that of the result it stands
for. -/
structure Back (m : Module) (θ : ValueId → ValueId) (c : Code) (n : Node) (ws : List ValueId)
    (σ : ValueId → ValueId) :
    Prop where
  old : ∀ x, x ∈ c.uses ∨ x ∈ c.results → x ∉ n.results → σ (θ x) = x
  result : ∀ r ∈ n.result, ∀ w ∈ ws, σ w = r.value
  new : ∀ u : ValueId, m.values.size ≤ u.index → u ∉ ws → σ u = u

theorem exists_back (h : Named N m θ c) (hws : ∀ w ∈ ws, m.values.size ≤ w.index) :
    ∃ σ, Back m θ c n ws σ := by
  classical
  refine ⟨fun u => if u ∈ ws then (n.result.map Def.value).getD u else
    if hx : ∃ x, (x ∈ c.uses ∨ x ∈ c.results) ∧ θ x = u then hx.choose
      else u, ⟨fun x hx hn => ?_, fun r hr w hw => ?_,
    fun u hu hw => ?_⟩⟩
  · have hlt := h.name_lt hx
    have hout : θ x ∉ ws := fun hw => by
      have hle := hws _ hw
      omega
    have hex : ∃ y, (y ∈ c.uses ∨ y ∈ c.results) ∧ θ y = θ x := ⟨x, hx, rfl⟩
    simp only [if_neg hout, dif_pos hex]
    exact h.injective_names hex.choose_spec.1 hx hex.choose_spec.2
  · rw [Option.mem_def] at hr
    simp [hw, hr]
  · have hnone : ¬ ∃ x, (x ∈ c.uses ∨ x ∈ c.results) ∧ θ x = u := by
      rintro ⟨x, hx, rfl⟩
      have hlt := h.name_lt hx
      omega
    simp only [if_neg hw, dif_neg hnone]

theorem replaceWith (h : Named N m θ (C.plug c₀)) (hc : Emptied n rest c)
    (hm₁ : m₁.Models ((C.plug c).relabel θ) d) (hvalues : Settles m.values m₁.values)
    (hws : ws.length = n.results.length) (hnew : ∀ w ∈ ws, m.values.size ≤ w.index ∧ w ∈ d.results)
    (hold : ∀ v ∈ n.results, v.index < N) (hn : ∀ v ∈ n.results, v ∈ c₀.results)
    (hrest : ∀ v ∈ rest.results, v ∈ c₀.results ∧ v ∉ n.results) (hrestUses : rest.uses ⊆ c₀.uses)
    (hresults : ∀ u ∈ d.results, (∃ v ∈ c₀.results, v ∉ n.results ∧ u = θ v) ∨ m.values.size ≤ u.index)
    (huses : ∀ u ∈ d.uses, (∃ x ∈ (C.plug c₀).uses, x ∉ n.results ∧ u = θ x) ∨ u ∈ d.results)
    (hkeep : ∀ v ∈ c₀.results, v ∈ n.results ∨ θ v ∈ d.results ∨ v ∈ rest.results)
    (hargs : ∀ a, a ∈ d.args ∨ a ∈ rest.args ↔ a ∈ c₀.args) :
    ∃ m' θ' σ, Edit.replaceOp n.id d.ids ws m₁ = .ok () m' ∧ Named N m' θ' (C.plug (d.map σ σ ++ rest)) ∧
      m'.values = m₁.values ∧ Back m θ (C.plug c₀) n ws σ := by
  obtain ⟨θ', hθ⟩ : ∃ θ', Relabels n θ ws θ' := by
    cases hr : n.result with
    | none =>
      have hnil : ws = [] := List.length_eq_zero_iff.mp (by simpa [Node.results, hr] using hws)
      exact ⟨θ, hnil ▸ .same hr⟩
    | some r =>
      obtain ⟨w, rfl⟩ := List.length_eq_one_iff.mp (by simpa [Node.results, hr] using hws)
      exact ⟨_, .swap r w hr⟩
  obtain ⟨σ, hσ⟩ : ∃ σ, Back m θ (C.plug c₀) n ws σ := h.exists_back fun w hw => (hnew w hw).1
  have hresult {r : Def} {w : ValueId} (hr : n.result = some r) (hw : w ∈ ws) : θ' r.value = w := by
    cases hθ with
    | same hnone => cases hw
    | swap r' w' hr' =>
      cases hr.symm.trans hr'
      rw [List.mem_singleton.mp hw, Function.update_self]
  have hwsResult {w : ValueId} (hw : w ∈ ws) : ∃ r, n.result = some r := by
    cases hθ with
    | same hnone => cases hw
    | swap r' w' hr' => exact ⟨r', hr'⟩
  -- Every name that the new code has is found again.
  have hback {u : ValueId} (hu : (∃ x, (x ∈ (C.plug c₀).uses ∨ x ∈ (C.plug c₀).results) ∧ x ∉ n.results ∧
      u = θ x) ∨ m.values.size ≤ u.index) : θ' (σ u) = u := by
    obtain ⟨x, hx, hxn, rfl⟩ | hu := hu
    · rw [hσ.old x hx hxn, relabels_eq hθ hxn]
    · by_cases hw : u ∈ ws
      · obtain ⟨r, hr⟩ := hwsResult hw
        rw [hσ.result r hr u hw, hresult hr hw]
      · rw [hσ.new u hu hw, relabels_eq hθ, h.fresh u (h.size.trans hu)]
        intro hun
        have hlt := hold u hun
        have hle := h.size
        omega
  have hresultsBack {u : ValueId} (hu : u ∈ d.results) : θ' (σ u) = u := by
    refine hback ((hresults u hu).imp_left ?_)
    rintro ⟨v, hv, hvn, rfl⟩
    exact ⟨v, .inr (Context.mem_results_plug.mpr (.inr hv)), hvn, rfl⟩
  have husesBack {u : ValueId} (hu : u ∈ d.uses) : θ' (σ u) = u := by
    obtain ⟨x, hx, hxn, rfl⟩ | hu := huses u hu
    · exact hback (.inl ⟨x, .inl hx, hxn, rfl⟩)
    · exact hresultsBack hu
  have hd : (d.map σ σ).map θ' θ' = d := by
    rw [Code.map_map]
    calc d.map (θ' ∘ σ) (θ' ∘ σ) = d.map (fun v => v) (fun v => v) :=
          Code.map_congr (fun u hu => husesBack hu) fun u hu => hresultsBack hu
      _ = d := Code.map_id d
  have hin {v : ValueId} (hv : v ∈ c₀.results) : v ∈ (C.plug c₀).results :=
    Context.mem_results_plug.mpr (.inr hv)
  have huses' : ∀ x ∈ (d.map σ σ).uses, x ∈ (C.plug c₀).uses ∨ x ∈ (d.map σ σ).results := by
    intro x hx
    rw [Code.uses_map] at hx
    obtain ⟨u, hu, rfl⟩ := List.mem_map.mp hx
    obtain ⟨y, hy, hyn, rfl⟩ | hu := huses u hu
    · rw [hσ.old y (.inl hy) hyn]
      exact .inl hy
    · rw [Code.results_map]
      exact .inr (List.mem_map_of_mem hu)
  have hkeep' : ∀ v ∈ c₀.results, v ∈ (d.map σ σ).results ∨ v ∈ rest.results := by
    intro v hv
    rw [Code.results_map, List.mem_map]
    by_cases hvn : v ∈ n.results
    · cases hθ with
      | same hnone => simp [Node.results, hnone] at hvn
      | swap r w hr =>
        obtain rfl : v = r.value := by simpa [Node.results, hr] using hvn
        exact .inl ⟨w, (hnew w (by simp)).2, hσ.result r hr w (by simp)⟩
    · exact ((hkeep v hv).resolve_left hvn).imp_left fun hvd => ⟨θ v, hvd, hσ.old v (.inr (hin hv)) hvn⟩
  have hfresh' : ∀ v ∈ (d.map σ σ).results, v ∈ c₀.results ∨ m.values.size ≤ v.index := by
    intro v hv
    rw [Code.results_map] at hv
    obtain ⟨u, hu, rfl⟩ := List.mem_map.mp hv
    obtain ⟨w, hw, hwn, rfl⟩ | hu := hresults u hu
    · rw [hσ.old w (.inr (hin hw)) hwn]
      exact .inl hw
    · by_cases hw : u ∈ ws
      · obtain ⟨r, hr⟩ := hwsResult hw
        rw [hσ.result r hr u hw]
        exact .inl (hn _ (by simp [Node.results, hr]))
      · rw [hσ.new u hu hw]
        exact .inr hu
  obtain ⟨m', hrun, hnamed, hsame⟩ :=
    h.replace (e := d.map σ σ) (f := θ') hc hθ (fun _ _ => .inr rfl) (hd.symm ▸ hm₁)
    hvalues (fun w hw => (hnew w hw).1) hold hn hrest huses' hrestUses hkeep' hfresh' (by simpa using hargs)
  rw [Code.ids_map] at hrun
  exact ⟨m', θ', σ, hrun, hnamed, hsame, hσ⟩

theorem replaceLeafWith (h : Named N m θ (C.plug (.leaf n rest))) (hext : Extends m m₁ d)
    (hws : ws.length = n.results.length) (hnew : ∀ w ∈ ws, w ∈ d.results)
    (hold : ∀ v ∈ n.results, v.index < N) (hself : ∀ x ∈ n.operands, x ∉ n.results)
    (huses : ∀ u ∈ d.uses, u ∈ n.operands.map θ ∨ u ∈ d.results) (hargs : d.args = []) :
    ∃ m' θ' σ, Edit.replaceOp n.id d.ids ws m₁ = .ok () m' ∧ Named N m' θ' (C.plug (d.map σ σ ++ rest)) ∧
      Back m θ (C.plug (.leaf n rest)) n ws σ := by
  have hmodels := h.models.grow hext
  rw [Code.nil_append] at hmodels
  have huses' : ∀ u ∈ d.uses, (∃ x ∈ (C.plug (.leaf n rest)).uses, x ∉ n.results ∧ u = θ x) ∨
      u ∈ d.results := by
    intro u hu
    refine (huses u hu).imp_left fun hu => ?_
    obtain ⟨x, hx, rfl⟩ := List.mem_map.mp hu
    exact ⟨x, Context.mem_uses_plug.mpr (.inr (by simp [hx])), hself x hx, rfl⟩
  have hkeep : ∀ v ∈ (Code.leaf n rest).results, v ∈ n.results ∨ θ v ∈ d.results ∨ v ∈ rest.results := by
    intro v hv
    rw [Code.results_leaf, List.mem_append] at hv
    exact hv.imp_right .inr
  obtain ⟨m', θ', σ, hrun, hnamed, -, hσ⟩ := h.replaceWith .leaf hmodels hext.change.values hws
    (fun w hw => ⟨hext.fresh w (hnew w hw), hnew w hw⟩) hold (fun v hv => by simp [hv])
    (fun v hv => ⟨by simp [hv], h.apart_leaf hv⟩) (fun x hx => by simp [hx])
      (fun u hu => .inr (hext.fresh u hu)) huses'
    hkeep (by simp [hargs])
  exact ⟨m', θ', σ, hrun, hnamed, hσ⟩

end Named

end Choco.IR
