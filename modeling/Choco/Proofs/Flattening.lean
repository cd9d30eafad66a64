import Choco.Proofs.FlatForks
import Choco.Proofs.LibraryCalls
import Choco.Proofs.Rebase
import Choco.Proofs.Scope

namespace Choco.IR

open Choco.IR.Module

variable {N : Nat} {m : Module} {θ : ValueId → ValueId} {C : Context} {n : Node} {rest c : Code}
  {v x : Option ValueId} {is : List Instruction} {b : Builder} {e : Error} {id : OpId} {p : Progress}
  {q y : Bool} {t : Code} {k : Nat} {m₁ : Module}

theorem Node.Plain.map (h : n.Plain) (f g : ValueId → ValueId) : (n.map f g).Plain := by
  cases h with
  | binary id op x y r h hty => exact .binary id op (f x) (f y) _ h hty
  | _ => constructor

theorem Node.failure?_map (n : Node) (f g : ValueId → ValueId) : (n.map f g).failure? = n.failure? := by
  simp [Node.failure?]

theorem Node.Plain.not_staysFlat (h : n.Plain) : n.kind.staysFlat = false := by
  cases h <;> rfl

theorem LeafFlat.isSome (hn : n.Plain) (h : LeafFlat n.kind n.operands n.result.isSome v is)
    (hr : n.result.isSome) : v.isSome := by
  obtain ⟨id, kind, xs, r⟩ := n
  cases r with
  | none => cases hr
  | some r =>
    have h' : LeafFlat kind xs true v is := h
    cases h' with
    | ret | pass | assign | store => cases hn
    | _ => rfl

def Node.Word (n : Node) (x : ValueId) : Prop := ∃ r ∈ n.result, r.value = x ∧ r.ty.source? = none

theorem Named.valueType_word (h : Named N m θ c) {x : ValueId} {n : Node} (hn : n ∈ c.nodes) (hx : n.Word x) :
    ∃ ty, m.valueType (θ x) = .ok ty ∧ ty.source? = none := by
  obtain ⟨r, hr, rfl, hty⟩ := hx
  obtain ⟨parent, args, hnode⟩ := h.hasNode hn
  have hvalue := hnode.value ⟨θ r.value, r.ty⟩ (by simp [Node.map, Option.mem_def.mp hr])
  exact ⟨r.ty, valueType_eq_ok.mpr ⟨_, hvalue, rfl⟩, hty⟩

namespace Edit

variable {α : Type}

theorem collect_ok {x : Build α} {a : α} (h : x ⟨m, #[]⟩ = .ok a b) :
    Build.collect x m = .ok (a, b.block.toList) b.module := by
  simp only [Build.collect, h]

theorem collect_error {x : Build α} (h : x ⟨m, #[]⟩ = .error e b) :
    Build.collect x m = .error e b.module := by
  simp only [Build.collect, h]

theorem flattenOp_ok {op : Op} {m' : Module} (p : Progress) (hop : m.get? id = some op)
    (hkind : op.kind.staysFlat = false) (hflat : Build.flatOp id op (p.number op.kind) ⟨m, #[]⟩ = .ok v b)
    (hsome : op.result.isSome → v.isSome)
    (hreplace : replaceOp id b.block.toList (if op.result.isSome then v.toList else []) b.module =
      .ok () m') :
    flattenOp p id m = .ok (p.count op.kind) m' := by
  refine (Action.bind_ok (op_run hop)).trans ?_
  simp only [hkind, Bool.false_eq_true, if_false]
  refine (Action.bind_ok (collect_ok hflat)).trans ?_
  cases hr : op.result with
  | none =>
    rw [hr] at hreplace
    exact Action.bind_ok hreplace
  | some r =>
    rw [hr] at hreplace hsome
    obtain ⟨w, rfl⟩ := Option.isSome_iff_exists.mp (hsome rfl)
    exact Action.bind_ok hreplace

theorem flattenOp_error {op : Op} (p : Progress) (hop : m.get? id = some op)
    (hkind : op.kind.staysFlat = false)
    (hflat : Build.flatOp id op (p.number op.kind) ⟨m, #[]⟩ = .error e b) :
    flattenOp p id m = .error e b.module := by
  refine (Action.bind_ok (op_run hop)).trans ?_
  simp only [hkind, Bool.false_eq_true, if_false]
  exact Action.bind_error (collect_error hflat)

end Edit

theorem flattenOp_leaf (h : Named N m θ (C.plug (.leaf n rest))) (hn : n.Plain)
    (hprint : n.kind ≠ .call "print") (hinput : n.kind ≠ .call "input") (hold : ∀ v ∈ n.results, v.index < N)
    (hself : ∀ x ∈ n.operands, x ∉ n.results)
    (hwords : ∀ op, n.kind = .binary op → ∀ x ∈ n.operands, ∃ n' ∈ C.nodes, n'.Word x)
    (hfit : n.failure? = none) (p : Progress) :
    ∃ m' θ' e is v, Edit.flattenOp p n.id m = .ok (p.count n.kind) m' ∧ Named N m' θ' (C.plug (e ++ rest)) ∧
      e.Reads is ∧ LeafFlat n.kind n.operands n.result.isSome v is ∧ ∀ r ∈ n.result, v = some r.value := by
  have hop := h.get?_leaf
  have hty : ∀ op, (n.map θ θ).kind = .binary op → ∀ x ∈ (n.map θ θ).operands,
      ∃ ty, m.valueType x = .ok ty ∧ ty.source? = none := by
    intro op hkind x hx
    obtain ⟨y, hy, rfl⟩ := List.mem_map.mp hx
    obtain ⟨n', hn', hword⟩ := hwords op hkind y hy
    exact h.valueType_word ((C.nodes_plug _).mem_iff.mpr (List.mem_append_left _ hn')) hword
  obtain ⟨v, b, d, is, hflat, hgrown, hreads, hleaf⟩ :=
    Build.flatOp_runs (b := ⟨m, #[]⟩) (n := n.map θ θ) h.models.sound
    (hn.map θ θ) hprint hinput hty (by rw [Node.failure?_map, hfit]) (some (C.map θ θ).place)
      (p.number n.kind)
  have hblock : b.block.toList = d.ids := by simpa using hgrown.block
  have hnames := hleaf.names
  have hsome := hleaf.isSome (hn.map θ θ)
  have hresult : (n.map θ θ).result.isSome = n.result.isSome := by simp [Node.map]
  rw [hresult] at hsome hleaf
  obtain ⟨ws, hws⟩ : ∃ ws, ws = if n.result.isSome then v.toList else [] := ⟨_, rfl⟩
  have hlength : ws.length = n.results.length := by
    cases hr : n.result with
    | none => simp [hws, Node.results, hr]
    | some r =>
      obtain ⟨w, rfl⟩ := Option.isSome_iff_exists.mp (hsome (by simp [hr]))
      simp [hws, Node.results, hr]
  have hwsMem : ∀ w ∈ ws, w ∈ d.results := by
    intro w hw
    rw [hreads.results_eq]
    refine hnames.1 w ?_
    rw [hws] at hw
    split at hw
    next => simpa using hw
    next => cases hw
  have huses : ∀ u ∈ d.uses, u ∈ n.operands.map θ ∨ u ∈ d.results := by
    rw [hreads.uses_eq, hreads.results_eq]
    exact hnames.2
  obtain ⟨m', θ', σ, hreplace, hnamed, hσ⟩ :=
    h.replaceLeafWith hgrown.module hlength hwsMem hold hself huses hreads.args_eq
  refine ⟨m', θ', d.map σ σ, is.map (·.map σ), v.map σ, ?_, hnamed, hreads.map σ, ?_, fun r hr => ?_⟩
  · have hreplace' : Edit.replaceOp n.id b.block.toList (if (n.map θ θ).result.isSome then v.toList else [])
        b.module = .ok () m' := by
      rw [hresult, ← hws, hblock]
      exact hreplace
    refine Edit.flattenOp_ok p hop (hn.map θ θ).not_staysFlat hflat ?_ ?_
    · simpa [Node.op, Node.map] using hsome
    · simpa [Node.op, Node.map] using hreplace'
  · have hoperands : (n.map θ θ).operands.map σ = n.operands := by
      rw [Node.operands_map, List.map_map]
      refine (List.map_congr_left fun x hx => ?_).trans (List.map_id n.operands)
      exact hσ.old x (.inl (Context.mem_uses_plug.mpr (.inr (by simp [hx])))) (hself x hx)
    have hmapped := hleaf.map σ
    rwa [hoperands] at hmapped
  · rw [Option.mem_def] at hr
    obtain ⟨w, rfl⟩ := Option.isSome_iff_exists.mp (hsome (by simp [hr]))
    rw [Option.map_some, hσ.result r hr w (by simp [hws, hr])]

theorem Node.Forks.map {p : Bool} (h : n.Forks p q) (f g : ValueId → ValueId) : (n.map f g).Forks p q := by
  cases h with
  | shortCircuit id op r h => exact .shortCircuit id op _ h
  | _ => constructor

theorem Node.Forks.not_staysFlat {p : Bool} (h : n.Forks p q) : n.kind.staysFlat = false := by
  cases h <;> rfl

theorem Code.Ends.map (h : Code.Ends x t) (f : ValueId → ValueId) : Code.Ends (x.map f) (t.map f f) := by
  cases h with
  | none => exact .none
  | some id x => exact .some id (f x)

theorem Code.Ends.results_eq (h : Code.Ends x t) : t.results = [] := by
  cases h <;> rfl

theorem Code.Ends.args_eq (h : Code.Ends x t) : t.args = [] := by
  cases h <;> rfl

theorem Code.Ends.uses_eq (h : Code.Ends x t) : t.uses = x.toList := by
  cases h <;> rfl

theorem flattenOp_fork {p : Bool} {y : Option ValueId} {d₁ d₂ t₁ t₂ : Code} {js : List Instruction}
    (h : Named N m θ (C.plug (.fork n (d₁ ++ t₁) (d₂ ++ t₂) rest))) (hn : n.Forks p q) (ht₁ : Code.Ends x t₁)
    (ht₂ : Code.Ends y t₂)
    (hx : x.isSome = p) (hy : y.isSome = q) (hd₁ : d₁.Reads is) (hd₂ : d₂.Reads js)
    (hold : ∀ v ∈ n.results, v.index < N)
    (hself : ∀ u, u ∈ n.operands ∨ u ∈ (d₁ ++ t₁).uses ∨ u ∈ (d₂ ++ t₂).uses → u ∉ n.results)
    (progress : Progress) :
    ∃ m' θ' e ks, Edit.flattenOp progress n.id m = .ok (progress.count n.kind) m' ∧
      Named N m' θ' (C.plug (e ++ rest)) ∧
      e.Reads ks ∧ ForkFlat (progress.number n.kind) n is x js y ks := by
  obtain ⟨-, -, hop⟩ := h.regions_fork
  have hmodels :
      m.Models ((C.map θ θ).plug (.fork (n.map θ θ) (d₁.map θ θ ++ t₁.map θ θ) (d₂.map θ θ ++ t₂.map θ θ)
      (rest.map θ θ))) .nil := by
    have hm := h.models
    rwa [Code.relabel, Context.map_plug, Code.map, Code.map_append, Code.map_append] at hm
  obtain ⟨v, b, hflat, g, hv, hnew, ks, ⟨w, hw, hblock, hreads, hvalues⟩, hfork, hdefs⟩ :=
    Build.flatOp_fork (hn.map θ θ) hmodels (ht₁.map θ) (ht₂.map θ) (by rw [Option.isSome_map, hx])
      (by rw [Option.isSome_map, hy]) (hd₁.map θ) (hd₂.map θ)
        [{ ops := (d₁ ++ t₁).ids }, { ops := (d₂ ++ t₂).ids }]
      (some (C.map θ θ).place) (progress.number n.kind)
  rw [Code.append_nil] at hw
  obtain ⟨hmentions, hinner, hresult⟩ := hfork.names
  have hapart : ∀ u, u ∈ d₁.results ∨ u ∈ d₂.results ∨ u ∈ rest.results → u ∉ n.results := fun u hu =>
    h.apart_fork (by simpa [ht₁.results_eq, ht₂.results_eq] using hu)
  have hin {u : ValueId} (hu : u ∈ d₁.results ∨ u ∈ d₂.results) :
      u ∈ (Code.fork n (d₁ ++ t₁) (d₂ ++ t₂) rest).results := by
    simp only [Code.results_fork, Code.results_append, List.mem_append]
    exact .inr (hu.imp .inl fun hu => .inl (.inl hu))
  have hused {u : ValueId} (hu : u ∈ n.operands ∨ u ∈ (d₁ ++ t₁).uses ∨ u ∈ (d₂ ++ t₂).uses) :
      u ∈ (C.plug (.fork n (d₁ ++ t₁) (d₂ ++ t₂) rest)).uses := by
    refine Context.mem_uses_plug.mpr (.inr ?_)
    simp only [Code.uses_fork, List.mem_append]
    exact hu.imp_right (Or.imp_right .inl)
  have hleft {u : ValueId} (hu : u ∈ mentions is ∨ u ∈ x) : u ∈ (d₁ ++ t₁).uses := by
    rw [Code.uses_append, hd₁.uses_eq, ht₁.uses_eq]
    simpa using hu
  have hright {u : ValueId} (hu : u ∈ mentions js ∨ u ∈ y) : u ∈ (d₂ ++ t₂).uses := by
    rw [Code.uses_append, hd₂.uses_eq, ht₂.uses_eq]
    simpa using hu
  have hresults : ∀ u ∈ w.results,
      (∃ v ∈ (Code.fork n (d₁ ++ t₁) (d₂ ++ t₂) rest).results, v ∉ n.results ∧ u = θ v) ∨
      m.values.size ≤ u.index := by
    intro u hu
    rw [hreads.results_eq] at hu
    obtain hu | hu | hu := hdefs u hu
    · rw [definitions_map, ← hd₁.results_eq] at hu
      obtain ⟨v, hv, rfl⟩ := List.mem_map.mp hu
      exact .inl ⟨v, hin (.inl hv), hapart v (.inl hv), rfl⟩
    · rw [definitions_map, ← hd₂.results_eq] at hu
      obtain ⟨v, hv, rfl⟩ := List.mem_map.mp hu
      exact .inl ⟨v, hin (.inr hv), hapart v (.inr (.inl hv)), rfl⟩
    · exact .inr hu
  have huses : ∀ u ∈ w.uses, (∃ z ∈ (C.plug (.fork n (d₁ ++ t₁) (d₂ ++ t₂) rest)).uses, z ∉ n.results ∧
      u = θ z) ∨ u ∈ w.results := by
    intro u hu
    rw [hreads.uses_eq] at hu
    rw [hreads.results_eq]
    have hfound {z : ValueId} (hz : z ∈ n.operands ∨ z ∈ (d₁ ++ t₁).uses ∨ z ∈ (d₂ ++ t₂).uses)
        (he : u = θ z) :
        (∃ z ∈ (C.plug (.fork n (d₁ ++ t₁) (d₂ ++ t₂) rest)).uses, z ∉ n.results ∧ u = θ z) ∨
          u ∈ definitions ks :=
      .inl ⟨z, hused hz, hself z hz, he⟩
    obtain hu | hu | hu | hu | hu | hu := hmentions u hu
    · rw [Node.operands_map, List.map_id', Node.operands_map] at hu
      obtain ⟨z, hz, rfl⟩ := List.mem_map.mp hu
      exact hfound (.inl hz) rfl
    · obtain ⟨z, hz, rfl⟩ := Option.map_eq_some_iff.mp hu
      exact hfound (.inr (.inl (hleft (.inr hz)))) rfl
    · obtain ⟨z, hz, rfl⟩ := Option.map_eq_some_iff.mp hu
      exact hfound (.inr (.inr (hright (.inr hz)))) rfl
    · rw [mentions_map] at hu
      obtain ⟨z, hz, rfl⟩ := List.mem_map.mp hu
      exact hfound (.inr (.inl (hleft (.inl hz)))) rfl
    · rw [mentions_map] at hu
      obtain ⟨z, hz, rfl⟩ := List.mem_map.mp hu
      exact hfound (.inr (.inr (hright (.inl hz)))) rfl
    · exact .inr hu
  have hkeep : ∀ u ∈ (Code.fork n (d₁ ++ t₁) (d₂ ++ t₂) rest).results, u ∈ n.results ∨ θ u ∈ w.results ∨
      u ∈ rest.results := by
    intro u hu
    simp only [Code.results_fork, Code.results_append, ht₁.results_eq, ht₂.results_eq, List.append_nil,
      List.mem_append] at hu
    rw [hreads.results_eq]
    have hmapped {d : Code} {is : List Instruction} (hd : d.Reads is) (hu : u ∈ d.results) :
        θ u ∈ definitions (is.map (·.map θ)) := by
      rw [definitions_map, ← hd.results_eq]
      exact List.mem_map_of_mem hu
    obtain hu | hu | hu | hu := hu
    · exact .inl hu
    · exact .inr (.inl (hinner _ (.inl (hmapped hd₁ hu))))
    · exact .inr (.inl (hinner _ (.inr (hmapped hd₂ hu))))
    · exact .inr (.inr hu)
  obtain ⟨ws, hws⟩ : ∃ ws, ws = v.toList := ⟨_, rfl⟩
  have hlength : ws.length = n.results.length := by
    cases hr : n.result <;> simp [hws, hv, Node.map, Node.results, hr]
  have hwsNew : ∀ u ∈ ws, m.values.size ≤ u.index ∧ u ∈ w.results := by
    intro u hu
    rw [hws, Option.mem_toList] at hu
    refine ⟨hnew u hu, ?_⟩
    rw [hreads.results_eq]
    rw [hv] at hu
    obtain ⟨r, hr, rfl⟩ := Option.map_eq_some_iff.mp hu
    refine hresult ⟨g r.value, r.ty⟩ ?_
    change (n.map θ θ).result.map (fun r => { r with value := g r.value }) = some _
    rw [hr, Option.map_some]
  have hmodels' : b.module.Models ((C.plug (.fork n .nil .nil rest)).relabel θ) w := by
    rw [Code.relabel, Context.map_plug]
    exact hw
  obtain ⟨m', θ', σ, hreplace, hnamed, -, hσ⟩ := h.replaceWith .fork hmodels' hvalues hlength hwsNew hold
    (fun v hv => by simp [hv]) (fun u hu => ⟨by simp [hu], hapart u (.inr (.inr hu))⟩)
      (fun x hx => by simp [hx]) hresults
    huses hkeep (by simp [hreads.args_eq, hd₁.args_eq, hd₂.args_eq, ht₁.args_eq, ht₂.args_eq])
  have hback {u : ValueId} (hu : u ∈ n.operands ∨ u ∈ (d₁ ++ t₁).uses ∨ u ∈ (d₂ ++ t₂).uses) : σ (θ u) = u :=
    hσ.old u (.inl (hused hu)) (hself u hu)
  have hbackResult {u : ValueId} (hu : u ∈ d₁.results ∨ u ∈ d₂.results) : σ (θ u) = u :=
    hσ.old u (.inr (Context.mem_results_plug.mpr (.inr (hin hu)))) (hapart u (hu.imp_right .inl))
  refine ⟨m', θ', w.map σ σ, ks.map (·.map σ), ?_, hnamed, hreads.map σ, ?_⟩
  · have hsame : v.isSome = n.result.isSome := by
      rw [hv, Option.isSome_map]
      exact Option.isSome_map
    refine Edit.flattenOp_ok progress hop (hn.map θ θ).not_staysFlat hflat ?_ ?_
    · simp [Node.op, Node.map, hsame]
    · have htoList : (if (((n.map θ θ).op [{ ops := (d₁ ++ t₁).ids }, { ops := (d₂ ++ t₂).ids }]
          (some (C.map θ θ).place)).result.isSome) then v.toList else []) = ws := by
        rw [hws]
        split
        next => rfl
        next hnone =>
          have hv' : v = none := by simpa [Node.op, Node.map, ← hsame] using hnone
          rw [hv']
          rfl
      rw [htoList, hblock]
      exact hreplace
  · have hmapped := hfork.map σ
    have hnode : ((n.map θ θ).map (fun u => u) g).map σ σ = n := by
      rw [Node.map_map, Node.map_map]
      have hr : ∀ r, n.result = some r → σ (g (θ r.value)) = r.value := fun r hr =>
        hσ.result r hr _ (by simp [hws, hv, Node.map, hr])
      calc n.map _ _ = n.map (fun u => u) (fun u => u) :=
        Node.map_congr (fun u hu => hback (.inl hu)) fun u hu => by
            cases hres : n.result with
            | none => simp [Node.results, hres] at hu
            | some r =>
              obtain rfl : u = r.value := by simpa [Node.results, hres] using hu
              exact hr r hres
        _ = n := Node.map_id n
    have his : (is.map (·.map θ)).map (·.map σ) = is := map_map_instructions fun u hu => by
      obtain hu | hu := hu
      · exact hback (.inr (.inl (hleft (.inl hu))))
      · exact hbackResult (.inl (hd₁.results_eq ▸ hu))
    have hjs : (js.map (·.map θ)).map (·.map σ) = js := map_map_instructions fun u hu => by
      obtain hu | hu := hu
      · exact hback (.inr (.inr (hright (.inl hu))))
      · exact hbackResult (.inr (hd₂.results_eq ▸ hu))
    have hxs : (x.map θ).map σ = x := by
      cases x with
      | none => rfl
      | some u => rw [Option.map_some, Option.map_some, hback (.inr (.inl (hleft (.inr rfl))))]
    have hys : (y.map θ).map σ = y := by
      cases y with
      | none => rfl
      | some u => rw [Option.map_some, Option.map_some, hback (.inr (.inr (hright (.inr rfl))))]
    rwa [hnode, his, hjs, hxs, hys] at hmapped

namespace Edit

def flattenStep (k : Nat) (progress : Progress) (id : OpId) : Edit Progress := do
  if ← query fun m => .ok (m.isLive id) then
    let old ← op id
    if let some index := old.regions.findIdx? (·.ops.isEmpty) then
      throw (.internal (.emptyRegion index old.kind))
    let progress ← (List.range old.regions.length).foldlM
      (fun progress index => flattenWithin k (.nested id index) progress) progress
    flattenOp progress id
  else return progress

theorem flattenWithin_run {place : Place} {ids : List OpId} (h : m.ops? place = some ids) (k : Nat)
    (p : Progress) :
    flattenWithin (k + 1) place p m = ids.foldlM (flattenStep k) p m := by
  obtain ⟨r, hr, rfl⟩ := region_eq_ok_of_ops? h
  have hquery : query (fun m => m.region place) m = .ok r m := by simp [query, hr]
  exact Action.bind_ok hquery

variable {id : OpId} {op : Op}

theorem flattenStep_empty (index k : Nat) (p : Progress) (hop : m.get? id = some op)
    (hempty : op.regions.findIdx? (·.ops.isEmpty) = some index) :
    flattenStep k p id m = .error (.internal (.emptyRegion index op.kind)) m := by
  refine (Action.bind_ok (isLive_run hop)).trans ((Action.bind_ok (op_run hop)).trans ?_)
  simp only [hempty]
  rfl

theorem flattenStep_run (k : Nat) (p : Progress) (hop : m.get? id = some op)
    (hfull : op.regions.findIdx? (·.ops.isEmpty) = none) :
    flattenStep k p id m = ((List.range op.regions.length).foldlM
      (fun progress index => flattenWithin k (.nested id index) progress) p >>= fun p => flattenOp p id)
        m := by
  refine (Action.bind_ok (isLive_run hop)).trans ((Action.bind_ok (op_run hop)).trans ?_)
  simp only [hfull]

theorem flattenStep_leaf (k : Nat) (p : Progress) (hop : m.get? id = some op) (hregions : op.regions = []) :
    flattenStep k p id m = flattenOp p id m := by
  rw [flattenStep_run k p hop (by simp [hregions]), hregions]
  rfl

theorem flattenStep_ok {p₁ : Progress} (hop : m.get? id = some op)
    (hfull : op.regions.findIdx? (·.ops.isEmpty) = none)
    (hregions : (List.range op.regions.length).foldlM
      (fun progress index => flattenWithin k (.nested id index) progress) p m = .ok p₁ m₁) :
    flattenStep k p id m = flattenOp p₁ id m₁ :=
  (flattenStep_run k p hop hfull).trans (Action.bind_ok hregions)

theorem flattenStep_error (hop : m.get? id = some op) (hfull : op.regions.findIdx? (·.ops.isEmpty) = none)
    (hregions : (List.range op.regions.length).foldlM
      (fun progress index => flattenWithin k (.nested id index) progress) p m = .error e m₁) :
    flattenStep k p id m = .error e m₁ :=
  (flattenStep_run k p hop hfull).trans (Action.bind_error hregions)

theorem flattenOp_stays (p : Progress) (hop : m.get? id = some op) (hkind : op.kind.staysFlat) :
    flattenOp p id m = .ok p m := by
  refine (Action.bind_ok (op_run hop)).trans ?_
  simp only [hkind, if_true]
  rfl

end Edit

theorem Code.Reads.exists_word {e : Code} (h : e.Reads is) {v : ValueId} (hv : v ∈ definitions is) :
    ∃ n ∈ e.nodes, n.Word v := by
  induction h with
  | nil => cases hv
  | @leaf id i rest is _ ih =>
    rw [definitions_cons, List.mem_append] at hv
    obtain hv | hv := hv
    · refine ⟨i.node id, List.mem_cons_self, ⟨v, .word⟩, ?_, rfl, rfl⟩
      rw [Option.mem_toList] at hv
      simp [Instruction.node, Option.mem_def.mp hv]
    · obtain ⟨n, hn, hword⟩ := ih hv
      exact ⟨n, List.mem_cons_of_mem _ hn, hword⟩

/-- Kinds of operations that have flat code once loops and library uses were replaced. -/
def Kind.flattens (kind : Kind) : Prop := kind ≠ .forLoop ∧ kind ≠ .call "print" ∧ kind ≠ .call "input"

/-- Why a kind of operation has no flat code: an earlier pass was to replace it. -/
def Kind.misplaced? : Kind → Option Misordering
  | .forLoop => some .forLoop
  | .call func => if func = "print" ∨ func = "input" then some (.builtin func) else none
  | _ => none

theorem Kind.flattens_iff {kind : Kind} : kind.flattens ↔ kind.misplaced? = none := by
  cases kind <;> simp [flattens, misplaced?]

/-- Why code cannot be made flat, the kinds of its operations included: the first reason in the order in which
operations are made flat. -/
def Code.refusal? : Code → Option Error
  | nil => none
  | leaf n rest => ((n.kind.misplaced?.map .passOrdering).or n.failure?).or rest.refusal?
  | each n _ body rest =>
    (if body = nil then some (.internal (.emptyRegion 0 n.kind))
      else body.refusal?.or (n.kind.misplaced?.map .passOrdering)).or rest.refusal?
  | fork n first second rest =>
    (if first = nil then some (.internal (.emptyRegion 0 n.kind))
      else if second = nil then some (.internal (.emptyRegion 1 n.kind))
        else first.refusal?.or second.refusal?).or
      rest.refusal?

theorem Code.refusal?_eq_failure? (h : ∀ n ∈ c.nodes, n.kind.flattens) : c.refusal? = c.failure? := by
  induction c with
  | nil => rfl
  | leaf n rest ih =>
    rw [nodes, List.forall_mem_cons] at h
    simp [refusal?, failure?, Kind.flattens_iff.mp h.1, ih h.2]
  | each n args body rest ihb ih =>
    simp only [nodes, List.forall_mem_cons, List.forall_mem_append] at h
    simp [refusal?, failure?, Kind.flattens_iff.mp h.1, ihb h.2.1, ih h.2.2]
  | fork n first second rest iha ihb ih =>
    simp only [nodes, List.forall_mem_cons, List.forall_mem_append] at h
    simp [refusal?, failure?, iha h.2.1, ihb h.2.2.1, ih h.2.2.2]

theorem Build.flatOp_misplaced {op : Op} {cause : Misordering} (h : op.kind.misplaced? = some cause)
    (k : Nat) :
    flatOp id op k b = .error (.passOrdering cause) b := by
  obtain ⟨kind, operands, result, regions, parent⟩ := op
  cases kind with
  | forLoop =>
    cases h
    rfl
  | call func =>
    simp only [Kind.misplaced?] at h
    split at h
    next hfunc =>
      cases h
      obtain rfl | rfl := hfunc
      · rfl
      · rfl
    next => cases h
  | _ => cases h

theorem findIdx?_isEmpty (a b : List OpId) :
    ([{ ops := a }, { ops := b }] : List Region).findIdx? (·.ops.isEmpty) =
    if a = [] then some 0 else if b = [] then some 1 else none := by
  cases a <;> cases b <;> rfl

/-- What flattening the operations of a list comes to: flat code in their place, or the first reason why they
have none. -/
def Flattens (N : Nat) (C : Context) (k : Nat) (c : Code) (y : Bool) (p : Progress) (m : Module) : Prop :=
  (∃ p' m' θ' d t is out, c.ids.foldlM (Edit.flattenStep k) p m = .ok p' m' ∧
    Named N m' θ' (C.plug (d ++ t)) ∧ d.Reads is ∧ Code.Ends out t ∧ out.isSome = y ∧ Lowers p c is out p' ∧
    c.refusal? = none) ∨
  (∃ e m', c.ids.foldlM (Edit.flattenStep k) p m = .error e m' ∧ c.refusal? = some e)

theorem Flattens.cons {p₂ : Progress} {e : Code} (hids : c.ids = n.id :: rest.ids)
    (hstep : Edit.flattenStep k p n.id m = .ok p₂ m₁) (he : e.Reads is)
    (hrest : Flattens N (C.after e) k rest y p₂ m₁) (hfail : c.refusal? = rest.refusal?)
    (hlowers : ∀ js out p', Lowers p₂ rest js out p' → Lowers p c (is ++ js) out p') :
    Flattens N C k c y p m := by
  rw [Flattens, hids, Action.foldlM_cons_ok hstep, hfail]
  obtain ⟨p', m', θ', d, t, js, out, hrun, hnamed, hreads, hends, hy, hlow, hnone⟩ | hfails := hrest
  · refine .inl ⟨p', m', θ', e ++ d, t, is ++ js, out, hrun, ?_, he.append hreads, hends, hy,
      hlowers _ _ _ hlow, hnone⟩
    rw [Code.append_assoc]
    exact hnamed
  · exact .inr hfails

/-- A loop over a sequence has no flat code. Its body becomes flat first, so a reason that the body has comes
before it. -/
theorem Flattens.loop {x location : ValueId} {body : Code}
    (h : Named N m θ (C.plug (.each ⟨id, .forLoop, [x, location], none⟩ [] body rest)))
    (hbody : Flattens N (C.each ⟨id, .forLoop, [x, location], none⟩ [] rest) k body false p m) :
    Flattens N C (k + 1) (.each ⟨id, .forLoop, [x, location], none⟩ [] body rest) y p m := by
  obtain ⟨hids, hop⟩ := h.regions_each
  by_cases hempty : body = .nil
  · have hstep := Edit.flattenStep_empty 0 (k + 1) p hop (by simp [Node.op, hempty, Code.ids])
    exact .inr ⟨_, _, Action.foldlM_cons_error hstep, by simp [Code.refusal?, hempty, Node.op]⟩
  have hfull : ((Node.map θ θ ⟨id, .forLoop, [x, location], none⟩).op [{ args := [], ops := body.ids }]
      (some (C.map θ θ).place)).regions.findIdx? (·.ops.isEmpty) = none := by
    have hids : body.ids ≠ [] := fun h => hempty (Build.ids_eq_nil h)
    simpa [Node.op] using hids
  obtain ⟨p₁, m₁, θ₁, d, t, is, out, hrun, h₁, -, -, -, -, hnone⟩ | ⟨e, m₁, hrun, hfail⟩ := hbody
  · rw [← Edit.flattenWithin_run hids] at hrun
    have herror := Edit.flattenOp_error p₁ (Named.regions_each (C := C) h₁).2 rfl
      (Build.flatOp_misplaced (b := ⟨m₁, #[]⟩) rfl _)
    have hstep := (Edit.flattenStep_ok hop hfull (Action.foldlM_cons_ok hrun)).trans herror
    exact .inr ⟨_, _, Action.foldlM_cons_error hstep, by simp [Code.refusal?, hempty, hnone, Kind.misplaced?]⟩
  · rw [← Edit.flattenWithin_run hids] at hrun
    have hstep := Edit.flattenStep_error hop hfull (Action.foldlM_cons_error hrun)
    exact .inr ⟨e, m₁, Action.foldlM_cons_error hstep, by simp [Code.refusal?, hempty, hfail]⟩

theorem flatten_all {A S : ValueId → Prop} (hshape : c.Shaped y) (h : Named N m θ (C.plug c))
    (hold : ∀ v ∈ c.results, v.index < N) (hscope : c.Scoped A S) (hA : ∀ v ∈ c.results, ¬ A v)
    (hS : ∀ v ∈ c.results, ¬ S v) (hwords : ∀ x, S x → ∃ n ∈ C.nodes, n.Word x) (hk : c.height ≤ k)
    (p : Progress) : Flattens N C k c y p m := by
  induction c generalizing m θ C y A S k p with
  | nil =>
    cases hshape
    exact .inl ⟨p, m, θ, .nil, .nil, [], none, rfl, h, .nil, .none, rfl, .nil, rfl⟩
  | leaf n rest ih =>
    have hop := h.get?_leaf
    have hstep (k : Nat) (p : Progress) : Edit.flattenStep k p n.id m = Edit.flattenOp p n.id m :=
      Edit.flattenStep_leaf k p hop rfl
    cases hshape with
    | yield id x =>
      refine .inl ⟨p, m, θ, .nil, _, [], some x, ?_, h, .nil, .some id x, rfl, .yield id x, rfl⟩
      refine (Action.foldlM_cons_ok ((hstep k p).trans (Edit.flattenOp_stays p hop rfl))).trans rfl
    | leaf hn hrest =>
      obtain ⟨hsees, hscope⟩ := hscope
      simp only [Code.results_leaf, List.forall_mem_append] at hold hA hS
      have hself : ∀ x ∈ n.operands, x ∉ n.results := fun x hx hxn =>
        (hsees x hx).elim (hS.1 x hxn) fun h => hA.1 x hxn h.2
      cases hplaced : n.kind.misplaced? with
      | some cause =>
        have herror := Edit.flattenOp_error p hop (hn.map θ θ).not_staysFlat
          (Build.flatOp_misplaced (b := ⟨m, #[]⟩) hplaced (p.number n.kind))
        exact .inr ⟨_, m, Action.foldlM_cons_error
          ((hstep k p).trans herror), by simp [Code.refusal?, hplaced]⟩
      | none =>
        obtain ⟨-, hprint, hinput⟩ := Kind.flattens_iff.mpr hplaced
        cases hfit : n.failure? with
        | some e =>
          obtain ⟨b, hflat⟩ := Build.flatOp_fails (b := ⟨m, #[]⟩) h.models.sound (hn.map θ θ)
            ((n.failure?_map θ θ).trans hfit) (some (C.map θ θ).place) (p.number n.kind)
          have herror := Edit.flattenOp_error p hop (hn.map θ θ).not_staysFlat hflat
          exact .inr ⟨e, b.module, Action.foldlM_cons_error
            ((hstep k p).trans herror), by simp [Code.refusal?, hplaced, hfit]⟩
        | none =>
          have hbinary : ∀ op, n.kind = .binary op → ∀ x ∈ n.operands, ∃ n' ∈ C.nodes, n'.Word x := by
            intro op hkind x hx
            obtain hx | ⟨hstore, -⟩ := hsees x hx
            · exact hwords x hx
            · rw [hkind] at hstore
              cases hstore
          obtain ⟨m₁, θ₁, e, is, v, hrun, h₁, he, hflat, hv⟩ :=
            flattenOp_leaf h hn hprint hinput hold.1 hself hbinary hfit p
          have hinner : Flattens N (C.after e) k rest y (p.count n.kind) m₁ := by
            refine ih hrest (C := C.after e) h₁ hold.2 hscope hA.2
              (fun v hv => not_or.mpr ⟨h.apart_leaf hv, hS.2 v hv⟩) (fun x hx => ?_) hk (p.count n.kind)
            simp only [Context.nodes, List.mem_append]
            obtain hx | hx := hx
            · have hdef : x ∈ definitions is := by
                cases hr : n.result with
                | none => simp [Node.results, hr] at hx
                | some r =>
                  obtain rfl : x = r.value := by simpa [Node.results, hr] using hx
                  exact hflat.names.1 _ (hv r hr)
              obtain ⟨n', hn', hword⟩ := he.exists_word hdef
              exact ⟨n', .inr hn', hword⟩
            · obtain ⟨n', hn', hword⟩ := hwords x hx
              exact ⟨n', .inl hn', hword⟩
          exact Flattens.cons rfl ((hstep k p).trans hrun) he hinner (by simp [Code.refusal?, hplaced, hfit])
            fun js out p' hlow => .leaf hn hflat hv hlow
  | each n args body rest ihb ih =>
    cases hshape with
    | loop id x location hbody hrest =>
      obtain ⟨-, hscopeBody, -⟩ := hscope
      simp only [Code.results_each, List.forall_mem_append] at hold hA hS
      cases k with
      | zero => simp [Code.height] at hk
      | succ k =>
        simp only [Code.height] at hk
        refine Flattens.loop h (ihb hbody (C := C.each _ [] rest) h hold.2.1 hscopeBody
          (fun v hv => by simpa using hA.2.1 v hv) hS.2.1 (fun x hx => ?_) (by omega) p)
        obtain ⟨n', hn', hword⟩ := hwords x hx
        exact ⟨n', by simp [Context.nodes, hn'], hword⟩
  | fork n first second rest iha ihb ih =>
    obtain ⟨hids₁, -, hop⟩ := h.regions_fork
    cases hshape with
    | fork hn hfirst hsecond hrest =>
      obtain ⟨hsees, hscopeFirst, hscopeSecond, hscopeRest⟩ := hscope
      simp only [Code.results_fork, List.forall_mem_append] at hold hA hS
      by_cases hempty₁ : first = .nil
      · have hstep := Edit.flattenStep_empty 0 k p hop ((findIdx?_isEmpty _ _).trans (if_pos (hempty₁ ▸ rfl)))
        exact .inr ⟨_, _, Action.foldlM_cons_error hstep, by simp [Code.refusal?, hempty₁, Node.op]⟩
      have hfull₁ : first.ids ≠ [] := fun h => hempty₁ (Build.ids_eq_nil h)
      by_cases hempty₂ : second = .nil
      · have hstep := Edit.flattenStep_empty 1 k p hop
          ((findIdx?_isEmpty _ _).trans ((if_neg hfull₁).trans (if_pos (hempty₂ ▸ rfl))))
        exact .inr ⟨_, _, Action.foldlM_cons_error hstep, by simp [Code.refusal?, hempty₁, hempty₂, Node.op]⟩
      have hfull₂ : second.ids ≠ [] := fun h => hempty₂ (Build.ids_eq_nil h)
      have hfull : ((n.map θ θ).op [{ ops := first.ids }, { ops := second.ids }]
          (some (C.map θ θ).place)).regions.findIdx? (·.ops.isEmpty) = none :=
        (findIdx?_isEmpty _ _).trans ((if_neg hfull₁).trans (if_neg hfull₂))
      have hfail : (Code.fork n first second rest).refusal? =
          (first.refusal?.or second.refusal?).or rest.refusal? := by
        simp [Code.refusal?, hempty₁, hempty₂]
      cases k with
      | zero => simp [Code.height] at hk
      | succ k =>
        simp only [Code.height] at hk
        have hwordsIn {n' : Node} {other rest' : Code} (x : ValueId) (hx : S x) :
            ∃ n ∈ (C.first n' other rest').nodes, n.Word x := by
          obtain ⟨n', hn', hword⟩ := hwords x hx
          exact ⟨n', by simp [Context.nodes, hn'], hword⟩
        have hflat₁ := iha hfirst (C := C.first n second rest) h
          hold.2.1 hscopeFirst hA.2.1 hS.2.1 hwordsIn (k := k) (by omega) p
        obtain ⟨p₁, m₁, θ₁, d₁, t₁, is, x, hrun₁, h₁, hd₁, ht₁, hx, hlow₁, hnone₁⟩ | ⟨e, m₁, hrun₁, hfail₁⟩ :=
          hflat₁
        · rw [← Edit.flattenWithin_run hids₁] at hrun₁
          obtain ⟨-, hids₂, -⟩ := Named.regions_fork (C := C) h₁
          have hflat₂ := ihb hsecond (C := C.second n (d₁ ++ t₁) rest)
            h₁ hold.2.2.1 hscopeSecond hA.2.2.1 hS.2.2.1 hwordsIn (k := k) (by omega) p₁
          obtain ⟨p₂, m₂, θ₂, d₂, t₂, js, z, hrun₂, h₂, hd₂, ht₂, hz, hlow₂, hnone₂⟩ | ⟨e, m₂, hrun₂,
            hfail₂⟩ := hflat₂
          · rw [← Edit.flattenWithin_run hids₂] at hrun₂
            have hfail' : (Code.fork n first second rest).refusal? = rest.refusal? := by
              rw [hfail, hnone₁, hnone₂]
              rfl
            have hregion {d t r : Code} {z : Bool} {ls : List Instruction} {out : Option ValueId}
                {q q' : Progress} (hd : d.Reads ls) (ht : Code.Ends out t) (hlow : Lowers q r ls out q')
                (hr : r.Shaped z) (hscope : r.Scoped A S) (hresults : ∀ u ∈ r.results, u ∉ n.results)
                (hdone : ∀ u ∈ d.results, u ∉ n.results) {u : ValueId} (hu : u ∈ (d ++ t).uses) :
                u ∉ n.results := by
              rw [Code.uses_append, hd.uses_eq, ht.uses_eq, List.mem_append, Option.mem_toList] at hu
              obtain hu | hu := hlow.names hu
              · obtain hu | hu | hu | hu := hscope.uses_mem hu
                · exact fun hun => hA.1 u hun hu
                · exact fun hun => hS.1 u hun hu
                · exact hresults u hu
                · rw [hr.args_eq] at hu
                  cases hu
              · exact hdone u (hd.results_eq ▸ hu)
            have hself : ∀ u, u ∈ n.operands ∨ u ∈ (d₁ ++ t₁).uses ∨ u ∈ (d₂ ++ t₂).uses → u ∉ n.results := by
              rintro u (hu | hu | hu)
              · exact fun hun => (hsees u hu).elim (hS.1 u hun) fun hu => hA.1 u hun hu.2
              · exact hregion hd₁ ht₁ hlow₁ hfirst hscopeFirst (fun u hu => h.apart_fork (.inl hu))
                  (fun u hu => Named.apart_fork (C := C) h₂ (.inl (by simp [hu]))) hu
              · exact hregion hd₂ ht₂ hlow₂ hsecond hscopeSecond (fun u hu => h.apart_fork (.inr (.inl hu)))
                  (fun u hu => Named.apart_fork (C := C) h₂ (.inr (.inl (by simp [hu])))) hu
            obtain ⟨m₃, θ₃, e, ks, hrun₃, h₃, he, hfork⟩ :=
              flattenOp_fork (C := C) h₂ hn ht₁ ht₂ hx hz hd₁ hd₂ hold.1 hself p₂
            have hinner : Flattens N (C.after e) (k + 1) rest y (p₂.count n.kind) m₃ := by
              refine ih hrest (C := C.after e) h₃ hold.2.2.2 hscopeRest
                hA.2.2.2 (fun v hv => ?_) (fun x hx => ?_) (by omega) (p₂.count n.kind)
              · exact not_or.mpr ⟨h.apart_fork (.inr (.inr hv)), hS.2.2.2 v hv⟩
              · simp only [Context.nodes, List.mem_append]
                obtain hx | hx := hx
                · obtain ⟨r, hr, rfl⟩ : ∃ r ∈ n.result, r.value = x := by simpa [Node.results] using hx
                  obtain ⟨n', hn', hword⟩ := he.exists_word (hfork.names.2.2 r hr)
                  exact ⟨n', .inr hn', hword⟩
                · obtain ⟨n', hn', hword⟩ := hwords x hx
                  exact ⟨n', .inl hn', hword⟩
            have hstep := Edit.flattenStep_ok hop hfull ((Action.foldlM_range_two hrun₁).trans hrun₂)
            exact Flattens.cons rfl (hstep.trans hrun₃) he hinner hfail' fun ls out p' hlow =>
              .fork hlow₁ hlow₂ hfork hlow
          · rw [← Edit.flattenWithin_run hids₂] at hrun₂
            exact .inr ⟨e, m₂, Action.foldlM_cons_error
              (Edit.flattenStep_error hop hfull ((Action.foldlM_range_two hrun₁).trans hrun₂)), by
              rw [hfail, hnone₁, hfail₂]
              rfl⟩
        · rw [← Edit.flattenWithin_run hids₁] at hrun₁
          exact .inr ⟨e, m₁, Action.foldlM_cons_error
            (Edit.flattenStep_error hop hfull (Action.foldlM_cons_error hrun₁)), by
            rw [hfail, hfail₁]
            rfl⟩

end Choco.IR
