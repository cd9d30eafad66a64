import Choco.Proofs.Passes

namespace Choco.IR

open Choco.IR.Module Code Instruction

variable {c : Code} {v : ValueId} {k : Nat} {m : Module}

section Scope

variable {A A' S S' : ValueId → Prop} {is js : List Instruction} {address x y : ValueId} {index length : Nat}
  {n : Node} {is js ks : List Instruction} {p p' : Progress} {out : Option ValueId} {c' : Code}

/-- Each instruction uses only values in sight at the start and results of instructions before it. Arguments
are only stored. -/
def InScope (A S : ValueId → Prop) : List Instruction → Prop
  | [] => True
  | i :: is =>
    (∀ x ∈ i.operands, S x ∨ (Kind.flat i.op).isStore ∧ A x) ∧
      InScope A (fun v => v ∈ i.result.toList ∨ S v) is

theorem InScope.mono (h : InScope A S is) (hA : ∀ v, A v → A' v) (hS : ∀ v, S v → S' v) :
    InScope A' S' is := by
  induction is generalizing S S' with
  | nil => trivial
  | cons i is ih =>
    exact ⟨fun x hx => (h.1 x hx).imp (hS x) (And.imp_right (hA x)), ih h.2 fun v => Or.imp_right (hS v)⟩

theorem inScope_append : InScope A S (is ++ js) ↔ InScope A S is ∧
    InScope A (fun v => v ∈ definitions is ∨ S v) js := by
  induction is generalizing S with
  | nil => simp [InScope]
  | cons i is ih =>
    have hset : (fun v => v ∈ definitions is ∨ v ∈ i.result.toList ∨ S v) = fun v =>
        v ∈ definitions (i :: is) ∨ S v := by
      funext v
      simp only [definitions_cons, List.mem_append, eq_iff_iff]
      tauto
    rw [List.cons_append, InScope, ih, hset, ← and_assoc]
    rfl

theorem Code.Reads.scoped (h : c.Reads is) (his : InScope A S is) : c.Scoped A S := by
  induction h generalizing S with
  | nil => trivial
  | leaf _ i _ ih => exact ⟨his.1, (ih his.2).mono (fun _ => id) fun v hv => by rwa [results_node]⟩

theorem Fills.inScope {xs : List ValueId} (h : Fills address index xs is) (ha : S address)
    (hxs : ∀ x ∈ xs, S x) : InScope A S is := by
  induction xs generalizing index is with
  | nil => exact h ▸ trivial
  | cons x xs ih =>
    obtain ⟨offset, rest, -, rfl, hrest⟩ := h
    rw [List.forall_mem_cons] at hxs
    refine ⟨by simp [ha, hxs.1], (ih hrest hxs.2).mono (fun _ => id) fun v => .inr⟩

theorem Spells.inScope {bytes : List UInt8} (h : Spells address index bytes is) (ha : S address) :
    InScope A S is := by
  induction bytes generalizing index is with
  | nil => exact h ▸ trivial
  | cons byte bytes ih =>
    obtain ⟨code, offset, rest, -, rfl, hrest⟩ := h
    refine ⟨by simp, by simp [ha], (ih hrest).mono (fun _ => id) fun v hv => by simp [hv]⟩

theorem Allocates.inScope (h : Allocates length v is) : InScope A S is := by
  obtain ⟨offset, size, header, -, rfl⟩ := h
  simp [InScope]

theorem Allocates.defines (h : Allocates length v is) : v ∈ definitions is := by
  obtain ⟨offset, size, header, -, rfl⟩ := h
  simp

theorem LiteralFlat.inScope {l : Literal} (h : LiteralFlat l v is) : InScope A S is := by
  cases l with
  | int n | bool b | none => exact h ▸ by simp [InScope]
  | str s =>
    obtain ⟨head, tail, rfl, hhead, htail⟩ := h
    exact inScope_append.mpr ⟨hhead.inScope, htail.inScope (.inl hhead.defines)⟩

theorem FloorFlat.inScope {quotient : Bool} (h : FloorFlat quotient x y v is) (hx : S x) (hy : S y) :
    InScope A S is := by
  obtain ⟨zero, q, r, signs, differ, inexact, adjust, tail, rfl, htail⟩ := h
  cases quotient with
  | true =>
    obtain rfl := htail
    simp [InScope, hx, hy]
  | false =>
    obtain ⟨correction, rfl⟩ := htail
    simp [InScope, hx, hy]

theorem BinaryFlat.inScope {op : BinaryOp} (h : BinaryFlat x y v is op) (hx : S x) (hy : S y) :
    InScope A S is := by
  cases op with
  | add | sub | mul | lt | gt => exact h ▸ by simp [InScope, hx, hy]
  | floorDiv | mod => exact FloorFlat.inScope h hx hy
  | ltEq | gtEq | eq | notEq | is =>
    obtain ⟨w, rfl⟩ := h
    simp [InScope, hx, hy]
  | and | or => exact h.elim

theorem LeafFlat.inScope {wanted : Bool} {v : Option ValueId} (h : LeafFlat n.kind n.operands wanted v is)
    (hn : n.Sees A S) :
    InScope A S is := by
  obtain ⟨id, kind, operands, result⟩ := n
  simp only at h
  unfold Node.Sees at hn
  cases h with
  | literal h => exact h.inScope
  | @unary op x v _ _ h =>
    cases op with
    | neg =>
      obtain ⟨zero, rfl⟩ := h
      simp_all [InScope, Kind.isStore]
    | not =>
      obtain rfl := h
      simp_all [InScope, Kind.isStore]
  | binary h => exact h.inScope (by simp_all [Kind.isStore]) (by simp_all [Kind.isStore])
  | @assign x locations =>
    simp only [Kind.isStore, Bool.false_eq_true, false_and, or_false, List.forall_mem_cons] at hn
    obtain ⟨hx, hlocations⟩ := hn
    induction locations with
    | nil => trivial
    | cons l ls ih =>
      rw [List.forall_mem_cons] at hlocations
      exact ⟨by simp [hlocations.1, hx], (ih hlocations.2).mono (fun _ h => h) fun v => .inr⟩
  | len h =>
    obtain ⟨zero, rfl⟩ := h
    simp_all [InScope, Kind.isStore]
  | list hhead htail =>
    simp only [Kind.isStore, Bool.false_eq_true, false_and, or_false] at hn
    exact inScope_append.mpr ⟨hhead.inScope, htail.inScope (.inl hhead.defines) fun x hx => .inr (hn x hx)⟩
  | indexString h | getAddress h =>
    obtain ⟨zero, length, position, four, offset, rfl⟩ := h
    simp_all [InScope, Kind.isStore]
  | ret | pass | alloc | load | store | call | callVoid => simp_all [InScope, Kind.isStore]

theorem ForkFlat.inScope {x y : Option ValueId} (h : ForkFlat k n is x js y ks) (hn : n.Sees A S)
    (his : InScope A S is) (hjs : InScope A S js) (hx : ∀ u ∈ x, u ∈ definitions is ∨ S u)
    (hy : ∀ u ∈ y, u ∈ definitions js ∨ S u) : InScope A S ks := by
  have hfirst {S' : ValueId → Prop} (hS : ∀ v, S v → S' v) : InScope A S' is := his.mono (fun _ => id) hS
  have hsecond {S' : ValueId → Prop} (hS : ∀ v, S v → S' v) : InScope A S' js := hjs.mono (fun _ => id) hS
  have hoperands : ∀ u ∈ n.operands, S u := fun u hu => (hn u hu).resolve_right fun hstore => by
    cases h <;> cases hstore.1
  cases h with
  | @shortCircuit id op construct skip r is js x y h slot zero =>
    have hx := hx x rfl
    have hy := hy y rfl
    refine ⟨nofun, inScope_append.mpr ⟨hfirst fun v => .inr, ?_, nofun, ?_, nofun, inScope_append.mpr
      ⟨hsecond fun v hv => by simp [hv], ?_⟩⟩⟩ <;> simp [InScope] <;> tauto
  | @ifExpr id r cond is js x y slot zero =>
    have hcond := hoperands cond (by simp)
    have hx := hx x rfl
    have hy := hy y rfl
    refine ⟨nofun, nofun, ?_, nofun,
      inScope_append.mpr ⟨hfirst fun v hv => by simp [hv], ?_, nofun, nofun, inScope_append.mpr
      ⟨hsecond fun v hv => by simp [hv], ?_⟩⟩⟩ <;> simp [InScope] <;> tauto
  | @ifElse id cond is js zero =>
    have hcond := hoperands cond (by simp)
    refine ⟨nofun, ?_, nofun, inScope_append.mpr
      ⟨hfirst fun v hv => by simp [hv], nofun, nofun, inScope_append.mpr
      ⟨hsecond fun v hv => by simp [hv], ?_⟩⟩⟩ <;> simp [InScope, hcond]
  | @whileLoop id is js x zero =>
    have hx := hx x rfl
    refine ⟨nofun, inScope_append.mpr ⟨hfirst fun v hv => by simp [hv], nofun, ?_, nofun, inScope_append.mpr
      ⟨hsecond fun v hv => by simp [hv], ?_⟩⟩⟩ <;> simp [InScope]
    tauto

theorem Lowers.inScope (h : Lowers p c is out p') (hc : c.Scoped A S) :
    InScope A S is ∧ ∀ u ∈ out, u ∈ definitions is ∨ S u := by
  induction h generalizing S with
  | nil => exact ⟨trivial, nofun⟩
  | yield id x =>
    refine ⟨trivial, fun u hu => .inr ?_⟩
    obtain rfl := Option.mem_some.mp hu
    exact (hc.1 _ (by simp)).resolve_right fun hstore => nomatch hstore.1
  | @leaf p p' n rest is js v out hn hflat hv _ ih =>
    obtain ⟨hjs, hout⟩ := ih hc.2
    have hresult (u : ValueId) (hu : u ∈ n.results) : u ∈ definitions is := by
      obtain ⟨r, hr, rfl⟩ : ∃ r ∈ n.result, r.value = u := by simpa [Node.results] using hu
      exact hflat.names.1 _ (hv r hr)
    refine ⟨inScope_append.mpr ⟨hflat.inScope hc.1, hjs.mono (fun _ => id) fun u => Or.imp_left (hresult u)⟩,
      fun u hu => ?_⟩
    rw [definitions_append, List.mem_append]
    obtain hu | hu | hu := hout u hu
    · exact .inl (.inr hu)
    · exact .inl (.inl (hresult u hu))
    · exact .inr hu
  | @fork p p₁ p₂ p' n first second rest is js ks ls x y out _ _ hflat _ iha ihb ih =>
    obtain ⟨hsees, hfirst, hsecond, hrest⟩ := hc
    obtain ⟨his, hx⟩ := iha hfirst
    obtain ⟨hjs, hy⟩ := ihb hsecond
    obtain ⟨hls, hout⟩ := ih hrest
    have hresult (u : ValueId) (hu : u ∈ n.results) : u ∈ definitions ks := by
      obtain ⟨r, hr, rfl⟩ : ∃ r ∈ n.result, r.value = u := by simpa [Node.results] using hu
      exact hflat.names.2.2 r hr
    refine ⟨inScope_append.mpr ⟨hflat.inScope hsees his hjs hx hy,
      hls.mono (fun _ => id) fun u => Or.imp_left (hresult u)⟩, fun u hu => ?_⟩
    rw [definitions_append, List.mem_append]
    obtain hu | hu | hu := hout u hu
    · exact .inl (.inr hu)
    · exact .inl (.inl (hresult u hu))
    · exact .inr hu

theorem ForkFlat.subset {x y : Option ValueId} (h : ForkFlat k n is x js y ks) : is ⊆ ks ∧ js ⊆ ks := by
  constructor <;> intro i hi <;> cases h <;> simp [hi]

theorem Lowers.alloc_mem (h : Lowers p c is out p') (hv : v ∈ c.resultsOf Kind.isAlloc) :
    word .alloc [] v ∈ is := by
  induction h with
  | nil => cases hv
  | yield => simp [Kind.isAlloc] at hv
  | @leaf p p' n rest is js w out hn hflat hw _ ih =>
    rw [List.mem_append]
    rw [resultsOf_leaf, List.mem_append] at hv
    refine hv.imp (fun hv => ?_) ih
    cases hn with
    | alloc id ty u =>
      cases hflat with
      | alloc =>
        cases hw _ rfl
        simpa [Kind.isAlloc, Node.results] using hv
    | _ => simp [Kind.isAlloc] at hv
  | @fork p p₁ p₂ p' n first second rest is js ks ls x y out _ _ hflat _ iha ihb ih =>
    rw [List.mem_append]
    simp only [resultsOf_fork, List.mem_append] at hv
    obtain hv | hv | hv | hv := hv
    · cases hflat <;> simp [Kind.isAlloc] at hv
    · exact .inl (hflat.subset.1 (iha hv))
    · exact .inl (hflat.subset.2 (ihb hv))
    · exact .inr (ih hv)

theorem Code.Reads.alloc_mem (h : c.Reads is) (hv : word .alloc [] v ∈ is) :
    v ∈ c.resultsOf Kind.isAlloc := by
  induction h with
  | nil => cases hv
  | leaf id i _ ih =>
    rw [resultsOf_leaf, List.mem_append]
    obtain rfl | hv := List.mem_cons.mp hv
    · exact .inl (by simp [Instruction.node, Kind.isAlloc, Node.results])
    · exact .inr (ih hv)

theorem LowersFunctions.alloc_mem (h : LowersFunctions p c c' p') (hv : v ∈ c.resultsOf Kind.isAlloc) :
    v ∈ c'.resultsOf Kind.isAlloc := by
  induction h with
  | nil => cases hv
  | function hbody hreads _ ih =>
    simp only [resultsOf_each, List.mem_append] at hv ⊢
    exact hv.imp_right (Or.imp (fun hv => hreads.alloc_mem (hbody.alloc_mem hv)) ih)

theorem LowersFunctions.scoped (h : LowersFunctions p c c' p') (hc : c.ScopedFunctions S) :
    c'.ScopedFunctions S := by
  induction h generalizing S with
  | nil => trivial
  | function hbody hreads hrest ih =>
    obtain ⟨hoperands, hscope, hscopeRest⟩ := hc
    refine ⟨hoperands, ?_, ?_⟩
    · exact (hreads.scoped (hbody.inScope hscope).1).mono (fun _ => id) fun v => Or.imp_right hrest.alloc_mem
    · exact (ih hscopeRest).mono fun v => Or.imp_right fun hv => hreads.alloc_mem (hbody.alloc_mem hv)

end Scope

section Functions

variable {N : Nat} {m : Module} {θ : ValueId → ValueId} {C : Context} {c : Code}

theorem Code.Functions.word_of_alloc (h : c.Functions) (hv : v ∈ c.resultsOf Kind.isAlloc) :
    ∃ n ∈ c.nodes, n.Word v := by
  obtain ⟨n, hn, halloc, hv⟩ := (mem_resultsOf _).mp hv
  refine ⟨n, hn, ?_⟩
  obtain hplain | hyield | hregions := h.mem_nodes hn
  · cases hplain with
    | alloc id ty w =>
      obtain rfl : v = w := by simpa [Node.results] using hv
      exact ⟨_, rfl, rfl, rfl⟩
    | _ => cases halloc
  · rw [hyield] at halloc
    cases halloc
  · cases hkind : n.kind <;> simp_all [Kind.isAlloc, Kind.hasRegions]

theorem flatten_functions {S : ValueId → Prop} (hc : c.Functions) (h : Named N m θ (C.plug c))
    (hold : ∀ v ∈ c.results, v.index < N) (hscope : c.ScopedFunctions S) (hS : ∀ v ∈ c.results, ¬ S v)
    (hwords : ∀ x, S x → ∃ n ∈ C.nodes, n.Word x) (hk : c.height ≤ k)
    (p : Progress) :
    (∃ p' m' θ' c', c.ids.foldlM (Edit.flattenStep k) p m = .ok p' m' ∧ Named N m' θ' (C.plug c') ∧
      LowersFunctions p c c' p' ∧ c.refusal? = none) ∨
    ∃ e m', c.ids.foldlM (Edit.flattenStep k) p m = .error e m' ∧ c.refusal? = some e := by
  induction hc generalizing m θ C S p with
  | nil => exact .inl ⟨p, m, θ, .nil, rfl, h, .nil, rfl⟩
  | @function id label ty args body rest hbody hrest ih =>
    obtain ⟨hids, hop⟩ := h.regions_each
    obtain ⟨-, hscopeBody, hscopeRest⟩ := hscope
    simp only [results_each, Node.results, Option.map_none, Option.toList_none, List.nil_append,
      List.forall_mem_append] at hold hS
    by_cases hempty : body = .nil
    · have hstep := Edit.flattenStep_empty 0 k p hop (by simp [Node.op, hempty, ids])
      exact .inr ⟨_, _, Action.foldlM_cons_error hstep, by simp [Code.refusal?, hempty, Node.op]⟩
    have hfull : ((Node.map θ θ ⟨id, .funcDef label ty, [], none⟩).op [{ args, ops := body.ids }]
        (some (C.map θ θ).place)).regions.findIdx? (·.ops.isEmpty) = none := by
      have hids : body.ids ≠ [] := fun h => hempty (Build.ids_eq_nil h)
      simpa [Node.op] using hids
    cases k with
    | zero => simp [Code.height] at hk
    | succ k =>
      simp only [Code.height] at hk
      have hnodup : (body.results ++ rest.results).Nodup := by
        simpa [Node.results] using ((C.results_plug _).nodup h.nodup).of_append_right
      have hapart {v : ValueId} (hv : v ∈ body.results) (hv' : v ∈ rest.results) : False :=
        (List.nodup_append.mp hnodup).2.2 v hv v hv' rfl
      have hargs (v : ValueId) (hv : v ∈ body.results) (ha : v ∈ args) : False := by
        refine h.arg_ne (a := v) (v := v) (Context.mem_args_plug.mpr (.inr ?_))
          (Context.mem_results_plug.mpr (.inr ?_)) rfl
        · simp [ha]
        · simp [hv]
      have hflat := flatten_all (C := C.each ⟨id, .funcDef label ty, [], none⟩ args rest) hbody h hold.1
        hscopeBody hargs
        (fun v hv => not_or.mpr ⟨hS.1 v hv, fun hv' => hapart hv (resultsOf_subset _ _ hv')⟩)
        (fun x hx => by
          simp only [Context.nodes, List.mem_append, List.mem_cons]
          obtain hx | hx := hx
          · obtain ⟨n, hn, hword⟩ := hwords x hx
            exact ⟨n, .inl hn, hword⟩
          · obtain ⟨n, hn, hword⟩ := hrest.word_of_alloc hx
            exact ⟨n, .inr (.inr hn), hword⟩)
        (k := k) (by omega) p
      rw [ids]
      obtain ⟨p₁, m₁, θ₁, d, t, is, out, hrun, h₁, hreads, hends, hout, hlow, hnone⟩ | ⟨e, m₁, hrun, hfail⟩ :=
        hflat
      · obtain rfl : out = none := by simpa using hout
        cases hends
        rw [append_nil] at h₁
        rw [← Edit.flattenWithin_run hids] at hrun
        have hnamed :
            Named N m₁ θ₁ ((C.after (each ⟨id, .funcDef label ty, [], none⟩ args d .nil)).plug rest) := h₁
        have hstep := (Edit.flattenStep_ok hop hfull (Action.foldlM_cons_ok hrun)).trans
          (Edit.flattenOp_stays p₁ (Named.regions_each (C := C) h₁).2 rfl)
        have hfail : (each ⟨id, .funcDef label ty, [], none⟩ args body rest).refusal? = rest.refusal? := by
          simp [Code.refusal?, hempty, hnone, Kind.misplaced?]
        rw [Action.foldlM_cons_ok hstep, hfail]
        obtain ⟨p', m', θ', rest', hrun', h', hlow', hnone'⟩ | hfails := ih hnamed hold.2 hscopeRest
          (fun v hv => not_or.mpr ⟨hS.2 v hv, fun hv' => hapart (resultsOf_subset _ _ hv') hv⟩)
          (fun x hx => by
            simp only [Context.nodes, nodes, List.mem_append, List.mem_cons]
            obtain hx | hx := hx
            · obtain ⟨n, hn, hword⟩ := hwords x hx
              exact ⟨n, .inl hn, hword⟩
            · obtain ⟨n, hn, hword⟩ := hreads.exists_word (hlow.defines (resultsOf_subset _ _ hx))
              exact ⟨n, .inr (.inr (.inl hn)), hword⟩)
          (by omega) p₁
        · exact .inl ⟨p', m', θ', _, hrun', h', .function hlow hreads hlow', hnone'⟩
        · exact .inr hfails
      · rw [← Edit.flattenWithin_run hids] at hrun
        refine .inr ⟨e, m₁, Action.foldlM_cons_error
          (Edit.flattenStep_error hop hfull (Action.foldlM_cons_error hrun)), ?_⟩
        simp [Code.refusal?, hempty, hfail]

end Functions

theorem Module.Renders.flatten_or_refuse {K : Kind → Prop} (h : m.Renders K c) :
    (∃ m' θ c' p, Edit.flatten m = .ok p.flattened m' ∧ Named m.values.size m' θ c' ∧
      LowersFunctions {} c c' p ∧ c.refusal? = none) ∨
    ∃ e m', Edit.flatten m = .error e m' ∧ c.refusal? = some e := by
  have hheight : c.height ≤ m.slots.size := Nat.lt_succ_iff.mp h.models.height_lt
  have hall := flatten_functions (C := .top) h.functions h.named h.result_lt h.scope
    (fun _ _ => id) (fun _ => False.elim) hheight {}
  rw [← Edit.flattenWithin_run h.models.top] at hall
  obtain ⟨p, m', θ, c', hrun, hnamed, hlow, hnone⟩ | ⟨e, m', hrun, hfail⟩ := hall
  · exact .inl ⟨m', θ, c', p, Action.bind_ok hrun, hnamed, hlow, hnone⟩
  · exact .inr ⟨e, m', Action.bind_error hrun, hfail⟩

theorem Module.Renders.flatten (h : m.Renders Kind.flattens c) :
    (∃ m' θ c' p, Edit.flatten m = .ok p.flattened m' ∧ Named m.values.size m' θ c' ∧
      LowersFunctions {} c c' p ∧ c.failure? = none) ∨
    ∃ e m', Edit.flatten m = .error e m' ∧ c.failure? = some e := by
  rw [← refusal?_eq_failure? h.kinds]
  exact h.flatten_or_refuse

end Choco.IR
