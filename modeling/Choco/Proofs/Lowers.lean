import Choco.Proofs.FlatLeaves

namespace Choco.IR

variable {x y out : Option ValueId} {t c : Code} {k : Nat} {n : Node} {is js ks : List Instruction}
  {p p' : Progress}

/-- The number of the next construct of this kind; other operations have none. -/
def Progress.number (p : Progress) (kind : Kind) : Nat := ((Construct.ofKind? kind).map p.next).getD 0

/-- The construct of an operator, and how its left side compares to zero when it decides. -/
inductive SkipsOn : BinaryOp → Construct → Cond → Prop
  | and : SkipsOn .and .and .eq
  | or : SkipsOn .or .or .ne

open Instruction

/-- The instructions for an operation with two regions, construct number `k` of its kind, from the
instructions and the values of the regions. -/
inductive ForkFlat (k : Nat) : Node → List Instruction → Option ValueId → List Instruction → Option ValueId →
    List Instruction → Prop
  | shortCircuit {id : OpId} {op : BinaryOp} {construct : Construct} {skip : Cond} {r : Def}
    {is js : List Instruction}
      {x y : ValueId} (h : SkipsOn op construct skip) (slot zero : ValueId) :
      ForkFlat k ⟨id, .shortCircuit op, [], some r⟩ is (some x) js (some y)
        (word .alloc [] slot :: (is ++ (act (.sw 0) [slot, x] :: word (.li 0) [] zero ::
          act (.branch skip (construct.label "after" k)) [x, zero] ::
            act (.label (construct.label "rhs" k)) [] ::
          (js ++ [act (.sw 0) [slot, y], act (.label (construct.label "after" k)) [],
            word (.lw 0) [slot] r.value]))))
  | ifExpr {id : OpId} {r : Def} {cond : ValueId} {is js : List Instruction} {x y : ValueId}
      (slot zero : ValueId) :
      ForkFlat k ⟨id, .ifExpr, [cond], some r⟩ is (some x) js (some y)
        (word .alloc [] slot :: word (.li 0) [] zero ::
          act (.branch .eq (Construct.ifExpr.label "else" k)) [cond, zero] ::
          act (.label (Construct.ifExpr.label "then" k)) [] ::
          (is ++ (act (.sw 0) [slot, x] :: act (.jump (Construct.ifExpr.label "after" k)) [] ::
            act (.label (Construct.ifExpr.label "else" k)) [] ::
            (js ++ [act (.sw 0) [slot, y], act (.label (Construct.ifExpr.label "after" k)) [],
              word (.lw 0) [slot] r.value]))))
  | ifElse {id : OpId} {cond : ValueId} {is js : List Instruction} (zero : ValueId) :
      ForkFlat k ⟨id, .ifElse, [cond], none⟩ is none js none
        (word (.li 0) [] zero :: act (.branch .eq (Construct.ifElse.label "else" k)) [cond, zero] ::
          act (.label (Construct.ifElse.label "then" k)) [] ::
          (is ++ (act (.jump (Construct.ifElse.label "after" k)) [] ::
            act (.label (Construct.ifElse.label "else" k)) [] ::
            (js ++ [act (.label (Construct.ifElse.label "after" k)) []]))))
  | whileLoop {id : OpId} {is js : List Instruction} {x : ValueId} (zero : ValueId) :
      ForkFlat k ⟨id, .whileLoop, [], none⟩ is (some x) js none
        (act (.label (Construct.whileLoop.label "cond" k)) [] ::
          (is ++ (word (.li 0) [] zero :: act (.branch .eq (Construct.whileLoop.label "after" k)) [x, zero] ::
            act (.label (Construct.whileLoop.label "body" k)) [] ::
            (js ++ [act (.jump (Construct.whileLoop.label "cond" k)) [],
              act (.label (Construct.whileLoop.label "after" k)) []]))))

/-- The instructions for a list of operations and the value that it yields. Constructs are numbered in the
order in which they end. -/
inductive Lowers : Progress → Code → List Instruction → Option ValueId → Progress → Prop
  | nil {p : Progress} : Lowers p .nil [] none p
  | yield {p : Progress} (id : OpId) (x : ValueId) :
      Lowers p (.leaf ⟨id, .yield, [x], none⟩ .nil) [] (some x) p
  | leaf {p p' : Progress} {n : Node} {rest : Code} {is js : List Instruction} {v out : Option ValueId}
      (hn : n.Plain) (hflat : LeafFlat n.kind n.operands n.result.isSome v is)
      (hv : ∀ r ∈ n.result, v = some r.value) (hrest : Lowers (p.count n.kind) rest js out p') :
      Lowers p (.leaf n rest) (is ++ js) out p'
  | fork {p p₁ p₂ p' : Progress} {n : Node} {first second rest : Code} {is js ks ls : List Instruction}
      {x y out : Option ValueId} (hfirst : Lowers p first is x p₁) (hsecond : Lowers p₁ second js y p₂)
      (hflat : ForkFlat (p₂.number n.kind) n is x js y ks) (hrest : Lowers (p₂.count n.kind) rest ls out p') :
      Lowers p (.fork n first second rest) (ks ++ ls) out p'

/-- The flat code of functions. -/
inductive LowersFunctions : Progress → Code → Code → Progress → Prop
  | nil {p : Progress} : LowersFunctions p .nil .nil p
  | function {p p₁ p' : Progress} {n : Node} {args : List ValueId} {body body' rest rest' : Code}
      {is : List Instruction} (hbody : Lowers p body is none p₁) (hreads : body'.Reads is)
      (hrest : LowersFunctions p₁ rest rest' p') :
      LowersFunctions p (.each n args body rest) (.each n args body' rest') p'

def Code.failure? : Code → Option Error
  | nil => none
  | leaf n rest => n.failure?.or rest.failure?
  | each n _ body rest =>
    (if body = nil then some (.internal (.emptyRegion 0 n.kind)) else body.failure?).or rest.failure?
  | fork n first second rest =>
    (if first = nil then some (.internal (.emptyRegion 0 n.kind))
      else if second = nil then some (.internal (.emptyRegion 1 n.kind))
        else first.failure?.or second.failure?).or
      rest.failure?

inductive Code.Ends : Option ValueId → Code → Prop
  | none : Ends none nil
  | some (id : OpId) (x : ValueId) : Ends (some x) (leaf ⟨id, .yield, [x], .none⟩ nil)

theorem Code.Ends.eq_yield (h : Ends x t) (hx : x.isSome = true) :
    ∃ id v, x = .some v ∧ t = leaf ⟨id, .yield, [v], .none⟩ nil := by
  cases h with
  | none => cases hx
  | some id v => exact ⟨id, v, rfl, rfl⟩

theorem Code.Ends.eq_nil (h : Ends x t) (hx : x.isSome = false) : x = .none ∧ t = nil := by
  cases h with
  | none => exact ⟨rfl, rfl⟩
  | some id v => cases hx

theorem ForkFlat.map (h : ForkFlat k n is x js y ks) (σ : ValueId → ValueId) :
    ForkFlat k (n.map σ σ) (is.map (·.map σ)) (x.map σ) (js.map (·.map σ)) (y.map σ) (ks.map (·.map σ)) := by
  cases h with
  | shortCircuit h slot zero =>
    simp only [List.map_cons, List.map_append]
    exact .shortCircuit h (σ slot) (σ zero)
  | ifExpr slot zero =>
    simp only [List.map_cons, List.map_append]
    exact .ifExpr (σ slot) (σ zero)
  | ifElse zero =>
    simp only [List.map_cons, List.map_append]
    exact .ifElse (σ zero)
  | whileLoop zero =>
    simp only [List.map_cons, List.map_append]
    exact .whileLoop (σ zero)

/-- The instructions of a construct define its result and what its regions define, and use only what the
operation and its regions use and what they define. -/
theorem ForkFlat.names (h : ForkFlat k n is x js y ks) :
    (∀ u ∈ mentions ks, u ∈ n.operands ∨ u ∈ x ∨ u ∈ y ∨ u ∈ mentions is ∨ u ∈ mentions js ∨
      u ∈ definitions ks) ∧ (∀ u, u ∈ definitions is ∨ u ∈ definitions js → u ∈ definitions ks) ∧
        ∀ r ∈ n.result, r.value ∈ definitions ks := by
  cases h <;>
    simp only [mentions_cons, mentions_append, mentions_nil, definitions_cons, definitions_append,
      definitions_nil, Option.toList_some, Option.toList_none, List.mem_append, List.mem_cons,
      List.not_mem_nil, Option.mem_def, Option.some.injEq, reduceCtorEq] <;>
    grind

theorem map_map_instructions {σ θ : ValueId → ValueId}
    (h : ∀ u, u ∈ mentions is ∨ u ∈ definitions is → σ (θ u) = u) :
    (is.map (·.map θ)).map (·.map σ) = is := by
  rw [List.map_map]
  refine (List.map_congr_left fun i hi => ?_).trans (List.map_id is)
  have hoperands : (i.operands.map θ).map σ = i.operands := by
    rw [List.map_map]
    exact (List.map_congr_left fun u hu => h u (.inl (List.mem_flatMap.mpr ⟨i, hi, hu⟩))).trans
      (List.map_id _)
  have hresult : (i.result.map θ).map σ = i.result := by
    cases hr : i.result with
    | none => rfl
    | some r => simp [h r (.inr (List.mem_flatMap.mpr ⟨i, hi, by simp [hr]⟩))]
  simp [Instruction.map, hoperands, hresult]

theorem Lowers.defines (h : Lowers p c is out p') {v : ValueId} (hv : v ∈ c.results) :
    v ∈ definitions is := by
  induction h with
  | nil | yield => cases hv
  | @leaf p p' n rest is js w out hn hflat hw hrest ih =>
    rw [Code.results_leaf, List.mem_append] at hv
    rw [definitions_append, List.mem_append]
    obtain hv | hv := hv
    · cases hr : n.result with
      | none => simp [Node.results, hr] at hv
      | some r =>
        obtain rfl : v = r.value := by simpa [Node.results, hr] using hv
        exact .inl (hflat.names.1 _ (hw r hr))
    · exact .inr (ih hv)
  | @fork p p₁ p₂ p' n first second rest is js ks ls x y out hfirst hsecond hflat hrest iha ihb ih =>
    simp only [Code.results_fork, List.mem_append] at hv
    rw [definitions_append, List.mem_append]
    obtain hv | hv | hv | hv := hv
    · cases hr : n.result with
      | none => simp [Node.results, hr] at hv
      | some r =>
        obtain rfl : v = r.value := by simpa [Node.results, hr] using hv
        exact .inl (hflat.names.2.2 r hr)
    · exact .inl (hflat.names.2.1 v (.inl (iha hv)))
    · exact .inl (hflat.names.2.1 v (.inr (ihb hv)))
    · exact .inr (ih hv)

theorem Lowers.names (h : Lowers p c is out p') {u : ValueId} (hu : u ∈ mentions is ∨ u ∈ out) :
    u ∈ c.uses ∨ u ∈ definitions is := by
  induction h with
  | nil => obtain hu | hu := hu <;> cases hu
  | yield id x =>
    obtain hu | hu := hu
    · cases hu
    · exact .inl (by simpa using (Option.mem_some.mp hu).symm)
  | @leaf p p' n rest is js w out hn hflat hw hrest ih =>
    have hnames := hflat.names.2 u
    simp only [mentions_append, definitions_append, Code.uses_leaf, List.mem_append] at *
    grind
  | @fork p p₁ p₂ p' n first second rest is js ks ls x y out hfirst hsecond hflat hrest iha ihb ih =>
    obtain ⟨hnames, hinner, -⟩ := hflat.names
    have hnames := hnames u
    have hinner := hinner u
    simp only [mentions_append, definitions_append, Code.uses_fork, List.mem_append] at *
    grind

end Choco.IR
