import Choco.Proofs.FlatFunctions
import Choco.Proofs.LabelNames

namespace Choco.IR

variable {k : Mark} {n : Node} {x y : Option ValueId} {c : Code}

namespace FlatOp

def label? : FlatOp → Option String
  | .label name => some name
  | _ => none

def target? : FlatOp → Option String
  | .branch _ name | .jump name => some name
  | _ => none

def callee? : FlatOp → Option String
  | .call func => some func
  | _ => none

end FlatOp

def namesOf (f : FlatOp → Option String) (is : List Instruction) : List String := is.filterMap fun i => f i.op

section Lists

variable (f : FlatOp → Option String)

@[simp] theorem namesOf_nil : namesOf f [] = [] := rfl

@[simp] theorem namesOf_cons (i : Instruction) (is : List Instruction) :
    namesOf f (i :: is) = (f i.op).toList ++ namesOf f is := by
  cases h : f i.op <;> simp [namesOf, h]

@[simp] theorem namesOf_append (is js : List Instruction) :
    namesOf f (is ++ js) = namesOf f is ++ namesOf f js := by
  simp [namesOf]

theorem namesOf_map (σ : ValueId → ValueId) (is : List Instruction) :
    namesOf f (is.map (·.map σ)) = namesOf f is := by
  rw [namesOf, List.filterMap_map]
  rfl

end Lists

/-- Instructions without labels that jump to traps only and call only functions with the property. -/
def Straight (P : String → Prop) (is : List Instruction) : Prop :=
  namesOf FlatOp.label? is = [] ∧ (∀ l ∈ namesOf FlatOp.target? is, ∃ trap : Trap, l = trap.routine) ∧
    ∀ f ∈ namesOf FlatOp.callee? is, P f

namespace Straight

variable {P : String → Prop} {is : List Instruction}

theorem nil : Straight P [] := ⟨rfl, nofun, nofun⟩

theorem cons {i : Instruction} (hlabel : i.op.label? = none)
    (htarget : ∀ l ∈ i.op.target?, ∃ trap : Trap, l = trap.routine)
    (hcallee : ∀ f ∈ i.op.callee?, P f) (h : Straight P is) : Straight P (i :: is) := by
  refine ⟨by rw [namesOf_cons, hlabel, h.1]; rfl, ?_, ?_⟩
  · rw [namesOf_cons, List.forall_mem_append]
    exact ⟨by simpa using htarget, h.2.1⟩
  · rw [namesOf_cons, List.forall_mem_append]
    exact ⟨by simpa using hcallee, h.2.2⟩

end Straight

section Leaves

variable {P : String → Prop} {ops : List FlatOp} {is : List Instruction}

theorem FlatOp.Quiet.names {op : FlatOp} (h : op.Quiet) :
    op.label? = none ∧ (∀ l ∈ op.target?, ∃ trap : Trap, l = trap.routine) ∧ op.callee? = none := by
  cases op <;> simp_all [FlatOp.Quiet, FlatOp.label?, FlatOp.target?, FlatOp.callee?]

theorem Notes.straight (h : Notes ops is)
    (hops : ∀ op ∈ ops, op.label? = none ∧ op.target? = none ∧ ∀ f ∈ op.callee?, P f) : Straight P is := by
  induction h with
  | nil => exact .nil
  | quiet hi _ ih =>
    obtain ⟨hlabel, htarget, hcallee⟩ := hi.names
    exact (ih hops).cons hlabel htarget (by simp [hcallee])
  | note _ ih =>
    obtain ⟨⟨hlabel, htarget, hcallee⟩, hops⟩ := List.forall_mem_cons.mp hops
    exact (ih hops).cons hlabel (by simp [htarget]) hcallee

theorem LeafFlat.straight {kind : Kind} {xs : List ValueId} {wanted : Bool} {v : Option ValueId}
    (h : LeafFlat kind xs wanted v is) (hmalloc : P Library.malloc)
    (hkind : kind.Calls fun f => f ≠ "len" → P f) :
    Straight P is := by
  obtain ⟨ops, hops, hnotes⟩ := h.notes
  refine hnotes.straight ?_
  cases hops with
  | list hstores | text hstores =>
    refine List.forall_mem_cons.mpr ⟨⟨rfl, rfl, by simpa [FlatOp.callee?] using hmalloc⟩, fun op hop => ?_⟩
    obtain ⟨offset, rfl⟩ := hstores.exists_of_mem hop
    exact ⟨rfl, rfl, by simp [FlatOp.callee?]⟩
  | call hfunc =>
    have hcallee := Kind.calls_call.mp hkind hfunc
    simpa [FlatOp.label?, FlatOp.target?, FlatOp.callee?] using hcallee
  | ret => simp [FlatOp.label?, FlatOp.target?, FlatOp.callee?]
  | nothing => exact List.forall_mem_nil _

end Leaves

def Construct.roles : Construct → List String
  | .and | .or => ["rhs", "after"]
  | .ifExpr | .ifElse => ["then", "else", "after"]
  | .whileLoop => ["cond", "body", "after"]

/-- A label of a construct: which construct it is, of which part, and of which number. -/
structure Mark where
  construct : Construct
  role : String
  number : Nat
deriving DecidableEq

namespace Mark

def text (k : Mark) : String := k.construct.label k.role k.number

def ofConstruct (construct : Construct) (number : Nat) : List Mark :=
  construct.roles.map (⟨construct, ·, number⟩)

theorem nodup_ofConstruct (construct : Construct) (number : Nat) : (ofConstruct construct number).Nodup := by
  refine List.Nodup.map (fun a b h => (Mark.mk.inj h).2.1) ?_
  cases construct <;> decide

/-- The label belongs to a construct that is counted between two states of the count. -/
structure Between (p p' : Progress) (k : Mark) : Prop where
  role : k.role ∈ k.construct.roles
  le : p.next k.construct ≤ k.number
  lt : k.number < p'.next k.construct

theorem Between.mono {p₁ p₂ p₃ p₄ : Progress} (h : Between p₂ p₃ k) (hp : ∀ c, p₁.next c ≤ p₂.next c)
    (hp' : ∀ c, p₃.next c ≤ p₄.next c) : Between p₁ p₄ k :=
  ⟨h.role, (hp _).trans h.le, h.lt.trans_le (hp' _)⟩

end Mark

theorem Progress.next_count (p : Progress) (kind : Kind) (c : Construct) :
    (p.count kind).next c = p.next c + if Construct.ofKind? kind = some c then 1 else 0 := by
  unfold count
  split <;> cases c <;> simp_all [next]

theorem ForkFlat.names_of {k : Nat} {is js ks : List Instruction} (h : ForkFlat k n is x js y ks) :
    ∃ construct, Construct.ofKind? n.kind = some construct ∧
      (namesOf FlatOp.label? ks).Perm
        (namesOf FlatOp.label? is ++
          (namesOf FlatOp.label? js ++ (Mark.ofConstruct construct k).map Mark.text)) ∧
      (∀ l ∈ namesOf FlatOp.target? ks, l ∈ namesOf FlatOp.target? is ∨ l ∈ namesOf FlatOp.target? js ∨
        l ∈ (Mark.ofConstruct construct k).map Mark.text) ∧
      namesOf FlatOp.callee? ks = namesOf FlatOp.callee? is ++ namesOf FlatOp.callee? js := by
  cases h with
  | shortCircuit h slot zero =>
    cases h with
    | and | or =>
      refine ⟨_, rfl, List.perm_iff_count.mpr fun l => ?_, fun l => ?_, ?_⟩
      all_goals simp [FlatOp.label?, FlatOp.target?, FlatOp.callee?, Mark.ofConstruct, Construct.roles,
        Mark.text]
      · simp only [List.count_cons, List.count_append, List.count_nil]
        omega
      · tauto
  | ifExpr slot zero | ifElse zero | whileLoop zero =>
    refine ⟨_, rfl, List.perm_iff_count.mpr fun l => ?_, fun l => ?_, ?_⟩
    all_goals simp [FlatOp.label?, FlatOp.target?, FlatOp.callee?, Mark.ofConstruct, Construct.roles,
      Mark.text]
    · simp only [List.count_cons, List.count_append, List.count_nil]
      omega
    · tauto

/-- Instructions whose labels are those of the constructs counted between two states of the count. They jump
to these labels and to traps, and call only functions with the property. -/
structure Marked (P : String → Prop) (p p' : Progress) (is : List Instruction) : Prop where
  next_le : ∀ c, p.next c ≤ p'.next c
  labels : ∃ ks : List Mark, (namesOf FlatOp.label? is).Perm (ks.map Mark.text) ∧ ks.Nodup ∧
    ∀ k ∈ ks, k.Between p p'
  targets : ∀ l ∈ namesOf FlatOp.target? is, l ∈ namesOf FlatOp.label? is ∨ ∃ trap : Trap, l = trap.routine
  callees : ∀ f ∈ namesOf FlatOp.callee? is, P f

section Marked

variable {P : String → Prop} {p p₁ p₂ p' : Progress} {is js ks : List Instruction}

theorem Straight.marked (h : Straight P is) (hnext : ∀ c, p'.next c = p.next c) : Marked P p p' is where
  next_le c := (hnext c).ge
  labels := ⟨[], by rw [h.1]; exact .nil, List.nodup_nil, nofun⟩
  targets l hl := .inr (h.2.1 l hl)
  callees := h.2.2

theorem Mark.Between.ne {k' : Mark} (hk : k.Between p p₁) (hk' : k'.Between p₁ p') : k ≠ k' := by
  rintro rfl
  exact absurd hk'.le (Nat.not_le_of_lt hk.lt)

theorem Marked.append (hi : Marked P p p₁ is) (hj : Marked P p₁ p' js) : Marked P p p' (is ++ js) := by
  obtain ⟨ks, hks, hnodup, hbetween⟩ := hi.labels
  obtain ⟨ks', hks', hnodup', hbetween'⟩ := hj.labels
  refine ⟨fun c => (hi.next_le c).trans (hj.next_le c), ⟨ks ++ ks', ?_, ?_, ?_⟩, fun l hl => ?_, ?_⟩
  · rw [namesOf_append, List.map_append]
    exact hks.append hks'
  · exact List.nodup_append.mpr ⟨hnodup, hnodup', fun k hk k' hk' => (hbetween k hk).ne (hbetween' k' hk')⟩
  · refine List.forall_mem_append.mpr ⟨fun k hk => ?_, fun k hk => ?_⟩
    · exact (hbetween k hk).mono (fun _ => le_rfl) hj.next_le
    · exact (hbetween' k hk).mono hi.next_le fun _ => le_rfl
  · rw [namesOf_append, List.mem_append] at hl ⊢
    obtain hl | hl := hl
    · exact (hi.targets l hl).imp_left .inl
    · exact (hj.targets l hl).imp_left .inr
  · rw [namesOf_append, List.forall_mem_append]
    exact ⟨hi.callees, hj.callees⟩

theorem Marked.map (h : Marked P p p' is) (σ : ValueId → ValueId) : Marked P p p' (is.map (·.map σ)) where
  next_le := h.next_le
  labels := by
    rw [namesOf_map]
    exact h.labels
  targets := by
    rw [namesOf_map, namesOf_map]
    exact h.targets
  callees := by
    rw [namesOf_map]
    exact h.callees

theorem ForkFlat.marked (h : ForkFlat (p₂.number n.kind) n is x js y ks) (hi : Marked P p p₁ is)
    (hj : Marked P p₁ p₂ js) :
    Marked P p (p₂.count n.kind) ks := by
  obtain ⟨construct, hconstruct, hperm, htargets, hcallees⟩ := h.names_of
  have hregions := hi.append hj
  obtain ⟨ms, hms, hnodup, hbetween⟩ := hregions.labels
  have hnumber : p₂.number n.kind = p₂.next construct := by simp [Progress.number, hconstruct]
  have hcount : (p₂.count n.kind).next construct = p₂.next construct + 1 := by
    rw [Progress.next_count, if_pos hconstruct]
  have hle (c : Construct) : p₂.next c ≤ (p₂.count n.kind).next c := by
    rw [Progress.next_count]
    exact Nat.le_add_right _ _
  have hown : ∀ k ∈ Mark.ofConstruct construct (p₂.number n.kind), k.Between p₂ (p₂.count n.kind) := by
    intro k hk
    obtain ⟨role, hrole, rfl⟩ := List.mem_map.mp hk
    exact ⟨hrole, hnumber.ge, by rw [hnumber, hcount]; exact Nat.lt_succ_self _⟩
  refine ⟨fun c => (hregions.next_le c).trans (hle c),
    ⟨ms ++ Mark.ofConstruct construct (p₂.number n.kind), ?_, ?_, ?_⟩,
    fun l hl => ?_, ?_⟩
  · rw [namesOf_append] at hms
    rw [List.map_append]
    rw [← List.append_assoc] at hperm
    exact hperm.trans (hms.append_right _)
  · exact List.nodup_append.mpr ⟨hnodup, Mark.nodup_ofConstruct _ _,
      fun k hk k' hk' => (hbetween k hk).ne (hown k' hk')⟩
  · refine List.forall_mem_append.mpr ⟨fun k hk => ?_, fun k hk => ?_⟩
    · exact (hbetween k hk).mono (fun _ => le_rfl) hle
    · exact (hown k hk).mono hregions.next_le fun _ => le_rfl
  · rw [hperm.mem_iff, List.mem_append, List.mem_append]
    obtain hl | hl | hl := htargets l hl
    · exact (hi.targets l hl).imp_left .inl
    · exact (hj.targets l hl).imp_left fun hl => .inr (.inl hl)
    · exact .inl (.inr (.inr hl))
  · rw [hcallees, List.forall_mem_append]
    exact ⟨hi.callees, hj.callees⟩

theorem Node.Plain.next_count (h : n.Plain) (p : Progress) (c : Construct) :
    (p.count n.kind).next c = p.next c := by
  rw [Progress.next_count]
  cases h <;> rfl

theorem Lowers.marked {out : Option ValueId} (h : Lowers p c is out p') (hmalloc : P Library.malloc)
    (hcalls : c.Calls fun f => f ≠ "len" → P f) : Marked P p p' is := by
  induction h with
  | nil | yield => exact Straight.nil.marked fun _ => rfl
  | leaf hn hflat _ _ ih =>
    rw [Code.calls_leaf] at hcalls
    exact ((hflat.straight hmalloc hcalls.1).marked (hn.next_count _)).append (ih hcalls.2)
  | fork _ _ hflat _ iha ihb ih =>
    rw [Code.calls_fork] at hcalls
    exact (hflat.marked (iha hcalls.2.1) (ihb hcalls.2.2.1)).append (ih hcalls.2.2.2)

end Marked

inductive Code.Bodies : Code → List (String × List Instruction) → Prop
  | nil : Bodies nil []
  | function (id : OpId) (label : String) (ty : Ty) (args : List ValueId) {body rest : Code}
      {is : List Instruction} {bs : List (String × List Instruction)} (hbody : body.Reads is)
      (hrest : Bodies rest bs) :
      Bodies (each ⟨id, .funcDef label ty, [], none⟩ args body rest) ((label, is) :: bs)

theorem LowersFunctions.marked {P : String → Prop} {p p' : Progress} {c' : Code}
    (h : LowersFunctions p c c' p') (hc : c.Functions) (hmalloc : P Library.malloc)
    (hcalls : c.Calls fun f => f ≠ "len" → P f) (θ : ValueId → ValueId) :
    ∃ bs, (c'.relabel θ).Bodies bs ∧ bs.map Prod.fst = c.labels ∧ Marked P p p' (bs.flatMap Prod.snd) ∧
      ∀ b ∈ bs, ∀ l ∈ namesOf FlatOp.target? b.2, l ∈ namesOf FlatOp.label? b.2 ∨ ∃ trap :
        Trap, l = trap.routine := by
  induction h with
  | nil => exact ⟨[], .nil, rfl, Straight.nil.marked fun _ => rfl, List.forall_mem_nil _⟩
  | function hbody hreads _ ih =>
    cases hc with
    | function id label ty _ _ hrest =>
      rw [Code.calls_each] at hcalls
      obtain ⟨bs, hbs, hlabels, hmarked, hlocal⟩ := ih hrest hcalls.2.2
      have hown := (hbody.marked hmalloc hcalls.2.1).map θ
      exact ⟨_, .function id label ty _ (hreads.map θ) hbs, congrArg (List.cons label) hlabels,
        hown.append hmarked, List.forall_mem_cons.mpr ⟨hown.targets, hlocal⟩⟩

end Choco.IR
