import Choco.Proofs.Checkpoints
import Choco.Proofs.ExactUsers

namespace Choco.IR

variable {a b : Bool}

/-- Why flattening refuses an operation. What an operator works on is no reason. -/
def Op.refusal? (op : Op) : Option Error :=
  match op.regions.findIdx? (·.ops.isEmpty) with
  | some index => some (.internal (.emptyRegion index op.kind))
  | none => (op.kind.misplaced?.map .passOrdering).or (Node.failure? ⟨⟨0, 0⟩, op.kind, op.operands, none⟩)

theorem Node.failure?_of_hasRegions {n : Node} (h : n.kind.hasRegions) : n.failure? = none := by
  unfold Node.failure?
  split <;> simp_all [Kind.hasRegions]

namespace Op

variable {n : Node} {parent : Option Place}

theorem refusal?_leaf (n : Node) :
    (n.op [] parent).refusal? = (n.kind.misplaced?.map .passOrdering).or n.failure? := rfl

theorem refusal?_each (hn : n.kind.hasRegions) (args : List ValueId) (body : Code) :
    (n.op [{ args, ops := body.ids }] parent).refusal? =
      if body = .nil then some (.internal (.emptyRegion 0 n.kind))
        else n.kind.misplaced?.map .passOrdering := by
  have hfits : Node.failure? ⟨⟨0, 0⟩, n.kind, n.operands, none⟩ = none := Node.failure?_of_hasRegions hn
  by_cases hbody : body = .nil
  · simp [Op.refusal?, Node.op, hbody, Code.ids]
  · have hids : body.ids ≠ [] := fun h => hbody (Build.ids_eq_nil h)
    simp [Op.refusal?, Node.op, hbody, hids, hfits]

theorem refusal?_fork (hn : n.Forks a b) (first second : Code) :
    (n.op [{ ops := first.ids }, { ops := second.ids }] parent).refusal? =
      if first = .nil then some (.internal (.emptyRegion 0 n.kind))
      else if second = .nil then some (.internal (.emptyRegion 1 n.kind)) else none := by
  have hfits : Node.failure? ⟨⟨0, 0⟩, n.kind, n.operands, none⟩ = none :=
    Node.failure?_of_hasRegions (by cases hn <;> rfl)
  have hplaced : n.kind.misplaced? = none := by cases hn <;> rfl
  have hnil (c : Code) : c.ids = [] ↔ c = .nil := ⟨Build.ids_eq_nil, fun h => h ▸ rfl⟩
  by_cases hfirst : first = .nil
  · simp [Op.refusal?, Node.op, findIdx?_isEmpty, hnil, hfirst]
  · by_cases hsecond : second = .nil
    · simp [Op.refusal?, Node.op, findIdx?_isEmpty, hnil, hfirst, hsecond]
    · simp [Op.refusal?, Node.op, findIdx?_isEmpty, hnil, hfirst, hsecond, hplaced, hfits]

theorem refusal?_ne_operator (op : Op) (f : BinaryOp) (ty : Ty) :
    op.refusal? ≠ some (.passOrdering (.operator f ty)) := by
  have hplaced : op.kind.misplaced? ≠ some (.operator f ty) := by
    unfold Kind.misplaced?
    split
    · simp
    · split <;> simp
    · simp
  have hfailure : Node.failure? ⟨⟨0, 0⟩, op.kind, op.operands, none⟩ ≠ some
      (.passOrdering (.operator f ty)) := by
    unfold Node.failure?
    split
    · split <;> simp
    · split <;> simp
    · split <;> simp
    · simp
  unfold Op.refusal?
  split
  · simp
  · cases hkind : op.kind.misplaced? with
    | none => simpa using hfailure
    | some cause => simpa [hkind] using hplaced

end Op

namespace Module

variable {m : Module} {id : OpId} {op : Op} {n : Node} {c : Code} {parent : Option Place}
  {ids ids' : List OpId} {r r' : Option Error}

/-- The type of the sequence that an operation works on with an operator that needs a routine of the
library. -/
def sequence? (m : Module) (op : Op) : Option Ty :=
  match op.kind, op.operands with
  | .binary f, x :: _ => Build.needsLibrary f ((m.valueType x).toOption.bind ValueType.source?)
  | _, _ => none

/-- The reason is that of one of these operations; if there is none, none of them has one. -/
structure Refuses (m : Module) (ids : List OpId) (r : Option Error) : Prop where
  found : ∀ e, r = some e → ∃ id ∈ ids, ∃ op, m.get? id = some op ∧ op.refusal? = some e
  clear : r = none → ∀ id ∈ ids, ∀ op, m.get? id = some op → op.refusal? = none

namespace Refuses

theorem nil : m.Refuses [] none := ⟨fun _ he => (by cases he), fun _ _ hid => (by cases hid)⟩

theorem single (h : m.get? id = some op) : m.Refuses [id] op.refusal? := by
  refine ⟨fun e he => ⟨id, List.mem_singleton_self id, op, h, he⟩, fun hnone x hx op' hop' => ?_⟩
  obtain rfl := List.mem_singleton.mp hx
  cases h.symm.trans hop'
  exact hnone

theorem or (h : m.Refuses ids r) (h' : m.Refuses ids' r') : m.Refuses (ids ++ ids') (r.or r') := by
  refine ⟨fun e he => ?_, fun hnone x hx => ?_⟩
  · obtain hr | ⟨-, hr⟩ := Option.or_eq_some_iff.mp he
    · obtain ⟨x, hx, hop⟩ := h.found e hr
      exact ⟨x, List.mem_append_left _ hx, hop⟩
    · obtain ⟨x, hx, hop⟩ := h'.found e hr
      exact ⟨x, List.mem_append_right _ hx, hop⟩
  · obtain ⟨hr, hr'⟩ := Option.or_eq_none_iff.mp hnone
    exact (List.mem_append.mp hx).elim (h.clear hr x) (h'.clear hr' x)

theorem of_subset {e : Error} (h : m.Refuses ids (some e)) (hsub : ids ⊆ ids') : m.Refuses ids' (some e) := by
  refine ⟨fun e' he => ?_, fun hnone => by cases hnone⟩
  obtain ⟨x, hx, hop⟩ := h.found e' he
  exact ⟨x, hsub hx, hop⟩

theorem of_perm (h : m.Refuses ids r) (hperm : ids.Perm ids') : m.Refuses ids' r := by
  refine ⟨fun e he => ?_, fun hnone x hx => h.clear hnone x (hperm.mem_iff.mpr hx)⟩
  obtain ⟨x, hx, hop⟩ := h.found e he
  exact ⟨x, hperm.mem_iff.mp hx, hop⟩

end Refuses

section Regions

variable {args : List ValueId} {body first second : Code}

theorem HasNode.refuses_each (h : m.HasNode parent n [args]) (hids : m.ops? (.nested n.id 0) = some body.ids)
    (hn : n.kind.hasRegions) (hbody : m.Refuses body.allIds body.refusal?) :
    m.Refuses (n.id :: body.allIds) (if body = .nil then some (.internal (.emptyRegion 0 n.kind))
      else body.refusal?.or (n.kind.misplaced?.map .passOrdering)) := by
  have hop := Refuses.single (h.regions_each hids)
  rw [Op.refusal?_each hn] at hop
  by_cases hempty : body = .nil
  · rw [if_pos hempty] at hop ⊢
    exact hop.of_subset (by simp)
  · rw [if_neg hempty] at hop ⊢
    exact (hbody.or hop).of_perm (List.perm_append_singleton _ _)

theorem HasNode.refuses_fork (h : m.HasNode parent n [[], []])
    (hids₁ : m.ops? (.nested n.id 0) = some first.ids) (hids₂ : m.ops? (.nested n.id 1) = some second.ids)
    (hn : n.Forks a b) (hfirst : m.Refuses first.allIds first.refusal?)
    (hsecond : m.Refuses second.allIds second.refusal?) :
    m.Refuses (n.id :: (first.allIds ++ second.allIds))
      (if first = .nil then some (.internal (.emptyRegion 0 n.kind))
      else if second = .nil then some (.internal (.emptyRegion 1 n.kind))
        else first.refusal?.or second.refusal?) := by
  have hop := Refuses.single (h.regions_fork hids₁ hids₂)
  rw [Op.refusal?_fork hn] at hop
  by_cases hempty₁ : first = .nil
  · rw [if_pos hempty₁] at hop ⊢
    exact hop.of_subset (by simp)
  rw [if_neg hempty₁] at hop ⊢
  by_cases hempty₂ : second = .nil
  · rw [if_pos hempty₂] at hop ⊢
    exact hop.of_subset (by simp)
  rw [if_neg hempty₂] at hop ⊢
  exact hop.or (hfirst.or hsecond)

end Regions

theorem Holds.refuses {y : Bool} (hc : m.Holds parent c) (h : c.Shaped y) :
    m.Refuses c.allIds c.refusal? := by
  induction h generalizing parent with
  | nil => exact .nil
  | yield id x => exact .single hc.1.get?_leaf
  | @leaf y n rest hn _ ih =>
    have hleaf := Refuses.single hc.1.get?_leaf
    rw [Op.refusal?_leaf] at hleaf
    exact hleaf.or (ih hc.2)
  | @loop y id x location body rest _ _ ihb ih =>
    obtain ⟨hnode, hids, hbody, hrest⟩ := hc
    rw [Code.allIds_each, ← List.cons_append]
    exact (hnode.refuses_each hids rfl (ihb hbody)).or (ih hrest)
  | @fork y a b n first second rest hn _ _ _ iha ihb ih =>
    obtain ⟨hnode, hids₁, hids₂, hfirst, hsecond, hrest⟩ := hc
    rw [Code.allIds_fork, ← List.append_assoc, ← List.cons_append]
    exact (hnode.refuses_fork hids₁ hids₂ hn (iha hfirst) (ihb hsecond)).or (ih hrest)

theorem Holds.refuses_functions (hc : m.Holds parent c) (h : c.Functions) :
    m.Refuses c.allIds c.refusal? := by
  induction h with
  | nil => exact .nil
  | function id label ty args hbody _ ih =>
    obtain ⟨hnode, hids, hholds, hrest⟩ := hc
    rw [Code.allIds_each, ← List.cons_append]
    exact (hnode.refuses_each hids rfl (hholds.refuses hbody)).or (ih hrest)

end Module

/-- A module that was just translated becomes flat exactly if no operation is refused for its kind, its size
or an empty region. Operators on sequences are never refused; they become arithmetic on the addresses. -/
theorem flatten_translated {p : Program} {m : Module} (h : Module.ofProgram p = .ok m) :
    ((∃ k m', Edit.flatten m = .ok k m') ↔ ∀ id ∈ m.walk, ∀ op, m.get? id = some op → op.refusal? = none) ∧
      (∀ e m', Edit.flatten m = .error e m' →
        (∃ id ∈ m.walk, ∃ op, m.get? id = some op ∧ op.refusal? = some e) ∧
          ∀ f ty, e ≠ .passOrdering (.operator f ty)) ∧
      ∀ k m', Edit.flatten m = .ok k m' →
        ∃ c c' θ q, m.Models c .nil ∧ m'.Models (c'.relabel θ) .nil ∧ LowersFunctions {} c c' q := by
  obtain ⟨c, hrenders, -⟩ := ofProgram_renders h
  have hrefuses := hrenders.models.holds.refuses_functions hrenders.functions
  rw [← hrenders.models.walk] at hrefuses
  obtain ⟨m₁, θ, c', q, hrun, hnamed, hlowers, hnone⟩ | ⟨e, m₁, hrun, hsome⟩ := hrenders.flatten_or_refuse
  · refine ⟨⟨fun _ => hrefuses.clear hnone, fun _ => ⟨_, m₁, hrun⟩⟩, fun e m' he => ?_, fun k m' hk => ?_⟩
    · cases hrun.symm.trans he
    · cases hrun.symm.trans hk
      exact ⟨c, c', θ, q, hrenders.models, hnamed.models, hlowers⟩
  · obtain ⟨id, hid, op, hop, hrefusal⟩ := hrefuses.found e hsome
    refine ⟨⟨fun hflat => ?_, fun hnone => ?_⟩, fun e' m' he => ?_, fun k m' hk => ?_⟩
    · obtain ⟨k, m', hk⟩ := hflat
      cases hrun.symm.trans hk
    · cases hrefusal.symm.trans (hnone id hid op hop)
    · cases hrun.symm.trans he
      exact ⟨⟨id, hid, op, hop, hrefusal⟩,
        fun f ty he => op.refusal?_ne_operator f ty (hrefusal.trans (congrArg some he))⟩
    · cases hrun.symm.trans hk

/-- A comparison of lists in a condition: `if x == [1] + [2]: x = [3]`. -/
def comparedLists : Program :=
  let x : Expr := .name "x" (.list .int)
  let sum : Expr := .binary .add (.list [.ofInt 1] (.list .int)) (.list [.ofInt 2] (.list .int)) (.list .int)
  { decls := [.var ⟨"x", .list .int, .none⟩]
    stmts := [.ifElse (.binary .eq x sum .bool) [.assign ⟨x, [], .list [.ofInt 3] (.list .int)⟩] []] }

theorem comparedLists_flattens :
    ∃ m, Module.ofProgram comparedLists = .ok m ∧
      ((∃ k m', Edit.flatten m = .ok k m') ↔ ∀ id ∈ m.walk, ∀ op, m.get? id = some op → op.refusal? = none) ∧
      (∀ e m', Edit.flatten m = .error e m' →
        (∃ id ∈ m.walk, ∃ op, m.get? id = some op ∧ op.refusal? = some e) ∧
          ∀ f ty, e ≠ .passOrdering (.operator f ty)) ∧
      ∀ k m', Edit.flatten m = .ok k m' →
        ∃ c c' θ q, m.Models c .nil ∧ m'.Models (c'.relabel θ) .nil ∧ LowersFunctions {} c c' q := by
  have hok : (Module.ofProgram comparedLists).isOk := by decide +kernel
  cases hm : Module.ofProgram comparedLists with
  | error e =>
    rw [hm] at hok
    cases hok
  | ok m => exact ⟨m, rfl, flatten_translated hm⟩

/-- Two texts joined, and nothing done with the result: `"a" + "b"`. -/
def joinedTexts : Program where
  decls := []
  stmts := [.expr (.binary .add (.ofStr "a") (.ofStr "b") .str)]

/-- The texts are joined by adding their addresses. -/
theorem joinedTexts_unchecked :
    ∃ m k m', Module.ofProgram joinedTexts = .ok m ∧ Edit.flatten m = .ok k m' ∧
      (∃ id ∈ m.walk, ∃ op, m.get? id = some op ∧ op.kind = .binary .add ∧ m.sequence? op = some .str) ∧
      ∃ id ∈ m'.walk, ∃ op, m'.get? id = some op ∧ op.kind = .flat (.alu .add) := by
  have hcheck : (Module.ofProgram joinedTexts).toOption.any (fun m => Edit.flatten.succeeds m &&
      (m.walk.any fun id => (m.get? id).any fun op => op.kind = .binary .add && m.sequence? op = some .str) &&
      (Edit.flatten.left m).walk.any fun id =>
        ((Edit.flatten.left m).get? id).any (·.kind = .flat (.alu .add))) = true := by
    decide +kernel
  cases hm : Module.ofProgram joinedTexts with
  | error e =>
    rw [hm] at hcheck
    cases hcheck
  | ok m =>
    rw [hm] at hcheck
    simp only [Except.toOption, Option.any_some, Bool.and_eq_true, List.any_eq_true, Option.any_eq_true,
      decide_eq_true_eq] at hcheck
    obtain ⟨⟨hrun, hoperator⟩, hsum⟩ := hcheck
    obtain ⟨k, hk⟩ := Edit.exists_ok_left hrun
    exact ⟨m, k, _, rfl, hk, hoperator, hsum⟩

end Choco.IR
