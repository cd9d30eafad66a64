import Choco.Proofs.Code
import Mathlib.Data.Set.Basic

namespace Choco.IR

variable {values values' : Array ValueInfo} {id : OpId}

/-- The operation that owns a place. -/
def Place.owner? : Place → Option OpId
  | .top => none
  | .nested id _ => some id

/-- Values keep their types and origins, except that an argument without an owner may get one. -/
def Settles (values values' : Array ValueInfo) : Prop :=
  ∀ (i : Nat) (info : ValueInfo), values[i]? = some info → ∃ info', values'[i]? = some info' ∧
    info'.ty = info.ty ∧ (info'.origin = info.origin ∨ ∃ k owner, info.origin = .arg none k ∧
    info'.origin = .arg (some owner) k)

theorem Settles.refl (values : Array ValueInfo) : Settles values values :=
  fun _ info h => ⟨info, h, rfl, .inl rfl⟩

theorem Settles.trans {a b c : Array ValueInfo} (h : Settles a b) (h' : Settles b c) : Settles a c := by
  intro i info hi
  obtain ⟨info₁, h₁, ht₁, ho₁⟩ := h i info hi
  obtain ⟨info₂, h₂, ht₂, ho₂⟩ := h' i info₁ h₁
  refine ⟨info₂, h₂, ht₂.trans ht₁, ?_⟩
  rcases ho₁ with ho₁ | ⟨k, owner, hk, ho₁⟩
  · rw [ho₁] at ho₂
    exact ho₂
  · rcases ho₂ with ho₂ | ⟨k', owner', hk', -⟩
    · exact .inr ⟨k, owner, hk, ho₂.trans ho₁⟩
    · rw [ho₁] at hk'
      cases hk'

theorem Settles.result (h : Settles values values') {i : Nat} {ty : ValueType}
    (hi : values[i]? = some ⟨ty, .result id⟩) :
    values'[i]? = some ⟨ty, .result id⟩ := by
  obtain ⟨⟨ty', origin'⟩, h', ht, ho⟩ := h i _ hi
  rcases ho with ho | ⟨k, owner, hk, -⟩
  · simp only at ht ho
    rw [h', ht, ho]
  · cases hk

theorem Settles.push (values : Array ValueInfo) (info : ValueInfo) : Settles values (values.push info) := by
  intro i info' hi
  have hlt : i < values.size := (Array.getElem?_eq_some_iff.mp hi).1
  refine ⟨info', ?_, rfl, .inl rfl⟩
  rw [Array.getElem?_push, if_neg (Nat.ne_of_lt hlt), hi]

theorem Settles.size_le (h : Settles values values') : values.size ≤ values'.size := by
  by_contra hlt
  have hlt : values'.size < values.size := Nat.lt_of_not_le hlt
  obtain ⟨info, hi, -⟩ := h values'.size _ (Array.getElem?_eq_getElem hlt)
  simp at hi

namespace Module

variable {m m' : Module} {a : ValueId} {c : Code} {parent : Option Place} {n : Node}
  {args : List (List ValueId)}

/-- The module has the operation with one region for each list of arguments. -/
structure HasNode (m : Module) (parent : Option Place) (n : Node) (args : List (List ValueId)) : Prop where
  head : m.head? n.id = some (n.op (args.map fun vs => { args := vs }) parent)
  value : ∀ d, n.result = some d → m.values[d.value.index]? = some ⟨d.ty, .result n.id⟩

/-- The module has all operations of the code, those of the list itself with this parent. -/
def Holds (m : Module) (parent : Option Place) : Code → Prop
  | .nil => True
  | .leaf n rest => m.HasNode parent n [] ∧ Holds m parent rest
  | .each n args body rest =>
    m.HasNode parent n [args] ∧ m.ops? (.nested n.id 0) = some body.ids ∧
      Holds m (some (.nested n.id 0)) body ∧ Holds m parent rest
  | .fork n first second rest =>
    m.HasNode parent n [[], []] ∧ m.ops? (.nested n.id 0) = some first.ids ∧
      m.ops? (.nested n.id 1) = some second.ids ∧ Holds m (some (.nested n.id 0)) first ∧
      Holds m (some (.nested n.id 1)) second ∧ Holds m parent rest

/-- The value is an argument of a region. -/
def IsArg (m : Module) (a : ValueId) : Prop := ∃ ty owner k, m.values[a.index]? = some ⟨ty, .arg owner k⟩

theorem IsArg.settles (h : m.IsArg a) (hvalues : Settles m.values m'.values) : m'.IsArg a := by
  obtain ⟨ty, owner, k, ha⟩ := h
  obtain ⟨⟨ty', origin⟩, ha', -, ho | ⟨k', owner', -, ho⟩⟩ := hvalues a.index _ ha
  · exact ⟨ty', owner, k, ha'.trans (by simp only at ho; rw [ho])⟩
  · exact ⟨ty', some owner', k', ha'.trans (by simp only at ho; rw [ho])⟩

theorem IsArg.lt (h : m.IsArg a) : a.index < m.values.size := by
  obtain ⟨ty, owner, k, ha⟩ := h
  exact (Array.getElem?_eq_some_iff.mp ha).1

theorem head?_eq_none : m.head? id = none ↔ m.get? id = none := by simp [head?]

theorem HasNode.get? (h : m.HasNode parent n args) :
    ∃ regions, m.get? n.id = some (n.op regions parent) ∧ regions.map Region.args = args := by
  obtain ⟨op, hop, hhead⟩ := Option.map_eq_some_iff.mp h.head
  obtain ⟨kind, operands, result, regions, parent'⟩ := op
  simp only [Op.head, Node.op, Op.mk.injEq] at hhead
  obtain ⟨rfl, rfl, rfl, hregions, rfl⟩ := hhead
  refine ⟨regions, hop, ?_⟩
  simpa [Function.comp_def] using congrArg (List.map Region.args) hregions

theorem HasNode.get?_leaf (h : m.HasNode parent n []) : m.get? n.id = some (n.op [] parent) := by
  obtain ⟨regions, hop, hargs⟩ := h.get?
  rwa [List.map_eq_nil_iff.mp hargs] at hop

theorem HasNode.live (h : m.HasNode parent n args) : ∃ op, m.get? n.id = some op := by
  obtain ⟨regions, hop, -⟩ := h.get?
  exact ⟨_, hop⟩

theorem holds_append {d : Code} : m.Holds parent (c ++ d) ↔ m.Holds parent c ∧ m.Holds parent d := by
  induction c with
  | nil => simp [Holds]
  | leaf n rest ih => simp [Holds, ih, and_assoc]
  | each n args body rest _ ih => simp [Holds, ih, and_assoc]
  | fork n first second rest _ _ ih => simp [Holds, ih, and_assoc]

theorem Holds.hasNode (h : m.Holds parent c) (hn : n ∈ c.nodes) : ∃ parent args, m.HasNode parent n args := by
  induction c generalizing parent with
  | nil => simp [Code.nodes] at hn
  | leaf n' rest ih =>
    obtain ⟨hnode, hrest⟩ := h
    rcases List.mem_cons.mp hn with rfl | hn
    · exact ⟨_, _, hnode⟩
    · exact ih hrest hn
  | each n' args body rest ihb ih =>
    obtain ⟨hnode, -, hbody, hrest⟩ := h
    simp only [Code.nodes, List.mem_cons, List.mem_append] at hn
    rcases hn with rfl | hn | hn
    · exact ⟨_, _, hnode⟩
    · exact ihb hbody hn
    · exact ih hrest hn
  | fork n' first second rest iha ihb ih =>
    obtain ⟨hnode, -, -, hfirst, hsecond, hrest⟩ := h
    simp only [Code.nodes, List.mem_cons, List.mem_append] at hn
    rcases hn with rfl | hn | hn | hn
    · exact ⟨_, _, hnode⟩
    · exact iha hfirst hn
    · exact ihb hsecond hn
    · exact ih hrest hn

theorem Holds.live (h : m.Holds parent c) (hid : id ∈ c.allIds) : ∃ op, m.get? id = some op := by
  obtain ⟨n, hn, rfl⟩ := List.mem_map.mp hid
  obtain ⟨parent, args, hnode⟩ := h.hasNode hn
  exact hnode.live

end Module

end Choco.IR
