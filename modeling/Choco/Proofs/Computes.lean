import Choco.Proofs.Passes

namespace Choco

/-- The word that a literal stands for; strings live in memory. -/
def Literal.word? : Literal → Option Int32
  | .int n => some n
  | .bool b => some (Word.ofBool b)
  | .none => some 0
  | .str _ => Option.none

def UnaryOp.word : UnaryOp → Int32 → Int32
  | .neg, x => -x
  | .not, x => Word.ofBool (x = 0)

/-- The word that an operator computes from two words, unless it stops the program. The operators that may
leave out their right operand are none of these. -/
def BinaryOp.word? : BinaryOp → Int32 → Int32 → Option Int32
  | .add, x, y => some (x + y)
  | .sub, x, y => some (x - y)
  | .mul, x, y => some (x * y)
  | .floorDiv, x, y => Word.floorDiv? x y
  | .mod, x, y => Word.floorMod? x y
  | .eq, x, y | .is, x, y => some (Word.ofBool (x = y))
  | .notEq, x, y => some (Word.ofBool (x ≠ y))
  | .lt, x, y => some (Word.ofBool (x < y))
  | .ltEq, x, y => some (Word.ofBool (x ≤ y))
  | .gt, x, y => some (Word.ofBool (y < x))
  | .gtEq, x, y => some (Word.ofBool (y ≤ x))
  | .and, _, _ | .or, _, _ => none

theorem BinaryOp.exists_word {f : BinaryOp} (htrap : f.canTrap = false) (hstrict : f.isShortCircuit = false)
    (x y : Int32) :
    ∃ w, f.word? x y = some w := by
  cases f <;> simp_all [word?, canTrap, isShortCircuit]

namespace IR

variable {k : Kind}

/-- Kinds of operations whose result is a word computed from the words of the operands alone. -/
def Kind.isComputed : Kind → Bool
  | .literal l => l.word?.isSome
  | .unary _ => true
  | .binary f => !f.canTrap
  | _ => false

/-- The word of a value, when `D` says what defines each value and `ρ` gives the words of those that are not
computed. -/
inductive Computes (D : ValueId → Kind → List ValueId → Prop) (ρ : ValueId → Int32) : ValueId → Int32 → Prop
  | literal {v : ValueId} {l : Literal} {w : Int32} (h : D v (.literal l) []) (hw : l.word? = some w) :
    Computes D ρ v w
  | unary {v x : ValueId} {f : UnaryOp} {a : Int32} (h : D v (.unary f) [x]) (hx : Computes D ρ x a) :
      Computes D ρ v (f.word a)
  | binary {v x y : ValueId} {f : BinaryOp} {a b w : Int32} (h : D v (.binary f) [x, y])
      (htrap : f.canTrap = false) (hx : Computes D ρ x a) (hy : Computes D ρ y b)
      (hw : f.word? a b = some w) : Computes D ρ v w
  | given {v : ValueId} (h : ∀ k xs, D v k xs → k.isComputed = false) : Computes D ρ v (ρ v)

namespace Computes

variable {D D' : ValueId → Kind → List ValueId → Prop} {ρ ρ' : ValueId → Int32} {v : ValueId} {w w' : Int32}

theorem unique (hD : ∀ v k xs k' xs', D v k xs → D v k' xs' → k = k' ∧ xs = xs') (h : Computes D ρ v w)
    (h' : Computes D ρ v w') : w = w' := by
  induction h generalizing w' with
  | literal hdef hw =>
    cases h' with
    | literal hdef' hw' =>
      cases (hD _ _ _ _ _ hdef hdef').1
      exact Option.some.inj (hw.symm.trans hw')
    | unary hdef' _ | binary hdef' _ _ _ _ => cases (hD _ _ _ _ _ hdef hdef').1
    | given hgiven => exact absurd (hgiven _ _ hdef) (by simp [Kind.isComputed, hw])
  | unary hdef _ ih =>
    cases h' with
    | unary hdef' hx' =>
      obtain ⟨hk, hxs⟩ := hD _ _ _ _ _ hdef hdef'
      cases hk
      cases hxs
      rw [ih hx']
    | literal hdef' _ | binary hdef' _ _ _ _ => cases (hD _ _ _ _ _ hdef hdef').1
    | given hgiven => cases hgiven _ _ hdef
  | binary hdef htrap _ _ hw ihx ihy =>
    cases h' with
    | binary hdef' _ hx' hy' hw' =>
      obtain ⟨hk, hxs⟩ := hD _ _ _ _ _ hdef hdef'
      cases hk
      cases hxs
      rw [ihx hx', ihy hy', hw'] at hw
      exact (Option.some.inj hw).symm
    | literal hdef' _ | unary hdef' _ => cases (hD _ _ _ _ _ hdef hdef').1
    | given hgiven => exact absurd (hgiven _ _ hdef) (by simp [Kind.isComputed, htrap])
  | given hgiven =>
    cases h' with
    | literal hdef' hw' => exact absurd (hgiven _ _ hdef') (by simp [Kind.isComputed, hw'])
    | unary hdef' _ => cases hgiven _ _ hdef'
    | binary hdef' htrap' _ _ _ => exact absurd (hgiven _ _ hdef') (by simp [Kind.isComputed, htrap'])
    | given => rfl

theorem transfer (f : ValueId → ValueId) (good : ValueId → Prop)
    (hdef : ∀ v k xs, good v → D v k xs → k.isComputed → D' (f v) k (xs.map f) ∧ ∀ x ∈ xs, good x)
    (hgiven : ∀ v, good v → (∀ k xs, D v k xs → k.isComputed = false) →
      (∀ k xs, D' (f v) k xs → k.isComputed = false) ∧ ρ' (f v) = ρ v)
    (h : Computes D ρ v w) (hv : good v) : Computes D' ρ' (f v) w := by
  induction h with
  | literal h hw => exact .literal (hdef _ _ _ hv h (by simp [Kind.isComputed, hw])).1 hw
  | unary h _ ih =>
    obtain ⟨h, hxs⟩ := hdef _ _ _ hv h rfl
    exact .unary h (ih (hxs _ (by simp)))
  | binary h htrap _ _ hw ihx ihy =>
    obtain ⟨h, hxs⟩ := hdef _ _ _ hv h (by simp [Kind.isComputed, htrap])
    exact .binary h htrap (ihx (hxs _ (by simp))) (ihy (hxs _ (by simp))) hw
  | given h =>
    obtain ⟨h, hρ⟩ := hgiven _ hv h
    rw [← hρ]
    exact .given h

end Computes

/-- The operation that defines a value is of this kind and has these operands. -/
def Module.Defines (m : Module) (v : ValueId) (k : Kind) (xs : List ValueId) : Prop :=
  ∃ op, m.definingOp? v = some op ∧ op.kind = k ∧ op.operands = xs

theorem Module.Defines.unique {m : Module} (v : ValueId) (k : Kind) (xs : List ValueId) (k' : Kind)
    (xs' : List ValueId) (h : m.Defines v k xs) (h' : m.Defines v k' xs') : k = k' ∧ xs = xs' := by
  obtain ⟨op, hop, rfl, rfl⟩ := h
  obtain ⟨op', hop', rfl, rfl⟩ := h'
  cases hop.symm.trans hop'
  exact ⟨rfl, rfl⟩

def Code.Defines (c : Code) (v : ValueId) (k : Kind) (xs : List ValueId) : Prop :=
  ∃ n ∈ c.nodes, v ∈ n.results ∧ n.kind = k ∧ n.operands = xs

namespace Code

variable {c c₁ d : Code} {ρ : ValueId → Int32} {v : ValueId} {w : Int32} {A S : ValueId → Prop} {n : Node}
  {x : ValueId} {R : Node → Code → Prop}

theorem Defines.unique (h : c.results.Nodup) (v : ValueId) (k : Kind) (xs : List ValueId) (k' : Kind)
    (xs' : List ValueId) (hv : c.Defines v k xs) (hv' : c.Defines v k' xs') : k = k' ∧ xs = xs' := by
  obtain ⟨n, hn, hv, rfl, rfl⟩ := hv
  obtain ⟨n', hn', hv', rfl, rfl⟩ := hv'
  rw [eq_of_mem_results h hn hn' hv hv']
  exact ⟨rfl, rfl⟩

theorem exists_computes_node (hnodup : c.results.Nodup) (hn : n ∈ c.nodes)
    (hplain : n.kind.isComputed → n.Plain)
    (hoperands : n.kind.isComputed → ∀ x ∈ n.operands, ∃ a, Computes c.Defines ρ x a) (hv : v ∈ n.results) :
    ∃ w, Computes c.Defines ρ v w := by
  cases hcomputed : n.kind.isComputed with
  | false =>
    refine ⟨ρ v, .given fun k xs ⟨n', hn', hv', hk, _⟩ => ?_⟩
    rw [← hk, ← eq_of_mem_results hnodup hn hn' hv hv', hcomputed]
  | true =>
    have hoperands := hoperands hcomputed
    obtain ⟨id, kind, operands, result⟩ := n
    cases hplain hcomputed with
    | literal id l r =>
      obtain ⟨w, hw⟩ := Option.isSome_iff_exists.mp hcomputed
      exact ⟨w, .literal ⟨_, hn, hv, rfl, rfl⟩ hw⟩
    | unary id f x r =>
      obtain ⟨a, ha⟩ := hoperands x (by simp)
      exact ⟨_, .unary ⟨_, hn, hv, rfl, rfl⟩ ha⟩
    | binary id f x y r hstrict =>
      obtain ⟨a, ha⟩ := hoperands x (by simp)
      obtain ⟨b, hb⟩ := hoperands y (by simp)
      have htrap : f.canTrap = false := by simpa [Kind.isComputed] using hcomputed
      obtain ⟨w, hw⟩ := f.exists_word htrap hstrict a b
      exact ⟨w, .binary ⟨_, hn, hv, rfl, rfl⟩ htrap ha hb hw⟩
    | _ => cases hcomputed

theorem Node.Sees.operands (h : n.Sees A S) (hcomputed : n.kind.isComputed) (hx : x ∈ n.operands) : S x := by
  refine (h x hx).resolve_right fun hstore => ?_
  cases hk : n.kind <;> simp_all [Kind.isComputed, Kind.isStore]

theorem not_isComputed_of_hasRegions (h : k.hasRegions) : k.isComputed = false := by
  cases k <;> simp_all [Kind.hasRegions, Kind.isComputed]

theorem Scoped.exists_computes (hnodup : d.results.Nodup) (hd : ∀ n ∈ d.nodes, n.kind.isComputed → n.Plain)
    (h : c.Scoped A S) (hsub : c.nodes ⊆ d.nodes) (hS : ∀ v, S v → ∃ w, Computes d.Defines ρ v w) :
    ∀ v ∈ c.results, ∃ w, Computes d.Defines ρ v w := by
  have hnode {n : Node} {A S : ValueId → Prop} (hn : n ∈ d.nodes) (hsees : n.Sees A S)
      (hS : ∀ v, S v → ∃ w, Computes d.Defines ρ v w) :
        ∀ v ∈ n.results, ∃ w, Computes d.Defines ρ v w := fun v =>
    exists_computes_node hnodup hn (hd n hn) fun hcomputed x hx =>
      hS x (Node.Sees.operands hsees hcomputed hx)
  have hmore {n : Node} {S : ValueId → Prop} (hn : ∀ v ∈ n.results, ∃ w, Computes d.Defines ρ v w)
      (hS : ∀ v, S v → ∃ w, Computes d.Defines ρ v w) :
        ∀ v, v ∈ n.results ∨ S v → ∃ w, Computes d.Defines ρ v w :=
    fun v => Or.rec (hn v) (hS v)
  induction c generalizing A S with
  | nil => exact nofun
  | leaf n rest ih =>
    rw [nodes, List.cons_subset] at hsub
    have hn := hnode hsub.1 h.1 hS
    rw [results_leaf, List.forall_mem_append]
    exact ⟨hn, ih h.2 hsub.2 (hmore hn hS)⟩
  | each n args body rest ihb ih =>
    rw [nodes, List.cons_subset, List.append_subset] at hsub
    have hn := hnode hsub.1 h.1 hS
    rw [results_each, List.forall_mem_append, List.forall_mem_append]
    exact ⟨hn, ihb h.2.1 hsub.2.1 hS, ih h.2.2 hsub.2.2 (hmore hn hS)⟩
  | fork n first second rest iha ihb ih =>
    rw [nodes, List.cons_subset, List.append_subset, List.append_subset] at hsub
    have hn := hnode hsub.1 h.1 hS
    rw [results_fork, List.forall_mem_append, List.forall_mem_append, List.forall_mem_append]
    exact ⟨hn, iha h.2.1 hsub.2.1 hS, ihb h.2.2.1 hsub.2.2.1 hS, ih h.2.2.2 hsub.2.2.2 (hmore hn hS)⟩

theorem ScopedFunctions.exists_computes (hnodup : d.results.Nodup)
    (hd : ∀ n ∈ d.nodes, n.kind.isComputed → n.Plain) (h : c.ScopedFunctions S) (hsub : c.nodes ⊆ d.nodes)
    (hS : ∀ v, S v → ∃ w, Computes d.Defines ρ v w) :
    ∀ v ∈ c.results, ∃ w, Computes d.Defines ρ v w := by
  have halloc {c : Code} (hsub : c.nodes ⊆ d.nodes) (v : ValueId) (hv : v ∈ c.resultsOf Kind.isAlloc) :
      ∃ w, Computes d.Defines ρ v w := by
    obtain ⟨n, hn, halloc, hv⟩ := (mem_resultsOf _).mp hv
    have hcomputed : n.kind.isComputed = false := by
      cases hk : n.kind <;> simp_all [Kind.isAlloc, Kind.isComputed]
    exact exists_computes_node hnodup (hsub hn) (by simp [hcomputed]) (by simp [hcomputed]) hv
  induction c generalizing S with
  | nil => simp
  | each n args body rest _ ih =>
    rw [nodes, List.cons_subset, List.append_subset] at hsub
    obtain ⟨hn, hbody, hrest⟩ := h
    rw [results_each, List.forall_mem_append, List.forall_mem_append]
    refine ⟨fun v => exists_computes_node hnodup hsub.1 (hd n hsub.1) (by simp [hn]),
      hbody.exists_computes hnodup hd hsub.2.1 fun v => Or.rec (hS v) (halloc hsub.2.2 v),
      ih hrest hsub.2.2 fun v => Or.rec (hS v) (halloc hsub.2.1 v)⟩
  | leaf | fork => cases h

theorem computes_of_not_mem (hv : v ∉ c.results) : Computes c.Defines ρ v (ρ v) :=
  .given fun _ _ ⟨n, hn, hv', _⟩ => absurd (List.mem_flatMap.mpr ⟨n, hn, hv'⟩) hv

/-- The operations that an operation becomes where `R` rewrites those without regions. -/
def Becomes (R : Node → Code → Prop) (n : Node) (ns : List Node) : Prop :=
  ns = [n] ∨ ∃ e, R n e ∧ ns = e.nodes

theorem Maps.exists_becomes (h : c.Maps R d) : ∃ nss, List.Forall₂ (Becomes R) c.nodes nss ∧
    d.nodes = nss.flatten := by
  induction c generalizing d with
  | nil => exact ⟨[], .nil, by rw [h]; rfl⟩
  | leaf n rest ih =>
    obtain ⟨e, rest', rfl, he, hrest⟩ := h
    obtain ⟨nss, hnss, hnodes⟩ := ih hrest
    exact ⟨e.nodes :: nss, .cons (.inr ⟨e, he, rfl⟩) hnss, by rw [nodes_append, hnodes, List.flatten_cons]⟩
  | each n args body rest ihb ih =>
    obtain ⟨body', rest', rfl, hbody, hrest⟩ := h
    obtain ⟨nss₁, hnss₁, hnodes₁⟩ := ihb hbody
    obtain ⟨nss₂, hnss₂, hnodes₂⟩ := ih hrest
    refine ⟨[n] :: (nss₁ ++ nss₂), .cons (.inl rfl) (List.rel_append hnss₁ hnss₂), ?_⟩
    simp [nodes, hnodes₁, hnodes₂]
  | fork n first second rest iha ihb ih =>
    obtain ⟨first', second', rest', rfl, hfirst, hsecond, hrest⟩ := h
    obtain ⟨nss₁, hnss₁, hnodes₁⟩ := iha hfirst
    obtain ⟨nss₂, hnss₂, hnodes₂⟩ := ihb hsecond
    obtain ⟨nss₃, hnss₃, hnodes₃⟩ := ih hrest
    refine ⟨[n] :: (nss₁ ++ (nss₂ ++ nss₃)),
      .cons (.inl rfl) (List.rel_append hnss₁ (List.rel_append hnss₂ hnss₃)), ?_⟩
    simp [nodes, hnodes₁, hnodes₂, hnodes₃]

theorem Maps.of_mem (h : c.Maps R d) (hn : n ∈ c.nodes) : ∃ ns, Becomes R n ns ∧ ns ⊆ d.nodes := by
  obtain ⟨nss, hnss, hnodes⟩ := h.exists_becomes
  obtain ⟨i, hi, rfl⟩ := List.mem_iff_getElem.mp hn
  have hi' : i < nss.length := hnss.length_eq ▸ hi
  refine ⟨nss[i], hnss.get hi hi', fun n' hn' => ?_⟩
  rw [hnodes]
  exact List.mem_flatten.mpr ⟨nss[i], List.getElem_mem hi', hn'⟩

theorem Maps.mem_nodes (h : c.Maps R d) {n' : Node} (hn' : n' ∈ d.nodes) :
    ∃ n ∈ c.nodes, ∃ ns, Becomes R n ns ∧ n' ∈ ns := by
  obtain ⟨nss, hnss, hnodes⟩ := h.exists_becomes
  rw [hnodes] at hn'
  obtain ⟨ns, hns, hn'⟩ := List.mem_flatten.mp hn'
  obtain ⟨i, hi, rfl⟩ := List.mem_iff_getElem.mp hns
  have hi' : i < c.nodes.length := hnss.length_eq ▸ hi
  exact ⟨c.nodes[i], List.getElem_mem hi', nss[i], hnss.get hi' hi, hn'⟩

theorem becomes_fold {ns : List Node} (h : Becomes (FoldCode c₁) n ns) :
    ns = [n] ∨ ∃ id x y j k r, n.kind = .binary .add ∧ n.operands = [x, y] ∧ n.result = some r ∧
      c₁.HasLiteral x j ∧ c₁.HasLiteral y k ∧
        ns = [⟨id, .literal (.int (j + k)), [], some ⟨r.value, .plain .int⟩⟩] := by
  obtain rfl | ⟨e, he, rfl⟩ := h
  · exact .inl rfl
  · cases he with
    | keep => exact .inl rfl
    | sum id x y j k r hkind hoperands hr hx hy =>
      exact .inr ⟨id, x, y, j, k, r, hkind, hoperands, hr, hx, hy, rfl⟩

theorem HasLiteral.computes {k : Int32} (h : c.HasLiteral x k)
    (hc : ∀ n ∈ c.nodes, n.kind.isComputed → n.Plain) :
    Computes c.Defines ρ x k := by
  obtain ⟨n, hn, hkind, ty, hr⟩ := h
  have hplain := hc n hn (by rw [hkind]; rfl)
  obtain ⟨id, kind, operands, result⟩ := n
  cases hkind
  cases hplain
  cases hr
  exact .literal ⟨_, hn, by simp [Node.results], rfl, rfl⟩ rfl

theorem computes_fold (hmaps : c.Maps (FoldCode c₁) c₁) (hnodup₁ : c₁.results.Nodup)
    (hc₁ : ∀ n ∈ c₁.nodes, n.kind.isComputed → n.Plain) (h : Computes c.Defines ρ v w) :
    Computes c₁.Defines ρ v w := by
  have hkept {v : ValueId} {k : Kind} {xs : List ValueId} (h : c.Defines v k xs) (hk : k ≠ .binary .add) :
      c₁.Defines v k xs := by
    obtain ⟨n, hn, hv, rfl, rfl⟩ := h
    obtain ⟨ns, hns, hsub⟩ := hmaps.of_mem hn
    obtain rfl | ⟨-, -, -, -, -, -, hkind, -⟩ := becomes_fold hns
    · exact ⟨n, hsub (by simp), hv, rfl, rfl⟩
    · exact absurd hkind hk
  induction h with
  | literal h hw => exact .literal (hkept h nofun) hw
  | unary h _ ih => exact .unary (hkept h nofun) ih
  | @binary v x y f a b w h htrap _ _ hw ihx ihy =>
    obtain ⟨n, hn, hv, hkind, hoperands⟩ := h
    obtain ⟨ns, hns, hsub⟩ := hmaps.of_mem hn
    obtain rfl | ⟨id, x', y', j, k, r, hadd, hxy, hr, hx', hy', rfl⟩ := becomes_fold hns
    · exact .binary ⟨n, hsub (by simp), hv, hkind, hoperands⟩ htrap ihx ihy hw
    · -- The operands are literals by now, so that their sum is the word of the new literal.
      cases hkind.symm.trans hadd
      cases hoperands.symm.trans hxy
      obtain rfl : a = j := ihx.unique (Defines.unique hnodup₁) (hx'.computes hc₁)
      obtain rfl : b = k := ihy.unique (Defines.unique hnodup₁) (hy'.computes hc₁)
      cases hw
      obtain rfl : v = r.value := by simpa [Node.results, hr] using hv
      exact .literal ⟨_, hsub List.mem_cons_self, by simp [Node.results], rfl, rfl⟩ rfl
  | @given v h =>
    refine .given fun k xs ⟨n', hn', hv', hk, hxs⟩ => ?_
    obtain ⟨n, hn, ns, hns, hin⟩ := hmaps.mem_nodes hn'
    obtain rfl | ⟨id, x', y', j, k', r, hadd, hxy, hr, hx', hy', rfl⟩ := becomes_fold hns
    · obtain rfl := List.mem_singleton.mp hin
      exact h k xs ⟨_, hn, hv', hk, hxs⟩
    · obtain rfl := List.mem_singleton.mp hin
      have hv : v ∈ n.results := by simpa [Node.results, hr] using hv'
      cases h _ _ ⟨n, hn, hv, hadd, hxy⟩

theorem computes_sweep (hnodup : c.results.Nodup)
    (hclosed : ∀ x ∈ c.sweep.uses, x ∈ c.sweep.results ∨ x ∉ c.results)
    (hv : v ∈ c.sweep.results ∨ v ∉ c.results) (h : Computes c.Defines ρ v w) :
    Computes c.sweep.Defines ρ v w := by
  refine h.transfer (fun v => v) (fun v => v ∈ c.sweep.results ∨ v ∉ c.results) (fun v k xs hv h _ => ?_)
    (fun v _ h => ⟨fun k xs ⟨n, hn, hv, hk⟩ => h k xs ⟨n, mem_nodes_sweep hn, hv, hk⟩, rfl⟩) hv
  obtain ⟨n, hn, hvn, rfl, rfl⟩ := h
  obtain hv | hv := hv
  · obtain ⟨n', hn', hv'⟩ := List.mem_flatMap.mp hv
    obtain rfl := eq_of_mem_results hnodup hn (mem_nodes_sweep hn') hvn hv'
    refine ⟨by rw [List.map_id']; exact ⟨n, hn', hvn, rfl, rfl⟩, fun x hx => hclosed x ?_⟩
    exact List.mem_flatMap.mpr ⟨n, hn', hx⟩
  · exact absurd (List.mem_flatMap.mpr ⟨n, hn, hvn⟩) hv

end Code

open Choco.IR.Module Code

section Names

variable {N : Nat} {m : Module} {θ : ValueId → ValueId} {c : Code} {ρ : ValueId → Int32} {v : ValueId}
  {w : Int32}

theorem Named.computes_relabel (h : Named N m θ c)
    (hfix : ∀ v ∈ c.results, (∀ k xs, c.Defines v k xs → k.isComputed = false) → θ v = v)
    (hv : v ∈ c.results ∨ v ∈ c.args) (hw : Computes c.Defines ρ v w) :
    Computes (c.relabel θ).Defines ρ (θ v) w := by
  refine hw.transfer θ (fun v => v ∈ c.results ∨ v ∈ c.args) (fun v k xs hv hdef _ => ?_)
    (fun v hv hgiven => ⟨?_, ?_⟩) hv
  · obtain ⟨n, hn, hv, rfl, rfl⟩ := hdef
    refine ⟨⟨n.map θ θ, ?_, ?_, rfl, rfl⟩, fun x hx => h.closed x (List.mem_flatMap.mpr ⟨n, hn, hx⟩)⟩
    · rw [Code.relabel, nodes_map]
      exact List.mem_map_of_mem hn
    · rw [Node.results_map]
      exact List.mem_map_of_mem hv
  · rintro k xs ⟨n', hn', hv', rfl, rfl⟩
    rw [Code.relabel, nodes_map] at hn'
    obtain ⟨n, hn, rfl⟩ := List.mem_map.mp hn'
    rw [Node.results_map] at hv'
    obtain ⟨u, hu, he⟩ := List.mem_map.mp hv'
    have hin : u ∈ c.results := List.mem_flatMap.mpr ⟨n, hn, hu⟩
    obtain hv | hv := hv
    · obtain rfl := h.injective hin hv he
      exact hgiven _ _ ⟨n, hn, hu, rfl, rfl⟩
    · exact absurd ((h.args v hv).1.symm.trans he.symm) (h.arg_ne_result hv hin)
  · obtain hv | hv := hv
    · rw [hfix v hv hgiven]
    · rw [(h.args v hv).1]

theorem Module.Models.defines_iff (h : m.Models c .nil) (hargs : ∀ a ∈ c.args, m.IsArg a)
    (hv : v ∈ c.results ∨ v ∈ c.args) {xs : List ValueId} : m.Defines v k xs ↔ c.Defines v k xs := by
  have hnode {n : Node} (hn : n ∈ c.nodes) (hv : v ∈ n.results) :
      ∃ regions parent, m.definingOp? v = some (n.op regions parent) := by
    obtain ⟨parent, args, hnode⟩ := h.holds.hasNode hn
    obtain ⟨regions, hop, -⟩ := hnode.get?
    obtain ⟨r, hr, rfl⟩ : ∃ r ∈ n.result, r.value = v := by simpa [Node.results] using hv
    refine ⟨regions, parent, ?_⟩
    rw [definingOp?, hnode.value r hr]
    exact hop
  constructor
  · rintro ⟨op, hop, rfl, rfl⟩
    obtain hv | hv := hv
    · obtain ⟨n, hn, hv⟩ := List.mem_flatMap.mp hv
      obtain ⟨regions, parent, hop'⟩ := hnode hn hv
      cases hop.symm.trans hop'
      exact ⟨n, hn, hv, rfl, rfl⟩
    · obtain ⟨ty, owner, i, ha⟩ := hargs v hv
      simp [definingOp?, ha] at hop
  · rintro ⟨n, hn, hv, rfl, rfl⟩
    obtain ⟨regions, parent, hop⟩ := hnode hn hv
    exact ⟨_, hop, rfl, rfl⟩

theorem Module.Models.computes_iff (h : m.Models c .nil) (hargs : ∀ a ∈ c.args, m.IsArg a)
    (hclosed : ∀ x ∈ c.uses, x ∈ c.results ∨ x ∈ c.args) (hv : v ∈ c.results ∨ v ∈ c.args) :
    Computes m.Defines ρ v w ↔ Computes c.Defines ρ v w := by
  have hxs {v : ValueId} {k : Kind} {xs : List ValueId} (hdef : c.Defines v k xs) (x : ValueId)
      (hx : x ∈ xs) :
      x ∈ c.results ∨ x ∈ c.args := by
    obtain ⟨n, hn, -, rfl, rfl⟩ := hdef
    exact hclosed x (List.mem_flatMap.mpr ⟨n, hn, hx⟩)
  constructor
  · intro hw
    refine hw.transfer (fun v => v) (fun v => v ∈ c.results ∨ v ∈ c.args) (fun v k xs hv hdef _ => ?_)
      (fun v hv hgiven => ?_) hv
    · have hdef := (h.defines_iff hargs hv).mp hdef
      exact ⟨by rwa [List.map_id'], hxs hdef⟩
    · exact ⟨fun k xs hdef => hgiven k xs ((h.defines_iff hargs hv).mpr hdef), rfl⟩
  · intro hw
    refine hw.transfer (fun v => v) (fun v => v ∈ c.results ∨ v ∈ c.args) (fun v k xs hv hdef _ => ?_)
      (fun v hv hgiven => ?_) hv
    · exact ⟨by rw [List.map_id']; exact (h.defines_iff hargs hv).mpr hdef, hxs hdef⟩
    · exact ⟨fun k xs hdef => hgiven k xs ((h.defines_iff hargs hv).mp hdef), rfl⟩

end Names

end IR

end Choco
