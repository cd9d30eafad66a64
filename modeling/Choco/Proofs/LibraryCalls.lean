import Choco.IR.LibraryUse
import Choco.Proofs.Building
import Choco.Proofs.Rewriting

namespace Choco.IR

variable {m : Module} {v : ValueId} {c : Code} {id : OpId} {op : Op}

/-- The type of an operand; what is no plain value counts as an object. -/
def Types.operand (types : Types) (x : ValueId) : Ty := ((types x).bind ValueType.source?).getD .object

/-- The use of the library that an operation is. -/
def Node.libraryUse (types : Types) (n : Node) : Except Error LibraryUse :=
  LibraryUse.ofOp n.kind (n.operands.map types.operand)

inductive LibraryCode (types : Types) (n : Node) : Code → Prop
  | keep (h : n.libraryUse types = .ok .keep) : LibraryCode types n (.leaf n .nil)
  | call (routine : String) (h : n.libraryUse types = .ok (.call routine)) :
      LibraryCode types n (.leaf { n with kind := .call routine } .nil)
  | negated (routine : String) (h : n.libraryUse types = .ok (.negated routine)) (id₁ id₂ : OpId)
      (equal : ValueId) (r : Def) (hr : n.result = some r) :
      LibraryCode types n (.leaf ⟨id₁, .call routine, n.operands, some ⟨equal, .plain .bool⟩⟩
        (.leaf ⟨id₂, .unary .not, [equal], some r⟩ .nil))

def TypedBelow (N : Nat) (types : Types) (m : Module) (θ : ValueId → ValueId) (c : Code) : Prop :=
  ∀ x : ValueId, x.index < N → x ∈ c.results ∨ x ∈ c.args → m.types (θ x) = types x

/-- Operands have names below `N`, and the comparison that may become a negation has a truth value. -/
def LibraryReady (N : Nat) (n : Node) : Prop :=
  (∀ x ∈ n.operands, x.index < N) ∧ (n.kind = .binary .notEq → ∃ v, n.result = some ⟨v, .plain .bool⟩)

theorem Module.types_of_settles {m' : Module} (h : Settles m.values m'.values)
    (hv : v.index < m.values.size) :
    m'.types v = m.types v := by
  obtain ⟨info, hinfo, hty, -⟩ := h v.index _ (Array.getElem?_eq_getElem hv)
  simp [types, hinfo, hty, Array.getElem?_eq_getElem hv]

theorem Module.operandType_eq (hv : v.index < m.values.size) : m.operandType v = .ok (m.types.operand v) := by
  simp [Types.operand, operandType, valueType, value, types, Array.getElem?_eq_getElem hv, Except.map]

namespace LibraryUse

variable {kind : Kind} {routine : String}

theorem ofOp_negated {tys : List Ty} (h : ofOp kind tys = .ok (.negated routine)) :
    kind = .binary .notEq := by
  unfold ofOp at h
  split at h
  next => unfold ofPrint at h; split at h <;> cases h
  next => cases h
  next => cases h
  next => cases h
  next => split at h <;> cases h
  next => cases h
  next => rfl
  next => cases h

theorem ofOp_routine_keep (hprint : routine ≠ "print") (hinput : routine ≠ "input") (tys : List Ty) :
    ofOp (.call routine) tys = .ok .keep := by
  unfold ofOp
  split <;> simp_all

theorem ofOp_hasRegions (h : kind.hasRegions) (tys : List Ty) : ofOp kind tys = .ok .keep := by
  cases kind <;> first | rfl | cases h

end LibraryUse

open Choco.IR.Module

variable {N : Nat} {types : Types} {m : Module} {θ : ValueId → ValueId} {C : Context} {n : Node} {rest : Code}

theorem TypedBelow.operands (hI : TypedBelow N types m θ c) (h : Named N m θ c) (hn : n ∈ c.nodes)
    (hold : ∀ x ∈ n.operands, x.index < N) :
    Edit.query (fun m => (n.map θ θ).operands.mapM m.operandType) m = .ok
      (n.operands.map types.operand) m := by
  have hmap : (n.map θ θ).operands.mapM m.operandType = .ok (n.operands.map types.operand) := by
    rw [Outcome.mapM_eq_ok, Node.operands_map, List.forall₂_map_left_iff, List.forall₂_map_right_iff,
      List.forall₂_same]
    intro x hx
    have huse : x ∈ c.uses := List.mem_flatMap.mpr ⟨n, hn, hx⟩
    rw [operandType_eq (h.use_lt huse), Types.operand, hI x (hold x hx) (h.closed x huse), Types.operand]
  simp only [Edit.query, hmap]

theorem negation_extends (h : m.Sound) (routine : String) (operands : List ValueId) :
    ∃ id₁ id₂ equal w m₁, Build.collect (do
        let equal ← Build.emit (.call routine) operands (.plain .bool)
        Build.emit (.unary .not) [equal] (.plain .bool)) m = .ok (w, [id₁, id₂]) m₁ ∧
      Extends m m₁ (.leaf ⟨id₁, .call routine, operands, some ⟨equal, .plain .bool⟩⟩
        (.leaf ⟨id₂, .unary .not, [equal], some ⟨w, .plain .bool⟩⟩ .nil)) := by
  obtain ⟨⟨id₁, _, operands, _⟩, m₁, rfl, rfl, rfl, hrun₁, hmade₁, hnew₁, hstays₁⟩ :=
    Build.emit_made (b := ⟨m, #[]⟩) h (.call routine) operands (.plain .bool) [] (by simp)
  have hext₁ := hmade₁.extends_leaf hnew₁ hstays₁
  obtain ⟨⟨id₂, _, _, _⟩, m₂, rfl, rfl, rfl, hrun₂, hmade₂, hnew₂, hstays₂⟩ :=
    Build.emit_made (b := ⟨m₁, #[].push id₁⟩) hext₁.change.sound (.unary .not) [⟨m.values.size⟩]
      (.plain .bool) [] (by simp)
  have hext₂ := hmade₂.extends_leaf hnew₂ hstays₂
  refine ⟨id₁, id₂, _, _, m₂, ?_, hext₁.trans hext₂⟩
  have hboth : (do
      let equal ← Build.emit (.call routine) operands (.plain .bool)
      Build.emit (.unary .not) [equal] (.plain .bool) : Build ValueId) ⟨m, #[]⟩ = .ok ⟨m₁.values.size⟩
        ⟨m₂, #[id₁, id₂]⟩ :=
    (Action.bind_ok hrun₁).trans hrun₂
  simp only [Build.collect, hboth]

theorem Named.setKind (h : Named N m θ (C.plug (.leaf n rest))) (kind : Kind) :
    ∃ m', Edit.setKind n.id kind m = .ok () m' ∧ Named N m' θ (C.plug (.leaf { n with kind } rest)) ∧
      m'.values = m.values := by
  have hmodels : m.Models ((C.map θ θ).plug (.leaf (n.map θ θ) (rest.map θ θ))) .nil := by
    have hm := h.models
    rwa [Code.relabel, Context.map_plug, Code.map_leaf] at hm
  obtain ⟨m', hrun, hm', hvalues⟩ := hmodels.setKind kind
  refine ⟨m', hrun, ⟨?_, fun x hx => ?_, fun a ha => ?_, hvalues ▸ h.size, h.fresh⟩, hvalues⟩
  · rw [Code.relabel, Context.map_plug]
    exact hm'
  · have hx' := h.closed x (by simpa [Context.mem_uses_plug] using hx)
    simpa [Context.mem_results_plug, Context.mem_args_plug, Node.results] using hx'
  · obtain ⟨hθ, harg⟩ := h.args a (by simpa [Context.mem_args_plug] using ha)
    exact ⟨hθ, harg.settles (hvalues ▸ .refl _)⟩

theorem Named.get?_leaf (h : Named N m θ (C.plug (.leaf n rest))) :
    m.get? n.id = some ((n.map θ θ).op [] (some (C.map θ θ).place)) := by
  have hmodels := h.models
  rw [Code.relabel, Context.map_plug, Code.map_leaf] at hmodels
  exact hmodels.around.2.1.get?_leaf

theorem Named.typeOf (h : Named N m θ c) (hn : n ∈ c.nodes) {r : Def} (hr : n.result = some r) :
    m.types (θ r.value) = some r.ty := by
  obtain ⟨parent, args, hnode⟩ := h.hasNode hn
  have hvalue := hnode.value ⟨θ r.value, r.ty⟩ (by simp [Node.map, hr])
  rw [types, hvalue]
  rfl

theorem replaceLibraryUse_choice (h : Named N m θ (C.plug (.leaf n rest)))
    (hI : TypedBelow N types m θ (C.plug (.leaf n rest))) (hQ : LibraryReady N n) :
    Edit.replaceLibraryUse n.id m = (match n.libraryUse types with
      | .error e => .error e m
      | .ok .keep => .ok false m
      | .ok (.call routine) => (do Edit.setKind n.id (.call routine); return true : Edit Bool) m
      | .ok (.negated routine) => (do Edit.replaceNegated n.id routine; return true : Edit Bool) m) := by
  have hquery := hI.operands h (C.mem_nodes_plug List.mem_cons_self) hQ.1
  unfold Edit.replaceLibraryUse
  rw [Action.bind_ok (Edit.op_run h.get?_leaf)]
  refine (Action.bind_ok hquery).trans ?_
  cases huse : n.libraryUse types with
  | error e =>
    have hchoice : Edit.query (fun _ => LibraryUse.ofOp n.kind (n.operands.map types.operand)) m =
        .error e m := by
      simp only [Node.libraryUse] at huse
      simp only [Edit.query, huse]
    exact Action.bind_error hchoice
  | ok use =>
    have hchoice : Edit.query (fun _ => LibraryUse.ofOp n.kind (n.operands.map types.operand)) m =
        .ok use m := by
      simp only [Node.libraryUse] at huse
      simp only [Edit.query, huse]
    refine (Action.bind_ok hchoice).trans ?_
    cases use <;> rfl

theorem replaceLibraryUse_run (h : Named N m θ (C.plug (.leaf n rest)))
    (hI : TypedBelow N types m θ (C.plug (.leaf n rest))) (hQ : LibraryReady N n)
    (hold : ∀ v ∈ n.results, v.index < N)
    {use : LibraryUse} (huse : n.libraryUse types = .ok use) :
    ∃ b m' θ' e, Edit.replaceLibraryUse n.id m = .ok b m' ∧ Named N m' θ' (C.plug (e ++ rest)) ∧
      TypedBelow N types m' θ' (C.plug (e ++ rest)) ∧ LibraryCode types n e := by
  rw [replaceLibraryUse_choice h hI hQ, huse]
  cases use with
  | keep => exact ⟨false, m, θ, .leaf n .nil, rfl, h, hI, .keep huse⟩
  | call routine =>
    obtain ⟨m', hrun, h', hvalues⟩ := h.setKind (.call routine)
    refine ⟨true, m', θ, .leaf { n with kind := .call routine } .nil, Action.bind_ok hrun, h',
      fun x hx hin => ?_, .call routine huse⟩
    have htypes : m'.types = m.types := by
      funext v
      simp only [Module.types, hvalues]
    rw [htypes]
    refine hI x hx ?_
    simpa [Context.mem_results_plug, Context.mem_args_plug, Node.results] using hin
  | negated routine =>
    obtain ⟨v, hv⟩ := hQ.2 (LibraryUse.ofOp_negated huse)
    obtain ⟨id₁, id₂, equal, w, m₁, hcollect, hext⟩ :=
      negation_extends h.models.sound routine (n.map θ θ).operands
    have hnv : v ∈ n.results := by simp [Node.results, hv]
    have hequal : m.values.size ≤ equal.index := hext.fresh equal (by simp [Node.results])
    have hw : m.values.size ≤ w.index := hext.fresh w (by simp [Node.results])
    have hsize := h.size
    have hlt := hold v hnv
    have hne : equal ≠ v := fun he => by rw [he] at hequal; omega
    have hθe : θ equal = equal := h.fresh equal (by omega)
    obtain ⟨e, he⟩ : ∃ e, e = Code.leaf ⟨id₁, .call routine, n.operands, some ⟨equal, .plain .bool⟩⟩
      (.leaf ⟨id₂, .unary .not, [equal], some ⟨v, .plain .bool⟩⟩ .nil) := ⟨_, rfl⟩
    have hcode : (Code.leaf ⟨id₁, .call routine, (n.map θ θ).operands, some ⟨equal, .plain .bool⟩⟩
        (.leaf ⟨id₂, .unary .not, [equal], some ⟨w, .plain .bool⟩⟩ .nil)) = e.map θ
          (Function.update θ v w) := by
      simp [he, Node.map, hθe, Function.update_of_ne hne]
    have hresults : e.results = [equal, v] := by simp [he, Node.results]
    rw [hcode] at hext
    obtain ⟨m', hreplace, h', hvalues⟩ :=
      h.replaceLeaf (.swap ⟨v, .plain .bool⟩ w hv) (fun _ _ => .inl rfl) hext
      (by simpa using hw) hold
      (by simp +contextual [he, Node.results, or_imp]) (by simp [hresults, Node.results, hv])
      (by simp [hresults, Node.results, hv, hequal]) (by simp [he])
    have hrun : Edit.replaceNegated n.id routine m = .ok () m' := by
      have hids : e.ids = [id₁, id₂] := by simp [he, Code.ids]
      rw [hids] at hreplace
      unfold Edit.replaceNegated
      rw [Action.bind_ok (Edit.op_run h.get?_leaf)]
      exact (Action.bind_ok hcollect).trans hreplace
    refine ⟨true, m', Function.update θ v w, e, Action.bind_ok hrun, h', fun x hx hin => ?_,
      he ▸ .negated routine huse id₁ id₂ equal _ hv⟩
    by_cases hxv : x = v
    · have hty := h'.typeOf (n := ⟨id₂, .unary .not, [equal], some ⟨v, .plain .bool⟩⟩)
        (C.mem_nodes_plug (by simp [he, Code.nodes])) rfl
      have hty₀ := h.typeOf (C.mem_nodes_plug List.mem_cons_self) hv
      rw [hxv, hty, ← hI v hlt (.inl (Context.mem_results_plug.mpr (by simp [hnv]))), hty₀]
    · have hin₀ : x ∈ (C.plug (.leaf n rest)).results ∨ x ∈ (C.plug (.leaf n rest)).args := by
        have hxe : x ≠ equal := fun he => by rw [he] at hx; omega
        simpa [Context.mem_results_plug, Context.mem_args_plug, hresults, he, hxe, hxv, Node.results,
          hv] using hin
      rw [Function.update_of_ne hxv, types_of_settles (hvalues ▸ hext.change.values), hI x hx hin₀]
      obtain hin₀ | hin₀ := hin₀
      · exact h.result_lt hin₀
      · obtain ⟨ha, harg⟩ := h.args x hin₀
        rw [ha]
        exact harg.lt

theorem replaceLibraryUse_keep (hop : m.get? id = some op)
    (hoperands : ∀ x ∈ op.operands, x.index < m.values.size)
    (huse : LibraryUse.ofOp op.kind (op.operands.map m.types.operand) = .ok .keep) :
    Edit.replaceLibraryUse id m = .ok false m := by
  have hmap : op.operands.mapM m.operandType = .ok (op.operands.map m.types.operand) := by
    rw [Outcome.mapM_eq_ok, List.forall₂_map_right_iff, List.forall₂_same]
    exact fun x hx => operandType_eq (hoperands x hx)
  have hquery : Edit.query (fun m => op.operands.mapM m.operandType) m =
      .ok (op.operands.map m.types.operand) m := by
    simp only [Edit.query, hmap]
  have hchoice : Edit.query (fun _ => LibraryUse.ofOp op.kind (op.operands.map m.types.operand)) m =
      .ok .keep m := by
    simp only [Edit.query, huse]
  unfold Edit.replaceLibraryUse
  rw [Action.bind_ok (Edit.op_run hop)]
  exact (Action.bind_ok hquery).trans (Action.bind_ok hchoice)

theorem replaceLibraryUse_skip (hop : m.get? id = some op) (hkind : op.kind.hasRegions)
    (hoperands : ∀ x ∈ op.operands, x.index < m.values.size) : Edit.replaceLibraryUse id m = .ok false m :=
  replaceLibraryUse_keep hop hoperands (LibraryUse.ofOp_hasRegions hkind _)

theorem rewriting_libraryUses (N : Nat) (types : Types) :
    Rewriting Edit.replaceLibraryUse N (LibraryReady N) (fun n => ∃ use, n.libraryUse types = .ok use)
      (TypedBelow N types)
      fun _ => LibraryCode types where
  run {m m' θ C n rest b} h hI hQ hold hrun := by
    cases huse : n.libraryUse types with
    | error e =>
      rw [replaceLibraryUse_choice h hI hQ, huse] at hrun
      cases hrun
    | ok use =>
      obtain ⟨b', m'', θ', e, hrun', h', hI', he⟩ := replaceLibraryUse_run h hI hQ hold huse
      cases hrun.symm.trans hrun'
      exact ⟨θ', e, h', hI', he, fun _ _ hR => hR⟩
  succeeds h hI hQ hold hG := by
    obtain ⟨use, huse⟩ := hG
    obtain ⟨b, m', -, -, hrun, -⟩ := replaceLibraryUse_run h hI hQ hold huse
    exact ⟨b, m', hrun⟩
  skip := replaceLibraryUse_skip

/-- Replacing the uses of the library in a module. It fails only where there is no routine for an
operation. -/
theorem replaceLibraryUses_named (h : Named N m θ c) (hI : TypedBelow N types m θ c)
    (hfits : c.Fits (LibraryReady N)) (hold : ∀ v ∈ c.results, v.index < N) :
    (∃ k m' θ' c', Edit.replaceLibraryUses m = .ok k m' ∧ Named N m' θ' c' ∧ TypedBelow N types m' θ' c' ∧
      c.Maps (LibraryCode types) c') ∨
    (∃ e m', Edit.replaceLibraryUses m = .error e m' ∧ ¬ c.Fits fun n => ∃ use,
      n.libraryUse types = .ok use) := by
  have hwalk : m.walk = c.allIds := by rw [h.models.walk, Code.relabel, Code.allIds_map]
  have hrun : Edit.replaceLibraryUses m = c.allIds.foldlM (Edit.visit Edit.replaceLibraryUse) 0 m := by
    have hquery : Edit.query (fun m => .ok m.walk) m = .ok c.allIds m := by simp only [Edit.query, hwalk]
    exact Action.bind_ok hquery
  rw [hrun]
  obtain ⟨k, m', θ', c', hok, h', hI', hmaps, -⟩ | herror :=
    (rewriting_libraryUses N types).visit_all (C := .top) hfits h hI hold 0
  · exact .inl ⟨k, m', θ', c', hok, h', hI', hmaps⟩
  · exact .inr herror

end Choco.IR
