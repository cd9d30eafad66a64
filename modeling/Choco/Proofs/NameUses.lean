import Choco.Proofs.LabelNames
import Choco.Proofs.References
import Choco.Proofs.VisibleNames

namespace Choco

/-- A use of one of these variables or functions, or of a built-in function that none of them hides. -/
def Reference.Resolved {α : Type} (vars : List α) (labels : List String) : Reference α → Prop
  | .read v | .assigned v | .bound v => v ∈ vars
  | .call label => label ∈ labels
  | .builtin func => func ∉ labels
  | .dangling _ => False

namespace IR

variable {n : Node} {c d : Code}

/-- The location that an operation makes, and the type of what it holds. -/
def Node.var? (n : Node) : Option (ValueId × Ty) :=
  match n.kind, n.result with
  | .alloc ty, some d => some (d.value, ty)
  | _, _ => none

/-- What an operation refers to, in a module with these locations of variables and labels of functions. -/
def Node.references (locations : List ValueId) (labels : List String) (n : Node) : List (Reference ValueId) :=
  match n.kind, n.operands with
  | .load, [v] => if v ∈ locations then [.read v] else []
  | .assign, _ :: targets => (targets.filter (· ∈ locations)).map .assigned
  | .forLoop, [_, v] => if v ∈ locations then [.bound v] else []
  | .call func, _ => [if func ∈ labels then .call func else .builtin func]
  | _, _ => []

theorem Node.resolved_references {locations : List ValueId} {labels : List String} {r : Reference ValueId}
    (hr : r ∈ n.references locations labels) : r.Resolved locations labels := by
  unfold Node.references at hr
  split at hr
  next v => exact (List.mem_ite_nil_right.mp hr).elim fun hv hr => by rwa [List.mem_singleton.mp hr]
  next targets =>
    obtain ⟨v, hv, rfl⟩ := List.mem_map.mp hr
    simpa [Reference.Resolved] using (List.mem_filter.mp hv).2
  next v => exact (List.mem_ite_nil_right.mp hr).elim fun hv hr => by rwa [List.mem_singleton.mp hr]
  next func _ =>
    rw [List.mem_singleton.mp hr]
    split
    next hfunc => exact hfunc
    next hfunc => exact hfunc
  next => cases hr

namespace Code

variable (locations : List ValueId) (labels : List String)

/-- The locations that code makes. -/
def vars (c : Code) : List (ValueId × Ty) := c.nodes.filterMap Node.var?

/-- What code refers to, in its order. -/
def references (c : Code) : List (Reference ValueId) := c.nodes.flatMap (Node.references locations labels)

/-- The functions of a list of functions. -/
def outlinesWith : Code → List (Outline ValueId)
  | each ⟨_, .funcDef label _, _, _⟩ _ body rest =>
    ⟨label, body.vars, body.references locations labels⟩ :: outlinesWith rest
  | nil | leaf _ _ | each _ _ _ _ | fork _ _ _ _ => []

/-- The functions of a module. -/
def outlines (c : Code) : List (Outline ValueId) := c.outlinesWith (c.resultsOf Kind.isAlloc) c.labels

@[simp] theorem vars_nil : nil.vars = [] := rfl

@[simp] theorem vars_leaf (n : Node) (rest : Code) : (leaf n rest).vars = n.var?.toList ++ rest.vars := by
  cases h : n.var? <;> simp [vars, nodes, h]

@[simp] theorem vars_each (n : Node) (args : List ValueId) (body rest : Code) :
    (each n args body rest).vars = n.var?.toList ++ (body.vars ++ rest.vars) := by
  cases h : n.var? <;> simp [vars, nodes, h]

@[simp] theorem vars_fork (n : Node) (first second rest : Code) :
    (fork n first second rest).vars = n.var?.toList ++ (first.vars ++ (second.vars ++ rest.vars)) := by
  cases h : n.var? <;> simp [vars, nodes, h]

@[simp] theorem vars_append (c d : Code) : (c ++ d).vars = c.vars ++ d.vars := by
  simp [vars, nodes_append]

@[simp] theorem references_nil : nil.references locations labels = [] := rfl

@[simp] theorem references_leaf (n : Node) (rest : Code) :
    (leaf n rest).references locations labels = n.references locations labels ++
      rest.references locations labels := by
  simp [references, nodes]

@[simp] theorem references_each (n : Node) (args : List ValueId) (body rest : Code) :
    (each n args body rest).references locations labels =
      n.references locations labels ++
        (body.references locations labels ++ rest.references locations labels) := by
  simp [references, nodes]

@[simp] theorem references_fork (n : Node) (first second rest : Code) :
    (fork n first second rest).references locations labels =
      n.references locations labels ++
        (first.references locations labels ++
          (second.references locations labels ++ rest.references locations labels)) := by
  simp [references, nodes]

@[simp] theorem references_append (c d : Code) :
    (c ++ d).references locations labels = c.references locations labels ++
      d.references locations labels := by
  simp [references, nodes_append]

theorem outlinesWith_append (hc : c.Functions) :
    (c ++ d).outlinesWith locations labels = c.outlinesWith locations labels ++
      d.outlinesWith locations labels := by
  induction hc with
  | nil => rfl
  | function id label ty args _ _ ih => exact congrArg (List.cons _) ih

end Code

section Uses

open Code

variable {locations : List ValueId} {labels : List String} {storage : Variable → ValueId} {types : Types}
  {names names' : Names} {env : Environment} {c : Code} {v w : ValueId} {first second rest : Code} {e : Expr}
  {refs : List (Reference Variable)}

structure Names.Resolves (locations : List ValueId) (labels : List String) (storage : Variable → ValueId)
    (names : Names) (env : Environment) : Prop where
  location : ∀ x v, names.location x = .ok v → v ∈ locations ∧ ∃ w, env.nearest? x = some (.var w) ∧
    storage w = v
  callee : ∀ func label, names.callee func = .ok label →
    env.nearest? func = some (.func label) ∧ label ∈ labels ∨
      env.nearest? func = none ∧ label = func ∧ func ∈ builtins ∧ func ∉ labels

namespace Names.Resolves

variable (hnames : names.Resolves locations labels storage env)

include hnames

theorem use_eq {x : String} (h : names.location x = .ok v) (how : {α : Type} → α → Reference α)
    (hmap : ∀ w : Variable, (how w).map storage = how (storage w)) : (env.use how x).map storage = how v := by
  obtain ⟨-, w, hw, rfl⟩ := hnames.location x v h
  rw [Environment.use, hw]
  exact hmap w

theorem references_call {func label : String} (h : names.callee func = .ok label) (id : OpId)
    (xs : List ValueId) (r : Option Def) :
    (Code.leaf ⟨id, .call label, xs, r⟩ .nil).references locations labels =
    [(env.called func).map storage] := by
  rw [references_leaf, references_nil, List.append_nil, Environment.called]
  obtain ⟨hfound, hmem⟩ | ⟨hnone, rfl, hbuiltin, hnot⟩ := hnames.callee func label h
  · simp [Node.references, hfound, hmem, Reference.map]
  · simp [Node.references, hnone, hbuiltin, hnot, Reference.map]

end Names.Resolves

/-- The locations are results of no other operations of the code than those that make locations. -/
def Code.Apart (locations : List ValueId) (c : Code) : Prop :=
  ∀ n ∈ c.nodes, n.kind.isAlloc = false → ∀ v ∈ n.results, v ∉ locations

theorem Code.apart_append : (c ++ d).Apart locations ↔ c.Apart locations ∧ d.Apart locations := by
  rw [Apart, nodes_append, List.forall_mem_append]
  rfl

theorem Code.apart_fork : (fork n first second rest).Apart locations ↔
    (n.kind.isAlloc = false → ∀ v ∈ n.results, v ∉ locations) ∧ first.Apart locations ∧
      second.Apart locations ∧ rest.Apart locations := by
  rw [Apart, nodes, List.forall_mem_cons, List.forall_mem_append, List.forall_mem_append]
  rfl

theorem Code.apart_each {args : List ValueId} {body : Code} : (each n args body rest).Apart locations ↔
    (n.kind.isAlloc = false → ∀ v ∈ n.results, v ∉ locations) ∧ body.Apart locations ∧
      rest.Apart locations := by
  rw [Apart, nodes, List.forall_mem_cons, List.forall_mem_append]
  rfl

theorem Code.Apart.leaf (h : (Code.leaf n rest).Apart locations) (hn : n.kind.isAlloc = false) :
    ∀ v ∈ n.results, v ∉ locations := h n List.mem_cons_self hn

def Located (types : Types) (locations : List ValueId) : Prop :=
  ∀ v ∈ locations, ∃ ty, types v = some (.location ty)

def Code.Uses (locations : List ValueId) (labels : List String) (storage : Variable → ValueId)
    (refs : List (Reference Variable)) (c : Code) : Prop :=
  c.references locations labels = refs.map (Reference.map storage) ∧ c.vars = []

namespace Code.Uses

variable {refs refs' : List (Reference Variable)} {d : Code}

theorem nil : Uses locations labels storage [] nil := ⟨rfl, rfl⟩

theorem append (hc : c.Uses locations labels storage refs) (hd : d.Uses locations labels storage refs') :
    (c ++ d).Uses locations labels storage (refs ++ refs') :=
  ⟨by rw [references_append, hc.1, hd.1, List.map_append], by rw [vars_append, hc.2, hd.2, List.append_nil]⟩

theorem leaf (href : n.references locations labels = []) (hvar : n.var? = none) :
    (Code.leaf n .nil).Uses locations labels storage [] := by
  simp [Uses, href, hvar]

theorem fork (hfirst : first.Uses locations labels storage refs)
    (hsecond : second.Uses locations labels storage refs') (href : n.references locations labels = [])
    (hvar : n.var? = none) :
    (Code.fork n first second .nil).Uses locations labels storage (refs ++ refs') := by
  simp [Uses, href, hvar, hfirst.1, hsecond.1, hfirst.2, hsecond.2]

theorem congr (h : c.Uses locations labels storage refs) (heq : refs = refs') :
    c.Uses locations labels storage refs' := heq ▸ h

end Code.Uses

/-- The code of an expression up to its location or value. Only the location of a variable is one of the
locations. -/
def Code.Places (locations : List ValueId) (labels : List String) (storage : Variable → ValueId)
    (env : Environment) (e : Expr) (c : Code) (v : ValueId) : Prop :=
  c.Uses locations labels storage (e.placeReferences env) ∧ ((∃ x ty, e = .name x ty) ∨ v ∉ locations)

theorem Expr.placeReferences_eq (h : ∀ x ty, e ≠ .name x ty) : e.placeReferences env = e.references env := by
  cases e with
  | name x ty => exact absurd rfl (h x ty)
  | _ => rfl

theorem Loaded.uses (hnames : names.Resolves locations labels storage env)
    (hlocated : Located types locations) (h : Loaded types (ExprCode types names e) c w)
    (hapart : c.Apart locations) (he : ∀ {c v}, ExprCode types names e c v → c.Apart locations →
      c.Places locations labels storage env e v) :
    c.Uses locations labels storage (e.references env) := by
  obtain ⟨v, c₁, c₂, rfl, hv, hload⟩ := h
  rw [apart_append] at hapart
  obtain ⟨huses, hplace⟩ := he hv hapart.1
  by_cases hname : ∃ x ty, e = .name x ty
  · obtain ⟨x, ty, rfl⟩ := hname
    rw [ExprCode] at hv
    obtain ⟨hlocation, rfl⟩ := hv
    have hmem := (hnames.location x v hlocation).1
    have hread := hnames.use_eq hlocation .read fun _ => rfl
    rw [Expr.references]
    cases hload with
    | load ty id w h => exact ⟨by simp [Node.references, hmem, hread], rfl⟩
    | stay ty h hplain =>
      obtain ⟨ty', hty'⟩ := hlocated w hmem
      rw [h] at hty'
      cases hty'
      cases hplain
  · have hnot := hplace.resolve_left hname
    rw [Expr.placeReferences_eq fun x ty heq => hname ⟨x, ty, heq⟩] at huses
    cases hload with
    | load ty id w h =>
      exact (huses.append (.leaf (by simp [Node.references, hnot]) rfl)).congr (List.append_nil _)
    | stay ty h hplain => exact (huses.append .nil).congr (List.append_nil _)

theorem Yielded.uses {value : Code → ValueId → Prop} (h : Yielded value c) (hapart : c.Apart locations)
    (hvalue : ∀ {c v}, value c v → c.Apart locations → c.Uses locations labels storage refs) :
    c.Uses locations labels storage refs := by
  obtain ⟨v, c₁, id, rfl, hv⟩ := h
  exact ((hvalue hv (apart_append.mp hapart).1).append (.leaf rfl rfl)).congr (List.append_nil _)

theorem Padded.uses {body : Code → Prop} (h : Padded body c) (hapart : c.Apart locations)
    (hbody : ∀ {c}, body c → c.Apart locations → c.Uses locations labels storage refs) :
    c.Uses locations labels storage refs := by
  obtain ⟨-, h⟩ | ⟨hnil, id, rfl⟩ := h
  · exact hbody h hapart
  · obtain ⟨href, hvars⟩ := hbody hnil nofun
    exact ⟨href, hvars⟩

mutual

theorem ExprCode.places (hnames : names.Resolves locations labels storage env)
    (hlocated : Located types locations) :
    (e : Expr) → ∀ {c v}, ExprCode types names e c v → c.Apart locations →
      c.Places locations labels storage env e v
  | .literal value ty, _, v, ⟨id, rfl⟩, hapart => by
    exact ⟨.leaf rfl rfl, .inr (hapart.leaf rfl v (by simp [Node.results]))⟩
  | .name x ty, _, v, ⟨_, rfl⟩, hapart => by
    exact ⟨.nil, .inl ⟨x, ty, rfl⟩⟩
  | .unary op operand ty, _, v, ⟨x, c₁, id, rfl, hx⟩, hapart => by
    rw [apart_append] at hapart
    have hoperand := hx.uses hnames hlocated hapart.1 (ExprCode.places hnames hlocated operand)
    refine ⟨(hoperand.append (.leaf rfl rfl)).congr ?_, .inr (hapart.2.leaf rfl v (by simp [Node.results]))⟩
    rw [List.append_nil, Expr.placeReferences, Expr.references]
    nofun
  | .binary op lhs rhs ty, c, v, h, hapart => by
    rw [ExprCode] at h
    rw [Places, Expr.placeReferences, Expr.references]
    split at h
    next =>
      obtain ⟨first, second, id, rfl, hfirst, hsecond⟩ := h
      obtain ⟨hn, hapart₁, hapart₂, -⟩ := apart_fork.mp hapart
      have hlhs := hfirst.uses hapart₁ fun hv ha =>
        hv.uses hnames hlocated ha (ExprCode.places hnames hlocated lhs)
      have hrhs := hsecond.uses hapart₂ fun hv ha =>
        hv.uses hnames hlocated ha (ExprCode.places hnames hlocated rhs)
      exact ⟨hlhs.fork hrhs rfl rfl, .inr (hn rfl v (by simp [Node.results]))⟩
    next =>
      obtain ⟨ty, x, y, c₁, c₂, id, -, rfl, hx, hy⟩ := h
      rw [apart_append, apart_append] at hapart
      have hlhs := hx.uses hnames hlocated hapart.1 (ExprCode.places hnames hlocated lhs)
      have hrhs := hy.uses hnames hlocated hapart.2.1 (ExprCode.places hnames hlocated rhs)
      refine ⟨(hlhs.append (hrhs.append (.leaf rfl rfl))).congr (by rw [List.append_nil]), .inr ?_⟩
      exact hapart.2.2.leaf rfl v (by simp [Node.results])
    nofun
  | .ifExpr cond onTrue onFalse ty, _, v, ⟨x, c₁, first, second, id, rfl, hx, hfirst, hsecond⟩, hapart => by
    rw [apart_append, apart_fork] at hapart
    obtain ⟨hapart₁, hn, hapart₂, hapart₃, -⟩ := hapart
    have hcond := hx.uses hnames hlocated hapart₁ (ExprCode.places hnames hlocated cond)
    have htrue := hfirst.uses hapart₂ fun hv ha =>
      hv.uses hnames hlocated ha (ExprCode.places hnames hlocated onTrue)
    have hfalse := hsecond.uses hapart₃ fun hv ha =>
      hv.uses hnames hlocated ha (ExprCode.places hnames hlocated onFalse)
    rw [Places, Expr.placeReferences, Expr.references]
    · exact ⟨hcond.append (htrue.fork hfalse rfl rfl), .inr (hn rfl v (by simp [Node.results]))⟩
    · nofun
  | .list elems ty, _, v, ⟨xs, c₁, id, rfl, hxs⟩, hapart => by
    rw [apart_append] at hapart
    have helems := ValuesCode.uses hnames hlocated elems hxs hapart.1
    rw [Places, Expr.placeReferences, Expr.references]
    · refine ⟨(helems.append (.leaf rfl rfl)).congr (List.append_nil _),
        .inr (hapart.2.leaf rfl v (by simp [Node.results]))⟩
    · nofun
  | .index base position ty, _, v, ⟨x, i, c₁, c₂, c₃, rfl, hx, hi, hlast⟩, hapart => by
    rw [apart_append, apart_append] at hapart
    obtain ⟨hapart₁, hapart₂, hapart₃⟩ := hapart
    have hbase := hx.uses hnames hlocated hapart₁ (ExprCode.places hnames hlocated base)
    have hposition := hi.uses hnames hlocated hapart₂ (ExprCode.places hnames hlocated position)
    have helement : c₃.Uses locations labels storage [] ∧ v ∉ locations := by
      split at hlast
      next =>
        obtain ⟨address, code, id₁, id₂, id₃, rfl⟩ := hlast
        have haddress : address ∉ locations := hapart₃.leaf rfl address (by simp [Node.results])
        refine ⟨by simp [Uses, Node.references, Node.var?, haddress], ?_⟩
        exact hapart₃ ⟨id₃, .list, [code], some ⟨v, .plain .str⟩⟩ (by simp [nodes]) rfl v
          (by simp [Node.results])
      next elem _ =>
        obtain ⟨id, rfl⟩ := hlast
        exact ⟨.leaf rfl rfl, hapart₃.leaf rfl v (by simp [Node.results])⟩
      next => cases hlast
    rw [Places, Expr.placeReferences, Expr.references]
    · exact ⟨(hbase.append (hposition.append helement.1)).congr (by rw [List.append_nil]), .inr helement.2⟩
    · nofun
  | .call func args ty, _, v, ⟨label, xs, c₁, id, hlabel, rfl, hxs⟩, hapart => by
    rw [apart_append] at hapart
    have hargs := ValuesCode.uses hnames hlocated args hxs hapart.1
    have hcall : (Code.leaf ⟨id, .call label, xs, some ⟨v, .plain ty⟩⟩ .nil).Uses locations labels storage
        [env.called func] :=
      ⟨hnames.references_call hlabel _ _ _, rfl⟩
    rw [Places, Expr.placeReferences, Expr.references]
    · exact ⟨hargs.append hcall, .inr (hapart.2.leaf rfl v (by simp [Node.results]))⟩
    · nofun

theorem ValuesCode.uses (hnames : names.Resolves locations labels storage env)
    (hlocated : Located types locations) :
    (es : List Expr) → ∀ {c xs}, ValuesCode types names es c xs → c.Apart locations →
      c.Uses locations labels storage (Expr.listReferences env es)
  | [], _, xs, ⟨rfl, _⟩, hapart => by
    rw [Expr.listReferences]
    exact .nil
  | e :: es, _, xs, ⟨x, rest, c₁, c₂, _, rfl, hx, hrest⟩, hapart => by
    rw [apart_append] at hapart
    rw [Expr.listReferences]
    exact (hx.uses hnames hlocated hapart.1 (ExprCode.places hnames hlocated e)).append
      (ValuesCode.uses hnames hlocated es hrest hapart.2)

end

theorem Loaded.expr_uses (hnames : names.Resolves locations labels storage env)
    (hlocated : Located types locations) (h : Loaded types (ExprCode types names e) c w)
    (hapart : c.Apart locations) :
    c.Uses locations labels storage (e.references env) :=
  h.uses hnames hlocated hapart (ExprCode.places hnames hlocated e)

/-- A target is a variable, whose location is one of the locations, or a place in a list, which is none. -/
theorem TargetCode.places (hnames : names.Resolves locations labels storage env)
    (hlocated : Located types locations) (h : TargetCode types names e c v) (hapart : c.Apart locations) :
    c.Uses locations labels storage (e.placeReferences env) ∧
      ([v].filter (· ∈ locations)).map Reference.assigned = (e.assigned env).map (Reference.map storage) := by
  cases e with
  | name x ty =>
    obtain ⟨hlocation, rfl⟩ := h
    have hmem := (hnames.location x v hlocation).1
    have hassigned := hnames.use_eq hlocation .assigned fun _ => rfl
    exact ⟨.nil, by simp [Expr.assigned, hmem, hassigned]⟩
  | index base position ty =>
    obtain ⟨huses, hplace⟩ := ExprCode.places hnames hlocated _ h.2 hapart
    have hnot : v ∉ locations := hplace.resolve_left nofun
    exact ⟨huses, by simp [Expr.assigned, hnot]⟩
  | literal value ty | unary op operand ty | binary op lhs rhs ty | ifExpr cond onTrue onFalse ty
  | list elems ty
  | call func args ty => cases h

theorem TargetsCode.places (hnames : names.Resolves locations labels storage env)
    (hlocated : Located types locations) {es : List Expr} {xs : List ValueId}
    (h : TargetsCode types names es c xs) (hapart : c.Apart locations) :
    c.Uses locations labels storage (es.flatMap (Expr.placeReferences env)) ∧
      (xs.filter (· ∈ locations)).map Reference.assigned = (es.flatMap (Expr.assigned env)).map
      (Reference.map storage) := by
  induction es generalizing c xs with
  | nil =>
    obtain ⟨rfl, rfl⟩ := h
    exact ⟨.nil, rfl⟩
  | cons e es ih =>
    obtain ⟨x, rest, c₁, c₂, rfl, rfl, hx, hrest⟩ := h
    rw [apart_append] at hapart
    obtain ⟨huses₁, hassigned₁⟩ := hx.places hnames hlocated hapart.1
    obtain ⟨huses₂, hassigned₂⟩ := ih hrest hapart.2
    refine ⟨huses₁.append huses₂, ?_⟩
    rw [List.flatMap_cons, List.map_append, ← hassigned₁, ← hassigned₂, ← List.map_append,
      ← List.filter_append]
    rfl

mutual

theorem StmtCode.uses (hnames : names.Resolves locations labels storage env)
    (hlocated : Located types locations) :
    (s : Stmt) → ∀ {c}, StmtCode types names s c → c.Apart locations →
      c.Uses locations labels storage (s.references env)
  | .expr (.call func args ty), _, ⟨label, xs, c₁, id, hlabel, rfl, hxs⟩, hapart => by
    rw [apart_append] at hapart
    have hcall : (Code.leaf ⟨id, .call label, xs, none⟩ .nil).Uses locations labels storage
        [env.called func] :=
      ⟨hnames.references_call hlabel _ _ _, rfl⟩
    rw [Stmt.references, Expr.references]
    exact (ValuesCode.uses hnames hlocated args hxs hapart.1).append hcall
  | .expr (.literal value ty), c, h, hapart | .expr (.name x ty), c, h, hapart | .expr (.unary op operand ty),
      c, h, hapart
  | .expr (.binary op lhs rhs ty), c, h, hapart | .expr (.ifExpr cond onTrue onFalse ty), c, h, hapart
  | .expr (.list elems ty), c, h, hapart | .expr (.index base position ty), c, h, hapart => by
    rw [StmtCode] at h
    · obtain ⟨v, hv⟩ := h
      rw [Stmt.references]
      exact hv.expr_uses hnames hlocated hapart
    · simp
  | .assign a, _, ⟨v, targets, c₁, c₂, id, rfl, hv, htargets⟩, hapart => by
    rw [apart_append, apart_append] at hapart
    obtain ⟨huses, hassigned⟩ := htargets.places hnames hlocated hapart.2.1
    have hassign : (Code.leaf ⟨id, .assign, v :: targets, none⟩ .nil).Uses locations labels storage
        (a.targets.flatMap (Expr.assigned env)) := by
      refine ⟨?_, rfl⟩
      rw [references_leaf, references_nil, List.append_nil, ← hassigned]
      rfl
    rw [Stmt.references]
    exact (hv.expr_uses hnames hlocated hapart.1).append (huses.append hassign)
  | .ret (some e), _, ⟨v, c₁, id, rfl, hv⟩, hapart => by
    rw [apart_append] at hapart
    rw [Stmt.references]
    exact ((hv.expr_uses hnames hlocated hapart.1).append (.leaf rfl rfl)).congr (List.append_nil _)
  | .ret none, _, ⟨v, id, id', rfl⟩, hapart => by
    rw [Stmt.references]
    exact ⟨rfl, rfl⟩
  | .pass, _, ⟨id, rfl⟩, hapart => by
    rw [Stmt.references]
    exact ⟨rfl, rfl⟩
  | .ifElse cond onTrue onFalse, _, ⟨v, c₁, first, second, id, rfl, hv, hfirst, hsecond⟩, hapart => by
    rw [apart_append, apart_fork] at hapart
    obtain ⟨hapart₁, -, hapart₂, hapart₃, -⟩ := hapart
    have htrue := hfirst.uses hapart₂ (StmtsCode.uses hnames hlocated onTrue)
    have hfalse := hsecond.uses hapart₃ (StmtsCode.uses hnames hlocated onFalse)
    rw [Stmt.references]
    exact (hv.expr_uses hnames hlocated hapart₁).append (htrue.fork hfalse rfl rfl)
  | .whileLoop cond body, _, ⟨test, inner, id, rfl, htest, hinner⟩, hapart => by
    obtain ⟨-, hapart₁, hapart₂, -⟩ := apart_fork.mp hapart
    have hcond := htest.uses hapart₁ fun hv ha => hv.expr_uses hnames hlocated ha
    have hbody := hinner.uses hapart₂ (StmtsCode.uses hnames hlocated body)
    rw [Stmt.references]
    exact hcond.fork hbody rfl rfl
  | .forLoop x iter body, _, ⟨sequence, location, c₁, inner, id, hlocation, rfl, hsequence, hinner⟩,
      hapart => by
    rw [apart_append, apart_each] at hapart
    obtain ⟨hapart₁, -, hapart₂, -⟩ := hapart
    have hbody := hinner.uses hapart₂ (StmtsCode.uses hnames hlocated body)
    have hbound := hnames.use_eq hlocation .bound fun _ => rfl
    have hmem := (hnames.location x location hlocation).1
    have hloop : (Code.each ⟨id, .forLoop, [sequence, location], none⟩ [] inner .nil).Uses locations
        labels storage (env.use .bound x :: Stmt.listReferences env body) := by
      simp [Uses, Node.references, Node.var?, hbody.1, hbody.2, hbound, hmem]
    rw [Stmt.references]
    exact (hsequence.expr_uses hnames hlocated hapart₁).append hloop

theorem StmtsCode.uses (hnames : names.Resolves locations labels storage env)
    (hlocated : Located types locations) :
    (ss : List Stmt) → ∀ {c}, StmtsCode types names ss c → c.Apart locations →
      c.Uses locations labels storage (Stmt.listReferences env ss)
  | [], c, h, hapart => by
    rw [StmtsCode] at h
    subst h
    rw [Stmt.listReferences]
    exact .nil
  | s :: rest, _, ⟨c₁, c₂, rfl, hs, hrest⟩, hapart => by
    rw [apart_append] at hapart
    rw [Stmt.listReferences]
    exact (StmtCode.uses hnames hlocated s hs hapart.1).append
      (StmtsCode.uses hnames hlocated rest hrest hapart.2)

end

end Uses

end IR

end Choco
