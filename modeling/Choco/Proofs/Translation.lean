import Choco.Proofs.Building

namespace Choco.IR

variable (types : Types) (names : Names)

def Loaded (value : Code → ValueId → Prop) (c : Code) (w : ValueId) : Prop :=
  ∃ v c₁ c₂, c = c₁ ++ c₂ ∧ value c₁ v ∧ Build.Loads types v c₂ w

def Yielded (value : Code → ValueId → Prop) (c : Code) : Prop :=
  ∃ v c₁ id, c = c₁ ++ .leaf ⟨id, .yield, [v], none⟩ .nil ∧ value c₁ v

def Padded (body : Code → Prop) (c : Code) : Prop :=
  (c ≠ .nil ∧ body c) ∨ (body .nil ∧ ∃ id, c = .leaf ⟨id, .pass, [], none⟩ .nil)

/-- Code for the character of a string at an index. -/
def CharacterCode (base index : ValueId) (c : Code) (v : ValueId) : Prop :=
  ∃ address code id₁ id₂ id₃,
    c = .leaf ⟨id₁, .indexString, [base, index], some ⟨address, .location .int⟩⟩
      (.leaf ⟨id₂, .load, [address], some ⟨code, .plain .int⟩⟩
        (.leaf ⟨id₃, .list, [code], some ⟨v, .plain .str⟩⟩ .nil))

mutual

def ExprCode : Expr → Code → ValueId → Prop
  | .literal value ty, c, v => ∃ id, c = .leaf ⟨id, .literal value, [], some ⟨v, .plain ty⟩⟩ .nil
  | .name x _, c, v => names.location x = .ok v ∧ c = .nil
  | .unary op operand ty, c, v =>
    ∃ x c₁ id, c = c₁ ++ .leaf ⟨id, .unary op, [x], some ⟨v, .plain ty⟩⟩ .nil ∧
      Loaded types (ExprCode operand) c₁ x
  | .binary op lhs rhs _, c, v =>
    if op.isShortCircuit then
      ∃ first second id, c = .fork ⟨id, .shortCircuit op, [], some ⟨v, .plain .bool⟩⟩ first second .nil ∧
        Yielded (Loaded types (ExprCode lhs)) first ∧ Yielded (Loaded types (ExprCode rhs)) second
    else
      ∃ ty x y c₁ c₂ id, resultType op lhs.ty rhs.ty = .ok ty ∧
        c = c₁ ++ (c₂ ++ .leaf ⟨id, .binary op, [x, y], some ⟨v, .plain ty⟩⟩ .nil) ∧
        Loaded types (ExprCode lhs) c₁ x ∧ Loaded types (ExprCode rhs) c₂ y
  | .ifExpr cond onTrue onFalse ty, c, v =>
    ∃ x c₁ first second id, c = c₁ ++ .fork ⟨id, .ifExpr, [x], some ⟨v, .plain ty⟩⟩ first second .nil ∧
      Loaded types (ExprCode cond) c₁ x ∧
      Yielded (Loaded types (ExprCode onTrue)) first ∧ Yielded (Loaded types (ExprCode onFalse)) second
  | .list elems ty, c, v =>
    ∃ xs c₁ id, c = c₁ ++ .leaf ⟨id, .list, xs, some ⟨v, .plain ty⟩⟩ .nil ∧ ValuesCode elems c₁ xs
  | .index base position _, c, v =>
    ∃ x i c₁ c₂ c₃, c = c₁ ++ (c₂ ++ c₃) ∧ Loaded types (ExprCode base) c₁ x ∧
      Loaded types (ExprCode position) c₂ i ∧ match base.ty with
      | .str => CharacterCode x i c₃ v
      | .list elem => ∃ id, c₃ = .leaf ⟨id, .getAddress, [x, i], some ⟨v, .location elem⟩⟩ .nil
      | _ => False
  | .call func args ty, c, v =>
    ∃ label xs c₁ id, names.callee func = .ok label ∧
      c = c₁ ++ .leaf ⟨id, .call label, xs, some ⟨v, .plain ty⟩⟩ .nil ∧ ValuesCode args c₁ xs

def ValuesCode : List Expr → Code → List ValueId → Prop
  | [], c, xs => c = .nil ∧ xs = []
  | e :: es, c, xs =>
    ∃ x rest c₁ c₂, xs = x :: rest ∧ c = c₁ ++ c₂ ∧ Loaded types (ExprCode e) c₁ x ∧ ValuesCode es c₂ rest

end

def TargetCode : Expr → Code → ValueId → Prop
  | .name x _, c, v => names.location x = .ok v ∧ c = .nil
  | .index base position ty, c, v => base.ty.isList ∧ ExprCode types names (.index base position ty) c v
  | _, _, _ => False

def TargetsCode : List Expr → Code → List ValueId → Prop
  | [], c, xs => c = .nil ∧ xs = []
  | e :: es, c, xs =>
    ∃ x rest c₁ c₂, xs = x :: rest ∧ c = c₁ ++ c₂ ∧ TargetCode types names e c₁ x ∧ TargetsCode es c₂ rest

mutual

def StmtCode : Stmt → Code → Prop
  | .expr (.call func args _), c =>
    ∃ label xs c₁ id, names.callee func = .ok label ∧
      c = c₁ ++ .leaf ⟨id, .call label, xs, none⟩ .nil ∧ ValuesCode types names args c₁ xs
  | .expr e, c => ∃ v, Loaded types (ExprCode types names e) c v
  | .assign a, c =>
    ∃ v locations c₁ c₂ id, c = c₁ ++ (c₂ ++ .leaf ⟨id, .assign, v :: locations, none⟩ .nil) ∧
      Loaded types (ExprCode types names a.value) c₁ v ∧ TargetsCode types names a.targets c₂ locations
  | .ret (some e), c =>
    ∃ v c₁ id, c = c₁ ++ .leaf ⟨id, .ret, [v], none⟩ .nil ∧ Loaded types (ExprCode types names e) c₁ v
  | .ret none, c =>
    ∃ v id id', c = .leaf ⟨id, .literal .none, [], some ⟨v, .plain .none⟩⟩ (.leaf ⟨id', .ret, [v], none⟩ .nil)
  | .pass, c => ∃ id, c = .leaf ⟨id, .pass, [], none⟩ .nil
  | .ifElse cond onTrue onFalse, c =>
    ∃ v c₁ first second id, c = c₁ ++ .fork ⟨id, .ifElse, [v], none⟩ first second .nil ∧
      Loaded types (ExprCode types names cond) c₁ v ∧ Padded (StmtsCode onTrue) first ∧
      Padded (StmtsCode onFalse) second
  | .whileLoop cond body, c =>
    ∃ test inner id, c = .fork ⟨id, .whileLoop, [], none⟩ test inner .nil ∧
      Yielded (Loaded types (ExprCode types names cond)) test ∧ Padded (StmtsCode body) inner
  | .forLoop x iter body, c =>
    ∃ sequence location c₁ inner id, names.location x = .ok location ∧
      c = c₁ ++ .each ⟨id, .forLoop, [sequence, location], none⟩ [] inner .nil ∧
      Loaded types (ExprCode types names iter) c₁ sequence ∧ Padded (StmtsCode body) inner

def StmtsCode : List Stmt → Code → Prop
  | [], c => c = .nil
  | s :: rest, c => ∃ c₁ c₂, c = c₁ ++ c₂ ∧ StmtCode s c₁ ∧ StmtsCode rest c₂

end

namespace Build

variable {types names}

theorem gives_loaded {x : Build ValueId} {value : Types → Code → ValueId → Prop}
    (h : Gives x fun types v c => value types c v) :
    Gives (do load (← x)) fun types w c => Loaded types (value types) c w :=
  (h.bind gives_load).imp fun _ _ _ ⟨v, c₁, c₂, hc, hv, hload⟩ => ⟨v, c₁, c₂, hc, hv, hload⟩

theorem makes_yielded {x : Build ValueId} {value : Types → Code → ValueId → Prop}
    (h : Gives x fun types v c => value types c v) :
    Makes (yielding do load (← x)) fun types c => Yielded (Loaded types (value types)) c :=
  makes_yielding (gives_loaded h)

theorem gives_character (base index : ValueId) :
    Gives (character base index) fun _ v c => CharacterCode base index c v := by
  refine ((gives_emit .indexString [base, index] (.location .int)).bind fun address =>
    (gives_emit .load [address] (.plain .int)).bind fun code => gives_emit .list [code] (.plain .str)).imp ?_
  rintro types v c ⟨address, c₁, c₂, rfl, ⟨id₁, rfl⟩, code, c₃, c₄, rfl, ⟨id₂, rfl⟩, id₃, rfl⟩
  exact ⟨address, code, id₁, id₂, id₃, rfl⟩

theorem Gives.bind_loaded {α : Type} {x : Build ValueId} {value : Types → Code → ValueId → Prop}
    {f : ValueId → Build α} {Q : ValueId → Types → α → Code → Prop}
    (h : Gives x fun types v c => value types c v) (hf : ∀ w, Gives (f w) (Q w)) :
    Gives (do let w ← load (← x); f w) fun types r c =>
      ∃ w c₁ c₂, c = c₁ ++ c₂ ∧ Loaded types (value types) c₁ w ∧ Q w types r c₂ := by
  refine (h.bind fun v => (gives_load v).bind hf).imp ?_
  rintro types r c ⟨v, c₁, c₂, rfl, hv, w, c₃, c₄, rfl, hload, hQ⟩
  exact ⟨w, c₁ ++ c₃, c₄, (Code.append_assoc _ _ _).symm, ⟨v, c₁, c₃, rfl, hv, hload⟩, hQ⟩

mutual

theorem gives_expr (names : Names) :
    (e : Expr) → Gives (expr names e) fun types v c => ExprCode types names e c v
  | .literal value ty => by
    unfold expr
    exact (gives_emit _ _ _).imp fun types v c h => by rw [ExprCode]; exact h
  | .name x ty => by
    unfold expr
    exact (gives_ofExcept _).imp fun types v c h => by rw [ExprCode]; exact h
  | .unary op operand ty => by
    unfold expr
    refine ((gives_expr names operand).bind_loaded fun x => gives_emit (.unary op) [x] (.plain ty)).imp ?_
    rintro types v c ⟨x, c₁, c₂, rfl, hx, id, rfl⟩
    rw [ExprCode]
    exact ⟨x, c₁, id, rfl, hx⟩
  | .binary op lhs rhs ty => by
    unfold expr
    by_cases hop : op.isShortCircuit = true
    · rw [if_pos hop]
      refine (gives_fork (makes_yielded (gives_expr names lhs)) (makes_yielded (gives_expr names rhs))
        (.shortCircuit op) [] (.plain .bool)).imp ?_
      rintro types v c ⟨id, first, second, rfl, hfirst, hsecond⟩
      rw [ExprCode, if_pos hop]
      exact ⟨first, second, id, rfl, hfirst, hsecond⟩
    · rw [if_neg hop]
      refine ((gives_ofExcept _).bind fun ty => (gives_expr names lhs).bind_loaded fun x =>
        (gives_expr names rhs).bind_loaded fun y => gives_emit (.binary op) [x, y] (.plain ty)).imp ?_
      rintro types v c ⟨ty, c₀, c₁', rfl, ⟨hty, rfl⟩, x, c₁, c₂', rfl, hx, y, c₂, c₃, rfl, hy, id, rfl⟩
      rw [ExprCode, if_neg hop]
      exact ⟨ty, x, y, c₁, c₂, id, hty, rfl, hx, hy⟩
  | .ifExpr cond onTrue onFalse ty => by
    unfold expr
    refine ((gives_expr names cond).bind_loaded fun x =>
      gives_fork (makes_yielded (gives_expr names onTrue)) (makes_yielded (gives_expr names onFalse))
        .ifExpr [x] (.plain ty)).imp ?_
    rintro types v c ⟨x, c₁, c₂, rfl, hx, id, first, second, rfl, hfirst, hsecond⟩
    rw [ExprCode]
    exact ⟨x, c₁, first, second, id, rfl, hx, hfirst, hsecond⟩
  | .list elems ty => by
    unfold expr
    refine ((gives_values names elems).bind fun xs => gives_emit .list xs (.plain ty)).imp ?_
    rintro types v c ⟨xs, c₁, c₂, rfl, hxs, id, rfl⟩
    rw [ExprCode]
    exact ⟨xs, c₁, id, rfl, hxs⟩
  | .index base position ty => by
    unfold expr
    have hlast (x i : ValueId) : Gives (match base.ty with
        | .str => character x i
        | .list elem => emit .getAddress [x, i] (.location elem)
        | other => throw (.internal (.cannotIndexType other))) fun _ v c =>
          match base.ty with
          | .str => CharacterCode x i c v
          | .list elem => ∃ id, c = .leaf ⟨id, .getAddress, [x, i], some ⟨v, .location elem⟩⟩ .nil
          | _ => False := by
      cases base.ty with
      | str => exact gives_character x i
      | list elem => exact gives_emit _ _ _
      | int | bool | none | empty | object => exact gives_throw _
    refine ((gives_expr names base).bind_loaded fun x =>
      (gives_expr names position).bind_loaded fun i => hlast x i).imp ?_
    rintro types v c ⟨x, c₁, c₂', rfl, hx, i, c₂, c₃, rfl, hi, hlast⟩
    rw [ExprCode]
    exact ⟨x, i, c₁, c₂, c₃, rfl, hx, hi, hlast⟩
  | .call func args ty => by
    unfold expr
    refine ((gives_ofExcept _).bind fun label =>
      (gives_values names args).bind fun xs => gives_emit (.call label) xs (.plain ty)).imp ?_
    rintro types v c ⟨label, c₀, c₁', rfl, ⟨hlabel, rfl⟩, xs, c₁, c₂, rfl, hxs, id, rfl⟩
    rw [ExprCode]
    exact ⟨label, xs, c₁, id, hlabel, rfl, hxs⟩

theorem gives_values (names : Names) :
    (es : List Expr) → Gives (values names es) fun types xs c => ValuesCode types names es c xs
  | [] => by
    unfold values
    exact (gives_pure _).imp fun types xs c h => by rw [ValuesCode]; exact ⟨h.2, h.1⟩
  | e :: es => by
    unfold values
    refine ((gives_expr names e).bind_loaded fun x =>
      (gives_values names es).bind fun rest => gives_pure (x :: rest)).imp ?_
    rintro types xs c ⟨x, c₁, c₂', rfl, hx, rest, c₂, c₃, rfl, hrest, rfl, rfl⟩
    rw [ValuesCode]
    exact ⟨x, rest, c₁, c₂, rfl, by rw [Code.append_nil], hx, hrest⟩

end

theorem gives_value (names : Names) (e : Expr) :
    Gives (value names e) fun types w c => Loaded types (ExprCode types names e) c w :=
  gives_loaded (gives_expr names e)

theorem gives_target (names : Names) (e : Expr) :
    Gives (target names e) fun types v c => TargetCode types names e c v := by
  cases e with
  | name x ty => exact (gives_ofExcept _).imp fun types v c h => h
  | index base position ty =>
    rw [target]
    split
    next hlist => exact (gives_expr names _).imp fun types v c h => ⟨hlist, h⟩
    next => exact gives_throw _
  | literal value ty | unary op operand ty | binary op lhs rhs ty | ifExpr cond onTrue onFalse ty
  | list elems ty
  | call func args ty => exact gives_throw _

theorem gives_targets (names : Names) (es : List Expr) :
    Gives (es.mapM (target names)) fun types xs c => TargetsCode types names es c xs := by
  induction es with
  | nil => exact (gives_pure []).imp fun types xs c h => ⟨h.2, h.1⟩
  | cons e es ih =>
    rw [List.mapM_cons]
    refine ((gives_target names e).bind fun x => ih.bind fun rest => gives_pure (x :: rest)).imp ?_
    rintro types xs c ⟨x, c₁, c₂', rfl, hx, rest, c₂, c₃, rfl, hrest, rfl, rfl⟩
    exact ⟨x, rest, c₁, c₂, rfl, by rw [Code.append_nil], hx, hrest⟩

theorem gives_exprStmt (names : Names) (e : Expr) :
    Gives (do let _ ← value names e) fun types _ c => ∃ v, Loaded types (ExprCode types names e) c v := by
  refine ((gives_value names e).bind fun _ => gives_pure ()).imp ?_
  rintro types - c ⟨v, c₁, c₂, rfl, hv, -, rfl⟩
  exact ⟨v, by rwa [Code.append_nil]⟩

mutual

theorem gives_stmt (names : Names) : (s : Stmt) → Gives (stmt names s) fun types _ c =>
    StmtCode types names s c
  | .expr (.call func args ty) => by
    unfold stmt
    refine ((gives_ofExcept _).bind fun label =>
      (gives_values names args).bind fun xs => gives_emitVoid (.call label) xs).imp ?_
    rintro types - c ⟨label, c₀, c₁', rfl, ⟨hlabel, rfl⟩, xs, c₁, c₂, rfl, hxs, id, rfl⟩
    rw [StmtCode]
    exact ⟨label, xs, c₁, id, hlabel, rfl, hxs⟩
  | .expr (.literal value ty) | .expr (.name x ty) | .expr (.unary op operand ty)
  | .expr (.binary op lhs rhs ty)
  | .expr (.ifExpr cond onTrue onFalse ty) | .expr (.list elems ty) | .expr (.index base position ty) => by
    unfold stmt
    exact (gives_exprStmt names _).imp fun types _ c h => by rw [StmtCode]; exact h; simp
  | .assign a => by
    unfold stmt
    refine ((gives_value names a.value).bind fun v =>
      (gives_targets names a.targets).bind fun locations => gives_emitVoid .assign (v :: locations)).imp ?_
    rintro types - c ⟨v, c₁, c₂', rfl, hv, locations, c₂, c₃, rfl, hlocations, id, rfl⟩
    rw [StmtCode]
    exact ⟨v, locations, c₁, c₂, id, rfl, hv, hlocations⟩
  | .ret (some e) => by
    unfold stmt
    refine ((gives_value names e).bind fun v => gives_emitVoid .ret [v]).imp ?_
    rintro types - c ⟨v, c₁, c₂, rfl, hv, id, rfl⟩
    rw [StmtCode]
    exact ⟨v, c₁, id, rfl, hv⟩
  | .ret none => by
    unfold stmt
    refine ((gives_emit (.literal .none) [] (.plain .none)).bind fun v => gives_emitVoid .ret [v]).imp ?_
    rintro types - c ⟨v, c₁, c₂, rfl, ⟨id, rfl⟩, id', rfl⟩
    rw [StmtCode]
    exact ⟨v, id, id', rfl⟩
  | .pass => by
    unfold stmt
    exact (gives_emitVoid .pass []).imp fun types _ c h => by rw [StmtCode]; exact h
  | .ifElse cond onTrue onFalse => by
    unfold stmt
    refine ((gives_value names cond).bind fun v => gives_forkVoid (makes_padded (gives_stmts names onTrue))
      (makes_padded (gives_stmts names onFalse)) .ifElse [v]).imp ?_
    rintro types - c ⟨v, c₁, c₂, rfl, hv, id, first, second, rfl, hfirst, hsecond⟩
    rw [StmtCode]
    exact ⟨v, c₁, first, second, id, rfl, hv, hfirst, hsecond⟩
  | .whileLoop cond body => by
    unfold stmt
    refine (gives_forkVoid (makes_yielding (gives_value names cond)) (makes_padded (gives_stmts names body))
      .whileLoop []).imp ?_
    rintro types - c ⟨id, test, inner, rfl, htest, hinner⟩
    rw [StmtCode]
    exact ⟨test, inner, id, rfl, htest, hinner⟩
  | .forLoop x iter body => by
    unfold stmt
    refine ((gives_value names iter).bind fun sequence => (gives_ofExcept _).bind fun location =>
      gives_eachVoid (makes_padded (gives_stmts names body)) .forLoop [sequence, location]).imp ?_
    rintro types - c ⟨sequence, c₁, c₂, rfl, hsequence, location, c₃, c₄, rfl, ⟨hlocation, rfl⟩, id, inner,
      rfl, hinner⟩
    rw [StmtCode]
    exact ⟨sequence, location, c₁, inner, id, hlocation, rfl, hsequence, hinner⟩

theorem gives_stmts (names : Names) :
    (ss : List Stmt) → Gives (stmts names ss) fun types _ c => StmtsCode types names ss c
  | [] => by
    unfold stmts
    exact (gives_pure ()).imp fun types _ c h => by rw [StmtsCode]; exact h.2
  | s :: rest => by
    unfold stmts
    refine ((gives_stmt names s).bind fun _ => gives_stmts names rest).imp ?_
    rintro types - c ⟨-, c₁, c₂, rfl, hs, hrest⟩
    rw [StmtsCode]
    exact ⟨c₁, c₂, rfl, hs, hrest⟩

end

end Build

end Choco.IR
