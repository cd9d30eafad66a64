import Choco.Eval.Environment

namespace Choco.Eval

/-- A record as it was, up to the values of its variables and to variables that it has got. -/
structure Record.Same (r r' : Record) : Prop where
  parent : r'.parent = r.parent
  functions : r'.functions = r.functions
  globals : r'.globals = r.globals
  names : r.vars.map Prod.fst <+: r'.vars.map Prod.fst

theorem Record.Same.refl (r : Record) : r.Same r := ⟨rfl, rfl, rfl, List.prefix_refl _⟩

theorem Record.Same.trans {r r' r'' : Record} (h : r.Same r') (h' : r'.Same r'') : r.Same r'' :=
  ⟨h'.parent.trans h.parent, h'.functions.trans h.functions, h'.globals.trans h.globals,
    h.names.trans h'.names⟩

theorem prefix_bindKey (key : String) (value : α) (l : List (String × α)) :
    l.map Prod.fst <+: (bindKey key value l).map Prod.fst := by
  induction l with
  | nil => exact List.nil_prefix
  | cons kv l ih =>
    unfold bindKey
    split
    next heq => simp [heq]
    next => exact (List.prefix_cons_inj _).mpr ih

theorem Record.same_bindKey (r : Record) (name : String) (value : Value) :
    r.Same { r with vars := bindKey name value r.vars } :=
  ⟨rfl, rfl, rfl, prefix_bindKey name value r.vars⟩

namespace Environment

/-- The records of `k` calls inside each other: the global one, and others inside one that was there
before. -/
structure Stacked (k : Nat) (env : Environment) : Prop where
  depth : env.depth = k + 1
  root : ∀ r, env.records[0]? = some r → r.parent = none
  parent : ∀ i r, env.records[i]? = some r → i ≠ 0 → ∃ p, p < i ∧ r.parent = some p

/-- The same records in the same order, where those below `k` have kept what was declared in them. -/
structure Kept (k : Nat) (env env' : Environment) : Prop where
  depth : env'.depth = env.depth
  record : ∀ i r, env.records[i]? = some r → ∃ r', env'.records[i]? = some r' ∧ r'.parent = r.parent ∧
    (i < k → r.Same r')

variable {env env' env'' : Environment} {k n i : Nat} {name : String} {value : Value}

theorem Stacked.size (h : env.Stacked k) : env.records.size = k + 1 := h.depth

theorem Kept.refl (k : Nat) (env : Environment) : env.Kept k env :=
  ⟨rfl, fun _ r hr => ⟨r, hr, rfl, fun _ => .refl r⟩⟩

theorem Kept.trans (h : env.Kept k env') (h' : env'.Kept k env'') : env.Kept k env'' := by
  refine ⟨h'.depth.trans h.depth, fun i r hr => ?_⟩
  obtain ⟨r', hr', hparent, hsame⟩ := h.record i r hr
  obtain ⟨r'', hr'', hparent', hsame'⟩ := h'.record i r' hr'
  exact ⟨r'', hr'', hparent'.trans hparent, fun hi => (hsame hi).trans (hsame' hi)⟩

theorem Kept.mono (h : env.Kept n env') (hk : k ≤ n) : env.Kept k env' := by
  refine ⟨h.depth, fun i r hr => ?_⟩
  obtain ⟨r', hr', hparent, hsame⟩ := h.record i r hr
  exact ⟨r', hr', hparent, fun hi => hsame (Nat.lt_of_lt_of_le hi hk)⟩

theorem Kept.exists_record (h : env.Kept k env') {r' : Record} (hr' : env'.records[i]? = some r') :
    ∃ r, env.records[i]? = some r ∧ r'.parent = r.parent := by
  have hi : i < env'.depth := (Array.getElem?_eq_some_iff.mp hr').1
  rw [h.depth] at hi
  obtain ⟨r'', hr'', hparent, -⟩ := h.record i _ (Array.getElem?_eq_getElem hi)
  cases hr'.symm.trans hr''
  exact ⟨_, Array.getElem?_eq_getElem hi, hparent⟩

theorem Kept.stacked (h : env.Kept n env') (hs : env.Stacked k) : env'.Stacked k := by
  refine ⟨h.depth.trans hs.depth, fun r' hr' => ?_, fun i r' hr' hi => ?_⟩
  · obtain ⟨r, hr, hparent⟩ := h.exists_record hr'
    exact hparent.trans (hs.root r hr)
  · obtain ⟨r, hr, hparent⟩ := h.exists_record hr'
    obtain ⟨p, hp, hrp⟩ := hs.parent i r hr hi
    exact ⟨p, hp, hparent.trans hrp⟩

theorem kept_modify {f : Record → Record} (hf : ∀ r, (f r).parent = r.parent)
    (hsame : i < k → ∀ r : Record, r.Same (f r)) :
    env.Kept k ⟨env.records.modify i f⟩ := by
  refine ⟨Array.size_modify, fun j r hr => ?_⟩
  rw [Array.getElem?_modify, hr]
  split
  next heq =>
    subst heq
    exact ⟨f r, rfl, hf r, fun hj => hsame hj r⟩
  next => exact ⟨r, rfl, rfl, fun _ => .refl r⟩

theorem Stacked.resolveWithin (h : env.Stacked k) (hi : i ≤ k) (hn : i < n) :
    (∃ owner, env.resolveWithin name n i = .ok owner ∧ owner ≤ k) ∨
      env.resolveWithin name n i = .error (.undefinedName name) := by
  induction n generalizing i with
  | zero => cases hn
  | succ n ih =>
    have hlt : i < env.records.size := h.size ▸ Nat.lt_succ_of_le hi
    have hr := Array.getElem?_eq_getElem hlt
    rw [Environment.resolveWithin, hr]
    dsimp only
    split
    next => exact .inl ⟨0, rfl, Nat.zero_le k⟩
    next =>
      split
      next => exact .inl ⟨i, rfl, hi⟩
      next =>
        -- The global record has no parent, and the parent of any other comes before it.
        by_cases hzero : i = 0
        · subst hzero
          rw [h.root _ hr]
          exact .inr rfl
        · obtain ⟨p, hp, hparent⟩ := h.parent i _ hr hzero
          rw [hparent]
          exact ih (by omega) (by omega)

theorem Stacked.resolve (h : env.Stacked k) (name : String) :
    (∃ owner, env.resolve k name = .ok owner ∧ owner ≤ k) ∨
      env.resolve k name = .error (.undefinedName name) :=
  h.resolveWithin (Nat.le_refl k) (by rw [h.size]; omega)

theorem Stacked.get (h : env.Stacked k) (name : String) :
    (∃ value, env.get k name = .ok value) ∨ env.get k name = .error (.undefinedName name) := by
  obtain ⟨owner, howner, -⟩ | herror := h.resolve name
  · simp only [Environment.get, howner, bind, Except.bind]
    split
    next value _ => exact .inl ⟨value, rfl⟩
    next => exact .inr rfl
  · exact .inr (by simp only [Environment.get, herror, bind, Except.bind])

theorem Stacked.update (h : env.Stacked k) (hi : i ≤ k) (f : Record → Record) :
    env.update i f = .ok ⟨env.records.modify i f⟩ :=
  if_pos (h.size ▸ Nat.lt_succ_of_le hi)

theorem Stacked.set (h : env.Stacked k) (n : Nat) :
    (∃ env', env.set k name value = .ok env' ∧ env.Kept n env') ∨
      env.set k name value = .error (.undefinedName name) := by
  obtain ⟨owner, howner, hle⟩ | herror := h.resolve name
  · have hset : env.set k name value = env.define owner name value := by
      simp only [Environment.set, howner, bind, Except.bind]
    exact .inl ⟨_, hset.trans (h.update hle _),
      kept_modify (fun _ => rfl) fun _ r => r.same_bindKey name value⟩
  · exact .inr (by simp only [Environment.set, herror, bind, Except.bind])

theorem owner_lt_depth {owner : Nat} {func : FuncDef} (h : env.functionWithin name n i = some (owner, func)) :
    owner < env.depth := by
  induction n generalizing i with
  | zero => cases h
  | succ n ih =>
    unfold functionWithin at h
    split at h
    next => cases h
    next r hr =>
      split at h
      next =>
        cases h
        exact (Array.getElem?_eq_some_iff.mp hr).1
      next =>
        obtain ⟨p, -, hp⟩ := Option.bind_eq_some_iff.mp h
        exact ih hp

theorem getElem?_push (env : Environment) (parent : Nat) (hi : i < env.depth) :
    (env.push parent).2.records[i]? = env.records[i]? :=
  Array.getElem?_push_lt hi ▸ (Array.getElem?_eq_getElem hi).symm

theorem Stacked.push (h : env.Stacked k) {parent : Nat} (hp : parent ≤ k) :
    (env.push parent).2.Stacked (k + 1) := by
  have hsize := h.size
  refine ⟨by simp [Environment.push, Environment.depth, hsize], fun r hr => ?_, fun i r hr hi => ?_⟩
  · rw [getElem?_push env parent (h.depth ▸ Nat.succ_pos k)] at hr
    exact h.root r hr
  · rw [Environment.push, Array.getElem?_push] at hr
    split at hr
    next heq =>
      cases hr
      exact ⟨parent, by omega, rfl⟩
    next => exact h.parent i r hr hi

theorem Kept.pop (parent : Nat) (h : (env.push parent).2.Kept env.depth env') (hpos : 0 < env.depth) :
    env.Kept env.depth (env'.pop env.depth) := by
  have hsize : env'.records.size = env.records.size + 1 := h.depth.trans (Array.size_push _)
  rw [Environment.pop, if_pos (show env.depth > global from hpos), Array.shrink_eq_take]
  refine ⟨by simp [Environment.depth, hsize], fun i r hr => ?_⟩
  have hi : i < env.depth := (Array.getElem?_eq_some_iff.mp hr).1
  rw [← getElem?_push env parent hi] at hr
  obtain ⟨r', hr', hparent, hsame⟩ := h.record i r hr
  have hin : i < min env.depth env'.records.size - 0 := Nat.lt_min.mpr ⟨hi, hsize ▸ Nat.lt_succ_of_lt hi⟩
  exact ⟨r', by rw [Array.take_eq_extract, Array.getElem?_extract, if_pos hin, Nat.zero_add, hr'],
    hparent, hsame⟩

end Environment

end Choco.Eval
