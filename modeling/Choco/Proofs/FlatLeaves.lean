import Choco.Proofs.Building
import Choco.Proofs.Instructions
import Choco.Proofs.Shape

namespace Choco.IR

variable {e : Error} {l : Literal}

namespace Build

open Choco.IR.Module Instruction

variable {α β : Type} {i length : Nat}

def Runs (x : Build α) (P : α → List Instruction → Prop) : Prop :=
  ∀ b, b.module.Sound → ∃ a b' c is, x b = .ok a b' ∧ Grown b b' c ∧ c.Reads is ∧ P a is

def Fails (x : Build α) (e : Error) : Prop := ∀ b, b.module.Sound → ∃ b', x b = .error e b'

theorem Runs.imp {x : Build α} {P Q : α → List Instruction → Prop} (h : Runs x P)
    (hPQ : ∀ a is, P a is → Q a is) :
    Runs x Q := by
  intro b hb
  obtain ⟨a, b', c, is, hrun, hgrown, hreads, hP⟩ := h b hb
  exact ⟨a, b', c, is, hrun, hgrown, hreads, hPQ a is hP⟩

theorem runs_pure (a : α) : Runs (pure a) fun r is => r = a ∧ is = [] :=
  fun b hb => ⟨a, b, .nil, [], rfl, ⟨.nil hb, by simp [Code.ids]⟩, .nil, rfl, rfl⟩

theorem runs_ofExcept {x : Except Error α} {a : α} (h : x = .ok a) : Runs (ofExcept x) fun r is => r = a ∧
    is = [] := by
  rw [h]
  exact runs_pure a

theorem Runs.bind {x : Build α} {f : α → Build β} {P : α → List Instruction → Prop}
    {Q : α → β → List Instruction → Prop} (hx : Runs x P) (hf : ∀ a is, P a is → Runs (f a) (Q a)) :
    Runs (x >>= f) fun r is => ∃ a js ks, is = js ++ ks ∧ P a js ∧ Q a r ks := by
  intro b hb
  obtain ⟨a, b₁, c₁, js, hrun₁, hgrown₁, hreads₁, hP⟩ := hx b hb
  obtain ⟨r, b₂, c₂, ks, hrun₂, hgrown₂, hreads₂, hQ⟩ := hf a js hP b₁ hgrown₁.module.change.sound
  exact ⟨r, b₂, c₁ ++ c₂, js ++ ks, (Action.bind_ok hrun₁).trans hrun₂, hgrown₁.trans hgrown₂,
    hreads₁.append hreads₂, a, js, ks, rfl, hP, hQ⟩

theorem fails_throw (e : Error) : Fails (throw e : Build α) e := fun b _ => ⟨b, rfl⟩

theorem fails_ofExcept {x : Except Error α} (h : x = .error e) : Fails (ofExcept x) e := by
  rw [h]
  exact fails_throw e

theorem Fails.bind {x : Build α} (h : Fails x e) (f : α → Build β) : Fails (x >>= f) e := fun b hb => by
  obtain ⟨b', hrun⟩ := h b hb
  exact ⟨b', Action.bind_error hrun⟩

theorem Fails.map {x : Build α} (h : Fails x e) (g : α → β) : Fails (g <$> x) e := fun b hb => by
  obtain ⟨b', hrun⟩ := h b hb
  exact ⟨b', Action.map_error hrun⟩

theorem runs_word (op : FlatOp) (xs : List ValueId) : Runs (word op xs) fun v is => is = [.word op xs v] := by
  intro b hb
  obtain ⟨⟨id, _, xs, _⟩, m, rfl, rfl, rfl, hrun, hmade, hresult, hstays⟩ :=
    emit_made hb (.flat op) xs .word [] (by simp)
  exact ⟨_, _, _, _, hrun, ⟨hmade.extends_leaf hresult hstays, by simp [Code.ids]⟩,
    .leaf id (.word op xs _) .nil, rfl⟩

theorem runs_act (op : FlatOp) (xs : List ValueId) : Runs (act op xs) fun _ is => is = [.act op xs] := by
  intro b hb
  obtain ⟨⟨id, _, xs, _⟩, m, rfl, rfl, rfl, hrun, hmade, hresult, hstays⟩ :=
    emitVoid_made hb (.flat op) xs [] (by simp)
  exact ⟨_, _, _, _, hrun, ⟨hmade.extends_leaf hresult hstays, by simp [Code.ids]⟩,
    .leaf id (.act op xs) .nil, rfl⟩

theorem elementOffset_eq (i : Nat) :
    elementOffset i = if 4 * i + 4 < 2147483648 then .ok (Int32.ofNat (4 * i + 4))
      else .error (.unimplemented .largeObject) := by
  unfold elementOffset Word.ofNat?
  by_cases h : 4 * i + 4 < 2147483648 <;> simp only [h, if_true, if_false]

theorem elementOffset_eq_ok (h : 4 * i + 4 < 2147483648) :
    elementOffset i = .ok (Int32.ofNat (4 * i + 4)) := by
  rw [elementOffset_eq, if_pos h]

theorem elementOffset_eq_error (h : ¬ 4 * i + 4 < 2147483648) :
    elementOffset i = .error (.unimplemented .largeObject) := by
  rw [elementOffset_eq, if_neg h]

theorem runs_object (h : 4 * length + 4 < 2147483648) :
    Runs (object length) fun v is => Allocates length v is := by
  refine ((runs_ofExcept (elementOffset_eq_ok h)).bind fun k is hk =>
    (runs_word (.li k) []).bind fun size _ _ =>
    (runs_word (.call Library.malloc) [size]).bind fun v _ _ =>
    (runs_word (.li (Int32.ofNat length)) []).bind fun header _ _ =>
    (runs_act (.sw 0) [v, header]).bind fun _ _ _ =>
    runs_pure v).imp ?_
  rintro v is ⟨k, _, _, rfl, ⟨rfl, rfl⟩, size, _, _, rfl, rfl, v, _, _, rfl, rfl, header, _, _, rfl, rfl, _,
    _, _, rfl, rfl, rfl, rfl⟩
  exact ⟨_, size, header, elementOffset_eq_ok h, rfl⟩

theorem fails_object (h : ¬ 4 * length + 4 < 2147483648) :
    Fails (object length) (.unimplemented .largeObject) :=
  (fails_ofExcept (elementOffset_eq_error h)).bind _

theorem runs_fillObject (v : ValueId) (index : Nat) (xs : List ValueId)
    (h : 4 * (index + xs.length) + 4 < 2147483648) :
    Runs (fillObject v index xs) fun _ is => Fills v index xs is := by
  induction xs generalizing index with
  | nil => exact (runs_pure ()).imp fun _ is h => h.2
  | cons x xs ih =>
    rw [List.length_cons] at h
    have hoffset : elementOffset index = .ok (Int32.ofNat (4 * index + 4)) := elementOffset_eq_ok (by omega)
    refine ((runs_ofExcept hoffset).bind fun k is hk => (runs_act (.sw k) [v, x]).bind fun _ _ _ =>
      ih (index + 1) (by omega)).imp ?_
    rintro _ is ⟨k, _, _, rfl, ⟨rfl, rfl⟩, _, _, rest, rfl, rfl, hrest⟩
    exact ⟨_, rest, hoffset, rfl, hrest⟩

theorem runs_fillString (v : ValueId) (index : Nat) (bytes : List UInt8)
    (h : 4 * (index + bytes.length) + 4 < 2147483648) : Runs (fillString v index bytes) fun _ is =>
      Spells v index bytes is := by
  induction bytes generalizing index with
  | nil => exact (runs_pure ()).imp fun _ is h => h.2
  | cons byte bytes ih =>
    rw [List.length_cons] at h
    have hoffset : elementOffset index = .ok (Int32.ofNat (4 * index + 4)) := elementOffset_eq_ok (by omega)
    refine ((runs_word (.li (Int32.ofNat byte.toNat)) []).bind fun code _ _ =>
      (runs_ofExcept hoffset).bind fun k is hk =>
      (runs_act (.sw k) [v, code]).bind fun _ _ _ => ih (index + 1) (by omega)).imp ?_
    rintro _ is ⟨code, _, _, rfl, rfl, k, _, _, rfl, ⟨rfl, rfl⟩, _, _, rest, rfl, rfl, hrest⟩
    exact ⟨code, _, rest, hoffset, rfl, hrest⟩

theorem runs_flatUnary (op : UnaryOp) (x : ValueId) : Runs (flatUnary op x) fun v is =>
    UnaryFlat x v is op := by
  cases op with
  | neg =>
    refine ((runs_word (.li 0) []).bind fun zero _ _ => runs_word (.alu .sub) [zero, x]).imp ?_
    rintro v is ⟨zero, _, _, rfl, rfl, rfl⟩
    exact ⟨zero, rfl⟩
  | not => exact runs_word .seqz [x]

theorem runs_flatFloor (quotient : Bool) (x y : ValueId) :
    Runs (flatFloor quotient x y) fun v is => FloorFlat quotient x y v is := by
  have htail (q r adjust : ValueId) : Runs (if quotient then word (.alu .sub) [q, adjust] else do
        let correction ← word (.alu .mul) [y, adjust]
        word (.alu .add) [r, correction]) fun v is =>
      if quotient then is = [.word (.alu .sub) [q, adjust] v]
      else ∃ correction, is = [.word (.alu .mul) [y, adjust] correction,
        .word (.alu .add) [r, correction] v] := by
    cases quotient with
    | true => exact runs_word _ _
    | false =>
      refine ((runs_word (.alu .mul) [y, adjust]).bind fun c _ _ => runs_word (.alu .add) [r, c]).imp ?_
      rintro v is ⟨c, _, _, rfl, rfl, rfl⟩
      exact ⟨c, rfl⟩
  refine ((runs_word (.li 0) []).bind fun zero _ _ =>
    (runs_act (.branch .eq Trap.divisionByZero.routine) [y, zero]).bind
    fun _ _ _ => (runs_word (.alu .div) [x, y]).bind fun q _ _ =>
      (runs_word (.alu .rem) [x, y]).bind fun r _ _ =>
    (runs_word (.alu .xor) [r, y]).bind fun signs _ _ =>
    (runs_word (.alu .slt) [signs, zero]).bind fun differ _ _ =>
    (runs_word .snez [r]).bind fun inexact _ _ =>
    (runs_word (.alu .and) [differ, inexact]).bind fun adjust _ _ =>
    htail q r adjust).imp ?_
  rintro v is ⟨zero, _, _, rfl, rfl, _, _, _, rfl, rfl, q, _, _, rfl, rfl, r, _, _, rfl, rfl, signs, _, _,
    rfl, rfl, differ, _, _, rfl, rfl, inexact, _, _, rfl, rfl, adjust, _, tail, rfl, rfl, htail⟩
  exact ⟨zero, q, r, signs, differ, inexact, adjust, tail, rfl, htail⟩

theorem runs_tested (op test : FlatOp) (xs : List ValueId) :
    Runs (do word test [← word op xs]) fun v is => Tested op test xs v is := by
  refine ((runs_word op xs).bind fun w _ _ => runs_word test [w]).imp ?_
  rintro v is ⟨w, _, _, rfl, rfl, rfl⟩
  exact ⟨w, rfl⟩

theorem runs_flatLen (x : ValueId) : Runs (flatLen x) fun v is => LengthFlat x v is := by
  refine ((runs_word (.li 0) []).bind fun zero _ _ =>
    (runs_act (.branch .eq Trap.lenOfNone.routine) [x, zero]).bind
    fun _ _ _ => runs_word (.lw 0) [x]).imp ?_
  rintro v is ⟨zero, _, _, rfl, rfl, _, _, _, rfl, rfl, rfl⟩
  exact ⟨zero, rfl⟩

theorem runs_flatAddress (x i : ValueId) : Runs (flatAddress x i) fun v is => AddressFlat x i v is := by
  refine ((runs_word (.li 0) []).bind fun zero _ _ =>
    (runs_act (.branch .eq Trap.indexOfNone.routine) [x, zero]).bind
    fun _ _ _ => (runs_word (.lw 0) [x]).bind fun length _ _ =>
    (runs_act (.branch .lt Trap.indexOutOfRange.routine) [i, zero]).bind fun _ _ _ =>
    (runs_act (.branch .ge Trap.indexOutOfRange.routine) [i, length]).bind fun _ _ _ =>
    (runs_word (.addi 1) [i]).bind fun position _ _ => (runs_word (.li 4) []).bind fun four _ _ =>
    (runs_word (.alu .mul) [position, four]).bind fun offset _ _ => runs_word (.alu .add) [x, offset]).imp ?_
  rintro v is ⟨zero, _, _, rfl, rfl, _, _, _, rfl, rfl, length, _, _, rfl, rfl, _, _, _, rfl, rfl, _, _, _,
    rfl, rfl, position, _, _, rfl, rfl, four, _, _, rfl, rfl, offset, _, _, rfl, rfl, rfl⟩
  exact ⟨zero, length, position, four, offset, rfl⟩

theorem runs_stores (x : ValueId) (locations : List ValueId) :
    Runs (locations.forM fun location => storeWord 0 location x) fun _ is =>
      is = locations.map fun l => .act (.sw 0) [l, x] := by
  induction locations with
  | nil => exact (runs_pure ()).imp fun _ is h => h.2
  | cons l locations ih =>
    refine ((runs_act (.sw 0) [l, x]).bind fun _ _ _ => ih).imp ?_
    rintro _ is ⟨_, _, _, rfl, rfl, rfl⟩
    rfl

theorem runs_flatLiteral (h : ∀ s, l = .str s → 4 * (Text.encodeUtf8 s).size + 4 < 2147483648) :
    Runs (flatLiteral l) fun v is => LiteralFlat l v is := by
  cases l with
  | int n | bool b | none => exact runs_word _ _
  | str s =>
    have hsize := h s rfl
    refine ((runs_object hsize).bind fun v _ _ => (runs_fillString v 0 (Text.encodeUtf8 s).toList
      (by rw [Array.length_toList]; omega)).bind fun _ _ _ => runs_pure v).imp ?_
    rintro v is ⟨v, head, _, rfl, hhead, _, tail, _, rfl, htail, rfl, rfl⟩
    exact ⟨head, tail, by rw [List.append_nil], hhead, htail⟩

theorem flatBinary_runs {b : Builder} (hb : b.module.Sound) {op : BinaryOp} {x y : ValueId} {ty : ValueType}
    (hop : op.isShortCircuit = false) (hx : b.module.valueType x = .ok ty) (hty : ty.source? = none) :
    ∃ v b' c is, flatBinary op x y b = .ok v b' ∧ Grown b b' c ∧ c.Reads is ∧ BinaryFlat x y v is op := by
  have hquery : edit (Edit.query fun m => m.valueType x) b = .ok ty b := edit_query_eq_ok.mpr ⟨hx, rfl⟩
  have hfound {f : Build ValueId} {P : ValueId → List Instruction → Prop} (hf : Runs f P)
      (hrun : flatBinary op x y b = f b) :
        ∃ v b' c is, flatBinary op x y b = .ok v b' ∧ Grown b b' c ∧ c.Reads is ∧ P v is := by
    rw [hrun]
    exact hf b hb
  have hstart {f : ValueType → Build ValueId} : (edit (Edit.query fun m => m.valueType x) >>= f) b = f ty b :=
    Action.bind_ok hquery
  cases ty with
  | plain ty => cases hty
  | location ty | word =>
    cases op with
    | add | sub | mul | lt | gt => exact hfound (runs_word _ _) hstart
    | floorDiv | mod => exact hfound (runs_flatFloor _ _ _) hstart
    | ltEq | gtEq | eq | notEq | is => exact hfound (runs_tested _ _ _) hstart
    | and | or => cases hop

end Build

/-- Why an operation without regions has no flat code. -/
def Node.failure? (n : Node) : Option Error :=
  match n.kind with
  | .literal (.str s) =>
    if 4 * (Text.encodeUtf8 s).size + 4 < 2147483648 then none else some (.unimplemented .largeObject)
  | .list => if 4 * n.operands.length + 4 < 2147483648 then none else some (.unimplemented .largeObject)
  | .call func =>
    if func = "len" ∧ n.operands.length ≠ 1 then
      some (.internal (.operandCount (.call "len") 1 n.operands.length)) else none
  | _ => none

namespace Build

variable {b : Builder} {n : Node}

theorem failure?_literal {id : OpId} {xs : List ValueId} {r : Option Def}
    (h : (⟨id, .literal l, xs, r⟩ : Node).failure? = none) (s : String) (hl : l = .str s) :
    4 * (Text.encodeUtf8 s).size + 4 < 2147483648 := by
  subst hl
  by_contra hlarge
  simp [Node.failure?, hlarge] at h

theorem flatOp_runs (hb : b.module.Sound) (hn : n.Plain) (hprint : n.kind ≠ .call "print")
    (hinput : n.kind ≠ .call "input")
    (hty : ∀ op, n.kind = .binary op → ∀ x ∈ n.operands, ∃ ty, b.module.valueType x = .ok ty ∧
      ty.source? = none)
    (hfit : n.failure? = none) (parent : Option Place) (k : Nat) :
    ∃ v b' c is, flatOp n.id (n.op [] parent) k b = .ok v b' ∧ Grown b b' c ∧ c.Reads is ∧
      LeafFlat n.kind n.operands n.result.isSome v is := by
  have hsome {f : Build ValueId} {P : ValueId → List Instruction → Prop}
      (hf : ∃ v b' c is, f b = .ok v b' ∧ Grown b b' c ∧ c.Reads is ∧ P v is)
      (hP : ∀ v is, P v is → LeafFlat n.kind n.operands n.result.isSome (some v) is) :
      ∃ v b' c is, (some <$> f) b = .ok v b' ∧ Grown b b' c ∧ c.Reads is ∧
        LeafFlat n.kind n.operands n.result.isSome v is := by
    obtain ⟨v, b', c, is, hrun, hgrown, hreads, h⟩ := hf
    exact ⟨some v, b', c, is, Action.map_ok hrun, hgrown, hreads, hP v is h⟩
  have hnone {f : Build Unit} {P : List Instruction → Prop} (hf : Runs f fun _ is => P is)
      (hP : ∀ is, P is → LeafFlat n.kind n.operands n.result.isSome none is) :
      ∃ v b' c is, (do f; return none : Build (Option ValueId)) b = .ok v b' ∧ Grown b b' c ∧ c.Reads is ∧
        LeafFlat n.kind n.operands n.result.isSome v is := by
    obtain ⟨_, b', c, is, hrun, hgrown, hreads, h⟩ := hf b hb
    exact ⟨none, b', c, is, Action.bind_ok hrun, hgrown, hreads, hP is h⟩
  cases hn with
  | literal id l r => exact hsome (runs_flatLiteral (failure?_literal hfit) b hb) fun v is h => .literal h
  | unary id op x r => exact hsome (runs_flatUnary op x b hb) fun v is h => .unary h
  | binary id op x y r h _ =>
    obtain ⟨ty, hx, hplain⟩ := hty op rfl x (by simp)
    exact hsome (flatBinary_runs hb h hx hplain) fun v is h => .binary h
  | ret id x => exact hnone (runs_act .ret [x]) fun is h => h ▸ .ret
  | pass id => exact ⟨none, b, .nil, [], rfl, ⟨.nil hb, by simp [Code.ids]⟩, .nil, .pass⟩
  | assign id x locations => exact hnone (runs_stores x locations) fun is h => h ▸ .assign
  | alloc id ty r => exact hsome (runs_word .alloc [] b hb) fun v is h => h ▸ .alloc
  | load id x r => exact hsome (runs_word (.lw 0) [x] b hb) fun v is h => h ▸ .load
  | store id x y => exact hnone (runs_act (.sw 0) [x, y]) fun is h => h ▸ .store
  | call id func xs r =>
    by_cases hlen : func = "len"
    · subst hlen
      have harity : xs.length = 1 := by
        by_contra hne
        simp [Node.failure?, hne] at hfit
      obtain ⟨x, rfl⟩ := List.length_eq_one_iff.mp harity
      exact hsome (runs_flatLen x b hb) fun v is h => .len h
    · have hcall : flatOp id (Node.op ⟨id, .call func, xs, r⟩ [] parent) k b =
          (if r.isSome then some <$> word (.call func) xs
            else do act (.call func) xs; return none : Build _) b := by
        have hflat : flatCall func xs r.isSome =
            if r.isSome then some <$> word (.call func) xs else do act (.call func) xs; return none := by
          unfold flatCall
          split
          next => exact absurd rfl hlen
          next => exact absurd rfl hlen
          next => exact absurd rfl hprint
          next => exact absurd rfl hinput
          next => rfl
        rw [← hflat]
        simp [flatOp, Node.op]
      rw [hcall]
      cases r with
      | none => exact hnone (runs_act (.call func) xs) fun is h => h ▸ .callVoid hlen
      | some r => exact hsome (runs_word (.call func) xs b hb) fun v is h => h ▸ .call hlen
  | list id xs r =>
    have hsize : 4 * xs.length + 4 < 2147483648 := by
      by_contra hlarge
      simp [Node.failure?, hlarge] at hfit
    obtain ⟨v, b', c, is, hrun, hgrown, hreads, v, head, _, rfl, hhead, _, tail, _, rfl, htail, rfl, rfl⟩ :=
      ((runs_object hsize).bind fun v _ _ => (runs_fillObject v 0 xs (by omega)).bind fun _ _ _ =>
        runs_pure (some v)) b hb
    rw [List.append_nil] at hreads
    exact ⟨some v, b', c, head ++ tail, hrun, hgrown, hreads, .list hhead htail⟩
  | indexString id x i r => exact hsome (runs_flatAddress x i b hb) fun v is h => .indexString h
  | getAddress id x i r => exact hsome (runs_flatAddress x i b hb) fun v is h => .getAddress h

theorem flatOp_fails (hb : b.module.Sound) (hn : n.Plain) (hfit : n.failure? = some e) (parent : Option Place)
    (k : Nat) :
    ∃ b', flatOp n.id (n.op [] parent) k b = .error e b' := by
  cases hn with
  | literal id l r =>
    cases l with
    | int | bool | none => cases hfit
    | str s =>
      simp only [Node.failure?] at hfit
      split at hfit
      next => cases hfit
      next hlarge =>
        cases hfit
        exact (((fails_object hlarge).bind _).map some) b hb
  | list id xs r =>
    simp only [Node.failure?] at hfit
    split at hfit
    next => cases hfit
    next hlarge =>
      cases hfit
      exact ((fails_object hlarge).bind _) b hb
  | call id func xs r =>
    simp only [Node.failure?] at hfit
    split at hfit
    next h =>
      cases hfit
      obtain ⟨rfl, harity⟩ := h
      refine ⟨b, ?_⟩
      cases xs with
      | nil => rfl
      | cons x xs =>
        cases xs with
        | nil => exact absurd rfl harity
        | cons y xs => rfl
    next => cases hfit
  | unary | binary | ret | pass | assign | alloc | load | store | indexString | getAddress => cases hfit

end Build

end Choco.IR
