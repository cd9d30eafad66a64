import Choco.Proofs.Execution

namespace Choco.IR

open Instruction

variable {host : Host} {s t : State} {u : ValueId} {value : Option Content} {i : Instruction}
  {is : List Instruction} {fault : Trap}

@[simp] theorem State.world_define (name : Option ValueId) (value : Option Content) :
    (s.define name value).world = s.world := by
  cases name <;> cases value <;> rfl

@[simp] theorem State.values_define (name u : ValueId) (value : Content) :
    (s.define (some name) (some value)).values u = if u = name then value else s.values u :=
  Function.update_apply ..

theorem State.values_define_of_ne {name : ValueId} (h : u ≠ name) :
    (s.define (some name) value).values u = s.values u := by
  cases value with
  | none => rfl
  | some value => rw [values_define, if_neg h]

@[simp] theorem Host.word_word (w : Int32) : host.word (.word w) = w := rfl

section Run

variable (host s) (x y v : ValueId) (xs : List ValueId) (r : Option ValueId) (w : Int32)

@[simp] theorem run_li : (word (.li w) xs v).run host s = some (.next (s.define (some v) (some (.word w)))) :=
  rfl

@[simp] theorem run_lw : (word (.lw w) [x] v).run host s =
    some (.next (s.define (some v) (some (.word (host.load s.world (s.values x) w))))) := rfl

@[simp] theorem run_sw : (act (.sw w) [x, y]).run host s =
    some (.next { s with world := host.store s.world (s.values x) w (host.word (s.values y)) }) := rfl

@[simp] theorem run_alu (op : AluOp) : (word (.alu op) [x, y] v).run host s =
    some
      (.next
        (s.define (some v) (some (.word (op.eval (host.word (s.values x)) (host.word (s.values y))))))) := rfl

@[simp] theorem run_addi : (word (.addi w) [x] v).run host s =
    some (.next (s.define (some v) (some (.word (host.word (s.values x) + w))))) := rfl

@[simp] theorem run_seqz : (word .seqz [x] v).run host s =
    some (.next (s.define (some v) (some (.word (Word.ofBool (host.word (s.values x) == 0)))))) := rfl

@[simp] theorem run_snez : (word .snez [x] v).run host s =
    some (.next (s.define (some v) (some (.word (Word.ofBool (host.word (s.values x) != 0)))))) := rfl

theorem run_branch (cond : Cond) (l : String) : (act (.branch cond l) [x, y]).run host s =
    some (if cond.holds (host.word (s.values x)) (host.word (s.values y)) then .jump l else .next s) :=
  congrArg some (apply_ite (outcome host none s) _ (.goto l) .next)

@[simp] theorem run_jump (l : String) : (act (.jump l) xs).run host s = some (.jump l) := rfl

@[simp] theorem run_label (l : String) : (act (.label l) xs).run host s = some (.next s) := rfl

@[simp] theorem run_call (func : String) : (⟨.call func, xs, r⟩ : Instruction).run host s =
    some
      (.next (State.define { s with world := s.world.note (.call func ((xs.map s.values).map host.word)) } r
      (some (.word (host.answer s.world func ((xs.map s.values).map host.word)))))) := rfl

@[simp] theorem run_ret : (act .ret [x]).run host s = some (.ret (host.word (s.values x))) := rfl

@[simp] theorem run_alloc : (word .alloc xs v).run host s = some
    (.next (s.define (some v) (some (.cell v)))) := rfl

end Run

/-- How instructions are left that do not jump among themselves. -/
def Host.straight (host : Host) : List Instruction → State → Option (Exit × State)
  | [], s => some (.next none, s)
  | i :: is, s =>
    match i.run host s with
    | some (.next t) => host.straight is t
    | some (.jump label) => (Trap.ofRoutine? label).map fun fault => (.trap fault, s)
    | some (.ret value) => some (.ret value, s)
    | none => none

@[simp] theorem straight_nil : host.straight [] s = some (.next none, s) := rfl

theorem straight_cons_next (h : i.run host s = some (.next t)) :
    host.straight (i :: is) s = host.straight is t := by
  rw [Host.straight, h]

theorem straight_append {js : List Instruction} (h : host.straight is s = some (.next none, t)) :
    host.straight (is ++ js) s = host.straight js t := by
  induction is generalizing s with
  | nil =>
    cases h
    rfl
  | cons i is ih =>
    rw [List.cons_append]
    rw [Host.straight] at h ⊢
    split at h
    · exact ih h
    · simp at h
    · cases h
    · cases h

theorem straight_trap {cond : Cond} {x y : ValueId} :
    host.straight (act (.branch cond fault.routine) [x, y] :: is) s =
      if cond.holds (host.word (s.values x)) (host.word (s.values y)) then some (.trap fault, s)
        else host.straight is s := by
  rw [Host.straight, run_branch]
  by_cases h : cond.holds (host.word (s.values x)) (host.word (s.values y))
  · simp [h]
  · simp [h]

theorem State.values_define_frame {name : Option ValueId} (h : u ∉ name) :
    (s.define name value).values u = s.values u := by
  cases name with
  | none => rfl
  | some name => exact values_define_of_ne fun he => h (he ▸ rfl)

theorem Instruction.run_frame (h : i.run host s = some (.next t)) (hu : u ∉ i.result) :
    t.values u = s.values u := by
  obtain ⟨effect, -, heffect⟩ := Option.map_eq_some_iff.mp h
  cases effect <;> cases heffect
  · exact State.values_define_frame hu
  · exact State.values_define_frame hu
  · rfl
  · rfl
  · exact State.values_define_frame hu
  · exact State.values_define_frame hu

theorem straight_frame {exit : Exit} (h : host.straight is s = some (exit, t)) (hu : u ∉ definitions is) :
    t.values u = s.values u := by
  induction is generalizing s with
  | nil =>
    cases h
    rfl
  | cons i is ih =>
    rw [definitions_cons, List.mem_append, Option.mem_toList, not_or] at hu
    rw [Host.straight] at h
    split at h
    · next s₁ hrun => exact (ih h hu.2).trans (run_frame hrun hu.1)
    · obtain ⟨fault, -, hfault⟩ := Option.map_eq_some_iff.mp h
      cases hfault
      rfl
    · cases h
      rfl
    · cases h

theorem straight_ne_timeout (is : List Instruction) (s : State) :
    host.straight is s ≠ some (.timeout, t) := by
  induction is generalizing s with
  | nil => exact nofun
  | cons i is ih =>
    rw [Host.straight]
    split
    · exact ih _
    · simp
    · exact nofun
    · exact nofun

def Does (host : Host) (is : List Instruction) (result : Option ValueId) (s : State) (r : Exit × World) :
    Prop :=
  ∃ t, t.world = r.2 ∧
    match r.1 with
    | .next value => host.straight is s = some (.next none, t) ∧ ∀ u ∈ result, value = some (t.values u)
    | exit => host.straight is s = some (exit, t)

section Does

variable {is : List Instruction} {v : ValueId} {r : Option ValueId} {w : World} {c : Content}

theorem Does.of_value (h : host.straight is s = some (.next none, t)) (hworld : t.world = w)
    (hvalue : t.values v = c) :
    Does host is (some v) s (.next (some c), w) := by
  refine ⟨t, hworld, h, fun u hu => ?_⟩
  obtain rfl := Option.mem_some.mp hu
  rw [hvalue]

theorem Does.of_act (h : host.straight is s = some (.next none, t)) (hworld : t.world = w) :
    Does host is none s (.next value, w) :=
  ⟨t, hworld, h, nofun⟩

theorem Does.of_trap (h : host.straight is s = some (.trap fault, t)) (hworld : t.world = w) :
    Does host is r s (.trap fault, w) :=
  ⟨t, hworld, h⟩

theorem Does.of_ret {value : Int32} (h : host.straight is s = some (.ret value, t)) (hworld : t.world = w) :
    Does host is r s (.ret value, w) :=
  ⟨t, hworld, h⟩

theorem Does.one_value (h : i.run host s = some (.next (s.define (some v) (some c)))) :
    Does host [i] (some v) s (.next (some c), s.world) := by
  apply Does.of_value (straight_cons_next h)
  · simp
  · simp

theorem Does.one_act (h : i.run host s = some (.next t)) : Does host [i] none s (.next value, t.world) :=
  .of_act (straight_cons_next h) rfl

end Does

section Words

theorem ofBool_and (a b : Bool) : Word.ofBool a &&& Word.ofBool b = Word.ofBool (a && b) := by
  cases a <;> cases b <;> decide

theorem floorAdjust_eq (a b : Int32) :
    Word.ofBool (decide (a % b ^^^ b < 0)) &&& Word.ofBool (a % b != 0) = Word.floorAdjust a b := by
  have hne : (a % b != 0) = decide (a % b ≠ 0) := by rw [Bool.eq_iff_iff, bne_iff_ne, decide_eq_true_iff]
  rw [ofBool_and, Bool.and_comm, hne]
  rfl

theorem ofBool_eq_zero (a : Bool) : (Word.ofBool a == 0) = !a := by
  cases a <;> decide

theorem sub_beq_zero (a b : Int32) : (a - b == 0) = decide (a = b) := by
  rw [Bool.eq_iff_iff, beq_iff_eq, decide_eq_true_iff]
  grind

theorem not_lt_eq_le (a b : Int32) : (!decide (b < a)) = decide (a ≤ b) := by
  rw [← decide_not, decide_eq_decide]
  exact Int32.not_lt

end Words

section Leaves

variable {x y v : ValueId} {is : List Instruction} {op : BinaryOp} {a : Int32} {index : Nat}
  {address : ValueId} {xs : List ValueId}

/-- The names that the instructions define differ from each other and from the operands. -/
structure Apart (xs : List ValueId) (is : List Instruction) : Prop where
  nodup : (definitions is).Nodup
  operands : ∀ x ∈ xs, x ∉ definitions is

theorem FloorFlat.does {quotient : Bool} (h : FloorFlat quotient x y v is)
    (hop : op.word? = if quotient then Word.floorDiv? else Word.floorMod?) (hapart : Apart [x, y] is) :
    Does host is (some v) s (host.perform (.binary op) [s.values x, s.values y] (some v) s.world) := by
  obtain ⟨zero, q, r, signs, differ, inexact, adjust, tail, rfl, htail⟩ := h
  have hnodup := hapart.nodup
  have hx := hapart.operands x (by simp)
  have hy := hapart.operands y (by simp)
  simp only [List.cons_append, List.nil_append, definitions_cons, Option.toList_some, Option.toList_none,
    List.mem_cons, not_or, List.nodup_cons] at hnodup hx hy ⊢
  have hdivisor : (s.define (some zero) (some (.word 0))).values y = s.values y :=
    State.values_define_of_ne hy.1
  by_cases hzero : host.word (s.values y) = 0
  · have hnone : op.word? (host.word (s.values x)) (host.word (s.values y)) = none := by
      rw [hop]
      cases quotient <;> simp [Word.floorDiv?, Word.floorMod?, hzero]
    rw [Host.perform, hnone]
    refine .of_trap ((straight_cons_next (run_li ..)).trans (straight_trap.trans (if_pos ?_))) rfl
    simp [hdivisor, hzero, Cond.holds]
  · have hbranch : ¬ Cond.eq.holds (host.word ((s.define (some zero) (some (.word 0))).values y))
        (host.word ((s.define (some zero) (some (.word 0))).values zero)) := by
      simpa [hdivisor, Cond.holds] using hzero
    have hstart (tail : List Instruction) : host.straight (word (.li 0) [] zero ::
        act (.branch .eq Trap.divisionByZero.routine) [y, zero] :: tail) s = host.straight tail
          (s.define (some zero) (some (.word 0))) :=
      (straight_cons_next (run_li ..)).trans (straight_trap.trans (if_neg hbranch))
    cases quotient with
    | true =>
      obtain rfl := htail
      rw [Host.perform, hop]
      simp only [if_true, Word.floorDiv?, if_neg hzero]
      apply Does.of_value ((hstart _).trans rfl)
      · rfl
      · simp only [State.values_define, Host.word_word, AluOp.eval, Word.div, Word.rem, if_neg hzero, if_true,
          hnodup, hx, hy, if_false, floorAdjust_eq]
    | false =>
      obtain ⟨correction, rfl⟩ := htail
      rw [Host.perform, hop]
      simp only [Bool.false_eq_true, if_false, Word.floorMod?, if_neg hzero]
      simp only [definitions_cons, Option.toList_some, List.cons_append, List.nil_append, definitions_nil,
        List.mem_cons, not_or] at hnodup hy
      apply Does.of_value ((hstart _).trans rfl)
      · rfl
      · simp only [State.values_define, Host.word_word, AluOp.eval, Word.rem, if_neg hzero, if_true,
          hnodup, hx, hy, if_false, floorAdjust_eq]

theorem Tested.does {alu : AluOp} {test : FlatOp} {f : Int32 → Bool} (h : Tested (.alu alu) test [x, y] v is)
    (htest : ∀ u s, (word test [u] v).run host s = some
      (.next (s.define (some v) (some (.word (Word.ofBool (f (host.word (s.values u)))))))))
    {a b : ValueId}
    (hop : op.word? (host.word (s.values a)) (host.word (s.values b)) = some
      (Word.ofBool (f (alu.eval (host.word (s.values x)) (host.word (s.values y)))))) :
    Does host is (some v) s (host.perform (.binary op) [s.values a, s.values b] (some v) s.world) := by
  obtain ⟨w, rfl⟩ := h
  rw [Host.perform, hop]
  apply Does.of_value ((straight_cons_next (run_alu ..)).trans (straight_cons_next (htest ..)))
  · simp
  · simp

theorem BinaryFlat.does (h : BinaryFlat x y v is op) (hapart : Apart [x, y] is) :
    Does host is (some v) s (host.perform (.binary op) [s.values x, s.values y] (some v) s.world) := by
  cases op with
  | add | sub | mul | lt | gt =>
    obtain rfl := h
    exact .one_value rfl
  | floorDiv | mod => exact FloorFlat.does h rfl hapart
  | ltEq | gtEq =>
    refine Tested.does h (f := (· == 0)) (fun _ _ => rfl) ?_
    simp [BinaryOp.word?, AluOp.eval, ofBool_eq_zero, not_lt_eq_le]
  | eq | is =>
    refine Tested.does h (f := (· == 0)) (fun _ _ => rfl) ?_
    simp [BinaryOp.word?, AluOp.eval, sub_beq_zero]
  | notEq =>
    refine Tested.does h (f := (· != 0)) (fun _ _ => rfl) ?_
    simp [BinaryOp.word?, AluOp.eval, bne, sub_beq_zero]
  | and | or => cases h

theorem LengthFlat.does (h : LengthFlat x v is) (hapart : Apart [x] is) :
    Does host is (some v) s (host.length (s.values x) s.world) := by
  obtain ⟨zero, rfl⟩ := h
  have hx := hapart.operands x (by simp)
  simp only [definitions_cons, Option.toList_some, Option.toList_none, List.cons_append, List.nil_append,
    List.mem_cons, not_or] at hx
  have hobject : (s.define (some zero) (some (.word 0))).values x = s.values x :=
    State.values_define_of_ne hx.1
  rw [Host.length]
  by_cases hzero : host.word (s.values x) = 0
  · rw [if_pos hzero]
    refine .of_trap ((straight_cons_next (run_li ..)).trans (straight_trap.trans (if_pos ?_))) rfl
    simp [hobject, hzero, Cond.holds]
  · rw [if_neg hzero]
    apply Does.of_value ((straight_cons_next (run_li ..)).trans (straight_trap.trans ((if_neg ?_).trans rfl)))
    · rfl
    · simp [hobject]
    · simpa [hobject, Cond.holds] using hzero

theorem AddressFlat.does {i : ValueId} (h : AddressFlat x i v is) (hapart : Apart [x, i] is) :
    Does host is (some v) s (host.element (s.values x) (host.word (s.values i)) s.world) := by
  obtain ⟨zero, length, position, four, offset, rfl⟩ := h
  have hnodup := hapart.nodup
  have hx := hapart.operands x (by simp)
  have hi := hapart.operands i (by simp)
  simp only [definitions_cons, definitions_nil, Option.toList_some, Option.toList_none, List.cons_append,
    List.nil_append, List.mem_cons, List.nodup_cons, not_or] at hnodup hx hi
  have hobject : (s.define (some zero) (some (.word 0))).values x = s.values x :=
    State.values_define_of_ne hx.1
  rw [Host.element]
  by_cases hzero : host.word (s.values x) = 0
  · rw [if_pos hzero]
    refine .of_trap ((straight_cons_next (run_li ..)).trans (straight_trap.trans (if_pos ?_))) rfl
    simp [hobject, hzero, Cond.holds]
  rw [if_neg hzero]
  -- Once the length is loaded, two branches compare the index to its bounds.
  let loaded := (s.define (some zero) (some (.word 0))).define (some length)
    (some (.word (host.load s.world (s.values x) 0)))
  have hloaded (rest : List Instruction) : host.straight (word (.li 0) [] zero ::
      act (.branch .eq Trap.indexOfNone.routine) [x, zero] :: word (.lw 0) [x] length :: rest) s =
        host.straight rest loaded := by
    rw [straight_cons_next (run_li ..), straight_trap, if_neg (by simpa [hobject, Cond.holds] using hzero),
      straight_cons_next (run_lw ..), hobject, State.world_define]
  have hindex : loaded.values i = s.values i := by simp [loaded, hi]
  have hlower : loaded.values zero = .word 0 := by simp [loaded, hnodup]
  have hupper : loaded.values length = .word (host.load s.world (s.values x) 0) := by simp [loaded]
  by_cases hneg : host.word (s.values i) < 0
  · rw [if_pos (.inl hneg)]
    refine .of_trap ((hloaded _).trans (straight_trap.trans (if_pos ?_))) (by simp [loaded])
    simp [hindex, hlower, Cond.holds, hneg]
  have hbelow : ¬ Cond.lt.holds (host.word (loaded.values i)) (host.word (loaded.values zero)) := by
    simpa [hindex, hlower, Cond.holds] using hneg
  by_cases hhigh : host.load s.world (s.values x) 0 ≤ host.word (s.values i)
  · rw [if_pos (.inr hhigh)]
    refine .of_trap ((hloaded _).trans
      (straight_trap.trans ((if_neg hbelow).trans (straight_trap.trans (if_pos ?_)))))
      (by simp [loaded])
    simp [hindex, hupper, Cond.holds, hhigh]
  rw [if_neg (not_or.mpr ⟨hneg, hhigh⟩)]
  apply Does.of_value ((hloaded _).trans
    (straight_trap.trans ((if_neg hbelow).trans (straight_trap.trans ((if_neg ?_).trans rfl)))))
  · simp [loaded]
  · simp only [loaded, State.values_define, Host.word_word, AluOp.eval, if_true, if_false, hi, hx, hnodup,
      Content.word.injEq]
    grind
  · simpa [hindex, hupper, Cond.holds] using hhigh

theorem straight_stores (locations : List ValueId) :
    host.straight (locations.map fun l => act (.sw 0) [l, x]) s = some (.next none, { s with
      world := (locations.map s.values).foldl
        (fun w location => host.store w location 0 (host.word (s.values x))) s.world }) := by
  induction locations generalizing s with
  | nil => rfl
  | cons l locations ih =>
    rw [List.map_cons, straight_cons_next (run_sw ..)]
    exact ih

theorem elementOffset_eq_ofNat {offset : Int32} (h : elementOffset index = .ok offset) :
    offset = Int32.ofNat (4 * index + 4) := by
  rw [elementOffset] at h
  split at h
  · next hoffset =>
      cases h
      rw [Word.ofNat?] at hoffset
      split at hoffset
      · exact (Option.some.inj hoffset).symm
      · cases hoffset
  · cases h

theorem Fills.straight_eq (host : Host) (h : Fills address index xs is) (ha : s.values address = .word a) :
    host.straight is s = some
      (.next none, { s with world := s.world.fill a index (xs.map fun x => host.word (s.values x)) }) := by
  induction xs generalizing index is s with
  | nil => exact h ▸ rfl
  | cons x xs ih =>
    obtain ⟨offset, rest, hoffset, rfl, hrest⟩ := h
    rw [straight_cons_next (run_sw ..)]
    apply (ih (s := ⟨s.values, host.store s.world (s.values address) offset (host.word (s.values x))⟩)
      hrest ha).trans
    simp [World.fill, ha, Host.store, elementOffset_eq_ofNat hoffset]

theorem Spells.straight_eq (host : Host) {bytes : List UInt8} (h : Spells address index bytes is)
    (ha : s.values address = .word a) (haddress : address ∉ definitions is) :
    ∃ t, host.straight is s = some (.next none, t) ∧
      t.world = s.world.fill a index (bytes.map fun byte => Int32.ofNat byte.toNat) := by
  induction bytes generalizing index is s with
  | nil => exact ⟨s, h ▸ rfl, rfl⟩
  | cons byte bytes ih =>
    obtain ⟨code, offset, rest, hoffset, rfl, hrest⟩ := h
    simp only [definitions_cons, Option.toList_some, Option.toList_none, List.cons_append, List.nil_append,
      List.mem_cons, not_or] at haddress
    have hkept : (s.define (some code) (some (.word (Int32.ofNat byte.toNat)))).values address = .word a :=
      (State.values_define_of_ne haddress.1).trans ha
    obtain ⟨t, ht, hworld⟩ :=
      ih (s := State.mk _ (host.store s.world (.word a) offset (Int32.ofNat byte.toNat))) hrest hkept
      haddress.2
    refine ⟨t, ?_, ?_⟩
    · rw [← ht, straight_cons_next (run_li ..), straight_cons_next (run_sw ..), hkept]
      simp
    · rw [hworld, Host.store, elementOffset_eq_ofNat hoffset]
      rfl

theorem Allocates.straight_eq (host : Host) {length : Nat} (h : Allocates length v is)
    (hnodup : (definitions is).Nodup) :
    ∃ t, host.straight is s = some (.next none, t) ∧
      t.values v = .word (host.answer s.world Library.malloc [Int32.ofNat (4 * length + 4)]) ∧
      t.world = (s.world.note (.call Library.malloc [Int32.ofNat (4 * length + 4)])).write
        (host.answer s.world Library.malloc [Int32.ofNat (4 * length + 4)]) (Int32.ofNat length) := by
  obtain ⟨offset, size, header, hoffset, rfl⟩ := h
  obtain rfl := elementOffset_eq_ofNat hoffset
  simp only [definitions_cons, definitions_nil, Option.toList_some, Option.toList_none, List.cons_append,
    List.nil_append, List.nodup_cons, List.mem_cons, not_or] at hnodup
  refine ⟨_, (straight_cons_next (run_li ..)).trans ((straight_cons_next (run_call ..)).trans
    ((straight_cons_next (run_li ..)).trans (straight_cons_next (run_sw ..)))), ?_, ?_⟩
  · simp [hnodup]
  · simp [hnodup, Host.store]

theorem LiteralFlat.does {l : Literal} (h : LiteralFlat l v is) (hapart : Apart [] is) :
    Does host is (some v) s (host.perform (.literal l) [] (some v) s.world) := by
  cases l with
  | int n | bool b | none =>
    obtain rfl := h
    exact .one_value rfl
  | str string =>
    obtain ⟨head, tail, rfl, hhead, htail⟩ := h
    have hnodup := hapart.nodup
    rw [definitions_append, List.nodup_append] at hnodup
    obtain ⟨t, ht, hv, hworld⟩ := hhead.straight_eq host (s := s) hnodup.1
    have hfresh : v ∉ definitions tail := fun hv => hnodup.2.2 v hhead.names.1 v hv rfl
    obtain ⟨t', ht', hworld'⟩ := htail.straight_eq host hv hfresh
    refine .of_value ((straight_append ht).trans ht') ?_ ((straight_frame ht' hfresh).trans ?_)
    · rw [hworld', hworld]
      simp
    · rw [hv]
      simp

theorem LeafFlat.does {kind : Kind} {wanted : Bool} {r : Option ValueId} (h : LeafFlat kind xs wanted r is)
    (hapart : Apart xs is) :
    Does host is r s (host.perform kind (xs.map s.values) r s.world) := by
  cases h with
  | literal h => exact h.does hapart
  | @unary op x v _ _ h =>
    cases op with
    | neg =>
      obtain ⟨zero, rfl⟩ := h
      have hx := hapart.operands x (by simp)
      simp only [definitions_cons, Option.toList_some, List.cons_append, List.mem_cons, not_or] at hx
      apply Does.of_value ((straight_cons_next (run_li ..)).trans (straight_cons_next (run_alu ..)))
      · simp
      · simp [hx, AluOp.eval, UnaryOp.word]
    | not =>
      obtain rfl := h
      exact .one_value rfl
  | binary h => exact h.does hapart
  | ret => exact .of_ret (t := s) rfl rfl
  | pass => exact .of_act (t := s) rfl rfl
  | @assign x locations =>
    exact .of_act (straight_stores locations) rfl
  | alloc => exact .one_value rfl
  | load => exact .one_value rfl
  | store => exact .one_act (run_sw ..)
  | len h => exact h.does hapart
  | call h =>
    rw [Host.perform, if_neg h]
    exact .of_value (straight_cons_next (run_call ..)) (by simp) (by simp)
  | callVoid h =>
    rw [Host.perform, if_neg h]
    exact .one_act (run_call ..)
  | @list xs v _ head tail hhead htail =>
    have hnodup := hapart.nodup
    rw [definitions_append, List.nodup_append] at hnodup
    obtain ⟨t, ht, hv, hworld⟩ := hhead.straight_eq host (s := s) hnodup.1
    have hfills := htail.straight_eq host hv
    have hvalues : (xs.map fun x => host.word (t.values x)) = (xs.map s.values).map host.word := by
      rw [List.map_map]
      refine List.map_congr_left fun x hx => congrArg host.word (straight_frame ht fun hmem => ?_)
      exact hapart.operands x hx (by rw [definitions_append]; exact List.mem_append_left _ hmem)
    refine .of_value ((straight_append ht).trans hfills) ?_ ?_
    · rw [hvalues, hworld]
      simp
    · rw [hv]
      simp
  | indexString h | getAddress h => exact h.does hapart

end Leaves

end Choco.IR
