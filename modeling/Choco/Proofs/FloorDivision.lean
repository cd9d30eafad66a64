import Choco.Proofs.StraightRuns
import Choco.Eval.Expr
import Mathlib.Tactic.Linarith

namespace Choco

variable {a b : Int}

def floorGap (a b : Int) : Int := if a.tmod b ≠ 0 ∧ (a.tmod b < 0 ↔ 0 ≤ b) then 1 else 0

theorem tmod_nonpos (h : a < 0) : a.tmod b ≤ 0 := by
  have := Int.tmod_nonneg b (a := -a) (by omega)
  rw [Int.neg_tmod] at this
  omega

theorem fdiv_eq_tdiv_sub_floorGap (hb : b ≠ 0) : a.fdiv b = a.tdiv b - floorGap a b := by
  have hdvd : b ∣ a ↔ a.tmod b = 0 := Int.dvd_iff_tmod_eq_zero
  rw [Int.fdiv_eq_tdiv, floorGap]
  by_cases ha : a < 0
  · have hsign := tmod_nonpos (b := b) ha
    grind
  · have hsign := Int.tmod_nonneg b (Int.not_lt.mp ha)
    grind

theorem fmod_eq_tmod_add_floorGap (hb : b ≠ 0) : a.fmod b = a.tmod b + b * floorGap a b := by
  rw [Int.fmod_def, Int.tmod_def, fdiv_eq_tdiv_sub_floorGap hb, Int.mul_sub]
  omega

theorem fmod_bounds (hb : b ≠ 0) : 0 ≤ a.fmod b ∧ a.fmod b < b ∨ b < a.fmod b ∧ a.fmod b ≤ 0 := by
  rcases Int.lt_or_gt_of_ne hb with hneg | hpos
  · have hnonneg := Int.fmod_nonneg_of_pos (-a) (Int.neg_pos_of_neg hneg)
    have hlt := Int.fmod_lt_of_pos (-a) (Int.neg_pos_of_neg hneg)
    rw [Int.neg_fmod_neg] at hnonneg hlt
    exact .inr ⟨by omega, by omega⟩
  · exact .inl ⟨Int.fmod_nonneg_of_pos a hpos, Int.fmod_lt_of_pos a hpos⟩

theorem fdiv_bounds (hb : b ≠ 0) (hle : -2147483648 ≤ a) (hlt : a < 2147483648) :
    -2147483648 ≤ a.fdiv b ∧ (a.fdiv b < 2147483648 ↔ ¬ (a = -2147483648 ∧ b = -1)) := by
  have hsum := Int.mul_fdiv_add_fmod a b
  have hrem := fmod_bounds (a := a) hb
  generalize a.fdiv b = q at *
  generalize a.fmod b = r at *
  refine ⟨?_, ?_, ?_⟩
  · by_contra h
    rcases hrem with hrem | hrem <;> nlinarith
  · rintro hq ⟨rfl, rfl⟩
    omega
  · intro hne
    by_contra h
    -- a quotient that large needs a negative divisor, and any but minus one makes it smaller again
    have hbneg : b ≤ -1 := by
      rcases hrem with hrem | hrem
      · nlinarith
      · omega
    have hr : r ≤ 0 := by omega
    have hbpos : -1 ≤ b := by
      by_contra hb
      nlinarith
    obtain rfl : b = -1 := by omega
    omega

namespace Word

theorem xor_lt_zero_iff (a b : Int32) : a ^^^ b < 0 ↔ (a.toInt < 0 ↔ 0 ≤ b.toInt) := by
  have hsign (w : Int32) : w < 0 ↔ w.toBitVec.msb = true := by
    rw [Int32.lt_iff_toBitVec_slt, Int32.toBitVec_zero, BitVec.slt_zero_eq_msb]
  have hneg (w : Int32) : w.toInt < 0 ↔ w.toBitVec.msb = true := Int32.lt_iff_toInt_lt.symm.trans (hsign w)
  rw [hsign, Int32.toBitVec_xor, BitVec.msb_xor, ← Int.not_lt, hneg, hneg]
  cases a.toBitVec.msb <;> cases b.toBitVec.msb <;> simp

theorem toInt_floorAdjust (a b : Int32) : (floorAdjust a b).toInt = floorGap a.toInt b.toInt := by
  have hzero : a % b ≠ 0 ↔ a.toInt.tmod b.toInt ≠ 0 := by
    rw [← Int32.toInt_mod, ne_eq, ne_eq, ← Int32.toInt_inj, Int32.toInt_zero]
  have hsigns := xor_lt_zero_iff (a % b) b
  rw [Int32.toInt_mod] at hsigns
  simp only [floorAdjust, floorGap, ofBool, Bool.and_eq_true, decide_eq_true_eq, hzero, hsigns]
  split <;> rfl

section Division

variable {a b : Int32}

theorem toInt_ne_zero (hb : b ≠ 0) : b.toInt ≠ 0 := fun h => hb (Int32.toInt_inj.mp h)

theorem toInt_floorQuotient (hb : b ≠ 0) :
    (a / b - floorAdjust a b).toInt = (a.toInt.fdiv b.toInt).bmod (2 ^ 32) := by
  rw [Int32.toInt_sub, Int32.toInt_div, toInt_floorAdjust, Int.bmod_sub_bmod,
    fdiv_eq_tdiv_sub_floorGap (toInt_ne_zero hb)]

theorem toInt_floorRemainder (hb : b ≠ 0) : (a % b + b * floorAdjust a b).toInt = a.toInt.fmod b.toInt := by
  have hbounds := fmod_bounds (a := a.toInt) (toInt_ne_zero hb)
  have hle := b.le_toInt
  have hlt := b.toInt_lt
  rw [Int32.toInt_add, Int32.toInt_mul, toInt_floorAdjust, Int32.toInt_mod, Int.add_bmod_bmod,
    ← fmod_eq_tmod_add_floorGap (toInt_ne_zero hb)]
  exact Int.bmod_eq_of_le (by omega) (by omega)

/-- The quotient and the remainder of a floored division on words. -/
structure Floored (a b q r : Int32) : Prop where
  remainder : r.toInt = a.toInt - b.toInt * a.toInt.fdiv b.toInt
  sign : 0 ≤ r.toInt ∧ r.toInt < b.toInt ∨ b.toInt < r.toInt ∧ r.toInt ≤ 0
  quotient : q = Int32.ofInt (a.toInt.fdiv b.toInt)
  /-- The quotient overflows once. -/
  exact_iff : q.toInt = a.toInt.fdiv b.toInt ↔ ¬ (a = Int32.minValue ∧ b = -1)
  recombine : a = b * q + r

theorem floored (hb : b ≠ 0) : Floored a b (a / b - floorAdjust a b) (a % b + b * floorAdjust a b) where
  remainder := by rw [toInt_floorRemainder hb, Int.fmod_def]
  sign := by
    rw [toInt_floorRemainder hb]
    exact fmod_bounds (toInt_ne_zero hb)
  quotient := by
    rw [← Int32.toInt_inj, toInt_floorQuotient hb, Int32.toInt_ofInt]
    rfl
  exact_iff := by
    have hbounds := fdiv_bounds (toInt_ne_zero hb) a.le_toInt a.toInt_lt
    have hmin : a = Int32.minValue ∧ b = -1 ↔ a.toInt = -2147483648 ∧ b.toInt = -1 := by
      rw [← Int32.toInt_inj, ← Int32.toInt_inj]
      rfl
    -- wrapping around changes a quotient exactly if it is no 32-bit number
    rw [toInt_floorQuotient hb, hmin, ← hbounds.2]
    constructor
    · intro h
      rw [← h]
      exact Int.bmod_lt (by decide)
    · intro h
      exact Int.bmod_eq_of_le (by omega) (by omega)
  recombine := by
    have hle := a.le_toInt
    have hlt := a.toInt_lt
    rw [← Int32.toInt_inj, Int32.toInt_add, Int32.toInt_mul, toInt_floorQuotient hb, toInt_floorRemainder hb,
      Int.mul_bmod_bmod, Int.bmod_add_bmod, Int.mul_fdiv_add_fmod]
    exact (Int.bmod_eq_of_le (by omega) (by omega)).symm

end Division

end Word

namespace Eval

theorem binary_floorDiv (a b : Int32) :
    binary .floorDiv (.int a) (.int b) = ofExcept (.int <$> trapIfNone (Word.floorDiv? a b)) := rfl

theorem binary_mod (a b : Int32) :
    binary .mod (.int a) (.int b) = ofExcept (.int <$> trapIfNone (Word.floorMod? a b)) := rfl

theorem ofExcept_trapIfNone (word : Option Int32) (s : State) :
    (ofExcept (Value.int <$> trapIfNone word) : Eval Value) s =
      word.elim (.error (.program .divisionByZero) s) fun w => .ok (.int w) s := by
  cases word <;> rfl

end Eval

namespace IR

/-- The instructions leave this word in `v`, or end in the trap for a zero divisor when there is none. Nothing
else can be seen of them. -/
def Host.Ends (host : Host) (is : List Instruction) (v : ValueId) (s : State) (result : Option Int32) :
    Prop :=
  ∃ t, t.world = s.world ∧
    match result with
    | none => host.straight is s = some (.trap .divisionByZero, t)
    | some w => host.straight is s = some (.next none, t) ∧ t.values v = .word w

/-- What a builder writes for a floored division of any two values has this result on the words `a` and
`b`. -/
def Build.FloorEnds (quotient : Bool) (a b : Int32) (result : Option Int32) : Prop :=
  ∀ (builder : Builder) (x y : ValueId), builder.module.Sound → x.index < builder.module.values.size →
    y.index < builder.module.values.size →
      ∃ v builder' c is, flatFloor quotient x y builder = .ok v builder' ∧
      Grown builder builder' c ∧ c.Reads is ∧ ∀ (host : Host) (s : State), host.word (s.values x) = a →
        host.word (s.values y) = b → host.Ends is v s result

theorem Grown.apart {b b' : Builder} {c : Code} {is : List Instruction} (h : Grown b b' c)
    (hreads : c.Reads is) {xs : List ValueId} (hxs : ∀ x ∈ xs, x.index < b.module.values.size) :
    Apart xs is where
  nodup := hreads.results_eq ▸ h.module.distinct
  operands x hx hmem := by
    rw [← hreads.results_eq] at hmem
    exact absurd (hxs x hx) (Nat.not_lt.mpr (h.module.fresh x hmem))

theorem Build.floorEnds (op : BinaryOp) (quotient : Bool)
    (hop : op.word? = if quotient then Word.floorDiv? else Word.floorMod?)
    (a b : Int32) : FloorEnds quotient a b (op.word? a b) := by
  intro builder x y hsound hx hy
  obtain ⟨v, builder', c, is, hrun, hgrown, hreads, hflat⟩ := runs_flatFloor quotient x y builder hsound
  refine ⟨v, builder', c, is, hrun, hgrown, hreads, fun host s ha hb => ?_⟩
  have hdoes : Does host is (some v) s _ := hflat.does hop (hgrown.apart hreads (by simp [hx, hy]))
  obtain ⟨t, hworld, hends⟩ := hdoes
  rw [Host.perform, ha, hb] at hworld hends
  refine ⟨t, ?_⟩
  cases hword : op.word? a b with
  | none =>
    rw [hword] at hworld hends
    exact ⟨hworld, hends⟩
  | some w =>
    rw [hword] at hworld hends
    exact ⟨hworld, hends.1, (Option.some.inj (hends.2 v rfl)).symm⟩

end IR

/-- Floored division is defined unless the divisor is zero, and then it is that of the integers on words. The
evaluator and the instructions agree on it. -/
theorem floored_division (a b : Int32) :
    (∀ s, Eval.binary .floorDiv (.int a) (.int b) s = .error (.program .divisionByZero) s ↔ b = 0) ∧
    (∀ s, Eval.binary .mod (.int a) (.int b) s = .error (.program .divisionByZero) s ↔ b = 0) ∧
    (b = 0 → IR.Build.FloorEnds true a b none ∧ IR.Build.FloorEnds false a b none) ∧
    (b ≠ 0 → ∃ q r, Word.Floored a b q r ∧ (∀ s, Eval.binary .floorDiv (.int a) (.int b) s = .ok (.int q) s) ∧
      (∀ s, Eval.binary .mod (.int a) (.int b) s = .ok (.int r) s) ∧
      IR.Build.FloorEnds true a b (some q) ∧ IR.Build.FloorEnds false a b (some r)) := by
  have hquotient : IR.Build.FloorEnds true a b (Word.floorDiv? a b) :=
    IR.Build.floorEnds .floorDiv true rfl a b
  have hremainder : IR.Build.FloorEnds false a b (Word.floorMod? a b) := IR.Build.floorEnds .mod false rfl a b
  simp only [Eval.binary_floorDiv, Eval.binary_mod, Eval.ofExcept_trapIfNone]
  by_cases hb : b = 0
  · rw [Word.floorDiv?, if_pos hb] at hquotient ⊢
    rw [Word.floorMod?, if_pos hb] at hremainder ⊢
    exact ⟨fun s => iff_of_true rfl hb, fun s => iff_of_true rfl hb, fun _ => ⟨hquotient, hremainder⟩,
      fun h => absurd hb h⟩
  · rw [Word.floorDiv?, if_neg hb] at hquotient ⊢
    rw [Word.floorMod?, if_neg hb] at hremainder ⊢
    exact ⟨fun s => iff_of_false (fun h => by cases h) hb, fun s => iff_of_false (fun h => by cases h) hb,
      fun h => absurd h hb, fun _ =>
      ⟨_, _, Word.floored hb, fun _ => rfl, fun _ => rfl, hquotient, hremainder⟩⟩

/-- The quotient that overflows comes with the right remainder all the same. -/
theorem floored_division_overflow : ∃ q r, Word.Floored Int32.minValue (-1) q r ∧ q = Int32.minValue ∧ r = 0 ∧
    IR.Build.FloorEnds true Int32.minValue (-1) (some q) ∧
      IR.Build.FloorEnds false Int32.minValue (-1) (some r) := by
  obtain ⟨q, r, hfloored, -, -, hquotient, hremainder⟩ :=
    (floored_division Int32.minValue (-1)).2.2.2 (by decide)
  exact ⟨q, r, hfloored, hfloored.quotient.trans (by decide),
    Int32.toInt_inj.mp (hfloored.remainder.trans (by decide)), hquotient, hremainder⟩

end Choco
