import Choco.Machine.Image
import Choco.Proofs.Words

namespace Choco.Machine

section Numbers

variable {a b n : Nat}

theorem eq_ofNat_toNat (w : Int32) : w = Int32.ofNat w.toUInt32.toNat := by
  have h : (Int32.ofNat w.toUInt32.toNat).toUInt32 = w.toUInt32 := by
    rw [Int32.toUInt32_ofNat', UInt32.ofNat_toNat]
  exact (congrArg UInt32.toInt32 h).symm

theorem toNat_ofNat_of_lt (h : n < 4294967296) : (Int32.ofNat n).toUInt32.toNat = n := by
  rw [Int32.toUInt32_ofNat', UInt32.toNat_ofNat_of_lt' h]

theorem ofNat_inj_of_lt (ha : a < 4294967296) (hb : b < 4294967296) :
    Int32.ofNat a = Int32.ofNat b ↔ a = b := by
  refine ⟨fun h => ?_, congrArg _⟩
  rw [← toNat_ofNat_of_lt ha, h, toNat_ofNat_of_lt hb]

theorem ofNat_le_ofNat (ha : a < 2147483648) (hb : b < 2147483648) :
    Int32.ofNat a ≤ Int32.ofNat b ↔ a ≤ b := by
  rw [Int32.le_iff_toInt_le, Int32.toInt_ofNat_of_lt ha, Int32.toInt_ofNat_of_lt hb, Int.ofNat_le]

theorem eq_holds_zero (h : n < 4294967296) : Cond.eq.holds (Int32.ofNat n) 0 = decide (n = 0) := by
  rw [Cond.holds, Bool.eq_iff_iff, beq_iff_eq, decide_eq_true_iff]
  exact ofNat_inj_of_lt h (by decide)

theorem ge_holds (ha : a < 2147483648) (hb : b < 2147483648) :
    Cond.ge.holds (Int32.ofNat a) (Int32.ofNat b) = decide (b ≤ a) :=
  decide_eq_decide.mpr (ofNat_le_ofNat hb ha)

theorem ofNat_succ_pred (n : Nat) : Int32.ofNat (n + 1) + (-1) = Int32.ofNat n := by
  rw [Int32.ofNat_add, ← Int32.sub_eq_add_neg]
  exact Int32.add_sub_cancel _ _

theorem and_mask (h : n < 4294967296) : n &&& 4294967292 = n / 4 * 4 := by
  refine Nat.eq_of_testBit_eq fun i => ?_
  rw [Nat.testBit_and, show (4294967292 : Nat) = (2 ^ 30 - 1) * 2 ^ 2 from rfl,
    show n / 4 * 4 = n / 2 ^ 2 * 2 ^ 2 from rfl, Nat.testBit_mul_two_pow, Nat.testBit_mul_two_pow,
    Nat.testBit_two_pow_sub_one, Nat.testBit_div_two_pow]
  by_cases hlow : 2 ≤ i
  · rw [Nat.sub_add_cancel hlow]
    by_cases hhigh : i < 32
    · have hin : i - 2 < 30 := by omega
      simp [hlow, hin]
    · have hpow : 2 ^ 32 ≤ 2 ^ i := Nat.pow_le_pow_right (by decide) (Nat.not_lt.mp hhigh)
      simp [Nat.testBit_lt_two_pow (Nat.lt_of_lt_of_le h hpow)]
  · simp [hlow]

theorem toNat_aligned (a : UInt32) : (aligned a).toNat = (a.toNat + 3) % 4294967296 / 4 * 4 := by
  rw [aligned, UInt32.toNat_and, UInt32.toNat_add]
  exact and_mask (Nat.mod_lt _ (by decide))

theorem and_neg_four (h : n < 4294967296) : Int32.ofNat n &&& (-4) = Int32.ofNat (n / 4 * 4) := by
  have hle : n / 4 * 4 < 4294967296 := Nat.lt_of_le_of_lt (Nat.div_mul_le_self n 4) h
  have hand : (Int32.ofNat n &&& (-4)).toUInt32 = (Int32.ofNat (n / 4 * 4)).toUInt32 := by
    rw [Int32.toUInt32_and, Int32.toUInt32_ofNat', Int32.toUInt32_ofNat', ← UInt32.toNat_inj,
      UInt32.toNat_and, UInt32.toNat_ofNat_of_lt' h, UInt32.toNat_ofNat_of_lt' hle]
    exact and_mask h
  exact congrArg UInt32.toInt32 hand

/-- The word of a byte, which is what a string has for it. -/
def byteWord (b : UInt8) : Int32 := Int32.ofNat b.toNat

theorem byteWord_injective : Function.Injective byteWord := by
  intro b b' h
  have hlt := b.toNat_lt
  have hlt' := b'.toNat_lt
  exact UInt8.toNat_inj.mp ((ofNat_inj_of_lt (by omega) (by omega)).mp h)

theorem toUInt8_byteWord (b : UInt8) : (byteWord b).toUInt32.toUInt8 = b := by
  rw [byteWord, Int32.toUInt32_ofNat', UInt32.toUInt8_ofNat', UInt8.ofNat_toNat]

theorem shiftLeft_two (n : Nat) : Word.shiftLeft (Int32.ofNat n) 2 = Int32.ofNat (4 * n) := by
  have hshift : UInt32.ofNat n <<< 2 = UInt32.ofNat (4 * n) := by
    have htwo : (2 : UInt32).toNat % 32 = 2 := rfl
    rw [← UInt32.toNat_inj, UInt32.toNat_shiftLeft, UInt32.toNat_ofNat', UInt32.toNat_ofNat',
      Nat.shiftLeft_eq, htwo]
    omega
  rw [Word.shiftLeft, Int32.toUInt32_ofNat']
  exact (congrArg UInt32.toInt32 hshift).trans UInt32.toInt32_ofNat'

end Numbers

namespace Memory

/-- Words at consecutive addresses from `a` on. -/
def words (m : Memory) (a n : Nat) : List Int32 := (List.range' a n 4).map m.word

structure Written (m : Memory) (a : Nat) (bs : List UInt8) (m' : Memory) : Prop where
  bytes : m'.bytes a bs.length = bs
  get : ∀ i, i < a ∨ a + bs.length ≤ i → m'.get i = m.get i
  size : m'.size = m.size

structure WrittenWords (m : Memory) (a : Nat) (ws : List Int32) (m' : Memory) : Prop where
  words : m'.words a ws.length = ws
  get : ∀ i, i < a ∨ a + 4 * ws.length ≤ i → m'.get i = m.get i
  size : m'.size = m.size

/-- Bytes that a program may use. -/
structure Covers (m : Memory) (a length : Nat) : Prop where
  low : dataBase.toNat ≤ a
  high : a + length ≤ m.size
  size : m.size ≤ UInt32.size

/-- At the address `a` is an object with these elements. -/
structure Object (m : Memory) (a : Nat) (ws : List Int32) : Prop where
  covers : m.Covers a (4 + 4 * ws.length)
  length : m.word a = Int32.ofNat ws.length
  elements : m.words (a + 4) ws.length = ws

instance (m : Memory) (a length : Nat) : Decidable (m.Covers a length) :=
  decidable_of_iff (dataBase.toNat ≤ a ∧ a + length ≤ m.size ∧ m.size ≤ UInt32.size)
    ⟨fun h => ⟨h.1, h.2.1, h.2.2⟩, fun h => ⟨h.low, h.high, h.size⟩⟩

instance (m : Memory) (a : Nat) (ws : List Int32) : Decidable (m.Object a ws) :=
  decidable_of_iff (m.Covers a (4 + 4 * ws.length) ∧ m.word a = Int32.ofNat ws.length ∧
    m.words (a + 4) ws.length = ws) ⟨fun h => ⟨h.1, h.2.1, h.2.2⟩, fun h => ⟨h.covers, h.length, h.elements⟩⟩

section Bytes

variable {m m' m₁ m₂ : Memory} {a n : Nat} {bs bs' : List UInt8} {b : UInt8}

theorem bytes_congr (h : ∀ i, a ≤ i → i < a + n → m'.get i = m.get i) : m'.bytes a n = m.bytes a n := by
  refine List.map_congr_left fun i hi => ?_
  obtain ⟨k, hk, rfl⟩ := List.mem_range'.mp hi
  exact h _ (by omega) (by omega)

theorem bytes_add (m : Memory) (a n k : Nat) : m.bytes a (n + k) = m.bytes a n ++ m.bytes (a + n) k := by
  rw [bytes, ← List.range'_append, List.map_append, Nat.one_mul]
  rfl

theorem Written.refl (m : Memory) (a : Nat) : m.Written a [] m := ⟨rfl, fun _ _ => rfl, rfl⟩

theorem Written.cons (h : m.Written (a + 1) bs m') : m.Written a (b :: bs) (m'.set a b) where
  bytes := by
    have hrest : (m'.set a b).bytes (a + 1) bs.length = m'.bytes (a + 1) bs.length :=
      bytes_congr fun i hi _ => by rw [get_set, if_neg (by omega)]
    change (m'.set a b).get a :: (m'.set a b).bytes (a + 1) bs.length = _
    rw [get_set, if_pos rfl, hrest, h.bytes]
  get i hi := by
    rw [List.length_cons] at hi
    rw [get_set, if_neg (by omega), h.get i (by omega)]
  size := h.size

theorem Written.concat (h : (m.set (a + bs.length) b).Written a bs m') : m.Written a (bs ++ [b]) m' where
  bytes := by
    have hlast : m'.get (a + bs.length) = b := by rw [h.get _ (by omega), get_set, if_pos rfl]
    rw [List.length_append, List.length_singleton, Memory.bytes, List.range'_concat, List.map_append]
    change m'.bytes a bs.length ++ _ = _
    rw [h.bytes, List.map_singleton, Nat.one_mul, hlast]
  get i hi := by
    rw [List.length_append, List.length_singleton] at hi
    rw [h.get i (by omega), get_set, if_neg (by omega)]
  size := h.size.trans rfl

theorem Written.append (h : m.Written a bs m₁) (h' : m₁.Written (a + bs.length) bs' m₂) :
    m.Written a (bs ++ bs') m₂ where
  bytes := by
    have hfirst : m₂.bytes a bs.length = m₁.bytes a bs.length := bytes_congr fun i _ hi => h'.get i (.inl hi)
    rw [List.length_append, bytes_add, hfirst, h.bytes, h'.bytes]
  get i hi := by
    rw [List.length_append] at hi
    rw [h'.get i (by omega), h.get i (by omega)]
  size := h'.size.trans h.size

theorem written_set (m : Memory) (a : Nat) (b : UInt8) : m.Written a [b] (m.set a b) :=
  .cons (.refl m (a + 1))

theorem written_setBytes (m : Memory) (a : Nat) (bs : List UInt8) : m.Written a bs (m.setBytes a bs) := by
  induction bs generalizing m a with
  | nil => exact .refl m a
  | cons b bs ih => exact (written_set m a b).append (ih (m.set a b) (a + 1))

theorem written_setWord (m : Memory) (a : Nat) (w : Int32) :
    m.Written a (Word.toBytes w) (m.setWord a w) where
  bytes := (bytes_congr fun i _ _ => m.get_setWord a i w).trans (written_setBytes m a _).bytes
  get i hi := (m.get_setWord a i w).trans ((written_setBytes m a _).get i hi)
  size := m.size_setWord a w

end Bytes

section Words

variable {m m' m₁ m₂ : Memory} {a n : Nat} {ws ws' : List Int32} {w : Int32}

theorem words_succ (m : Memory) (a n : Nat) : m.words a (n + 1) = m.word a :: m.words (a + 4) n := rfl

theorem word_congr (h : ∀ i, a ≤ i → i < a + 4 → m'.get i = m.get i) : m'.word a = m.word a := by
  rw [word_eq, word_eq, h a (by omega) (by omega), h (a + 1) (by omega) (by omega),
    h (a + 2) (by omega) (by omega), h (a + 3) (by omega) (by omega)]

theorem words_congr (h : ∀ i, a ≤ i → i < a + 4 * n → m'.get i = m.get i) : m'.words a n = m.words a n := by
  refine List.map_congr_left fun i hi => word_congr fun k hk hk' => ?_
  obtain ⟨j, hj, rfl⟩ := List.mem_range'.mp hi
  exact h _ (by omega) (by omega)

theorem words_add (m : Memory) (a n k : Nat) : m.words a (n + k) = m.words a n ++ m.words (a + 4 * n) k := by
  rw [words, ← List.range'_append, List.map_append]
  rfl

theorem WrittenWords.cons (h : m.WrittenWords (a + 4) ws m') :
    m.WrittenWords a (w :: ws) (m'.setWord a w) where
  words := by
    have hrest : (m'.setWord a w).words (a + 4) ws.length = m'.words (a + 4) ws.length :=
      words_congr fun i hi _ => get_setWord_of_disjoint _ _ _ _ (.inr hi)
    rw [List.length_cons, words_succ, word_setWord, hrest, h.words]
  get i hi := by
    rw [List.length_cons] at hi
    rw [get_setWord_of_disjoint _ _ _ _ (by omega), h.get i (by omega)]
  size := (size_setWord _ _ _).trans h.size

theorem WrittenWords.append (h : m.WrittenWords a ws m₁) (h' : m₁.WrittenWords (a + 4 * ws.length) ws' m₂) :
    m.WrittenWords a (ws ++ ws') m₂ where
  words := by
    have hfirst : m₂.words a ws.length = m₁.words a ws.length := words_congr fun i _ hi => h'.get i (.inl hi)
    rw [List.length_append, words_add, hfirst, h.words, h'.words]
  get i hi := by
    rw [List.length_append] at hi
    rw [h'.get i (by omega), h.get i (by omega)]
  size := h'.size.trans h.size

theorem WrittenWords.refl (m : Memory) (a : Nat) : m.WrittenWords a [] m := ⟨rfl, fun _ _ => rfl, rfl⟩

theorem writtenWords_setWord (m : Memory) (a : Nat) (w : Int32) : m.WrittenWords a [w] (m.setWord a w) :=
  .cons (.refl m (a + 4))

end Words

section Objects

variable {m m' : Memory} {a b length length' : Nat} {ws : List Int32}

theorem Covers.mono (h : m.Covers a length) (hlow : a ≤ b) (hhigh : b + length' ≤ a + length) :
    m.Covers b length' :=
  ⟨Nat.le_trans h.low hlow, Nat.le_trans hhigh h.high, h.size⟩

theorem Covers.of_size (h : m.Covers a length) (hsize : m'.size = m.size) : m'.Covers a length :=
  ⟨h.low, hsize ▸ h.high, hsize ▸ h.size⟩

theorem Object.length_lt (h : m.Object a ws) : ws.length < 1073741824 := by
  have hhigh := h.covers.high
  have hsize := h.covers.size
  unfold UInt32.size at hsize
  omega

theorem Object.congr (h : m.Object a ws) (hsize : m'.size = m.size)
    (hget : ∀ i, a ≤ i → i < a + (4 + 4 * ws.length) → m'.get i = m.get i) : m'.Object a ws where
  covers := h.covers.of_size hsize
  length := (word_congr fun i hi hi' => hget i hi (by omega)).trans h.length
  elements := (words_congr fun i hi hi' => hget i (by omega) (by omega)).trans h.elements

theorem WrittenWords.object (h : m.WrittenWords a (Int32.ofNat ws.length :: ws) m')
    (hcovers : m.Covers a (4 + 4 * ws.length)) :
    m'.Object a ws := by
  obtain ⟨hlength, helements⟩ := List.cons_eq_cons.mp h.words
  exact ⟨hcovers.of_size h.size, hlength, helements⟩

end Objects

end Memory

end Choco.Machine
