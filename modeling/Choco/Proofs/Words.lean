import Choco.Machine.Memory
import Mathlib.Tactic.Common

namespace Choco.Machine

theorem Cell.toWord_ofWord (w : Int32) : (Cell.ofWord w).toWord = w := by
  unfold Cell.toWord Cell.ofWord Word.ofBytes
  apply Int32.toBitVec_inj.mp
  apply BitVec.eq_of_getLsbD_eq
  intro i hi
  simp only [UInt32.toBitVec_toInt32, UInt32.toBitVec_or, BitVec.getLsbD_or, UInt8.toBitVec_toUInt32,
    UInt32.toBitVec_toUInt8, UInt32.toBitVec_shiftLeft, UInt32.toBitVec_shiftRight]
  -- each of the four bytes supplies its own eight bits
  obtain h | h | h | h : i < 8 ∨ 8 ≤ i ∧ i < 16 ∨ 16 ≤ i ∧ i < 24 ∨ 24 ≤ i := by omega
  all_goals simp; grind

namespace Memory

variable (m : Memory) (a b : Nat) (w : Int32)

/-- `m'` is `m` with the word `w` at the address `a`. -/
structure Updated (m : Memory) (a : Nat) (w : Int32) (m' : Memory) : Prop where
  word : m'.word a = w
  get : ∀ b, b < a ∨ a + 4 ≤ b → m'.get b = m.get b
  size : m'.size = m.size

theorem get_setWord_of_disjoint (h : b < a ∨ a + 4 ≤ b) : (m.setWord a w).get b = m.get b := by
  rw [get_setWord]
  simp only [Word.toBytes, setBytes, get_set]
  rw [if_neg (by omega), if_neg (by omega), if_neg (by omega), if_neg (by omega)]

theorem word_setWord : (m.setWord a w).word a = w := by
  rw [word_eq]
  simp only [get_setWord, Word.toBytes, setBytes, get_set]
  simpa [Nat.add_assoc, Cell.toWord, Cell.ofWord] using Cell.toWord_ofWord w

theorem setWord_updated : m.Updated a w (m.setWord a w) :=
  ⟨word_setWord m a w, fun b h => get_setWord_of_disjoint m a b w h, size_setWord m a w⟩

end Memory

end Choco.Machine
