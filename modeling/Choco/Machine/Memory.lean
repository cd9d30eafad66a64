import Choco.Word
import Std.Data.TreeMap

namespace Choco.Machine

structure Cell where
  b₀ : UInt8 := 0
  b₁ : UInt8 := 0
  b₂ : UInt8 := 0
  b₃ : UInt8 := 0
deriving DecidableEq, Repr, Inhabited

namespace Cell

/-- The byte of an address; only its remainder counts. -/
def get (c : Cell) (a : Nat) : UInt8 :=
  match a % 4 with
  | 0 => c.b₀
  | 1 => c.b₁
  | 2 => c.b₂
  | _ => c.b₃

def set (c : Cell) (a : Nat) (b : UInt8) : Cell :=
  match a % 4 with
  | 0 => { c with b₀ := b }
  | 1 => { c with b₁ := b }
  | 2 => { c with b₂ := b }
  | _ => { c with b₃ := b }

def toWord (c : Cell) : Int32 := Word.ofBytes c.b₀ c.b₁ c.b₂ c.b₃

def ofWord (w : Int32) : Cell :=
  let n := w.toUInt32
  ⟨n.toUInt8, (n >>> 8).toUInt8, (n >>> 16).toUInt8, (n >>> 24).toUInt8⟩

theorem get_set (c : Cell) (a a' : Nat) (b : UInt8) :
    (c.set a b).get a' = if a % 4 = a' % 4 then b else c.get a' := by
  have h : a % 4 < 4 := Nat.mod_lt _ (by decide)
  have h' : a' % 4 < 4 := Nat.mod_lt _ (by decide)
  unfold get set
  generalize a % 4 = i at h ⊢
  generalize a' % 4 = j at h' ⊢
  match i, j, h, h' with
  | 0, 0, _, _ | 0, 1, _, _ | 0, 2, _, _ | 0, 3, _, _ | 1, 0, _, _ | 1, 1, _, _ | 1, 2, _, _ | 1, 3, _, _
  | 2, 0, _, _ | 2, 1, _, _ | 2, 2, _, _ | 2, 3, _, _ | 3, 0, _, _ | 3, 1, _, _ | 3, 2, _, _ | 3, 3, _, _ =>
    rfl

end Cell

structure Memory where
  size : Nat
  /-- The cells that were written to; that of address `a` has number `a / 4`. -/
  cells : Std.TreeMap Nat Cell := {}
deriving Inhabited

namespace Memory

def cell (m : Memory) (a : Nat) : Cell := m.cells.getD (a / 4) {}

def setCell (m : Memory) (a : Nat) (c : Cell) : Memory := { m with cells := m.cells.insert (a / 4) c }

/-- The byte at an address; zero where nothing was written. -/
def get (m : Memory) (a : Nat) : UInt8 := (m.cell a).get a

/-- Write a byte; the address must lie below the size. -/
def set (m : Memory) (a : Nat) (b : UInt8) : Memory := m.setCell a ((m.cell a).set a b)

def bytes (m : Memory) (a length : Nat) : List UInt8 := (List.range' a length).map m.get

def setBytes (m : Memory) (a : Nat) : List UInt8 → Memory
  | [] => m
  | b :: rest => (m.set a b).setBytes (a + 1) rest

def word (m : Memory) (a : Nat) : Int32 :=
  if a % 4 = 0 then (m.cell a).toWord
  else Word.ofBytes (m.get a) (m.get (a + 1)) (m.get (a + 2)) (m.get (a + 3))

def setWord (m : Memory) (a : Nat) (w : Int32) : Memory :=
  if a % 4 = 0 then m.setCell a (Cell.ofWord w) else m.setBytes a (Word.toBytes w)

theorem cell_setCell (m : Memory) (a a' : Nat) (c : Cell) :
    (m.setCell a c).cell a' = if a / 4 = a' / 4 then c else m.cell a' := by
  simp only [cell, setCell, Std.TreeMap.getD_insert, Nat.compare_eq_eq]

theorem get_set (m : Memory) (a a' : Nat) (b : UInt8) : (m.set a b).get a' = if a = a' then b
    else m.get a' := by
  rw [get, set, cell_setCell]
  by_cases hq : a / 4 = a' / 4
  · have hr : a % 4 = a' % 4 ↔ a = a' := by omega
    have hc : m.cell a = m.cell a' := by rw [cell, cell, hq]
    simp only [if_pos hq, Cell.get_set, hr, hc, get]
  · have hne : a ≠ a' := by omega
    simp only [if_neg hq, if_neg hne, get]

theorem word_eq (m : Memory) (a : Nat) :
    m.word a = Word.ofBytes (m.get a) (m.get (a + 1)) (m.get (a + 2)) (m.get (a + 3)) := by
  unfold word
  split
  next h =>
    have hc (i : Nat) (hi : i < 4) : m.get (a + i) = (m.cell a).get i := by
      have hq : (a + i) / 4 = a / 4 := by omega
      have hr : (a + i) % 4 = i % 4 := by omega
      simp only [get, cell, Cell.get, hq, hr]
    rw [show m.get a = m.get (a + 0) from rfl, hc 0 (by decide), hc 1 (by decide), hc 2 (by decide),
      hc 3 (by decide)]
    rfl
  next => rfl

theorem get_setWord (m : Memory) (a a' : Nat) (w : Int32) :
    (m.setWord a w).get a' = (m.setBytes a (Word.toBytes w)).get a' := by
  unfold setWord
  split
  next h =>
    simp only [Word.toBytes, setBytes, get_set]
    rw [get, cell_setCell]
    by_cases hq : a / 4 = a' / 4
    · have hcases : a' = a ∨ a' = a + 1 ∨ a' = a + 2 ∨ a' = a + 3 := by omega
      have hr (i : Nat) (hi : i < 4) : (a + i) % 4 = i := by omega
      rcases hcases with rfl | rfl | rfl | rfl
      · simp [Cell.get, Cell.ofWord, Nat.add_assoc, h]
      · simp [Cell.get, Cell.ofWord, Nat.add_assoc, hr 1, ← hq]
      · simp [Cell.get, Cell.ofWord, Nat.add_assoc, hr 2, ← hq]
      · simp [Cell.get, Cell.ofWord, Nat.add_assoc, hr 3, ← hq]
    · have h₀ : a ≠ a' := by omega
      have h₁ : a + 1 ≠ a' := by omega
      have h₂ : a + 1 + 1 ≠ a' := by omega
      have h₃ : a + 1 + 1 + 1 ≠ a' := by omega
      simp only [if_neg hq, if_neg h₀, if_neg h₁, if_neg h₂, if_neg h₃, get]
  next => rfl

@[simp] theorem size_set (m : Memory) (a : Nat) (b : UInt8) : (m.set a b).size = m.size := rfl

@[simp] theorem size_setBytes (m : Memory) (a : Nat) (bs : List UInt8) : (m.setBytes a bs).size = m.size := by
  induction bs generalizing m a with
  | nil => rfl
  | cons b bs ih => exact (ih _ _).trans (size_set m a b)

@[simp] theorem size_setWord (m : Memory) (a : Nat) (w : Int32) : (m.setWord a w).size = m.size := by
  unfold setWord
  split
  · rfl
  · exact size_setBytes _ _ _

end Memory

end Choco.Machine
