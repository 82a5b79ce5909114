import Mathlib.Tactic

/-!
Byte-addressed memory with little-endian 32-bit words. Everything is stated
with division and remainder on `Nat`, so side conditions are linear.
-/

namespace LtcOs.Memory

/-- Memory contents by byte address. -/
abbrev Mem := Nat → UInt8

/-- Byte `j` of a word, the least significant one first. -/
def byteOf (w : UInt32) (j : Nat) : UInt8 := UInt8.ofNat (w.toNat / 256 ^ j)

/-- The word with the given bytes, the least significant one first. -/
def ofBytes (b₀ b₁ b₂ b₃ : UInt8) : UInt32 :=
  UInt32.ofNat (b₀.toNat + 256 * b₁.toNat + 65536 * b₂.toNat + 16777216 * b₃.toNat)

def halfword (m : Mem) (a : Nat) : UInt16 :=
  UInt16.ofNat ((m a).toNat + 256 * (m (a + 1)).toNat)

def word (m : Mem) (a : Nat) : UInt32 := ofBytes (m a) (m (a + 1)) (m (a + 2)) (m (a + 3))

def setWord (m : Mem) (a : Nat) (w : UInt32) : Mem :=
  fun x => if a ≤ x ∧ x < a + 4 then byteOf w (x - a) else m x

/-- An erased word. -/
def blank : UInt32 := 0xFFFFFFFF

theorem toNat_ofBytes (b₀ b₁ b₂ b₃ : UInt8) :
    (ofBytes b₀ b₁ b₂ b₃).toNat =
      b₀.toNat + 256 * b₁.toNat + 65536 * b₂.toNat + 16777216 * b₃.toNat := by
  have h₀ := b₀.toNat_lt
  have h₁ := b₁.toNat_lt
  have h₂ := b₂.toNat_lt
  have h₃ := b₃.toNat_lt
  simp only [ofBytes, UInt32.toNat_ofNat']
  omega

theorem ofBytes_byteOf (w : UInt32) :
    ofBytes (byteOf w 0) (byteOf w 1) (byteOf w 2) (byteOf w 3) = w := by
  apply UInt32.toNat_inj.mp
  have h := w.toNat_lt
  simp only [toNat_ofBytes, byteOf, UInt8.toNat_ofNat']
  omega

theorem byteOf_ofBytes (b₀ b₁ b₂ b₃ : UInt8) :
    byteOf (ofBytes b₀ b₁ b₂ b₃) 0 = b₀ ∧ byteOf (ofBytes b₀ b₁ b₂ b₃) 1 = b₁ ∧
      byteOf (ofBytes b₀ b₁ b₂ b₃) 2 = b₂ ∧ byteOf (ofBytes b₀ b₁ b₂ b₃) 3 = b₃ := by
  have h₀ := b₀.toNat_lt
  have h₁ := b₁.toNat_lt
  have h₂ := b₂.toNat_lt
  have h₃ := b₃.toNat_lt
  simp only [← UInt8.toNat_inj, byteOf, toNat_ofBytes, UInt8.toNat_ofNat']
  omega

/-- A word reads blank exactly when its four bytes do. -/
theorem word_eq_blank_iff {m : Mem} {a : Nat} :
    word m a = blank ↔ ∀ j, j < 4 → m (a + j) = 0xFF := by
  have h₀ := (m a).toNat_lt
  have h₁ := (m (a + 1)).toNat_lt
  have h₂ := (m (a + 2)).toNat_lt
  have h₃ := (m (a + 3)).toNat_lt
  have split : (∀ j, j < 4 → m (a + j) = 0xFF) ↔
      m a = 0xFF ∧ m (a + 1) = 0xFF ∧ m (a + 2) = 0xFF ∧ m (a + 3) = 0xFF := by
    constructor
    · intro h
      exact ⟨h 0 (by omega), h 1 (by omega), h 2 (by omega), h 3 (by omega)⟩
    · rintro ⟨b₀, b₁, b₂, b₃⟩ j hj
      interval_cases j <;> assumption
  rw [split]
  simp only [← UInt32.toNat_inj, ← UInt8.toNat_inj, word, toNat_ofBytes, blank, UInt32.reduceToNat,
    UInt8.reduceToNat]
  omega

theorem word_setWord_self (m : Mem) (a : Nat) (w : UInt32) : word (setWord m a w) a = w := by
  have h : word (setWord m a w) a =
      ofBytes (byteOf w 0) (byteOf w 1) (byteOf w 2) (byteOf w 3) := by
    simp [word, setWord]
  rw [h, ofBytes_byteOf]

theorem setWord_of_disjoint {m : Mem} {a x : Nat} {w : UInt32} (h : x < a ∨ a + 4 ≤ x) :
    setWord m a w x = m x := by
  rw [setWord, if_neg (by omega)]

theorem word_setWord_of_disjoint {m : Mem} {a b : Nat} {w : UInt32}
    (h : b + 4 ≤ a ∨ a + 4 ≤ b) : word (setWord m a w) b = word m b := by
  simp only [word, setWord_of_disjoint (m := m) (a := a) (w := w) (x := b) (by omega),
    setWord_of_disjoint (m := m) (a := a) (w := w) (x := b + 1) (by omega),
    setWord_of_disjoint (m := m) (a := a) (w := w) (x := b + 2) (by omega),
    setWord_of_disjoint (m := m) (a := a) (w := w) (x := b + 3) (by omega)]

/-- Writing the word of another memory copies its four bytes. -/
theorem setWord_word {m n : Mem} {a b j : Nat} (h : j < 4) :
    setWord m a (word n b) (a + j) = n (b + j) := by
  obtain ⟨b₀, b₁, b₂, b₃⟩ := byteOf_ofBytes (n b) (n (b + 1)) (n (b + 2)) (n (b + 3))
  rw [setWord, if_pos (by omega), show a + j - a = j by omega, word]
  interval_cases j <;> assumption

theorem word_congr {m n : Mem} {a : Nat} (h : ∀ j, j < 4 → m (a + j) = n (a + j)) :
    word m a = word n a := by
  simp only [word]
  rw [show m a = n a from h 0 (by omega), h 1 (by omega), h 2 (by omega), h 3 (by omega)]

/-- Programming an erased word stores the data: no bit has to go from zero to one. -/
theorem blank_and (w : UInt32) : blank &&& w = w := by
  apply UInt32.toBitVec_inj.mp
  simp only [blank, UInt32.toBitVec_and, UInt32.toBitVec_ofNat]
  exact BitVec.allOnes_and

end LtcOs.Memory
