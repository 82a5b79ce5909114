import Mathlib.Tactic
import Mathlib.Data.Nat.Factorization.Basic

/-!
Words as sets of bits.
-/

namespace LtcOs.Mask

variable {w : Nat} {x m p e : BitVec w}

/-- The mask `m` has the lowest bit of `x` and no other. -/
def IsLowest (x m : BitVec w) : Prop :=
  ∃ i : Fin w, m = BitVec.twoPow w i ∧ x.getLsbD i = true ∧ ∀ j : Fin w, j < i → x.getLsbD j = false

instance (x m : BitVec w) : Decidable (IsLowest x m) := inferInstanceAs (Decidable (∃ _, _))

/-- A word and its predecessor differ in the lowest bit of the word and below. -/
theorem exists_lowest (nonzero : x ≠ 0) :
    ∃ i < w, ∀ j, x.getLsbD j = (decide (i = j) || (decide (i < j) && (x - 1).getLsbD j)) ∧
      (j ≤ i → (x - 1).getLsbD j = decide (j < i)) := by
  have pos : x.toNat ≠ 0 := fun zero => nonzero (BitVec.eq_of_toNat_eq zero)
  obtain ⟨i, high, split⟩ : ∃ i high, x.toNat = 2 ^ (i + 1) * high + 2 ^ i := by
    obtain ⟨i, odd, ⟨high, rfl⟩, eq⟩ := Nat.exists_eq_two_pow_mul_odd pos
    refine ⟨i, high, eq.trans ?_⟩
    ring
  have lt := x.isLt
  have unit := Nat.two_pow_pos i
  have inside : 2 ^ i < 2 ^ (i + 1) := Nat.pow_lt_pow_right (by omega) (by omega)
  have below : 2 ^ i - 1 < 2 ^ (i + 1) := by omega
  have bound : i < w := by
    rw [← Nat.pow_lt_pow_iff_right (a := 2) (by omega)]
    omega
  have less : (x - 1).toNat = 2 ^ (i + 1) * high + (2 ^ i - 1) := by
    have one : (1 : BitVec w).toNat = 1 := BitVec.toNat_one (by omega)
    rw [BitVec.toNat_sub_of_le, one, split]
    · omega
    · rw [BitVec.le_def, one]
      omega
  refine ⟨i, bound, ?_⟩
  intro j
  simp only [BitVec.getLsbD]
  rw [less, split, Nat.testBit_two_pow_mul_add _ inside, Nat.testBit_two_pow_mul_add _ below,
    Nat.testBit_two_pow,
    Nat.testBit_two_pow_sub_one]
  split_ifs with low
  · refine ⟨?_, fun _ => rfl⟩
    have : ¬ i < j := by omega
    simp [this]
  · have above : i < j := by omega
    simp [above, above.ne]

/-- `x ^ (x & (x - 1))` is the lowest bit of `x`. -/
theorem isLowest_xor (nonzero : x ≠ 0) : IsLowest x (x ^^^ (x &&& (x - 1))) := by
  obtain ⟨i, bound, bits⟩ := exists_lowest nonzero
  refine ⟨⟨i, bound⟩, ?_, ?_, ?_⟩
  · apply BitVec.eq_of_getLsbD_eq
    intro j _
    rw [BitVec.getLsbD_xor, BitVec.getLsbD_and, BitVec.getLsbD_twoPow, (bits j).1]
    rcases lt_trichotomy i j with above | same | low
    · simp [above, above.ne]
    · subst same
      rw [(bits i).2 le_rfl]
      simp [bound]
    · simp [low.ne', low.not_gt]
  · rw [(bits i).1]
    simp
  · intro j low
    have low : j.val < i := low
    rw [(bits j).1]
    simp [low.ne', low.not_gt]

theorem IsLowest.subset (lowest : IsLowest x m) : m &&& x = m := by
  obtain ⟨i, rfl, has, _⟩ := lowest
  apply BitVec.eq_of_getLsbD_eq
  intro j _
  rw [BitVec.getLsbD_and, BitVec.getLsbD_twoPow]
  by_cases same : i.val = j
  · simp [← same, has]
  · simp [same]

/-! ### Masks -/

theorem and_subset (p e : BitVec w) : (p &&& e) &&& p = p &&& e := by
  rw [BitVec.and_comm, ← BitVec.and_assoc, BitVec.and_self]

theorem subset_of_and (subset : m &&& (p &&& e) = m) : m &&& p = m := by
  calc m &&& p = (m &&& (p &&& e)) &&& p := by rw [subset]
    _ = m &&& (p &&& e) := by rw [BitVec.and_assoc, and_subset]
    _ = m := subset

theorem or_and_ne_zero (x : BitVec w) (some : p &&& e ≠ 0) : (p ||| x) &&& e ≠ 0 := by
  intro none
  apply some
  apply BitVec.eq_of_getLsbD_eq
  intro i _
  have bit := congrArg (BitVec.getLsbD · i) none
  simp only [BitVec.getLsbD_and, BitVec.getLsbD_or] at bit ⊢
  revert bit
  cases p.getLsbD i <;> simp

theorem or_and_eq (x : BitVec w) (all : p &&& e = e) : (p ||| x) &&& e = e := by
  apply BitVec.eq_of_getLsbD_eq
  intro i _
  have bit := congrArg (BitVec.getLsbD · i) all
  simp only [BitVec.getLsbD_and, BitVec.getLsbD_or] at bit ⊢
  revert bit
  cases p.getLsbD i <;> cases e.getLsbD i <;> simp

/-- Only what is there can be taken away. -/
theorem and_not_and (p e : BitVec w) : p &&& ~~~(p &&& e) = p &&& ~~~e := by
  apply BitVec.eq_of_getLsbD_eq
  intro i inside
  simp only [BitVec.getLsbD_and, BitVec.getLsbD_not, inside, decide_true, Bool.true_and]
  cases p.getLsbD i <;> simp

/-- All bits of the words. -/
def union (l : List (BitVec w)) : BitVec w := l.foldl (· ||| ·) 0

theorem union_concat (l : List (BitVec w)) (x : BitVec w) : union (l ++ [x]) = union l ||| x := by
  rw [union, List.foldl_append]
  rfl

/-- A word that is added twice is added once. -/
theorem or_or_self (p x : BitVec w) : p ||| x ||| x = p ||| x := by
  rw [BitVec.or_assoc, BitVec.or_self]

end LtcOs.Mask
