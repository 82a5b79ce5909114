import Mathlib.Data.Nat.Digits.Lemmas

/-!
Numerals: the digits of a number in a radix, the most significant one first, with one digit for
zero. What is written digit by digit from the right, by division, is a numeral, and what is read
digit by digit from the left gives the number back.
-/

namespace LtcOs.Numeral

variable {b n d : Nat}

/-- The digits of `n` in radix `b`. -/
def numeral (b n : Nat) : List Nat := if n = 0 then [0] else (Nat.digits b n).reverse

/-- The number that digits stand for. -/
def value (b : Nat) (l : List Nat) : Nat := l.foldl (fun v d => v * b + d) 0

theorem numeral_of_lt (lt : n < b) : numeral b n = [n] := by
  unfold numeral
  split_ifs with zero
  · rw [zero]
  · rw [Nat.digits_of_lt b n zero lt]
    rfl

/-- The last digit is the remainder. -/
theorem numeral_of_ge (one : 1 < b) (ge : b ≤ n) : numeral b n = numeral b (n / b) ++ [n % b] := by
  have nonzero : n ≠ 0 := by omega
  have quotient : n / b ≠ 0 := (Nat.div_pos ge (by omega)).ne'
  rw [numeral, numeral, if_neg nonzero, if_neg quotient, Nat.digits_def' one (by omega),
    List.reverse_cons]

theorem numeral_length_pos (b n : Nat) : 0 < (numeral b n).length := by
  unfold numeral
  split_ifs with zero
  · exact Nat.one_pos
  · rw [List.length_reverse, List.length_pos_iff]
    exact Nat.digits_ne_nil_iff_ne_zero.mpr zero

theorem numeral_length_le_iff (one : 1 < b) {k : Nat} (pos : 0 < k) :
    (numeral b n).length ≤ k ↔ n < b ^ k := by
  unfold numeral
  split_ifs with zero
  · rw [zero]
    exact iff_of_true pos (Nat.pow_pos (by omega))
  · rw [List.length_reverse]
    exact Nat.digits_length_le_iff one n

theorem lt_of_mem_numeral (one : 1 < b) (mem : d ∈ numeral b n) : d < b := by
  unfold numeral at mem
  split_ifs at mem
  · rw [List.mem_singleton.mp mem]
    omega
  · exact Nat.digits_lt_base one (List.mem_reverse.mp mem)

/-- A numeral has no leading zero. -/
theorem numeral_head_ne_zero (nonzero : n ≠ 0) (pos : 0 < (numeral b n).length) :
    (numeral b n)[0] ≠ 0 := by
  have last := Nat.getLast_digit_ne_zero b nonzero
  simp only [numeral, if_neg nonzero]
  rwa [List.getElem_zero, List.head_reverse]

theorem value_concat (b : Nat) (l : List Nat) (d : Nat) :
    value b (l ++ [d]) = value b l * b + d := by
  rw [value, List.foldl_append]
  rfl

/-- Reading a numeral gives the number. -/
theorem value_numeral (one : 1 < b) (n : Nat) : value b (numeral b n) = n := by
  induction n using Nat.strongRecOn with
  | ind n ih =>
      by_cases lt : n < b
      · rw [numeral_of_lt lt]
        simp [value]
      · have smaller : n / b < n := Nat.div_lt_self (by omega) one
        rw [numeral_of_ge one (not_lt.mp lt), value_concat, ih _ smaller]
        exact Nat.div_add_mod' n b

end LtcOs.Numeral
