import Mathlib.Logic.Function.Basic

/-!
Copies in a memory `Nat → α` that go from the lowest address up, one cell at a time.

Such a copy reads cells it has already written when the destination begins inside the source.
Then the first cells, as many as the distance of the two, are repeated over the destination.
-/

namespace LtcOs.Copy

variable {α : Type} {m : Nat → α} {d s n i k : Nat}

/-- Copy `n` cells from `s` on to `d` on, beginning with the first. -/
def up (m : Nat → α) (d s : Nat) : (n : Nat) → Nat → α
  | 0 => m
  | n + 1 => Function.update (up m d s n) (d + n) (up m d s n (s + n))

/-- The cells outside the destination are left alone. -/
theorem up_outside {a : Nat} (outside : a < d ∨ d + n ≤ a) : up m d s n a = m a := by
  induction n with
  | zero => rfl
  | succ n ih =>
      rw [up, Function.update_of_ne (by omega)]
      exact ih (by omega)

/-- A cell has the value read for it. -/
theorem up_inside (lt : i < n) : up m d s n (d + i) = up m d s i (s + i) := by
  induction n with
  | zero => exact absurd lt (Nat.not_lt_zero i)
  | succ n ih =>
      rw [up]
      rcases Nat.lt_succ_iff_lt_or_eq.mp lt with before | rfl
      · rw [Function.update_of_ne (by omega)]
        exact ih before
      · exact Function.update_self _ _ _

/-- A source that begins at the destination or behind it, or ends before it, is read as it was. -/
theorem up_apart (apart : d ≤ s ∨ s + n ≤ d) (lt : i < n) : up m d s n (d + i) = m (s + i) := by
  rw [up_inside lt]
  apply up_outside
  omega

/-- The cells from `a` on, up to `n` of them, repeat after `k`. -/
def Periodic (m : Nat → α) (a n k : Nat) : Prop := ∀ i, i + k < n → m (a + (i + k)) = m (a + i)

/-- A cell that lies the distance behind another has the same value after the copy. -/
theorem up_repeats (lt : i + k < n) :
    up m (s + k) s n (s + k + (i + k)) = up m (s + k) s n (s + k + i) := by
  rw [up_inside lt]
  by_cases zero : k = 0
  · subst zero
    exact (up_inside lt).symm
  · rw [show s + (i + k) = s + k + i by omega, up_inside (show i < i + k by omega),
      up_inside (show i < n by omega)]

/-- Over a source with the distance as a period the copy is exact, too. -/
theorem up_periodic (pos : 0 < k) (periodic : Periodic m s n k) (lt : i < n) :
    up m (s + k) s n (s + k + i) = m (s + i) := by
  induction i using Nat.strongRecOn with
  | ind i ih =>
      by_cases early : i < k
      · rw [up_inside lt]
        apply up_outside
        omega
      · obtain ⟨j, rfl⟩ : ∃ j, i = j + k := ⟨i - k, by omega⟩
        calc up m (s + k) s n (s + k + (j + k))
          _ = up m (s + k) s n (s + k + j) := up_repeats lt
          _ = m (s + j) := ih j (by omega) (by omega)
          _ = m (s + (j + k)) := (periodic j lt).symm

/-- An exact copy over an overlap from below is one of a periodic source. -/
theorem periodic_of_exact (exact : ∀ i, i < n → up m (s + k) s n (s + k + i) = m (s + i)) :
    Periodic m s n k := by
  intro i lt
  calc m (s + (i + k))
    _ = up m (s + k) s n (s + k + (i + k)) := (exact (i + k) lt).symm
    _ = up m (s + k) s n (s + k + i) := up_repeats lt
    _ = m (s + i) := exact i (by omega)

/-- When a copy upwards is exact. -/
theorem up_exact_iff :
    (∀ i, i < n → up m d s n (d + i) = m (s + i)) ↔
      d ≤ s ∨ s + n ≤ d ∨ Periodic m s n (d - s) := by
  constructor
  · intro exact
    by_cases apart : d ≤ s
    · exact .inl apart
    · obtain ⟨k, rfl⟩ : ∃ k, d = s + k := ⟨d - s, by omega⟩
      rw [Nat.add_sub_cancel_left]
      exact .inr (.inr (periodic_of_exact exact))
  · intro cases i lt
    rcases cases with before | after | periodic
    · exact up_apart (.inl before) lt
    · exact up_apart (.inr after) lt
    · by_cases before : d ≤ s
      · exact up_apart (.inl before) lt
      · obtain ⟨k, rfl⟩ : ∃ k, d = s + k := ⟨d - s, by omega⟩
        rw [Nat.add_sub_cancel_left] at periodic
        exact up_periodic (by omega) periodic lt

end LtcOs.Copy
