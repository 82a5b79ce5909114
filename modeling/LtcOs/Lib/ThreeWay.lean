import Mathlib.Data.Prod.Lex
import Mathlib.Tactic

/-!
Three-way comparisons: functions that return -1, 0 or 1 for less, equal and greater.

A comparison by a key with values in a linear order is a total order of the things compared,
and one that looks at a second key where the first ones are equal is the comparison of the pairs.
-/

namespace LtcOs.ThreeWay

variable {α β γ : Type}

/-- The comparison of a linear order. -/
def threeWay [LinearOrder β] (x y : β) : Int := if x < y then -1 else if y < x then 1 else 0

/-- The function is a total order in the form of a comparison. -/
structure TotalOrder (cmp : α → α → Int) : Prop where
  values : ∀ a b, cmp a b = -1 ∨ cmp a b = 0 ∨ cmp a b = 1
  equal : ∀ a b, cmp a b = 0 ↔ a = b
  swap : ∀ a b, cmp b a = -cmp a b
  trans : ∀ a b c, cmp a b ≤ 0 → cmp b c ≤ 0 → cmp a c ≤ 0

section Order

variable [LinearOrder β] [LinearOrder γ] {x y : β} {u v : γ}

theorem threeWay_of_lt (lt : x < y) : threeWay x y = -1 := if_pos lt

theorem threeWay_of_gt (gt : y < x) : threeWay x y = 1 := by
  rw [threeWay, if_neg gt.not_gt, if_pos gt]

theorem threeWay_self (x : β) : threeWay x x = 0 := by
  rw [threeWay, if_neg (lt_irrefl x), if_neg (lt_irrefl x)]

theorem threeWay_le_zero : threeWay x y ≤ 0 ↔ x ≤ y := by
  rcases lt_trichotomy x y with lt | rfl | gt
  · rw [threeWay_of_lt lt]
    exact iff_of_true (by decide) lt.le
  · rw [threeWay_self]
    exact iff_of_true le_rfl le_rfl
  · rw [threeWay_of_gt gt]
    exact iff_of_false (by decide) gt.not_ge

/-- A comparison by a key that tells everything apart is a total order. -/
theorem totalOrder_of_key {f : α → β} (inj : Function.Injective f) :
    TotalOrder fun a b => threeWay (f a) (f b) := by
  constructor
  · intro a b
    rcases lt_trichotomy (f a) (f b) with lt | eq | gt
    · exact .inl (threeWay_of_lt lt)
    · rw [eq]
      exact .inr (.inl (threeWay_self _))
    · exact .inr (.inr (threeWay_of_gt gt))
  · intro a b
    rcases lt_trichotomy (f a) (f b) with lt | eq | gt
    · simp only [threeWay_of_lt lt]
      exact iff_of_false (by decide) fun same => lt.ne (congrArg f same)
    · simp only [eq, threeWay_self, true_iff]
      exact inj eq
    · simp only [threeWay_of_gt gt]
      exact iff_of_false (by decide) fun same => gt.ne' (congrArg f same)
  · intro a b
    rcases lt_trichotomy (f a) (f b) with lt | eq | gt
    · simp only [threeWay_of_lt lt, threeWay_of_gt lt, neg_neg]
    · simp only [eq, threeWay_self, neg_zero]
    · simp only [threeWay_of_gt gt, threeWay_of_lt gt]
  · intro a b c first second
    exact threeWay_le_zero.mpr ((threeWay_le_zero.mp first).trans (threeWay_le_zero.mp second))

/-- Two keys one after the other are compared as a pair. -/
theorem threeWay_lex (x y : β) (u v : γ) :
    threeWay (toLex (x, u)) (toLex (y, v)) =
      if x < y then -1 else if y < x then 1 else threeWay u v := by
  rcases lt_trichotomy x y with lt | rfl | gt
  · rw [if_pos lt]
    exact threeWay_of_lt (Prod.Lex.toLex_lt_toLex.mpr (.inl lt))
  · rw [if_neg (lt_irrefl x), if_neg (lt_irrefl x)]
    simp only [threeWay, Prod.Lex.toLex_lt_toLex, lt_irrefl, true_and, false_or]
  · rw [if_neg gt.not_gt, if_pos gt]
    exact threeWay_of_gt (Prod.Lex.toLex_lt_toLex.mpr (.inl gt))

/-- A key that keeps the order compares alike. -/
theorem threeWay_congr (lt : x < y ↔ u < v) (gt : y < x ↔ v < u) :
    threeWay x y = threeWay u v := by
  simp only [threeWay, lt, gt]

end Order

end LtcOs.ThreeWay
