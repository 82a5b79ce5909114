import Mathlib.Algebra.BigOperators.Group.Finset.Basic
import Mathlib.Algebra.Order.Ring.Int
import Mathlib.Algebra.Order.Ring.Abs
import Mathlib.Tactic.IntervalCases
import Mathlib.Tactic.Linarith
import Mathlib.Tactic.Ring
import Mathlib.Tactic.Positivity

/-!
Signed 32-bit arithmetic without overflow.

An `Expr` is a computation on `int32_t`. `run` is what the machine computes, modulo `2^32`,
and `value` what is meant, in the integers. If no intermediate value leaves the range of the
type, the two agree.
-/

namespace LtcOs.Exact

inductive Expr where
  | lit (v : Int32)
  | add (a b : Expr)
  | sub (a b : Expr)
  | mul (a b : Expr)
  | shr (a : Expr) (k : Nat)

namespace Expr

/-- The machine's result. -/
def run : Expr → Int32
  | .lit v => v
  | .add a b => a.run + b.run
  | .sub a b => a.run - b.run
  | .mul a b => a.run * b.run
  | .shr a k => a.run >>> Int32.ofNat k

/-- The result in the integers; shifting rounds down. -/
def value : Expr → Int
  | .lit v => v.toInt
  | .add a b => a.value + b.value
  | .sub a b => a.value - b.value
  | .mul a b => a.value * b.value
  | .shr a k => a.value >>> k

end Expr

/-- The integer is in the range of `int32_t`. -/
def Fits (x : Int) : Prop := -2147483648 ≤ x ∧ x < 2147483648

/-- No intermediate value overflows. -/
def NoOverflow : Expr → Prop
  | .lit _ => True
  | .add a b => NoOverflow a ∧ NoOverflow b ∧ Fits (a.value + b.value)
  | .sub a b => NoOverflow a ∧ NoOverflow b ∧ Fits (a.value - b.value)
  | .mul a b => NoOverflow a ∧ NoOverflow b ∧ Fits (a.value * b.value)
  | .shr a k => NoOverflow a ∧ k < 32

theorem Fits.bmod {x : Int} (fits : Fits x) : x.bmod (2 ^ 32) = x := by
  obtain ⟨lo, hi⟩ := fits
  apply Int.bmod_eq_of_le <;> omega

theorem toInt_shiftRight {a : Int32} {k : Nat} (small : k < 32) :
    (a >>> Int32.ofNat k).toInt = a.toInt >>> k := by
  have shift : (a >>> Int32.ofNat k).toInt = (a.toBitVec.sshiftRight k).toInt := by
    interval_cases k <;> rfl
  rw [shift, BitVec.toInt_sshiftRight]
  rfl

/-- Without overflow the machine computes what is meant. -/
theorem toInt_run {e : Expr} (exact : NoOverflow e) : e.run.toInt = e.value := by
  induction e with
  | lit v => rfl
  | add a b iha ihb =>
      obtain ⟨ha, hb, fits⟩ := exact
      rw [Expr.run, Int32.toInt_add, iha ha, ihb hb, fits.bmod, Expr.value]
  | sub a b iha ihb =>
      obtain ⟨ha, hb, fits⟩ := exact
      rw [Expr.run, Int32.toInt_sub, iha ha, ihb hb, fits.bmod, Expr.value]
  | mul a b iha ihb =>
      obtain ⟨ha, hb, fits⟩ := exact
      rw [Expr.run, Int32.toInt_mul, iha ha, ihb hb, fits.bmod, Expr.value]
  | shr a k ih =>
      obtain ⟨ha, small⟩ := exact
      rw [Expr.run, toInt_shiftRight small, ih ha, Expr.value]

/-! ### Correlations -/

/-- The sum of `a j * b j` over `j < n`, accumulated from zero. -/
def dot (a b : Nat → Int32) : Nat → Expr
  | 0 => .lit 0
  | n + 1 => .add (dot a b n) (.mul (.lit (a n)) (.lit (b n)))

theorem value_dot (a b : Nat → Int32) (n : Nat) :
    (dot a b n).value = ∑ j ∈ Finset.range n, (a j).toInt * (b j).toInt := by
  induction n with
  | zero => rfl
  | succ n ih =>
      rw [Finset.sum_range_succ, ← ih]
      rfl

theorem abs_mul_le {x y A B : Int} (hx : |x| ≤ A) (hy : |y| ≤ B) : |x * y| ≤ A * B := by
  rw [abs_mul]
  exact mul_le_mul hx hy (abs_nonneg y) ((abs_nonneg x).trans hx)

/-- A bound on the factors bounds the sum. -/
theorem abs_dot_le {a b : Nat → Int32} {A B : Int} {n : Nat}
    (ha : ∀ j, j < n → |(a j).toInt| ≤ A) (hb : ∀ j, j < n → |(b j).toInt| ≤ B) :
    |(dot a b n).value| ≤ n * (A * B) := by
  induction n with
  | zero => simp [dot, Expr.value]
  | succ n ih =>
      have before := ih (fun j hj => ha j (by omega)) fun j hj => hb j (by omega)
      have product := abs_mul_le (ha n (by omega)) (hb n (by omega))
      have step : (dot a b (n + 1)).value = (dot a b n).value + (a n).toInt * (b n).toInt := rfl
      calc |(dot a b (n + 1)).value|
          ≤ |(dot a b n).value| + |(a n).toInt * (b n).toInt| := step ▸ abs_add_le _ _
        _ ≤ n * (A * B) + A * B := add_le_add before product
        _ = (n + 1 : Nat) * (A * B) := by push_cast; ring

theorem fits_of_abs {x B : Int} (bound : |x| ≤ B) (small : B < 2147483648) : Fits x := by
  obtain ⟨lo, hi⟩ := abs_le.mp bound
  constructor
  · omega
  · omega

theorem noOverflow_dot {a b : Nat → Int32} {A B : Int} {n : Nat}
    (ha : ∀ j, j < n → |(a j).toInt| ≤ A) (hb : ∀ j, j < n → |(b j).toInt| ≤ B)
    (small : n * (A * B) < 2147483648) : NoOverflow (dot a b n) := by
  induction n with
  | zero => trivial
  | succ n ih =>
      have product := abs_mul_le (ha n (by omega)) (hb n (by omega))
      have nonneg : 0 ≤ A * B := (abs_nonneg _).trans product
      have total : n * (A * B) + A * B < 2147483648 := by
        rwa [Nat.cast_succ, add_mul, one_mul] at small
      have others : 0 ≤ n * (A * B) := by positivity
      have fewer : n * (A * B) < 2147483648 := by omega
      have one : A * B < 2147483648 := by omega
      refine ⟨ih (fun j hj => ha j (by omega)) (fun j hj => hb j (by omega)) fewer, ?_, ?_⟩
      · exact ⟨trivial, trivial, fits_of_abs product one⟩
      · exact fits_of_abs (abs_dot_le ha hb) small

end LtcOs.Exact
