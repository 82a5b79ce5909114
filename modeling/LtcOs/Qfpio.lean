import Mathlib.Data.List.Basic
import Mathlib.Tactic

/-!
Floating-point numbers as text (`qfp_float2str` of `qfpio.s`).

The format word is the one `ftoa` of `chprintf.c` makes: fixed-point output with a number of places
behind the point, no sign for positive numbers, and trailing zeros kept. The text is what is stored
from `s` on to the pointer returned, which is behind the terminator.
-/

namespace LtcOs.Qfpio

/-! ### The decimal exponent -/

/-- Multiplication by 128/125. -/
def div125 (u : UInt32) : UInt32 :=
  let a := (u >>> 14) * 0x4189
  let b := ((a >>> 1) + (a >>> 2)) >>> 4
  let c := (u - a + (b >>> 1) + (b &&& 1)) * 0x4189
  (c >>> 14) + a + 1

/-- The number is `m * 2^e2 * 10^e10`, but for a fixed point in `m`. -/
structure Scaled where
  m : UInt32
  e2 : Int
  e10 : Int
deriving DecidableEq, Repr

/-- `while(test(e2)) body`, with a bound on the rounds. -/
def loop (test : Int → Bool) (body : Scaled → Scaled) : (rounds : Nat) → Scaled → Scaled
  | 0, x => x
  | rounds + 1, x => if test x.e2 then loop test body rounds (body x) else x

/-- Take 10 off `e2` and add 3 to `e10`. -/
def less (x : Scaled) : Scaled :=
  let x := if 0xf0000000 ≤ x.m then { x with m := x.m >>> 1, e2 := x.e2 + 1 } else x
  ⟨div125 x.m, x.e2 - 10, x.e10 + 3⟩

/-- Take 3 off `e10` and add 10 to `e2`. -/
def more (x : Scaled) : Scaled :=
  let m0 := (x.m >>> 5) + (x.m >>> 6)
  ⟨x.m - ((m0 >>> 1) + (m0 &&& 1)), x.e2 + 10, x.e10 - 3⟩

/-- Take 1 off `e10` and add 3 to `e2`. -/
def more8 (x : Scaled) : Scaled :=
  let m0 := x.m >>> 1
  ⟨x.m + ((m0 >>> 1) + (m0 &&& 1)), x.e2 + 3, x.e10 - 1⟩

def half (x : Scaled) : Scaled := ⟨x.m >>> 1, x.e2 + 1, x.e10⟩

def exponent (f : UInt32) : UInt32 := (f >>> 23) &&& 0xff

def mantissa (f : UInt32) : UInt32 := f &&& 0x7fffff

/-- The binary exponent is transferred to the decimal one. -/
def transfer (f : UInt32) : Scaled :=
  -- denormals are flushed to zero
  let x : Scaled :=
    if exponent f = 0 then ⟨0, 0, 0⟩
    else ⟨mantissa f <<< 8 ||| 0x80000000, (exponent f).toNat - 127, 0⟩
  let x := loop (fun e2 => 0 < e2) less 128 x
  let x := loop (fun e2 => e2 ≤ -10) more 128 x
  let x := loop (fun e2 => e2 ≤ -3) more8 128 { x with m := x.m >>> 1 }
  loop (fun e2 => e2 < 0) half 128 x

/-- The mantissa with its point behind four bits, and the exponent. -/
def decimal (f : UInt32) : UInt32 × Int :=
  let x := transfer f
  if 0x40000000 ≤ x.m then (x.m >>> 2, x.e10)
  else ((x.m <<< 1) + (x.m >>> 1) + (x.m &&& 1), x.e10 - 1)

/-! ### Rounding -/

/-- Multiplication by 0.1. -/
def tenth (m0 : UInt32) : UInt32 :=
  let m0 := m0 + (m0 >>> 1)
  let m0 := m0 + (m0 >>> 4)
  let m0 := m0 + (m0 >>> 8)
  let m0 := m0 + (m0 >>> 16)
  m0 >>> 4

def rounding : Nat → UInt32
  | 0 => 0x08000000
  | n + 1 => tenth (rounding n)

/-- The number with half of its last place added. -/
def rounded (f : UInt32) (places : Nat) : UInt32 × Int :=
  let (m, e10) := decimal f
  let sf : Int := e10 + places + 1
  let m := m + rounding (sf - 1).toNat
  if m >>> 28 ≥ 0xa then (0x10000000, e10 + 1) else (m, e10)

/-! ### The text -/

/-- The point is behind the digit of significance 1. -/
def opoint (i : Int) : List UInt8 := if i = 0 then [46] else []

/-- `n` digits, the first one of significance `10^i`. -/
def significand (m : UInt32) (i : Int) : (n : Nat) → List UInt8
  | 0 => []
  | n + 1 =>
      let rest := (m <<< 4) >>> 1
      ((m >>> 28).toUInt8 + 48) :: (opoint i ++ significand (rest + (rest >>> 2)) (i - 1) n)

/-- All digits down to the last place, which has significance `10^(d1 + 1)`. -/
def places (m : UInt32) (d0 : Int) (places : Nat) : List UInt8 :=
  let d1 : Int := -places - 1
  if d0 < 0 then
    let i := max d0 d1
    48 :: 46 :: (List.replicate (-1 - i).toNat 48 ++ significand m i (i - d1).toNat)
  else significand m d0 (d0 - d1).toNat

/-- A point at the end is removed. -/
def removePoint (text : List UInt8) : List UInt8 :=
  if text.getLast? = some 46 then text.dropLast else text

def qfp_float2str (f : UInt32) (n : Nat) : List UInt8 :=
  let sign := if 0x80000000 ≤ f then [45] else []
  if exponent f = 0xff then
    -- "Inf" and "NaN"
    sign ++ (if mantissa f = 0 then [73, 110, 102] else [78, 97, 78]) ++ [0]
  else
    let (m, e10) := rounded f n
    sign ++ removePoint (places m e10 n) ++ [0]

/-- Pi with five places. -/
example : qfp_float2str 0x40490fdb 5 = [51, 46, 49, 52, 49, 53, 57, 0] := by decide

/-! ### The exponent is transferred -/

section Transfer

variable {x : Scaled}

/-- A loop that makes a measure smaller comes to its end. -/
theorem loop_spec (test : Int → Bool) (body : Scaled → Scaled) (P : Scaled → Prop) (μ : Scaled → Nat)
    (step : ∀ x, test x.e2 = true → P x → P (body x) ∧ μ (body x) < μ x) {rounds : Nat}
    (start : P x) (enough : μ x ≤ rounds) :
    P (loop test body rounds x) ∧ test (loop test body rounds x).e2 = false := by
  induction rounds generalizing x with
  | zero =>
      refine ⟨start, Bool.eq_false_iff.mpr fun more => ?_⟩
      have := (step x more start).2
      omega
  | succ rounds ih =>
      rw [loop]
      split_ifs with more
      · obtain ⟨kept, smaller⟩ := step x more start
        exact ih kept (by omega)
      · exact ⟨start, Bool.eq_false_iff.mpr more⟩

theorem less_e2 (x : Scaled) : x.e2 - 10 ≤ (less x).e2 ∧ (less x).e2 ≤ x.e2 - 9 := by
  unfold less
  split_ifs
  · exact ⟨by dsimp only; omega, by dsimp only; omega⟩
  · exact ⟨by dsimp only; omega, by dsimp only; omega⟩

theorem exponent_le (f : UInt32) : (exponent f).toNat ≤ 255 := by
  rw [exponent, UInt32.toNat_and]
  exact Nat.and_le_right

/-- No loop is cut by its bound: all of the binary exponent is transferred. -/
theorem transfer_e2 (f : UInt32) : (transfer f).e2 = 0 := by
  have bound := exponent_le f
  unfold transfer
  dsimp only
  generalize start : (if exponent f = 0 then (⟨0, 0, 0⟩ : Scaled)
    else ⟨mantissa f <<< 8 ||| 0x80000000, (exponent f).toNat - 127, 0⟩) = x₀
  have range : -127 ≤ x₀.e2 ∧ x₀.e2 ≤ 128 := by
    rw [← start]
    split_ifs
    · exact ⟨by decide, by decide⟩
    · exact ⟨by dsimp only; omega, by dsimp only; omega⟩
  obtain ⟨low₁, high₁⟩ := loop_spec (fun e2 => 0 < e2) less (fun x => -127 ≤ x.e2)
    (fun x => x.e2.toNat) (fun x more low => by
      have positive := of_decide_eq_true more
      have := less_e2 x
      exact ⟨by omega, by omega⟩) range.1 (show _ ≤ 128 by omega)
  generalize loop (fun e2 => 0 < e2) less 128 x₀ = x₁ at low₁ high₁ ⊢
  have high₁ := not_lt.mp (of_decide_eq_false high₁)
  obtain ⟨high₂, low₂⟩ := loop_spec (fun e2 => e2 ≤ -10) more (fun x => x.e2 ≤ 0)
    (fun x => (-x.e2).toNat) (fun x again high => by
      have below := of_decide_eq_true again
      exact ⟨by dsimp only [more]; omega, by dsimp only [more]; omega⟩) high₁
      (show _ ≤ 128 by omega)
  generalize loop (fun e2 => e2 ≤ -10) more 128 x₁ = x₂ at low₂ high₂ ⊢
  have low₂ := not_le.mp (of_decide_eq_false low₂)
  obtain ⟨high₃, low₃⟩ := loop_spec (fun e2 => e2 ≤ -3) more8 (fun x => x.e2 ≤ 0)
    (fun x => (-x.e2).toNat) (fun x again high => by
      have below := of_decide_eq_true again
      exact ⟨by dsimp only [more8]; omega, by dsimp only [more8]; omega⟩)
    (show ({ x₂ with m := x₂.m >>> 1 } : Scaled).e2 ≤ 0 from high₂) (show _ ≤ 128 by dsimp only; omega)
  generalize loop (fun e2 => e2 ≤ -3) more8 128 { x₂ with m := x₂.m >>> 1 } = x₃ at low₃ high₃ ⊢
  have low₃ := not_le.mp (of_decide_eq_false low₃)
  obtain ⟨high₄, low₄⟩ := loop_spec (fun e2 => e2 < 0) half (fun x => x.e2 ≤ 0)
    (fun x => (-x.e2).toNat) (fun x again high => by
      have below := of_decide_eq_true again
      exact ⟨by dsimp only [half]; omega, by dsimp only [half]; omega⟩) high₃
      (show _ ≤ 128 by omega)
  have low₄ := not_lt.mp (of_decide_eq_false low₄)
  omega

end Transfer

/-! ### The length of the text -/

/-- How many characters a number takes, the terminator included. -/
def length (f : UInt32) (n : Nat) : Nat :=
  (if 0x80000000 ≤ f then 1 else 0) +
    if exponent f = 0xff then 4
    else ((rounded f n).2.toNat + 1) + (if n = 0 then 0 else n + 1) + 1

theorem length_significand (m : UInt32) (i : Int) (n : Nat) :
    (significand m i n).length = n + if 0 ≤ i ∧ i < n then 1 else 0 := by
  induction n generalizing m i with
  | zero =>
      rw [if_neg (by omega)]
      rfl
  | succ n ih =>
      rw [significand, List.length_cons, List.length_append, ih, opoint]
      by_cases zero : i = 0
      · rw [if_pos zero, if_neg (by omega), if_pos (by omega)]
        simp
        omega
      · rw [if_neg zero, List.length_nil]
        push_cast
        split_ifs <;> omega

/-- A digit is no point. -/
theorem digit_ne (m : UInt32) : (m >>> 28).toUInt8 + 48 ≠ 46 := by
  intro point
  have value : (m.toNat >>> 28 % 256 + 48) % 256 = 46 := by
    have := congrArg UInt8.toNat point
    rw [UInt8.toNat_add, UInt32.toNat_toUInt8, UInt32.toNat_shiftRight] at this
    exact this
  have bound := m.toNat_lt
  rw [Nat.shiftRight_eq_div_pow] at value
  omega

/-- The point comes last exactly if no digit is behind it. -/
theorem significand_getLast (m : UInt32) (i : Int) (n : Nat) :
    (significand m i n).getLast? = some 46 ↔ 0 < n ∧ i + 1 = n := by
  induction n generalizing m i with
  | zero => simp [significand]
  | succ n ih =>
      rw [significand]
      cases n with
      | zero =>
          by_cases zero : i = 0
          · simp [zero, opoint, significand]
          · simp [zero, opoint, significand, digit_ne]
      | succ n =>
          have there : ∀ m i, significand m i (n + 1) ≠ [] := fun m i => List.cons_ne_nil _ _
          rw [List.getLast?_cons, List.getLast?_append_of_ne_nil _ (there _ _)]
          have last := ih (((m <<< 4) >>> 1) + (((m <<< 4) >>> 1) >>> 2)) (i - 1)
          cases eq : (significand (((m <<< 4) >>> 1) + (((m <<< 4) >>> 1) >>> 2)) (i - 1)
            (n + 1)).getLast? with
          | none => exact absurd (List.getLast?_eq_none_iff.mp eq) (there _ _)
          | some c =>
              rw [eq] at last
              rw [Option.getD_some, last]
              push_cast
              omega

theorem length_removePoint (text : List UInt8) :
    (removePoint text).length = text.length - if text.getLast? = some 46 then 1 else 0 := by
  unfold removePoint
  split_ifs
  · exact List.length_dropLast
  · rfl

/-- Zeros and digits behind the point of a number below one. -/
theorem fraction_getLast (m : UInt32) {i : Int} (below : i < 0) (k n : Nat) :
    (48 :: 46 :: (List.replicate k 48 ++ significand m i n)).getLast? = some 46 ↔
      k = 0 ∧ n = 0 := by
  by_cases some_digit : 0 < n
  · have there : significand m i n ≠ [] := by
      intro nil
      have length := length_significand m i n
      rw [nil, List.length_nil] at length
      omega
    have last : (48 :: 46 :: (List.replicate k 48 ++ significand m i n)).getLast? =
        (significand m i n).getLast? := by
      rw [← List.cons_append, ← List.cons_append, List.getLast?_append_of_ne_nil _ there]
    rw [last, significand_getLast]
    omega
  · obtain rfl : n = 0 := by omega
    cases k with
    | zero => simp [significand]
    | succ k => simp [significand, List.getLast?_cons, List.replicate_succ']

theorem length_places (m : UInt32) (d0 : Int) (n : Nat) :
    (removePoint (places m d0 n)).length = (d0.toNat + 1) + if n = 0 then 0 else n + 1 := by
  rw [length_removePoint]
  unfold places
  dsimp only
  by_cases below : d0 < 0
  · have point := fraction_getLast m (i := max d0 (-n - 1)) (by omega) (-1 - max d0 (-n - 1)).toNat
      (max d0 (-n - 1) - (-n - 1)).toNat
    rw [if_pos below, List.length_cons, List.length_cons, List.length_append,
      List.length_replicate, length_significand, if_neg (by omega)]
    simp only [point]
    split_ifs <;> omega
  · have point := significand_getLast m d0 (d0 - (-n - 1)).toNat
    rw [if_neg below, length_significand, if_pos (by omega)]
    simp only [point]
    split_ifs <;> omega

/-- The text of a number has the length that its exponent and the number of places tell. -/
theorem length_qfp_float2str (f : UInt32) (n : Nat) :
    (qfp_float2str f n).length = length f n := by
  have sign : (if 0x80000000 ≤ f then [45] else [] : List UInt8).length =
      if 0x80000000 ≤ f then 1 else 0 := by
    split_ifs
    · rfl
    · rfl
  unfold qfp_float2str length
  dsimp only
  by_cases special : exponent f = 0xff
  · rw [if_pos special, if_pos special, List.length_append, List.length_append, sign]
    split_ifs <;> rfl
  · rw [if_neg special, if_neg special, List.length_append, List.length_append, sign,
      length_places]
    simp only [List.length_singleton]
    omega

end LtcOs.Qfpio
