import LtcOs.Murmur3

/-!
Random numbers for Arduino programs (`arduino-math.c`).

The generator hashes its 64-bit `rand_val`. `hash` stands for what `MurmurHash3_x86_32` gives in
each of its calls, so that every sequence of values is covered; `murmurOf` is the hash itself. A
`long` has 32 bits, and its differences and sums wrap around.
-/

namespace LtcOs.Arduino

open LtcOs.Memory LtcOs.Murmur3

def MAX_TRIES : Nat := 100

def RAND_MAX : BitVec 32 := 2147483647

/-- `rand_val`, and how many values have been drawn. -/
structure Rand where
  rand_val : BitVec 64
  drawn : Nat
deriving DecidableEq, Repr

namespace Rand

/-! ### The code -/

def add_entropy (g : Rand) (val : BitVec 32) : Rand :=
  { g with rand_val := g.rand_val + val.setWidth 64 }

/-- The hash of the eight bytes of `rand_val`. -/
def murmurOf (_ : Nat) (rand_val : BitVec 64) : BitVec 32 :=
  (murmur (fun a => UInt8.ofNat (rand_val.toNat / 256 ^ a)) 8 0).toBitVec

section Code

variable (hash : Nat → BitVec 64 → BitVec 32)

def real_rand (g : Rand) : BitVec 32 × Rand :=
  let val := hash g.drawn g.rand_val
  (val, { g with drawn := g.drawn + 1 }.add_entropy val)

/-- The loop of `random_at_most`, by the tries that are left. The last value is kept. -/
def tryBelow (limit : BitVec 32) : (left : Nat) → Rand → BitVec 32 × Rand
  | 0, g => real_rand hash g
  | left + 1, g =>
      let draw := real_rand hash g
      if limit ≤ draw.1 then tryBelow limit left draw.2 else draw

/-- A division by zero has no result. -/
def random_at_most (g : Rand) (max : BitVec 32) : Option (BitVec 32 × Rand) :=
  let num_bins := max + 1
  let num_rand := RAND_MAX + 1
  if num_bins = 0 then none
  else
    let bin_size := num_rand / num_bins
    let defect := num_rand % num_bins
    let draw := tryBelow hash (num_rand - defect) MAX_TRIES g
    if bin_size = 0 then none else some (draw.1 / bin_size, draw.2)

def random (g : Rand) (min max : BitVec 32) : Option (BitVec 32 × Rand) :=
  let args := if max.slt min then (max, min) else (min, max)
  (random_at_most hash g (args.2 - args.1)).map fun r =>
    (r.1 + args.1, (r.2.add_entropy args.1).add_entropy args.2)

end Code

/-! ### What is wanted -/

/-- A result between the smaller and the larger argument. -/
def InRange (min max r : BitVec 32) : Prop :=
  Min.min min.toInt max.toInt ≤ r.toInt ∧ r.toInt ≤ Max.max min.toInt max.toInt

instance (min max r : BitVec 32) : Decidable (InRange min max r) :=
  inferInstanceAs (Decidable (_ ∧ _))

/-- How far apart the arguments are. -/
def span (min max : BitVec 32) : Nat := (max.toInt - min.toInt).natAbs

section Values

variable (hash : Nat → BitVec 64 → BitVec 32)

/-- The value that `real_rand` returns in its `i`th call from `g` on. -/
def value (g : Rand) (i : Nat) : BitVec 32 :=
  (real_rand hash ((fun g => (real_rand hash g).2)^[i] g)).1

/-- A value that `random_at_most` accepts is below this. -/
def limit (n : Nat) : Nat := 2147483648 - 2147483648 % (n + 1)

variable {hash}
variable {g : Rand} {lim : BitVec 32} {left : Nat}

/-- The loop ends with an accepted value if there is one among the tries. -/
theorem tryBelow_accepts (accepted : ∃ i ≤ left, value hash g i < lim) :
    (tryBelow hash lim left g).1 < lim := by
  induction left generalizing g with
  | zero =>
      obtain ⟨i, le, below⟩ := accepted
      obtain rfl : i = 0 := by omega
      exact below
  | succ left ih =>
      rw [tryBelow]
      split
      · rename_i rejected
        apply ih
        obtain ⟨i, le, below⟩ := accepted
        cases i with
        | zero => exact absurd below (BitVec.not_lt.mpr rejected)
        | succ i => exact ⟨i, by omega, below⟩
      · rename_i kept
        exact BitVec.not_le.mp kept

/-- Otherwise it ends with the last value, which was rejected too. -/
theorem tryBelow_rejects (rejected : ∀ i ≤ left, lim ≤ value hash g i) :
    lim ≤ (tryBelow hash lim left g).1 := by
  induction left generalizing g with
  | zero => exact rejected 0 le_rfl
  | succ left ih =>
      have first : lim ≤ (real_rand hash g).1 := rejected 0 (by omega)
      rw [tryBelow, if_pos first]
      exact ih fun i le => rejected (i + 1) (by omega)

end Values

/-! ### Bins -/

section Bins

variable {hash : Nat → BitVec 64 → BitVec 32} {g : Rand} {max : BitVec 32}

theorem toNat_num_bins (small : max.toNat < 2147483648) : (max + 1).toNat = max.toNat + 1 := by
  bv_omega

theorem toNat_limit (small : max.toNat < 2147483648) :
    (RAND_MAX + 1 - (RAND_MAX + 1) % (max + 1)).toNat = limit max.toNat := by
  have rest : 2147483648 % (max.toNat + 1) ≤ 2147483648 := Nat.mod_le _ _
  have num_rand : (RAND_MAX + 1).toNat = 2147483648 := rfl
  rw [BitVec.toNat_sub_of_le, BitVec.toNat_umod, toNat_num_bins small, num_rand, limit]
  rw [BitVec.le_def, BitVec.toNat_umod, toNat_num_bins small, num_rand]
  exact rest

/-- The accepted values fill the bins. -/
theorem limit_eq (n : Nat) : limit n = (n + 1) * (2147483648 / (n + 1)) := by
  have := Nat.div_add_mod 2147483648 (n + 1)
  unfold limit
  omega

/-- With at most `2^31` bins the quotient is the number of a bin exactly if a value was
accepted. -/
theorem random_at_most_small (hash : Nat → BitVec 64 → BitVec 32) (g : Rand)
    (small : max.toNat < 2147483648) :
    ∃ q g', random_at_most hash g max = some (q, g') ∧
      (q.toNat ≤ max.toNat ↔ ∃ i ≤ MAX_TRIES, (value hash g i).toNat < limit max.toNat) := by
  have bins : max + 1 ≠ 0 := by bv_omega
  have size : ((RAND_MAX + 1) / (max + 1)).toNat = 2147483648 / (max.toNat + 1) := by
    rw [BitVec.toNat_udiv, toNat_num_bins small]
    rfl
  have pos : 0 < 2147483648 / (max.toNat + 1) := Nat.div_pos (by omega) (by omega)
  have size_pos : (RAND_MAX + 1) / (max + 1) ≠ 0 := by
    intro zero
    rw [zero] at size
    simp only [BitVec.ofNat_eq_ofNat, BitVec.toNat_ofNat, Nat.zero_mod] at size
    omega
  refine ⟨_, _, by rw [random_at_most, if_neg bins, if_neg size_pos], ?_⟩
  rw [BitVec.toNat_udiv, size, ← Nat.lt_succ_iff, Nat.div_lt_iff_lt_mul pos, Nat.succ_eq_add_one,
    ← limit_eq, ← toNat_limit small, ← BitVec.lt_def]
  constructor
  · intro below
    by_contra none_accepted
    push Not at none_accepted
    refine absurd below (BitVec.not_lt.mpr (tryBelow_rejects fun i le => ?_))
    exact BitVec.le_def.mpr (none_accepted i le)
  · rintro ⟨i, le, below⟩
    exact tryBelow_accepts ⟨i, le, BitVec.lt_def.mpr below⟩

/-- With more bins than values there is a division by zero. -/
theorem random_at_most_large (large : 2147483648 ≤ max.toNat) : random_at_most hash g max = none := by
  rw [random_at_most]
  split
  · rfl
  · rename_i bins
    have size : (RAND_MAX + 1) / (max + 1) = 0 := by
      apply BitVec.eq_of_toNat_eq
      rw [BitVec.toNat_udiv]
      apply Nat.div_eq_of_lt
      have num_rand : (RAND_MAX + 1).toNat = 2147483648 := rfl
      rw [num_rand]
      bv_omega
    rw [if_pos size]

end Bins

/-! ### Ranges -/

section Ranges

variable {hash : Nat → BitVec 64 → BitVec 32} {g : Rand} {min max lo hi : BitVec 32}

theorem toNat_sub_eq_span (le : lo.toInt ≤ hi.toInt) : (hi - lo).toNat = span lo hi := by
  have := lo.isLt
  have := hi.isLt
  simp only [BitVec.toInt_eq_toNat_cond] at le
  simp only [span, BitVec.toNat_sub, BitVec.toInt_eq_toNat_cond]
  omega

theorem span_comm (min max : BitVec 32) : span max min = span min max := by
  unfold span
  omega

/-- An offset from the smaller argument. -/
theorem inRange_add (le : lo.toInt ≤ hi.toInt) (q : BitVec 32) :
    InRange lo hi (q + lo) ↔ q.toNat ≤ span lo hi := by
  have := lo.isLt
  have := hi.isLt
  have := q.isLt
  simp only [InRange, min_eq_left le, max_eq_right le, span]
  simp only [BitVec.toInt_eq_toNat_cond, BitVec.toNat_add] at le ⊢
  omega

theorem inRange_comm (min max r : BitVec 32) : InRange max min r ↔ InRange min max r := by
  rw [InRange, InRange, min_comm, max_comm]

theorem ordered_in_range_iff (le : lo.toInt ≤ hi.toInt) (f : Rand → Rand) :
    (∃ r g', (random_at_most hash g (hi - lo)).map (fun r => (r.1 + lo, f r.2)) = some (r, g') ∧
      InRange lo hi r) ↔
      span lo hi < 2147483648 ∧
        ∃ i ≤ MAX_TRIES, (value hash g i).toNat < limit (span lo hi) := by
  have diff := toNat_sub_eq_span le
  by_cases small : span lo hi < 2147483648
  · obtain ⟨q, g', result, iff⟩ := random_at_most_small hash g (diff ▸ small)
    rw [diff, ← inRange_add le] at iff
    simp only [result, Option.map_some, Option.some.injEq, Prod.mk.injEq, small, true_and, ← iff]
    constructor
    · rintro ⟨r, g'', ⟨rfl, -⟩, inside⟩
      exact inside
    · intro inside
      exact ⟨_, _, ⟨rfl, rfl⟩, inside⟩
  · rw [random_at_most_large (by omega)]
    simp [small]

/-- `random` divides by nothing but a positive number and stays in its range exactly if the
range has at most `2^31` numbers and one of the tries is accepted. -/
theorem random_in_range_iff (hash : Nat → BitVec 64 → BitVec 32) (g : Rand) (min max : BitVec 32) :
    (∃ r g', random hash g min max = some (r, g') ∧ InRange min max r) ↔
      span min max < 2147483648 ∧
        ∃ i ≤ MAX_TRIES, (value hash g i).toNat < limit (span min max) := by
  unfold random
  by_cases swapped : max.slt min
  · rw [if_pos swapped, ← span_comm]
    simp only [← inRange_comm min max]
    rw [BitVec.slt_iff_toInt_lt] at swapped
    exact ordered_in_range_iff swapped.le fun g => (g.add_entropy max).add_entropy min
  · rw [if_neg swapped]
    rw [BitVec.slt_iff_toInt_lt] at swapped
    exact ordered_in_range_iff (not_lt.mp swapped) fun g => (g.add_entropy min).add_entropy max

/-- The range of all numbers has no bins at all. With three bins, hash values that are all too
large are kept after the last try, and the last bin is left behind. -/
theorem random_out_of_range :
    random murmurOf ⟨0, 0⟩ 0x80000000 0x7FFFFFFF = none ∧
      ∃ r g', random (fun _ _ => 0xFFFFFFFF) ⟨0, 0⟩ 0 2 = some (r, g') ∧ ¬ InRange 0 2 r := by
  refine ⟨rfl, 6, ?_⟩
  refine ⟨_, rfl, ?_⟩
  decide

end Ranges

end Rand

end LtcOs.Arduino
