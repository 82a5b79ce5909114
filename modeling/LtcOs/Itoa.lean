import LtcOs.Lib.Numeral
import Mathlib.Tactic

/-!
Numbers as text: `ch_ltoa` of `chprintf.c`, and `itoa` and `simple_strtol` with their relatives of
`__aeabi.c`.

The digits are written from the right into the caller's buffer, `MAX_FILLER` places behind its
start, and then moved to the front. A `long` has 32 bits, and with the unsigned radix all divisions
are unsigned.
-/

namespace LtcOs.Itoa

open LtcOs.Numeral

/-! ### The code -/

/-- The bytes from a pointer on, and the places that have been written. -/
structure Buffer where
  bytes : Nat → UInt8
  written : List Nat

namespace Buffer

def put (s : Buffer) (i : Nat) (c : UInt8) : Buffer :=
  ⟨Function.update s.bytes i c, i :: s.written⟩

/-- The `n` bytes from `i` on. -/
def slice (s : Buffer) (i n : Nat) : List UInt8 := (List.range n).map fun k => s.bytes (i + k)

end Buffer

def MAX_FILLER : Nat := 11

/-- A digit, counted on from `'0'` or from `'A'`. -/
def digitChar (i : Nat) : UInt8 := UInt8.ofNat (if 57 < i + 48 then i + 48 + 7 else i + 48)

/-- The loop that writes the digits below `q`, with a bound on the rounds. -/
def digitLoop (radix : UInt32) :
    (rounds : Nat) → (l ll : UInt32) → (q : Nat) → Buffer → Option (Buffer × Nat)
  | 0, _, _, _, _ => none
  | rounds + 1, l, ll, q, s =>
      let s := s.put (q - 1) (digitChar (l % radix).toNat)
      if ll / radix ≠ 0 then digitLoop radix rounds (l / radix) (ll / radix) (q - 1) s
      else some (s, q - 1)

/-- The loop that moves `i` digits from `q` to `p`. -/
def moveLoop : (i p q : Nat) → Buffer → Buffer
  | 0, _, _, s => s
  | i + 1, p, q, s => moveLoop i (p + 1) (q + 1) (s.put p (s.bytes q))

/-- The result is the buffer and the pointer behind the last digit. Every round divides by the
radix, so 32 of them are enough for a radix of at least 2. -/
def long_to_string_with_divisor (s : Buffer) (p : Nat) (num radix divisor : UInt32) :
    Option (Buffer × Nat) :=
  let ll := if divisor = 0 then num else divisor
  (digitLoop radix 32 num ll (p + MAX_FILLER) s).map fun r =>
    let i := p + MAX_FILLER - r.2
    (moveLoop i p r.2 r.1, p + i)

def ch_ltoa (s : Buffer) (p : Nat) (num radix : UInt32) : Option (Buffer × Nat) :=
  long_to_string_with_divisor s p num radix 0

def itoa (val : UInt32) (s : Buffer) (radix : UInt32) : Option (Buffer × Nat) :=
  ch_ltoa s 0 val radix

def ltoa (val : UInt32) (s : Buffer) (radix : UInt32) : Option (Buffer × Nat) :=
  ch_ltoa s 0 val radix

def ultoa (val : UInt32) (s : Buffer) (radix : UInt32) : Option (Buffer × Nat) :=
  ch_ltoa s 0 val radix

def utoa (val : UInt32) (s : Buffer) (radix : UInt32) : Option (Buffer × Nat) :=
  ch_ltoa s 0 val radix

def _isdigit (c : UInt8) : Bool := 48 ≤ c && c ≤ 57

def _isxdigit (c : UInt8) : Bool :=
  (48 ≤ c && c ≤ 57) || (97 ≤ c && c ≤ 102) || (65 ≤ c && c ≤ 70)

def _islower (c : UInt8) : Bool := 97 ≤ c && c ≤ 122

def _toupper (c : UInt8) : UInt8 := if !_islower c then c else c - 32

/-- The value of a hexadecimal digit. -/
def digitValue (c : UInt8) : UInt32 :=
  if _isdigit c then c.toUInt32 - 48
  else (if _islower c then _toupper c else c).toUInt32 - 65 + 10

/-- The loop of `simple_strtoul`, with a bound on the rounds. -/
def readLoop (m : Nat → UInt8) (base : UInt32) :
    (rounds cp : Nat) → (result : UInt32) → Option (UInt32 × Nat)
  | 0, _, _ => none
  | rounds + 1, cp, result =>
      if _isxdigit (m cp) ∧ digitValue (m cp) < base then
        readLoop m base rounds (cp + 1) (result * base + digitValue (m cp))
      else some (result, cp)

/-- The result is the number and `*endp`. -/
def simple_strtoul (m : Nat → UInt8) (rounds cp : Nat) (base : UInt32) : Option (UInt32 × Nat) :=
  -- `'0'`, and `'x'` before another digit
  let start :=
    if m cp = 48 then
      let start := if m (cp + 1) = 120 ∧ _isxdigit (m (cp + 2)) then (cp + 2, 16) else (cp + 1, base)
      (start.1, if start.2 = 0 then 8 else start.2)
    else (cp, base)
  readLoop m (if start.2 = 0 then 10 else start.2) rounds start.1 0

def simple_strtol (m : Nat → UInt8) (rounds cp : Nat) (base : UInt32) : Option (UInt32 × Nat) :=
  if m cp = 45 then (simple_strtoul m rounds (cp + 1) base).map fun r => (-r.1, r.2)
  else simple_strtoul m rounds cp base

/-! ### Writing digits -/

section Writing

variable {s : Buffer} {radix num : UInt32}

theorem put_bytes (s : Buffer) (i : Nat) (c : UInt8) (j : Nat) :
    (s.put i c).bytes j = if j = i then c else s.bytes j := Function.update_apply s.bytes i c j

theorem put_written (s : Buffer) (i : Nat) (c : UInt8) (j : Nat) :
    j ∈ (s.put i c).written ↔ j = i ∨ j ∈ s.written := List.mem_cons

theorem slice_succ (s : Buffer) (i n : Nat) :
    s.slice i (n + 1) = s.slice i n ++ [s.bytes (i + n)] := by
  rw [Buffer.slice, List.range_succ, List.map_append]
  rfl

theorem slice_append (s : Buffer) (i n k : Nat) :
    s.slice i (n + k) = s.slice i n ++ s.slice (i + n) k := by
  induction k with
  | zero => exact (List.append_nil _).symm
  | succ k ih =>
      rw [← Nat.add_assoc, slice_succ, slice_succ, ih, List.append_assoc, Nat.add_assoc i n]

theorem slice_cons (s : Buffer) (i n : Nat) :
    s.slice i (n + 1) = s.bytes i :: s.slice (i + 1) n := by
  rw [Buffer.slice, List.range_succ_eq_map, List.map_cons, List.map_map, Buffer.slice]
  congr 1
  apply List.map_congr_left
  intro k _
  simp only [Function.comp_apply]
  congr 1
  omega

theorem slice_congr {s' : Buffer} {i n : Nat}
    (same : ∀ j, i ≤ j → j < i + n → s'.bytes j = s.bytes j) :
    s'.slice i n = s.slice i n := by
  apply List.map_congr_left
  intro k mem
  have := List.mem_range.mp mem
  exact same _ (by omega) (by omega)

theorem bytes_mem_slice {i n j : Nat} (ge : i ≤ j) (lt : j < i + n) : s.bytes j ∈ s.slice i n := by
  refine List.mem_map.mpr ⟨j - i, List.mem_range.mpr (by omega), ?_⟩
  rw [Nat.add_sub_cancel' ge]

theorem slice_getElem {l : List UInt8} {i : Nat} (is : s.slice i l.length = l) (k : Nat)
    (lt : k < l.length) : s.bytes (i + k) = l[k] := by
  have len : k < (s.slice i l.length).length := by
    rw [is]
    exact lt
  calc s.bytes (i + k) = (s.slice i l.length)[k] := by simp [Buffer.slice]
    _ = l[k] := by simp only [is]

/-- The text of a number. -/
def text (radix num : UInt32) : List UInt8 := (numeral radix.toNat num.toNat).map digitChar

theorem text_of_lt (lt : num < radix) : text radix num = [digitChar (num % radix).toNat] := by
  have lt' := UInt32.lt_iff_toNat_lt.mp lt
  rw [text, numeral_of_lt lt', UInt32.toNat_mod, Nat.mod_eq_of_lt lt']
  rfl

theorem text_of_ge (one : 1 < radix.toNat) (ge : radix ≤ num) :
    text radix num = text radix (num / radix) ++ [digitChar (num % radix).toNat] := by
  rw [text, numeral_of_ge one (UInt32.le_iff_toNat_le.mp ge), List.map_append, text,
    UInt32.toNat_div, UInt32.toNat_mod]
  rfl

theorem text_length_pos (radix num : UInt32) : 0 < (text radix num).length := by
  rw [text, List.length_map]
  exact numeral_length_pos _ _

theorem text_length_le_iff (one : 1 < radix.toNat) {k : Nat} (pos : 0 < k) :
    (text radix num).length ≤ k ↔ num.toNat < radix.toNat ^ k := by
  rw [text, List.length_map]
  exact numeral_length_le_iff one pos

/-- A number less than the radix is the last one. -/
theorem digitLoop_last {rounds q : Nat} (lt : num < radix) :
    digitLoop radix (rounds + 1) num num q s =
      some (s.put (q - 1) (digitChar (num % radix).toNat), q - 1) := by
  have zero : num / radix = 0 := by
    apply UInt32.toNat_inj.mp
    rw [UInt32.toNat_div, Nat.div_eq_of_lt (UInt32.lt_iff_toNat_lt.mp lt)]
    rfl
  rw [digitLoop, if_neg (not_not.mpr zero)]

theorem quotient_pos (one : 1 < radix.toNat) (ge : radix ≤ num) : 0 < (num / radix).toNat := by
  rw [UInt32.toNat_div]
  exact Nat.div_pos (UInt32.le_iff_toNat_le.mp ge) (by omega)

theorem digitLoop_more {rounds q : Nat} (one : 1 < radix.toNat) (ge : radix ≤ num) :
    digitLoop radix (rounds + 1) num num q s =
      digitLoop radix rounds (num / radix) (num / radix) (q - 1)
        (s.put (q - 1) (digitChar (num % radix).toNat)) := by
  have nonzero : num / radix ≠ 0 := by
    intro zero
    have pos := quotient_pos one ge
    rw [zero] at pos
    exact absurd pos (by decide)
  rw [digitLoop, if_pos nonzero]

/-- A quotient takes a round less. -/
theorem quotient_rounds {rounds : Nat} (one : 1 < radix.toNat) (ge : radix ≤ num)
    (enough : num.toNat < 2 ^ (rounds + 1)) : (num / radix).toNat < 2 ^ rounds ∧ 0 < rounds := by
  have pos := quotient_pos one ge
  have smaller : (num / radix).toNat < 2 ^ rounds := by
    rw [UInt32.toNat_div]
    apply Nat.div_lt_of_lt_mul
    calc num.toNat < 2 ^ (rounds + 1) := enough
      _ = 2 * 2 ^ rounds := pow_succ' 2 rounds
      _ ≤ radix.toNat * 2 ^ rounds := Nat.mul_le_mul_right _ one
  refine ⟨smaller, ?_⟩
  by_contra none_left
  obtain rfl : rounds = 0 := by omega
  omega

/-- A digit is written to each place down to the result, whether or not there is room for them. -/
theorem digitLoop_places (one : 1 < radix.toNat) {rounds q : Nat} (enough : num.toNat < 2 ^ rounds)
    (pos : 0 < rounds) :
    ∃ s', digitLoop radix rounds num num q s = some (s', q - (text radix num).length) ∧
      (∀ i ∈ s.written, i ∈ s'.written) ∧
      ∀ i, q - (text radix num).length ≤ i → i < q → i ∈ s'.written := by
  induction rounds generalizing num q s with
  | zero => exact absurd pos (lt_irrefl 0)
  | succ rounds ih =>
      by_cases lt : num < radix
      · rw [text_of_lt lt, digitLoop_last lt]
        refine ⟨_, rfl, fun i old => (put_written _ _ _ _).mpr (.inr old), ?_⟩
        intro i ge below
        rw [List.length_singleton] at ge
        exact (put_written _ _ _ _).mpr (.inl (by omega))
      · have ge := UInt32.not_lt.mp lt
        obtain ⟨smaller, rounds_pos⟩ := quotient_rounds one ge enough
        obtain ⟨s', result, grows, places⟩ := ih
          (s := s.put (q - 1) (digitChar (num % radix).toNat)) (q := q - 1) smaller rounds_pos
        have place : q - 1 - (text radix (num / radix)).length = q - (text radix num).length := by
          rw [text_of_ge one ge, List.length_append, List.length_singleton]
          omega
        rw [place] at result places
        refine ⟨s', (digitLoop_more one ge).trans result, ?_, ?_⟩
        · exact fun i old => grows i ((put_written _ _ _ _).mpr (.inr old))
        · intro i above below
          by_cases last : i = q - 1
          · exact grows i ((put_written _ _ _ _).mpr (.inl last))
          · exact places i above (by omega)

/-- The digits stand before `q`, and nothing else has changed. -/
theorem digitLoop_spec (one : 1 < radix.toNat) {rounds q : Nat} (enough : num.toNat < 2 ^ rounds)
    (pos : 0 < rounds) (room : (text radix num).length ≤ q) :
    ∃ s', digitLoop radix rounds num num q s = some (s', q - (text radix num).length) ∧
      s'.slice (q - (text radix num).length) (text radix num).length = text radix num ∧
      (∀ i, i < q - (text radix num).length ∨ q ≤ i → s'.bytes i = s.bytes i) ∧
      ∀ i, i ∈ s'.written ↔ (q - (text radix num).length ≤ i ∧ i < q) ∨ i ∈ s.written := by
  induction rounds generalizing num q s with
  | zero => exact absurd pos (lt_irrefl 0)
  | succ rounds ih =>
      by_cases lt : num < radix
      · -- the last round
        rw [text_of_lt lt] at room ⊢
        have len : [digitChar (num % radix).toNat].length = 1 := rfl
        rw [len] at room ⊢
        refine ⟨_, digitLoop_last lt, ?_, ?_, ?_⟩
        · rw [slice_succ, put_bytes, if_pos (by omega)]
          rfl
        · intro i outside
          rw [put_bytes, if_neg (by omega)]
        · intro i
          rw [put_written]
          apply or_congr_left
          omega
      · have ge := UInt32.not_lt.mp lt
        obtain ⟨smaller, rounds_pos⟩ := quotient_rounds one ge enough
        rw [text_of_ge one ge] at room ⊢
        rw [List.length_append, List.length_singleton] at room ⊢
        obtain ⟨s', result, digits, kept, written⟩ := ih
          (s := s.put (q - 1) (digitChar (num % radix).toNat)) (q := q - 1) smaller rounds_pos
          (by omega)
        have place : q - 1 - (text radix (num / radix)).length =
            q - ((text radix (num / radix)).length + 1) := by omega
        rw [place] at result digits kept written
        refine ⟨s', (digitLoop_more one ge).trans result, ?_, ?_, ?_⟩
        · rw [slice_succ, digits, kept _ (.inr (by omega)), put_bytes, if_pos (by omega)]
        · intro i outside
          rw [kept i (by omega), put_bytes, if_neg (by omega)]
        · intro i
          rw [written i, put_written, ← or_assoc]
          apply or_congr_left
          omega

/-- Digits are moved to the front, or stay where they are. -/
theorem moveLoop_spec {i p q : Nat} (le : p ≤ q) :
    (moveLoop i p q s).slice p i = s.slice q i ∧
      (∀ j, j < p ∨ p + i ≤ j → (moveLoop i p q s).bytes j = s.bytes j) ∧
      ∀ j, j ∈ (moveLoop i p q s).written ↔ (p ≤ j ∧ j < p + i) ∨ j ∈ s.written := by
  induction i generalizing p q s with
  | zero =>
      refine ⟨rfl, fun _ _ => rfl, fun j => ⟨.inr, ?_⟩⟩
      rintro (inside | old)
      · omega
      · exact old
  | succ i ih =>
      obtain ⟨moved, kept, written⟩ := ih (s := s.put p (s.bytes q)) (Nat.succ_le_succ le)
      rw [moveLoop]
      refine ⟨?_, ?_, ?_⟩
      · rw [slice_cons, slice_cons, kept p (.inl (by omega)), put_bytes, if_pos rfl, moved]
        congr 1
        apply slice_congr
        intro j after _
        rw [put_bytes, if_neg (by omega)]
      · intro j outside
        rw [kept j (by omega), put_bytes, if_neg (by omega)]
      · intro j
        rw [written j, put_written, ← or_assoc]
        apply or_congr_left
        omega

theorem moveLoop_grows {i p q j : Nat} (old : j ∈ s.written) :
    j ∈ (moveLoop i p q s).written := by
  induction i generalizing p q s with
  | zero => exact old
  | succ i ih => exact ih ((put_written _ _ _ _).mpr (.inr old))

/-- The text is at the front, the digits were written at the back as well, and no terminator is. -/
theorem ch_ltoa_spec (s : Buffer) (p : Nat) (num : UInt32) (one : 1 < radix.toNat)
    (room : (text radix num).length ≤ MAX_FILLER) :
    ∃ s', ch_ltoa s p num radix = some (s', p + (text radix num).length) ∧
      s'.slice p (text radix num).length = text radix num ∧
      (∀ i, i < p ∨ p + MAX_FILLER ≤ i → s'.bytes i = s.bytes i) ∧
      (∀ i, i ∈ s'.written ↔ (p ≤ i ∧ i < p + (text radix num).length) ∨
        (p + MAX_FILLER - (text radix num).length ≤ i ∧ i < p + MAX_FILLER) ∨ i ∈ s.written) ∧
      ∀ i ∈ s'.written, i ∉ s.written → s'.bytes i ∈ text radix num := by
  have enough : num.toNat < 2 ^ 32 := num.toNat_lt
  obtain ⟨s', result, digits, kept, written⟩ := digitLoop_spec (s := s) one enough (by omega)
    (q := p + MAX_FILLER) (by omega)
  have count : p + MAX_FILLER - (p + MAX_FILLER - (text radix num).length) =
      (text radix num).length := by omega
  obtain ⟨moved, kept', written'⟩ := moveLoop_spec (i := (text radix num).length) (s := s') (p := p)
    (q := p + MAX_FILLER - (text radix num).length) (by omega)
  refine ⟨_, ?_, moved.trans digits, ?_, ?_, ?_⟩
  · rw [ch_ltoa, long_to_string_with_divisor, if_pos rfl, result, Option.map_some]
    dsimp only
    rw [count]
  · intro i outside
    rw [kept' i (by omega), kept i (by omega)]
  · intro i
    rw [written' i, written i]
  · intro i mem fresh
    rw [written' i, written i] at mem
    by_cases front : p ≤ i ∧ i < p + (text radix num).length
    · have char := bytes_mem_slice
        (s := moveLoop (text radix num).length p (p + MAX_FILLER - (text radix num).length) s')
        front.1 front.2
      rwa [moved, digits] at char
    · -- a digit at the back that no other one was moved over
      obtain moved | back | old := mem
      · exact absurd moved front
      · have char := bytes_mem_slice (s := s') (n := (text radix num).length) back.1 (by omega)
        rw [digits] at char
        rwa [kept' i (by omega)]
      · exact absurd old fresh

/-- The digits are at the front, the result points behind them, and no place before them has been
written. -/
def Converts (m : Nat → UInt8) (p : Nat) (num radix : UInt32) : Prop :=
  ∃ s, ch_ltoa ⟨m, []⟩ p num radix = some (s, p + (text radix num).length) ∧
    s.slice p (text radix num).length = text radix num ∧
    (∀ i ∈ s.written, p ≤ i) ∧ ∀ i < p, s.bytes i = m i

theorem converts_of_room (m : Nat → UInt8) (p : Nat) (one : 1 < radix.toNat)
    (room : (text radix num).length ≤ MAX_FILLER) : Converts m p num radix := by
  obtain ⟨s, result, digits, kept, written, -⟩ := ch_ltoa_spec ⟨m, []⟩ p num one room
  refine ⟨s, result, digits, ?_, fun i before => kept i (.inl before)⟩
  intro i mem
  rcases (written i).mp mem with front | back | old
  · exact front.1
  · omega
  · exact absurd old List.not_mem_nil

/-- Where the scratch area is too short the digits begin before the output. -/
theorem Converts.room {m : Nat → UInt8} {p : Nat} (converts : Converts m p num radix)
    (one : 1 < radix.toNat) : (text radix num).length ≤ MAX_FILLER := by
  obtain ⟨s, result, -, inside, -⟩ := converts
  have enough : num.toNat < 2 ^ 32 := num.toNat_lt
  obtain ⟨s', loop, -, places⟩ := digitLoop_places (s := ⟨m, []⟩) (q := p + MAX_FILLER) one enough
    (by omega)
  rw [ch_ltoa, long_to_string_with_divisor, if_pos rfl, loop, Option.map_some] at result
  obtain ⟨rfl, pointer⟩ := Prod.mk.inj (Option.some.inj result)
  by_contra long
  have below : p + MAX_FILLER - (text radix num).length < p + MAX_FILLER := by
    unfold MAX_FILLER
    omega
  have first := inside _ (moveLoop_grows (places _ le_rfl below))
  dsimp only at pointer
  omega

/-- The conversion writes only its output, scratch area included, exactly for the numbers that
have at most `MAX_FILLER` digits in the radix. -/
theorem ch_ltoa_converts_iff (m : Nat → UInt8) (p : Nat) (num radix : UInt32)
    (one : 1 < radix.toNat) :
    Converts m p num radix ↔ num.toNat < radix.toNat ^ MAX_FILLER := by
  rw [← text_length_le_iff one (k := MAX_FILLER) (by decide)]
  constructor
  · exact fun converts => converts.room one
  · exact fun room => converts_of_room m p one room

/-- 2047 has eleven binary digits. -/
theorem ch_ltoa_converts_2047 : Converts (fun _ => 0) 32 2047 2 :=
  (ch_ltoa_converts_iff (fun _ => 0) 32 2047 2 (by decide)).mpr (by decide)

/-- 2048 has one more, and the first one is written before the output. -/
theorem ch_ltoa_2048 : ¬ Converts (fun _ => 0) 32 2048 2 := by
  intro converts
  have room := converts.room (by decide)
  rw [text_length_le_iff (by decide) (by decide)] at room
  exact absurd room (by decide)

end Writing

/-! ### Reading digits -/

section Reading

variable {m : Nat → UInt8} {base radix num : UInt32}

/-- A radix of the numbers here. -/
def Radix (radix : UInt32) : Prop := radix = 8 ∨ radix = 10 ∨ radix = 16

theorem Radix.bounds (is : Radix radix) : 8 ≤ radix.toNat ∧ radix.toNat ≤ 16 := by
  rcases is with rfl | rfl | rfl <;> decide

theorem text_length_le (is : Radix radix) (num : UInt32) :
    (text radix num).length ≤ MAX_FILLER := by
  have bounds := is.bounds
  have small : num.toNat < radix.toNat ^ 11 := by
    calc num.toNat < 2 ^ 32 := num.toNat_lt
      _ ≤ 8 ^ 11 := by decide
      _ ≤ radix.toNat ^ 11 := Nat.pow_le_pow_left bounds.1 11
  exact (text_length_le_iff (by omega) (by decide)).mpr small

/-- A digit is read as what it was written for, and is neither a sign nor the end. -/
theorem digitChar_read : ∀ d < 16, _isxdigit (digitChar d) = true ∧
    digitValue (digitChar d) = UInt32.ofNat d ∧ digitChar d ≠ 45 ∧ digitChar d ≠ 0 ∧
    (digitChar d = 48 → d = 0) := by
  decide

theorem text_char (is : Radix radix) {c : UInt8} (mem : c ∈ text radix num) : c ≠ 45 ∧ c ≠ 0 := by
  obtain ⟨d, digit, rfl⟩ := List.mem_map.mp mem
  have bounds := is.bounds
  have small := lt_of_mem_numeral (by omega) digit
  obtain ⟨-, -, sign, nul, -⟩ := digitChar_read d (by omega)
  exact ⟨sign, nul⟩

/-- Digits are read up to the first character that is none. -/
theorem readLoop_spec {l : List Nat} {cp : Nat} (small : ∀ d ∈ l, d < base.toNat ∧ d < 16)
    (digits : ∀ k (h : k < l.length), m (cp + k) = digitChar l[k])
    (last : _isxdigit (m (cp + l.length)) = false) (result : UInt32) :
    readLoop m base (l.length + 1) cp result =
      some (l.foldl (fun r d => r * base + UInt32.ofNat d) result, cp + l.length) := by
  induction l generalizing cp result with
  | nil =>
      rw [List.length_nil, Nat.add_zero] at last
      simp [readLoop, last]
  | cons d l ih =>
      obtain ⟨below, hex⟩ := small d List.mem_cons_self
      obtain ⟨is_digit, value, -⟩ := digitChar_read d hex
      have first : m cp = digitChar d := digits 0 (by simp)
      have lt : UInt32.ofNat d < base := by
        rw [UInt32.lt_iff_toNat_lt, UInt32.toNat_ofNat_of_lt' (by change d < 4294967296; omega)]
        exact below
      rw [readLoop, first, value, if_pos ⟨is_digit, lt⟩]
      rw [List.length_cons, ih (fun d mem => small d (List.mem_cons_of_mem _ mem)) _ _]
      · rw [List.foldl_cons]
        congr 2
        omega
      · intro k h
        have := digits (k + 1) (by simpa using h)
        rw [show cp + 1 + k = cp + (k + 1) by omega, this]
        rfl
      · rw [show cp + 1 + l.length = cp + (d :: l).length by rw [List.length_cons]; omega]
        exact last

/-- Reading wraps around as the number does. -/
theorem foldl_ofNat (base : UInt32) (l : List Nat) (v : Nat) :
    l.foldl (fun r d => r * base + UInt32.ofNat d) (UInt32.ofNat v) =
      UInt32.ofNat (l.foldl (fun v d => v * base.toNat + d) v) := by
  induction l generalizing v with
  | nil => rfl
  | cons d l ih =>
      rw [List.foldl_cons, List.foldl_cons, ← ih]
      congr 1
      rw [UInt32.ofNat_add, UInt32.ofNat_mul, UInt32.ofNat_toNat]

theorem foldl_numeral (one : 1 < radix.toNat) (num : UInt32) :
    (numeral radix.toNat num.toNat).foldl (fun r d => r * radix + UInt32.ofNat d) 0 = num := by
  have read := foldl_ofNat radix (numeral radix.toNat num.toNat) 0
  have number := value_numeral one num.toNat
  rw [value] at number
  rw [number, UInt32.ofNat_toNat] at read
  exact read

/-- The text of a number with something else behind it is read as the number. -/
theorem simple_strtoul_text (is : Radix radix) {cp : Nat}
    (digits : ∀ k (h : k < (text radix num).length), m (cp + k) = (text radix num)[k])
    (last : m (cp + (text radix num).length) = 0) :
    ∃ rounds, simple_strtoul m rounds cp radix = some (num, cp + (text radix num).length) := by
  have bounds := is.bounds
  have len : (text radix num).length = (numeral radix.toNat num.toNat).length := List.length_map _
  have nonzero : radix ≠ 0 := by
    rintro rfl
    exact absurd bounds.1 (by decide)
  have small : ∀ d ∈ numeral radix.toNat num.toNat, d < radix.toNat ∧ d < 16 := by
    intro d mem
    have := lt_of_mem_numeral (by omega) mem
    omega
  have chars : ∀ k (h : k < (numeral radix.toNat num.toNat).length),
      m (cp + k) = digitChar (numeral radix.toNat num.toNat)[k] := by
    intro k h
    rw [digits k (len ▸ h)]
    exact List.getElem_map digitChar
  have stop : _isxdigit 0 = false := rfl
  by_cases zero : num = 0
  · subst zero
    have one : (text radix 0).length = 1 := by
      rw [len, UInt32.toNat_zero, numeral_of_lt (by omega)]
      rfl
    have first : m cp = 48 := by
      have := digits 0 (by omega)
      rw [Nat.add_zero] at this
      rw [this]
      simp only [text, UInt32.toNat_zero, numeral_of_lt (show 0 < radix.toNat by omega)]
      rfl
    rw [one] at last ⊢
    refine ⟨1, ?_⟩
    simp [simple_strtoul, first, last, nonzero, readLoop, stop]
  · refine ⟨(numeral radix.toNat num.toNat).length + 1, ?_⟩
    have front : m cp ≠ 48 := by
      intro is_zero
      have pos := numeral_length_pos radix.toNat num.toNat
      have head := chars 0 pos
      rw [Nat.add_zero, is_zero] at head
      have mem : (numeral radix.toNat num.toNat)[0] ∈ numeral radix.toNat num.toNat :=
        List.getElem_mem _
      have leading := (digitChar_read _ (small _ mem).2).2.2.2.2 head.symm
      exact numeral_head_ne_zero (by rwa [ne_eq, ← UInt32.toNat_zero, UInt32.toNat_inj]) pos leading
    rw [simple_strtoul, if_neg front, if_neg nonzero, readLoop_spec small chars, len,
      foldl_numeral (by omega)]
    rw [← len, last]
    exact stop

theorem simple_strtol_text (is : Radix radix) {cp : Nat}
    (digits : ∀ k (h : k < (text radix num).length), m (cp + k) = (text radix num)[k])
    (last : m (cp + (text radix num).length) = 0) :
    ∃ rounds, simple_strtol m rounds cp radix = some (num, cp + (text radix num).length) := by
  obtain ⟨rounds, read⟩ := simple_strtoul_text is digits last
  have pos := text_length_pos radix num
  have no_sign : m cp ≠ 45 := by
    have first := digits 0 pos
    rw [Nat.add_zero] at first
    rw [first]
    exact (text_char is (List.getElem_mem pos)).1
  exact ⟨rounds, by rw [simple_strtol, if_neg no_sign, read]⟩

end Reading

/-! ### There and back -/

section RoundTrip

/-- The functions that write a number. -/
inductive Convert where
  | itoa
  | ltoa
  | ultoa
  | utoa
  deriving DecidableEq, Repr

def Convert.write : Convert → UInt32 → Buffer → UInt32 → Option (Buffer × Nat)
  | .itoa => Itoa.itoa
  | .ltoa => Itoa.ltoa
  | .ultoa => Itoa.ultoa
  | .utoa => Itoa.utoa

/-- The function that reads it. -/
def Convert.read : Convert → (Nat → UInt8) → Nat → Nat → UInt32 → Option (UInt32 × Nat)
  | .itoa | .ltoa => simple_strtol
  | .ultoa | .utoa => simple_strtoul

/-- A buffer with a string of `n` characters, its terminator, and nothing written behind it, that is
read as the value up to the terminator. -/
def RoundTrips (f : Convert) (val radix : UInt32) (m : Nat → UInt8) : Prop :=
  ∃ s p n, f.write val ⟨m, []⟩ radix = some (s, p) ∧
    (∀ i < n, s.bytes i ≠ 0) ∧ s.bytes n = 0 ∧ (∀ i ∈ s.written, i ≤ n) ∧
    ∃ rounds, f.read s.bytes rounds 0 radix = some (val, n)

variable {f : Convert} {val radix : UInt32} {m : Nat → UInt8}

theorem Convert.write_eq (f : Convert) (val : UInt32) (s : Buffer) (radix : UInt32) :
    f.write val s radix = ch_ltoa s 0 val radix := by
  cases f <;> rfl

/-- What a conversion leaves behind: the text, no other terminator, and a digit in the last place
that it uses. -/
theorem Convert.write_spec (is : Radix radix) (f : Convert) (val : UInt32) (m : Nat → UInt8) :
    ∃ s, f.write val ⟨m, []⟩ radix = some (s, (text radix val).length) ∧
      s.slice 0 (text radix val).length = text radix val ∧
      (∀ i, MAX_FILLER ≤ i → s.bytes i = m i) ∧
      (∀ i ∈ s.written, s.bytes i ≠ 0) ∧ MAX_FILLER - 1 ∈ s.written := by
  have bounds := is.bounds
  have room := text_length_le is val
  have pos := text_length_pos radix val
  obtain ⟨s, result, front, kept, written, chars⟩ := ch_ltoa_spec ⟨m, []⟩ 0 val (by omega) room
  refine ⟨s, ?_, front, ?_, ?_, ?_⟩
  · rw [f.write_eq, result, Nat.zero_add]
  · intro i outside
    exact kept i (.inr (by omega))
  · intro i mem
    exact (text_char is (chars i mem List.not_mem_nil)).2
  · exact (written _).mpr (.inr (.inl (by omega)))

/-- With the terminator stored through the result of the conversion, the value is read back. -/
theorem read_back (is : Radix radix) (f : Convert) (val : UInt32) (m : Nat → UInt8) :
    ∃ s p, f.write val ⟨m, []⟩ radix = some (s, p) ∧
      ∃ rounds, f.read (s.put p 0).bytes rounds 0 radix = some (val, p) := by
  obtain ⟨s, result, front, -⟩ := f.write_spec is val m
  have digits : ∀ k (h : k < (text radix val).length),
      (s.put (text radix val).length 0).bytes (0 + k) = (text radix val)[k] := by
    intro k h
    rw [put_bytes, if_neg (by omega)]
    exact slice_getElem front k h
  have last : (s.put (text radix val).length 0).bytes (0 + (text radix val).length) = 0 := by
    rw [put_bytes, if_pos (Nat.zero_add _)]
  refine ⟨s, _, result, ?_⟩
  have unsigned := simple_strtoul_text is digits last
  have signed := simple_strtol_text is digits last
  rw [Nat.zero_add] at unsigned signed
  cases f with
  | itoa => exact signed
  | ltoa => exact signed
  | ultoa => exact unsigned
  | utoa => exact unsigned

/-- A terminator is one that the buffer had before, behind the places that the conversion uses. -/
theorem RoundTrips.terminator (is : Radix radix) (trip : RoundTrips f val radix m) :
    ∃ i, MAX_FILLER ≤ i ∧ m i = 0 := by
  obtain ⟨s, p, n, result, -, terminator, inside, -⟩ := trip
  obtain ⟨s', result', -, kept, nonzero, scratch⟩ := f.write_spec is val m
  obtain rfl : s' = s := by
    rw [result'] at result
    exact (Prod.mk.inj (Option.some.inj result)).1
  have behind := inside _ scratch
  have other : n ≠ MAX_FILLER - 1 := by
    rintro rfl
    exact nonzero _ scratch terminator
  have le : MAX_FILLER ≤ n := by
    unfold MAX_FILLER at *
    omega
  exact ⟨n, le, (kept n le).symm.trans terminator⟩

/-- The conversions write no terminator, so the value comes back only by the terminator of a string
that was in the buffer before. There is no value that comes back from every buffer. -/
theorem round_trip_never (f : Convert) (val : UInt32) (radix : UInt32) (is : Radix radix) :
    (∀ m, RoundTrips f val radix m → ∃ i, MAX_FILLER ≤ i ∧ m i = 0) ∧
      ¬ ∀ m, RoundTrips f val radix m := by
  refine ⟨fun m trip => trip.terminator is, fun all => ?_⟩
  obtain ⟨i, -, zero⟩ := (all fun _ => 255).terminator is
  exact absurd zero (by decide)

/-- A hexadecimal number and a buffer without a terminator. -/
theorem round_trip_never_hex :
    (∀ m, RoundTrips .utoa 0xBEEF 16 m → ∃ i, MAX_FILLER ≤ i ∧ m i = 0) ∧
      ¬ ∀ m, RoundTrips .utoa 0xBEEF 16 m :=
  round_trip_never .utoa 0xBEEF 16 (.inr (.inr rfl))

/-- In a buffer of zeros, `itoa` of 5 has written a digit ten places behind the one of its
string. -/
theorem itoa_five_scratch :
    ¬ ∀ (f : Convert) (val radix : UInt32) (m : Nat → UInt8), Radix radix →
      RoundTrips f val radix m := by
  intro all
  obtain ⟨s, p, n, result, string, -, inside, -⟩ := all .itoa 5 10 (fun _ => 0) (.inr (.inl rfl))
  have zero : 0 = s.bytes 1 :=
    Option.some.inj (congrArg (Option.map fun r : Buffer × Nat => r.1.bytes 1) result)
  have places : [0, 10] = s.written :=
    Option.some.inj (congrArg (Option.map fun r : Buffer × Nat => r.1.written) result)
  have terminator : n ≤ 1 := by
    by_contra longer
    exact string 1 (by omega) zero.symm
  have scratch : 10 ≤ n := by
    apply inside
    rw [← places]
    decide
  omega

end RoundTrip

end LtcOs.Itoa
