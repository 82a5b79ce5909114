import LtcOs.Lib.Copy
import LtcOs.Lib.Memory

/-!
Memory and string functions of `__aeabi.c` that are exported to user programs by their
standard names: `memmove`, which is `memcpy`, and `strncmp` with `strcmp`.

Addresses do not wrap, and a `char` is unsigned. The comparisons record the addresses they read.
-/

namespace LtcOs.Aeabi

open LtcOs.Memory LtcOs.Copy

/-! ### Copies -/

/-- The result and the memory afterwards. -/
def memcpy (m : Mem) (dest src : Nat) (n : UInt32) : Nat × Mem := (dest, up m dest src n.toNat)

def memmove (m : Mem) (dest src : Nat) (n : UInt32) : Nat × Mem := memcpy m dest src n

/-- The bytes at `dest` are those that were at `src`, and all others are as they were. -/
structure Moves (m : Mem) (dest src : Nat) (n : UInt32) : Prop where
  moved : ∀ i, i < n.toNat → (memmove m dest src n).2 (dest + i) = m (src + i)
  kept : ∀ a, a < dest ∨ dest + n.toNat ≤ a → (memmove m dest src n).2 a = m a

/-- The bytes are moved exactly if the destination does not begin inside the source, behind its
first byte, or else the source repeats itself after the distance of the two. -/
theorem memmove_moves_iff (m : Mem) (dest src : Nat) (n : UInt32) :
    Moves m dest src n ↔
      dest ≤ src ∨ src + n.toNat ≤ dest ∨ Periodic m src n.toNat (dest - src) := by
  rw [← up_exact_iff]
  constructor
  · intro moves
    exact moves.moved
  · intro exact
    exact ⟨exact, fun a outside => up_outside outside⟩

/-- Two different bytes are moved up by one, and the first one is doubled. -/
theorem memmove_doubles : ¬ Moves (fun a => UInt8.ofNat a) 1 0 2 := by
  intro moves
  exact absurd (moves.moved 1 (by decide)) (by decide)

/-! ### Comparisons -/

/-- The loop of `strncmp`, with a bound on the rounds. The counter is unsigned, so it is not
positive when it is zero, and zero counts down to the largest value. -/
def strncmpLoop (m : Mem) :
    (rounds : Nat) → (s1 s2 : Nat) → (n : UInt32) → Option (Int × List Nat)
  | 0, _, _, _ => none
  | rounds + 1, s1, s2, n =>
      if m s1 = m s2 then
        if m s1 = 0 ∨ n - 1 = 0 then some (0, [s1, s2, s1])
        else
          (strncmpLoop m rounds (s1 + 1) (s2 + 1) (n - 1)).map fun r =>
            (r.1, s1 :: s2 :: s1 :: r.2)
      else some ((m s1).toNat - (m s2).toNat, [s1, s2, s1, s2])

/-- The result and the addresses read; the address zero is `NULL`. -/
def strncmp (m : Mem) (rounds s1 s2 : Nat) (n : UInt32) : Option (Int × List Nat) :=
  if s1 = 0 ∧ s2 = 0 then some (0, [])
  else if s1 = 0 then some (-1, [])
  else if s2 = 0 then some (1, [])
  else strncmpLoop m rounds s1 s2 n

def strcmp (m : Mem) (rounds s1 s2 : Nat) : Option (Int × List Nat) :=
  strncmp m rounds s1 s2 (-1)

/-- The characters from `a` on, up to the terminator. -/
def StringAt (m : Mem) : (a : Nat) → List UInt8 → Prop
  | a, [] => m a = 0
  | a, c :: l => m a = c ∧ c ≠ 0 ∧ StringAt m (a + 1) l

/-- A string in the address space. -/
structure CString (m : Mem) where
  addr : Nat
  chars : List UInt8
  nonnull : addr ≠ 0
  fits : addr + chars.length < 4294967296
  text : StringAt m addr chars

/-- The sign of the lexicographic comparison. -/
structure SignOf (r : Int) (l₁ l₂ : List UInt8) : Prop where
  neg : r < 0 ↔ l₁ < l₂
  zero : r = 0 ↔ l₁ = l₂
  pos : 0 < r ↔ l₂ < l₁

/-- What the addresses are that lie in one of two strings before `n` and not behind a terminator. -/
def Within (a₁ a₂ n : Nat) (l₁ l₂ : List UInt8) (a : Nat) : Prop :=
  ∃ i, i < n ∧ i ≤ l₁.length ∧ i ≤ l₂.length ∧ (a = a₁ + i ∨ a = a₂ + i)

section Loop

variable {m : Mem} {a₁ a₂ : Nat} {l₁ l₂ : List UInt8} {c d : UInt8} {n : UInt32}

theorem signOf_differ (ne : c ≠ d) : SignOf (c.toNat - d.toNat) (c :: l₁) (d :: l₂) := by
  have ne' : c.toNat ≠ d.toNat := fun eq => ne (UInt8.toNat_inj.mp eq)
  constructor
  · rw [List.cons_lt_cons_iff, UInt8.lt_iff_toNat_lt]
    simp only [ne, false_and, or_false]
    omega
  · simp only [List.cons.injEq, ne, false_and, iff_false]
    omega
  · rw [List.cons_lt_cons_iff, UInt8.lt_iff_toNat_lt]
    simp only [ne.symm, false_and, or_false]
    omega

theorem SignOf.cons {r : Int} (sign : SignOf r l₁ l₂) (c : UInt8) :
    SignOf r (c :: l₁) (c :: l₂) := by
  constructor
  · rw [sign.neg, List.cons_lt_cons_iff]
    simp
  · rw [sign.zero]
    simp
  · rw [sign.pos, List.cons_lt_cons_iff]
    simp

theorem signOf_refl (l : List UInt8) : SignOf 0 l l := by
  constructor <;> simp [List.lt_irrefl]

/-- The terminator is less than any character. -/
theorem signOf_nil_cons (nonzero : c ≠ 0) (l : List UInt8) :
    SignOf ((0 : UInt8).toNat - c.toNat) [] (c :: l) := by
  have pos : c.toNat ≠ 0 := fun eq => nonzero (UInt8.toNat_inj.mp eq)
  constructor
  · simp only [List.nil_lt_cons, iff_true, UInt8.toNat_zero]
    omega
  · simp only [reduceCtorEq, iff_false, UInt8.toNat_zero]
    omega
  · simp only [List.not_lt_nil, iff_false, UInt8.toNat_zero]
    omega

theorem SignOf.swap {r : Int} (sign : SignOf r l₁ l₂) : SignOf (-r) l₂ l₁ := by
  constructor
  · rw [Int.neg_neg_iff_pos, sign.pos]
  · rw [Int.neg_eq_zero, sign.zero, eq_comm]
  · rw [Int.neg_pos, sign.neg]

theorem signOf_cons_nil (nonzero : c ≠ 0) (l : List UInt8) :
    SignOf (c.toNat - (0 : UInt8).toNat) (c :: l) [] := by
  have sign := (signOf_nil_cons nonzero l).swap
  rwa [neg_sub] at sign

/-- The first characters are read whatever they are. -/
theorem within_first {k a : Nat} (pos : 0 < k) (mem : a ∈ [a₁, a₂, a₁, a₂]) :
    Within a₁ a₂ k l₁ l₂ a := by
  refine ⟨0, pos, Nat.zero_le _, Nat.zero_le _, ?_⟩
  simp only [List.mem_cons, List.not_mem_nil, or_false] at mem
  omega

theorem Within.cons {k a : Nat} (within : Within (a₁ + 1) (a₂ + 1) k l₁ l₂ a) :
    Within a₁ a₂ (k + 1) (c :: l₁) (d :: l₂) a := by
  obtain ⟨i, lt, le₁, le₂, place⟩ := within
  refine ⟨i + 1, by omega, by rw [List.length_cons]; omega, by rw [List.length_cons]; omega, ?_⟩
  omega

/-- The loop returns with enough rounds, with the sign of the comparison of the first characters,
and reads no others. -/
def Loops (m : Mem) (a₁ a₂ : Nat) (n : UInt32) (l₁ l₂ : List UInt8) : Prop :=
  ∃ r reads, (∀ rounds, l₁.length < rounds → strncmpLoop m rounds a₁ a₂ n = some (r, reads)) ∧
    SignOf r (l₁.take n.toNat) (l₂.take n.toNat) ∧ ∀ a ∈ reads, Within a₁ a₂ n.toNat l₁ l₂ a

/-- Two different characters end the loop. -/
theorem loops_differ (pos : 0 < n.toNat) (ne : m a₁ ≠ m a₂)
    (sign : SignOf ((m a₁).toNat - (m a₂).toNat) (l₁.take n.toNat) (l₂.take n.toNat)) :
    Loops m a₁ a₂ n l₁ l₂ := by
  refine ⟨_, _, ?_, sign, fun a mem => within_first pos mem⟩
  intro rounds enough
  obtain ⟨rounds, rfl⟩ : ∃ k, rounds = k + 1 := ⟨rounds - 1, by omega⟩
  rw [strncmpLoop, if_neg ne]

/-- Two terminators and the end of the count end the loop as well. -/
theorem loops_last (pos : 0 < n.toNat) (eq : m a₁ = m a₂) (last : m a₁ = 0 ∨ n - 1 = 0)
    (same : l₁.take n.toNat = l₂.take n.toNat) : Loops m a₁ a₂ n l₁ l₂ := by
  refine ⟨0, [a₁, a₂, a₁], ?_, same ▸ signOf_refl _, ?_⟩
  · intro rounds enough
    obtain ⟨rounds, rfl⟩ : ∃ k, rounds = k + 1 := ⟨rounds - 1, by omega⟩
    rw [strncmpLoop, if_pos eq, if_pos last]
  · intro a mem
    exact within_first pos (List.mem_append_left [a₂] mem)

theorem toNat_pred (pos : 0 < n.toNat) : (n - 1).toNat = n.toNat - 1 := by
  have one : (1 : UInt32).toNat ≤ n.toNat := pos
  exact UInt32.toNat_sub_of_le n 1 (UInt32.le_iff_toNat_le.mpr one)

/-- After two equal characters the loop goes on. -/
theorem Loops.cons (loops : Loops m (a₁ + 1) (a₂ + 1) (n - 1) l₁ l₂) (pos : 0 < n.toNat)
    (first₁ : m a₁ = c) (first₂ : m a₂ = c) (nonzero : c ≠ 0) (more : n - 1 ≠ 0) :
    Loops m a₁ a₂ n (c :: l₁) (c :: l₂) := by
  have count : n.toNat = (n - 1).toNat + 1 := by
    rw [toNat_pred pos]
    omega
  obtain ⟨r, reads, returns, sign, within⟩ := loops
  refine ⟨r, a₁ :: a₂ :: a₁ :: reads, ?_, ?_, ?_⟩
  · intro rounds enough
    obtain ⟨rounds, rfl⟩ : ∃ k, rounds = k + 1 := ⟨rounds - 1, by omega⟩
    have goes_on : ¬ (m a₁ = 0 ∨ n - 1 = 0) := by
      rw [first₁]
      exact not_or.mpr ⟨nonzero, more⟩
    rw [List.length_cons] at enough
    rw [strncmpLoop, if_pos (first₁.trans first₂.symm), if_neg goes_on, returns rounds (by omega)]
    rfl
  · rw [count, List.take_succ_cons, List.take_succ_cons]
    exact sign.cons c
  · intro a mem
    have cases : a ∈ [a₁, a₂, a₁] ∨ a ∈ reads := List.mem_append.mp mem
    rcases cases with first | later
    · exact within_first pos (List.mem_append_left [a₂] first)
    · rw [count]
      exact (within a later).cons

theorem strncmpLoop_spec (text₁ : StringAt m a₁ l₁) (text₂ : StringAt m a₂ l₂) (nonzero : n ≠ 0) :
    Loops m a₁ a₂ n l₁ l₂ := by
  have pos : 0 < n.toNat := Nat.pos_of_ne_zero fun eq => nonzero (UInt32.toNat_inj.mp eq)
  obtain ⟨k, count⟩ : ∃ k, n.toNat = k + 1 := ⟨n.toNat - 1, by omega⟩
  induction l₁ generalizing a₁ a₂ l₂ n k with
  | nil =>
      cases l₂ with
      | nil => exact loops_last pos (text₁.trans text₂.symm) (.inl text₁) (by simp)
      | cons d l₂ =>
          obtain ⟨first, present, -⟩ := text₂
          have ne : m a₁ ≠ m a₂ := by
            rw [show m a₁ = 0 from text₁, first]
            exact present.symm
          apply loops_differ pos ne
          rw [show m a₁ = 0 from text₁, first, count, List.take_succ_cons, List.take_nil]
          exact signOf_nil_cons present _
  | cons c l₁ ih =>
      obtain ⟨first₁, present, rest₁⟩ := text₁
      cases l₂ with
      | nil =>
          have ne : m a₁ ≠ m a₂ := by
            rw [show m a₂ = 0 from text₂, first₁]
            exact present
          apply loops_differ pos ne
          rw [show m a₂ = 0 from text₂, first₁, count, List.take_succ_cons, List.take_nil]
          exact signOf_cons_nil present _
      | cons d l₂ =>
          obtain ⟨first₂, -, rest₂⟩ := text₂
          by_cases eq : c = d
          · subst eq
            by_cases last : n - 1 = 0
            · apply loops_last pos (first₁.trans first₂.symm) (.inr last)
              have one : n.toNat = 1 := by
                have := toNat_pred pos
                rw [last, UInt32.toNat_zero] at this
                omega
              rw [one]
              rfl
            · have pos' : 0 < (n - 1).toNat :=
                Nat.pos_of_ne_zero fun zero => last (UInt32.toNat_inj.mp zero)
              have rest := ih rest₁ rest₂ last pos' ((n - 1).toNat - 1) (by omega)
              exact rest.cons pos first₁ first₂ present last
          · have ne : m a₁ ≠ m a₂ := by
              rw [first₁, first₂]
              exact eq
            apply loops_differ pos ne
            rw [first₁, first₂, count, List.take_succ_cons, List.take_succ_cons]
            exact signOf_differ eq

end Loop

section Strings

variable {m : Mem} {s₁ s₂ : CString m}

/-- `strncmp` returns with enough rounds, with the sign of the comparison of the first `n`
characters, and reads no others. -/
def Compares (s₁ s₂ : CString m) (n : UInt32) : Prop :=
  ∃ r reads, (∃ k, ∀ rounds, k < rounds → strncmp m rounds s₁.addr s₂.addr n = some (r, reads)) ∧
    SignOf r (s₁.chars.take n.toNat) (s₂.chars.take n.toNat) ∧
    ∀ a ∈ reads, Within s₁.addr s₂.addr n.toNat s₁.chars s₂.chars a

/-- `strcmp` does so with all characters. -/
def ComparesAll (s₁ s₂ : CString m) : Prop :=
  ∃ r reads, (∃ k, ∀ rounds, k < rounds → strcmp m rounds s₁.addr s₂.addr = some (r, reads)) ∧
    SignOf r s₁.chars s₂.chars ∧
    ∀ a ∈ reads, ∃ n, Within s₁.addr s₂.addr n s₁.chars s₂.chars a

theorem strncmp_string (s₁ s₂ : CString m) (rounds : Nat) (n : UInt32) :
    strncmp m rounds s₁.addr s₂.addr n = strncmpLoop m rounds s₁.addr s₂.addr n := by
  rw [strncmp, if_neg (fun null => s₁.nonnull null.1), if_neg s₁.nonnull, if_neg s₂.nonnull]

theorem compares_of_pos (s₁ s₂ : CString m) {n : UInt32} (nonzero : n ≠ 0) : Compares s₁ s₂ n := by
  obtain ⟨r, reads, returns, sign, within⟩ := strncmpLoop_spec s₁.text s₂.text nonzero
  refine ⟨r, reads, ⟨s₁.chars.length, ?_⟩, sign, within⟩
  intro rounds enough
  rw [strncmp_string, returns rounds enough]

/-- The first characters are read whatever the count is. -/
theorem reads_first {rounds : Nat} {n : UInt32} {r : Int} {reads : List Nat}
    (result : strncmp m rounds s₁.addr s₂.addr n = some (r, reads)) : s₁.addr ∈ reads := by
  rw [strncmp_string] at result
  cases rounds with
  | zero => exact absurd result (by simp [strncmpLoop])
  | succ rounds =>
      rw [strncmpLoop] at result
      split_ifs at result
      · obtain ⟨-, rfl⟩ := Prod.mk.inj (Option.some.inj result)
        exact List.mem_cons_self
      · obtain ⟨rest, -, eq⟩ := Option.map_eq_some_iff.mp result
        obtain ⟨-, rfl⟩ := Prod.mk.inj eq
        exact List.mem_cons_self
      · obtain ⟨-, rfl⟩ := Prod.mk.inj (Option.some.inj result)
        exact List.mem_cons_self

/-- No string is as long as the count of `strcmp`. -/
theorem take_all (s : CString m) : s.chars.take (-1 : UInt32).toNat = s.chars := by
  have := s.fits
  have := s.nonnull
  apply List.take_of_length_le
  change s.chars.length ≤ 4294967295
  omega

theorem comparesAll (s₁ s₂ : CString m) : ComparesAll s₁ s₂ := by
  obtain ⟨r, reads, returns, sign, within⟩ :=
    compares_of_pos s₁ s₂ (show (-1 : UInt32) ≠ 0 by decide)
  rw [take_all, take_all] at sign
  exact ⟨r, reads, returns, sign, fun a mem => ⟨_, within a mem⟩⟩

/-- `strncmp` compares as it should exactly for positive counts, and `strcmp` always does: a count
of zero does not keep it from reading. -/
theorem strncmp_compares_iff (s₁ s₂ : CString m) :
    (∀ n, Compares s₁ s₂ n ↔ n ≠ 0) ∧ ComparesAll s₁ s₂ := by
  refine ⟨?_, comparesAll s₁ s₂⟩
  intro n
  constructor
  · rintro ⟨r, reads, ⟨k, returns⟩, -, within⟩ rfl
    obtain ⟨i, lt, -⟩ := within s₁.addr (reads_first (returns (k + 1) (Nat.lt_succ_self k)))
    exact absurd lt (Nat.not_lt_zero i)
  · intro nonzero
    exact compares_of_pos s₁ s₂ nonzero

/-- The strings `"a"` at 1 and `"b"` at 3. -/
def sampleMem : Mem := fun a => if a = 1 then 97 else if a = 3 then 98 else 0

def sampleA : CString sampleMem where
  addr := 1
  chars := [97]
  nonnull := by decide
  fits := by decide
  text := ⟨rfl, by decide, rfl⟩

def sampleB : CString sampleMem where
  addr := 3
  chars := [98]
  nonnull := by decide
  fits := by decide
  text := ⟨rfl, by decide, rfl⟩

/-- `strncmp("a", "b", 0)` is negative. -/
theorem strncmp_zero : ¬ Compares sampleA sampleB 0 := by
  rintro ⟨r, reads, ⟨k, returns⟩, sign, -⟩
  have negative : strncmp sampleMem (k + 1) 1 3 0 = some (-1, [1, 3, 1, 3]) := rfl
  have same := (returns (k + 1) (Nat.lt_succ_self k)).symm.trans negative
  obtain rfl : r = -1 := congrArg Prod.fst (Option.some.inj same)
  exact absurd (sign.zero.mpr rfl) (by decide)

end Strings

end LtcOs.Aeabi
