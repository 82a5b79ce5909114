import LtcOs.Lib.ThreeWay

/-!
Comparisons of 64-bit integers of `math.c`, which compiled code calls for each of them.

Both look at the upper halves first, and where these are equal at the lower ones.
-/

namespace LtcOs.QuadMath

open LtcOs.ThreeWay

def L : Nat := 0

def H : Nat := 1

/-- The words of a quad as signed integers, the lower one first. -/
def sl (q : BitVec 64) (word : Nat) : Int := (q.extractLsb' (32 * word) 32).toInt

/-- The words of a quad as unsigned integers. -/
def ul (q : BitVec 64) (word : Nat) : Nat := (q.extractLsb' (32 * word) 32).toNat

def aeabi_lcmp (a b : BitVec 64) : Int :=
  if sl a H < sl b H then -1
  else if sl a H > sl b H then 1
  else if sl a L < sl b L then -1
  else if sl a L > sl b L then 1
  else 0

def aeabi_ulcmp (a b : BitVec 64) : Int :=
  if ul a H < ul b H then -1
  else if ul a H > ul b H then 1
  else if ul a L < ul b L then -1
  else if ul a L > ul b L then 1
  else 0

/-! ### Quads and their words -/

theorem ul_lt (q : BitVec 64) (word : Nat) : ul q word < 4294967296 := BitVec.isLt _

theorem toNat_eq_words (q : BitVec 64) : q.toNat = ul q H * 4294967296 + ul q L := by
  have bound := q.isLt
  simp only [ul, H, L, BitVec.extractLsb'_toNat, Nat.shiftRight_eq_div_pow]
  omega

theorem sl_eq (q : BitVec 64) (word : Nat) :
    sl q word = if ul q word < 2147483648 then (ul q word : Int) else ul q word - 4294967296 := by
  rw [sl, BitVec.toInt_eq_toNat_cond, ← ul]
  by_cases small : ul q word < 2147483648
  · rw [if_pos small, if_pos (by omega)]
  · rw [if_neg small, if_neg (by omega)]
    rfl

/-- The sign of a quad is that of its upper word, and the lower word has none. -/
theorem toInt_eq_words (q : BitVec 64) : q.toInt = sl q H * 4294967296 + ul q L := by
  have low := ul_lt q L
  have high := ul_lt q H
  rw [sl_eq, BitVec.toInt_eq_toNat_cond, toNat_eq_words]
  by_cases small : ul q H < 2147483648
  · rw [if_pos small, if_pos (by omega)]
    omega
  · rw [if_neg small, if_neg (by omega)]
    omega

/-! ### Total orders -/

theorem lcmp_eq_threeWay (a b : BitVec 64) :
    aeabi_lcmp a b = threeWay (toLex (sl a H, sl a L)) (toLex (sl b H, sl b L)) :=
  (threeWay_lex _ _ _ _).symm

theorem ulcmp_eq_threeWay (a b : BitVec 64) :
    aeabi_ulcmp a b = threeWay (toLex (ul a H, ul a L)) (toLex (ul b H, ul b L)) :=
  (threeWay_lex _ _ _ _).symm

theorem words_injective : Function.Injective fun q : BitVec 64 => toLex (ul q H, ul q L) := by
  intro a b same
  obtain ⟨high, low⟩ := Prod.mk.inj (toLex_inj.mp same)
  exact BitVec.eq_of_toNat_eq (by rw [toNat_eq_words, toNat_eq_words, high, low])

theorem signedWords_injective : Function.Injective fun q : BitVec 64 => toLex (sl q H, sl q L) := by
  intro a b same
  obtain ⟨high, low⟩ := Prod.mk.inj (toLex_inj.mp same)
  refine words_injective ?_
  simp only [ul, BitVec.toInt_inj.mp high, BitVec.toInt_inj.mp low]

theorem lcmp_totalOrder : TotalOrder aeabi_lcmp := by
  have order := totalOrder_of_key signedWords_injective
  simpa only [← lcmp_eq_threeWay] using order

theorem ulcmp_totalOrder : TotalOrder aeabi_ulcmp := by
  have order := totalOrder_of_key words_injective
  simpa only [← ulcmp_eq_threeWay] using order

/-! ### The orders of the numbers -/

theorem toInt_lt_iff (a b : BitVec 64) :
    a.toInt < b.toInt ↔ toLex (sl a H, ul a L) < toLex (sl b H, ul b L) := by
  have low := ul_lt a L
  have low' := ul_lt b L
  rw [Prod.Lex.toLex_lt_toLex, toInt_eq_words, toInt_eq_words]
  omega

theorem toNat_lt_iff (a b : BitVec 64) :
    a.toNat < b.toNat ↔ toLex (ul a H, ul a L) < toLex (ul b H, ul b L) := by
  have low := ul_lt a L
  have low' := ul_lt b L
  rw [Prod.Lex.toLex_lt_toLex, toNat_eq_words, toNat_eq_words]
  omega

theorem ulcmp_eq_toNat (a b : BitVec 64) : aeabi_ulcmp a b = threeWay a.toNat b.toNat := by
  rw [ulcmp_eq_threeWay]
  exact (threeWay_congr (toNat_lt_iff a b) (toNat_lt_iff b a)).symm

/-- Words on the two sides of `2^31` are the other way round as signed integers. -/
theorem threeWay_words_iff (a b : BitVec 64) (word : Nat) :
    threeWay (sl a word) (sl b word) = threeWay (ul a word) (ul b word) ↔
      (ul a word < 2147483648 ↔ ul b word < 2147483648) := by
  have bound := ul_lt a word
  have bound' := ul_lt b word
  rw [sl_eq, sl_eq]
  by_cases first : ul a word < 2147483648 <;> by_cases second : ul b word < 2147483648
  · rw [if_pos first, if_pos second]
    exact iff_of_true (threeWay_congr (by omega) (by omega)) (iff_of_true first second)
  · rw [if_pos first, if_neg second, threeWay_of_gt (by omega), threeWay_of_lt (by omega)]
    exact iff_of_false (by decide) fun same => second (same.mp first)
  · rw [if_neg first, if_pos second, threeWay_of_lt (by omega), threeWay_of_gt (by omega)]
    exact iff_of_false (by decide) fun same => first (same.mpr second)
  · rw [if_neg first, if_neg second]
    exact iff_of_true (threeWay_congr (by omega) (by omega)) (iff_of_false first second)

theorem lcmp_eq_toInt_iff (a b : BitVec 64) :
    aeabi_lcmp a b = threeWay a.toInt b.toInt ↔
      sl a H ≠ sl b H ∨ (ul a L < 2147483648 ↔ ul b L < 2147483648) := by
  rw [threeWay_congr (toInt_lt_iff a b) (toInt_lt_iff b a), lcmp_eq_threeWay, threeWay_lex,
    threeWay_lex]
  rcases lt_trichotomy (sl a H) (sl b H) with lt | eq | gt
  · rw [if_pos lt, if_pos lt]
    exact iff_of_true rfl (.inl lt.ne)
  · rw [eq]
    simp only [lt_irrefl, if_false, ne_eq, not_true_eq_false, false_or]
    exact threeWay_words_iff a b L
  · rw [if_neg gt.not_gt, if_neg gt.not_gt, if_pos gt, if_pos gt]
    exact iff_of_true rfl (.inl gt.ne')

/-- The signed comparison follows the signed order of the numbers, and the unsigned one the
unsigned order. -/
structure Compares (a b : BitVec 64) : Prop where
  signed : aeabi_lcmp a b = threeWay a.toInt b.toInt
  unsigned : aeabi_ulcmp a b = threeWay a.toNat b.toNat

/-- The comparisons are total orders, and they are the orders of the numbers except where the
upper words are equal and the lower ones lie on the two sides of `2^31`. -/
theorem compares_iff (a b : BitVec 64) :
    TotalOrder aeabi_lcmp ∧ TotalOrder aeabi_ulcmp ∧
      (Compares a b ↔ sl a H ≠ sl b H ∨ (ul a L < 2147483648 ↔ ul b L < 2147483648)) := by
  refine ⟨lcmp_totalOrder, ulcmp_totalOrder, ?_⟩
  rw [← lcmp_eq_toInt_iff]
  exact ⟨Compares.signed, fun signed => ⟨signed, ulcmp_eq_toNat a b⟩⟩

/-- `2^31` is less than zero. -/
theorem lcmp_straddles : ¬ Compares 0x80000000 0 := by
  intro compares
  exact absurd compares.signed (by decide)

end LtcOs.QuadMath
