import LtcOs.DoubleBuffer
import LtcOs.Lib.Exact

/-!
The filter of the demodulator against its definition.

`filter_buf` holds twice the window, so that samples can be added behind it and the window
is moved back to the front when the end is reached. On samples of the ADC the window is at
every time the last nine of them, and `FSK_core` computes on it, without overflow, what it
would in the integers. The samples may come in calls of any length.
-/

namespace LtcOs.Demod

open LtcOs.Exact LtcOs.Updater LtcOs.DoubleBuffer

/-! ### `memmove_aligned` -/

/-- `memcpy_aligned` within one buffer of words, for `n` bytes. -/
def memcpy_aligned (buf : Nat → Int32) (dest src n : Nat) : Nat → Int32 :=
  (List.range (n / 4)).foldl (fun buf i => Function.update buf (dest + i) (buf (src + i))) buf

def memmove_aligned (buf : Nat → Int32) (dest src n : Nat) : Nat → Int32 :=
  memcpy_aligned buf dest src n

/-- The word-wise loop copies regions that do not overlap. -/
theorem memcpy_aligned_eq {buf : Nat → Int32} {dest src n : Nat}
    (disjoint : dest + n / 4 ≤ src ∨ src + n / 4 ≤ dest) :
    memcpy_aligned buf dest src n =
      fun x => if dest ≤ x ∧ x < dest + n / 4 then buf (src + (x - dest)) else buf x := by
  unfold memcpy_aligned
  generalize n / 4 = k at disjoint ⊢
  induction k with
  | zero =>
      funext x
      exact (if_neg (by omega)).symm
  | succ k ih =>
      rw [List.range_succ, List.foldl_append, ih (by omega)]
      funext x
      simp only [List.foldl_cons, List.foldl_nil]
      by_cases last : x = dest + k
      · subst last
        rw [Function.update_self, if_neg (by omega), if_pos (by omega), Nat.add_sub_cancel_left]
      · rw [Function.update_of_ne last]
        split_ifs <;> first | rfl | omega

namespace Fsk

/-- A new sample behind the window, and the window moved to the front at the end of the
buffer. -/
theorem push_eq (s : Fsk) (x : Int32) :
    s.push x =
      let buf := Function.update s.filter_buf s.buf_ptr.toNat (x >>> s.shift.toInt32)
      if (s.buf_ptr + 1).toNat = FSK_FILTER_BUF_SIZE then
        { s with
          filter_buf := memmove_aligned buf 0 (FSK_FILTER_BUF_SIZE - FSK_FILTER_SIZE)
            (FSK_FILTER_SIZE * 4)
          buf_ptr := UInt8.ofNat FSK_FILTER_SIZE }
      else { s with filter_buf := buf, buf_ptr := s.buf_ptr + 1 } := by
  have move : ∀ buf : Nat → Int32,
      memmove_aligned buf 0 (FSK_FILTER_BUF_SIZE - FSK_FILTER_SIZE) (FSK_FILTER_SIZE * 4) =
        fun j => if j < FSK_FILTER_SIZE then buf (FSK_FILTER_BUF_SIZE - FSK_FILTER_SIZE + j)
          else buf j := by
    intro buf
    rw [memmove_aligned, memcpy_aligned_eq (.inl (by decide))]
    funext j
    have size : FSK_FILTER_SIZE * 4 / 4 = FSK_FILTER_SIZE := rfl
    rw [size, Nat.zero_add, Nat.sub_zero]
    split_ifs <;> first | rfl | omega
  simp only [push, move]

end Fsk

/-! ### The window -/

/-- The sample `k` places before the last one, zero before the first. -/
def ago (xs : List Int32) (k : Nat) : Int32 := xs.reverse.getD k 0

theorem ago_append_zero (xs : List Int32) (x : Int32) : ago (xs ++ [x]) 0 = x := by
  rw [ago, List.reverse_append]
  rfl

theorem ago_append_succ (xs : List Int32) (x : Int32) (k : Nat) :
    ago (xs ++ [x]) (k + 1) = ago xs k := by
  rw [ago, List.reverse_append]
  rfl

/-- The state after the samples `xs`. -/
structure Fsk.Filtered (s : Fsk) (xs : List Int32) : Prop where
  lo : 9 ≤ s.buf_ptr.toNat
  hi : s.buf_ptr.toNat ≤ 17
  shift : s.shift = 2
  window : ∀ j, j < 9 → s.window j = ago xs (8 - j) >>> 2

theorem filtered_demodInit : demodInit.Filtered [] where
  lo := by decide
  hi := by decide
  shift := by decide
  window j _ := by
    change (0 : Int32) = (0 : Int32) >>> 2
    decide

theorem Fsk.Filtered.push {s : Fsk} {xs : List Int32} (filtered : s.Filtered xs) (x : Int32) :
    (s.push x).Filtered (xs ++ [x]) := by
  obtain ⟨lo, hi, shift, window⟩ := filtered
  have next : (s.buf_ptr + 1).toNat = s.buf_ptr.toNat + 1 := by
    rw [UInt8.toNat_add]
    change (s.buf_ptr.toNat + 1) % 256 = _
    omega
  -- the new window before the move, which starts one place further
  have added : ∀ j, j < 9 →
      Function.update s.filter_buf s.buf_ptr.toNat (x >>> s.shift.toInt32)
        (s.buf_ptr.toNat + 1 - 9 + j) = ago (xs ++ [x]) (8 - j) >>> 2 := by
    intro j hj
    obtain rfl | lt : j = 8 ∨ j < 8 := by omega
    · rw [show s.buf_ptr.toNat + 1 - 9 + 8 = s.buf_ptr.toNat by omega, Function.update_self,
        shift, ago_append_zero]
      rfl
    · have older : s.filter_buf (s.buf_ptr.toNat - 9 + (j + 1)) = ago xs (8 - (j + 1)) >>> 2 :=
        window (j + 1) (by omega)
      rw [Function.update_of_ne (by omega),
        show s.buf_ptr.toNat + 1 - 9 + j = s.buf_ptr.toNat - 9 + (j + 1) by omega, older,
        show 8 - j = 8 - (j + 1) + 1 by omega, ago_append_succ]
  have size : FSK_FILTER_BUF_SIZE = 18 := rfl
  simp only [Fsk.push]
  split_ifs with full
  · refine ⟨show 9 ≤ (UInt8.ofNat FSK_FILTER_SIZE).toNat by decide,
      show (UInt8.ofNat FSK_FILTER_SIZE).toNat ≤ 17 by decide, shift, fun j hj => ?_⟩
    have front : (UInt8.ofNat FSK_FILTER_SIZE).toNat - FSK_FILTER_SIZE + j = j := Nat.zero_add j
    have start : s.buf_ptr.toNat + 1 - 9 + j = FSK_FILTER_BUF_SIZE - FSK_FILTER_SIZE + j := by
      rw [← full, next]
      rfl
    rw [← added j hj, start]
    unfold Fsk.window
    dsimp only
    rw [front, if_pos (show j < FSK_FILTER_SIZE from hj)]
  · refine ⟨?_, ?_, shift, fun j hj => ?_⟩
    · change 9 ≤ (s.buf_ptr + 1).toNat
      omega
    · change (s.buf_ptr + 1).toNat ≤ 17
      omega
    · rw [← added j hj, ← next]
      rfl

/-! ### `FSK_core` -/

/-- The accumulators `corrs`. -/
structure Corrs where
  hi_i : Int32
  hi_q : Int32
  lo_i : Int32
  lo_q : Int32

/-- `FSK_core` as it is enabled, with one pass over the window. -/
def FSK_core_onePass (T : FskTables) (b : Nat → Int32) : Int32 :=
  let corrs : Corrs := (List.range FSK_FILTER_SIZE).foldl
    (fun corrs j =>
      { hi_i := corrs.hi_i + b j * T.filter_hi_i j
        hi_q := corrs.hi_q + b j * T.filter_hi_q j
        lo_i := corrs.lo_i + b j * T.filter_lo_i j
        lo_q := corrs.lo_q + b j * T.filter_lo_q j })
    ⟨0, 0, 0, 0⟩
  let corrs : Corrs :=
    { hi_i := corrs.hi_i >>> COS_BITS
      hi_q := corrs.hi_q >>> COS_BITS
      lo_i := corrs.lo_i >>> COS_BITS
      lo_q := corrs.lo_q >>> COS_BITS }
  let sum := 0
  let sum := sum + corrs.hi_i * corrs.hi_i
  let sum := sum + corrs.hi_q * corrs.hi_q
  let sum := sum - corrs.lo_i * corrs.lo_i
  sum - corrs.lo_q * corrs.lo_q

/-- The disabled variant of `FSK_core`, with a pass for each correlation. -/
def FSK_core_fourPass (T : FskTables) (b : Nat → Int32) : Int32 :=
  let pass (tab : Nat → Int32) : Int32 :=
    (List.range FSK_FILTER_SIZE).foldl (fun corr j => corr + b j * tab j) 0
  let corr := pass T.filter_hi_i >>> COS_BITS
  let sum := corr * corr
  let corr := pass T.filter_hi_q >>> COS_BITS
  let sum := sum + corr * corr
  let corr := pass T.filter_lo_i >>> COS_BITS
  let sum := sum - corr * corr
  let corr := pass T.filter_lo_q >>> COS_BITS
  sum - corr * corr

theorem FSK_core_onePass_eq (T : FskTables) (b : Nat → Int32) :
    FSK_core_onePass T b = FSK_core T b := rfl

theorem FSK_core_fourPass_eq (T : FskTables) (b : Nat → Int32) :
    FSK_core_fourPass T b = FSK_core T b := by
  simp only [FSK_core_fourPass, FSK_core, corr, Int32.zero_add]

/-- The table entries that `dsptable_gen.c` produces are at most `COS_BASE` in size. -/
structure FskTables.Small (T : FskTables) : Prop where
  hi_i : ∀ j, j < 9 → |(T.filter_hi_i j).toInt| ≤ 16384
  hi_q : ∀ j, j < 9 → |(T.filter_hi_q j).toInt| ≤ 16384
  lo_i : ∀ j, j < 9 → |(T.filter_lo_i j).toInt| ≤ 16384
  lo_q : ∀ j, j < 9 → |(T.filter_lo_q j).toInt| ≤ 16384

/-- One correlation as a computation. -/
def corrExpr (b tab : Nat → Int32) : Expr := .shr (dot b tab 9) 14

/-- `FSK_core` as a computation. -/
def coreExpr (T : FskTables) (b : Nat → Int32) : Expr :=
  let square (tab : Nat → Int32) : Expr := .mul (corrExpr b tab) (corrExpr b tab)
  .sub (.sub (.add (.add (.lit 0) (square T.filter_hi_i)) (square T.filter_hi_q))
    (square T.filter_lo_i)) (square T.filter_lo_q)

theorem run_coreExpr (T : FskTables) (b : Nat → Int32) : (coreExpr T b).run = FSK_core T b := rfl

namespace Reference

/-- A correlation in the integers. -/
def corr (b : Nat → Int) (tab : Nat → Int32) : Int :=
  (∑ j ∈ Finset.range 9, b j * (tab j).toInt) >>> (14 : Nat)

/-- The discriminator in the integers. -/
def FSK_core (T : FskTables) (b : Nat → Int) : Int :=
  corr b T.filter_hi_i ^ 2 + corr b T.filter_hi_q ^ 2 - corr b T.filter_lo_i ^ 2 -
    corr b T.filter_lo_q ^ 2

/-- The last nine samples of the ADC, offset by 2048 and shifted right by two, the oldest
first and with zeros before the first. -/
def window (xs : List UInt16) (j : Nat) : Int :=
  (xs.reverse.map fun x => (x.toNat : Int) - 2048).getD (8 - j) 0 >>> (2 : Nat)

/-- Only the nine values of the window count. -/
theorem FSK_core_congr {T : FskTables} {b b' : Nat → Int} (same : ∀ j, j < 9 → b j = b' j) :
    FSK_core T b = FSK_core T b' := by
  have correlation : ∀ tab, corr b tab = corr b' tab := by
    intro tab
    unfold corr
    congr 1
    apply Finset.sum_congr rfl
    intro j mem
    rw [same j (Finset.mem_range.mp mem)]
  unfold FSK_core
  simp only [correlation]

end Reference

section Core

variable {T : FskTables} {b tab : Nat → Int32}

theorem abs_corrExpr_le (hb : ∀ j, j < 9 → |(b j).toInt| ≤ 512)
    (ht : ∀ j, j < 9 → |(tab j).toInt| ≤ 16384) :
    NoOverflow (corrExpr b tab) ∧ |(corrExpr b tab).value| ≤ 4608 := by
  refine ⟨⟨noOverflow_dot hb ht (by decide), by decide⟩, ?_⟩
  have bound := abs_dot_le hb ht
  obtain ⟨lo, hi⟩ := abs_le.mp bound
  have shifted : (corrExpr b tab).value = (dot b tab 9).value / 16384 :=
    Int.shiftRight_eq_div_pow _ _
  rw [shifted, abs_le]
  omega

theorem noOverflow_square {e : Expr} (exact : NoOverflow e) (bound : |e.value| ≤ 4608) :
    NoOverflow (.mul e e) ∧ 0 ≤ (Expr.mul e e).value ∧ (Expr.mul e e).value ≤ 21233664 := by
  have product : |e.value * e.value| ≤ 4608 * 4608 := abs_mul_le bound bound
  have square : (Expr.mul e e).value = e.value * e.value := rfl
  rw [abs_mul_self] at product
  refine ⟨⟨exact, exact, ?_⟩, ?_, ?_⟩
  · have := mul_self_nonneg e.value
    constructor
    · omega
    · omega
  · exact mul_self_nonneg e.value
  · omega

/-- On samples of the ADC nothing in `FSK_core` overflows. -/
theorem noOverflow_coreExpr (small : T.Small) (hb : ∀ j, j < 9 → |(b j).toInt| ≤ 512) :
    NoOverflow (coreExpr T b) := by
  obtain ⟨exact₁, bound₁⟩ := abs_corrExpr_le hb small.hi_i
  obtain ⟨exact₂, bound₂⟩ := abs_corrExpr_le hb small.hi_q
  obtain ⟨exact₃, bound₃⟩ := abs_corrExpr_le hb small.lo_i
  obtain ⟨exact₄, bound₄⟩ := abs_corrExpr_le hb small.lo_q
  obtain ⟨square₁, lo₁, hi₁⟩ := noOverflow_square exact₁ bound₁
  obtain ⟨square₂, lo₂, hi₂⟩ := noOverflow_square exact₂ bound₂
  obtain ⟨square₃, lo₃, hi₃⟩ := noOverflow_square exact₃ bound₃
  obtain ⟨square₄, lo₄, hi₄⟩ := noOverflow_square exact₄ bound₄
  have zero : (Expr.lit 0).value = 0 := rfl
  refine ⟨⟨⟨⟨trivial, square₁, ?_⟩, square₂, ?_⟩, square₃, ?_⟩, square₄, ?_⟩
  all_goals
    simp only [Fits, Expr.value] at *
    omega

theorem value_coreExpr (T : FskTables) (b : Nat → Int32) :
    (coreExpr T b).value = Reference.FSK_core T fun j => (b j).toInt := by
  have correlation : ∀ tab, (corrExpr b tab).value = Reference.corr (fun j => (b j).toInt) tab := by
    intro tab
    change (dot b tab 9).value >>> (14 : Nat) = _
    rw [value_dot]
    rfl
  have zero : (0 : Int32).toInt = 0 := rfl
  simp only [coreExpr, Expr.value, correlation, Reference.FSK_core, zero]
  ring

end Core

/-! ### Samples in calls of any length -/

/-- Calls of `FSKdemod` after `demodInit`, each with the samples of the ADC that it is given
and the value of `astate`, and the bits that come out. -/
def demodCalls (T : FskTables) (calls : List (AppState × List UInt16)) : Fsk × List Bool :=
  calls.foldl
    (fun s call => FSKdemod T call.1 (fun bits bit => bits ++ [bit])
      (fun i => center (call.2.getD i 0)) call.2.length s)
    (demodInit, [])

/-- All the samples of the calls. -/
def samplesOf (calls : List (AppState × List UInt16)) : List UInt16 := calls.flatMap (·.2)

namespace Fsk

/-- The state without the run counting. -/
def signal (s : Fsk) : Fsk :=
  { s with
    runcount := 0
    lbr_time := 0
    holdover := 0
    conversions := [] }

/-- The part of a round that finds the bits. -/
def detect (T : FskTables) (s : Fsk) (x : Int32) : Fsk × Option Bool :=
  let s := s.push x
  (s.pllSync (0 < FSK_core T s.window)).pllAdvance

end Fsk

section Signal

variable {T : FskTables} {s : Fsk} {xs : List Int32}

theorem signal_push (s : Fsk) (x : Int32) : (s.push x).signal = s.signal.push x := by
  unfold Fsk.push Fsk.signal
  dsimp only
  split_ifs <;> rfl

theorem signal_rate (s : Fsk) (sum : Int32) (astate : AppState) :
    (((s.count sum).invokeLbr).restoreHbr astate).signal = s.signal := by
  simp only [Fsk.count, Fsk.invokeLbr, Fsk.restoreHbr, Fsk.signal]
  split_ifs <;> rfl

theorem signal_pllSync (s : Fsk) (newsample : Bool) :
    (s.pllSync newsample).signal = s.signal.pllSync newsample := by
  unfold Fsk.pllSync Fsk.signal
  dsimp only
  split_ifs <;> rfl

theorem signal_pllAdvance (s : Fsk) :
    s.pllAdvance.1.signal = s.signal.pllAdvance.1 ∧ s.pllAdvance.2 = s.signal.pllAdvance.2 := by
  unfold Fsk.pllAdvance Fsk.signal
  dsimp only
  split_ifs <;> exact ⟨rfl, rfl⟩

/-- The bits of a round depend neither on `astate` nor on the run counting. -/
theorem signal_sample (T : FskTables) (astate : AppState) (s : Fsk) (x : Int32) :
    (s.sample T astate x).1.signal = (s.signal.detect T x).1 ∧
      (s.sample T astate x).2 = (s.signal.detect T x).2 := by
  have window : (s.signal.push x).window = (s.push x).window := by
    rw [← signal_push]
    rfl
  obtain ⟨state, bit⟩ := signal_pllAdvance (((((s.push x).count
    (FSK_core T (s.push x).window)).invokeLbr).restoreHbr astate).pllSync
      (0 < FSK_core T (s.push x).window))
  simp only [Fsk.sample, Fsk.detect, window]
  rw [state, bit, signal_pllSync, signal_rate, signal_push]
  exact ⟨rfl, rfl⟩

/-- The signal and the bits after a sequence of samples. -/
def detectAll (T : FskTables) (s : Fsk × List Bool) (xs : List Int32) : Fsk × List Bool :=
  xs.foldl (fun s x => ((s.1.detect T x).1, deliver (fun bits bit => bits ++ [bit]) s.2
    (s.1.detect T x).2)) s

theorem FSKdemod_call (T : FskTables) (astate : AppState) (call : List UInt16)
    (s : Fsk × List Bool) :
    FSKdemod T astate (fun bits bit => bits ++ [bit]) (fun i => center (call.getD i 0))
        call.length s =
      (call.map center).foldl (demodSample T astate fun bits bit => bits ++ [bit]) s := by
  rw [← FSKdemod_list T astate _ (fun i => center (call.getD i 0)) (call.map center) s
    fun i hi => ?_, List.length_map]
  have small : i < call.length := by simpa using hi
  simp [small]

/-- Within a call. -/
theorem signal_foldl (T : FskTables) (astate : AppState) (xs : List Int32) (s : Fsk × List Bool) :
    let r := xs.foldl (demodSample T astate fun bits bit => bits ++ [bit]) s
    (r.1.signal, r.2) = detectAll T (s.1.signal, s.2) xs := by
  induction xs generalizing s with
  | nil => rfl
  | cons x xs ih =>
      obtain ⟨state, bit⟩ := signal_sample T astate s.1 x
      have rest := ih (demodSample T astate (fun bits bit => bits ++ [bit]) s x)
      refine rest.trans ?_
      change detectAll T ((s.1.sample T astate x).1.signal,
        deliver (fun bits bit => bits ++ [bit]) s.2 (s.1.sample T astate x).2) xs = _
      rw [state, bit]
      rfl

/-- The calls find the bits of all their samples. -/
theorem demodCalls_eq (T : FskTables) (calls : List (AppState × List UInt16)) :
    ((demodCalls T calls).1.signal, (demodCalls T calls).2) =
      detectAll T (demodInit, []) ((samplesOf calls).map center) := by
  induction calls using List.reverseRecOn with
  | nil => rfl
  | append_singleton calls call ih =>
      have last : demodCalls T (calls ++ [call]) = (call.2.map center).foldl
          (demodSample T call.1 fun bits bit => bits ++ [bit]) (demodCalls T calls) := by
        rw [← FSKdemod_call, demodCalls, List.foldl_append]
        rfl
      have split : (samplesOf (calls ++ [call])).map center =
          (samplesOf calls).map center ++ call.2.map center := by
        simp [samplesOf]
      rw [last, signal_foldl, ih, split, detectAll, detectAll, detectAll, List.foldl_append]

theorem Fsk.Filtered.detect (filtered : s.Filtered xs) (x : Int32) :
    (s.detect T x).1.Filtered (xs ++ [x]) := by
  obtain ⟨lo, hi, shift, window⟩ := filtered.push x
  simp only [Fsk.detect, Fsk.pllSync, Fsk.pllAdvance]
  split_ifs <;> exact ⟨lo, hi, shift, window⟩

theorem filtered_detectAll (xs : List Int32) :
    (detectAll T (demodInit, []) xs).1.Filtered xs := by
  induction xs using List.reverseRecOn with
  | nil => exact filtered_demodInit
  | append_singleton xs x ih =>
      rw [detectAll, List.foldl_append]
      exact ih.detect x

/-- After any calls the window is that of all the samples. -/
theorem filtered_demodCalls (T : FskTables) (calls : List (AppState × List UInt16)) :
    (demodCalls T calls).1.Filtered ((samplesOf calls).map center) := by
  have filtered : (demodCalls T calls).1.signal.Filtered ((samplesOf calls).map center) := by
    have same := congrArg Prod.fst (demodCalls_eq T calls)
    dsimp only at same
    rw [same]
    exact filtered_detectAll _
  exact ⟨filtered.lo, filtered.hi, filtered.shift, filtered.window⟩

end Signal

/-! ### Samples of the ADC -/

section Adc

variable {xs : List UInt16}

/-- A sample has 12 bits. -/
def IsAdc (x : UInt16) : Prop := x.toNat < 4096

theorem toInt_center {x : UInt16} (adc : IsAdc x) : (center x).toInt = (x.toNat : Int) - 2048 := by
  have adc : x.toNat < 4096 := adc
  have value : x.toInt16.toInt = x.toNat := by
    change x.toBitVec.toInt = _
    rw [BitVec.toInt_eq_toNat_of_lt (by change 2 * x.toNat < 65536; omega)]
    rfl
  have offset : (2048 : Int16).toInt = 2048 := rfl
  rw [center, Int16.toInt_toInt32, Int16.toInt_sub, value, offset]
  apply Int.bmod_eq_of_le <;> omega

/-- The words of the window in the integers. -/
theorem toInt_ago (adc : ∀ x ∈ xs, IsAdc x) (k : Nat) :
    (ago (xs.map center) k).toInt =
      (xs.reverse.map fun x => (x.toNat : Int) - 2048).getD k 0 := by
  rw [ago, ← List.map_reverse]
  simp only [List.getD_eq_getElem?_getD, List.getElem?_map]
  cases found : xs.reverse[k]? with
  | none => rfl
  | some x =>
      have mem : x ∈ xs := List.mem_reverse.mp (List.mem_of_getElem? found)
      exact toInt_center (adc x mem)

theorem toInt_window (adc : ∀ x ∈ xs, IsAdc x) (j : Nat) :
    (ago (xs.map center) (8 - j) >>> 2).toInt = Reference.window xs j := by
  rw [Reference.window, ← toInt_ago adc]
  exact toInt_shiftRight (k := 2) (by decide)

theorem abs_window_le (adc : ∀ x ∈ xs, IsAdc x) (j : Nat) : |Reference.window xs j| ≤ 512 := by
  have bounds : ∀ k, -2048 ≤ (xs.reverse.map fun x => (x.toNat : Int) - 2048).getD k 0 ∧
      (xs.reverse.map fun x => (x.toNat : Int) - 2048).getD k 0 < 2048 := by
    intro k
    simp only [List.getD_eq_getElem?_getD, List.getElem?_map]
    cases found : xs.reverse[k]? with
    | none => exact ⟨by decide, by decide⟩
    | some x =>
        have small : x.toNat < 4096 := adc x (List.mem_reverse.mp (List.mem_of_getElem? found))
        change -2048 ≤ (x.toNat : Int) - 2048 ∧ (x.toNat : Int) - 2048 < 2048
        omega
  obtain ⟨lo, hi⟩ := bounds (8 - j)
  rw [Reference.window, Int.shiftRight_eq_div_pow, abs_le]
  omega

end Adc

/-! ### The demodulator -/

/-- With the tables of `dsptable_gen.c`, after any calls and for the next sample of the ADC:
the sample is stored inside the buffer and the move at its end is between regions that do
not overlap; the window that `FSK_core` is given is that of the last nine samples; nothing
in it overflows, and its result, which both variants compute, is that of the integers. And
the bits are those of the samples, however these are split into calls. -/
theorem demodulator_refines (T : FskTables) (small : T.Small) :
    (∀ (calls : List (AppState × List UInt16)) (x : UInt16),
      (∀ y ∈ samplesOf calls, IsAdc y) → IsAdc x →
      let s := (demodCalls T calls).1
      let b := (s.push (center x)).window
      9 ≤ s.buf_ptr.toNat ∧ s.buf_ptr.toNat ≤ 17 ∧
      (s.buf_ptr.toNat = 17 → (s.push (center x)).filter_buf =
        memmove_aligned (Function.update s.filter_buf 17 (center x >>> s.shift.toInt32)) 0 9 36) ∧
      (∀ j, j < 9 → (b j).toInt = Reference.window (samplesOf calls ++ [x]) j) ∧
      NoOverflow (coreExpr T b) ∧ (coreExpr T b).run = FSK_core_onePass T b ∧
      FSK_core_onePass T b = FSK_core T b ∧ FSK_core_fourPass T b = FSK_core T b ∧
      (FSK_core T b).toInt = Reference.FSK_core T (Reference.window (samplesOf calls ++ [x]))) ∧
    ∀ calls calls' : List (AppState × List UInt16), samplesOf calls = samplesOf calls' →
      (demodCalls T calls).2 = (demodCalls T calls').2 := by
  constructor
  · intro calls x adc last s b
    have filtered : s.Filtered ((samplesOf calls).map center) := filtered_demodCalls T calls
    have adc' : ∀ y ∈ samplesOf calls ++ [x], IsAdc y := by
      intro y mem
      rcases List.mem_append.mp mem with mem | mem
      · exact adc y mem
      · exact List.mem_singleton.mp mem ▸ last
    have window : ∀ j, j < 9 → (b j).toInt = Reference.window (samplesOf calls ++ [x]) j := by
      intro j hj
      have split : (samplesOf calls).map center ++ [center x] =
          (samplesOf calls ++ [x]).map center := by
        simp
      have newest : b j = ago ((samplesOf calls).map center ++ [center x]) (8 - j) >>> 2 :=
        (filtered.push (center x)).window j hj
      rw [newest, split, toInt_window adc']
    have exact : NoOverflow (coreExpr T b) := by
      refine noOverflow_coreExpr small fun j hj => ?_
      rw [window j hj]
      exact abs_window_le adc' j
    have value : (FSK_core T b).toInt =
        Reference.FSK_core T (Reference.window (samplesOf calls ++ [x])) := by
      rw [← run_coreExpr, toInt_run exact, value_coreExpr]
      exact Reference.FSK_core_congr window
    refine ⟨filtered.lo, filtered.hi, fun full => ?_, window, exact, rfl, rfl,
      FSK_core_fourPass_eq T b, value⟩
    have next : (s.buf_ptr + 1).toNat = FSK_FILTER_BUF_SIZE := by
      rw [UInt8.toNat_add, full]
      rfl
    rw [Fsk.push_eq]
    dsimp only
    rw [if_pos next, full]
    rfl
  · intro calls calls' same
    have bits := congrArg Prod.snd (demodCalls_eq T calls)
    have bits' := congrArg Prod.snd (demodCalls_eq T calls')
    rw [same] at bits
    exact bits.trans bits'.symm

/-- A table with the sign of an alternating wave. -/
def sampleTables : FskTables where
  filter_lo_i j := if j % 2 = 0 then 16384 else -16384
  filter_lo_q _ := 0
  filter_hi_i _ := 16384
  filter_hi_q _ := 0

theorem sampleTables_small : sampleTables.Small := by
  constructor
  all_goals
    intro j _
    simp only [sampleTables]
    try split
    all_goals decide

/-- Eight samples, which leave room for one more before the buffer is moved. -/
def sampleCall : List UInt16 := [3000, 1000, 2500, 2048, 4095, 0, 2000, 2100]

theorem sampleCall_fills : (demodCalls sampleTables [(.idle, sampleCall)]).1.buf_ptr.toNat = 17 := by
  decide +kernel

/-- The sample that fills the buffer, and a bit that is found in either split. -/
theorem sampleTables_refines :
    let s := (demodCalls sampleTables [(.idle, sampleCall)]).1
    (s.push (center 2500)).filter_buf =
        memmove_aligned (Function.update s.filter_buf 17 (center 2500 >>> s.shift.toInt32)) 0 9 36 ∧
      (FSK_core sampleTables (s.push (center 2500)).window).toInt =
        Reference.FSK_core sampleTables (Reference.window (sampleCall ++ [2500])) ∧
      (demodCalls sampleTables [(.idle, sampleCall), (.updating, [2500, 2500])]).2 =
        (demodCalls sampleTables [(.idle, sampleCall ++ [2500, 2500])]).2 ∧
      (demodCalls sampleTables [(.idle, sampleCall ++ [2500, 2500])]).2 = [false] := by
  intro s
  obtain ⟨here, split⟩ := demodulator_refines sampleTables sampleTables_small
  have adc : ∀ x ∈ sampleCall, IsAdc x := by
    simp only [sampleCall, IsAdc, List.mem_cons, List.not_mem_nil, or_false, forall_eq_or_imp,
      forall_eq]
    decide
  obtain ⟨-, -, moved, -, -, -, -, -, value⟩ := here [(.idle, sampleCall)] 2500
    (by simpa [samplesOf] using adc) (show (2500 : UInt16).toNat < 4096 by decide)
  refine ⟨moved sampleCall_fills, value, split _ _ rfl, ?_⟩
  decide +kernel

end LtcOs.Demod
