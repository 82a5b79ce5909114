import LtcOs.Link

/-!
The demodulator `esplanade_demod.c` and `demod_loop` around it.

There is one packet buffer and no lock. What keeps a packet from being overwritten
is a matter of quantities: a batch of 256 samples advances the baud clock by less
than 36 bits (`demodSamples_advance`), and the MAC needs 56 bits from the end of one
packet to the start of the next.
-/

namespace LtcOs.Demod

open LtcOs.Memory LtcOs.Bits LtcOs.Updater

/-! ### `esplanade_demod.h` -/

def NB_SAMPLES : Nat := 8

def NB_FRAMES : Nat := 32

def DMBUF_DEPTH : Nat := NB_SAMPLES * NB_FRAMES

def COS_BITS : Int32 := 14

def FSK_FILTER_SIZE : Nat := 9

def FSK_FILTER_BUF_SIZE : Nat := FSK_FILTER_SIZE * 2

/-- The generated tables of `fsk_const`. -/
structure FskTables where
  filter_lo_i : Nat → Int32
  filter_lo_q : Nat → Int32
  filter_hi_i : Nat → Int32
  filter_hi_q : Nat → Int32

/-- `fsk_const.sample_rate`. -/
def SAMPLE_RATE : Int32 := 74957

/-- `fsk_const.baud_rate`. -/
def BAUD_RATE : Int32 := 8000

/-- The two conversion groups `adcgrplbr` and `adcgrphbr`. -/
inductive BaudMode where
  | lbr
  | hbr
deriving DecidableEq, Repr

/-- `fsk_state` and the other static variables. The last sample is zero or one;
`conversions` records the calls of `adcStartConversion`. -/
structure Fsk where
  filter_buf : Nat → Int32
  buf_ptr : UInt8
  baud_incr : Int32
  baud_pll : Int32
  baud_pll_adj : Int32
  lastsample : Bool
  shift : Int16
  runcount : UInt32
  lbr_time : UInt32
  holdover : UInt16
  conversions : List BaudMode

/-- The loop at the end of `demodInit`; a 32-bit value is zero after 32 halvings. -/
def initShift : (fuel : Nat) → (a : Int32) → (shift : Int16) → Int16
  | 0, _, shift => shift
  | fuel + 1, a, shift => if a ≠ 0 then initShift fuel (a / 2) (shift + 1) else shift

/-- The state after `demodInit` at reset. -/
def demodInit : Fsk :=
  let baud_incr := BAUD_RATE * 0x10000 / SAMPLE_RATE
  { filter_buf := fun _ => 0
    buf_ptr := UInt8.ofNat FSK_FILTER_SIZE
    baud_incr := baud_incr
    baud_pll := 0
    baud_pll_adj := baud_incr / 4
    lastsample := false
    shift := initShift 32 9 (-2)
    runcount := 0
    lbr_time := 0
    holdover := 0
    conversions := [] }

/-! ### `FSKdemod` -/

/-- One correlation of `FSK_core`. -/
def corr (b tab : Nat → Int32) : Int32 :=
  (List.range FSK_FILTER_SIZE).foldl (fun c j => c + b j * tab j) 0 >>> COS_BITS

/-- Non coherent FSK demodulation. -/
def FSK_core (T : FskTables) (b : Nat → Int32) : Int32 :=
  let hi_i := corr b T.filter_hi_i
  let hi_q := corr b T.filter_hi_q
  let lo_i := corr b T.filter_lo_i
  let lo_q := corr b T.filter_lo_q
  0 + hi_i * hi_i + hi_q * hi_q - lo_i * lo_i - lo_q * lo_q

namespace Fsk

def RUN_THRESH : UInt32 := 1500

def HOLDOVER_THRESH : UInt16 := 80

def LBR_HOLDOUT : UInt32 := 48000

/-- Add a new sample in the demodulation filter. -/
def push (s : Fsk) (sample : Int32) : Fsk :=
  let buf := Function.update s.filter_buf s.buf_ptr.toNat (sample >>> s.shift.toInt32)
  let ptr := s.buf_ptr + 1
  if ptr.toNat = FSK_FILTER_BUF_SIZE then
    { s with
      filter_buf := fun j =>
        if j < FSK_FILTER_SIZE then buf (FSK_FILTER_BUF_SIZE - FSK_FILTER_SIZE + j) else buf j
      buf_ptr := UInt8.ofNat FSK_FILTER_SIZE }
  else { s with filter_buf := buf, buf_ptr := ptr }

/-- The last samples, `filter_buf + buf_ptr - filter_size`. -/
def window (s : Fsk) : Nat → Int32 := fun j => s.filter_buf (s.buf_ptr.toNat - FSK_FILTER_SIZE + j)

/-- Figure out the ratio of zeros and ones. -/
def count (s : Fsk) (sum : Int32) : Fsk :=
  if sum < 0 then { s with runcount := s.runcount + 1 }
  else if s.runcount < RUN_THRESH then { s with runcount := 0, holdover := 0 }
  else if s.holdover > HOLDOVER_THRESH then { s with runcount := 0, holdover := 0 }
  else { s with holdover := s.holdover + 1 }

/-- Invoke the low baud rate at the end of a preamble. -/
def invokeLbr (s : Fsk) : Fsk :=
  if s.runcount = RUN_THRESH then { s with lbr_time := 1, conversions := s.conversions ++ [.lbr] }
  else s

/-- Restore the high baud rate after a time in `APP_IDLE`. -/
def restoreHbr (s : Fsk) (astate : AppState) : Fsk :=
  if astate = .idle then
    let s := if s.lbr_time > 0 then { s with lbr_time := s.lbr_time + 1 } else s
    if s.lbr_time > LBR_HOLDOUT then
      { s with runcount := 0, holdover := 0, lbr_time := 0, conversions := s.conversions ++ [.hbr] }
    else s
  else s

/-- When we see a transition of frequency, we tend to modify the baud phase so
that it is in the middle of two bits. -/
def pllSync (s : Fsk) (newsample : Bool) : Fsk :=
  if s.lastsample ≠ newsample then
    if s.baud_pll < 0x8000 then
      { s with lastsample := newsample, baud_pll := s.baud_pll + s.baud_pll_adj }
    else { s with lastsample := newsample, baud_pll := s.baud_pll - s.baud_pll_adj }
  else s

/-- The baud clock, with the bit that is due. -/
def pllAdvance (s : Fsk) : Fsk × Option Bool :=
  let pll := s.baud_pll + s.baud_incr
  if 0x10000 ≤ pll then ({ s with baud_pll := pll - 0x10000 }, some s.lastsample)
  else ({ s with baud_pll := pll }, none)

/-- One round of the loop of `FSKdemod`. -/
def sample (T : FskTables) (astate : AppState) (s : Fsk) (sample : Int32) : Fsk × Option Bool :=
  let s := s.push sample
  let sum := FSK_core T s.window
  let s := ((s.count sum).invokeLbr).restoreHbr astate
  (s.pllSync (0 < sum)).pllAdvance

end Fsk

section Batch

variable {σ : Type} (T : FskTables) (astate : AppState) (put_bit : σ → Bool → σ)

/-- The callback for a bit that is due. -/
def deliver (x : σ) : Option Bool → σ
  | none => x
  | some bit => put_bit x bit

def demodSample (s : Fsk × σ) (sample : Int32) : Fsk × σ :=
  let r := s.1.sample T astate sample
  (r.1, deliver put_bit s.2 r.2)

def FSKdemod (samples : Nat → Int32) (nb : Nat) (s : Fsk × σ) : Fsk × σ :=
  (List.range nb).foldl (fun s i => demodSample T astate put_bit s (samples i)) s

/-- `phy_demodulate` on the samples of `dm_buf`. -/
def phy_demodulate (dm_buf : Nat → Int32) (s : Fsk × σ) : Fsk × σ :=
  (List.range NB_FRAMES).foldl
    (fun s frames =>
      FSKdemod T astate put_bit (fun i => dm_buf (frames * NB_SAMPLES + i)) NB_SAMPLES s) s

end Batch

/-! ### `demod_loop` -/

/-- What `demod_loop` works on. -/
structure Receiver where
  fsk : Fsk
  loop : Loop

/-- The state after `demodInit` and before the first sample. -/
def Receiver.initial (astate : AppState) (mem : Mem) : Receiver :=
  ⟨demodInit, .initial, astate, mem⟩

/-- The MAC and the demodulator after the first `k` samples of a batch. -/
def Receiver.samples (T : FskTables) (s : Receiver) (dm_buf : Nat → Int32) (k : Nat) : Fsk × Mac :=
  FSKdemod T s.loop.astate putBitMac dm_buf k (s.fsk, s.loop.mac)

/-- One round of `demod_loop`: with the flag clear a batch of samples is
demodulated, with the flag set the packet is processed. -/
inductive DemodStep (T : FskTables) (R : Ram) (bus : Nat → Option UInt8) : Receiver → Receiver → Prop where
  | batch {s : Receiver} {fsk : Fsk} {mac : Mac} (dm_buf : Nat → Int32)
    (clear : s.loop.mac.pktReady = false)
      (result : phy_demodulate T s.loop.astate putBitMac dm_buf (s.fsk, s.loop.mac) = (fsk, mac)) :
      DemodStep T R bus s ⟨fsk, { s.loop with mac := mac }⟩
  | packet {s : Receiver} {loop : Loop} (ready : s.loop.mac.pktReady = true)
      (result : s.loop.packetBranch R bus = some loop) : DemodStep T R bus s ⟨s.fsk, loop⟩

/-- States of `demod_loop`, from reset. -/
def DemodReachable (T : FskTables) (R : Ram) (bus : Nat → Option UInt8) (s : Receiver) : Prop :=
  ∃ astate mem, Relation.ReflTransGen (DemodStep T R bus) (.initial astate mem) s

/-! ### The baud clock -/

/-- The increments `demodInit` sets, and the clock in its range. -/
structure Fsk.PllOk (s : Fsk) : Prop where
  incr : s.baud_incr = 6994
  adj : s.baud_pll_adj = 1748
  nonneg : 0 ≤ s.baud_pll.toInt
  lt : s.baud_pll.toInt < 0x10000

/-- The clock is the same. -/
def Fsk.SameClock (s t : Fsk) : Prop :=
  t.baud_incr = s.baud_incr ∧ t.baud_pll_adj = s.baud_pll_adj ∧ t.baud_pll = s.baud_pll

section Clock

variable {s t u : Fsk}

theorem Fsk.SameClock.trans (h : s.SameClock t) (h' : t.SameClock u) : s.SameClock u :=
  ⟨h'.1.trans h.1, h'.2.1.trans h.2.1, h'.2.2.trans h.2.2⟩

theorem sameClock_push (s : Fsk) (x : Int32) : s.SameClock (s.push x) := by
  simp only [Fsk.push]
  split_ifs <;> exact ⟨rfl, rfl, rfl⟩

theorem sameClock_count (s : Fsk) (sum : Int32) : s.SameClock (s.count sum) := by
  unfold Fsk.count
  split_ifs <;> exact ⟨rfl, rfl, rfl⟩

theorem sameClock_invokeLbr (s : Fsk) : s.SameClock s.invokeLbr := by
  unfold Fsk.invokeLbr
  split_ifs <;> exact ⟨rfl, rfl, rfl⟩

theorem sameClock_restoreHbr (s : Fsk) (astate : AppState) : s.SameClock (s.restoreHbr astate) := by
  simp only [Fsk.restoreHbr]
  split_ifs <;> exact ⟨rfl, rfl, rfl⟩

theorem Fsk.PllOk.of_same (ok : s.PllOk) (same : s.SameClock t) : t.PllOk := by
  obtain ⟨incr, adj, pll⟩ := same
  constructor
  · exact incr.trans ok.incr
  · exact adj.trans ok.adj
  · exact pll ▸ ok.nonneg
  · exact pll ▸ ok.lt

theorem pllOk_demodInit : demodInit.PllOk := by
  constructor
  · decide
  · decide
  · decide
  · decide

theorem toInt_add_of {a b : Int32} {c : Int} (hb : b.toInt = c) (lo : -0x80000000 ≤ a.toInt + c)
    (hi : a.toInt + c < 0x80000000) : (a + b).toInt = a.toInt + c := by
  rw [Int32.toInt_add, hb]
  apply Int.bmod_eq_of_le <;> omega

theorem toInt_sub_of {a b : Int32} {c : Int} (hb : b.toInt = c) (lo : -0x80000000 ≤ a.toInt - c)
    (hi : a.toInt - c < 0x80000000) : (a - b).toInt = a.toInt - c := by
  rw [Int32.toInt_sub, hb]
  apply Int.bmod_eq_of_le <;> omega

/-- A transition moves the clock towards the middle of its range. -/
theorem pllSync_spec (ok : s.PllOk) (newsample : Bool) :
    (s.pllSync newsample).PllOk ∧
      s.baud_pll.toInt - 1748 ≤ (s.pllSync newsample).baud_pll.toInt ∧
      (s.pllSync newsample).baud_pll.toInt ≤ s.baud_pll.toInt + 1748 := by
  have nonneg := ok.nonneg
  have lt := ok.lt
  have adj : s.baud_pll_adj.toInt = 1748 := by
    rw [ok.adj]
    decide
  unfold Fsk.pllSync
  split_ifs with changed low
  · have low : s.baud_pll.toInt < 0x8000 := Int32.lt_iff_toInt_lt.mp low
    have sum := toInt_add_of (a := s.baud_pll) adj (by omega) (by omega)
    refine ⟨⟨ok.incr, ok.adj, by rw [sum]; omega, by rw [sum]; omega⟩, ?_, sum.le⟩
    change _ ≤ (s.baud_pll + s.baud_pll_adj).toInt
    omega
  · have high : 0x8000 ≤ s.baud_pll.toInt := Int32.le_iff_toInt_le.mp (Int32.not_lt.mp low)
    have difference := toInt_sub_of (a := s.baud_pll) adj (by omega) (by omega)
    refine ⟨⟨ok.incr, ok.adj, by rw [difference]; omega, by rw [difference]; omega⟩,
      difference.ge, ?_⟩
    change (s.baud_pll - s.baud_pll_adj).toInt ≤ _
    omega
  · exact ⟨ok, by omega, by omega⟩

/-- The number of bits a sample delivers. -/
def bitCount (due : Option Bool) : Int := if due.isSome then 1 else 0

theorem pllAdvance_spec (ok : s.PllOk) :
    s.pllAdvance.1.PllOk ∧
      s.pllAdvance.1.baud_pll.toInt + 0x10000 * bitCount s.pllAdvance.2 =
        s.baud_pll.toInt + 6994 := by
  have nonneg := ok.nonneg
  have lt := ok.lt
  have incr : s.baud_incr.toInt = 6994 := by
    rw [ok.incr]
    decide
  have sum := toInt_add_of (a := s.baud_pll) incr (by omega) (by omega)
  simp only [Fsk.pllAdvance]
  split_ifs with due
  · have due : 0x10000 ≤ (s.baud_pll + s.baud_incr).toInt := Int32.le_iff_toInt_le.mp due
    have wrapped :=
      toInt_sub_of (a := s.baud_pll + s.baud_incr) (b := 0x10000) (c := 0x10000) (by decide)
      (by omega) (by omega)
    refine ⟨⟨ok.incr, ok.adj, by rw [wrapped]; omega, by rw [wrapped]; omega⟩, ?_⟩
    rw [wrapped, sum]
    simp only [bitCount, Option.isSome_some, if_true]
    omega
  · have early : (s.baud_pll + s.baud_incr).toInt < 0x10000 :=
      Int32.lt_iff_toInt_lt.mp (Int32.not_le.mp due)
    refine ⟨⟨ok.incr, ok.adj, by rw [sum]; omega, early⟩, ?_⟩
    rw [sum]
    simp only [bitCount, Option.isSome_none, Bool.false_eq_true, if_false]
    omega

/-- One sample advances the clock by at most the two increments. -/
theorem sample_spec (T : FskTables) (astate : AppState) (ok : s.PllOk) (x : Int32) :
    (s.sample T astate x).1.PllOk ∧
      (s.sample T astate x).1.baud_pll.toInt + 0x10000 * bitCount (s.sample T astate x).2 ≤
        s.baud_pll.toInt + 8742 := by
  have same := (((sameClock_push s x).trans (sameClock_count _ (FSK_core T (s.push x).window))).trans
    (sameClock_invokeLbr _)).trans (sameClock_restoreHbr _ astate)
  obtain ⟨synced, -, le⟩ := pllSync_spec (ok.of_same same) (0 < FSK_core T (s.push x).window)
  obtain ⟨advanced, sum⟩ := pllAdvance_spec synced
  refine ⟨advanced, ?_⟩
  rw [same.2.2] at le
  refine sum.le.trans ?_
  omega

end Clock

/-! ### A batch of samples -/

section Samples

variable {σ : Type} (T : FskTables) (astate : AppState) (put_bit : σ → Bool → σ)

theorem FSKdemod_zero (samples : Nat → Int32) (s : Fsk × σ) :
    FSKdemod T astate put_bit samples 0 s = s := rfl

theorem FSKdemod_succ (samples : Nat → Int32) (n : Nat) (s : Fsk × σ) :
    FSKdemod T astate put_bit samples (n + 1) s =
      demodSample T astate put_bit (FSKdemod T astate put_bit samples n s) (samples n) := by
  rw [FSKdemod, List.range_succ, List.foldl_append]
  rfl

theorem FSKdemod_add (samples : Nat → Int32) (m n : Nat) (s : Fsk × σ) :
    FSKdemod T astate put_bit samples (m + n) s =
      FSKdemod T astate put_bit (fun i => samples (m + i)) n
        (FSKdemod T astate put_bit samples m s) := by
  induction n with
  | zero => rw [FSKdemod_zero, Nat.add_zero]
  | succ n ih => rw [← Nat.add_assoc, FSKdemod_succ, FSKdemod_succ, ih]

theorem foldl_frames (dm_buf : Nat → Int32) (s : Fsk × σ) (n : Nat) :
    (List.range n).foldl (fun s frames => FSKdemod T astate put_bit
      (fun i => dm_buf (frames * NB_SAMPLES + i)) NB_SAMPLES s) s =
        FSKdemod T astate put_bit dm_buf (n * NB_SAMPLES) s := by
  induction n with
  | zero => rw [List.range_zero, List.foldl_nil, Nat.zero_mul, FSKdemod_zero]
  | succ n ih =>
      rw [List.range_succ, List.foldl_append, ih, Nat.succ_mul, FSKdemod_add, List.foldl_cons,
        List.foldl_nil]

/-- Samples that are given as a list. -/
theorem FSKdemod_list (samples : Nat → Int32) (xs : List Int32) (s : Fsk × σ)
    (same : ∀ i (hi : i < xs.length), samples i = xs[i]) :
    FSKdemod T astate put_bit samples xs.length s =
      xs.foldl (demodSample T astate put_bit) s := by
  have listed : (List.range xs.length).map samples = xs := by
    apply List.ext_getElem
    · simp
    · intro i hi hi'
      simp [same i hi']
  conv_rhs => rw [← listed]
  rw [FSKdemod, List.foldl_map]

/-- The frames are one batch. -/
theorem phy_demodulate_eq (dm_buf : Nat → Int32) (s : Fsk × σ) :
    phy_demodulate T astate put_bit dm_buf s = FSKdemod T astate put_bit dm_buf DMBUF_DEPTH s := by
  have depth : DMBUF_DEPTH = NB_FRAMES * NB_SAMPLES := rfl
  rw [phy_demodulate, foldl_frames, depth]

/-- The bits a batch delivers. -/
def bitsOf (dm_buf : Nat → Int32) (fsk : Fsk) (n : Nat) : List Bool :=
  (FSKdemod T astate (fun bits bit => bits ++ [bit]) dm_buf n (fsk, [])).2

/-- The demodulator after a number of samples. -/
def fskAfter (dm_buf : Nat → Int32) (fsk : Fsk) (n : Nat) : Fsk :=
  (FSKdemod T astate (fun bits bit => bits ++ [bit]) dm_buf n (fsk, [])).1

theorem fskAfter_succ (dm_buf : Nat → Int32) (fsk : Fsk) (n : Nat) :
    fskAfter T astate dm_buf fsk (n + 1) =
      ((fskAfter T astate dm_buf fsk n).sample T astate (dm_buf n)).1 := by
  rw [fskAfter, FSKdemod_succ]
  rfl

theorem bitsOf_succ (dm_buf : Nat → Int32) (fsk : Fsk) (n : Nat) :
    bitsOf T astate dm_buf fsk (n + 1) = bitsOf T astate dm_buf fsk n ++
      ((fskAfter T astate dm_buf fsk n).sample T astate (dm_buf n)).2.toList := by
  rw [bitsOf, FSKdemod_succ, demodSample]
  change deliver (fun bits bit => bits ++ [bit]) (bitsOf T astate dm_buf fsk n)
    ((fskAfter T astate dm_buf fsk n).sample T astate (dm_buf n)).2 = _
  cases ((fskAfter T astate dm_buf fsk n).sample T astate (dm_buf n)).2 with
  | none => exact (List.append_nil _).symm
  | some bit => rfl

/-- The bits do not depend on what they are used for. -/
theorem FSKdemod_eq (dm_buf : Nat → Int32) (fsk : Fsk) (n : Nat) (x : σ) :
    FSKdemod T astate put_bit dm_buf n (fsk, x) =
      (fskAfter T astate dm_buf fsk n, (bitsOf T astate dm_buf fsk n).foldl put_bit x) := by
  induction n with
  | zero => rfl
  | succ n ih =>
      rw [FSKdemod_succ, ih, demodSample, fskAfter_succ, bitsOf_succ, List.foldl_append]
      cases ((fskAfter T astate dm_buf fsk n).sample T astate (dm_buf n)).2 with
      | none => rfl
      | some bit => rfl

theorem bitsOf_add (dm_buf : Nat → Int32) (fsk : Fsk) (m n : Nat) :
    ∃ more, bitsOf T astate dm_buf fsk (m + n) = bitsOf T astate dm_buf fsk m ++ more := by
  induction n with
  | zero => exact ⟨[], (List.append_nil _).symm⟩
  | succ n ih =>
      obtain ⟨more, ih⟩ := ih
      rw [← Nat.add_assoc, bitsOf_succ, ih, List.append_assoc]
      exact ⟨_, rfl⟩

/-- The clock bounds the number of bits. -/
theorem fskAfter_spec (dm_buf : Nat → Int32) {fsk : Fsk} (ok : fsk.PllOk) (n : Nat) :
    (fskAfter T astate dm_buf fsk n).PllOk ∧
      (fskAfter T astate dm_buf fsk n).baud_pll.toInt + 0x10000 *
        (bitsOf T astate dm_buf fsk n).length ≤
        fsk.baud_pll.toInt + 8742 * n := by
  induction n with
  | zero =>
      refine ⟨ok, ?_⟩
      change fsk.baud_pll.toInt + 0x10000 * ((0 : Nat) : Int) ≤ _
      omega
  | succ n ih =>
      obtain ⟨before, total⟩ := ih
      obtain ⟨after, advance⟩ := sample_spec T astate before (dm_buf n)
      rw [fskAfter_succ, bitsOf_succ]
      refine ⟨after, ?_⟩
      have one : ((((fskAfter T astate dm_buf fsk n).sample T astate (dm_buf n)).2.toList.length : Nat) : Int) =
          bitCount ((fskAfter T astate dm_buf fsk n).sample T astate (dm_buf n)).2 := by
        cases ((fskAfter T astate dm_buf fsk n).sample T astate (dm_buf n)).2 with
        | none => rfl
        | some bit => rfl
      rw [List.length_append]
      push_cast
      omega

/-- At most 35 bits in a batch. -/
theorem length_bitsOf (dm_buf : Nat → Int32) {fsk : Fsk} (ok : fsk.PllOk) {n : Nat} (hn : n ≤ 256) :
    (bitsOf T astate dm_buf fsk n).length ≤ 35 := by
  obtain ⟨after, total⟩ := fskAfter_spec T astate dm_buf ok n
  have := after.nonneg
  have := ok.lt
  omega

end Samples

/-! ### One packet in a batch -/

section OnePacket

variable {s : Mac}

/-- A flag that is set was set by some bit. -/
theorem ready_split {bits : List Bool} (clear : s.pktReady = false)
    (ready : (feed s bits).pktReady = true) :
    ∃ xs bit ys, bits = xs ++ bit :: ys ∧ (feed s xs).Ends bit := by
  induction bits generalizing s with
  | nil => exact absurd (clear.symm.trans ready) (by simp)
  | cons bit bits ih =>
      cases flag : (putBitMac s bit).pktReady with
      | true =>
          rcases (pktReady_putBitMac s bit).mp flag with set | ends
          · exact absurd (clear.symm.trans set) (by simp)
          · exact ⟨[], bit, bits, rfl, ends⟩
      | false =>
          obtain ⟨xs, bit', ys, rfl, ends⟩ := ih flag ready
          exact ⟨bit :: xs, bit', ys, rfl, ends⟩

/-- Within the bits of a batch, a packet is left alone once it is there. -/
theorem feed_kept {bits more : List Bool} (clear : s.pktReady = false)
    (short : (bits ++ more).length ≤ 35) (ready : (feed s bits).pktReady = true) :
    (feed s (bits ++ more)).mstate ≠ .packet ∧ (feed s (bits ++ more)).pkt = (feed s bits).pkt ∧
      (feed s (bits ++ more)).pktReady = true := by
  obtain ⟨xs, bit, ys, rfl, ends⟩ := ready_split clear ready
  have split : ∀ zs, feed s (xs ++ bit :: zs) = feed (putBitMac (feed s xs) bit) zs := by
    intro zs
    rw [feed_append, feed_cons]
  have far := bitsToPacket_of_ends ends
  simp only [List.length_append, List.length_cons] at short
  have few : (ys ++ more).length < (putBitMac (feed s xs) bit).bitsToPacket := by
    rw [far, List.length_append]
    omega
  have few' : ys.length < (putBitMac (feed s xs) bit).bitsToPacket := by
    rw [far]
    omega
  obtain ⟨-, pkt, -⟩ := feed_untouched few'
  obtain ⟨outside, pkt', flag⟩ := feed_untouched few
  rw [List.append_assoc, List.cons_append, split, split]
  refine ⟨outside, pkt'.trans pkt.symm, flag.trans ?_⟩
  exact (pktReady_putBitMac _ _).mpr (.inr ends)

end OnePacket

/-! ### No packet is overwritten -/

section Kept

variable {T : FskTables} {R : Ram} {bus : Nat → Option UInt8} {s : Receiver}

theorem DemodReachable.pllOk (reachable : DemodReachable T R bus s) : s.fsk.PllOk := by
  obtain ⟨astate, mem, run⟩ := reachable
  induction run with
  | refl => exact pllOk_demodInit
  | tail _ step ih =>
      cases step with
      | batch dm_buf clear result =>
          rw [phy_demodulate_eq, FSKdemod_eq] at result
          obtain ⟨rfl, -⟩ := Prod.mk.inj result
          exact (fskAfter_spec T _ dm_buf ih _).1
      | packet ready result => exact ih

theorem samples_eq (dm_buf : Nat → Int32) (k : Nat) :
    s.samples T dm_buf k =
      (fskAfter T s.loop.astate dm_buf s.fsk k,
        feed s.loop.mac (bitsOf T s.loop.astate dm_buf s.fsk k)) :=
  FSKdemod_eq T s.loop.astate putBitMac dm_buf s.fsk k s.loop.mac

/-- Once a packet is flagged, the rest of the batch leaves it alone. -/
theorem samples_kept (ok : s.fsk.PllOk) (clear : s.loop.mac.pktReady = false) (dm_buf : Nat → Int32)
    {j k : Nat} (le : j ≤ k) (hk : k ≤ 256) (ready : (s.samples T dm_buf j).2.pktReady = true) :
    (s.samples T dm_buf k).2.mstate ≠ .packet ∧
      (s.samples T dm_buf k).2.pkt = (s.samples T dm_buf j).2.pkt ∧
      (s.samples T dm_buf k).2.pktReady = true := by
  obtain ⟨d, rfl⟩ := Nat.exists_eq_add_of_le le
  have short := length_bitsOf T s.loop.astate dm_buf ok hk
  obtain ⟨more, append⟩ := bitsOf_add T s.loop.astate dm_buf s.fsk j d
  rw [samples_eq] at ready
  rw [samples_eq, samples_eq, append]
  rw [append] at short
  exact feed_kept clear short ready

theorem flagged_at {p : Nat → Bool} {n : Nat} (first : p 0 = false) (last : p n = true) :
    ∃ j, j < n ∧ p j = false ∧ p (j + 1) = true := by
  induction n with
  | zero => exact absurd (first.symm.trans last) (by simp)
  | succ n ih =>
      cases h : p n with
      | false => exact ⟨n, Nat.lt_succ_self n, h, last⟩
      | true =>
          obtain ⟨j, lt, at_j, next⟩ := ih h
          exact ⟨j, Nat.lt_succ_of_lt lt, at_j, next⟩

/-- No packet is overwritten before it is processed. In every batch of a run of
`demod_loop` the baud clock stays in its range and at most 35 bits are delivered; a
packet that is flagged is not modified and no other one is entered in the rest of
the batch, so `MAC_PACKET` is entered with the flag clear only, and the packet the
batch leaves is the one that was flagged. -/
theorem batch_keeps_packet (reachable : DemodReachable T R bus s)
    (clear : s.loop.mac.pktReady = false) (dm_buf : Nat → Int32) :
    phy_demodulate T s.loop.astate putBitMac dm_buf (s.fsk, s.loop.mac) = s.samples T dm_buf 256 ∧
    (∀ k, k ≤ 256 → 0 ≤ (s.samples T dm_buf k).1.baud_pll.toInt ∧
      (s.samples T dm_buf k).1.baud_pll.toInt < 0x10000) ∧
    (phy_demodulate T s.loop.astate (fun bits bit => bits ++ [bit]) dm_buf (s.fsk, [])).2.length ≤
      35 ∧
    (∀ j k, j ≤ k → k ≤ 256 → (s.samples T dm_buf j).2.pktReady = true →
      (s.samples T dm_buf k).2.mstate ≠ .packet ∧
        (s.samples T dm_buf k).2.pkt = (s.samples T dm_buf j).2.pkt) ∧
    (∀ k, k < 256 → (s.samples T dm_buf k).2.mstate ≠ .packet →
      (s.samples T dm_buf (k + 1)).2.mstate = .packet → (s.samples T dm_buf k).2.pktReady = false) ∧
    ((s.samples T dm_buf 256).2.pktReady = true →
      ∃ j, j < 256 ∧ (s.samples T dm_buf j).2.pktReady = false ∧
        (s.samples T dm_buf (j + 1)).2.pktReady = true ∧
        (s.samples T dm_buf 256).2.pkt = (s.samples T dm_buf (j + 1)).2.pkt) := by
  have ok := reachable.pllOk
  refine ⟨phy_demodulate_eq T s.loop.astate putBitMac dm_buf _, ?_, ?_, ?_, ?_, ?_⟩
  · intro k _
    rw [samples_eq]
    have after := (fskAfter_spec T s.loop.astate dm_buf ok k).1
    exact ⟨after.nonneg, after.lt⟩
  · rw [phy_demodulate_eq]
    exact length_bitsOf T s.loop.astate dm_buf ok (show DMBUF_DEPTH ≤ 256 by decide)
  · intro j k le hk ready
    obtain ⟨outside, pkt, -⟩ := samples_kept ok clear dm_buf le hk ready
    exact ⟨outside, pkt⟩
  · intro k hk _ entered
    cases flag : (s.samples T dm_buf k).2.pktReady with
    | false => rfl
    | true => exact absurd entered (samples_kept ok clear dm_buf (Nat.le_succ k) hk flag).1
  · intro ready
    obtain ⟨j, lt, before, after⟩ :=
      flagged_at (p := fun k => (s.samples T dm_buf k).2.pktReady) (n := 256) clear ready
    exact ⟨j, lt, before, after,
      (samples_kept ok clear dm_buf (Nat.succ_le_of_lt lt) le_rfl after).2.1⟩

end Kept

/-! ### A packet that is received -/

section Level

variable {s t : Fsk}

/-- Tables with which the last sample decides. -/
def levelTables : FskTables where
  filter_lo_i _ := 0
  filter_lo_q _ := 0
  filter_hi_i j := if j = 8 then 16384 else 0
  filter_hi_q _ := 0

/-- The sample for a bit. -/
def level (bit : Bool) : Int32 := if bit then 1000 else 0

/-- The filter buffer in its bounds, and the clock. -/
structure Fsk.Ready (s : Fsk) : Prop where
  clock : s.PllOk
  lo : 9 ≤ s.buf_ptr.toNat
  hi : s.buf_ptr.toNat ≤ 17
  shift : s.shift = 2

theorem ready_demodInit : demodInit.Ready :=
  ⟨pllOk_demodInit, by decide, by decide, by decide⟩

/-- What the counting of a round leaves alone. -/
def Fsk.SameSignal (s t : Fsk) : Prop :=
  s.SameClock t ∧ t.buf_ptr = s.buf_ptr ∧ t.shift = s.shift

theorem Fsk.SameSignal.trans (h : s.SameSignal t) {u : Fsk} (h' : t.SameSignal u) :
    s.SameSignal u :=
  ⟨h.1.trans h'.1, h'.2.1.trans h.2.1, h'.2.2.trans h.2.2⟩

theorem sameSignal_count (s : Fsk) (sum : Int32) : s.SameSignal (s.count sum) := by
  refine ⟨sameClock_count s sum, ?_⟩
  unfold Fsk.count
  split_ifs <;> exact ⟨rfl, rfl⟩

theorem sameSignal_invokeLbr (s : Fsk) : s.SameSignal s.invokeLbr := by
  refine ⟨sameClock_invokeLbr s, ?_⟩
  unfold Fsk.invokeLbr
  split_ifs <;> exact ⟨rfl, rfl⟩

theorem sameSignal_restoreHbr (s : Fsk) (astate : AppState) :
    s.SameSignal (s.restoreHbr astate) := by
  refine ⟨sameClock_restoreHbr s astate, ?_⟩
  simp only [Fsk.restoreHbr]
  split_ifs <;> exact ⟨rfl, rfl⟩

theorem Fsk.Ready.of_same (ready : s.Ready) (same : s.SameSignal t) : t.Ready := by
  obtain ⟨clock, ptr, shift⟩ := same
  exact ⟨ready.clock.of_same clock, ptr ▸ ready.lo, ptr ▸ ready.hi, shift ▸ ready.shift⟩

/-- The sample that is pushed is the last one of the window. -/
theorem Fsk.Ready.push (ready : s.Ready) (x : Int32) :
    (s.push x).Ready ∧ (s.push x).window 8 = x >>> 2 := by
  have lo := ready.lo
  have hi := ready.hi
  have clock := ready.clock.of_same (sameClock_push s x)
  have next : (s.buf_ptr + 1).toNat = s.buf_ptr.toNat + 1 := by
    rw [UInt8.toNat_add, show (1 : UInt8).toNat = 1 from rfl]
    omega
  have shifted : x >>> s.shift.toInt32 = x >>> 2 := by
    rw [ready.shift]
    rfl
  have full : FSK_FILTER_BUF_SIZE = 18 := rfl
  unfold Fsk.push at clock ⊢
  dsimp only at clock ⊢
  rw [next, full] at clock ⊢
  split_ifs at clock ⊢ with last
  · refine ⟨⟨clock, show 9 ≤ (UInt8.ofNat FSK_FILTER_SIZE).toNat by decide,
      show (UInt8.ofNat FSK_FILTER_SIZE).toNat ≤ 17 by decide, ready.shift⟩, ?_⟩
    have at_last : s.buf_ptr.toNat = 17 := by omega
    simp [Fsk.window, FSK_FILTER_SIZE, at_last, shifted]
  · refine ⟨⟨clock, ?_, ?_, ready.shift⟩, ?_⟩
    · change 9 ≤ (s.buf_ptr + 1).toNat
      omega
    · change (s.buf_ptr + 1).toNat ≤ 17
      omega
    · have newest : s.buf_ptr.toNat + 1 - FSK_FILTER_SIZE + 8 = s.buf_ptr.toNat := by
        rw [FSK_FILTER_SIZE]
        omega
      rw [Fsk.window, next, newest]
      exact (Function.update_self _ _ _).trans shifted

/-- The sum is positive at the level of a one only. -/
theorem FSK_core_level {b : Nat → Int32} {bit : Bool} (last : b 8 = level bit >>> 2) :
    decide (0 < FSK_core levelTables b) = bit := by
  have sum : FSK_core levelTables b =
      (((level bit >>> 2) * 16384) >>> 14) * (((level bit >>> 2) * 16384) >>> 14) := by
    simp [FSK_core, corr, levelTables, FSK_FILTER_SIZE, List.range_succ, COS_BITS, last]
  rw [sum]
  cases bit with
  | false => decide
  | true => decide

/-- The clock after a transition, if there is one. -/
theorem pllSync_ready (ready : s.Ready) (bit : Bool) :
    (s.pllSync bit).Ready ∧ (s.pllSync bit).lastsample = bit ∧
      s.baud_pll.toInt - 1748 ≤ (s.pllSync bit).baud_pll.toInt := by
  obtain ⟨clock, near, -⟩ := pllSync_spec ready.clock bit
  refine ⟨?_, ?_, near⟩
  · refine ⟨clock, ?_, ?_, ?_⟩
    all_goals
      unfold Fsk.pllSync
      split_ifs
      all_goals first | exact ready.lo | exact ready.hi | exact ready.shift
  · unfold Fsk.pllSync
    split_ifs with changed low
    · rfl
    · rfl
    · exact not_not.mp changed

theorem pllAdvance_ready (ready : s.Ready) :
    s.pllAdvance.1.Ready ∧ (s.pllAdvance.2 = some s.lastsample ∨
      s.pllAdvance.2 = none ∧ s.pllAdvance.1.baud_pll.toInt = s.baud_pll.toInt + 6994) := by
  obtain ⟨clock, sum⟩ := pllAdvance_spec ready.clock
  unfold Fsk.pllAdvance at clock sum ⊢
  dsimp only at clock sum ⊢
  split_ifs at clock sum ⊢ with due
  · exact ⟨⟨clock, ready.lo, ready.hi, ready.shift⟩, .inl rfl⟩
  · refine ⟨⟨clock, ready.lo, ready.hi, ready.shift⟩, .inr ⟨rfl, ?_⟩⟩
    simpa [bitCount] using sum

/-- A sample at the level of a bit delivers the bit, or brings it nearer. -/
theorem sample_level (ready : s.Ready) (astate : AppState) (bit : Bool) :
    (s.sample levelTables astate (level bit)).1.Ready ∧
      ((s.sample levelTables astate (level bit)).2 = some bit ∨
        (s.sample levelTables astate (level bit)).2 = none ∧
          s.baud_pll.toInt + 5246 ≤
            (s.sample levelTables astate (level bit)).1.baud_pll.toInt) := by
  obtain ⟨pushed, newest⟩ := ready.push (level bit)
  have same := ((sameSignal_count (s.push (level bit))
    (FSK_core levelTables (s.push (level bit)).window)).trans
      (sameSignal_invokeLbr _)).trans (sameSignal_restoreHbr _ astate)
  unfold Fsk.sample
  dsimp only
  rw [FSK_core_level newest]
  generalize ((((s.push (level bit)).count
    (FSK_core levelTables (s.push (level bit)).window)).invokeLbr).restoreHbr astate) = u at same ⊢
  have counted := pushed.of_same same
  have pll : u.baud_pll = s.baud_pll := same.1.2.2.trans (sameClock_push s (level bit)).2.2
  have synced := pllSync_ready counted bit
  have advanced := pllAdvance_ready synced.1
  refine ⟨advanced.1, ?_⟩
  obtain ⟨-, last, nearer⟩ := synced
  rw [last] at advanced
  rw [pll] at nearer
  rcases advanced.2 with due | ⟨none, advance⟩
  · exact .inl due
  · exact .inr ⟨none, by omega⟩

/-- At the level of a bit the clock delivers it. -/
theorem exists_bit (ready : s.Ready) (astate : AppState) (bit : Bool) :
    ∃ (xs : List Int32) (t : Fsk), t.Ready ∧
      xs.foldl (demodSample levelTables astate fun bits bit => bits ++ [bit]) (s, bits) =
        (t, bits ++ [bit]) := by
  induction left : (0x10000 - s.baud_pll.toInt).toNat using Nat.strong_induction_on
    generalizing s with
  | _ left' ih =>
      obtain ⟨ready', delivered | ⟨none, nearer⟩⟩ := sample_level ready astate bit
      · refine ⟨[level bit], _, ready', ?_⟩
        simp [demodSample, deliver, delivered]
      · have below := ready.clock.lt
        obtain ⟨xs, t, after, rest⟩ := ih _ (by omega) ready' rfl
        refine ⟨level bit :: xs, t, after, ?_⟩
        rw [List.foldl_cons, demodSample, none]
        exact rest

/-- Samples for any bits. -/
theorem exists_samples (ready : s.Ready) (astate : AppState) (bits : List Bool) :
    ∃ (xs : List Int32) (t : Fsk), t.Ready ∧
      xs.foldl (demodSample levelTables astate fun bits bit => bits ++ [bit]) (s, []) =
        (t, bits) := by
  induction bits using List.reverseRecOn with
  | nil => exact ⟨[], s, ready, rfl⟩
  | append_singleton bits bit ih =>
      obtain ⟨xs, t, between, first⟩ := ih
      obtain ⟨ys, u, after, rest⟩ := exists_bit between astate bit
      refine ⟨xs ++ ys, u, after, ?_⟩
      rw [List.foldl_append, first, rest]

end Level

section Stream

variable {T : FskTables} {R : Ram} {bus : Nat → Option UInt8} {s : Receiver}

/-- The receiver after a number of samples of a stream. -/
def Receiver.after (T : FskTables) (s : Receiver) (stream : Nat → Int32) (k : Nat) : Receiver :=
  ⟨(s.samples T stream k).1, { s.loop with mac := (s.samples T stream k).2 }⟩

theorem samples_after (stream : Nat → Int32) (m n : Nat) :
    (s.after T stream m).samples T (fun i => stream (m + i)) n = s.samples T stream (m + n) :=
  (FSKdemod_add T s.loop.astate putBitMac stream m n (s.fsk, s.loop.mac)).symm

/-- As long as no packet is flagged, `demod_loop` takes a stream batch by batch. -/
theorem DemodReachable.after (reachable : DemodReachable T R bus s) (stream : Nat → Int32) {n : Nat}
    (clear : ∀ k, k < n → (s.samples T stream (256 * k)).2.pktReady = false) :
    DemodReachable T R bus (s.after T stream (256 * n)) := by
  induction n with
  | zero => exact reachable
  | succ n ih =>
      obtain ⟨astate, mem, run⟩ := ih fun k hk => clear k (by omega)
      refine ⟨astate, mem, run.tail (.batch (fun i => stream (256 * n + i)) ?_ ?_)⟩
      · exact clear n (by omega)
      · rw [phy_demodulate_eq]
        exact samples_after stream (256 * n) 256

/-- The flag goes up with the last bit. -/
theorem received_at {bits : List Bool} {m : Mac} {stream : Nat → Int32} {n k : Nat}
    (quiet : Quietly s.loop.mac bits m)
    (all : bitsOf T s.loop.astate stream s.fsk n = bits) (le : k ≤ n)
    (flagged : (s.samples T stream k).2.pktReady = true) : (s.samples T stream k).2 = m := by
  obtain ⟨d, rfl⟩ := Nat.exists_eq_add_of_le le
  obtain ⟨more, split⟩ := bitsOf_add T s.loop.astate stream s.fsk k d
  rw [samples_eq] at flagged ⊢
  dsimp only at flagged ⊢
  rw [all] at split
  have whole : (bitsOf T s.loop.astate stream s.fsk k).length = bits.length := by
    by_contra shorter
    have less : (bitsOf T s.loop.astate stream s.fsk k).length < bits.length := by
      rw [split, List.length_append] at shorter ⊢
      omega
    have clear := quiet.clear_before less
    rw [split, List.take_left] at clear
    exact absurd (clear.symm.trans flagged) (by simp)
  have nothing : more = [] := by
    rw [split, List.length_append] at whole
    exact List.eq_nil_of_length_eq_zero (by omega)
  rw [nothing, List.append_nil] at split
  rw [← split, quiet.feed_eq]

/-- Every packet can be received. -/
theorem packet_flagged (R : Ram) (bus : Nat → Option UInt8) {bytes : List UInt8}
    (packet : IsPacket bytes) :
    ∃ (s : Receiver) (dm_buf : Nat → Int32), DemodReachable levelTables R bus s ∧
      s.loop.mac.pktReady = false ∧ (s.samples levelTables dm_buf 256).2.pktReady = true ∧
      ∀ i, i < bytes.length → bytes[i]? = some ((s.samples levelTables dm_buf 256).2.pkt i) := by
  let r : Receiver := .initial .idle fun _ => 0xFF
  have start : DemodReachable levelTables R bus r := ⟨_, _, .refl⟩
  obtain ⟨xs, t, -, delivered⟩ := exists_samples ready_demodInit .idle
    (bytesBits ([0, 0, 0, 0, 0xAA, 0x55, 0x42] ++ bytes))
  obtain ⟨m, quiet, received⟩ := quietly_frame packet (s := .initial) rfl rfl
  let stream : Nat → Int32 := fun i => xs.getD i 0
  let flag : Nat → Bool := fun k => (r.samples levelTables stream k).2.pktReady
  have all : bitsOf levelTables .idle stream demodInit xs.length =
      bytesBits ([0, 0, 0, 0, 0xAA, 0x55, 0x42] ++ bytes) := by
    rw [bitsOf, FSKdemod_list _ _ _ stream xs _ fun i hi => by simp [stream, hi], delivered]
  have last : (r.samples levelTables stream xs.length).2 = m := by
    rw [samples_eq]
    exact (congrArg (feed .initial) all).trans quiet.feed_eq
  have flagged : ∃ k, flag k = true := ⟨xs.length, by simp only [flag, last, received.ready]⟩
  have at_first : flag (Nat.find flagged) = true := Nat.find_spec flagged
  have before : ∀ k, k < Nat.find flagged → flag k = false :=
    fun k hk => Bool.eq_false_of_not_eq_true (Nat.find_min flagged hk)
  have le : Nat.find flagged ≤ xs.length :=
    Nat.find_min' flagged (by simp only [flag, last, received.ready])
  have here : (r.samples levelTables stream (Nat.find flagged)).2 = m :=
    received_at quiet all le at_first
  have zero : flag 0 = false := rfl
  generalize Nat.find flagged = K at at_first before le here
  obtain ⟨d, rfl⟩ : ∃ d, K = d + 1 := by
    refine Nat.exists_eq_succ_of_ne_zero ?_
    rintro rfl
    exact absurd (zero.symm.trans at_first) (by simp)
  -- the packet is flagged in the batch after the first `d / 256`
  have reachable : DemodReachable levelTables R bus (r.after levelTables stream (256 * (d / 256))) :=
    start.after stream fun k hk => before _ (by omega)
  have clear : (r.after levelTables stream (256 * (d / 256))).loop.mac.pktReady = false :=
    before _ (by omega)
  refine ⟨_, fun i => stream (256 * (d / 256) + i), reachable, clear, ?_⟩
  have flagged_here : (r.after levelTables stream (256 * (d / 256))).samples levelTables
      (fun i => stream (256 * (d / 256) + i)) (d % 256 + 1) =
        r.samples levelTables stream (d + 1) := by
    rw [samples_after]
    congr 1
    omega
  obtain ⟨-, pkt, ready⟩ := samples_kept reachable.pllOk clear _
    (show d % 256 + 1 ≤ 256 by omega) le_rfl (by rw [flagged_here]; exact at_first)
  refine ⟨ready, fun i hi => ?_⟩
  rw [pkt, flagged_here, here]
  exact received.got i hi

/-- A batch in which a control packet is flagged. -/
theorem sampleBatch_keeps_packet :
    ∃ (s : Receiver) (dm_buf : Nat → Int32),
      DemodReachable levelTables sampleRam (fun _ => none) s ∧ s.loop.mac.pktReady = false ∧
        ∃ j, j < 256 ∧ (s.samples levelTables dm_buf j).2.pktReady = false ∧
          (s.samples levelTables dm_buf (j + 1)).2.pktReady = true ∧
          (s.samples levelTables dm_buf 256).2.pkt = (s.samples levelTables dm_buf (j + 1)).2.pkt := by
  obtain ⟨s, dm_buf, reachable, clear, ready, -⟩ :=
    packet_flagged sampleRam (fun _ => none) samplePacket_isPacket
  obtain ⟨-, -, -, -, -, kept⟩ := batch_keeps_packet reachable clear dm_buf
  exact ⟨s, dm_buf, reachable, clear, kept ready⟩

end Stream

end LtcOs.Demod
