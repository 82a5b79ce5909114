import LtcOs.DemodLoop

/-!
When the demodulator changes the rate of the ADC.

`runcount` counts the zeros of a pilot tone, and reaching `RUN_THRESH` switches to the low
baud rate. Between two resets the count only grows, but ones that are deglitched leave it
where it is: coming right at the threshold they switch again, and again. Apart from those,
and from a count that wraps, there is one switch between two resets.
-/

namespace LtcOs.Demod

open LtcOs.Updater

namespace Fsk

/-- The part of a round that looks at the discriminator and at `astate` only. -/
def rate (s : Fsk) (sum : Int32) (astate : AppState) : Fsk :=
  ((s.count sum).invokeLbr).restoreHbr astate

/-- The same run counting and the same conversions. -/
structure SameRate (s t : Fsk) : Prop where
  runcount : t.runcount = s.runcount
  holdover : t.holdover = s.holdover
  lbr_time : t.lbr_time = s.lbr_time
  conversions : t.conversions = s.conversions

/-- The low baud rate is invoked. -/
def Switches (s : Fsk) (sum : Int32) : Prop := (s.count sum).runcount = RUN_THRESH

/-- A one ends the run: it comes before the threshold, or after too many others. -/
def EndsRun (s : Fsk) (sum : Int32) : Prop :=
  ¬ sum < 0 ∧ (s.runcount < RUN_THRESH ∨ s.holdover > HOLDOVER_THRESH)

/-- The time in the low baud rate is over. -/
def TimesOut (s : Fsk) (sum : Int32) (astate : AppState) : Prop :=
  astate = .idle ∧
    let s := (s.count sum).invokeLbr
    LBR_HOLDOUT < if s.lbr_time > 0 then s.lbr_time + 1 else s.lbr_time

/-- The two places where `runcount` is reset to zero. -/
def Resets (s : Fsk) (sum : Int32) (astate : AppState) : Prop :=
  s.EndsRun sum ∨ s.TimesOut sum astate

/-- A one is deglitched right at the threshold. -/
def GlitchAtThreshold (s : Fsk) (sum : Int32) : Prop :=
  ¬ sum < 0 ∧ s.runcount = RUN_THRESH ∧ ¬ s.holdover > HOLDOVER_THRESH

/-- One more zero than the counter holds. -/
def Wraps (s : Fsk) (sum : Int32) : Prop := sum < 0 ∧ s.runcount = 0xFFFFFFFF

end Fsk

/-! ### One round -/

section Round

variable {s t : Fsk} {sum : Int32} {astate : AppState}

theorem sameRate_push (s : Fsk) (x : Int32) : s.SameRate (s.push x) := by
  simp only [Fsk.push]
  split_ifs <;> exact ⟨rfl, rfl, rfl, rfl⟩

theorem sameRate_pllSync (s : Fsk) (newsample : Bool) : s.SameRate (s.pllSync newsample) := by
  unfold Fsk.pllSync
  split_ifs <;> exact ⟨rfl, rfl, rfl, rfl⟩

theorem sameRate_pllAdvance (s : Fsk) : s.SameRate s.pllAdvance.1 := by
  simp only [Fsk.pllAdvance]
  split_ifs <;> exact ⟨rfl, rfl, rfl, rfl⟩

theorem Fsk.SameRate.trans {u : Fsk} (h : s.SameRate t) (h' : t.SameRate u) : s.SameRate u :=
  ⟨h'.runcount.trans h.runcount, h'.holdover.trans h.holdover, h'.lbr_time.trans h.lbr_time,
    h'.conversions.trans h.conversions⟩

theorem Fsk.SameRate.count (h : s.SameRate t) : (s.count sum).SameRate (t.count sum) := by
  obtain ⟨runcount, holdover, lbr_time, conversions⟩ := h
  unfold Fsk.count
  rw [runcount, holdover]
  split_ifs <;> exact ⟨rfl, rfl, lbr_time, conversions⟩

theorem Fsk.SameRate.invokeLbr (h : s.SameRate t) : s.invokeLbr.SameRate t.invokeLbr := by
  obtain ⟨runcount, holdover, lbr_time, conversions⟩ := h
  unfold Fsk.invokeLbr
  rw [runcount]
  split_ifs <;> constructor <;> simp [runcount, holdover, lbr_time, conversions]

theorem Fsk.SameRate.restoreHbr (h : s.SameRate t) :
    (s.restoreHbr astate).SameRate (t.restoreHbr astate) := by
  obtain ⟨runcount, holdover, lbr_time, conversions⟩ := h
  simp only [Fsk.restoreHbr]
  rw [lbr_time]
  split_ifs <;> constructor <;> simp_all

/-- A round of `FSKdemod` counts as `rate` does on its discriminator value. -/
theorem sample_rate (T : FskTables) (astate : AppState) (s : Fsk) (x : Int32) :
    (s.rate (FSK_core T (s.push x).window) astate).SameRate (s.sample T astate x).1 := by
  have counted : (s.rate (FSK_core T (s.push x).window) astate).SameRate
      ((s.push x).rate (FSK_core T (s.push x).window) astate) :=
    (sameRate_push s x).count.invokeLbr.restoreHbr
  exact (counted.trans (sameRate_pllSync _ _)).trans (sameRate_pllAdvance _)

/-- What counting does. -/
theorem count_cases (s : Fsk) (sum : Int32) :
    (sum < 0 ∧ (s.count sum).runcount = s.runcount + 1) ∨
    (s.EndsRun sum ∧ (s.count sum).runcount = 0) ∨
    (¬ sum < 0 ∧ ¬ s.EndsRun sum ∧ (s.count sum).runcount = s.runcount) := by
  unfold Fsk.count Fsk.EndsRun
  split_ifs with zero early late
  · exact .inl ⟨zero, rfl⟩
  · exact .inr (.inl ⟨⟨zero, .inl early⟩, rfl⟩)
  · exact .inr (.inl ⟨⟨zero, .inr late⟩, rfl⟩)
  · refine .inr (.inr ⟨zero, ?_, rfl⟩)
    rintro ⟨-, h⟩
    exact h.elim early late

theorem count_time (s : Fsk) (sum : Int32) :
    (s.count sum).lbr_time = s.lbr_time ∧ (s.count sum).conversions = s.conversions := by
  unfold Fsk.count
  split_ifs <;> exact ⟨rfl, rfl⟩

theorem invokeLbr_runcount (s : Fsk) : s.invokeLbr.runcount = s.runcount := by
  unfold Fsk.invokeLbr
  split_ifs <;> rfl

theorem invokeLbr_of_switches (switches : s.Switches sum) :
    (s.count sum).invokeLbr.lbr_time = 1 ∧
      (s.count sum).invokeLbr.conversions = s.conversions ++ [.lbr] := by
  have invoked : (s.count sum).invokeLbr = { s.count sum with
      lbr_time := 1
      conversions := (s.count sum).conversions ++ [.lbr] } := if_pos switches
  rw [invoked, (count_time s sum).2]
  exact ⟨rfl, rfl⟩

theorem invokeLbr_of_not (other : ¬ s.Switches sum) :
    (s.count sum).invokeLbr.lbr_time = s.lbr_time ∧
      (s.count sum).invokeLbr.conversions = s.conversions := by
  have invoked : (s.count sum).invokeLbr = s.count sum := if_neg other
  rw [invoked]
  exact count_time s sum

/-- After a timeout the high baud rate is restored. -/
theorem rate_of_timesOut (timeout : s.TimesOut sum astate) :
    (s.rate sum astate).runcount = 0 ∧ (s.rate sum astate).lbr_time = 0 ∧
      (s.rate sum astate).conversions = (s.count sum).invokeLbr.conversions ++ [.hbr] := by
  obtain ⟨rfl, late⟩ := timeout
  simp only [Fsk.rate, Fsk.restoreHbr]
  split_ifs <;> simp_all

theorem rate_of_not (still : ¬ s.TimesOut sum astate) :
    (s.rate sum astate).runcount = (s.count sum).runcount ∧
      (s.rate sum astate).lbr_time =
        (if astate = .idle ∧ (s.count sum).invokeLbr.lbr_time > 0 then
          (s.count sum).invokeLbr.lbr_time + 1 else (s.count sum).invokeLbr.lbr_time) ∧
      (s.rate sum astate).conversions = (s.count sum).invokeLbr.conversions := by
  rw [← invokeLbr_runcount (s.count sum)]
  simp only [Fsk.rate, Fsk.restoreHbr, Fsk.TimesOut] at still ⊢
  split_ifs <;> simp_all

theorem not_timesOut_of_switches (switches : s.Switches sum) : ¬ s.TimesOut sum astate := by
  rintro ⟨-, late⟩
  simp only [(invokeLbr_of_switches switches).1] at late
  exact absurd late (by decide)

end Round

/-! ### Runs -/

/-- A run of `FSKdemod`, call after call: the states before each sample, the discriminator
values, and what `astate` is at each. -/
structure Run where
  state : Nat → Fsk
  sum : Nat → Int32
  astate : Nat → AppState
  start : demodInit.SameRate (state 0)
  next : ∀ n, ((state n).rate (sum n) (astate n)).SameRate (state (n + 1))

/-- The states of the demodulator on a sequence of samples. -/
def demodStates (T : FskTables) (samples : Nat → Int32) (astate : Nat → AppState) : Nat → Fsk
  | 0 => demodInit
  | n + 1 => ((demodStates T samples astate n).sample T (astate n) (samples n)).1

namespace Run

/-- The run on a sequence of samples. -/
def ofSamples (T : FskTables) (samples : Nat → Int32) (astate : Nat → AppState) : Run where
  state := demodStates T samples astate
  sum n := FSK_core T ((demodStates T samples astate n).push (samples n)).window
  astate := astate
  start := ⟨rfl, rfl, rfl, rfl⟩
  next n := sample_rate T (astate n) (demodStates T samples astate n) (samples n)

/-- The run on a sequence of discriminator values. -/
def ofValues (sum : Nat → Int32) (astate : Nat → AppState) : Run where
  state n := (List.range n).foldl (fun s k => s.rate (sum k) (astate k)) demodInit
  sum := sum
  astate := astate
  start := ⟨rfl, rfl, rfl, rfl⟩
  next n := by
    rw [List.range_succ, List.foldl_append]
    exact ⟨rfl, rfl, rfl, rfl⟩

variable (r : Run)

/-- The low baud rate is invoked at sample `n`. -/
def Switches (n : Nat) : Prop := (r.state n).Switches (r.sum n)

/-- `runcount` is reset at sample `n`. -/
def Resets (n : Nat) : Prop := (r.state n).Resets (r.sum n) (r.astate n)

/-- Between two resets the low baud rate is invoked at most once. -/
def OncePerPreamble : Prop :=
  ∀ i j, i < j → r.Switches i → r.Switches j → ∃ k, i < k ∧ k < j ∧ r.Resets k

/-- From the switch to the next reset `lbr_time` does not go back. -/
def TimeGoesOn : Prop :=
  ∀ i k, i < k → r.Switches i → (∀ j, i < j → j ≤ k → ¬ r.Resets j) →
    0 < (r.state k).lbr_time ∧ (r.state k).lbr_time ≤ (r.state (k + 1)).lbr_time

/-- No one is deglitched right at the threshold, and the count does not wrap. -/
def Clean : Prop :=
  ∀ n, ¬ (r.state n).GlitchAtThreshold (r.sum n) ∧ ¬ (r.state n).Wraps (r.sum n)

end Run

/-- Within one value of `astate` these are the states that `FSKdemod` goes through. -/
theorem demodStates_eq (T : FskTables) (samples : Nat → Int32) (astate : AppState) (n : Nat) :
    demodStates T samples (fun _ => astate) n = fskAfter T astate samples demodInit n := by
  induction n with
  | zero => rfl
  | succ n ih => rw [demodStates, ih, fskAfter_succ]

section Once

variable {s : Fsk} {sum : Int32} {r : Run}

/-- A switch is the start of a conversion with `adcgrplbr`. -/
theorem switches_iff_starts (r : Run) (n : Nat) :
    r.Switches n ↔ (r.state (n + 1)).conversions = (r.state n).conversions ++ [.lbr] := by
  rw [(r.next n).conversions]
  constructor
  · intro switches
    rw [(rate_of_not (not_timesOut_of_switches switches)).2.2]
    exact (invokeLbr_of_switches switches).2
  · intro starts
    by_contra other
    by_cases timeout : (r.state n).TimesOut (r.sum n) (r.astate n)
    · rw [(rate_of_timesOut timeout).2.2, (invokeLbr_of_not other).2] at starts
      exact absurd (List.append_cancel_left starts) (by simp)
    · rw [(rate_of_not timeout).2.2, (invokeLbr_of_not other).2] at starts
      exact absurd starts.symm (by simp)

theorem toNat_succ {x : UInt32} (h : x ≠ 0xFFFFFFFF) : (x + 1).toNat = x.toNat + 1 := by
  have lt := x.toNat_lt
  have ne : x.toNat ≠ 4294967295 := fun eq => h (UInt32.toNat_inj.mp eq)
  rw [UInt32.toNat_add]
  change (x.toNat + 1) % 4294967296 = _
  omega

/-- Over the threshold the count is over it after the next sample as well, or it was
reset. -/
theorem count_above (above : Fsk.RUN_THRESH ≤ s.runcount) (glitch : ¬ s.GlitchAtThreshold sum)
    (wrap : ¬ s.Wraps sum) :
    s.EndsRun sum ∧ (s.count sum).runcount = 0 ∨ Fsk.RUN_THRESH < (s.count sum).runcount := by
  rcases count_cases s sum with ⟨zero, count⟩ | ends | ⟨one, going, count⟩
  · right
    have more := toNat_succ fun full => wrap ⟨zero, full⟩
    have above := UInt32.le_iff_toNat_le.mp above
    rw [count]
    apply UInt32.lt_iff_toNat_lt.mpr
    omega
  · exact .inl ends
  · right
    rw [count]
    have held : ¬ s.holdover > Fsk.HOLDOVER_THRESH := fun late => going ⟨one, .inr late⟩
    exact UInt32.lt_of_le_of_ne above fun eq => glitch ⟨one, eq.symm, held⟩

theorem runcount_next_of_switches {n : Nat} (switches : r.Switches n) :
    (r.state (n + 1)).runcount = Fsk.RUN_THRESH := by
  rw [(r.next n).runcount, (rate_of_not (not_timesOut_of_switches switches)).1]
  exact switches

/-- From a switch to the next reset the count is over the threshold. -/
theorem above_after (clean : r.Clean) {i : Nat} (switches : r.Switches i) (d : Nat)
    (going : ∀ j, i < j → j < i + 1 + d → ¬ r.Resets j) :
    Fsk.RUN_THRESH ≤ (r.state (i + 1 + d)).runcount := by
  induction d with
  | zero =>
      rw [Nat.add_zero, runcount_next_of_switches switches]
      exact UInt32.le_refl _
  | succ d ih =>
      have above := ih fun j lo hi => going j lo (by omega)
      have still : ¬ r.Resets (i + 1 + d) := going _ (by omega) (by omega)
      obtain ⟨glitch, wrap⟩ := clean (i + 1 + d)
      have next := (rate_of_not fun timeout => still (.inr timeout)).1
      rw [← Nat.add_assoc, (r.next _).runcount, next]
      rcases count_above above glitch wrap with ⟨ends, -⟩ | over_thresh
      · exact absurd (.inl ends) still
      · exact UInt32.le_of_lt over_thresh

theorem once_of_clean (clean : r.Clean) : r.OncePerPreamble := by
  intro i j lt switches again
  by_contra none
  obtain ⟨d, rfl⟩ := Nat.exists_eq_add_of_le (Nat.succ_le_of_lt lt)
  have above := above_after clean switches d fun k lo hi resets => none ⟨k, lo, hi, resets⟩
  obtain ⟨glitch, wrap⟩ := clean (i + 1 + d)
  have again : ((r.state (i + 1 + d)).count (r.sum (i + 1 + d))).runcount = Fsk.RUN_THRESH := again
  rcases count_above above glitch wrap with ⟨-, zero⟩ | above
  · exact absurd (zero.symm.trans again) (by decide)
  · exact absurd again (UInt32.ne_of_lt above).symm

/-- A one that is deglitched at the threshold comes right after a switch, and is the next. -/
theorem not_glitch_of_once (once : r.OncePerPreamble) (n : Nat) :
    ¬ (r.state n).GlitchAtThreshold (r.sum n) := by
  rintro ⟨one, full, held⟩
  cases n with
  | zero =>
      rw [r.start.runcount] at full
      exact absurd full (by decide)
  | succ n =>
      have first : r.Switches n := by
        rw [(r.next n).runcount] at full
        by_cases timeout : (r.state n).TimesOut (r.sum n) (r.astate n)
        · rw [(rate_of_timesOut timeout).1] at full
          exact absurd full (by decide)
        · rwa [(rate_of_not timeout).1] at full
      have second : r.Switches (n + 1) := by
        rcases count_cases (r.state (n + 1)) (r.sum (n + 1)) with ⟨zero, -⟩ | ⟨ends, -⟩ | ⟨-, -, same⟩
        · exact absurd zero one
        · rcases ends.2 with early | late
          · rw [full] at early
            exact absurd early (by decide)
          · exact absurd late held
        · exact same.trans full
      obtain ⟨k, lo, hi, -⟩ := once n (n + 1) (Nat.lt_succ_self n) first second
      omega

/-- A timeout comes before the time in the low baud rate is large. -/
theorem lbr_time_le (r : Run) (n : Nat) : (r.state n).lbr_time ≤ Fsk.LBR_HOLDOUT := by
  induction n with
  | zero =>
      rw [r.start.lbr_time]
      decide
  | succ n ih =>
      rw [(r.next n).lbr_time]
      by_cases timeout : (r.state n).TimesOut (r.sum n) (r.astate n)
      · rw [(rate_of_timesOut timeout).2.1]
        decide
      rw [(rate_of_not timeout).2.1]
      split_ifs with counts
      · by_contra late
        refine timeout ⟨counts.1, ?_⟩
        dsimp only
        rw [if_pos counts.2]
        exact UInt32.not_le.mp late
      · by_cases switches : r.Switches n
        · rw [(invokeLbr_of_switches switches).1]
          decide
        · rw [(invokeLbr_of_not switches).1]
          exact ih

/-- A sample that neither switches nor resets leaves `lbr_time` or counts it up. -/
theorem lbr_time_next {n : Nat} (other : ¬ r.Switches n) (going : ¬ r.Resets n) :
    (r.state n).lbr_time ≤ (r.state (n + 1)).lbr_time := by
  rw [(r.next n).lbr_time, (rate_of_not fun timeout => going (.inr timeout)).2.1,
    (invokeLbr_of_not other).1]
  split_ifs
  · have small := UInt32.le_iff_toNat_le.mp (lbr_time_le r n)
    have holdout : Fsk.LBR_HOLDOUT.toNat = 48000 := rfl
    have more : ((r.state n).lbr_time + 1).toNat = (r.state n).lbr_time.toNat + 1 := by
      apply toNat_succ
      intro full
      rw [full] at small
      exact absurd small (by decide)
    apply UInt32.le_iff_toNat_le.mpr
    omega
  · exact UInt32.le_refl _

theorem lbr_time_pos_of_switches {n : Nat} (switches : r.Switches n) :
    0 < (r.state (n + 1)).lbr_time := by
  rw [(r.next n).lbr_time, (rate_of_not (not_timesOut_of_switches switches)).2.1,
    (invokeLbr_of_switches switches).1]
  split_ifs <;> decide

theorem timeGoesOn_of_once (once : r.OncePerPreamble) : r.TimeGoesOn := by
  intro i k lt switches going
  have alone : ∀ j, i < j → j ≤ k → ¬ r.Switches j := by
    intro j lo hi again
    obtain ⟨l, after, before, resets⟩ := once i j lo switches again
    exact going l after (by omega) resets
  have positive : ∀ d, i + 1 + d ≤ k → 0 < (r.state (i + 1 + d)).lbr_time := by
    intro d
    induction d with
    | zero => exact fun _ => lbr_time_pos_of_switches switches
    | succ d ih =>
        intro hi
        have next := lbr_time_next (alone (i + 1 + d) (by omega) (by omega))
          (going (i + 1 + d) (by omega) (by omega))
        exact UInt32.lt_of_lt_of_le (ih (by omega)) next
  obtain ⟨d, rfl⟩ := Nat.exists_eq_add_of_le (Nat.succ_le_of_lt lt)
  exact ⟨positive d le_rfl, lbr_time_next (alone _ lt le_rfl) (going _ lt le_rfl)⟩

/-- In a run in which no one is deglitched right at the threshold and the count does not
wrap, the low baud rate is invoked at most once between two resets, and its time is not set
back. Every one that is deglitched at the threshold invokes it a second time. -/
theorem lbr_once_per_preamble (r : Run) :
    (r.Clean → r.OncePerPreamble ∧ r.TimeGoesOn) ∧
      (r.OncePerPreamble → ∀ n, ¬ (r.state n).GlitchAtThreshold (r.sum n)) := by
  constructor
  · intro clean
    have once := once_of_clean clean
    exact ⟨once, timeGoesOn_of_once once⟩
  · exact not_glitch_of_once

end Once

/-! ### A pilot tone -/

/-- Zeros up to sample `n`, then ones. -/
def pilotTone (n : Nat) : Run :=
  .ofValues (fun k => if k < n then -1 else 0) fun _ => .updating

theorem pilotTone_sum (n k : Nat) : (pilotTone n).sum k = if k < n then -1 else 0 := rfl

theorem pilotTone_next {n k : Nat} : (pilotTone n).state (k + 1) =
    ((pilotTone n).state k).rate ((pilotTone n).sum k) .updating := by
  change (List.range (k + 1)).foldl _ _ = _
  rw [List.range_succ, List.foldl_append]
  rfl

theorem rate_updating (s : Fsk) (sum : Int32) :
    (s.rate sum .updating).runcount = (s.count sum).runcount ∧
      (s.rate sum .updating).holdover = (s.count sum).holdover := by
  have kept : s.rate sum .updating = (s.count sum).invokeLbr := by
    unfold Fsk.rate Fsk.restoreHbr
    exact if_neg (by simp)
  rw [kept]
  unfold Fsk.invokeLbr
  split_ifs <;> exact ⟨rfl, rfl⟩

/-- While the tone lasts the zeros are counted. -/
theorem pilotTone_counts {n k : Nat} (small : n < 4294967296) (le : k ≤ n) :
    ((pilotTone n).state k).runcount.toNat = k ∧ ((pilotTone n).state k).holdover = 0 := by
  induction k with
  | zero => exact ⟨rfl, rfl⟩
  | succ k ih =>
      obtain ⟨count, held⟩ := ih (by omega)
      have zero : (pilotTone n).sum k = -1 := (pilotTone_sum _ _).trans (if_pos (by omega))
      obtain ⟨runcount, holdover⟩ := rate_updating ((pilotTone n).state k) (-1)
      rw [pilotTone_next, zero, runcount, holdover]
      have counted : ((pilotTone n).state k).count (-1) =
          { (pilotTone n).state k with runcount := ((pilotTone n).state k).runcount + 1 } :=
        if_pos (by decide)
      rw [counted]
      refine ⟨(toNat_succ fun full => ?_).trans (by rw [count]), held⟩
      rw [full] at count
      have : (0xFFFFFFFF : UInt32).toNat = 4294967295 := rfl
      omega

/-- Once it has passed the threshold by one, the ones behind it keep or reset the count. -/
theorem pilotTone_ends {k : Nat} (le : 1501 ≤ k) :
    ((pilotTone 1501).state k).runcount = 1501 ∨ ((pilotTone 1501).state k).runcount = 0 := by
  induction k, le using Nat.le_induction with
  | base => exact .inl (UInt32.toNat_inj.mp (pilotTone_counts (by omega) le_rfl).1)
  | succ k le ih =>
      have one : (pilotTone 1501).sum k = 0 := (pilotTone_sum _ _).trans (if_neg (by omega))
      rw [pilotTone_next, one, (rate_updating _ _).1]
      rcases count_cases ((pilotTone 1501).state k) 0 with ⟨zero, -⟩ | ⟨-, reset⟩ | ⟨-, -, same⟩
      · exact absurd zero (by decide)
      · exact .inr reset
      · rwa [same]

/-- A tone of 1501 zeros switches, and no more than once. -/
theorem pilotTone_switches_once :
    (pilotTone 1501).Clean ∧ (pilotTone 1501).Switches 1499 ∧
      (pilotTone 1501).OncePerPreamble := by
  have clean : (pilotTone 1501).Clean := by
    intro k
    by_cases early : k < 1501
    · have count := (pilotTone_counts (n := 1501) (by omega) early.le).1
      have zero : (pilotTone 1501).sum k = -1 := (pilotTone_sum _ _).trans (if_pos early)
      refine ⟨fun glitch => glitch.1 (by rw [zero]; decide), fun wraps => ?_⟩
      rw [wraps.2] at count
      have : (0xFFFFFFFF : UInt32).toNat = 4294967295 := rfl
      omega
    · have one : (pilotTone 1501).sum k = 0 := (pilotTone_sum _ _).trans (if_neg early)
      refine ⟨fun glitch => ?_, fun wraps => absurd (one ▸ wraps.1) (by decide)⟩
      have full := glitch.2.1
      rcases pilotTone_ends (Nat.le_of_not_lt early) with count | count
      · exact absurd (count.symm.trans full) (by decide)
      · exact absurd (count.symm.trans full) (by decide)
  have switches : (pilotTone 1501).Switches 1499 := by
    have count := (pilotTone_counts (n := 1501) (k := 1500) (by omega) (by omega)).1
    rw [pilotTone_next, (rate_updating _ _).1] at count
    exact UInt32.toNat_inj.mp count
  exact ⟨clean, switches, ((lbr_once_per_preamble _).1 clean).1⟩

/-- A tone of 1500 zeros with a one behind it switches twice. -/
theorem pilotTone_switches_twice : ¬ (pilotTone 1500).OncePerPreamble := by
  intro once
  obtain ⟨count, held⟩ := pilotTone_counts (n := 1500) (k := 1500) (by omega) le_rfl
  have full : ((pilotTone 1500).state 1500).runcount = Fsk.RUN_THRESH := UInt32.toNat_inj.mp count
  have one : (pilotTone 1500).sum 1500 = 0 := (pilotTone_sum _ _).trans (if_neg (by omega))
  apply not_glitch_of_once once 1500
  refine ⟨by rw [one]; decide, full, ?_⟩
  rw [held]
  decide

end LtcOs.Demod
