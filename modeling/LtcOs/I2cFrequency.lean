import LtcOs.Lib.Scan

/-!
The choice of the I2C clock divider (`config_frequency` in `i2c_lld.c` for KINETIS).

The divider is looked up by a scan of the table of all dividers for the least one that is not
below the quotient of the system clock and the requested clock.
-/

namespace LtcOs.I2cFrequency

open LtcOs.Scan

/-! ### The code -/

def KINETIS_SYSCLK_FREQUENCY : Nat := 47972352

structure I2CConfig where
  clock : UInt32
deriving DecidableEq, Repr

/-- The divider that each value of the frequency register stands for. -/
def icr_table : List Nat :=
  [20, 22, 24, 26, 28, 30, 34, 40, 28, 32, 36, 40, 44, 48, 56, 68,
   48, 56, 64, 72, 80, 88, 104, 128, 80, 96, 112, 128, 144, 160, 192, 240,
   160, 192, 224, 256, 288, 320, 384, 480, 320, 384, 448, 512, 576, 640, 768, 960,
   640, 768, 896, 1024, 1152, 1280, 1536, 1920, 1280, 1536, 1792, 2048, 2304, 2560, 3072, 3840]

/-- The clock of the configuration, which may be missing. -/
def requested : Option I2CConfig → Nat
  | some config => config.clock.toNat
  | none => 100000

def quotient (clock : Nat) : Nat := KINETIS_SYSCLK_FREQUENCY / clock

/-- The quotient is cut to a `uint16_t`. -/
def divisor (config : Option I2CConfig) : Nat := quotient (requested config) % 65536

/-- One round of the loop: `best` with its `index`, and the entry at `i`. -/
def round (divisor : Nat) (s : Best Nat) (entry : Nat × Nat) : Best Nat :=
  if entry.1 ≥ divisor then
    let diff := entry.1 - divisor
    if diff < s.key then { key := diff, place := entry.2 } else s
  else s

/-- What is written to the frequency register. -/
def config_frequency (config : Option I2CConfig) : Nat :=
  (icr_table.zipIdx.foldl (round (divisor config)) { key := 0xFFFF, place := 0 }).place

/-! ### What the scan finds -/

theorem config_frequency_eq_scan (config : Option I2CConfig) :
    config_frequency config =
      (scan (fun e => e ≥ divisor config) (fun e => e - divisor config) icr_table
        { key := 0xFFFF, place := 0 }).place := rfl

theorem table_bounds : ∀ e ∈ icr_table, 20 ≤ e ∧ (e ≤ 3072 ∨ e = 3840) := by decide

theorem largest_mem : 3840 ∈ icr_table := by decide

theorem second_largest_mem : 3072 ∈ icr_table := by decide

/-- Where no divider is large enough the index stays zero, and otherwise it is that of the least
one that is. -/
theorem config_frequency_spec (config : Option I2CConfig) :
    3840 < divisor config ∧ icr_table[config_frequency config]? = some 20 ∨
      ∃ d, icr_table[config_frequency config]? = some d ∧ divisor config ≤ d ∧
        ∀ e ∈ icr_table, divisor config ≤ e → d ≤ e := by
  rw [config_frequency_eq_scan]
  rcases scan_spec (fun e => e ≥ divisor config) (fun e => e - divisor config) icr_table
    { key := 0xFFFF, place := 0 } with ⟨eq, above⟩ | ⟨d, -, least⟩
  · have none_admitted : ¬ divisor config ≤ 3840 := fun le => by
      have far : 65535 ≤ 3840 - divisor config := above 3840 largest_mem le
      omega
    rw [eq]
    exact .inl ⟨not_le.mp none_admitted, rfl⟩
  · refine .inr ⟨d, least.entry, least.admitted, fun e mem le => ?_⟩
    have closer : d - divisor config ≤ e - divisor config := least.least e mem le
    have admitted : divisor config ≤ d := least.admitted
    omega

/-! ### What is to be chosen -/

/-- The frequency on the bus, not rounded. -/
def scl (divider : Nat) : ℚ := KINETIS_SYSCLK_FREQUENCY / divider

/-- Of the dividers that make the frequency not higher than the clock this is the least, and
where there are none it is the largest of the table. -/
structure Suits (clock divider : Nat) : Prop where
  slow : (∃ e ∈ icr_table, scl e ≤ clock) → scl divider ≤ clock
  least : ∀ e ∈ icr_table, scl e ≤ clock → divider ≤ e
  largest : (∀ e ∈ icr_table, clock < scl e) → ∀ e ∈ icr_table, e ≤ divider

/-- The register stands for a divider that suits the clock. -/
def Chooses (config : Option I2CConfig) : Prop :=
  ∃ d, icr_table[config_frequency config]? = some d ∧ Suits (requested config) d

section Clock

variable {clock d e : Nat}

/-- Of the quotient itself the remainder decides. -/
theorem scl_le_iff (positive : 0 < clock) (mem : e ∈ icr_table) :
    scl e ≤ clock ↔ quotient clock < e ∨
      quotient clock = e ∧ clock ∣ KINETIS_SYSCLK_FREQUENCY := by
  have pos : 0 < e := by
    have := table_bounds e mem
    omega
  have product : scl e ≤ clock ↔ KINETIS_SYSCLK_FREQUENCY ≤ e * clock := by
    rw [scl, div_le_iff₀ (Nat.cast_pos.mpr pos), mul_comm]
    exact_mod_cast Iff.rfl
  have le := Nat.div_mul_le_self KINETIS_SYSCLK_FREQUENCY clock
  rw [product]
  rcases lt_trichotomy (quotient clock) e with lt | rfl | gt
  · exact iff_of_true ((Nat.div_lt_iff_lt_mul positive).mp lt).le (.inl lt)
  · rw [Nat.dvd_iff_div_mul_eq]
    constructor
    · exact fun ge => .inr ⟨rfl, le_antisymm le ge⟩
    · rintro (lt | ⟨-, eq⟩)
      · exact absurd lt (lt_irrefl _)
      · exact eq.ge
  · have below : e * clock < quotient clock * clock :=
      Nat.mul_lt_mul_of_pos_right gt positive
    refine iff_of_false (below.trans_le le).not_ge ?_
    rintro (lt | ⟨eq, -⟩)
    · exact lt.not_gt gt
    · exact gt.ne' eq

theorem fast_of_le (positive : 0 < clock) (mem : e ∈ icr_table) (le : e ≤ quotient clock)
    (rest : quotient clock = e → ¬ clock ∣ KINETIS_SYSCLK_FREQUENCY) : clock < scl e := by
  refine not_le.mp fun slow => ?_
  rcases (scl_le_iff positive mem).mp slow with lt | ⟨eq, divides⟩
  · exact absurd lt le.not_gt
  · exact rest eq divides

/-- No divider of the table is slow enough for a quotient beyond it. -/
theorem fast_beyond (positive : 0 < clock) (beyond : 3840 < quotient clock) :
    ∀ e ∈ icr_table, clock < scl e := by
  intro e mem
  have := table_bounds e mem
  exact fast_of_le positive mem (by omega) (by omega)

/-- Where there is a slow enough divider, the least of them suits. -/
theorem suits_of_slow (mem : d ∈ icr_table) (slow : scl d ≤ clock)
    (least : ∀ e ∈ icr_table, scl e ≤ clock → d ≤ e) : Suits clock d := by
  constructor
  · exact fun _ => slow
  · exact least
  · exact fun fast => absurd slow (fast d mem).not_ge

/-- Where there is none, only the largest one does. -/
theorem suits_iff_largest (mem : d ∈ icr_table) (fast : ∀ e ∈ icr_table, clock < scl e) :
    Suits clock d ↔ d = 3840 := by
  constructor
  · intro suits
    have large := suits.largest fast 3840 largest_mem
    have := table_bounds d mem
    omega
  · rintro rfl
    constructor
    · rintro ⟨e, mem, slow⟩
      exact absurd slow (fast e mem).not_ge
    · exact fun e mem slow => absurd slow (fast e mem).not_ge
    · intro _ e mem
      have := table_bounds e mem
      omega

/-- A quotient that the table reaches is looked up as it is. -/
theorem suits_reached (positive : 0 < clock) (reached : quotient clock ≤ 3840)
    (mem : d ∈ icr_table) (ge : quotient clock ≤ d)
    (least : ∀ e ∈ icr_table, quotient clock ≤ e → d ≤ e) :
    Suits clock d ↔
      3072 < quotient clock ∨ clock ∣ KINETIS_SYSCLK_FREQUENCY ∨ quotient clock ∉ icr_table := by
  by_cases exact : clock ∣ KINETIS_SYSCLK_FREQUENCY ∨ quotient clock ∉ icr_table
  · refine iff_of_true (suits_of_slow mem ?_ ?_) (.inr exact)
    · rw [scl_le_iff positive mem]
      rcases ge.lt_or_eq with lt | eq
      · exact .inl lt
      · exact .inr ⟨eq, exact.resolve_right fun missing => missing (eq ▸ mem)⟩
    · intro e mem slow
      rcases (scl_le_iff positive mem).mp slow with lt | ⟨eq, -⟩
      · exact least e mem lt.le
      · exact least e mem eq.le
  · -- the quotient is in the table, and its own frequency is above the clock
    obtain ⟨rest, listed⟩ := not_or.mp exact
    rw [not_not] at listed
    obtain rfl : d = quotient clock := le_antisymm (least _ listed le_rfl) ge
    have fast : clock < scl (quotient clock) :=
      fast_of_le positive listed le_rfl fun _ => rest
    by_cases large : 3072 < quotient clock
    · have last : quotient clock = 3840 := by
        have := table_bounds _ listed
        omega
      refine iff_of_true ((suits_iff_largest listed ?_).mpr last) (.inl large)
      intro e mem
      have := table_bounds e mem
      exact fast_of_le positive mem (by omega) fun _ => rest
    · have slower : scl 3840 ≤ clock := (scl_le_iff positive largest_mem).mpr (.inl (by omega))
      refine iff_of_false ?_ (not_or.mpr ⟨large, exact⟩)
      exact fun suits => fast.not_ge (suits.slow ⟨3840, largest_mem, slower⟩)

end Clock

/-- The divider that is chosen suits the requested clock exactly in two cases: the quotient of the
system clock and this clock, cut to 16 bits, is looked up as the largest divider of the table, or
the quotient is less and either there is no remainder or the table does not have it. -/
theorem config_frequency_chooses_iff (config : Option I2CConfig)
    (positive : 0 < requested config) :
    Chooses config ↔
      (3072 < quotient (requested config) % 65536 ∧ quotient (requested config) % 65536 ≤ 3840) ∨
      (quotient (requested config) ≤ 3072 ∧
        (requested config ∣ KINETIS_SYSCLK_FREQUENCY ∨
          quotient (requested config) ∉ icr_table)) := by
  have cut : divisor config = quotient (requested config) % 65536 := rfl
  rw [← cut]
  have chosen : ∀ d, icr_table[config_frequency config]? = some d →
      (Chooses config ↔ Suits (requested config) d) := by
    intro d entry
    constructor
    · rintro ⟨d', entry', suits⟩
      rw [entry] at entry'
      cases entry'
      exact suits
    · exact fun suits => ⟨d, entry, suits⟩
  rcases config_frequency_spec config with ⟨beyond, entry⟩ | ⟨d, entry, ge, least⟩
  · have far : ∀ e ∈ icr_table, requested config < scl e := fast_beyond positive (by omega)
    rw [chosen 20 entry, suits_iff_largest (List.mem_of_getElem? entry) far]
    omega
  · rw [chosen d entry]
    have mem := List.mem_of_getElem? entry
    by_cases reached : quotient (requested config) ≤ 3840
    · have whole : divisor config = quotient (requested config) := by omega
      rw [whole] at ge least
      rw [suits_reached positive reached mem ge least, whole]
      by_cases large : 3072 < quotient (requested config)
      · exact iff_of_true (.inl large) (.inl ⟨large, reached⟩)
      · simp only [large, not_lt.mp large, false_or, false_and, true_and]
    · rw [suits_iff_largest mem (fast_beyond positive (not_le.mp reached))]
      have bounds := table_bounds d mem
      have last := least 3840 largest_mem
      have second := least 3072 second_largest_mem
      omega

/-- Without a configuration the quotient is 479 and the divider 480. -/
theorem config_frequency_default : Chooses none :=
  (config_frequency_chooses_iff none (by decide)).mpr (by decide)

/-- At one hertz the quotient is a multiple of `2^16`, and the fastest divider is chosen. -/
theorem config_frequency_one_hertz : ¬ Chooses (some { clock := 1 }) := by
  rintro ⟨d, entry, suits⟩
  have fast : ∀ e ∈ icr_table, ((1 : Nat) : ℚ) < scl e := fast_beyond (by decide) (by decide)
  have first : icr_table[config_frequency (some { clock := 1 })]? = some 20 := by
    decide +kernel
  rw [first] at entry
  cases entry
  exact absurd (suits.largest fast 3840 largest_mem) (by decide)

end LtcOs.I2cFrequency
