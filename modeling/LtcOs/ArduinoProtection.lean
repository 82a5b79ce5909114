import LtcOs.ArduinoPins
import Mathlib.Data.Set.Function

/-!
Pin protection.

A call keeps the configuration of all pads but the program's own, apart from the two reads:
`digitalRead` sets the mode of a pad before it asks whether the program may use it, and
`analogRead` does not ask.
-/

namespace LtcOs.Arduino

namespace Pins

/-! ### Configurations -/

/-- The multiplexer, the pull and the direction of a pad. -/
def config (s : Pins) (pad : Pad) : BitVec 32 × Bool :=
  (s.pcr pad &&& (PORTx_PCRn_MUX_MASK ||| PORTx_PCRn_PE ||| PORTx_PCRn_PS), s.pddr pad)

/-- The pads of pins 0 to 5 and their alternates. -/
def userPads (board : Board) : List Pad :=
  [(.IOPORT2, 10), (.IOPORT2, 11), (.IOPORT1, 12), (.IOPORT2, 13), (.IOPORT2, 0), (.IOPORT1, 7),
    (.IOPORT1, 8), (.IOPORT1, 9), alternate3 board]

/-- The configuration of all other pads is as before. -/
def Keeps (board : Board) (s s' : Pins) : Prop :=
  Set.EqOn s'.config s.config {pad | pad ∉ userPads board}

/-- The condition under which a call keeps them: a pad that is not the program's is read only
if the read does not set its mode. -/
def Harmless (board : Board) (s : Pins) : PinCall → Prop
  | .digitalRead pin => ∀ pad, pinToPort board pin = some pad → pad ∉ userPads board →
      s.palGetPadMode pad ≠ .INPUT_ANALOG
  | .analogRead pin => ∀ pad, pinToPort board pin = some pad → pad ∉ userPads board →
      s.palGetPadMode pad ∉ [.INPUT, .INPUT_PULLUP, .INPUT_PULLDOWN]
  | _ => True

section Keeps

variable {board : Board} {s s' s'' : Pins}

theorem Keeps.refl (board : Board) (s : Pins) : Keeps board s s := fun _ _ => rfl

theorem Keeps.trans (first : Keeps board s s') (second : Keeps board s' s'') : Keeps board s s'' :=
  Set.EqOn.trans second first

theorem Keeps.symm (keeps : Keeps board s s') : Keeps board s' s := Set.EqOn.symm keeps

/-- The configuration is the two registers. -/
theorem keeps_of_registers (pcr : s'.pcr = s.pcr) (pddr : s'.pddr = s.pddr) : Keeps board s s' := by
  intro pad _
  simp only [config, pcr, pddr]

theorem palSetPadMode_keeps {pad : Pad} (own : pad ∈ userPads board) (mode : PalMode) :
    Keeps board s (s.palSetPadMode pad mode) := by
  intro other foreign
  have differs : other ≠ pad := by
    rintro rfl
    exact foreign own
  simp only [config, palSetPadMode, Function.update_of_ne differs]

theorem alternate3_mem (board : Board) : alternate3 board ∈ userPads board := by
  simp [userPads]

/-- The pins of a program have their own pads. -/
theorem pinToPort_mem {pin : BitVec 32} {pad : Pad}
    (normal : canonicalizePin board pin ∈ normal_mode_pins) (found : pinToPort board pin = some pad) :
    pad ∈ userPads board := by
  unfold pinToPort at found
  simp only [normal_mode_pins, List.mem_cons, List.not_mem_nil, or_false] at normal
  rcases normal with eq | eq | eq | eq | eq | eq
  all_goals
    simp only [eq] at found
    cases found
    simp [userPads]

theorem canonical_of_canUsePin {pin : BitVec 32} (normal : s.sudo_mode = false)
    (can : canUsePin board s pin = true) :
    canonicalizePin board pin ∈ normal_mode_pins := by
  rw [canUsePin, normal, Bool.false_or] at can
  exact of_decide_eq_true can

theorem startLptmr_registers (s : Pins) (pad : Pad) (rate_hz : BitVec 32) :
    (s.startLptmr pad rate_hz).pcr = s.pcr ∧ (s.startLptmr pad rate_hz).pddr = s.pddr := by
  unfold startLptmr
  dsimp only
  split_ifs <;> exact ⟨rfl, rfl⟩

theorem writeLevel_registers (s : Pins) (pin : BitVec 32) (pad : Pad) (value : BitVec 32) :
    (s.writeLevel pin pad value).pcr = s.pcr ∧ (s.writeLevel pin pad value).pddr = s.pddr := by
  unfold writeLevel
  split_ifs <;> exact ⟨rfl, rfl⟩

theorem convert_same (adc : Nat → Option (BitVec 16)) (s : Pins) (pin : BitVec 32) :
    (convert board adc s pin).2 = s := by
  unfold convert
  split <;> rfl

theorem readLevel_same (s : Pins) (pin : BitVec 32) (pad : Pad) :
    (readLevel board s pin pad).2 = s := by
  unfold readLevel
  split_ifs <;> rfl

/-! ### The calls -/

theorem disconnectAlternates_keeps (s : Pins) (pin : BitVec 32) :
    Keeps board s (s.disconnectAlternates board pin) := by
  have disconnect : ∀ (t : Pins) (c : BitVec 32) (pad : Pad), pad ∈ userPads board →
      Keeps board t (if pin = c then t.palSetPadMode pad .UNCONNECTED else t) := by
    intro t c pad own
    split_ifs
    · exact palSetPadMode_keeps own _
    · exact .refl board t
  apply (disconnect s 0 (.IOPORT1, 8) (by simp [userPads])).trans
  apply (disconnect _ 1 (.IOPORT1, 9) (by simp [userPads])).trans
  exact disconnect _ 3 _ (alternate3_mem board)

theorem pinMode_keeps (normal : s.sudo_mode = false) (pin : BitVec 32) (mode : PinMode) :
    Keeps board s (pinMode board s pin mode) := by
  unfold pinMode
  dsimp only
  split
  · exact .refl board s
  · next pad found =>
    split_ifs with can
    · have own := pinToPort_mem (canonical_of_canUsePin normal can) found
      exact (disconnectAlternates_keeps s _).trans (palSetPadMode_keeps own _)
    · exact .refl board s

theorem digitalWrite_keeps (normal : s.sudo_mode = false) (pin value : BitVec 32) :
    Keeps board s (digitalWrite board s pin value) := by
  unfold digitalWrite
  split
  · exact .refl board s
  · next pad found =>
    by_cases can : canUsePin board s pin = true
    · rw [if_pos can]
      have own := pinToPort_mem (canonical_of_canUsePin normal can) found
      have level : ∀ t : Pins, Keeps board t (t.writeLevel pin pad value) := fun t =>
        keeps_of_registers (writeLevel_registers t pin pad value).1
          (writeLevel_registers t pin pad value).2
      split
      · exact palSetPadMode_keeps own _
      · exact palSetPadMode_keeps own _
      · exact palSetPadMode_keeps own _
      · exact (palSetPadMode_keeps own _).trans (level _)
      · exact level s
    · rw [if_neg can]
      exact .refl board s

theorem analogWrite_keeps (pin value : BitVec 32) :
    Keeps board s (analogWrite board s pin value) := by
  unfold analogWrite
  split
  · exact .refl board s
  · next pad found =>
    have own : canonicalizePin board pin ∈ normal_mode_pins → ∀ (t : Pins) mode,
        Keeps board t (t.palSetPadMode pad mode) :=
      fun normal t mode => palSetPadMode_keeps (pinToPort_mem normal found) mode
    have alternate : ∀ pad, pad ∈ userPads board →
        Keeps board s (s.palSetPadMode pad .UNCONNECTED) :=
      fun pad own => palSetPadMode_keeps own _
    dsimp only
    split_ifs with input zero one two three four five
    · exact .refl board s
    · exact (alternate (.IOPORT1, 8) (by simp [userPads])).trans
        (own (by simp [zero, normal_mode_pins]) _ .ALTERNATIVE_2)
    · exact (alternate (.IOPORT1, 9) (by simp [userPads])).trans
        (own (by simp [one, normal_mode_pins]) _ .ALTERNATIVE_2)
    · exact own (by simp [two, normal_mode_pins]) s .ALTERNATIVE_2
    · exact (alternate _ (alternate3_mem board)).trans
        (own (by simp [three, normal_mode_pins]) _ .ALTERNATIVE_2)
    · exact own (by simp [four, normal_mode_pins]) s .OUTPUT_PUSHPULL
    · exact own (by simp [five, normal_mode_pins]) s .OUTPUT_PUSHPULL
    · exact .refl board s

theorem tone_keeps (normal : s.sudo_mode = false) (pin frequency duration : BitVec 32) :
    Keeps board s (tone board s pin frequency duration) := by
  unfold tone
  split
  · exact .refl board s
  · next pad found =>
    have started : canUsePin board s pin = true →
        Keeps board s ((s.palSetPadMode pad .OUTPUT_PUSHPULL).startLptmr pad frequency) := by
      intro can
      have own := pinToPort_mem (canonical_of_canUsePin normal can) found
      have timer := startLptmr_registers (s.palSetPadMode pad .OUTPUT_PUSHPULL) pad frequency
      exact (palSetPadMode_keeps own _).trans (keeps_of_registers timer.1 timer.2)
    split_ifs with high can timed
    · exact .refl board s
    · exact (started can).trans (keeps_of_registers rfl rfl)
    · exact started can
    · exact .refl board s

theorem noTone_keeps (normal : s.sudo_mode = false) (pin : BitVec 32) :
    Keeps board s (noTone board s pin) :=
  (keeps_of_registers rfl rfl).trans (digitalWrite_keeps (s := s.stopLptmr) normal pin 0)

/-! ### Reads -/

theorem mux_of_config {pad : Pad} (same : s'.config pad = s.config pad) :
    s'.pcr pad &&& PORTx_PCRn_MUX_MASK = s.pcr pad &&& PORTx_PCRn_MUX_MASK := by
  have masked : ∀ x : BitVec 32, x &&& PORTx_PCRn_MUX_MASK =
      x &&& (PORTx_PCRn_MUX_MASK ||| PORTx_PCRn_PE ||| PORTx_PCRn_PS) &&& PORTx_PCRn_MUX_MASK := by
    intro x
    rw [BitVec.and_assoc]
    rfl
  have registers : s'.pcr pad &&& (PORTx_PCRn_MUX_MASK ||| PORTx_PCRn_PE ||| PORTx_PCRn_PS) =
      s.pcr pad &&& (PORTx_PCRn_MUX_MASK ||| PORTx_PCRn_PE ||| PORTx_PCRn_PS) :=
        congrArg Prod.fst same
  rw [masked, masked (s.pcr pad), registers]

theorem mux_of_analog {pad : Pad} (analog : s.palGetPadMode pad = .INPUT_ANALOG) :
    s.pcr pad &&& PORTx_PCRn_MUX_MASK = PORTx_PCRn_MUX 0 := by
  by_contra other
  unfold palGetPadMode at analog
  dsimp only at analog
  rw [if_neg other] at analog
  split_ifs at analog

theorem mux_of_input {pad : Pad}
    (input : s.palGetPadMode pad ∈ [.INPUT, .INPUT_PULLUP, .INPUT_PULLDOWN]) :
    s.pcr pad &&& PORTx_PCRn_MUX_MASK = PORTx_PCRn_MUX 1 := by
  by_contra other
  unfold palGetPadMode at input
  dsimp only at input
  rw [if_neg other] at input
  split_ifs at input <;> simp at input

/-- A mode with another multiplexer setting is a change. -/
theorem not_keeps_of_mux {pad : Pad} (foreign : pad ∉ userPads board) {mode : PalMode}
    (other : modePcr mode &&& PORTx_PCRn_MUX_MASK ≠ s.pcr pad &&& PORTx_PCRn_MUX_MASK) :
    ¬ Keeps board s (s.palSetPadMode pad mode) := by
  intro keeps
  apply other
  rw [← mux_of_config (keeps foreign)]
  simp only [palSetPadMode, Function.update_self]

theorem digitalRead_keeps_iff (pin : BitVec 32) :
    Keeps board s (digitalRead board s pin).2 ↔ Harmless board s (.digitalRead pin) := by
  constructor
  · intro keeps pad found foreign analog
    have result : (digitalRead board s pin).2 = s.palSetPadMode pad .INPUT := by
      simp only [digitalRead, found, analog, readLevel_same]
    rw [result] at keeps
    apply not_keeps_of_mux foreign _ keeps
    rw [mux_of_analog analog]
    decide
  · intro harmless
    unfold digitalRead
    split
    · exact .refl board s
    · next pad found =>
      split
      · next analog =>
        rw [readLevel_same]
        by_cases own : pad ∈ userPads board
        · exact palSetPadMode_keeps own _
        · exact absurd analog (harmless pad found own)
      · rw [readLevel_same]
        exact .refl board s
      · rw [readLevel_same]
        exact .refl board s
      · rw [readLevel_same]
        exact .refl board s
      · exact .refl board s

theorem analogRead_keeps_iff (adc : Nat → Option (BitVec 16)) (pin : BitVec 32) :
    Keeps board s (analogRead board adc s pin).2 ↔ Harmless board s (.analogRead pin) := by
  constructor
  · intro keeps pad found foreign input
    have result : (analogRead board adc s pin).2 = s.palSetPadMode pad .INPUT_ANALOG := by
      simp only [List.mem_cons, List.not_mem_nil, or_false] at input
      rcases input with mode | mode | mode <;> simp only [analogRead, found, mode, convert_same]
    rw [result] at keeps
    apply not_keeps_of_mux foreign _ keeps
    rw [mux_of_input input]
    decide
  · intro harmless
    -- the mode is set only on an input
    have set : ∀ pad, pinToPort board pin = some pad →
      s.palGetPadMode pad ∈ [.INPUT, .INPUT_PULLUP, .INPUT_PULLDOWN] →
        Keeps board s (s.palSetPadMode pad .INPUT_ANALOG) := by
      intro pad found input
      by_cases own : pad ∈ userPads board
      · exact palSetPadMode_keeps own _
      · exact absurd input (harmless pad found own)
    unfold analogRead
    split
    · rw [convert_same]
      exact .refl board s
    · next pad found =>
      split
      · next mode =>
        rw [convert_same]
        exact set pad found (by simp [mode])
      · next mode =>
        rw [convert_same]
        exact set pad found (by simp [mode])
      · next mode =>
        rw [convert_same]
        exact set pad found (by simp [mode])
      · rw [convert_same]
        exact .refl board s
      · exact .refl board s

theorem call_keeps_iff (adc : Nat → Option (BitVec 16)) (normal : s.sudo_mode = false) (c : PinCall) :
    Keeps board s (call board adc s c) ↔ Harmless board s c := by
  cases c with
  | pinMode pin mode => exact iff_of_true (pinMode_keeps normal pin mode) trivial
  | digitalWrite pin value => exact iff_of_true (digitalWrite_keeps normal pin value) trivial
  | digitalRead pin => exact digitalRead_keeps_iff pin
  | analogRead pin => exact analogRead_keeps_iff adc pin
  | analogWrite pin value => exact iff_of_true (analogWrite_keeps pin value) trivial
  | tone pin frequency duration =>
      exact iff_of_true (tone_keeps normal pin frequency duration) trivial
  | noTone pin => exact iff_of_true (noTone_keeps normal pin) trivial

/-! ### Protection -/

theorem disconnectAlternates_sudo_mode (s : Pins) (pin : BitVec 32) :
    (s.disconnectAlternates board pin).sudo_mode = s.sudo_mode := by
  unfold disconnectAlternates
  split_ifs <;> rfl

theorem writeLevel_sudo_mode (s : Pins) (pin : BitVec 32) (pad : Pad) (value : BitVec 32) :
    (s.writeLevel pin pad value).sudo_mode = s.sudo_mode := by
  unfold writeLevel
  split_ifs <;> rfl

theorem digitalWrite_sudo_mode (s : Pins) (pin value : BitVec 32) :
    (digitalWrite board s pin value).sudo_mode = s.sudo_mode := by
  unfold digitalWrite
  split
  · rfl
  · by_cases can : canUsePin board s pin = true
    · rw [if_pos can]
      split
      · rfl
      · rfl
      · rfl
      · rw [writeLevel_sudo_mode]
        rfl
      · rw [writeLevel_sudo_mode]
    · rw [if_neg can]

/-- No call gives the program more rights. -/
theorem call_sudo_mode (adc : Nat → Option (BitVec 16)) (s : Pins) (c : PinCall) :
    (call board adc s c).sudo_mode = s.sudo_mode := by
  cases c with
  | pinMode pin mode =>
      simp only [call, pinMode]
      split
      · rfl
      · split_ifs
        · exact disconnectAlternates_sudo_mode s _
        · rfl
  | digitalWrite pin value => exact digitalWrite_sudo_mode s pin value
  | digitalRead pin =>
      simp only [call, digitalRead]
      split
      · rfl
      · next pad _ =>
        have level : ∀ t : Pins, (readLevel board t pin pad).2.sudo_mode = t.sudo_mode :=
          fun t => by rw [readLevel_same]
        split
        · exact level _
        · exact level s
        · exact level s
        · exact level s
        · rfl
  | analogRead pin =>
      have converted : ∀ t : Pins, (convert board adc t pin).2.sudo_mode = t.sudo_mode :=
        fun t => by rw [convert_same]
      simp only [call, analogRead]
      split
      · exact converted s
      · split
        · exact converted _
        · exact converted _
        · exact converted _
        · exact converted s
        · rfl
  | analogWrite pin value =>
      simp only [call, analogWrite]
      split
      · rfl
      · split_ifs <;> rfl
  | tone pin frequency duration =>
      simp only [call, tone, startLptmr]
      split
      · rfl
      · split_ifs <;> rfl
  | noTone pin => exact digitalWrite_sudo_mode s.stopLptmr pin 0

/-- Every call of a sequence is harmless where it is made. -/
def AllHarmless (board : Board) (s : Pins) : List (PinCall × (Nat → Option (BitVec 16))) → Prop
  | [] => True
  | c :: rest => Harmless board s c.1 ∧ AllHarmless board (call board c.2 s c.1) rest

/-- Pin protection. The pads of others are as before at every point of a sequence of calls,
exactly if every call is harmless. -/
theorem pads_protected (board : Board) (s : Pins) (normal : s.sudo_mode = false)
    (list : List (PinCall × (Nat → Option (BitVec 16)))) :
    (∀ pre, pre <+: list → Keeps board s (calls board s pre)) ↔ AllHarmless board s list := by
  induction list generalizing s with
  | nil =>
      apply iff_of_true
      · intro pre nil
        rw [List.prefix_nil.mp nil]
        exact .refl board s
      · trivial
  | cons c rest ih =>
      have step : Keeps board s (call board c.2 s c.1) ↔ Harmless board s c.1 :=
        call_keeps_iff c.2 normal c.1
      have next := ih (call board c.2 s c.1) ((call_sudo_mode c.2 s c.1).trans normal)
      constructor
      · intro keeps
        have first : Keeps board s (call board c.2 s c.1) := keeps [c] (by simp)
        refine ⟨step.mp first, next.mp ?_⟩
        intro pre part
        exact first.symm.trans (keeps (c :: pre) (List.cons_prefix_cons.mpr ⟨rfl, part⟩))
      · rintro ⟨harmless, others⟩ pre part
        cases pre with
        | nil => exact .refl board s
        | cons d pre =>
            obtain ⟨rfl, short⟩ := List.cons_prefix_cons.mp part
            exact (step.mpr harmless).trans (next.mpr others pre short)

end Keeps

/-- All pads unconnected. -/
def sampleUnconnected : Pins where
  pcr := fun _ => 0
  pddr := fun _ => false
  pdor := fun _ => false
  pdir := fun _ => false
  sudo_mode := false
  soft_pwm := fun _ => -1
  soft_pwm_running := false
  pwm := fun _ => { ready := false, enabled := fun _ => false, width := fun _ => 0 }
  analog_read_resolution := 10
  lptmr_enabled := false
  lptmr_running := false
  lptmr_pad := (.IOPORT1, 0)
  lptmr_rate := 0
  tone_timer := none

/-- A pin of the program is set up and read. -/
theorem sampleRead_protected :
    Keeps .PVT1C sampleUnconnected
      (calls .PVT1C sampleUnconnected [(.pinMode 0xa0 .INPUT, fun _ => none), (.digitalRead 0, fun _ => none)]) := by
  apply (pads_protected .PVT1C sampleUnconnected rfl _).mpr _ _ List.prefix_rfl
  refine ⟨trivial, ?_, trivial⟩
  intro pad found foreign
  exact absurd (pinToPort_mem (by decide) found) foreign

/-- Reading the audio input takes it from the converter. -/
theorem digitalRead_unprotected :
    ¬ ∀ (board : Board) (s : Pins) (list : List (PinCall × (Nat → Option (BitVec 16)))),
      s.sudo_mode = false →
      Keeps board s (calls board s list) := by
  intro protects
  have keeps := protects .PVT1C sampleUnconnected [(.digitalRead AUDIO_IN, fun _ => none)] rfl
  have same := @keeps (.IOPORT2, 5) (by decide)
  exact absurd (congrArg Prod.fst same) (by decide)

end Pins

end LtcOs.Arduino
