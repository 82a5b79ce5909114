import LtcOs.ArduinoAliases

/-!
The soft PWM of pins 4 and 5 (`softPwmTick` in `arduino-pwm.c`).

Both channels count the same counter down from `SOFT_PWM_CYCLE`. A tick sets the pad of a channel
when the counter is at its threshold, and the tick that reloads the counter clears both pads. A
program may have a hook called in every tick; what it does to the pins is left open.
-/

namespace LtcOs.Arduino

/-- The pins, with the variables of the soft PWM that only its own functions know. -/
structure SoftPwm where
  pins : Pins
  soft_pwm_counter : BitVec 16
  soft_pwm_hook : Option (Pins → Pins)

namespace SoftPwm

open Pins

/-! ### The code -/

/-- The counter is at the threshold of a channel. -/
def Reached (s : SoftPwm) (i : Fin 2) : Prop := (s.soft_pwm_counter.toNat : Int) = s.pins.soft_pwm i

instance (s : SoftPwm) (i : Fin 2) : Decidable (s.Reached i) := inferInstanceAs (Decidable (_ = _))

/-- Both timers are stopped, and there is no hook. -/
def Stopped (s : SoftPwm) : Prop :=
  s.pins.soft_pwm 0 = -1 ∧ s.pins.soft_pwm 1 = -1 ∧ s.soft_pwm_hook.isNone = true

instance (s : SoftPwm) : Decidable s.Stopped := inferInstanceAs (Decidable (_ ∧ _))

/-- `softPwmTick` up to the hook. -/
def countDown (s : SoftPwm) : SoftPwm :=
  let pins := if s.Reached 0 then s.pins.palWritePad (.IOPORT2, 0) true else s.pins
  let pins := if s.Reached 1 then pins.palWritePad (.IOPORT1, 7) true else pins
  let counter := s.soft_pwm_counter - 1
  if counter = 0 then
    { s with
      soft_pwm_counter := BitVec.ofInt 16 SOFT_PWM_CYCLE
      pins := (pins.palWritePad (.IOPORT1, 7) false).palWritePad (.IOPORT2, 0) false }
  else { s with soft_pwm_counter := counter, pins := pins }

/-- If both timers are stopped, the tick unhooks itself. -/
def softPwmTick (s : SoftPwm) : SoftPwm :=
  if s.Stopped then { s with pins := { s.pins with soft_pwm_running := false } }
  else
    let s := s.countDown
    { s with pins := (s.soft_pwm_hook.getD id) s.pins }

/-- If there is a hook, the timer is started. -/
def hookSoftPwm (s : SoftPwm) (hook : Option (Pins → Pins)) : SoftPwm :=
  { s with
    soft_pwm_hook := hook
    pins := { s.pins with soft_pwm_running := s.pins.soft_pwm_running || hook.isSome } }

/-! ### Runs -/

inductive PwmStep where
  | analogWrite (pin value : BitVec 32)
  | digitalWrite (pin value : BitVec 32)
  | hookSoftPwm (hook : Option (Pins → Pins))
  | softPwmTick

def step (board : Board) (s : SoftPwm) : PwmStep → SoftPwm
  | .analogWrite pin value => { s with pins := Pins.analogWrite board s.pins pin value }
  | .digitalWrite pin value => { s with pins := Pins.digitalWrite board s.pins pin value }
  | .hookSoftPwm hook => s.hookSoftPwm hook
  | .softPwmTick => s.softPwmTick

def run (board : Board) (s : SoftPwm) (steps : List PwmStep) : SoftPwm := steps.foldl (step board) s

/-- The level of a channel's pad. -/
def level (s : SoftPwm) (i : Fin 2) : Bool := s.pins.pdor (channelPad i)

/-- A write to the pad of a channel, by whatever number. -/
def PwmStep.Writes (board : Board) (i : Fin 2) : PwmStep → Prop
  | .analogWrite pin _ => pinToPort board pin = some (channelPad i)
  | .digitalWrite pin _ => pinToPort board pin = some (channelPad i)
  | _ => False

/-- A hook that leaves a channel alone. -/
def Spares (i : Fin 2) (hook : Option (Pins → Pins)) : Prop :=
  ∀ h, hook = some h → ∀ s : Pins, (h s).pdor (channelPad i) = s.pdor (channelPad i) ∧
    (h s).soft_pwm i = s.soft_pwm i

/-- Neither the program nor a hook has to do with the channel. -/
def PwmStep.Elsewhere (board : Board) (i : Fin 2) (st : PwmStep) : Prop :=
  ¬ st.Writes board i ∧ ∀ hook, st = .hookSoftPwm hook → Spares i hook

/-- The threshold `t` stays what it is; it may be written again. -/
def PwmStep.Steady (board : Board) (i : Fin 2) (t : Int) (st : PwmStep) : Prop :=
  st.Elsewhere board i ∨ ∃ pin value, st = .analogWrite pin value ∧
    canonicalizePin board pin = channelPin i ∧ softThreshold (clamp value.toInt) = t

/-! ### A tick -/

section Tick

variable {board : Board} {s : SoftPwm} {i : Fin 2}

theorem counter_reload (counter : BitVec 16) : counter - 1 = 0 ↔ counter = 1 := by
  constructor
  · intro zero
    bv_omega
  · rintro rfl
    rfl

theorem palWritePad_pdor (s : Pins) (pad other : Pad) (bit : Bool) :
    (s.palWritePad pad bit).pdor other = if other = pad then bit else s.pdor other :=
  Function.update_apply _ _ _ _

theorem setWhen_pdor {c : Prop} [Decidable c] (s : Pins) (pad other : Pad) :
    (if c then s.palWritePad pad true else s).pdor other =
      if other = pad ∧ c then true else s.pdor other := by
  by_cases set : c
  · simp only [set, if_true, palWritePad_pdor, and_true]
  · simp only [set, and_false, if_false]

/-- The counting changes the level of a channel at its threshold and at the end of the cycle. -/
theorem countDown_level (s : SoftPwm) (i : Fin 2) :
    s.countDown.level i =
      if s.soft_pwm_counter = 1 then false else if s.Reached i then true else s.level i := by
  simp only [countDown, counter_reload, level]
  by_cases last : s.soft_pwm_counter = 1
  · simp only [if_pos last, palWritePad_pdor]
    match i with
    | 0 => rfl
    | 1 => rfl
  · simp only [if_neg last, setWhen_pdor]
    match i with
    | 0 => simp [channelPad]
    | 1 => simp [channelPad]

theorem countDown_counter (s : SoftPwm) :
    s.countDown.soft_pwm_counter =
      if s.soft_pwm_counter = 1 then 64 else s.soft_pwm_counter - 1 := by
  simp only [countDown, counter_reload]
  split_ifs <;> rfl

theorem countDown_rest (s : SoftPwm) :
    s.countDown.pins.soft_pwm = s.pins.soft_pwm ∧ s.countDown.soft_pwm_hook = s.soft_pwm_hook := by
  unfold countDown palWritePad
  dsimp only
  split_ifs <;> exact ⟨rfl, rfl⟩

/-- With a hook that leaves the channel alone, a tick does what the counting does. -/
theorem softPwmTick_spared (spares : Spares i s.soft_pwm_hook) (running : ¬ s.Stopped) :
    s.softPwmTick.level i = s.countDown.level i ∧
      s.softPwmTick.soft_pwm_counter = s.countDown.soft_pwm_counter := by
  rw [softPwmTick, if_neg running]
  refine ⟨?_, rfl⟩
  simp only [level, countDown_rest]
  cases hook : s.soft_pwm_hook with
  | none => rfl
  | some h => exact (spares h hook _).1

theorem softPwmTick_rest (spares : Spares i s.soft_pwm_hook) :
    s.softPwmTick.pins.soft_pwm i = s.pins.soft_pwm i ∧
      s.softPwmTick.soft_pwm_hook = s.soft_pwm_hook := by
  unfold softPwmTick
  split_ifs
  · exact ⟨rfl, rfl⟩
  · simp only [countDown_rest, and_true]
    cases hook : s.soft_pwm_hook with
    | none => exact congrFun s.countDown_rest.1 i
    | some h =>
        exact ((spares h hook _).2).trans (congrFun s.countDown_rest.1 i)

end Tick

/-! ### Writes to other pads -/

section Elsewhere

variable {board : Board} {s : SoftPwm} {i : Fin 2} {pin value : BitVec 32}

theorem analogWrite_pdor (board : Board) (s : Pins) (pin value : BitVec 32) :
    (analogWrite board s pin value).pdor = s.pdor := by
  unfold analogWrite
  dsimp only
  split
  · rfl
  · split_ifs <;> rfl

theorem analogWrite_soft_pwm (s : Pins) (other : pinToPort board pin ≠ some (channelPad i)) :
    (analogWrite board s pin value).soft_pwm i = s.soft_pwm i := by
  have foreign : canonicalizePin board pin ≠ channelPin i := fun eq => other (pinToPort_channel eq)
  unfold analogWrite
  dsimp only
  split
  · rfl
  · match i with
    | 0 =>
        change canonicalizePin board pin ≠ 4 at foreign
        split_ifs <;> simp [palSetPadMode, pwmDrive, softDrive]
    | 1 =>
        change canonicalizePin board pin ≠ 5 at foreign
        split_ifs <;> simp [palSetPadMode, pwmDrive, softDrive]

theorem digitalWrite_other (s : Pins) (value : BitVec 32)
    (other : pinToPort board pin ≠ some (channelPad i)) :
    (digitalWrite board s pin value).pdor (channelPad i) = s.pdor (channelPad i) ∧
      (digitalWrite board s pin value).soft_pwm i = s.soft_pwm i := by
  have stops : ¬ Stops i pin := fun stops =>
    other (pinToPort_channel ((stops_iff board i pin).mp stops).1)
  rcases digitalWrite_cases board s pin value with same | ⟨pad, found, input | output⟩
  · rw [same]
    exact ⟨rfl, rfl⟩
  · rw [input]
    exact ⟨rfl, rfl⟩
  · have foreign : channelPad i ≠ pad := fun eq => other (eq ▸ found)
    rw [output, writeLevel_soft_pwm, if_neg stops, asOutput_soft_pwm,
      ((s.asOutput pad).writeLevel_rest pin pad value).2.2, Function.update_of_ne foreign,
      asOutput_pdor]
    exact ⟨rfl, rfl⟩

/-- Steps elsewhere but the ticks leave the channel and the counter alone. -/
theorem step_elsewhere (spares : Spares i s.soft_pwm_hook) {st : PwmStep}
    (elsewhere : st.Elsewhere board i) :
    (s.step board st).pins.soft_pwm i = s.pins.soft_pwm i ∧
      Spares i (s.step board st).soft_pwm_hook ∧
      (st ≠ .softPwmTick → (s.step board st).level i = s.level i ∧
        (s.step board st).soft_pwm_counter = s.soft_pwm_counter) := by
  cases st with
  | analogWrite pin value =>
      refine ⟨analogWrite_soft_pwm s.pins elsewhere.1, spares, fun _ => ⟨?_, rfl⟩⟩
      exact congrFun (analogWrite_pdor board s.pins pin value) _
  | digitalWrite pin value =>
      obtain ⟨pdor, soft_pwm⟩ := digitalWrite_other s.pins value elsewhere.1
      exact ⟨soft_pwm, spares, fun _ => ⟨pdor, rfl⟩⟩
  | hookSoftPwm hook => exact ⟨rfl, elsewhere.2 hook rfl, fun _ => ⟨rfl, rfl⟩⟩
  | softPwmTick =>
      obtain ⟨soft_pwm, hook⟩ := softPwmTick_rest spares
      exact ⟨soft_pwm, hook ▸ spares, fun no => absurd rfl no⟩

end Elsewhere

/-! ### A stopped channel -/

section Undisturbed

/-- A tick without what a hook does. -/
def beforeHook (s : SoftPwm) : SoftPwm := if s.Stopped then s.softPwmTick else s.countDown

/-- A tick leaves the level of a stopped channel as it is, and a level that is set with
`digitalWrite` is there until something else writes to the pad. -/
structure Undisturbed (board : Board) (i : Fin 2) (s : SoftPwm) (steps : List PwmStep) : Prop where
  kept : ∀ pre, pre ++ [.softPwmTick] <+: steps → (s.run board pre).pins.soft_pwm i = -1 →
    (s.run board pre).beforeHook.level i = (s.run board pre).level i
  persists : ∀ pre pin value post, pre ++ .digitalWrite pin value :: post <+: steps →
    pinToPort board pin = some (channelPad i) → canUsePin board (s.run board pre).pins pin = true →
    ¬ (s.run board pre).pins.IsInput (channelPad i) →
    (digitalWrite board (s.run board pre).pins pin value).soft_pwm i = -1 →
    Spares i (s.run board pre).soft_pwm_hook → (∀ st ∈ post, st.Elsewhere board i) →
    (s.run board (pre ++ .digitalWrite pin value :: post)).level i = (value != 0)

/-- The tick does not count, or does not end the cycle, or finds the pad low. -/
def Harmless (i : Fin 2) (s : SoftPwm) : Prop :=
  s.Stopped ∨ s.soft_pwm_counter ≠ 1 ∨ s.level i = false

variable {board : Board} {s : SoftPwm} {i : Fin 2} {pin value : BitVec 32}

theorem not_reached (off : s.pins.soft_pwm i = -1) : ¬ s.Reached i := by
  unfold Reached
  omega

theorem beforeHook_level_iff (off : s.pins.soft_pwm i = -1) :
    s.beforeHook.level i = s.level i ↔ Harmless i s := by
  unfold beforeHook Harmless
  by_cases stopped : s.Stopped
  · simp only [stopped, true_or, if_true, iff_true, softPwmTick]
    rfl
  · simp only [stopped, false_or, if_false, countDown_level, not_reached off]
    by_cases last : s.soft_pwm_counter = 1
    · simp only [last, if_true, ne_eq, not_true, false_or]
      exact eq_comm
    · rw [if_neg last]
      exact iff_of_true rfl (.inl last)

theorem softPwmTick_level (spares : Spares i s.soft_pwm_hook) :
    s.softPwmTick.level i = s.beforeHook.level i := by
  unfold beforeHook
  by_cases stopped : s.Stopped
  · rw [if_pos stopped]
  · rw [if_neg stopped]
    exact (softPwmTick_spared spares stopped).1

theorem run_cons (s : SoftPwm) (st : PwmStep) (steps : List PwmStep) :
    s.run board (st :: steps) = (s.step board st).run board steps := rfl

theorem run_append (s : SoftPwm) (pre post : List PwmStep) :
    s.run board (pre ++ post) = (s.run board pre).run board post := List.foldl_append

/-- The level stays as long as every tick is harmless. -/
theorem level_persists {steps : List PwmStep} (off : s.pins.soft_pwm i = -1)
    (spares : Spares i s.soft_pwm_hook) (elsewhere : ∀ st ∈ steps, st.Elsewhere board i)
    (harmless : ∀ pre, pre ++ [.softPwmTick] <+: steps →
      (s.run board pre).pins.soft_pwm i = -1 → Harmless i (s.run board pre)) :
    (s.run board steps).level i = s.level i := by
  induction steps generalizing s with
  | nil => rfl
  | cons st steps ih =>
      obtain ⟨soft_pwm, hook, others⟩ := step_elsewhere spares (elsewhere st List.mem_cons_self)
      have level : (s.step board st).level i = s.level i := by
        by_cases tick : st = .softPwmTick
        · subst tick
          have here : Harmless i s := harmless [] ((List.prefix_cons_inj _).mpr List.nil_prefix) off
          exact (softPwmTick_level spares).trans ((beforeHook_level_iff off).mpr here)
        · exact (others tick).1
      rw [← level]
      refine ih (soft_pwm.trans off) hook (fun st mem => elsewhere st (List.mem_cons_of_mem _ mem)) ?_
      intro pre is_prefix
      exact harmless (st :: pre) ((List.prefix_cons_inj st).mpr is_prefix)

theorem digitalWrite_level (s : Pins) (found : pinToPort board pin = some (channelPad i))
    (can : canUsePin board s pin = true) (output : ¬ s.IsInput (channelPad i)) :
    (digitalWrite board s pin value).pdor (channelPad i) = (value != 0) := by
  rw [digitalWrite_output found can output, (writeLevel_rest _ _ _ _).2.2, Function.update_self]

/-- A stopped channel is undisturbed exactly if no cycle ends while its pad is high. -/
theorem undisturbed_iff (board : Board) (i : Fin 2) (s : SoftPwm) (steps : List PwmStep) :
    Undisturbed board i s steps ↔
      ∀ pre, pre ++ [.softPwmTick] <+: steps → (s.run board pre).pins.soft_pwm i = -1 →
        Harmless i (s.run board pre) := by
  constructor
  · intro undisturbed pre is_prefix off
    exact (beforeHook_level_iff off).mp (undisturbed.kept pre is_prefix off)
  · intro harmless
    refine ⟨fun pre is_prefix off => (beforeHook_level_iff off).mpr (harmless pre is_prefix off), ?_⟩
    intro pre pin value post is_prefix found can output off spares elsewhere
    have after : s.run board (pre ++ .digitalWrite pin value :: post) =
        ((s.run board pre).step board (.digitalWrite pin value)).run board post := run_append s _ _
    have written : ((s.run board pre).step board (.digitalWrite pin value)).level i = (value != 0) :=
      digitalWrite_level _ found can output
    rw [after, ← written]
    refine level_persists (s := (s.run board pre).step board (.digitalWrite pin value)) off spares
      elsewhere ?_
    intro mid mid_prefix
    have whole : s.run board (pre ++ .digitalWrite pin value :: mid) =
        ((s.run board pre).step board (.digitalWrite pin value)).run board mid := run_append s _ _
    rw [← whole]
    apply harmless
    rw [List.append_assoc, List.cons_append]
    exact ((List.prefix_append_right_inj pre).mpr
      ((List.prefix_cons_inj _).mpr mid_prefix)).trans is_prefix

/-- All pads are outputs and low, and no channel runs. -/
def sampleBoot : SoftPwm where
  pins := {
    pcr := fun _ => PORTx_PCRn_MUX 1
    pddr := fun _ => true
    pdor := fun _ => false
    pdir := fun _ => false
    sudo_mode := false
    soft_pwm := fun _ => -1
    soft_pwm_running := false
    pwm := fun _ => ⟨false, fun _ => false, fun _ => 0⟩
    analog_read_resolution := 10
    lptmr_enabled := false
    lptmr_running := false
    lptmr_pad := channelPad 0
    lptmr_rate := 0
    tone_timer := none }
  soft_pwm_counter := 64
  soft_pwm_hook := none

/-- Pin 5 is dimmed, pin 4 is set high, and a cycle goes by up to its last tick. -/
def sampleSteps : List PwmStep :=
  .analogWrite 5 128 :: .digitalWrite 4 1 :: List.replicate 63 .softPwmTick

/-- The last tick of the cycle clears pin 4 as well. -/
theorem sampleBoot_disturbed :
    ¬ Undisturbed .PVT1E 0 sampleBoot (sampleSteps ++ [.softPwmTick]) := by
  intro undisturbed
  have off : (sampleBoot.run .PVT1E sampleSteps).pins.soft_pwm 0 = -1 := by decide +kernel
  have kept := undisturbed.kept sampleSteps List.prefix_rfl off
  have lost : (sampleBoot.run .PVT1E sampleSteps).beforeHook.level 0 ≠
      (sampleBoot.run .PVT1E sampleSteps).level 0 := by decide +kernel
  exact lost kept

end Undisturbed

/-! ### The duty cycle -/

section Duty

def PwmStep.isTick : PwmStep → Bool
  | .softPwmTick => true
  | _ => false

/-- How many of the ticks leave the pad of a channel high. -/
def highTicks (board : Board) (i : Fin 2) : SoftPwm → List PwmStep → Nat
  | _, [] => 0
  | s, st :: steps =>
      (if st.isTick ∧ (s.step board st).level i then 1 else 0) + highTicks board i (s.step board st) steps

/-- The pad is high from the threshold to the end of the cycle. -/
structure InCycle (i : Fin 2) (t : Nat) (s : SoftPwm) : Prop where
  threshold : s.pins.soft_pwm i = t
  spares : Spares i s.soft_pwm_hook
  pos : 1 ≤ s.soft_pwm_counter.toNat
  le : s.soft_pwm_counter.toNat ≤ 64
  level : s.level i = true ↔ s.soft_pwm_counter.toNat < t

variable {board : Board} {s : SoftPwm} {i : Fin 2} {t : Nat} {pin value : BitVec 32}

theorem running_of_threshold (threshold : s.pins.soft_pwm i = t) : ¬ s.Stopped := by
  rintro ⟨zero, one, -⟩
  match i with
  | 0 => omega
  | 1 => omega

theorem InCycle.softPwmTick (cycle : InCycle i t s) (small : t < 64) :
    InCycle i t s.softPwmTick ∧
      s.softPwmTick.soft_pwm_counter.toNat =
        if s.soft_pwm_counter.toNat = 1 then 64 else s.soft_pwm_counter.toNat - 1 := by
  obtain ⟨threshold, spares, pos, le, level⟩ := cycle
  obtain ⟨level', counter'⟩ := softPwmTick_spared spares (running_of_threshold threshold)
  obtain ⟨soft_pwm, hook⟩ := softPwmTick_rest spares
  have one : s.soft_pwm_counter = 1 ↔ s.soft_pwm_counter.toNat = 1 := by
    rw [BitVec.toNat_eq]
    rfl
  have counter : s.softPwmTick.soft_pwm_counter.toNat =
      if s.soft_pwm_counter.toNat = 1 then 64 else s.soft_pwm_counter.toNat - 1 := by
    rw [counter', countDown_counter]
    simp only [one]
    split_ifs
    · rfl
    · bv_omega
  have reached : s.Reached i ↔ s.soft_pwm_counter.toNat = t := by
    rw [Reached, threshold]
    omega
  refine ⟨⟨soft_pwm.trans threshold, hook ▸ spares, ?_, ?_, ?_⟩, counter⟩
  · rw [counter]
    split_ifs <;> omega
  · rw [counter]
    split_ifs <;> omega
  · rw [level', countDown_level, counter]
    simp only [one, reached]
    split_ifs with last here
    · simp only [false_iff]
      omega
    · simp only [true_iff]
      omega
    · rw [level]
      omega

/-- A write to the pin of a channel sets its threshold, unless the pad is an input. -/
theorem analogWrite_threshold (s : Pins) (value : BitVec 32)
    (named : canonicalizePin board pin = channelPin i)
    (output : s.palGetPadMode (channelPad i) ∉
      [.INPUT, .INPUT_PULLUP, .INPUT_PULLDOWN, .INPUT_ANALOG]) :
    (analogWrite board s pin value).soft_pwm i = softThreshold (clamp value.toInt) := by
  simp only [List.mem_cons, List.not_mem_nil, or_false] at output
  simp only [analogWrite, pinToPort_channel named, named, if_neg output]
  fin_cases i
  · rfl
  · rfl

/-- A threshold that is written again is the same, on whatever pad. -/
theorem analogWrite_again {t : Int} (named : canonicalizePin board pin = channelPin i) {s : Pins}
    (threshold : s.soft_pwm i = t) (again : softThreshold (clamp value.toInt) = t) :
    (analogWrite board s pin value).soft_pwm i = t := by
  by_cases output : s.palGetPadMode (channelPad i) ∉
      [.INPUT, .INPUT_PULLUP, .INPUT_PULLDOWN, .INPUT_ANALOG]
  · rw [analogWrite_threshold s value named output, again]
  · simp only [not_not, List.mem_cons, List.not_mem_nil, or_false] at output
    simp only [analogWrite, pinToPort_channel named, if_pos output, threshold]

theorem step_steady {t : Int} (threshold : s.pins.soft_pwm i = t) (spares : Spares i s.soft_pwm_hook)
    {st : PwmStep} (steady : st.Steady board i t) :
    (s.step board st).pins.soft_pwm i = t ∧ Spares i (s.step board st).soft_pwm_hook ∧
      (st ≠ .softPwmTick → (s.step board st).level i = s.level i ∧
        (s.step board st).soft_pwm_counter = s.soft_pwm_counter) := by
  rcases steady with elsewhere | ⟨pin, value, rfl, named, again⟩
  · obtain ⟨soft_pwm, hook, others⟩ := step_elsewhere spares elsewhere
    exact ⟨soft_pwm.trans threshold, hook, others⟩
  · refine ⟨analogWrite_again named threshold again, spares, fun _ => ⟨?_, rfl⟩⟩
    exact congrFun (analogWrite_pdor board s.pins pin value) _

theorem run_steady {t : Int} {steps : List PwmStep} (threshold : s.pins.soft_pwm i = t)
    (spares : Spares i s.soft_pwm_hook) (steady : ∀ st ∈ steps, st.Steady board i t) :
    (s.run board steps).pins.soft_pwm i = t ∧ Spares i (s.run board steps).soft_pwm_hook := by
  induction steps generalizing s with
  | nil => exact ⟨threshold, spares⟩
  | cons st steps ih =>
      obtain ⟨soft_pwm, hook, -⟩ := step_steady threshold spares (steady st List.mem_cons_self)
      exact ih soft_pwm hook fun st mem => steady st (List.mem_cons_of_mem _ mem)

theorem InCycle.step (cycle : InCycle i t s) {st : PwmStep} (steady : st.Steady board i t)
    (other : st ≠ .softPwmTick) :
    InCycle i t (s.step board st) ∧
      (s.step board st).soft_pwm_counter = s.soft_pwm_counter := by
  obtain ⟨soft_pwm, hook, others⟩ := step_steady cycle.threshold cycle.spares steady
  obtain ⟨level, counter⟩ := others other
  refine ⟨⟨soft_pwm, hook, ?_, ?_, ?_⟩, counter⟩
  · rw [counter]
    exact cycle.pos
  · rw [counter]
    exact cycle.le
  · rw [level, counter]
    exact cycle.level

/-- One tick of the count, before the last of the cycle. -/
theorem highTicks_tick {c n : Nat} (more : 1 < c) :
    (if c - 1 < t then 1 else 0) + (min t (c - 1) - min t (max 1 (c - 1 - n))) =
      min t c - min t (max 1 (c - (n + 1))) := by
  have peak : min t c = min t (c - 1) + if c - 1 < t then 1 else 0 := by
    split_ifs <;> omega
  have left : c - 1 - n = c - (n + 1) := by omega
  have low : min t (max 1 (c - (n + 1))) ≤ min t (c - 1) :=
    min_le_min_left t (max_le (by omega) (by omega))
  rw [peak, left]
  omega

/-- The ticks up to the end of the cycle: those below the threshold leave the pad high, but for
the last. -/
theorem InCycle.highTicks {steps : List PwmStep} (cycle : InCycle i t s) (pos : 0 < t)
    (small : t < 64) (steady : ∀ st ∈ steps, st.Steady board i t)
    (le : steps.countP PwmStep.isTick ≤ s.soft_pwm_counter.toNat) :
    SoftPwm.highTicks board i s steps = min t s.soft_pwm_counter.toNat -
      min t (max 1 (s.soft_pwm_counter.toNat - steps.countP PwmStep.isTick)) := by
  induction steps generalizing s with
  | nil =>
      have := cycle.pos
      simp only [SoftPwm.highTicks, List.countP_nil]
      omega
  | cons st steps ih =>
      have rest : ∀ st ∈ steps, st.Steady board i t :=
        fun st mem => steady st (List.mem_cons_of_mem _ mem)
      rw [SoftPwm.highTicks]
      by_cases tick : st = .softPwmTick
      · subst tick
        obtain ⟨next, counter⟩ := cycle.softPwmTick small
        have level : (s.step board .softPwmTick).level i = true ↔
            s.softPwmTick.soft_pwm_counter.toNat < t := next.level
        rw [List.countP_cons_of_pos rfl] at le ⊢
        simp only [level, PwmStep.isTick, true_and]
        rw [show s.step board .softPwmTick = s.softPwmTick from rfl]
        by_cases last : s.soft_pwm_counter.toNat = 1
        · -- the tick that reloads the counter is the only one
          rw [if_pos last] at counter
          have none : steps.countP PwmStep.isTick = 0 := by omega
          rw [ih next rest (by omega), counter, none, last, if_neg (show ¬ 64 < t by omega)]
          omega
        · rw [if_neg last] at counter
          have more : 1 < s.soft_pwm_counter.toNat := lt_of_le_of_ne cycle.pos (Ne.symm last)
          rw [ih next rest (by omega), counter]
          exact highTicks_tick more
      · obtain ⟨next, counter⟩ := cycle.step (steady st List.mem_cons_self) tick
        have no : st.isTick = false := by
          cases st <;> first | rfl | exact absurd rfl tick
        rw [List.countP_cons_of_neg (by simp [no])] at le ⊢
        rw [ih next rest (by rw [counter]; exact le), counter]
        simp [no]

theorem softThreshold_clamp (value : BitVec 32) (pos : 0 < value.toInt) :
    ∃ t : Nat, softThreshold (clamp value.toInt) = t ∧ 0 < t ∧ t < 64 := by
  have bounds : 0 < clamp value.toInt ∧ clamp value.toInt ≤ 255 := by
    unfold clamp ARDUINO_MAX
    dsimp only
    split_ifs <;> omega
  refine ⟨(softThreshold (clamp value.toInt)).toNat, ?_⟩
  unfold softThreshold SOFT_PWM_CYCLE
  dsimp only
  split_ifs <;> omega

/-- The tick that reloads the counter starts a cycle. -/
theorem inCycle_reload (threshold : s.pins.soft_pwm i = t) (spares : Spares i s.soft_pwm_hook)
    (small : t < 64) (last : s.soft_pwm_counter = 1) :
    InCycle i t s.softPwmTick ∧ s.softPwmTick.soft_pwm_counter = 64 := by
  obtain ⟨level, counter⟩ := softPwmTick_spared spares (running_of_threshold threshold)
  obtain ⟨soft_pwm, hook⟩ := softPwmTick_rest spares
  rw [countDown_level, if_pos last] at level
  rw [countDown_counter, if_pos last] at counter
  refine ⟨⟨soft_pwm.trans threshold, hook ▸ spares, ?_, ?_, ?_⟩, counter⟩
  · rw [counter]
    decide
  · rw [counter]
    decide
  · rw [level, counter]
    simp only [Bool.false_eq_true, false_iff, not_lt]
    exact small.le

/-- A full cycle after a write: one tick less than the threshold leaves the pad high. -/
theorem highTicks_cycle {before cycle : List PwmStep}
    (named : canonicalizePin board pin = channelPin i)
    (output : s.pins.palGetPadMode (channelPad i) ∉
      [.INPUT, .INPUT_PULLUP, .INPUT_PULLDOWN, .INPUT_ANALOG])
    (positive : 0 < value.toInt) (spares : Spares i s.soft_pwm_hook)
    (steady : ∀ st ∈ before ++ cycle, st.Steady board i (softThreshold (clamp value.toInt)))
    (last : (s.run board (.analogWrite pin value :: before)).soft_pwm_counter = 1)
    (full : cycle.countP PwmStep.isTick = 64) :
    (SoftPwm.highTicks board i (s.run board (.analogWrite pin value :: before)).softPwmTick cycle : Int) =
      softThreshold (clamp value.toInt) - 1 := by
  rw [run_cons] at last ⊢
  obtain ⟨t, is, pos, small⟩ := softThreshold_clamp value positive
  rw [is] at steady
  have first := (analogWrite_threshold s.pins value named output).trans is
  obtain ⟨soft_pwm, hook⟩ := run_steady (s := s.step board (.analogWrite pin value)) first spares
    fun st mem => steady st (List.mem_append_left _ mem)
  obtain ⟨start, counter⟩ := inCycle_reload soft_pwm hook small last
  have high := InCycle.highTicks start pos small
    (fun st mem => steady st (List.mem_append_right _ mem))
    (full.le.trans (congrArg BitVec.toNat counter).ge)
  rw [counter, full, show (64 : BitVec 16).toNat = 64 from rfl] at high
  rw [is, high]
  omega

/-- The channel has the duty cycle that its threshold stands for. -/
def DutyCycle (board : Board) (i : Fin 2) (t : Int) (s : SoftPwm) (cycle : List PwmStep) : Prop :=
  (highTicks board i s cycle : Int) = t

instance (board : Board) (i : Fin 2) (t : Int) (s : SoftPwm) (cycle : List PwmStep) :
    Decidable (DutyCycle board i t s cycle) := inferInstanceAs (Decidable (_ = _))

/-- The pad is high in one tick less than the threshold, after every write and in every cycle:
the tick that reaches zero clears it. -/
theorem not_dutyCycle (board : Board) (i : Fin 2) (s : SoftPwm) (pin value : BitVec 32)
    (before cycle : List PwmStep) (named : canonicalizePin board pin = channelPin i)
    (output : s.pins.palGetPadMode (channelPad i) ∉
      [.INPUT, .INPUT_PULLUP, .INPUT_PULLDOWN, .INPUT_ANALOG])
    (positive : 0 < value.toInt) (spares : Spares i s.soft_pwm_hook)
    (steady : ∀ st ∈ before ++ cycle, st.Steady board i (softThreshold (clamp value.toInt)))
    (last : (s.run board (.analogWrite pin value :: before)).soft_pwm_counter = 1)
    (full : cycle.countP PwmStep.isTick = 64) :
    let start := (s.run board (.analogWrite pin value :: before)).softPwmTick
    let t := softThreshold (clamp value.toInt)
    start.pins.soft_pwm i = t ∧ (1 ≤ t ∧ t ≤ 63) ∧ DutyCycle board i (t - 1) start cycle ∧
      ¬ DutyCycle board i t start cycle := by
  have high := highTicks_cycle named output positive spares steady last full
  obtain ⟨t, is, pos, small⟩ := softThreshold_clamp value positive
  have first := analogWrite_threshold s.pins value named output
  obtain ⟨soft_pwm, hook⟩ := run_steady (s := s.step board (.analogWrite pin value)) first spares
    fun st mem => steady st (List.mem_append_left _ mem)
  refine ⟨?_, ⟨by omega, by omega⟩, high, ?_⟩
  · exact (softPwmTick_rest hook).1.trans soft_pwm
  · unfold DutyCycle
    omega

/-- A cycle without anything but ticks. -/
def sampleCycle : List PwmStep := List.replicate 64 .softPwmTick

/-- The smallest value, rounded up to a threshold of 1, gives no light at all. -/
theorem sampleBoot_dark :
    softThreshold (clamp 1) = 1 ∧
      (sampleBoot.run .PVT1E (.analogWrite 4 1 :: List.replicate 63 .softPwmTick)).soft_pwm_counter = 1 ∧
      ¬ DutyCycle .PVT1E 0 1
        (sampleBoot.run .PVT1E (.analogWrite 4 1 :: List.replicate 63 .softPwmTick)).softPwmTick
        sampleCycle := by
  decide +kernel

theorem elsewhere_of_ticks {n : Nat} : ∀ st ∈ List.replicate n PwmStep.softPwmTick,
    st.Elsewhere board i := by
  intro st mem
  obtain rfl := List.eq_of_mem_replicate mem
  exact ⟨id, nofun⟩

/-- A threshold of 32 is short of a tick too, whatever value it is written with again. -/
theorem sampleBoot_short :
    DutyCycle .PVT1E 0 31
      (sampleBoot.run .PVT1E (.analogWrite 4 128 :: List.replicate 63 .softPwmTick)).softPwmTick
      (.analogWrite 4 129 :: sampleCycle) := by
  refine (not_dutyCycle .PVT1E 0 sampleBoot 4 128 (List.replicate 63 .softPwmTick)
    (.analogWrite 4 129 :: sampleCycle) rfl (by decide) (by decide) nofun ?_ (by decide +kernel)
    (by decide +kernel)).2.2.1
  intro st mem
  rcases List.mem_append.mp mem with mem | mem
  · exact .inl (elsewhere_of_ticks st mem)
  · rcases List.mem_cons.mp mem with rfl | mem
    · exact .inr ⟨4, 129, rfl, by decide, by decide⟩
    · exact .inl (elsewhere_of_ticks st mem)

end Duty

end SoftPwm

end LtcOs.Arduino
