import LtcOs.ArduinoPins

/-!
Names of one pin for Arduino programs.

Two numbers name the same pin if `canonicalizePin` makes the same of them. Most entry points look
at nothing else. `digitalWrite` stops the soft PWM of pins 4 and 5 for the numbers of a list
that leaves out the port names of these pins.
-/

namespace LtcOs.Arduino

namespace Pins

/-! ### Calls on a pin -/

/-- An entry point with its argument besides the pin. -/
inductive PinOp where
  | pinMode (mode : PinMode)
  | digitalWrite (value : BitVec 32)
  | digitalRead
  | analogRead
  | analogWrite (value : BitVec 32)
deriving DecidableEq, Repr

/-- What it returns, zero for nothing, and what it leaves. -/
def PinOp.run (board : Board) (adc : Nat → Option (BitVec 16)) (s : Pins) (pin : BitVec 32) :
    PinOp → Int × Pins
  | .pinMode mode => (0, Pins.pinMode board s pin mode)
  | .digitalWrite value => (0, Pins.digitalWrite board s pin value)
  | .digitalRead => Pins.digitalRead board s pin
  | .analogRead => Pins.analogRead board adc s pin
  | .analogWrite value => (0, Pins.analogWrite board s pin value)

/-- The same result, the same pad modes and levels, and the same thresholds. -/
structure Alike (x y : Int × Pins) : Prop where
  result : x.1 = y.1
  pcr : x.2.pcr = y.2.pcr
  pddr : x.2.pddr = y.2.pddr
  pdor : x.2.pdor = y.2.pdor
  soft_pwm : x.2.soft_pwm = y.2.soft_pwm

theorem Alike.of_eq {x y : Int × Pins} (eq : x = y) : Alike x y := by
  subst eq
  exact ⟨rfl, rfl, rfl, rfl, rfl⟩

/-! ### The channels of the soft PWM -/

/-- The numbers for which `digitalWrite` stops a channel. -/
def Stops (i : Fin 2) (pin : BitVec 32) : Prop :=
  match i with
  | 0 => pin = 0xa4 ∨ pin = 0x84 ∨ pin = 4
  | 1 => pin = 0xa5 ∨ pin = 0x85 ∨ pin = 5

instance (i : Fin 2) (pin : BitVec 32) : Decidable (Stops i pin) :=
  match i with
  | 0 => inferInstanceAs (Decidable (_ ∨ _))
  | 1 => inferInstanceAs (Decidable (_ ∨ _))

/-- The pin of a channel, and its name as a port and a pad. -/
def channelPin : Fin 2 → BitVec 32
  | 0 => 4
  | 1 => 5

def portPin : Fin 2 → BitVec 32
  | 0 => PTB 0
  | 1 => PTA 7

/-- The pad of a channel. -/
def channelPad : Fin 2 → Pad
  | 0 => (.IOPORT2, 0)
  | 1 => (.IOPORT1, 7)

/-- A write sets the pull-up of such a pad and not its level. -/
def IsInput (s : Pins) (pad : Pad) : Prop :=
  s.palGetPadMode pad ∈ [.INPUT, .INPUT_PULLUP, .INPUT_PULLDOWN]

/-- A write by one number stops a running channel and a write by the other does not, unless the
two are equally on the list. -/
def Interchangeable (s : Pins) (p q : BitVec 32) : PinOp → Prop
  | .digitalWrite _ => ∀ i, (p = portPin i ↔ q = portPin i) ∨ s.IsInput (channelPad i) ∨ s.soft_pwm i = -1
  | _ => True

section Names

variable {board : Board} {s : Pins} {p q pin : BitVec 32}

/-- The numbers that `pinToPort` and the others know by their canonical form. -/
def canonicalPins : List (BitVec 32) :=
  [0, 1, 2, 3, 4, 5, LED_BUILTIN_RED, LED_BUILTIN_RGB, LED_BUILTIN_GREEN, AUDIO_IN, UART_TX,
    UART_RX, SWD_CLK, SWD_DIO, RST_LEVEL]

theorem known_or_self {c : Prop} [Decidable c] {a b : BitVec 32} (known : a ∈ canonicalPins)
    (rest : b ∈ canonicalPins ∨ b = pin) :
    (if c then a else b) ∈ canonicalPins ∨ (if c then a else b) = pin := by
  split_ifs
  · exact .inl known
  · exact rest

theorem canonicalizePin_cases (board : Board) (pin : BitVec 32) :
    canonicalizePin board pin ∈ canonicalPins ∨ canonicalizePin board pin = pin := by
  unfold canonicalizePin
  iterate 15 refine known_or_self (by decide) ?_
  exact .inr rfl

theorem pinToPort_of_canonical (same : canonicalizePin board p = canonicalizePin board q)
    (known : canonicalizePin board p ∈ canonicalPins) : pinToPort board p = pinToPort board q := by
  simp only [canonicalPins, List.mem_cons, List.not_mem_nil, or_false] at known
  unfold pinToPort
  rw [← same]
  dsimp only
  rcases known with eq | eq | eq | eq | eq | eq | eq | eq | eq | eq | eq | eq | eq | eq | eq
  all_goals
    rw [eq]
    rfl

/-- Another number is a name of itself only. -/
theorem pinToPort_congr (same : canonicalizePin board p = canonicalizePin board q) :
    pinToPort board p = pinToPort board q := by
  rcases canonicalizePin_cases board p with known | self
  · exact pinToPort_of_canonical same known
  · rcases canonicalizePin_cases board q with known | self'
    · exact (pinToPort_of_canonical same.symm known).symm
    · rw [← self, same, self']

theorem canUsePin_congr (same : canonicalizePin board p = canonicalizePin board q) (s : Pins) :
    canUsePin board s p = canUsePin board s q := by
  rw [canUsePin, same, canUsePin]

theorem readLevel_congr (same : canonicalizePin board p = canonicalizePin board q) (s : Pins)
    (pad : Pad) : readLevel board s p pad = readLevel board s q pad := by
  rw [readLevel, canUsePin_congr same, readLevel]

theorem convert_congr (same : canonicalizePin board p = canonicalizePin board q)
    (adc : Nat → Option (BitVec 16)) (s : Pins) : convert board adc s p = convert board adc s q := by
  have number : pin_to_adc board p = pin_to_adc board q := by
    rw [pin_to_adc, same, pin_to_adc]
  rw [convert, number, convert]

end Names

/-! ### The names of a channel -/

section Channels

variable {board : Board} {s : Pins} {p q pin : BitVec 32} {i : Fin 2}

/-- The number on which `canonicalizePin` decides. -/
def maskedPin (pin : BitVec 32) : BitVec 32 :=
  let masked_pin := if pin &&& 0xf0 = 0xa0 then pin &&& ~~~0xf0 else pin
  if masked_pin &&& 0xf0 = 0x80 then masked_pin &&& ~~~0xf0 else masked_pin

theorem and_or_and_not (x m : BitVec 32) : x &&& m ||| x &&& ~~~m = x := by
  ext i h
  simp only [BitVec.getElem_or, BitVec.getElem_and, BitVec.getElem_not]
  cases x[i] <;> cases m[i] <;> rfl

theorem and_not_and (x m : BitVec 32) : x &&& ~~~m &&& m = 0 := by
  rw [BitVec.and_assoc, BitVec.and_comm (~~~m), BitVec.and_not_self]
  exact BitVec.and_zero

theorem maskedPin_cases (pin : BitVec 32) :
    maskedPin pin = pin ∨
      maskedPin pin &&& 0xf0 = 0 ∧
        (pin = 0xa0 ||| maskedPin pin ∨ pin = 0x80 ||| maskedPin pin) := by
  have clear := and_not_and pin 0xf0
  have whole := and_or_and_not pin 0xf0
  unfold maskedPin
  by_cases digital : pin &&& 0xf0 = 0xa0
  · rw [digital] at whole
    simp only [if_pos digital, clear]
    rw [if_neg (by decide)]
    exact .inr ⟨clear, .inl whole.symm⟩
  · simp only [if_neg digital]
    by_cases analog : pin &&& 0xf0 = 0x80
    · rw [analog] at whole
      rw [if_pos analog]
      exact .inr ⟨clear, .inr whole.symm⟩
    · exact .inl (if_neg analog)

theorem of_ite_ne {c : Prop} [Decidable c] {a b v : BitVec 32} (other : a ≠ v)
    (eq : (if c then a else b) = v) : b = v := by
  split_ifs at eq
  · exact absurd eq other
  · exact eq

theorem of_ite_neg {c : Prop} [Decidable c] {a b v : BitVec 32} (not : ¬ c)
    (eq : (if c then a else b) = v) : b = v := by
  rwa [if_neg not] at eq

theorem masked_of_channel (eq : canonicalizePin board pin = channelPin i) :
    maskedPin pin = portPin i ∨ maskedPin pin = channelPin i := by
  by_contra other
  have listed : maskedPin pin ∉ [portPin i, channelPin i] := by
    simpa using other
  unfold canonicalizePin at eq
  match i with
  | 0 =>
      iterate 4 replace eq := of_ite_ne (by decide) eq
      replace eq := of_ite_neg listed eq
      iterate 10 replace eq := of_ite_ne (by decide) eq
      subst eq
      exact other (.inr rfl)
  | 1 =>
      iterate 5 replace eq := of_ite_ne (by decide) eq
      replace eq := of_ite_neg listed eq
      iterate 9 replace eq := of_ite_ne (by decide) eq
      subst eq
      exact other (.inr rfl)

theorem canonicalizePin_channel (board : Board) (named : Stops i pin ∨ pin = portPin i) :
    canonicalizePin board pin = channelPin i := by
  match i with
  | 0 =>
      rcases named with (rfl | rfl | rfl) | rfl <;> cases board <;> rfl
  | 1 =>
      rcases named with (rfl | rfl | rfl) | rfl <;> cases board <;> rfl

/-- The names of a channel are those on the list and the port name. -/
theorem named_of_channel (eq : canonicalizePin board pin = channelPin i) :
    Stops i pin ∨ pin = portPin i := by
  have masked := masked_of_channel eq
  rcases maskedPin_cases pin with self | ⟨clear, name⟩
  · rw [self] at masked
    rcases masked with port | number
    · exact .inr port
    · left
      match i with
      | 0 => exact .inr (.inr number)
      | 1 => exact .inr (.inr number)
  · rcases masked with port | number
    · rw [port] at clear
      match i with
      | 0 => exact absurd clear (by decide)
      | 1 => exact absurd clear (by decide)
    · rw [number] at name
      left
      match i with
      | 0 => exact name.imp_right .inl
      | 1 => exact name.imp_right .inl

theorem channelPin_inj {i j : Fin 2} (eq : channelPin i = channelPin j) : i = j := by
  revert i j
  decide

theorem not_stops_portPin (i : Fin 2) : ¬ Stops i (portPin i) := by
  match i with
  | 0 => decide
  | 1 => decide

theorem stops_iff (board : Board) (i : Fin 2) (pin : BitVec 32) :
    Stops i pin ↔ canonicalizePin board pin = channelPin i ∧ pin ≠ portPin i := by
  constructor
  · intro stops
    refine ⟨canonicalizePin_channel board (.inl stops), ?_⟩
    rintro rfl
    exact not_stops_portPin i stops
  · rintro ⟨channel, other⟩
    exact (named_of_channel channel).resolve_right other

theorem canUsePin_channel (s : Pins) (eq : canonicalizePin board pin = channelPin i) :
    canUsePin board s pin = true := by
  rw [canUsePin, eq]
  match i with
  | 0 => simp [normal_mode_pins, channelPin]
  | 1 => simp [normal_mode_pins, channelPin]

theorem pinToPort_channel (eq : canonicalizePin board pin = channelPin i) :
    pinToPort board pin = some (channelPad i) := by
  rw [pinToPort, eq]
  match i with
  | 0 => rfl
  | 1 => rfl

/-! ### Writing a level -/

theorem writeLevel_soft_pwm (s : Pins) (pin : BitVec 32) (pad : Pad) (value : BitVec 32)
    (i : Fin 2) :
    (s.writeLevel pin pad value).soft_pwm i = if Stops i pin then -1 else s.soft_pwm i := by
  match i with
  | 0 =>
      change _ = if pin = 0xa4 ∨ pin = 0x84 ∨ pin = 4 then -1 else s.soft_pwm 0
      unfold writeLevel palWritePad
      split_ifs <;> simp
  | 1 =>
      change _ = if pin = 0xa5 ∨ pin = 0x85 ∨ pin = 5 then -1 else s.soft_pwm 1
      unfold writeLevel palWritePad
      split_ifs <;> simp

/-- Besides the thresholds, only the level changes. -/
theorem writeLevel_rest (s : Pins) (pin : BitVec 32) (pad : Pad) (value : BitVec 32) :
    (s.writeLevel pin pad value).pcr = s.pcr ∧ (s.writeLevel pin pad value).pddr = s.pddr ∧
      (s.writeLevel pin pad value).pdor = Function.update s.pdor pad (value != 0) := by
  unfold writeLevel palWritePad
  split_ifs <;> exact ⟨rfl, rfl, rfl⟩

/-- A pad that is driven by a PWM unit is made an output first. -/
def asOutput (s : Pins) (pad : Pad) : Pins :=
  if s.palGetPadMode pad = .ALTERNATIVE_2 then s.palSetPadMode pad .OUTPUT_PUSHPULL else s

theorem asOutput_soft_pwm (s : Pins) (pad : Pad) : (s.asOutput pad).soft_pwm = s.soft_pwm := by
  unfold asOutput palSetPadMode
  split_ifs <;> rfl

theorem asOutput_pdor (s : Pins) (pad : Pad) : (s.asOutput pad).pdor = s.pdor := by
  unfold asOutput palSetPadMode
  split_ifs <;> rfl

variable {value : BitVec 32} {pad : Pad}

theorem digitalWrite_input (found : pinToPort board pin = some pad)
    (can : canUsePin board s pin = true) (input : s.IsInput pad) :
    digitalWrite board s pin value =
      s.palSetPadMode pad (if value ≠ 0 then .INPUT_PULLUP else .INPUT) := by
  simp only [digitalWrite, found, if_pos can]
  simp only [IsInput, List.mem_cons, List.not_mem_nil, or_false] at input
  rcases input with mode | mode | mode <;> rw [mode]

theorem digitalWrite_output (found : pinToPort board pin = some pad)
    (can : canUsePin board s pin = true) (output : ¬ s.IsInput pad) :
    digitalWrite board s pin value = (s.asOutput pad).writeLevel pin pad value := by
  simp only [IsInput, List.mem_cons, List.not_mem_nil, or_false, not_or] at output
  simp only [digitalWrite, found, if_pos can, asOutput]
  split
  · next mode => exact absurd mode output.2.2
  · next mode => exact absurd mode output.1
  · next mode => exact absurd mode output.2.1
  · next mode => rw [if_pos mode]
  · next other => rw [if_neg other]

/-- A write does nothing, sets the pull-up of an input, or writes the level of an output. -/
theorem digitalWrite_cases (board : Board) (s : Pins) (pin value : BitVec 32) :
    digitalWrite board s pin value = s ∨ ∃ pad, pinToPort board pin = some pad ∧
      (digitalWrite board s pin value =
          s.palSetPadMode pad (if value ≠ 0 then .INPUT_PULLUP else .INPUT) ∨
        digitalWrite board s pin value = (s.asOutput pad).writeLevel pin pad value) := by
  cases found : pinToPort board pin with
  | none => exact .inl (by simp only [digitalWrite, found])
  | some pad =>
      by_cases can : canUsePin board s pin = true
      · by_cases input : s.IsInput pad
        · exact .inr ⟨pad, rfl, .inl (digitalWrite_input found can input)⟩
        · exact .inr ⟨pad, rfl, .inr (digitalWrite_output found can input)⟩
      · exact .inl (by simp only [digitalWrite, found, if_neg can])

end Channels

/-! ### Two names -/

section Two

variable {board : Board} {s : Pins} {p q : BitVec 32}

theorem stops_congr_iff (same : canonicalizePin board p = canonicalizePin board q) (i : Fin 2) :
    (Stops i p ↔ Stops i q) ↔ (p = portPin i ↔ q = portPin i) := by
  rw [stops_iff board, stops_iff board, ← same]
  by_cases channel : canonicalizePin board p = channelPin i
  · simp only [channel, true_and]
    exact not_iff_not
  · have foreign : ∀ pin, canonicalizePin board pin = canonicalizePin board p → pin ≠ portPin i := by
      rintro pin eq rfl
      exact channel (eq ▸ canonicalizePin_channel board (.inr rfl))
    simp [channel, foreign p rfl, foreign q same.symm]

theorem writeLevel_alike_iff (pad : Pad) (value : BitVec 32) :
    Alike (0, s.writeLevel p pad value) (0, s.writeLevel q pad value) ↔
      ∀ i, (Stops i p ↔ Stops i q) ∨ s.soft_pwm i = -1 := by
  obtain ⟨pcr, pddr, pdor⟩ := s.writeLevel_rest p pad value
  obtain ⟨pcr', pddr', pdor'⟩ := s.writeLevel_rest q pad value
  constructor
  · intro alike i
    have eq := congrFun alike.soft_pwm i
    simp only [writeLevel_soft_pwm] at eq
    by_cases sp : Stops i p <;> by_cases sq : Stops i q
    · exact .inl ⟨fun _ => sq, fun _ => sp⟩
    · rw [if_pos sp, if_neg sq] at eq
      exact .inr eq.symm
    · rw [if_neg sp, if_pos sq] at eq
      exact .inr eq
    · exact .inl ⟨fun h => absurd h sp, fun h => absurd h sq⟩
  · intro agree
    refine ⟨rfl, pcr.trans pcr'.symm, pddr.trans pddr'.symm, pdor.trans pdor'.symm, ?_⟩
    funext i
    simp only [writeLevel_soft_pwm]
    rcases agree i with iff | stopped
    · simp only [iff]
    · simp only [stopped, ite_self]

/-- Numbers that name no channel are left out of the list by right. -/
theorem digitalWrite_congr (same : canonicalizePin board p = canonicalizePin board q)
    (value : BitVec 32) (agree : ∀ i, Stops i p ↔ Stops i q) :
    digitalWrite board s p value = digitalWrite board s q value := by
  have level : ∀ (t : Pins) (pad : Pad), t.writeLevel p pad value = t.writeLevel q pad value := by
    intro t pad
    have zero := propext (agree 0)
    have one := propext (agree 1)
    unfold Stops at zero one
    simp only [writeLevel, zero, one]
  simp only [digitalWrite, pinToPort_congr same, canUsePin_congr same, level]

theorem digitalWrite_alike_iff (same : canonicalizePin board p = canonicalizePin board q)
    (value : BitVec 32) :
    Alike (0, digitalWrite board s p value) (0, digitalWrite board s q value) ↔
      Interchangeable s p q (.digitalWrite value) := by
  by_cases agree : ∀ i, Stops i p ↔ Stops i q
  · rw [digitalWrite_congr same value agree]
    exact iff_of_true (.of_eq rfl) fun i => .inl ((stops_congr_iff same i).mp (agree i))
  · -- the two name a channel, and one of them by its port
    push Not at agree
    obtain ⟨i, differ⟩ := agree
    have channel : canonicalizePin board p = channelPin i := by
      rcases differ with ⟨stops, -⟩ | ⟨-, stops⟩
      · exact ((stops_iff board i p).mp stops).1
      · exact same.trans ((stops_iff board i q).mp stops).1
    have found := pinToPort_channel channel
    have found' := pinToPort_channel (same ▸ channel)
    have can := canUsePin_channel s channel
    have can' := canUsePin_channel s (same ▸ channel)
    have others : ∀ j, j ≠ i → (p = portPin j ↔ q = portPin j) := by
      intro j other
      refine (stops_congr_iff same j).mp (iff_of_false ?_ ?_) <;> intro stops
      · exact other (channelPin_inj (((stops_iff board j p).mp stops).1.symm.trans channel))
      · exact other (channelPin_inj
          (((stops_iff board j q).mp stops).1.symm.trans (same ▸ channel)))
    by_cases input : s.IsInput (channelPad i)
    · rw [digitalWrite_input found can input, digitalWrite_input found' can' input]
      refine iff_of_true (.of_eq rfl) fun j => ?_
      by_cases eq : j = i
      · exact .inr (.inl (eq ▸ input))
      · exact .inl (others j eq)
    · rw [digitalWrite_output found can input, digitalWrite_output found' can' input,
        writeLevel_alike_iff, asOutput_soft_pwm]
      refine forall_congr' fun j => ?_
      rw [stops_congr_iff same j]
      by_cases eq : j = i
      · subst eq
        simp only [input, false_or]
      · exact iff_of_true (.inl (others j eq)) (.inl (others j eq))

/-- Two names of a pin are interchangeable, but for a write by the port name of a pin whose soft
PWM runs. -/
theorem aliases_alike_iff (board : Board) (adc : Nat → Option (BitVec 16)) (s : Pins)
    (p q : BitVec 32) (same : canonicalizePin board p = canonicalizePin board q) (op : PinOp) :
    Alike (op.run board adc s p) (op.run board adc s q) ↔ Interchangeable s p q op := by
  cases op with
  | pinMode mode =>
      refine iff_of_true (.of_eq ?_) trivial
      simp only [PinOp.run, pinMode, same]
  | digitalWrite value => exact digitalWrite_alike_iff same value
  | digitalRead =>
      refine iff_of_true (.of_eq ?_) trivial
      simp only [PinOp.run, digitalRead, pinToPort_congr same, readLevel_congr same]
  | analogRead =>
      refine iff_of_true (.of_eq ?_) trivial
      simp only [PinOp.run, analogRead, pinToPort_congr same, convert_congr same]
  | analogWrite value =>
      refine iff_of_true (.of_eq ?_) trivial
      simp only [PinOp.run, analogWrite, pinToPort_congr same, same]

end Two

/-- Pin 4 is an output on which the soft PWM runs with half of the cycle. -/
def sampleRunning : Pins where
  pcr := fun _ => PORTx_PCRn_MUX 1
  pddr := fun _ => true
  pdor := fun _ => false
  pdir := fun _ => false
  sudo_mode := false
  soft_pwm := fun | 0 => 32 | 1 => -1
  soft_pwm_running := true
  pwm := fun _ => ⟨false, fun _ => false, fun _ => 0⟩
  analog_read_resolution := 10
  lptmr_enabled := false
  lptmr_running := false
  lptmr_pad := channelPad 0
  lptmr_rate := 0
  tone_timer := none

/-- `digitalWrite` to D4 stops the soft PWM, and a write to PTB0 does not. -/
theorem sampleRunning_differs :
    canonicalizePin .PVT1E 0xa4 = canonicalizePin .PVT1E (PTB 0) ∧
      ¬ Alike ((PinOp.digitalWrite 0).run .PVT1E (fun _ => none) sampleRunning 0xa4)
        ((PinOp.digitalWrite 0).run .PVT1E (fun _ => none) sampleRunning (PTB 0)) := by
  refine ⟨rfl, fun alike => ?_⟩
  have threshold := congrFun alike.soft_pwm 0
  revert threshold
  decide

/-- The two names of pin 4 without its port do the same. -/
theorem sampleRunning_alike :
    canonicalizePin .PVT1E 0xa4 = canonicalizePin .PVT1E 0x84 ∧
      Alike ((PinOp.digitalWrite 0).run .PVT1E (fun _ => none) sampleRunning 0xa4)
        ((PinOp.digitalWrite 0).run .PVT1E (fun _ => none) sampleRunning 0x84) := by
  refine ⟨rfl, (aliases_alike_iff .PVT1E (fun _ => none) sampleRunning 0xa4 0x84 rfl _).mpr ?_⟩
  intro i
  match i with
  | 0 => exact .inl (by decide)
  | 1 => exact .inl (by decide)

end Pins

end LtcOs.Arduino
