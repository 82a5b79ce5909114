import Mathlib.Tactic

/-!
Pins for Arduino programs (`arduino-io.c`, `arduino-pwm.c`, `arduino-tone.c`).

A pin is any `int`: a number of the board, `D0` and `A0` and so on, a port and pad, or the
name of an LED or a serial line. Every entry point finds the pad for itself and decides for
itself whether the program may use it. The timers behind PWM and tones are kept as far as the
calls set them; they drive the level of a pad and not its configuration.
-/

namespace LtcOs.Arduino

/-! ### Pads -/

inductive Port where
  | IOPORT1
  | IOPORT2
deriving DecidableEq, Repr

/-- A pad of a port. -/
abbrev Pad := Port × Fin 32

instance neZero_pads : NeZero 32 := ⟨by decide⟩

instance neZero_channels : NeZero 2 := ⟨by decide⟩

/-- The board revisions. -/
inductive Board where
  | PVT1C
  | PVT1E
deriving DecidableEq, Repr

/-- The modes of `pal.h` and `pal_lld.h`. -/
inductive PalMode where
  | RESET
  | UNCONNECTED
  | INPUT
  | INPUT_PULLUP
  | INPUT_PULLDOWN
  | INPUT_ANALOG
  | OUTPUT_PUSHPULL
  | ALTERNATIVE_1
  | ALTERNATIVE_2
  | ALTERNATIVE_3
  | ALTERNATIVE_4
  | ALTERNATIVE_5
  | ALTERNATIVE_6
  | ALTERNATIVE_7
deriving DecidableEq, Repr

inductive PinMode where
  | INPUT
  | OUTPUT
  | INPUT_PULLUP
  | INPUT_PULLDOWN
deriving DecidableEq, Repr

def PORTx_PCRn_MUX_MASK : BitVec 32 := 0x700

def PORTx_PCRn_MUX (x : BitVec 32) : BitVec 32 := x <<< 8 &&& PORTx_PCRn_MUX_MASK

def PORTx_PCRn_PE : BitVec 32 := 2

def PORTx_PCRn_PS : BitVec 32 := 1

/-- A PWM unit: whether it is started, and the channels it drives with their widths. -/
structure PwmDriver where
  ready : Bool
  enabled : Nat → Bool
  width : Nat → Int

inductive PwmId where
  | PWMD1
  | PWMD2
deriving DecidableEq, Repr

/-- The registers of the pads, and the variables of the three files. The bits of `PDDR`,
`PDOR` and `PDIR` are kept by pad. -/
structure Pins where
  pcr : Pad → BitVec 32
  pddr : Pad → Bool
  pdor : Pad → Bool
  pdir : Pad → Bool
  sudo_mode : Bool
  soft_pwm : Fin 2 → Int
  soft_pwm_running : Bool
  pwm : PwmId → PwmDriver
  analog_read_resolution : Nat
  lptmr_enabled : Bool
  lptmr_running : Bool
  lptmr_pad : Pad
  lptmr_rate : Nat
  tone_timer : Option (Nat × BitVec 32)

namespace Pins

/-! ### The port driver -/

/-- The value `_pal_lld_setpadmode` stores in the control register. -/
def modePcr : PalMode → BitVec 32
  | .RESET => PORTx_PCRn_MUX 1
  | .INPUT => PORTx_PCRn_MUX 1
  | .OUTPUT_PUSHPULL => PORTx_PCRn_MUX 1
  | .INPUT_PULLUP => PORTx_PCRn_MUX 1 ||| PORTx_PCRn_PE ||| PORTx_PCRn_PS
  | .INPUT_PULLDOWN => PORTx_PCRn_MUX 1 ||| PORTx_PCRn_PE
  | .UNCONNECTED => PORTx_PCRn_MUX 0
  | .INPUT_ANALOG => PORTx_PCRn_MUX 0
  | .ALTERNATIVE_1 => PORTx_PCRn_MUX 1
  | .ALTERNATIVE_2 => PORTx_PCRn_MUX 2
  | .ALTERNATIVE_3 => PORTx_PCRn_MUX 3
  | .ALTERNATIVE_4 => PORTx_PCRn_MUX 4
  | .ALTERNATIVE_5 => PORTx_PCRn_MUX 5
  | .ALTERNATIVE_6 => PORTx_PCRn_MUX 6
  | .ALTERNATIVE_7 => PORTx_PCRn_MUX 7

def palSetPadMode (s : Pins) (pad : Pad) (mode : PalMode) : Pins :=
  { s with
    pddr := Function.update s.pddr pad (mode == .OUTPUT_PUSHPULL)
    pcr := Function.update s.pcr pad (modePcr mode) }

def palWritePad (s : Pins) (pad : Pad) (bit : Bool) : Pins :=
  { s with pdor := Function.update s.pdor pad bit }

/-- An input with a pull-down is reported as a plain input. -/
def palGetPadMode (s : Pins) (pad : Pad) : PalMode :=
  let mux := s.pcr pad &&& PORTx_PCRn_MUX_MASK
  if mux = PORTx_PCRn_MUX 0 then .INPUT_ANALOG
  else if mux = PORTx_PCRn_MUX 2 then .ALTERNATIVE_2
  else if mux = PORTx_PCRn_MUX 3 then .ALTERNATIVE_3
  else if mux = PORTx_PCRn_MUX 4 then .ALTERNATIVE_4
  else if mux = PORTx_PCRn_MUX 5 then .ALTERNATIVE_5
  else if mux = PORTx_PCRn_MUX 6 then .ALTERNATIVE_6
  else if mux = PORTx_PCRn_MUX 7 then .ALTERNATIVE_7
  else if mux = PORTx_PCRn_MUX 1 then
    if s.pddr pad then .OUTPUT_PUSHPULL
    else if s.pcr pad &&& (PORTx_PCRn_PE ||| PORTx_PCRn_PS) = PORTx_PCRn_PE ||| PORTx_PCRn_PS then .INPUT_PULLUP
    else .INPUT
  else .UNCONNECTED

/-! ### Pin numbers -/

def PTA (x : BitVec 32) : BitVec 32 := 0x40 ||| x

def PTB (x : BitVec 32) : BitVec 32 := 0x40 ||| (32 + x)

def LED_BUILTIN : BitVec 32 := 32
def LED_BUILTIN_RGB : BitVec 32 := 33
def LED_BUILTIN_RED : BitVec 32 := 34
def LED_BUILTIN_GREEN : BitVec 32 := 35
def AUDIO_IN : BitVec 32 := 36
def UART_TX : BitVec 32 := 37
def UART_RX : BitVec 32 := 38
def SWD_CLK : BitVec 32 := 39
def SWD_DIO : BitVec 32 := 40
def RST_LEVEL : BitVec 32 := 41

/-- The alternate pad of pin 3. -/
def alternate3 : Board → Pad
  | .PVT1C => (.IOPORT2, 4)
  | .PVT1E => (.IOPORT2, 3)

def alternatePin3 : Board → BitVec 32
  | .PVT1C => PTB 4
  | .PVT1E => PTB 3

def canonicalizePin (board : Board) (pin : BitVec 32) : BitVec 32 :=
  let masked_pin := if pin &&& 0xf0 = 0xa0 then pin &&& ~~~0xf0 else pin
  let masked_pin := if masked_pin &&& 0xf0 = 0x80 then masked_pin &&& ~~~0xf0 else masked_pin
  if masked_pin ∈ [PTB 10, PTA 8, LED_BUILTIN, 0] then 0
  else if masked_pin ∈ [PTB 11, PTA 9, 1] then 1
  else if masked_pin ∈ [PTA 12, 2] then 2
  else if masked_pin ∈ [PTB 13, alternatePin3 board, 3] then 3
  else if masked_pin ∈ [PTB 0, 4] then 4
  else if masked_pin ∈ [PTA 7, 5] then 5
  else if masked_pin = PTA 5 then LED_BUILTIN_RED
  else if masked_pin = PTA 6 then LED_BUILTIN_RGB
  else if masked_pin = PTB 6 then LED_BUILTIN_GREEN
  else if masked_pin = PTB 5 then AUDIO_IN
  else if masked_pin = PTB 2 then UART_TX
  else if masked_pin = PTB 1 then UART_RX
  else if masked_pin = PTA 0 then SWD_CLK
  else if masked_pin = PTA 2 then SWD_DIO
  else if masked_pin = PTB 7 then RST_LEVEL
  else pin

/-- The low five bits of a pin. -/
def lowPad (pin : BitVec 32) : Fin 32 := ⟨(pin &&& 0x1f).toNat % 32, Nat.mod_lt _ (by decide)⟩

/-- None is the error return. -/
def pinToPort (board : Board) (pin : BitVec 32) : Option Pad :=
  let canonical := canonicalizePin board pin
  if canonical = 0 then some (.IOPORT2, 10)
  else if canonical = 1 then some (.IOPORT2, 11)
  else if canonical = 2 then some (.IOPORT1, 12)
  else if canonical = 3 then some (.IOPORT2, 13)
  else if canonical = 4 then some (.IOPORT2, 0)
  else if canonical = 5 then some (.IOPORT1, 7)
  else if canonical = LED_BUILTIN_RGB then some (.IOPORT1, 6)
  else if canonical = UART_TX then some (.IOPORT2, 2)
  else if canonical = UART_RX then some (.IOPORT2, 1)
  else if canonical = SWD_CLK then some (.IOPORT1, 0)
  else if canonical = SWD_DIO then some (.IOPORT1, 2)
  else if canonical = LED_BUILTIN_RED then some (.IOPORT1, 5)
  else if canonical = LED_BUILTIN_GREEN then some (.IOPORT2, 6)
  else if canonical = AUDIO_IN then some (.IOPORT2, 5)
  else if canonical = RST_LEVEL then some (.IOPORT2, 7)
  else if pin &&& 0xf0 = 0x40 then some (.IOPORT1, lowPad pin)
  else if pin &&& 0xf0 = 0x60 then some (.IOPORT2, lowPad pin)
  else none

/-- The pins of a program that is not in sudo mode. -/
def normal_mode_pins : List (BitVec 32) := [0, 1, 2, 3, 4, 5]

def canUsePin (board : Board) (s : Pins) (pin : BitVec 32) : Bool :=
  s.sudo_mode || decide (canonicalizePin board pin ∈ normal_mode_pins)

/-! ### Digital pins -/

/-- The alternate pads of A0, A1 and A3 are disconnected. -/
def disconnectAlternates (s : Pins) (board : Board) (pin : BitVec 32) : Pins :=
  let s := if pin = 0 then s.palSetPadMode (.IOPORT1, 8) .UNCONNECTED else s
  let s := if pin = 1 then s.palSetPadMode (.IOPORT1, 9) .UNCONNECTED else s
  if pin = 3 then s.palSetPadMode (alternate3 board) .UNCONNECTED else s

def pinMode (board : Board) (s : Pins) (pin : BitVec 32) (arduino_mode : PinMode) : Pins :=
  let pin := canonicalizePin board pin
  match pinToPort board pin with
  | none => s
  | some pad =>
      if canUsePin board s pin then
        (s.disconnectAlternates board pin).palSetPadMode pad (match arduino_mode with
          | .INPUT_PULLUP => .INPUT_PULLUP
          | .INPUT_PULLDOWN => .INPUT_PULLDOWN
          | .INPUT => .INPUT
          | .OUTPUT => .OUTPUT_PUSHPULL)
      else s

/-- The running PWM of pins 4 and 5 is stopped, and the level is set. -/
def writeLevel (s : Pins) (pin : BitVec 32) (pad : Pad) (value : BitVec 32) : Pins :=
  let s := if pin = 0xa4 ∨ pin = 0x84 ∨ pin = 4 then { s with soft_pwm := Function.update s.soft_pwm 0 (-1) } else s
  let s := if pin = 0xa5 ∨ pin = 0x85 ∨ pin = 5 then { s with soft_pwm := Function.update s.soft_pwm 1 (-1) } else s
  s.palWritePad pad (value != 0)

def digitalWrite (board : Board) (s : Pins) (pin value : BitVec 32) : Pins :=
  match pinToPort board pin with
  | none => s
  | some pad =>
      if canUsePin board s pin then
        match s.palGetPadMode pad with
        -- the pull-up of an input is set instead
        | .INPUT_PULLDOWN => s.palSetPadMode pad (if value ≠ 0 then .INPUT_PULLUP else .INPUT)
        | .INPUT => s.palSetPadMode pad (if value ≠ 0 then .INPUT_PULLUP else .INPUT)
        | .INPUT_PULLUP => s.palSetPadMode pad (if value ≠ 0 then .INPUT_PULLUP else .INPUT)
        | .ALTERNATIVE_2 => (s.palSetPadMode pad .OUTPUT_PUSHPULL).writeLevel pin pad value
        | _ => s.writeLevel pin pad value
      else s

/-- `LOW` is 0 and `HIGH` is 4. -/
def readLevel (board : Board) (s : Pins) (pin : BitVec 32) (pad : Pad) : Int × Pins :=
  if canUsePin board s pin then (if s.pdir pad then 4 else 0, s) else (0, s)

def digitalRead (board : Board) (s : Pins) (pin : BitVec 32) : Int × Pins :=
  match pinToPort board pin with
  | none => (0, s)
  | some pad =>
      match s.palGetPadMode pad with
      | .INPUT_ANALOG => readLevel board (s.palSetPadMode pad .INPUT) pin pad
      | .INPUT => readLevel board s pin pad
      | .INPUT_PULLUP => readLevel board s pin pad
      | .INPUT_PULLDOWN => readLevel board s pin pad
      | _ => (0, s)

/-! ### Analog pins -/

/-- The channel of a pin, by its number. -/
def pin_to_adc (board : Board) (pin : BitVec 32) : Option Nat :=
  let canonical := canonicalizePin board pin
  if canonical = 0 then some 9
  else if canonical = 1 then some 8
  else if canonical = 2 then some 0
  else if canonical = 3 then some 13
  else if canonical = 4 then some 6
  else if canonical = 5 then some 7
  else if canonical = 0x86 then some 26
  else if canonical = 0x87 then some 27
  else if canonical = 0x88 then some 29
  else if canonical = 0x89 then some 30
  else if canonical = 0x8a then some 1
  else none

def SYSTEM_ANALOG_RESOLUTION : Nat := 12

/-- The conversion, with what `adcConvert` gives: none for a failure. The sample has 16 bits. -/
def convert (board : Board) (adc : Nat → Option (BitVec 16)) (s : Pins) (pin : BitVec 32) :
    Int × Pins :=
  match pin_to_adc board pin with
  | none => (0, s)
  | some adc_num =>
      let sample := (adc adc_num).getD 0
      let sample :=
        if SYSTEM_ANALOG_RESOLUTION < s.analog_read_resolution then
          sample <<< (s.analog_read_resolution - SYSTEM_ANALOG_RESOLUTION)
        else if s.analog_read_resolution < SYSTEM_ANALOG_RESOLUTION then
          sample >>> (SYSTEM_ANALOG_RESOLUTION - s.analog_read_resolution)
        else sample
      (sample.toNat, s)

def analogRead (board : Board) (adc : Nat → Option (BitVec 16)) (s : Pins) (pin : BitVec 32) :
    Int × Pins :=
  match pinToPort board pin with
  | none => convert board adc s pin
  | some pad =>
      match s.palGetPadMode pad with
      | .INPUT => convert board adc (s.palSetPadMode pad .INPUT_ANALOG) pin
      | .INPUT_PULLUP => convert board adc (s.palSetPadMode pad .INPUT_ANALOG) pin
      | .INPUT_PULLDOWN => convert board adc (s.palSetPadMode pad .INPUT_ANALOG) pin
      | .INPUT_ANALOG => convert board adc s pin
      | _ => (0, s)

def ARDUINO_MAX : Int := 255

def SOFT_PWM_CYCLE : Int := 64

/-- 47972352 Hz divided by 16, and by two cycles of `ARDUINO_MAX`. -/
def PWM_PERIOD : Int := 47972352 / 16 / (2 * ARDUINO_MAX)

/-- The driver is started if necessary, and drives the channel. -/
def pwmDrive (s : Pins) (driver : PwmId) (channel : Nat) (width : Int) : Pins :=
  let unit := s.pwm driver
  let unit := if unit.ready then unit else { unit with ready := true, enabled := fun _ => false }
  let unit := { unit with
    enabled := Function.update unit.enabled channel true
    width := Function.update unit.width channel width }
  { s with pwm := Function.update s.pwm driver unit }

/-- The threshold of a channel; a value that is not zero is not rounded to zero. -/
def softThreshold (value : Int) : Int :=
  let threshold := value * SOFT_PWM_CYCLE / 256
  if value ≠ 0 ∧ threshold = 0 then 1 else threshold

def softDrive (s : Pins) (i : Fin 2) (pad : Pad) (value : Int) : Pins :=
  let s := { s with soft_pwm := Function.update s.soft_pwm i (softThreshold value) }
  { s.palSetPadMode pad .OUTPUT_PUSHPULL with soft_pwm_running := true }

/-- Between 0 and 255, for the principle of least surprise. -/
def clamp (value : Int) : Int :=
  let value := if ARDUINO_MAX < value then ARDUINO_MAX else value
  if value < 0 then 0 else value

def analogWrite (board : Board) (s : Pins) (pin value : BitVec 32) : Pins :=
  match pinToPort board pin with
  | none => s
  | some pad =>
      if s.palGetPadMode pad = .INPUT ∨ s.palGetPadMode pad = .INPUT_PULLUP ∨
          s.palGetPadMode pad = .INPUT_PULLDOWN ∨ s.palGetPadMode pad = .INPUT_ANALOG then s
      else
        let value := clamp value.toInt
        let width := value * PWM_PERIOD / ARDUINO_MAX
        let canonical := canonicalizePin board pin
        if canonical = 0 then
          ((s.palSetPadMode (.IOPORT1, 8) .UNCONNECTED).palSetPadMode pad .ALTERNATIVE_2).pwmDrive
            .PWMD1 1 width
        else if canonical = 1 then
          ((s.palSetPadMode (.IOPORT1, 9) .UNCONNECTED).palSetPadMode pad .ALTERNATIVE_2).pwmDrive
            .PWMD1 0 width
        else if canonical = 2 then (s.palSetPadMode pad .ALTERNATIVE_2).pwmDrive .PWMD2 0 width
        else if canonical = 3 then
          ((s.palSetPadMode (alternate3 board) .UNCONNECTED).palSetPadMode pad .ALTERNATIVE_2).pwmDrive .PWMD2 1 width
        else if canonical = 4 then s.softDrive 0 pad value
        else if canonical = 5 then s.softDrive 1 pad value
        else s

/-! ### Tones -/

/-- The rate of the low-power timer. -/
def RATE : Nat := 2000000

/-- A timer that runs keeps its pad. -/
def startLptmr (s : Pins) (pad : Pad) (rate_hz : BitVec 32) : Pins :=
  if rate_hz = 0 then s
  else
    let s := { s with lptmr_rate := RATE / rate_hz.toNat, lptmr_enabled := true }
    if s.lptmr_running then s else { s with lptmr_running := true, lptmr_pad := pad }

def stopLptmr (s : Pins) : Pins := { s with lptmr_running := false }

/-- At 1000 ticks a second. -/
def MS2ST (msec : BitVec 32) : Nat := (msec * 1000 + 999).toNat / 1000

def tone (board : Board) (s : Pins) (pin frequency duration : BitVec 32) : Pins :=
  match pinToPort board pin with
  | none => s
  | some pad =>
      if 65536 < frequency.toNat then s
      else if canUsePin board s pin then
        let s := (s.palSetPadMode pad .OUTPUT_PUSHPULL).startLptmr pad frequency
        if duration ≠ 0 then { s with tone_timer := some (MS2ST duration, pin) } else s
      else s

def noTone (board : Board) (s : Pins) (pin : BitVec 32) : Pins :=
  digitalWrite board s.stopLptmr pin 0

/-! ### Sequences of calls -/

inductive PinCall where
  | pinMode (pin : BitVec 32) (mode : PinMode)
  | digitalWrite (pin value : BitVec 32)
  | digitalRead (pin : BitVec 32)
  | analogRead (pin : BitVec 32)
  | analogWrite (pin value : BitVec 32)
  | tone (pin frequency duration : BitVec 32)
  | noTone (pin : BitVec 32)
deriving DecidableEq, Repr

def call (board : Board) (adc : Nat → Option (BitVec 16)) (s : Pins) : PinCall → Pins
  | .pinMode pin mode => pinMode board s pin mode
  | .digitalWrite pin value => digitalWrite board s pin value
  | .digitalRead pin => (digitalRead board s pin).2
  | .analogRead pin => (analogRead board adc s pin).2
  | .analogWrite pin value => analogWrite board s pin value
  | .tone pin frequency duration => tone board s pin frequency duration
  | .noTone pin => noTone board s pin

/-- Calls in order; every conversion may give other samples. -/
def calls (board : Board) (s : Pins) (list : List (PinCall × (Nat → Option (BitVec 16)))) : Pins :=
  list.foldl (fun s c => call board c.2 s c.1) s

end Pins

end LtcOs.Arduino
