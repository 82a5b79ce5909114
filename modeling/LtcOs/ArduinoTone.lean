import LtcOs.ArduinoAliases
import LtcOs.Kernel.VirtualTimers

/-!
Tones over time (`arduino-tone.c`, `lptmr.c`).

All tones share the low-power timer and one virtual timer that stops them. `Pins.tone` says what
a call does to the pins and what it asks of `tone_timer`; here the request goes to the list of
virtual timers, where the timers of others are too, and the callback stops the tone.
-/

namespace LtcOs.Arduino

open LtcOs.Timers

/-- The callbacks of virtual timers. -/
inductive ToneFunc where
  | stop_tone
  | other
deriving DecidableEq, Repr

/-- A call of `tone`: its tick, its duration, and whether it starts a tone; a call of `noTone`;
the callback of `tone_timer`. -/
inductive ToneEvent where
  | tone (tick : Nat) (duration : BitVec 32) (started : Bool)
  | noTone (tick : Nat)
  | expired (tick : Nat)
deriving DecidableEq, Repr

/-- A call of `tone` or `noTone`. -/
def ToneEvent.isCall : ToneEvent → Bool
  | .expired _ => false
  | _ => true

/-- `tone_timer` is the timer `none`; the others are named by `V`. -/
structure Tones (V : Type) where
  pins : Pins
  vts : Sys (Option V) ToneFunc (BitVec 32)
  log : List ToneEvent

variable {V : Type}

namespace Tones

open Pins

/-! ### The code -/

section Code

variable [DecidableEq V]

/-- `chVTSet`: an armed timer is reset first. -/
def chVTSet (vts : Sys (Option V) ToneFunc (BitVec 32)) (fuel : Nat) (vtp : Option V)
    (delay : UInt32) (vtfunc : ToneFunc) (par : BitVec 32) :
    Option (Sys (Option V) ToneFunc (BitVec 32)) :=
  let vts := if (vts.vt.vt_func vtp).isSome then { vts with
      vt := vts.vt.chVTDoResetI vtp
      log := vts.log ++ [.reset vts.ticks vtp] }
    else vts
  (vts.vt.chVTDoSetI fuel vtp delay vtfunc par).map fun vt => { vts with
    vt := vt
    log := vts.log ++ [.set vts.ticks vtp delay vtfunc par] }

/-- A call on a pin of the program, with a valid frequency that is not zero. -/
def Starts (board : Board) (s : Pins) (pin frequency : BitVec 32) : Prop :=
  (pinToPort board pin).isSome ∧ frequency.toNat ≤ 65536 ∧ canUsePin board s pin ∧ frequency ≠ 0

instance (board : Board) (s : Pins) (pin frequency : BitVec 32) :
    Decidable (Starts board s pin frequency) := inferInstanceAs (Decidable (_ ∧ _))

/-- The call on the pins, with its request handed on to `chVTSet`. -/
def tone (board : Board) (s : Tones V) (fuel : Nat) (pin frequency duration : BitVec 32) :
    Option (Tones V) :=
  let pins := Pins.tone board { s.pins with tone_timer := none } pin frequency duration
  let log := s.log ++ [.tone s.vts.ticks duration (decide (Starts board s.pins pin frequency))]
  match pins.tone_timer with
  | none => some ⟨pins, s.vts, log⟩
  | some (delay, par) =>
      (chVTSet s.vts fuel none (UInt32.ofNat delay) .stop_tone par).map fun vts => ⟨pins, vts, log⟩

def noTone (board : Board) (s : Tones V) (pin : BitVec 32) : Tones V :=
  { s with
    pins := Pins.noTone board s.pins pin
    log := s.log ++ [.noTone s.vts.ticks] }

/-- The tick handler takes `tone_timer` off the list and calls `stop_tone`. -/
def expire (board : Board) (s : Tones V) : Tones V where
  pins := Pins.noTone board s.pins (s.vts.vt.vt_par none)
  vts := { s.vts with
    vt := s.vts.vt.expire none
    mode := .callback
    log := s.vts.log ++ [.fire s.vts.ticks none .stop_tone (s.vts.vt.vt_par none)
      ((s.vts.vt.expire none).vt_func none)] }
  log := s.log ++ [.expired s.vts.ticks]

/-! ### Runs -/

/-- Calls from the program or from the callbacks of other timers, as far as `ok` allows them,
anything on other timers, ticks, and the expiry of `tone_timer`. -/
inductive Step (board : Board) (ok : Tones V → BitVec 32 → BitVec 32 → BitVec 32 → Prop) :
    Tones V → Tones V → Prop where
  | tone {s s' : Tones V} (fuel : Nat) (pin frequency duration : BitVec 32)
      (outside : s.vts.mode ≠ .looping) (allowed : ok s pin frequency duration)
      (result : s.tone board fuel pin frequency duration = some s') : Step board ok s s'
  | noTone {s : Tones V} (pin : BitVec 32) (outside : s.vts.mode ≠ .looping) :
      Step board ok s (s.noTone board pin)
  | timers {s : Tones V} {vts : Sys (Option V) ToneFunc (BitVec 32)} (step : Timers.Step s.vts vts)
      (other : ¬ about s.vts vts none) : Step board ok s { s with vts := vts }
  | expire {s : Tones V} (looping : s.vts.mode = .looping)
      (first : s.vts.vt.links.next none = some none) (due : s.vts.vt.vt_delta (some none) = 0)
      (func : s.vts.vt.vt_func none = some .stop_tone) : Step board ok s (s.expire board)

/-- States reached from the start, where no timer is armed. -/
def Reachable (board : Board) (ok : Tones V → BitVec 32 → BitVec 32 → BitVec 32 → Prop)
    (s : Tones V) : Prop :=
  ∃ pins, ∃ vt : VtList (Option V) ToneFunc (BitVec 32),
    Relation.ReflTransGen (Step board ok) ⟨pins, ⟨vt._vt_init, .idle, 0, []⟩, []⟩ s

end Code

/-! ### What is wanted -/

/-- A tone that is the last call so far. Without a duration it goes on; with one, it goes on to
the tick at which this is over and ends there. And no tone ends by another call's duration. -/
structure Lasting (s : Tones V) : Prop where
  endless : ∀ pre tick post, s.log = pre ++ .tone tick 0 true :: post →
    (∀ e ∈ post, e.isCall = false) → post = [] ∧ s.pins.lptmr_running = true
  timed : ∀ pre tick duration post, s.log = pre ++ .tone tick duration true :: post →
    (∀ e ∈ post, e.isCall = false) → duration ≠ 0 → duration.toNat ≤ 4294966 →
      (post = [] ∧ s.pins.lptmr_running = true ∧ s.vts.ticks ≤ tick + duration.toNat ∧
        (s.vts.mode = .idle → s.vts.ticks < tick + duration.toNat)) ∨
      (post = [.expired (tick + duration.toNat)] ∧ s.pins.lptmr_running = false)
  own : ∀ pre tick duration mid m post,
    s.log = pre ++ .tone tick duration true :: (mid ++ .expired m :: post) →
    (∀ e ∈ mid, e.isCall = false) → duration.toNat ≤ 4294966 →
      duration ≠ 0 ∧ m = tick + duration.toNat

/-- A tone without a duration starts while `tone_timer` is not armed, and a duration is at least
one tick. -/
def Fresh (board : Board) (s : Tones V) (pin frequency duration : BitVec 32) : Prop :=
  (Starts board s.pins pin frequency → duration = 0 → s.vts.vt.vt_func none = none) ∧
    (duration ≠ 0 → MS2ST duration ≠ 0)

theorem MS2ST_eq {duration : BitVec 32} (fits : duration.toNat ≤ 4294966) :
    MS2ST duration = duration.toNat := by
  unfold MS2ST
  have : (duration * 1000 + 999).toNat = duration.toNat * 1000 + 999 := by bv_omega
  omega

/-! ### Calls on the pins -/

section Calls

variable {board : Board} {s : Pins} {pin frequency duration : BitVec 32}

theorem writeLevel_lptmr (s : Pins) (pin : BitVec 32) (pad : Pad) (value : BitVec 32) :
    (s.writeLevel pin pad value).lptmr_running = s.lptmr_running := by
  unfold writeLevel
  split_ifs <;> rfl

theorem asOutput_lptmr (s : Pins) (pad : Pad) : (s.asOutput pad).lptmr_running = s.lptmr_running := by
  unfold asOutput
  split_ifs <;> rfl

theorem digitalWrite_lptmr (board : Board) (s : Pins) (pin value : BitVec 32) :
    (digitalWrite board s pin value).lptmr_running = s.lptmr_running := by
  rcases digitalWrite_cases board s pin value with same | ⟨pad, -, input | output⟩
  · rw [same]
  · rw [input]
    rfl
  · rw [output, writeLevel_lptmr, asOutput_lptmr]

theorem noTone_lptmr (board : Board) (s : Pins) (pin : BitVec 32) :
    (Pins.noTone board s pin).lptmr_running = false := digitalWrite_lptmr board s.stopLptmr pin 0

theorem startLptmr_lptmr (pad : Pad) (nonzero : frequency ≠ 0) :
    (s.startLptmr pad frequency).lptmr_running = true := by
  unfold startLptmr
  rw [if_neg nonzero]
  dsimp only
  split_ifs with running
  · exact running
  · rfl

theorem startLptmr_tone_timer (s : Pins) (pad : Pad) (frequency : BitVec 32) :
    (s.startLptmr pad frequency).tone_timer = s.tone_timer := by
  unfold startLptmr
  dsimp only
  split_ifs <;> rfl

theorem tone_starts (duration : BitVec 32) (starts : Starts board s pin frequency)
    (empty : s.tone_timer = none) :
    (Pins.tone board s pin frequency duration).lptmr_running = true ∧
      (Pins.tone board s pin frequency duration).tone_timer =
        if duration = 0 then none else some (MS2ST duration, pin) := by
  obtain ⟨found, valid, can, nonzero⟩ := starts
  obtain ⟨pad, found⟩ := Option.isSome_iff_exists.mp found
  have running := startLptmr_lptmr (s := s.palSetPadMode pad .OUTPUT_PUSHPULL) pad nonzero
  have request : ((s.palSetPadMode pad .OUTPUT_PUSHPULL).startLptmr pad frequency).tone_timer = none :=
    (startLptmr_tone_timer _ _ _).trans empty
  simp only [Pins.tone, found, if_neg (not_lt.mpr valid), if_pos can]
  by_cases zero : duration = 0
  · simp only [zero, ne_eq, not_true, if_false, if_true]
    exact ⟨running, request⟩
  · simp only [zero, ne_eq, not_false_iff, if_false, if_true, and_true]
    exact running

/-- A request is for the duration of the call. -/
theorem tone_request (empty : s.tone_timer = none) {delay : Nat} {par : BitVec 32}
    (request : (Pins.tone board s pin frequency duration).tone_timer = some (delay, par)) :
    duration ≠ 0 ∧ delay = MS2ST duration := by
  unfold Pins.tone at request
  dsimp only at request
  split at request
  · rw [empty] at request
    cases request
  · split_ifs at request with high can nonzero
    · rw [empty] at request
      cases request
    · cases request
      exact ⟨nonzero, rfl⟩
    · rw [startLptmr_tone_timer] at request
      exact absurd (request.symm.trans empty) (by simp)
    · rw [empty] at request
      cases request

end Calls

/-! ### The timer -/

section Timer

variable [DecidableEq V] {vts vts' : Sys (Option V) ToneFunc (BitVec 32)}

theorem armed_iff (reachable : Timers.Reachable vts) (t : Option V) :
    vts.vt.vt_func t ≠ none ↔ armedBy t vts.log ≠ none := (timers_on_time reachable).2.2.2.1 t

/-- A timer that is set expires after its delay, whatever was asked of it before. -/
theorem chVTSet_spec (reachable : Timers.Reachable vts) (outside : vts.mode ≠ .looping)
    {fuel : Nat} {vtp : Option V} {delay : UInt32} {f : ToneFunc} {par : BitVec 32}
    (later : delay ≠ 0) (result : chVTSet vts fuel vtp delay f par = some vts') :
    Timers.Reachable vts' ∧ vts'.ticks = vts.ticks ∧ vts'.mode = vts.mode ∧
      armedBy vtp vts'.log = some (vts.ticks + delay.toNat, f, par) := by
  have last : ∀ log : List (Event (Option V) ToneFunc (BitVec 32)),
      armedBy vtp (log ++ [.set vts.ticks vtp delay f par]) =
        some (vts.ticks + delay.toNat, f, par) := by
    intro log
    rw [armedBy_concat, arm_set]
  obtain ⟨vt₀, run⟩ := reachable
  by_cases armed : (vts.vt.vt_func vtp).isSome
  · simp only [chVTSet, if_pos armed] at result
    obtain ⟨vt, set, rfl⟩ := Option.map_eq_some_iff.mp result
    have reset := Timers.Step.reset vtp outside (Option.isSome_iff_ne_none.mp armed)
    have unarmed : (vts.vt.chVTDoResetI vtp).vt_func vtp = none := Function.update_self _ _ _
    exact ⟨⟨vt₀, (run.tail reset).tail (.set fuel vtp delay f par outside unarmed later set)⟩, rfl, rfl,
      last _⟩
  · simp only [chVTSet, if_neg armed] at result
    obtain ⟨vt, set, rfl⟩ := Option.map_eq_some_iff.mp result
    have unarmed : vts.vt.vt_func vtp = none := by simpa using armed
    exact ⟨⟨vt₀, run.tail (.set fuel vtp delay f par outside unarmed later set)⟩, rfl, rfl, last _⟩

/-- A callback runs in the tick its timer is armed for. -/
theorem armedBy_fire (reachable : Timers.Reachable vts) {t : Option V} {f : ToneFunc}
    (looping : vts.mode = .looping) (first : vts.vt.links.next none = some t)
    (due : vts.vt.vt_delta (some t) = 0) (func : vts.vt.vt_func t = some f) :
    ∃ p, armedBy t vts.log = some (vts.ticks, f, p) := by
  obtain ⟨l, inv⟩ := reachable.inv
  obtain ⟨l', inv'⟩ := inv_step inv (.fire t f looping first due func)
  obtain ⟨armed, -⟩ := inv'.log vts.log [] _ _ _ _ _ rfl
  exact ⟨_, armed⟩

end Timer

/-! ### Whole runs -/

section Runs

variable [DecidableEq V] {board : Board} {s s' : Tones V}

/-- What comes after the start of a tone, as long as nothing else is called. -/
inductive After (s : Tones V) (tick : Nat) (duration : BitVec 32) : List ToneEvent → Prop where
  | endless (zero : duration = 0) (running : s.pins.lptmr_running = true)
      (unarmed : armedBy none s.vts.log = none) : After s tick duration []
  | playing (nonzero : duration ≠ 0) (running : s.pins.lptmr_running = true) (f : ToneFunc)
      (p : BitVec 32) (armed : armedBy none s.vts.log = some (tick + MS2ST duration, f, p)) :
      After s tick duration []
  | ended (nonzero : duration ≠ 0) (stopped : s.pins.lptmr_running = false)
      (unarmed : armedBy none s.vts.log = none) :
      After s tick duration [.expired (tick + MS2ST duration)]

structure Inv (s : Tones V) : Prop where
  reachable : Timers.Reachable s.vts
  after : ∀ pre tick duration post, s.log = pre ++ .tone tick duration true :: post →
    (∀ e ∈ post, e.isCall = false) → After s tick duration post
  own : ∀ pre tick duration mid m post,
    s.log = pre ++ .tone tick duration true :: (mid ++ .expired m :: post) →
    (∀ e ∈ mid, e.isCall = false) → duration ≠ 0 ∧ m = tick + MS2ST duration

omit [DecidableEq V] in
/-- A new event is the one looked at, or comes at the end of what follows it. -/
theorem split_concat {l pre post : List ToneEvent} {e x : ToneEvent}
    (split : l ++ [e] = pre ++ x :: post) :
    (post = [] ∧ l = pre ∧ e = x) ∨ ∃ post', post = post' ++ [e] ∧ l = pre ++ x :: post' := by
  rcases List.eq_nil_or_concat post with rfl | ⟨post', y, rfl⟩
  · obtain ⟨rfl, last⟩ := List.append_inj' split rfl
    exact .inl ⟨rfl, rfl, List.singleton_inj.mp last⟩
  · rw [List.concat_eq_append, ← List.cons_append, ← List.append_assoc] at split
    obtain ⟨rfl, last⟩ := List.append_inj' split rfl
    obtain rfl := List.singleton_inj.mp last
    exact .inr ⟨post', List.concat_eq_append, rfl⟩

/-- A call ends what was said of the tones before it. -/
theorem Inv.call (inv : Inv s) {e : ToneEvent} (call : e.isCall = true)
    (reachable : Timers.Reachable s'.vts) (log : s'.log = s.log ++ [e])
    (started : ∀ tick duration, e = .tone tick duration true → After s' tick duration []) :
    Inv s' := by
  refine ⟨reachable, ?_, ?_⟩
  · intro pre tick duration post split quiet
    rw [log] at split
    rcases split_concat split with ⟨rfl, -, rfl⟩ | ⟨post', rfl, -⟩
    · exact started tick duration rfl
    · have no := quiet e (List.mem_append_right _ (List.mem_singleton_self e))
      exact absurd (no.symm.trans call) Bool.false_ne_true
  · intro pre tick duration mid m post split quiet
    rw [log, ← List.cons_append, ← List.append_assoc] at split
    rcases split_concat split with ⟨rfl, -, rfl⟩ | ⟨post', rfl, earlier⟩
    · exact absurd call Bool.false_ne_true
    · rw [List.append_assoc, List.cons_append] at earlier
      exact inv.own pre tick duration mid m post' earlier quiet

theorem Inv.tone (inv : Inv s) {fuel : Nat} {pin frequency duration : BitVec 32}
    (outside : s.vts.mode ≠ .looping) (fresh : Fresh board s pin frequency duration)
    (result : s.tone board fuel pin frequency duration = some s') : Inv s' := by
  have empty : { s.pins with tone_timer := none }.tone_timer = none := rfl
  unfold Tones.tone at result
  dsimp only at result
  split at result
  · next none_asked =>
    cases result
    refine inv.call rfl inv.reachable rfl ?_
    intro tick duration' is
    obtain ⟨rfl, rfl, is_started⟩ := ToneEvent.tone.inj is
    have starts : Starts board s.pins pin frequency := of_decide_eq_true is_started
    obtain ⟨running, request⟩ := tone_starts (s := { s.pins with tone_timer := none }) duration
      starts rfl
    have zero : duration = 0 := by
      by_contra nonzero
      rw [if_neg nonzero, none_asked] at request
      cases request
    refine .endless zero running ?_
    by_contra armed
    exact (armed_iff inv.reachable none).mpr armed (fresh.1 starts zero)
  · next delay par asked =>
    obtain ⟨nonzero, rfl⟩ := tone_request empty asked
    obtain ⟨vts, set, rfl⟩ := Option.map_eq_some_iff.mp result
    have small : MS2ST duration < 4294967296 := by
      unfold MS2ST
      omega
    have delay : (UInt32.ofNat (MS2ST duration)).toNat = MS2ST duration :=
      UInt32.toNat_ofNat_of_lt' small
    have later : UInt32.ofNat (MS2ST duration) ≠ 0 := by
      intro zero
      rw [zero] at delay
      exact fresh.2 nonzero delay.symm
    obtain ⟨reachable, ticks, -, armed⟩ := chVTSet_spec inv.reachable outside later set
    refine inv.call rfl reachable rfl ?_
    intro tick duration' is
    obtain ⟨rfl, rfl, is_started⟩ := ToneEvent.tone.inj is
    have starts : Starts board s.pins pin frequency := of_decide_eq_true is_started
    obtain ⟨running, -⟩ := tone_starts (s := { s.pins with tone_timer := none }) duration
      starts rfl
    rw [delay] at armed
    exact .playing nonzero running _ _ armed

theorem Inv.expire (inv : Inv s) (looping : s.vts.mode = .looping)
    (first : s.vts.vt.links.next none = some none) (due : s.vts.vt.vt_delta (some none) = 0)
    (func : s.vts.vt.vt_func none = some .stop_tone) : Inv (s.expire board) := by
  obtain ⟨p, armed⟩ := armedBy_fire inv.reachable looping first due func
  have reachable : Timers.Reachable (s.expire board).vts := by
    obtain ⟨vt, run⟩ := inv.reachable
    have step : Timers.Step s.vts (s.expire board).vts :=
      Timers.Step.fire none ToneFunc.stop_tone looping first due func
    exact ⟨vt, run.tail step⟩
  have unarmed : armedBy none (s.expire board).vts.log = none := by
    change armedBy none (s.vts.log ++ [.fire _ none _ _ _]) = none
    rw [armedBy_concat, arm_fire]
  have stopped : (s.expire board).pins.lptmr_running = false := noTone_lptmr _ _ _
  -- only a tone that plays finds the timer armed
  have playing : ∀ tick duration post, After s tick duration post →
      duration ≠ 0 ∧ post = [] ∧ s.vts.ticks = tick + MS2ST duration := by
    intro tick duration post after
    cases after with
    | endless _ _ unarmed' => exact absurd (unarmed'.symm.trans armed) (by simp)
    | playing nonzero _ f p' armed' =>
        have same := Option.some.inj (armed.symm.trans armed')
        exact ⟨nonzero, rfl, congrArg Prod.fst same⟩
    | ended _ _ unarmed' => exact absurd (unarmed'.symm.trans armed) (by simp)
  refine ⟨reachable, ?_, ?_⟩
  · intro pre tick duration post split quiet
    rcases split_concat (l := s.log) split with ⟨-, -, is⟩ | ⟨post', rfl, earlier⟩
    · cases is
    · have quiet' : ∀ e ∈ post', e.isCall = false := fun e mem =>
        quiet e (List.mem_append_left _ mem)
      obtain ⟨nonzero, rfl, ticks⟩ := playing _ _ _ (inv.after pre tick duration post' earlier quiet')
      rw [List.nil_append, ticks]
      exact .ended nonzero stopped unarmed
  · intro pre tick duration mid m post split quiet
    rw [← List.cons_append, ← List.append_assoc] at split
    rcases split_concat (l := s.log) split with ⟨rfl, earlier, is⟩ | ⟨post', rfl, earlier⟩
    · obtain rfl := ToneEvent.expired.inj is
      obtain ⟨nonzero, -, ticks⟩ := playing _ _ _ (inv.after pre tick duration mid earlier quiet)
      exact ⟨nonzero, ticks⟩
    · rw [List.append_assoc, List.cons_append] at earlier
      exact inv.own pre tick duration mid m post' earlier quiet

theorem Inv.timers (inv : Inv s) {vts : Sys (Option V) ToneFunc (BitVec 32)}
    (step : Timers.Step s.vts vts) (other : ¬ about s.vts vts none) :
    Inv { s with vts := vts } := by
  obtain ⟨vt, run⟩ := inv.reachable
  have same := armedBy_step step other
  refine ⟨⟨vt, run.tail step⟩, ?_, inv.own⟩
  intro pre tick duration post split quiet
  cases inv.after pre tick duration post split quiet with
  | endless zero running unarmed => exact .endless zero running (same.trans unarmed)
  | playing nonzero running f p armed => exact .playing nonzero running f p (same.trans armed)
  | ended nonzero stopped unarmed => exact .ended nonzero stopped (same.trans unarmed)

theorem Inv.step (inv : Inv s) (step : Step board (Fresh board) s s') : Inv s' := by
  cases step with
  | tone fuel pin frequency duration outside fresh result => exact inv.tone outside fresh result
  | noTone pin outside => exact inv.call rfl inv.reachable rfl nofun
  | timers step other => exact inv.timers step other
  | expire looping first due func => exact inv.expire looping first due func

theorem Reachable.inv (reachable : Reachable board (Fresh board) s) : Inv s := by
  obtain ⟨pins, vt, run⟩ := reachable
  induction run with
  | refl =>
      refine ⟨⟨vt, .refl⟩, ?_, ?_⟩
      · intro pre tick duration post split
        exact absurd split (by simp)
      · intro pre tick duration mid m post split
        exact absurd split (by simp)
  | tail _ step ih => exact ih.step step

theorem Inv.lasting (inv : Inv s) : Lasting s := by
  refine ⟨?_, ?_, ?_⟩
  · intro pre tick post split quiet
    cases inv.after pre tick 0 post split quiet with
    | endless _ running _ => exact ⟨rfl, running⟩
    | playing nonzero _ _ _ _ => exact absurd rfl nonzero
    | ended nonzero _ _ => exact absurd rfl nonzero
  · intro pre tick duration post split quiet nonzero fits
    have after := inv.after pre tick duration post split quiet
    obtain ⟨l, timers⟩ := inv.reachable.inv
    cases after with
    | endless zero _ _ => exact absurd zero nonzero
    | playing _ running f p armed =>
        obtain ⟨le, lt⟩ := timers.not_overdue armed
        rw [MS2ST_eq fits] at le lt
        exact .inl ⟨rfl, running, le, lt⟩
    | ended _ stopped _ =>
        rw [MS2ST_eq fits]
        exact .inr ⟨rfl, stopped⟩
  · intro pre tick duration mid m post split quiet fits
    obtain ⟨nonzero, ticks⟩ := inv.own pre tick duration mid m post split quiet
    exact ⟨nonzero, ticks.trans (by rw [MS2ST_eq fits])⟩

/-- In every run in which no tone without a duration starts while `tone_timer` is armed, a tone
lasts until the next call or the end of its own duration. -/
theorem tone_lifetime (board : Board) (s : Tones V) (reachable : Reachable board (Fresh board) s) :
    Lasting s := reachable.inv.lasting

end Runs

/-- No timer is armed. -/
def sampleStart : Tones Unit where
  pins := sampleRunning
  vts := ⟨(⟨⟨id, id⟩, fun _ => 0, fun _ => none, fun _ => 0, 0⟩ : VtList _ _ _)._vt_init, .idle, 0, []⟩
  log := []

/-- A tone of one millisecond on pin 0. -/
def sampleTone : Tones Unit := (sampleStart.tone .PVT1E 1 0 440 1).getD sampleStart

/-- The tick at which it is over. -/
def sampleTicked (s : Tones Unit) : Tones Unit :=
  { s with vts := { s.vts with vt := s.vts.vt.tick, mode := .looping, ticks := s.vts.ticks + 1 } }

/-- The tone ends with its own duration. -/
theorem sampleTone_lasting :
    Reachable .PVT1E (Fresh .PVT1E) ((sampleTicked sampleTone).expire .PVT1E) ∧
      Lasting ((sampleTicked sampleTone).expire .PVT1E) ∧
      ((sampleTicked sampleTone).expire .PVT1E).log = [.tone 0 1 true, .expired 1] := by
  have tone : Step .PVT1E (Fresh .PVT1E) sampleStart sampleTone :=
    .tone 1 0 440 1 (by decide) ⟨fun _ => by decide, fun _ => by decide⟩ rfl
  have tick : Step .PVT1E (Fresh .PVT1E) sampleTone (sampleTicked sampleTone) :=
    .timers (.tick rfl) (by simp [about])
  have expire : Step .PVT1E (Fresh .PVT1E) (sampleTicked sampleTone)
      ((sampleTicked sampleTone).expire .PVT1E) := .expire rfl rfl rfl rfl
  have reachable : Reachable .PVT1E (Fresh .PVT1E) ((sampleTicked sampleTone).expire .PVT1E) :=
    ⟨_, _, ((Relation.ReflTransGen.single tone).tail tick).tail expire⟩
  exact ⟨reachable, tone_lifetime .PVT1E _ reachable, rfl⟩

/-- Another tone that is to go on is started in its place. -/
def sampleAgain : Tones Unit := (sampleTone.tone .PVT1E 1 0 880 0).getD sampleTone

/-- The duration of the first tone ends the second. -/
theorem sampleAgain_stopped :
    Reachable .PVT1E (fun _ _ _ _ => True) ((sampleTicked sampleAgain).expire .PVT1E) ∧
      ((sampleTicked sampleAgain).expire .PVT1E).log =
        [.tone 0 1 true, .tone 0 0 true, .expired 1] ∧
      ¬ Lasting ((sampleTicked sampleAgain).expire .PVT1E) := by
  have tone : Step .PVT1E (fun _ _ _ _ => True) sampleStart sampleTone :=
    .tone 1 0 440 1 (by decide) trivial rfl
  have again : Step .PVT1E (fun _ _ _ _ => True) sampleTone sampleAgain :=
    .tone 1 0 880 0 (by decide) trivial rfl
  have tick : Step .PVT1E (fun _ _ _ _ => True) sampleAgain (sampleTicked sampleAgain) :=
    .timers (.tick rfl) (by simp [about])
  have expire : Step .PVT1E (fun _ _ _ _ => True) (sampleTicked sampleAgain)
      ((sampleTicked sampleAgain).expire .PVT1E) := .expire rfl rfl rfl rfl
  refine ⟨⟨_, _, (((Relation.ReflTransGen.single tone).tail again).tail tick).tail expire⟩, rfl, ?_⟩
  intro lasting
  have ends := lasting.endless [.tone 0 1 true] 0 [.expired 1] rfl (by decide)
  exact absurd ends.1 (by decide)

end Tones

end LtcOs.Arduino
