import LtcOs.Kernel.Effect
import LtcOs.Lib.Mask

/-!
Event flags (`chevents.c`).

A thread has a mask of pending events. A signal adds events to it, and wakes the thread if
that is what it waits for; a wait or a clear of the thread takes events away. The history
of a run says which events are pending: `replay` adds what is signalled and takes away what
is returned, and fails on an answer that a call must not give.
-/

namespace LtcOs.Kernel

open LtcOs.Mask

/-- The wait states; `OTHER` stands for everything but events. -/
inductive EvWait where
  | WTOREVT (ewmask : BitVec 32)
  | WTANDEVT (ewmask : BitVec 32)
  | OTHER
deriving DecidableEq, Repr

/-- `chEvtWaitOne`, `chEvtWaitAny` and `chEvtWaitAll`. -/
inductive EvKind where
  | one
  | any
  | all
deriving DecidableEq, Repr

/-- A wait a thread sleeps in; `timed` is for the variants with a timeout, which look at
the message of the thread when it wakes. -/
structure EvCall where
  kind : EvKind
  events : BitVec 32
  timed : Bool
deriving DecidableEq, Repr

inductive EvOp where
  | wait (kind : EvKind) (events : BitVec 32)
  | clear (events : BitVec 32)
deriving DecidableEq, Repr

/-- What happens to the events of a thread: some are signalled, a call returns some, a wait
times out. -/
inductive EvEvent (T : Type) where
  | signalled (tp : T) (events : BitVec 32)
  | answered (tp : T) (op : EvOp) (m : BitVec 32)
  | expired (tp : T) (kind : EvKind) (events m : BitVec 32)
deriving DecidableEq, Repr

structure Listener (T : Type) where
  el_listener : T
  el_events : BitVec 32
  el_flags : BitVec 32
  el_wflags : BitVec 32
deriving DecidableEq, Repr

/-- Threads, event sources `E` and listeners `L`. Timers expire in two steps, as those of
semaphores do. -/
structure Events (T E L : Type) where
  core : Core T EvWait
  p_epending : T → BitVec 32
  es_next : E → List L
  el : L → Listener T
  timer : T → Bool
  fired : Option T
  pc : T → Option EvCall
  log : List (EvEvent T)

variable {T E L : Type}

namespace Events

/-! ### The code -/

section Code

variable [DecidableEq T] [DecidableEq E] [DecidableEq L]

/-- The events a wait needs are pending. -/
def Met (pending events : BitVec 32) : EvKind → Prop
  | .one => pending &&& events ≠ 0
  | .any => pending &&& events ≠ 0
  | .all => pending &&& events = events

instance (pending events : BitVec 32) (kind : EvKind) : Decidable (Met pending events kind) :=
  match kind with
  | .one => inferInstanceAs (Decidable (_ ≠ _))
  | .any => inferInstanceAs (Decidable (_ ≠ _))
  | .all => inferInstanceAs (Decidable (_ = _))

/-- The state a wait sleeps in. -/
def waitState (events : BitVec 32) : EvKind → EvWait
  | .one => .WTOREVT events
  | .any => .WTOREVT events
  | .all => .WTANDEVT events

/-- The test of `chEvtSignalI` on the AND/OR conditions wait states. -/
def Awaited (pending : BitVec 32) : Status EvWait → Prop
  | .WAIT (.WTOREVT ewmask) => pending &&& ewmask ≠ 0
  | .WAIT (.WTANDEVT ewmask) => pending &&& ewmask = ewmask
  | _ => False

instance (pending : BitVec 32) (state : Status EvWait) : Decidable (Awaited pending state) :=
  match state with
  | .WAIT (.WTOREVT _) => inferInstanceAs (Decidable (_ ≠ _))
  | .WAIT (.WTANDEVT _) => inferInstanceAs (Decidable (_ = _))
  | .WAIT .OTHER => inferInstanceAs (Decidable False)
  | .READY => inferInstanceAs (Decidable False)
  | .CURRENT => inferInstanceAs (Decidable False)

/-- `tp->p_epending |= events`. -/
def addPending (s : Events T E L) (tp : T) (events : BitVec 32) : Events T E L :=
  { s with
    p_epending := Function.update s.p_epending tp (s.p_epending tp ||| events)
    log := s.log ++ [.signalled tp events] }

def chEvtSignalI (s : Events T E L) (tp : T) (events : BitVec 32) : Events T E L :=
  let s := s.addPending tp events
  if Awaited (s.p_epending tp) (s.core.p_state tp) then
    { s with core := (s.core.setMsg tp MSG_OK).chSchReadyI tp }
  else s

def reschedule (s : Events T E L) : Events T E L := { s with core := s.core.chSchRescheduleS }

def chEvtSignal (s : Events T E L) (tp : T) (events : BitVec 32) : Events T E L :=
  (s.chEvtSignalI tp events).reschedule

/-- One round of `chEvtBroadcastFlagsI`. -/
def notify (flags : BitVec 32) (s : Events T E L) (elp : L) : Events T E L :=
  let l := { s.el elp with el_flags := (s.el elp).el_flags ||| flags }
  let s := { s with el := Function.update s.el elp l }
  if flags = 0 ∨ l.el_flags &&& l.el_wflags ≠ 0 then s.chEvtSignalI l.el_listener l.el_events else s

def chEvtBroadcastFlagsI (s : Events T E L) (esp : E) (flags : BitVec 32) : Events T E L :=
  (s.es_next esp).foldl (notify flags) s

def chEvtBroadcastFlags (s : Events T E L) (esp : E) (flags : BitVec 32) : Events T E L :=
  (s.chEvtBroadcastFlagsI esp flags).reschedule

def chEvtRegisterMaskWithFlags (s : Events T E L) (esp : E) (elp : L) (events wflags : BitVec 32) :
    Events T E L :=
  { s with
    es_next := Function.update s.es_next esp (elp :: s.es_next esp)
    el := Function.update s.el elp
      { el_listener := s.core.currp, el_events := events, el_flags := 0, el_wflags := wflags } }

def chEvtUnregister (s : Events T E L) (esp : E) (elp : L) : Events T E L :=
  { s with es_next := Function.update s.es_next esp ((s.es_next esp).erase elp) }

def chEvtGetAndClearFlags (s : Events T E L) (elp : L) : BitVec 32 × Events T E L :=
  ((s.el elp).el_flags, { s with el := Function.update s.el elp { s.el elp with el_flags := 0 } })

def chEvtAddEvents (s : Events T E L) (events : BitVec 32) : BitVec 32 × Events T E L :=
  let s := s.addPending s.core.currp events
  (s.p_epending s.core.currp, s)

def chEvtGetAndClearEvents (s : Events T E L) (events : BitVec 32) : BitVec 32 × Events T E L :=
  let ctp := s.core.currp
  let m := s.p_epending ctp &&& events
  (m, { s with
    p_epending := Function.update s.p_epending ctp (s.p_epending ctp &&& ~~~events)
    log := s.log ++ [.answered ctp (.clear events) m] })

/-- The events a wait returns and clears. -/
def served (pending events : BitVec 32) : EvKind → BitVec 32
  | .one =>
      let m := pending &&& events
      m ^^^ (m &&& (m - 1))
  | .any => pending &&& events
  | .all => events

/-- The end of a wait: `ctp->p_epending &= ~m`. -/
def finish (s : Events T E L) (kind : EvKind) (events : BitVec 32) : BitVec 32 × Events T E L :=
  let ctp := s.core.currp
  let m := served (s.p_epending ctp) events kind
  (m, { s with
    p_epending := Function.update s.p_epending ctp (s.p_epending ctp &&& ~~~m)
    log := s.log ++ [.answered ctp (.wait kind events) m] })

/-- A wait that times out. -/
def giveUp (s : Events T E L) (kind : EvKind) (events : BitVec 32) : BitVec 32 × Events T E L :=
  (0, { s with log := s.log ++ [.expired s.core.currp kind events 0] })

/-- The current thread sleeps in a wait. -/
def sleep (s : Events T E L) (call : EvCall) (armed : Bool) : Events T E L :=
  let ctp := s.core.currp
  { s with
    core := s.core.chSchGoSleepS (waitState call.events call.kind)
    timer := Function.update s.timer ctp armed
    pc := Function.update s.pc ctp (some call) }

/-- The events, or none if the thread sleeps. -/
def wait (s : Events T E L) (kind : EvKind) (events : BitVec 32) :
    Option (BitVec 32) × Events T E L :=
  if Met (s.p_epending s.core.currp) events kind then (s.finish kind events).map some id
  else (none, s.sleep { kind := kind, events := events, timed := false } false)

def chEvtWaitOne (s : Events T E L) (events : BitVec 32) : Option (BitVec 32) × Events T E L :=
  s.wait .one events

def chEvtWaitAny (s : Events T E L) (events : BitVec 32) : Option (BitVec 32) × Events T E L :=
  s.wait .any events

def chEvtWaitAll (s : Events T E L) (events : BitVec 32) : Option (BitVec 32) × Events T E L :=
  s.wait .all events

/-- The events, or none if the thread sleeps. -/
def waitTimeout (s : Events T E L) (kind : EvKind) (events : BitVec 32) (time : Timeout) :
    Option (BitVec 32) × Events T E L :=
  if Met (s.p_epending s.core.currp) events kind then (s.finish kind events).map some id
  else if time = .immediate then (s.giveUp kind events).map some id
  else (none, s.sleep { kind := kind, events := events, timed := true } (decide (time = .finite)))

def chEvtWaitOneTimeout (s : Events T E L) (events : BitVec 32) (time : Timeout) :
    Option (BitVec 32) × Events T E L := s.waitTimeout .one events time

def chEvtWaitAnyTimeout (s : Events T E L) (events : BitVec 32) (time : Timeout) :
    Option (BitVec 32) × Events T E L := s.waitTimeout .any events time

def chEvtWaitAllTimeout (s : Events T E L) (events : BitVec 32) (time : Timeout) :
    Option (BitVec 32) × Events T E L := s.waitTimeout .all events time

/-- The current thread runs again in a wait. -/
def resume (s : Events T E L) (call : EvCall) : BitVec 32 × Events T E L :=
  let ctp := s.core.currp
  let s := { s with
    timer := Function.update s.timer ctp false
    pc := Function.update s.pc ctp none }
  if call.timed = true ∧ s.core.rdymsg ctp < MSG_OK then s.giveUp call.kind call.events
  else s.finish call.kind call.events

/-- The timeout callback `wakeup`. -/
def wakeup (s : Events T E L) (tp : T) : Events T E L :=
  match s.core.p_state tp with
  | .READY => s
  | _ => { s with core := (s.core.setMsg tp MSG_TIMEOUT).chSchReadyI tp }

/-- The tick handler takes the timer of a thread off the list. -/
def expire (s : Events T E L) (tp : T) : Events T E L :=
  { s with timer := Function.update s.timer tp false, fired := some tp }

/-- The tick handler calls the callback. -/
def callback (s : Events T E L) (tp : T) : Events T E L := { s.wakeup tp with fired := none }

end Code

/-! ### Runs -/

section Steps

variable [DecidableEq T] [DecidableEq E] [DecidableEq L]

/-- The kernel is unlocked: the current thread is not in a call. -/
def Unlocked (s : Events T E L) : Prop := s.pc s.core.currp = none

/-- The current thread runs: it is in no call, and the tick handler is not active. -/
def Running (s : Events T E L) : Prop := s.Unlocked ∧ s.fired = none

/-- What interrupt handlers do. -/
inductive Isr : Events T E L → Events T E L → Prop where
  | signalI {s : Events T E L} (tp : T) (events : BitVec 32) : Isr s (s.chEvtSignalI tp events)
  | broadcastFlagsI {s : Events T E L} (esp : E) (flags : BitVec 32) :
    Isr s (s.chEvtBroadcastFlagsI esp flags)
  | expire {s : Events T E L} (tp : T) (calm : s.fired = none) (armed : s.timer tp = true) :
    Isr s (s.expire tp)
  | callback {s : Events T E L} (tp : T) (fired : s.fired = some tp) : Isr s (s.callback tp)
  | ready {s : Events T E L} (tp : T) (msg : Int) (waits : s.core.waiting tp = some .OTHER) :
      Isr s { s with core := (s.core.setMsg tp msg).chSchReadyI tp }
  | tick {s : Events T E L} : Isr s { s with core := s.core.tick }

/-- What a thread does without waiting for events. The idle thread does not sleep, and a
listener is registered on one source at a time. -/
inductive Thread (idle : T) : Events T E L → Events T E L → Prop where
  | signal {s : Events T E L} (tp : T) (events : BitVec 32) :
    Thread idle s (s.chEvtSignal tp events)
  | broadcastFlags {s : Events T E L} (esp : E) (flags : BitVec 32) :
    Thread idle s (s.chEvtBroadcastFlags esp flags)
  | register {s : Events T E L} (esp : E) (elp : L) (events wflags : BitVec 32)
    (off : ∀ esp', elp ∉ s.es_next esp') :
      Thread idle s (s.chEvtRegisterMaskWithFlags esp elp events wflags)
  | unregister {s : Events T E L} (esp : E) (elp : L) : Thread idle s (s.chEvtUnregister esp elp)
  | clearFlags {s : Events T E L} (elp : L) : Thread idle s (s.chEvtGetAndClearFlags elp).2
  | addEvents {s : Events T E L} (events : BitVec 32) : Thread idle s (s.chEvtAddEvents events).2
  | clearEvents {s : Events T E L} (events : BitVec 32) :
    Thread idle s (s.chEvtGetAndClearEvents events).2
  | sleep {s : Events T E L} (other : s.core.currp ≠ idle) :
    Thread idle s { s with core := s.core.chSchGoSleepS .OTHER }
  | wakeup {s : Events T E L} (tp : T) (msg : Int) (waits : s.core.waiting tp = some .OTHER) :
      Thread idle s { s with core := s.core.chSchWakeupS tp msg }
  | switch {s : Events T E L} {c : Core T EvWait} (switch : s.core.Switch c) :
    Thread idle s { s with core := c }

/-- The six waits. -/
inductive Wait : Events T E L → Events T E L → Prop where
  | one {s : Events T E L} (events : BitVec 32) : Wait s (s.chEvtWaitOne events).2
  | any {s : Events T E L} (events : BitVec 32) : Wait s (s.chEvtWaitAny events).2
  | all {s : Events T E L} (events : BitVec 32) : Wait s (s.chEvtWaitAll events).2
  | oneTimeout {s : Events T E L} (events : BitVec 32) (time : Timeout) :
    Wait s (s.chEvtWaitOneTimeout events time).2
  | anyTimeout {s : Events T E L} (events : BitVec 32) (time : Timeout) :
    Wait s (s.chEvtWaitAnyTimeout events time).2
  | allTimeout {s : Events T E L} (events : BitVec 32) (time : Timeout) :
    Wait s (s.chEvtWaitAllTimeout events time).2

inductive Step (idle : T) : Events T E L → Events T E L → Prop where
  | isr {s s' : Events T E L} (unlocked : s.Unlocked) (isr : Isr s s') : Step idle s s'
  | thread {s s' : Events T E L} (running : s.Running) (thread : Thread idle s s') : Step idle s s'
  | wait {s s' : Events T E L} (running : s.Running) (other : s.core.currp ≠ idle)
    (wait : Wait s s') : Step idle s s'
  | resume {s : Events T E L} (call : EvCall) (inside : s.pc s.core.currp = some call)
    (calm : s.fired = none) :
      Step idle s (s.resume call).2

/-- No thread waits for events, and none are pending. -/
structure Start (idle : T) (s : Events T E L) : Prop where
  core : s.core.Sound idle
  asleep : ∀ t, s.core.waiting t = none ∨ s.core.waiting t = some .OTHER
  pending : ∀ t, s.p_epending t = 0
  timer : ∀ t, s.timer t = false
  fired : s.fired = none
  pc : ∀ t, s.pc t = none
  log : s.log = []

def Reachable (idle : T) (s : Events T E L) : Prop :=
  ∃ s₀, Start idle s₀ ∧ Relation.ReflTransGen (Step idle) s₀ s

end Steps

/-! ### Histories -/

/-- The answers a call may give: `chEvtWaitOne` the lowest event, `chEvtWaitAny` all that are
pending, `chEvtWaitAll` all it waits for if they are pending at once. -/
def Answer (pending m : BitVec 32) : EvOp → Prop
  | .wait .one events => IsLowest (pending &&& events) m
  | .wait .any events => m = pending &&& events ∧ m ≠ 0
  | .wait .all events => m = events ∧ pending &&& events = events
  | .clear events => m = pending &&& events

instance (pending m : BitVec 32) (op : EvOp) : Decidable (Answer pending m op) :=
  match op with
  | .wait .one _ => inferInstanceAs (Decidable (IsLowest _ _))
  | .wait .any _ => inferInstanceAs (Decidable (_ ∧ _))
  | .wait .all _ => inferInstanceAs (Decidable (_ ∧ _))
  | .clear _ => inferInstanceAs (Decidable (_ = _))

section Histories

variable [DecidableEq T]

/-- One event of the history: what is signalled is pending, and what is returned was pending
and no longer is. A wait that times out returns nothing. -/
def replayStep (t : T) (pending : Option (BitVec 32)) : EvEvent T → Option (BitVec 32)
  | .signalled tp events => if tp = t then pending.map (· ||| events) else pending
  | .answered tp op m =>
      if tp = t then pending.bind fun p => if m &&& p = m ∧ Answer p m op then some (p &&& ~~~m) else none
      else pending
  | .expired tp _ _ m =>
      if tp = t then pending.bind fun p => if m = 0 then some p else none else pending

/-- The events pending for `t` after a history. -/
def replay (t : T) (log : List (EvEvent T)) : Option (BitVec 32) :=
  log.foldl (replayStep t) (some 0)

theorem replay_concat (t : T) (log : List (EvEvent T)) (e : EvEvent T) :
    replay t (log ++ [e]) = replayStep t (replay t log) e := by
  simp [replay]

end Histories

/-! ### The invariant -/

/-- Where a thread is: in no wait; asleep, as the events it waits for are not pending; woken
with the events pending; or woken by its timer. -/
inductive Place (pending : BitVec 32) (waits : Option EvWait) (msg : Int) : Option EvCall → Prop where
  | outside (elsewhere : waits = none ∨ waits = some .OTHER) : Place pending waits msg none
  | asleep (call : EvCall) (asleep : waits = some (waitState call.events call.kind))
      (unmet : ¬ Met pending call.events call.kind) : Place pending waits msg (some call)
  | woken (call : EvCall) (awake : waits = none) (ok : msg = MSG_OK)
    (met : Met pending call.events call.kind) :
      Place pending waits msg (some call)
  | timedOut (call : EvCall) (awake : waits = none) (timeout : msg = MSG_TIMEOUT)
    (timed : call.timed = true) :
      Place pending waits msg (some call)

structure Inv (idle : T) (s : Events T E L) [DecidableEq T] : Prop where
  core : s.core.Sound idle
  place : ∀ t, Place (s.p_epending t) (s.core.waiting t) (s.core.rdymsg t) (s.pc t)
  timed : ∀ t, s.timer t = true ∨ s.fired = some t → ∃ call, s.pc t = some call ∧ call.timed = true
  account : ∀ t, replay t s.log = some (s.p_epending t)

/-! ### Waits and what they need -/

theorem Met.or {pending events : BitVec 32} {kind : EvKind} (met : Met pending events kind)
    (more : BitVec 32) :
    Met (pending ||| more) events kind := by
  cases kind with
  | one => exact or_and_ne_zero more met
  | any => exact or_and_ne_zero more met
  | all => exact or_and_eq more met

/-- The test of a signal is the test of the wait. -/
theorem awaited_iff (pending events : BitVec 32) (kind : EvKind) :
    Awaited pending (.WAIT (waitState events kind)) ↔ Met pending events kind := by
  cases kind <;> rfl

theorem waitState_ne_other (events : BitVec 32) (kind : EvKind) :
    waitState events kind ≠ .OTHER := by
  cases kind <;> simp [waitState]

/-- What a wait returns is a right answer when the events it needs are pending. -/
theorem Met.answer {pending events : BitVec 32} {kind : EvKind} (met : Met pending events kind) :
    served pending events kind &&& pending = served pending events kind ∧
      Answer pending (served pending events kind) (.wait kind events) := by
  cases kind with
  | one =>
      have lowest := isLowest_xor met
      exact ⟨subset_of_and lowest.subset, lowest⟩
  | any => exact ⟨and_subset pending events, rfl, met⟩
  | all =>
      refine ⟨?_, rfl, met⟩
      rw [BitVec.and_comm]
      exact met

/-! ### What keeps the threads and their events in agreement -/

section Proofs

variable [DecidableEq T] {idle t tp : T} {s : Events T E L} {c : Core T EvWait} {call : EvCall}
  {kind : EvKind} {events : BitVec 32}

/-- The scheduler does nothing to events. -/
theorem Inv.quiet (inv : Inv idle s) (quiet : Core.Quiet idle s.core c) :
    Inv idle { s with core := c } := by
  refine ⟨quiet.sound, ?_, inv.timed, inv.account⟩
  intro t
  rw [quiet.waiting, quiet.rdymsg]
  exact inv.place t

theorem Inv.reschedule (inv : Inv idle s) : Inv idle s.reschedule := inv.quiet inv.core.reschedule

/-- A thread wakes, and its place is what the message says. -/
theorem Inv.wakes (inv : Inv idle s) {msg : Int} (wakes : Core.Wakes idle tp msg s.core c)
    (place : Place (s.p_epending tp) none msg (s.pc tp)) : Inv idle { s with core := c } := by
  refine ⟨wakes.sound, ?_, inv.timed, inv.account⟩
  intro t
  rw [wakes.waiting, wakes.rdymsg]
  by_cases same : t = tp
  · rw [same, Function.update_self, Function.update_self]
    exact place
  · rw [Function.update_of_ne same, Function.update_of_ne same]
    exact inv.place t

/-- A thread that waits for something else is in no call. -/
theorem Inv.outside (inv : Inv idle s) (waits : s.core.waiting tp = some .OTHER) :
    s.pc tp = none := by
  have place := inv.place tp
  rw [waits] at place
  cases eq : s.pc tp with
  | none => rfl
  | some call =>
      rw [eq] at place
      cases place with
      | asleep _ asleep _ => exact absurd (Option.some.inj asleep).symm (waitState_ne_other _ _)
      | woken _ awake _ _ => cases awake
      | timedOut _ awake _ _ => cases awake

theorem Inv.wakes_other (inv : Inv idle s) {msg : Int} (waits : s.core.waiting tp = some .OTHER)
    (wakes : Core.Wakes idle tp msg s.core c) : Inv idle { s with core := c } := by
  apply inv.wakes wakes
  rw [inv.outside waits]
  exact .outside (.inl rfl)

/-- The current thread sleeps on something else. -/
theorem Inv.sleeps_other (inv : Inv idle s) (out : s.pc s.core.currp = none)
    (sleeps : Core.Sleeps idle .OTHER s.core c) : Inv idle { s with core := c } := by
  refine ⟨sleeps.sound, ?_, inv.timed, inv.account⟩
  intro t
  rw [sleeps.waiting, sleeps.rdymsg]
  by_cases same : t = s.core.currp
  · rw [same, Function.update_self, out]
    exact .outside (.inr rfl)
  · rw [Function.update_of_ne same]
    exact inv.place t

/-! ### Sends -/

theorem Place.or {pending : BitVec 32} {waits : Option EvWait} {msg : Int} {pc : Option EvCall}
    (place : Place pending waits msg pc) (more : BitVec 32)
    (quiet : ∀ call, pc = some call → waits = some (waitState call.events call.kind) →
      ¬ Met (pending ||| more) call.events call.kind) : Place (pending ||| more) waits msg pc := by
  cases place with
  | outside elsewhere => exact .outside elsewhere
  | asleep call asleep unmet => exact .asleep call asleep (quiet call rfl asleep)
  | woken call awake ok met => exact .woken call awake ok (met.or more)
  | timedOut call awake timeout timed => exact .timedOut call awake timeout timed

theorem replay_signalled (inv : Inv idle s) (tp : T) (events : BitVec 32) (t : T) :
    replay t (s.log ++ [.signalled tp events]) =
      some (Function.update s.p_epending tp (s.p_epending tp ||| events) t) := by
  rw [replay_concat, inv.account]
  by_cases same : tp = t
  · subst same
    simp [replayStep]
  · rw [Function.update_of_ne (Ne.symm same)]
    simp [replayStep, same]

/-- Events are added to a thread that is not woken by them. -/
theorem Inv.addPending (inv : Inv idle s) (tp : T) (events : BitVec 32)
    (quiet : ¬ Awaited (s.p_epending tp ||| events) (s.core.p_state tp)) :
    Inv idle (s.addPending tp events) := by
  refine ⟨inv.core, ?_, inv.timed, replay_signalled inv tp events⟩
  intro t
  change Place (Function.update s.p_epending tp (s.p_epending tp ||| events) t) _ _ _
  by_cases same : t = tp
  · subst same
    rw [Function.update_self]
    apply (inv.place t).or events
    intro call _ asleep met
    apply quiet
    rw [Core.waiting_eq_some.mp asleep]
    exact (awaited_iff _ _ _).mpr met
  · rw [Function.update_of_ne same]
    exact inv.place t

omit [DecidableEq T] in
theorem not_awaited {pending : BitVec 32}
    (awake : s.core.waiting tp = none ∨ s.core.waiting tp = some .OTHER) :
    ¬ Awaited pending (s.core.p_state tp) := by
  rcases awake with awake | other
  · rcases Core.waiting_eq_none.mp awake with ready | current
    · rw [ready]
      exact id
    · rw [current]
      exact id
  · rw [Core.waiting_eq_some.mp other]
    exact id

/-- A thread that passes the test of a signal sleeps in a wait that has what it needs. -/
theorem Inv.awaited (inv : Inv idle s) {pending : BitVec 32}
    (awaited : Awaited pending (s.core.p_state tp)) :
    ∃ call, s.pc tp = some call ∧ s.core.waiting tp ≠ none ∧ Met pending call.events call.kind := by
  have place := inv.place tp
  cases eq : s.pc tp with
  | none =>
      rw [eq] at place
      cases place with
      | outside elsewhere => exact absurd awaited (not_awaited elsewhere)
  | some call =>
      rw [eq] at place
      cases place with
      | asleep _ asleep _ =>
          refine ⟨call, rfl, by simp [asleep], ?_⟩
          rw [Core.waiting_eq_some.mp asleep] at awaited
          exact (awaited_iff _ _ _).mp awaited
      | woken _ awake _ _ => exact absurd awaited (not_awaited (.inl awake))
      | timedOut _ awake _ _ => exact absurd awaited (not_awaited (.inl awake))

theorem Inv.chEvtSignalI (inv : Inv idle s) (tp : T) (events : BitVec 32) :
    Inv idle (s.chEvtSignalI tp events) := by
  have now : (s.addPending tp events).p_epending tp = s.p_epending tp ||| events :=
    Function.update_self ..
  unfold Events.chEvtSignalI
  dsimp only
  rw [now]
  split_ifs with awaited
  · obtain ⟨call, inside, asleep, met⟩ := inv.awaited awaited
    have wakes := inv.core.setMsg_ready asleep MSG_OK
    refine ⟨wakes.sound, ?_, inv.timed, replay_signalled inv tp events⟩
    intro t
    change Place (Function.update s.p_epending tp (s.p_epending tp ||| events) t)
      (Core.waiting ((s.core.setMsg tp MSG_OK).chSchReadyI tp) t) _ (s.pc t)
    rw [wakes.waiting]
    change Place _ _ (Core.rdymsg ((s.core.setMsg tp MSG_OK).chSchReadyI tp) t) _
    rw [wakes.rdymsg]
    by_cases same : t = tp
    · rw [same, Function.update_self, Function.update_self, Function.update_self, inside]
      exact .woken call rfl rfl met
    · rw [Function.update_of_ne same, Function.update_of_ne same, Function.update_of_ne same]
      exact inv.place t
  · exact inv.addPending tp events awaited

/-! ### Waits -/

/-- The current thread takes pending events with a right answer. -/
theorem Inv.takes (inv : Inv idle s) (out : s.pc s.core.currp = none) {op : EvOp} {m : BitVec 32}
    (subset : m &&& s.p_epending s.core.currp = m)
    (answer : Answer (s.p_epending s.core.currp) m op) :
    Inv idle { s with
      p_epending := Function.update s.p_epending s.core.currp (s.p_epending s.core.currp &&& ~~~m)
      log := s.log ++ [.answered s.core.currp op m] } := by
  refine ⟨inv.core, ?_, inv.timed, ?_⟩
  · intro t
    change Place (Function.update s.p_epending s.core.currp (s.p_epending s.core.currp &&& ~~~m) t)
      _ _ _
    by_cases same : t = s.core.currp
    · rw [same, Function.update_self]
      change Place _ (s.core.waiting s.core.currp) _ (s.pc s.core.currp)
      rw [out, inv.core.inv.waiting_currp]
      exact .outside (.inl rfl)
    · rw [Function.update_of_ne same]
      exact inv.place t
  · intro t
    rw [replay_concat, inv.account]
    change _ = some
      (Function.update s.p_epending s.core.currp (s.p_epending s.core.currp &&& ~~~m) t)
    by_cases same : s.core.currp = t
    · rw [← same, Function.update_self]
      simp [replayStep, subset, answer]
    · rw [Function.update_of_ne (Ne.symm same)]
      simp [replayStep, same]

theorem Inv.finish (inv : Inv idle s) (out : s.pc s.core.currp = none)
    (met : Met (s.p_epending s.core.currp) events kind) : Inv idle (s.finish kind events).2 :=
  inv.takes out met.answer.1 met.answer.2

theorem Inv.giveUp (inv : Inv idle s) (kind : EvKind) (events : BitVec 32) :
    Inv idle (s.giveUp kind events).2 := by
  refine ⟨inv.core, inv.place, inv.timed, ?_⟩
  intro t
  change replay t (s.log ++ [.expired s.core.currp kind events 0]) = some (s.p_epending t)
  rw [replay_concat, inv.account]
  simp [replayStep]

theorem Inv.sleep (inv : Inv idle s) (other : s.core.currp ≠ idle)
    (unmet : ¬ Met (s.p_epending s.core.currp) call.events call.kind) {armed : Bool}
    (timed : armed = true → call.timed = true) (calm : s.fired = none) :
    Inv idle (s.sleep call armed) := by
  have sleeps := inv.core.goSleep other (waitState call.events call.kind)
  refine ⟨sleeps.sound, ?_, ?_, inv.account⟩
  · intro t
    change Place (s.p_epending t)
      (Core.waiting (s.core.chSchGoSleepS (waitState call.events call.kind)) t)
      (Core.rdymsg (s.core.chSchGoSleepS (waitState call.events call.kind)) t)
      (Function.update s.pc s.core.currp (some call) t)
    rw [sleeps.waiting, sleeps.rdymsg]
    by_cases same : t = s.core.currp
    · rw [same, Function.update_self, Function.update_self]
      exact .asleep call rfl unmet
    · rw [Function.update_of_ne same, Function.update_of_ne same]
      exact inv.place t
  · intro t
    change Function.update s.timer s.core.currp armed t = true ∨ s.fired = some t →
      ∃ call', Function.update s.pc s.core.currp (some call) t = some call' ∧ call'.timed = true
    by_cases same : t = s.core.currp
    · rw [same, Function.update_self, Function.update_self, calm]
      rintro (on | ⟨⟨⟩⟩)
      exact ⟨call, rfl, timed on⟩
    · rw [Function.update_of_ne same, Function.update_of_ne same]
      exact inv.timed t

theorem Inv.wait (inv : Inv idle s) (running : s.Running) (other : s.core.currp ≠ idle)
    (kind : EvKind) (events : BitVec 32) : Inv idle (s.wait kind events).2 := by
  unfold Events.wait
  split_ifs with met
  · exact inv.finish running.1 met
  · exact inv.sleep other met (by simp) running.2

theorem Inv.waitTimeout (inv : Inv idle s) (running : s.Running) (other : s.core.currp ≠ idle)
    (kind : EvKind) (events : BitVec 32) (time : Timeout) :
    Inv idle (s.waitTimeout kind events time).2 := by
  unfold Events.waitTimeout
  split_ifs with met now
  · exact inv.finish running.1 met
  · exact inv.giveUp kind events
  · exact inv.sleep other met (fun _ => rfl) running.2

/-- The current thread leaves its wait. -/
theorem Inv.leave (inv : Inv idle s) (calm : s.fired = none) :
    Inv idle { s with
      timer := Function.update s.timer s.core.currp false
      pc := Function.update s.pc s.core.currp none } := by
  refine ⟨inv.core, ?_, ?_, inv.account⟩
  · intro t
    change Place (s.p_epending t) (s.core.waiting t) (s.core.rdymsg t)
      (Function.update s.pc s.core.currp none t)
    by_cases same : t = s.core.currp
    · rw [same, Function.update_self, inv.core.inv.waiting_currp]
      exact .outside (.inl rfl)
    · rw [Function.update_of_ne same]
      exact inv.place t
  · intro t
    change Function.update s.timer s.core.currp false t = true ∨ s.fired = some t →
      ∃ call', Function.update s.pc s.core.currp none t = some call' ∧ call'.timed = true
    by_cases same : t = s.core.currp
    · rw [same, Function.update_self, calm]
      rintro (⟨⟨⟩⟩ | ⟨⟨⟩⟩)
    · rw [Function.update_of_ne same, Function.update_of_ne same]
      exact inv.timed t

/-- A thread that was not timed out finds the events it needs. -/
theorem Inv.resume (inv : Inv idle s) (inside : s.pc s.core.currp = some call)
    (calm : s.fired = none) :
    Inv idle (s.resume call).2 := by
  have left := inv.leave calm
  have out : Function.update s.pc s.core.currp none s.core.currp = none := Function.update_self ..
  have place := inv.place s.core.currp
  unfold Events.resume
  dsimp only
  split_ifs with timeout
  · exact left.giveUp call.kind call.events
  · apply left.finish out
    rw [inside, inv.core.inv.waiting_currp] at place
    cases place with
    | asleep _ asleep _ => cases asleep
    | woken _ _ _ met => exact met
    | timedOut _ _ msg timed =>
        refine absurd ⟨timed, ?_⟩ timeout
        rw [msg]
        decide

theorem Inv.chEvtGetAndClearEvents (inv : Inv idle s) (out : s.pc s.core.currp = none)
    (events : BitVec 32) :
    Inv idle (s.chEvtGetAndClearEvents events).2 := by
  have cleared : Answer (s.p_epending s.core.currp) (s.p_epending s.core.currp &&& events)
      (.clear events) := rfl
  have taken := inv.takes out (and_subset (s.p_epending s.core.currp) events) cleared
  rw [and_not_and] at taken
  exact taken

theorem Inv.chEvtAddEvents (inv : Inv idle s) (events : BitVec 32) :
    Inv idle (s.chEvtAddEvents events).2 := by
  apply inv.addPending
  exact not_awaited (.inl inv.core.inv.waiting_currp)

/-! ### Timeouts -/

/-- When the callback of a timer is called its thread sleeps in a wait with a timeout, or is
on the ready list. -/
theorem Inv.fired_cases (inv : Inv idle s) (unlocked : s.Unlocked) (fired : s.fired = some tp) :
    (∃ w call, s.core.p_state tp = .WAIT w ∧ s.pc tp = some call ∧ call.timed = true) ∨
      s.core.p_state tp = .READY := by
  obtain ⟨call, inside, timed⟩ := inv.timed tp (.inr fired)
  cases eq : s.core.p_state tp with
  | READY => exact .inr rfl
  | WAIT w => exact .inl ⟨w, call, rfl, inside, timed⟩
  | CURRENT =>
      have same := (inv.core.inv.current tp).mp eq
      rw [same, unlocked] at inside
      cases inside

theorem Inv.wakeup (inv : Inv idle s) (unlocked : s.Unlocked) (fired : s.fired = some tp) :
    Inv idle (s.wakeup tp) := by
  unfold Events.wakeup
  rcases inv.fired_cases unlocked fired with ⟨w, call, state, inside, timed⟩ | ready
  · rw [state]
    have asleep : s.core.waiting tp ≠ none := by
      rw [Core.waiting_eq_some.mpr state]
      simp
    apply inv.wakes (inv.core.setMsg_ready asleep MSG_TIMEOUT)
    rw [inside]
    exact .timedOut call rfl rfl timed
  · rw [ready]
    exact inv

theorem Inv.callback (inv : Inv idle s) (unlocked : s.Unlocked) (fired : s.fired = some tp) :
    Inv idle (s.callback tp) := by
  have woken := inv.wakeup unlocked fired
  refine ⟨woken.core, woken.place, ?_, woken.account⟩
  rintro t (armed | fired)
  · exact woken.timed t (.inl armed)
  · cases fired

theorem Inv.expire (inv : Inv idle s) (armed : s.timer tp = true) : Inv idle (s.expire tp) := by
  refine ⟨inv.core, inv.place, ?_, inv.account⟩
  rintro t (still | now)
  · apply inv.timed t
    change Function.update s.timer tp false t = true at still
    by_cases same : t = tp
    · exact .inl (same ▸ armed)
    · rw [Function.update_of_ne same] at still
      exact .inl still
  · cases now
    exact inv.timed tp (.inl armed)

/-- The listeners and their sources can be anything. -/
theorem Inv.setListeners (inv : Inv idle s) (next : E → List L) (el : L → Listener T) :
    Inv idle { s with es_next := next, el := el } := ⟨inv.core, inv.place, inv.timed, inv.account⟩

end Proofs

/-! ### Broadcasts and runs -/

section Runs

variable [DecidableEq T] [DecidableEq E] [DecidableEq L] {idle : T} {s s' : Events T E L}

omit [DecidableEq E] in
theorem Inv.notify (inv : Inv idle s) (flags : BitVec 32) (elp : L) :
    Inv idle (s.notify flags elp) := by
  unfold Events.notify
  dsimp only
  split_ifs
  · exact (inv.setListeners s.es_next _).chEvtSignalI _ _
  · exact inv.setListeners s.es_next _

omit [DecidableEq E] in
theorem Inv.chEvtBroadcastFlagsI (inv : Inv idle s) (esp : E) (flags : BitVec 32) :
    Inv idle (s.chEvtBroadcastFlagsI esp flags) := by
  unfold Events.chEvtBroadcastFlagsI
  generalize s.es_next esp = listeners
  induction listeners generalizing s with
  | nil => exact inv
  | cons elp rest ih => exact ih (inv.notify flags elp)

omit [DecidableEq E] in
theorem Inv.isr (inv : Inv idle s) (unlocked : s.Unlocked) (isr : Isr s s') : Inv idle s' := by
  cases isr with
  | signalI tp events => exact inv.chEvtSignalI tp events
  | broadcastFlagsI esp flags => exact inv.chEvtBroadcastFlagsI esp flags
  | expire tp _ armed => exact inv.expire armed
  | callback tp fired => exact inv.callback unlocked fired
  | ready tp msg waits => exact inv.wakes_other waits (inv.core.setMsg_ready (by simp [waits]) msg)
  | tick => exact inv.quiet inv.core.tick

theorem Inv.thread (inv : Inv idle s) (out : s.pc s.core.currp = none) (thread : Thread idle s s') :
    Inv idle s' := by
  cases thread with
  | signal tp events => exact (inv.chEvtSignalI tp events).reschedule
  | broadcastFlags esp flags => exact (inv.chEvtBroadcastFlagsI esp flags).reschedule
  | register esp elp events wflags _ => exact inv.setListeners _ _
  | unregister esp elp => exact inv.setListeners _ s.el
  | clearFlags elp => exact inv.setListeners s.es_next _
  | addEvents events => exact inv.chEvtAddEvents events
  | clearEvents events => exact inv.chEvtGetAndClearEvents out events
  | sleep other => exact inv.sleeps_other out (inv.core.goSleep other .OTHER)
  | wakeup tp msg waits => exact inv.wakes_other waits (inv.core.wakeup (by simp [waits]) msg)
  | switch switch => exact inv.quiet (inv.core.switch switch)

omit [DecidableEq E] [DecidableEq L] in
theorem Inv.waits (inv : Inv idle s) (running : s.Running) (other : s.core.currp ≠ idle)
    (wait : Wait s s') :
    Inv idle s' := by
  cases wait with
  | one events => exact inv.wait running other .one events
  | any events => exact inv.wait running other .any events
  | all events => exact inv.wait running other .all events
  | oneTimeout events time => exact inv.waitTimeout running other .one events time
  | anyTimeout events time => exact inv.waitTimeout running other .any events time
  | allTimeout events time => exact inv.waitTimeout running other .all events time

theorem Step.inv (step : Step idle s s') (inv : Inv idle s) : Inv idle s' := by
  cases step with
  | isr unlocked isr => exact inv.isr unlocked isr
  | thread running thread => exact inv.thread running.1 thread
  | wait running other wait => exact inv.waits running other wait
  | resume call inside calm => exact inv.resume inside calm

omit [DecidableEq E] [DecidableEq L] in
theorem Start.inv (start : Start idle s) : Inv idle s := by
  refine ⟨start.core, ?_, ?_, ?_⟩
  · intro t
    rw [start.pc]
    exact .outside (start.asleep t)
  · intro t
    rw [start.timer, start.fired]
    rintro (⟨⟨⟩⟩ | ⟨⟨⟩⟩)
  · intro t
    rw [start.log, start.pending]
    rfl

theorem Reachable.inv (reachable : Reachable idle s) : Inv idle s := by
  obtain ⟨s₀, start, run⟩ := reachable
  induction run with
  | refl => exact start.inv
  | tail _ step ih => exact step.inv ih

/-! ### Delivery -/

omit [DecidableEq E] [DecidableEq L] in
theorem chEvtSignalI_log (s : Events T E L) (tp : T) (events : BitVec 32) :
    (s.chEvtSignalI tp events).log = s.log ++ [.signalled tp events] := by
  simp only [chEvtSignalI]
  split_ifs <;> rfl

omit [DecidableEq E] [DecidableEq L] in
theorem chEvtSignalI_el (s : Events T E L) (tp : T) (events : BitVec 32) :
    (s.chEvtSignalI tp events).el = s.el := by
  simp only [chEvtSignalI]
  split_ifs <;> rfl

omit [DecidableEq E] in
theorem notify_el_eq (flags : BitVec 32) (s : Events T E L) (elp : L) :
    (s.notify flags elp).el =
      Function.update s.el elp { s.el elp with el_flags := (s.el elp).el_flags ||| flags } := by
  unfold notify
  dsimp only
  split_ifs
  · exact chEvtSignalI_el _ _ _
  · rfl

omit [DecidableEq E] in
/-- A broadcast changes the flags of a listener and nothing else of it. -/
theorem notify_el (flags : BitVec 32) (s : Events T E L) (elp other : L) :
    ∃ new, (s.notify flags elp).el other = { s.el other with el_flags := new } := by
  rw [notify_el_eq]
  by_cases same : other = elp
  · subst same
    exact ⟨_, Function.update_self ..⟩
  · exact ⟨_, Function.update_of_ne same _ _⟩

/-- A signal adds its events to those pending for a thread, and wakes the thread if it waits for
them. -/
structure Sends (s : Events T E L) (tp : T) (events : BitVec 32) : Prop where
  pending : (s.chEvtSignalI tp events).p_epending =
    Function.update s.p_epending tp (s.p_epending tp ||| events)
  log : (s.chEvtSignalI tp events).log = s.log ++ [.signalled tp events]
  woken : Awaited (s.p_epending tp ||| events) (s.core.p_state tp) →
    (s.chEvtSignalI tp events).core.waiting tp = none ∧
      (s.chEvtSignalI tp events).core.rdymsg tp = MSG_OK
  kept : ¬ Awaited (s.p_epending tp ||| events) (s.core.p_state tp) →
    (s.chEvtSignalI tp events).core = s.core

/-- A call of the current thread returns the events `m`, which were pending and are no longer. -/
structure Takes (s s' : Events T E L) (op : EvOp) (m : BitVec 32) : Prop where
  answer : Answer (s.p_epending s.core.currp) m op
  pending : s'.p_epending =
    Function.update s.p_epending s.core.currp (s.p_epending s.core.currp &&& ~~~m)
  log : s'.log = s.log ++ [.answered s.core.currp op m]

/-- A wait of the current thread times out: it returns no events, and clears none. -/
structure TimesOut (s s' : Events T E L) (kind : EvKind) (events m : BitVec 32) : Prop where
  zero : m = 0
  pending : s'.p_epending = s.p_epending
  log : s'.log = s.log ++ [.expired s.core.currp kind events 0]

/-- The current thread finds that what it waits for is not pending, and sleeps. -/
structure Sleeps (s s' : Events T E L) (call : EvCall) (armed : Bool) : Prop where
  unmet : ¬ Met (s.p_epending s.core.currp) call.events call.kind
  waits : s'.core.waiting s.core.currp = some (waitState call.events call.kind)
  inside : s'.pc s.core.currp = some call
  timer : s'.timer s.core.currp = armed
  pending : s'.p_epending = s.p_epending
  log : s'.log = s.log

/-- What a wait without a timeout does, by its result. -/
def Waits (s : Events T E L) (kind : EvKind) (events : BitVec 32)
    (r : Option (BitVec 32) × Events T E L) : Prop :=
  (∃ m, r.1 = some m ∧ Takes s r.2 (.wait kind events) m) ∨
    r.1 = none ∧ Sleeps s r.2 { kind := kind, events := events, timed := false } false

/-- A thread that slept in a wait returns the events it was woken for, or times out. -/
def Resumes (s : Events T E L) (call : EvCall) : Prop :=
  s.core.rdymsg s.core.currp = MSG_OK ∧
      Takes s (s.resume call).2 (.wait call.kind call.events) (s.resume call).1 ∨
    s.core.rdymsg s.core.currp = MSG_TIMEOUT ∧ call.timed = true ∧
      TimesOut s (s.resume call).2 call.kind call.events (s.resume call).1

/-- The callback of a timer wakes the thread with `MSG_TIMEOUT`, unless a signal was faster. -/
structure Expires (s : Events T E L) (tp : T) : Prop where
  asleep : s.core.waiting tp ≠ none →
    (s.callback tp).core.waiting tp = none ∧ (s.callback tp).core.rdymsg tp = MSG_TIMEOUT
  ready : s.core.waiting tp = none → s.callback tp = { s with fired := none }
  pending : (s.callback tp).p_epending = s.p_epending

omit [DecidableEq E] [DecidableEq L] in
/-- A thread that sleeps fails the test of a signal. -/
theorem Inv.not_awaited (inv : Inv idle s) (t : T) :
    ¬ Awaited (s.p_epending t) (s.core.p_state t) := by
  intro awaited
  have place := inv.place t
  obtain ⟨call, inside, asleep, met⟩ := inv.awaited awaited
  rw [inside] at place
  cases place with
  | asleep _ _ unmet => exact unmet met
  | woken _ awake _ _ => exact asleep awake
  | timedOut _ awake _ _ => exact asleep awake

section Calls

variable {kind : EvKind} {events : BitVec 32} {call : EvCall} {tp : T}

omit [DecidableEq E] [DecidableEq L] in
theorem Inv.sends (inv : Inv idle s) (tp : T) (events : BitVec 32) : Sends s tp events := by
  have test : Awaited ((s.addPending tp events).p_epending tp) (s.core.p_state tp) ↔
      Awaited (s.p_epending tp ||| events) (s.core.p_state tp) := by
    rw [show (s.addPending tp events).p_epending tp = _ from Function.update_self ..]
  refine ⟨?_, chEvtSignalI_log s tp events, fun awaited => ?_, fun quiet => ?_⟩
  · simp only [Events.chEvtSignalI]
    split_ifs <;> rfl
  · obtain ⟨call, -, asleep, -⟩ := inv.awaited awaited
    have wakes := inv.core.setMsg_ready asleep MSG_OK
    have eq : (s.chEvtSignalI tp events).core = (s.core.setMsg tp MSG_OK).chSchReadyI tp :=
      congrArg Events.core (if_pos (test.mpr awaited))
    rw [eq, wakes.waiting, wakes.rdymsg, Function.update_self, Function.update_self]
    exact ⟨rfl, rfl⟩
  · have eq : s.chEvtSignalI tp events = s.addPending tp events := if_neg (mt test.mp quiet)
    rw [eq]
    rfl

omit [DecidableEq E] [DecidableEq L] in
theorem Inv.sleeps (inv : Inv idle s) (unmet : ¬ Met (s.p_epending s.core.currp) call.events call.kind)
    (other : s.core.currp ≠ idle) (armed : Bool) : Sleeps s (s.sleep call armed) call armed := by
  have sleeps := inv.core.goSleep other (waitState call.events call.kind)
  refine ⟨unmet, ?_, Function.update_self _ _ _, Function.update_self _ _ _, rfl, rfl⟩
  change (s.core.chSchGoSleepS _).waiting s.core.currp = _
  rw [sleeps.waiting, Function.update_self]

omit [DecidableEq E] [DecidableEq L] in
theorem Inv.resumes (inv : Inv idle s) (inside : s.pc s.core.currp = some call) :
    Resumes s call := by
  have place := inv.place s.core.currp
  rw [inside, inv.core.inv.waiting_currp] at place
  unfold Resumes Events.resume
  dsimp only
  cases place with
  | asleep _ asleep _ => cases asleep
  | woken _ _ ok met =>
      have stays : ¬ (call.timed = true ∧ s.core.rdymsg s.core.currp < MSG_OK) := by
        rw [ok]
        exact fun late => absurd late.2 (by decide)
      rw [if_neg stays]
      exact .inl ⟨ok, met.answer.2, rfl, rfl⟩
  | timedOut _ _ late timed =>
      have leaves : call.timed = true ∧ s.core.rdymsg s.core.currp < MSG_OK := by
        rw [late]
        exact ⟨timed, by decide⟩
      rw [if_pos leaves]
      exact .inr ⟨late, timed, rfl, rfl, rfl⟩

omit [DecidableEq E] [DecidableEq L] in
theorem Inv.expires (inv : Inv idle s) (unlocked : s.Unlocked) (fired : s.fired = some tp) :
    Expires s tp := by
  rcases inv.fired_cases unlocked fired with ⟨w, call, state, -⟩ | ready
  · have asleep : s.core.waiting tp ≠ none := by simp [Core.waiting_eq_some.mpr state]
    have wakes := inv.core.setMsg_ready asleep MSG_TIMEOUT
    refine ⟨fun _ => ?_, fun awake => absurd awake asleep, ?_⟩
    · simp only [Events.callback, Events.wakeup, state]
      rw [wakes.waiting, wakes.rdymsg, Function.update_self, Function.update_self]
      exact ⟨rfl, rfl⟩
    · simp only [Events.callback, Events.wakeup, state]
  · have awake : s.core.waiting tp = none := Core.waiting_eq_none.mpr (.inl ready)
    refine ⟨fun asleep => absurd awake asleep, fun _ => ?_, ?_⟩
    · simp only [Events.callback, Events.wakeup, ready]
    · simp only [Events.callback, Events.wakeup, ready]

end Calls

end Runs

/-! ### An example -/

/-- The idle thread and one other, which is current. -/
def sampleStart : Events Bool Unit Unit where
  core :=
    { p_prio := fun t => if t then 128 else IDLEPRIO
      p_state := fun t => if t then .CURRENT else .READY
      p_preempt := fun _ => CH_CFG_TIME_QUANTUM
      rdymsg := fun _ => MSG_OK
      ready := [false]
      currp := true
      log := [] }
  p_epending := fun _ => 0
  es_next := fun _ => []
  el := fun _ => { el_listener := true, el_events := 0, el_flags := 0, el_wflags := 0 }
  timer := fun _ => false
  fired := none
  pc := fun _ => none
  log := []

theorem sampleStart_start : Start false sampleStart where
  core :=
    { inv :=
        { sorted := by simp [Prio.Descending, sampleStart]
          nodup := by decide
          mem_ready := by decide
          current := by decide
          awake := by decide }
      pos := by decide }
  asleep := by decide
  pending _ := rfl
  timer _ := rfl
  fired := rfl
  pc _ := rfl
  log := rfl

/-- The thread waits for two events with a timeout; one is signalled, the timer expires, and
the other one is signalled before the thread runs. -/
def sampleLate : Events Bool Unit Unit :=
  ((((sampleStart.chEvtWaitAllTimeout 3 .finite).2.chEvtSignalI true 1).expire true).callback true).chEvtSignalI true 2

/-- The thread runs, and its wait times out. -/
def sampleExpired : Events Bool Unit Unit :=
  ({ sampleLate with core := sampleLate.core.epilogue }.resume { kind := .all, events := 3, timed := true }).2

theorem sampleExpired_reachable : Reachable false sampleExpired := by
  refine ⟨sampleStart, sampleStart_start, ?_⟩
  have waited : Step false sampleStart (sampleStart.chEvtWaitAllTimeout 3 .finite).2 :=
    .wait ⟨rfl, rfl⟩ (by decide) (.allTimeout 3 .finite)
  have run₁ := (Relation.ReflTransGen.single waited).tail (.isr rfl (.signalI true 1))
  have run₂ := run₁.tail (.isr rfl (.expire true rfl rfl))
  have run₃ := run₂.tail (.isr rfl (.callback true rfl))
  have run₄ := run₃.tail (.isr rfl (.signalI true 2))
  have run₅ := run₄.tail (.thread ⟨rfl, rfl⟩ (.switch .epilogue))
  exact run₅.tail (.resume _ rfl rfl)

end Events

end LtcOs.Kernel
