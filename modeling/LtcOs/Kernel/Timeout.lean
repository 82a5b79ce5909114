import LtcOs.Kernel.Effect
import LtcOs.Kernel.VirtualTimers
import LtcOs.Lib.Waiting

/-!
Sleeping with a timeout (`chSchGoSleepTimeoutS` and `wakeup` in `chschd.c`) in every state
a thread can do it in, with everything that wakes a thread from there.

The timer of a sleep is on the stack of the thread. The tick handler takes it off the
list, gives up the lock, and only then calls `wakeup`; an interrupt handler in between may
find the thread asleep and wake it.
-/

namespace LtcOs.Kernel

open LtcOs.Waiting LtcOs.Prio

/-- What a thread waits for; `OTHER` stands for the states without a timeout. -/
inductive Waits (O : Type) where
  | SUSPENDED (trp : O)
  | WTSEM (sp : O)
  | WTCOND (cp : O)
  | QUEUED (tqp : O)
  | SLEEPING
  | WTOREVT (ewmask : BitVec 32)
  | WTANDEVT (ewmask : BitVec 32)
  | OTHER
deriving DecidableEq, Repr

/-- The objects with a queue of threads. -/
inductive Obj (O : Type) where
  | sem (sp : O)
  | cond (cp : O)
  | threads (tqp : O)
deriving DecidableEq, Repr

/-- The queue a thread in a state is on. -/
def Waits.obj {O : Type} : Waits O → Option (Obj O)
  | .WTSEM sp => some (.sem sp)
  | .WTCOND cp => some (.cond cp)
  | .QUEUED tqp => some (.threads tqp)
  | _ => none

/-- The callback of a timer. -/
inductive Vtfunc where
  | wakeup
  | other
deriving DecidableEq, Repr

/-- A thread goes to sleep, having been put on the ready list so many times; it is released,
by its timer or by a waker, and runs at once or not; it returns. -/
inductive SleepEvent (T O : Type) where
  | slept (tp : T) (w : Waits O) (readied : Nat)
  | released (tp : T) (timer : Bool) (msg : Int) (direct : Bool)
  | returned (tp : T) (msg : Int)
deriving DecidableEq, Repr

/-- Threads of type `T`, timers of other users of type `V`, and thread references and
objects with a queue named by `O`. A thread is in `chSchGoSleepTimeoutS`, with its `time`,
until it runs again; `fired` is the thread whose callback the tick handler is to call. -/
structure Sleepers (T V O : Type) where
  core : Core T (Waits O)
  ref : O → Option T
  s_cnt : O → Int
  queue : Obj O → List T
  p_epending : T → BitVec 32
  vts : Timers.Sys (T ⊕ V) Vtfunc T
  fired : Option T
  pc : T → Option UInt32
  log : List (SleepEvent T O)

def TIME_IMMEDIATE : UInt32 := 0

def TIME_INFINITE : UInt32 := 0xFFFFFFFF

variable {T V O : Type}

namespace Sleepers

/-! ### Going to sleep -/

section Code

variable [DecidableEq T] [DecidableEq V] [DecidableEq O]

/-- `chVTDoSetI` for a timer, with the callback `wakeup` if it is that of a thread. -/
def setTimer (s : Sleepers T V O) (fuel : Nat) (vtp : T ⊕ V) (delay : UInt32) (vtfunc : Vtfunc)
    (par : T) :
    Option (Sleepers T V O) :=
  (s.vts.vt.chVTDoSetI fuel vtp delay vtfunc par).map fun vt => { s with
    vts := { s.vts with vt := vt, log := s.vts.log ++ [.set s.vts.ticks vtp delay vtfunc par] } }

def resetTimer (s : Sleepers T V O) (vtp : T ⊕ V) : Sleepers T V O :=
  { s with
    vts := { s.vts with
      vt := s.vts.vt.chVTDoResetI vtp
      log := s.vts.log ++ [.reset s.vts.ticks vtp] } }

/-- `chSchGoSleepS` with what is left to do at the return. -/
def goSleep (s : Sleepers T V O) (newstate : Waits O) (time : UInt32) : Sleepers T V O :=
  let ctp := s.core.currp
  { s with
    core := s.core.chSchGoSleepS newstate
    pc := Function.update s.pc ctp (some time)
    log := s.log ++ [.slept ctp newstate (s.core.readied ctp)] }

def chSchGoSleepTimeoutS (s : Sleepers T V O) (fuel : Nat) (newstate : Waits O) (time : UInt32) :
    Option (Sleepers T V O) :=
  if time ≠ TIME_INFINITE then
    (s.setTimer fuel (.inl s.core.currp) time .wakeup s.core.currp).map fun s =>
      s.goSleep newstate time
  else some (s.goSleep newstate time)

/-- The rest of `chSchGoSleepTimeoutS`, when the thread runs again. -/
def resume (s : Sleepers T V O) (time : UInt32) : Sleepers T V O :=
  let ctp := s.core.currp
  let s := if time ≠ TIME_INFINITE ∧ s.vts.vt.vt_func (.inl ctp) ≠ none then s.resetTimer (.inl ctp) else s
  { s with
    pc := Function.update s.pc ctp none
    log := s.log ++ [.returned ctp (s.core.rdymsg ctp)] }

/-- Returns `MSG_TIMEOUT` at once for `TIME_IMMEDIATE`. -/
def chThdSuspendTimeoutS (s : Sleepers T V O) (fuel : Nat) (trp : O) (time : UInt32) :
    Option (Sleepers T V O) :=
  if time = TIME_IMMEDIATE then some s
  else { s with ref := Function.update s.ref trp (some s.core.currp) }.chSchGoSleepTimeoutS fuel
    (.SUSPENDED trp) time

/-- The current thread goes on a queue, in the place that `insert` gives it, and sleeps. -/
def enqueue (s : Sleepers T V O) (fuel : Nat) (insert : T → List T → List T) (q : Obj O)
    (newstate : Waits O) (time : UInt32) : Option (Sleepers T V O) :=
  { s with queue := Function.update s.queue q (insert s.core.currp (s.queue q)) }.chSchGoSleepTimeoutS
    fuel newstate time

/-- `queue_insert`. -/
def behind (tp : T) (l : List T) : List T := l ++ [tp]

def chSemWaitTimeoutS (s : Sleepers T V O) (fuel : Nat) (sp : O) (time : UInt32) :
    Option (Sleepers T V O) :=
  let s := { s with s_cnt := Function.update s.s_cnt sp (s.s_cnt sp - 1) }
  if s.s_cnt sp < 0 then
    if time = TIME_IMMEDIATE then some { s with s_cnt := Function.update s.s_cnt sp (s.s_cnt sp + 1) }
    else s.enqueue fuel behind (.sem sp) (.WTSEM sp) time
  else some s

/-- The wait of `chCondWaitTimeoutS`, between the unlock and the lock of the mutex. -/
def chCondWaitTimeoutS (s : Sleepers T V O) (fuel : Nat) (cp : O) (time : UInt32) :
    Option (Sleepers T V O) :=
  s.enqueue fuel (insertBehind s.core.p_prio) (.cond cp) (.WTCOND cp) time

def chThdEnqueueTimeoutS (s : Sleepers T V O) (fuel : Nat) (tqp : O) (time : UInt32) :
    Option (Sleepers T V O) :=
  if time = TIME_IMMEDIATE then some s else s.enqueue fuel behind (.threads tqp) (.QUEUED tqp) time

def chThdSleepS (s : Sleepers T V O) (fuel : Nat) (time : UInt32) : Option (Sleepers T V O) :=
  s.chSchGoSleepTimeoutS fuel .SLEEPING time

/-- The sleep of `chEvtWaitOneTimeout` and `chEvtWaitAnyTimeout`. -/
def chEvtWaitAnyTimeout (s : Sleepers T V O) (fuel : Nat) (events : BitVec 32) (time : UInt32) :
    Option (Sleepers T V O) :=
  if s.p_epending s.core.currp &&& events = 0 then
    if time = TIME_IMMEDIATE then some s else s.chSchGoSleepTimeoutS fuel (.WTOREVT events) time
  else some s

/-- The sleep of `chEvtWaitAllTimeout`. -/
def chEvtWaitAllTimeout (s : Sleepers T V O) (fuel : Nat) (events : BitVec 32) (time : UInt32) :
    Option (Sleepers T V O) :=
  if s.p_epending s.core.currp &&& events ≠ events then
    if time = TIME_IMMEDIATE then some s else s.chSchGoSleepTimeoutS fuel (.WTANDEVT events) time
  else some s

/-! ### Waking -/

/-- How a thread is woken with a message. -/
abbrev Wake (T O : Type) := Core T (Waits O) → T → Int → Core T (Waits O)

/-- The message, then `chSchReadyI`. -/
def msgReady : Wake T O := fun c tp msg => (c.setMsg tp msg).chSchReadyI tp

/-- `chSchReadyI`, then the message. -/
def readyMsg : Wake T O := fun c tp msg => (c.chSchReadyI tp).setMsg tp msg

def wakeupS : Wake T O := fun c tp msg => c.chSchWakeupS tp msg

def release (s : Sleepers T V O) (wake : Wake T O) (tp : T) (timer : Bool) (msg : Int) :
    Sleepers T V O :=
  let core := wake s.core tp msg
  { s with core := core, log := s.log ++ [.released tp timer msg (decide (core.currp = tp))] }

def resumeWith (wake : Wake T O) (s : Sleepers T V O) (trp : O) (msg : Int) : Sleepers T V O :=
  match s.ref trp with
  | none => s
  | some tp => { s with ref := Function.update s.ref trp none }.release wake tp false msg

def chThdResumeI : Sleepers T V O → O → Int → Sleepers T V O := resumeWith msgReady

def chThdResumeS : Sleepers T V O → O → Int → Sleepers T V O := resumeWith wakeupS

/-- `queue_fifo_remove`, and the thread is woken. -/
def wakeFirst (wake : Wake T O) (s : Sleepers T V O) (q : Obj O) (msg : Int) : Sleepers T V O :=
  match s.queue q with
  | [] => s
  | tp :: rest => { s with queue := Function.update s.queue q rest }.release wake tp false msg

def wakeAll (wake : Wake T O) (q : Obj O) (msg : Int) :
    (rounds : Nat) → Sleepers T V O → Sleepers T V O
  | 0, s => s
  | rounds + 1, s => wakeAll wake q msg rounds (s.wakeFirst wake q msg)

def signalWith (wake : Wake T O) (s : Sleepers T V O) (sp : O) : Sleepers T V O :=
  let s := { s with s_cnt := Function.update s.s_cnt sp (s.s_cnt sp + 1) }
  if s.s_cnt sp ≤ 0 then s.wakeFirst wake (.sem sp) MSG_OK else s

def chSemSignal : Sleepers T V O → O → Sleepers T V O := signalWith wakeupS

def chSemSignalI : Sleepers T V O → O → Sleepers T V O := signalWith msgReady

def chSemAddCounterI (s : Sleepers T V O) (sp : O) : (n : Nat) → Sleepers T V O
  | 0 => s
  | n + 1 => signalWith readyMsg (s.chSemAddCounterI sp n) sp

/-- The loop of `chSemResetI`. -/
def resetLoop (sp : O) : (rounds : Nat) → Sleepers T V O → Sleepers T V O
  | 0, s => s
  | rounds + 1, s =>
      match (s.queue (.sem sp)).getLast? with
      | none => s
      | some tp => resetLoop sp rounds
          ({ s with queue := Function.update s.queue (.sem sp) (s.queue (.sem sp)).dropLast }.release
            readyMsg tp false MSG_RESET)

def chSemResetI (s : Sleepers T V O) (sp : O) (n : Nat) : Sleepers T V O :=
  resetLoop sp (-s.s_cnt sp).toNat { s with s_cnt := Function.update s.s_cnt sp n }

def chCondSignal (s : Sleepers T V O) (cp : O) : Sleepers T V O :=
  s.wakeFirst wakeupS (.cond cp) MSG_OK

def chCondSignalI (s : Sleepers T V O) (cp : O) : Sleepers T V O :=
  s.wakeFirst msgReady (.cond cp) MSG_OK

def chCondBroadcastI (s : Sleepers T V O) (cp : O) : Sleepers T V O :=
  wakeAll readyMsg (.cond cp) MSG_RESET (s.queue (.cond cp)).length s

def chThdDequeueNextI (s : Sleepers T V O) (tqp : O) (msg : Int) : Sleepers T V O :=
  s.wakeFirst msgReady (.threads tqp) msg

def chThdDequeueAllI (s : Sleepers T V O) (tqp : O) (msg : Int) : Sleepers T V O :=
  wakeAll msgReady (.threads tqp) msg (s.queue (.threads tqp)).length s

def chEvtSignalI (s : Sleepers T V O) (tp : T) (events : BitVec 32) : Sleepers T V O :=
  let s := { s with p_epending := Function.update s.p_epending tp (s.p_epending tp ||| events) }
  match s.core.p_state tp with
  | .WAIT (.WTOREVT ewmask) =>
      if s.p_epending tp &&& ewmask ≠ 0 then s.release msgReady tp false MSG_OK else s
  | .WAIT (.WTANDEVT ewmask) =>
      if s.p_epending tp &&& ewmask = ewmask then s.release msgReady tp false MSG_OK else s
  | _ => s

/-- What `wakeup` does to the object the thread waits for. -/
def leave (s : Sleepers T V O) (tp : T) : Status (Waits O) → Sleepers T V O
  | .WAIT (.SUSPENDED trp) => { s with ref := Function.update s.ref trp none }
  | .WAIT (.WTSEM sp) => { s with
      s_cnt := Function.update s.s_cnt sp (s.s_cnt sp + 1)
      queue := Function.update s.queue (.sem sp) ((s.queue (.sem sp)).erase tp) }
  | .WAIT (.WTCOND cp) => { s with
      queue := Function.update s.queue (.cond cp) ((s.queue (.cond cp)).erase tp) }
  | .WAIT (.QUEUED tqp) => { s with
      queue := Function.update s.queue (.threads tqp) ((s.queue (.threads tqp)).erase tp) }
  | _ => s

def wakeup (s : Sleepers T V O) (tp : T) : Sleepers T V O :=
  if s.core.p_state tp = .READY then s
  else (s.leave tp (s.core.p_state tp)).release msgReady tp true MSG_TIMEOUT

/-! ### The tick handler -/

def tick (s : Sleepers T V O) : Sleepers T V O :=
  { s with
    core := s.core.tick
    vts := { s.vts with vt := s.vts.vt.tick, mode := .looping, ticks := s.vts.ticks + 1 } }

/-- The first timer is taken off the list, and the lock is released. -/
def fire (s : Sleepers T V O) (vtp : T ⊕ V) (fn : Vtfunc) : Sleepers T V O :=
  { s with
    vts := { s.vts with
      vt := s.vts.vt.expire vtp
      mode := .callback
      log := s.vts.log ++
        [.fire s.vts.ticks vtp fn (s.vts.vt.vt_par vtp) ((s.vts.vt.expire vtp).vt_func vtp)] }
    fired := if fn = .wakeup then some (s.vts.vt.vt_par vtp) else none }

def callback (s : Sleepers T V O) (tp : T) : Sleepers T V O := { s.wakeup tp with fired := none }

def setMode (s : Sleepers T V O) (mode : Timers.Mode) : Sleepers T V O :=
  { s with vts := { s.vts with mode := mode } }

end Code

/-! ### Runs -/

section Steps

variable [DecidableEq T] [DecidableEq V] [DecidableEq O]

/-- The kernel is unlocked: the current thread is not in a call, and the tick handler is not
in its loop. -/
def Unlocked (s : Sleepers T V O) : Prop := s.pc s.core.currp = none ∧ s.vts.mode ≠ .looping

/-- A thread runs: no interrupt handler is active. -/
def Running (s : Sleepers T V O) : Prop := s.pc s.core.currp = none ∧ s.vts.mode = .idle

/-- A call of the current thread that may put it to sleep, and returns `s'`. A reference is
`NULL` when a thread suspends on it, and where the code does not handle
`TIME_IMMEDIATE` it is not passed. -/
inductive Sleep (s : Sleepers T V O) : Sleepers T V O → Prop where
  | suspend {s' : Sleepers T V O} (fuel : Nat) (trp : O) (time : UInt32) (null : s.ref trp = none)
      (result : s.chThdSuspendTimeoutS fuel trp time = some s') : Sleep s s'
  | semWait {s' : Sleepers T V O} (fuel : Nat) (sp : O) (time : UInt32)
      (result : s.chSemWaitTimeoutS fuel sp time = some s') : Sleep s s'
  | condWait {s' : Sleepers T V O} (fuel : Nat) (cp : O) (time : UInt32)
    (later : time ≠ TIME_IMMEDIATE)
      (result : s.chCondWaitTimeoutS fuel cp time = some s') : Sleep s s'
  | enqueue {s' : Sleepers T V O} (fuel : Nat) (tqp : O) (time : UInt32)
      (result : s.chThdEnqueueTimeoutS fuel tqp time = some s') : Sleep s s'
  | sleep {s' : Sleepers T V O} (fuel : Nat) (time : UInt32) (later : time ≠ TIME_IMMEDIATE)
      (result : s.chThdSleepS fuel time = some s') : Sleep s s'
  | waitAny {s' : Sleepers T V O} (fuel : Nat) (events : BitVec 32) (time : UInt32)
      (result : s.chEvtWaitAnyTimeout fuel events time = some s') : Sleep s s'
  | waitAll {s' : Sleepers T V O} (fuel : Nat) (events : BitVec 32) (time : UInt32)
      (result : s.chEvtWaitAllTimeout fuel events time = some s') : Sleep s s'

/-- A call that wakes threads and lets the current thread go on: of an interrupt handler, or
of a thread before it reschedules. -/
inductive WakeI (s : Sleepers T V O) : Sleepers T V O → Prop where
  | resumeI (trp : O) (msg : Int) : WakeI s (s.chThdResumeI trp msg)
  | semSignalI (sp : O) : WakeI s (s.chSemSignalI sp)
  | semAddCounterI (sp : O) (n : Nat) : WakeI s (s.chSemAddCounterI sp n)
  | semResetI (sp : O) (n : Nat) : WakeI s (s.chSemResetI sp n)
  | condSignalI (cp : O) : WakeI s (s.chCondSignalI cp)
  | condBroadcastI (cp : O) : WakeI s (s.chCondBroadcastI cp)
  | dequeueNextI (tqp : O) (msg : Int) : WakeI s (s.chThdDequeueNextI tqp msg)
  | dequeueAllI (tqp : O) (msg : Int) : WakeI s (s.chThdDequeueAllI tqp msg)
  | evtSignalI (tp : T) (events : BitVec 32) : WakeI s (s.chEvtSignalI tp events)
  | other (tp : T) (msg : Int) (waits : s.core.waiting tp = some .OTHER) :
      WakeI s { s with core := msgReady s.core tp msg }

/-- A call of a thread that wakes one thread and lets the one of higher priority go on. -/
inductive WakeS (s : Sleepers T V O) : Sleepers T V O → Prop where
  | resumeS (trp : O) (msg : Int) : WakeS s (s.chThdResumeS trp msg)
  | semSignal (sp : O) : WakeS s (s.chSemSignal sp)
  | condSignal (cp : O) : WakeS s (s.chCondSignal cp)
  | other (tp : T) (msg : Int) (waits : s.core.waiting tp = some .OTHER) :
      WakeS s { s with core := wakeupS s.core tp msg }

/-- One step under the kernel lock. Threads do not run while an interrupt handler is
active; handlers also run while the tick handler is between a timer and its callback. -/
inductive Step (idle : T) : Sleepers T V O → Sleepers T V O → Prop where
  | sleep {s s' : Sleepers T V O} (running : s.Running) (other : s.core.currp ≠ idle)
    (sleep : Sleep s s') :
      Step idle s s'
  | sleepOther {s : Sleepers T V O} (running : s.Running) (other : s.core.currp ≠ idle) :
      Step idle s { s with core := s.core.chSchGoSleepS .OTHER }
  | resume {s : Sleepers T V O} (time : UInt32) (inside : s.pc s.core.currp = some time)
    (calm : s.vts.mode = .idle) :
      Step idle s (s.resume time)
  | wakeI {s s' : Sleepers T V O} (unlocked : s.Unlocked) (wake : WakeI s s') : Step idle s s'
  | wakeS {s s' : Sleepers T V O} (running : s.Running) (wake : WakeS s s') : Step idle s s'
  | events {s : Sleepers T V O} (running : s.Running) (mask : BitVec 32) :
      Step idle s { s with p_epending := Function.update s.p_epending s.core.currp mask }
  | switch {s : Sleepers T V O} {c : Core T (Waits O)} (running : s.Running)
    (switch : s.core.Switch c) :
      Step idle s { s with core := c }
  | set {s s' : Sleepers T V O} (fuel : Nat) (v : V) (delay : UInt32) (par : T)
    (unlocked : s.Unlocked)
      (unarmed : s.vts.vt.vt_func (.inr v) = none) (later : delay ≠ 0)
      (result : s.setTimer fuel (.inr v) delay .other par = some s') : Step idle s s'
  | reset {s : Sleepers T V O} (v : V) (unlocked : s.Unlocked)
    (armed : s.vts.vt.vt_func (.inr v) ≠ none) :
      Step idle s (s.resetTimer (.inr v))
  | tick {s : Sleepers T V O} (running : s.Running) : Step idle s s.tick
  | fire {s : Sleepers T V O} (vtp : T ⊕ V) (fn : Vtfunc) (looping : s.vts.mode = .looping)
      (first : s.vts.vt.links.next none = some vtp) (due : s.vts.vt.vt_delta (some vtp) = 0)
      (func : s.vts.vt.vt_func vtp = some fn) : Step idle s (s.fire vtp fn)
  | callback {s : Sleepers T V O} (tp : T) (fired : s.fired = some tp) : Step idle s (s.callback tp)
  | return {s : Sleepers T V O} (callback : s.vts.mode = .callback) (called : s.fired = none) :
      Step idle s (s.setMode .looping)
  | done {s : Sleepers T V O} (looping : s.vts.mode = .looping)
      (later : s.vts.vt.vt_delta (s.vts.vt.links.next none) ≠ 0) : Step idle s (s.setMode .idle)

/-- No thread is in a sleep with a timeout, and no timer is armed. -/
structure Start (idle : T) (s : Sleepers T V O) : Prop where
  core : s.core.Sound idle
  asleep : ∀ t, s.core.waiting t = none ∨ s.core.waiting t = some .OTHER
  ref : ∀ trp, s.ref trp = none
  queue : ∀ q, s.queue q = []
  vts : ∃ vt : Timers.VtList (T ⊕ V) Vtfunc T, s.vts = ⟨vt._vt_init, .idle, 0, []⟩
  fired : s.fired = none
  pc : ∀ t, s.pc t = none
  log : s.log = []

def Reachable (idle : T) (s : Sleepers T V O) : Prop :=
  ∃ s₀, Start idle s₀ ∧ Relation.ReflTransGen (Step idle) s₀ s

end Steps

/-! ### Histories -/

/-- Where a thread is in a sleep. -/
inductive Phase (O : Type) where
  | outside
  | asleep (w : Waits O) (readied : Nat)
  | released (w : Waits O) (readied : Nat) (timer : Bool) (msg : Int) (direct : Bool)
  | broken
deriving DecidableEq, Repr

section Histories

variable [DecidableEq T] [DecidableEq O]

/-- A thread falls asleep from outside, is released once, and returns with the message it
was released with. -/
def Phase.next (t : T) (phase : Phase O) : SleepEvent T O → Phase O
  | .slept tp w readied =>
      if tp = t then (if phase = .outside then .asleep w readied else .broken) else phase
  | .released tp timer msg direct =>
      if tp = t then
        match phase with
        | .asleep w readied => .released w readied timer msg direct
        | _ => .broken
      else phase
  | .returned tp msg =>
      if tp = t then
        match phase with
        | .released _ _ _ msg' _ => if msg = msg' then .outside else .broken
        | _ => .broken
      else phase

def phase (t : T) (log : List (SleepEvent T O)) : Phase O := log.foldl (Phase.next t) .outside

theorem phase_concat (t : T) (log : List (SleepEvent T O)) (e : SleepEvent T O) :
    phase t (log ++ [e]) = (phase t log).next t e := by
  simp [phase]

end Histories

/-! ### The invariant -/

/-- The queue a thread waits on. -/
def place (waiting : T → Option (Waits O)) (t : T) : Option (Obj O) := (waiting t).bind Waits.obj

/-- What the history says about a thread is true. -/
def Phase.Holds (waits : Option (Waits O)) (msg : Int) (readied : Nat) (pc : Option UInt32) :
    Phase O → Prop
  | .outside => pc = none ∧ (waits = none ∨ waits = some .OTHER)
  | .asleep w k => pc ≠ none ∧ waits = some w ∧ w ≠ .OTHER ∧ readied = k
  | .released _ k timer m direct =>
      pc ≠ none ∧ waits = none ∧ msg = m ∧ (timer = true → m = MSG_TIMEOUT) ∧
      (timer = true → direct = false) ∧ readied = k + if direct then 0 else 1
  | .broken => False

/-- The timer of a thread is on the list only while the thread is in a sleep that is not for
ever. -/
def Timed (s : Sleepers T V O) (t : T) : Prop := ∃ time, s.pc t = some time ∧ time ≠ TIME_INFINITE

/-- The threads, what they wait for and the timers agree, also in the middle of a call. -/
structure Base (idle : T) (s : Sleepers T V O) [DecidableEq T] [DecidableEq O] [DecidableEq V] :
    Prop where
  core : s.core.Sound idle
  queued : Queued none (place s.core.waiting) s.queue
  refs : ∀ trp t, s.ref trp = some t ↔ s.core.waiting t = some (.SUSPENDED trp)
  holds : ∀ t, (phase t s.log).Holds (s.core.waiting t) (s.core.rdymsg t) (s.core.readied t)
      (s.pc t)
  timers : ∃ l, Timers.Inv s.vts l
  armed : ∀ t, s.vts.vt.vt_func (.inl t) ≠ none → Timed s t
  func : ∀ vtp, s.vts.vt.vt_func vtp = some .wakeup → vtp = .inl (s.vts.vt.vt_par vtp)
  own : ∀ t fn, s.vts.vt.vt_func (.inl t) = some fn → fn = .wakeup
  fired : ∀ t, s.fired = some t →
      s.vts.mode = .callback ∧ Timed s t ∧ s.vts.vt.vt_func (.inl t) = none
  busy : s.vts.mode ≠ .idle → s.pc s.core.currp = none

section Proofs

variable [DecidableEq T] [DecidableEq V] [DecidableEq O] {idle tp t : T} {s s' : Sleepers T V O}
  {w : Waits O} {c : Core T (Waits O)} {msg : Int}

omit [DecidableEq V] [DecidableEq O] in
theorem place_update (waiting : T → Option (Waits O)) (tp : T) (w : Option (Waits O)) :
    place (Function.update waiting tp w) =
      Function.update (place waiting) tp (w.bind Waits.obj) := by
  funext t
  by_cases same : t = tp
  · subst same
    simp [place]
  · simp [place, same]

/-- A thread in no call is outside. -/
theorem Base.outside (base : Base idle s) (out : s.pc t = none) : phase t s.log = .outside := by
  have holds := base.holds t
  cases eq : phase t s.log with
  | outside => rfl
  | asleep w k =>
      rw [eq] at holds
      exact absurd out holds.1
  | released w k timer m direct =>
      rw [eq] at holds
      exact absurd out holds.1
  | broken =>
      rw [eq] at holds
      exact holds.elim

/-- A thread that waits for something with a timeout is in a sleep. -/
theorem Base.asleep (base : Base idle s) (waits : s.core.waiting t = some w) (timeout : w ≠ .OTHER) :
    s.pc t ≠ none ∧ phase t s.log = .asleep w (s.core.readied t) := by
  have holds := base.holds t
  rw [waits] at holds
  cases eq : phase t s.log with
  | outside =>
      rw [eq] at holds
      rcases holds.2 with none | other
      · cases none
      · exact absurd (Option.some.inj other) timeout
  | asleep w' k =>
      rw [eq] at holds
      obtain ⟨inside, same, -, count⟩ := holds
      rw [Option.some.inj same, count]
      exact ⟨inside, rfl⟩
  | released w' k timer m direct =>
      rw [eq] at holds
      exact absurd holds.2.1 (by simp)
  | broken =>
      rw [eq] at holds
      exact holds.elim

/-! ### The scheduler -/

/-- The scheduler neither wakes a thread nor puts one to sleep. -/
theorem Base.quiet (base : Base idle s) (out : s.pc s.core.currp = none)
    (quiet : Core.Quiet idle s.core c) (calm : s.vts.mode = .idle ∨ c.currp = s.core.currp) :
    Base idle { s with core := c } := by
  refine ⟨quiet.sound, ?_, ?_, ?_, base.timers, base.armed, base.func, base.own, base.fired, ?_⟩
  · rw [quiet.waiting]
    exact base.queued
  · rw [quiet.waiting]
    exact base.refs
  · intro t
    by_cases current : t = s.core.currp
    · have holds := base.holds t
      rw [base.outside (current ▸ out)] at holds ⊢
      rw [quiet.waiting]
      exact holds
    · rw [quiet.waiting, quiet.rdymsg, quiet.readied t current]
      exact base.holds t
  · intro active
    rcases calm with calm | same
    · exact absurd calm active
    · change s.pc c.currp = none
      rw [same]
      exact out

/-! ### Waking a thread -/

/-- The references when a thread in the state `w` has left. -/
def freeRef (ref : O → Option T) : Waits O → O → Option T
  | .SUSPENDED trp => Function.update ref trp none
  | _ => ref

/-- The queues when the thread `tp` in the state `w` has left. -/
def freeQueue (queue : Obj O → List T) (tp : T) (w : Waits O) : Obj O → List T :=
  match w.obj with
  | some q => Function.update queue q ((queue q).erase tp)
  | none => queue

omit [DecidableEq V] in
theorem refs_free {ref : O → Option T} {waiting : T → Option (Waits O)}
    (refs : ∀ trp t, ref trp = some t ↔ waiting t = some (.SUSPENDED trp))
    (waits : waiting tp = some w) (trp : O) (t : T) :
    freeRef ref w trp = some t ↔ Function.update waiting tp none t = some (.SUSPENDED trp) := by
  by_cases same : t = tp
  · subst same
    rw [Function.update_self]
    constructor
    · intro held
      cases w with
      | SUSPENDED o =>
          by_cases here : trp = o
          · simp [freeRef, here] at held
          · simp only [freeRef, Function.update_of_ne here] at held
            rw [(refs trp t).mp held] at waits
            exact absurd (Waits.SUSPENDED.inj (Option.some.inj waits)) here
      | _ =>
          have still : ref trp = some t := held
          rw [(refs trp t).mp still] at waits
          cases waits
    · intro absurd
      cases absurd
  · rw [Function.update_of_ne same, ← refs]
    cases w with
    | SUSPENDED o =>
        by_cases here : trp = o
        · subst here
          have held := (refs trp tp).mpr waits
          simp [freeRef, held, Ne.symm same]
        · simp only [freeRef, Function.update_of_ne here]
    | _ => rfl

omit [DecidableEq V] in
theorem queued_free {queue : Obj O → List T} {waiting : T → Option (Waits O)}
    (queued : Queued none (place waiting) queue) (waits : waiting tp = some w) :
    Queued none (place (Function.update waiting tp none)) (freeQueue queue tp w) := by
  have here : place waiting tp = w.obj := by
    rw [place, waits]
    rfl
  rw [place_update, Option.bind_none]
  cases obj : w.obj with
  | none =>
      have stay : freeQueue queue tp w = queue := by rw [freeQueue, obj]
      rw [stay, ← here.trans obj, Function.update_eq_self]
      exact queued
  | some q =>
      have gone : freeQueue queue tp w =
          Function.update queue q ((queue q).erase tp) := by rw [freeQueue, obj]
      rw [gone]
      exact queued.depart (here.trans obj)

/-- A thread is released from its sleep, by whatever means. -/
theorem Base.release (base : Base idle s) (out : s.pc s.core.currp = none)
    (waits : s.core.waiting tp = some w) (timeout : w ≠ .OTHER) {wake : Wake T O}
    (wakes : Core.Wakes idle tp msg s.core (wake s.core tp msg)) (timer : Bool)
    (late : timer = true → msg = MSG_TIMEOUT ∧ (wake s.core tp msg).currp ≠ tp)
    (calm : s.vts.mode = .idle ∨ (wake s.core tp msg).currp = s.core.currp) (cnt : O → Int)
    (pending : T → BitVec 32) :
    Base idle ({ s with
      ref := freeRef s.ref w
      s_cnt := cnt
      queue := freeQueue s.queue tp w
      p_epending := pending }.release wake tp timer msg) := by
  obtain ⟨inside, before⟩ := base.asleep waits timeout
  refine ⟨wakes.sound, ?_, ?_, ?_, base.timers, base.armed, base.func, base.own, base.fired, ?_⟩
  · change Queued none (place (wake s.core tp msg).waiting) _
    rw [wakes.waiting]
    exact queued_free base.queued waits
  · intro trp t
    change freeRef s.ref w trp = some t ↔ (wake s.core tp msg).waiting t = _
    rw [wakes.waiting]
    exact refs_free base.refs waits trp t
  · intro t
    change (phase t (s.log ++ [_])).Holds ((wake s.core tp msg).waiting t)
      ((wake s.core tp msg).rdymsg t)
      ((wake s.core tp msg).readied t) (s.pc t)
    rw [phase_concat]
    by_cases same : t = tp
    · subst same
      rw [before, wakes.waiting, wakes.rdymsg, wakes.woken, Function.update_self,
        Function.update_self]
      simp only [Phase.next, if_true]
      refine ⟨inside, rfl, rfl, fun by_timer => (late by_timer).1, ?_, ?_⟩
      · intro by_timer
        exact decide_eq_false (late by_timer).2
      · simp
    · simp only [Phase.next, if_neg (Ne.symm same)]
      by_cases current : t = s.core.currp
      · have holds := base.holds t
        rw [base.outside (current ▸ out)] at holds ⊢
        rw [wakes.waiting, Function.update_of_ne same]
        exact holds
      · rw [wakes.waiting, wakes.rdymsg, wakes.readied t current same, Function.update_of_ne same,
          Function.update_of_ne same]
        exact base.holds t
  · intro active
    rcases calm with calm | same
    · exact absurd calm active
    · change s.pc (wake s.core tp msg).currp = none
      rw [same]
      exact out

/-- A thread wakes that waits for something without a timeout. -/
theorem Base.wakes_other (base : Base idle s) (out : s.pc s.core.currp = none)
    (waits : s.core.waiting tp = some .OTHER) (wakes : Core.Wakes idle tp msg s.core c)
    (calm : s.vts.mode = .idle ∨ c.currp = s.core.currp) : Base idle { s with core := c } := by
  refine ⟨wakes.sound, ?_, ?_, ?_, base.timers, base.armed, base.func, base.own, base.fired, ?_⟩
  · rw [wakes.waiting]
    exact queued_free base.queued waits
  · intro trp t
    rw [wakes.waiting]
    exact refs_free base.refs waits trp t
  · intro t
    have holds := base.holds t
    by_cases same : t = tp
    · subst same
      rw [waits] at holds
      rw [wakes.waiting, Function.update_self]
      cases eq : phase t s.log with
      | outside =>
          rw [eq] at holds
          exact ⟨holds.1, .inl rfl⟩
      | asleep w k =>
          rw [eq] at holds
          exact absurd (Option.some.inj holds.2.1).symm holds.2.2.1
      | released w k timer m direct =>
          rw [eq] at holds
          exact absurd holds.2.1 (by simp)
      | broken =>
          rw [eq] at holds
          exact holds.elim
    · by_cases current : t = s.core.currp
      · rw [base.outside (current ▸ out)] at holds ⊢
        rw [wakes.waiting, Function.update_of_ne same]
        exact holds
      · rw [wakes.waiting, wakes.rdymsg, wakes.readied t current same, Function.update_of_ne same,
          Function.update_of_ne same]
        exact holds
  · intro active
    rcases calm with calm | same
    · exact absurd calm active
    · change s.pc c.currp = none
      rw [same]
      exact out

/-! ### The wakers -/

/-- A way to wake a thread that wakes it and nothing else. -/
def Good (idle : T) (wake : Wake T O) : Prop :=
  ∀ (c : Core T (Waits O)) (tp : T) (msg : Int), c.Sound idle → c.waiting tp ≠ none →
    Core.Wakes idle tp msg c (wake c tp msg)

/-- A way to wake a thread that lets the current thread go on. -/
def Keeps (wake : Wake T O) : Prop :=
  ∀ (c : Core T (Waits O)) (tp : T) (msg : Int), (wake c tp msg).currp = c.currp

omit [DecidableEq V] [DecidableEq O] in
theorem good_msgReady (idle : T) : Good idle (msgReady : Wake T O) :=
  fun _ _ msg sound asleep => sound.setMsg_ready asleep msg

omit [DecidableEq V] [DecidableEq O] in
theorem good_readyMsg (idle : T) : Good idle (readyMsg : Wake T O) :=
  fun _ _ msg sound asleep => sound.ready_setMsg asleep msg

omit [DecidableEq V] [DecidableEq O] in
theorem good_wakeupS (idle : T) : Good idle (wakeupS : Wake T O) :=
  fun _ _ msg sound asleep => sound.wakeup asleep msg

omit [DecidableEq V] [DecidableEq O] in
theorem keeps_msgReady : Keeps (msgReady : Wake T O) := fun _ _ _ => rfl

omit [DecidableEq V] [DecidableEq O] in
theorem keeps_readyMsg : Keeps (readyMsg : Wake T O) := fun _ _ _ => rfl

/-- The invariant while the current thread goes on. -/
structure Going (idle : T) (s : Sleepers T V O) : Prop where
  base : Base idle s
  out : s.pc s.core.currp = none

omit [DecidableEq T] [DecidableEq V] in
/-- A thread on a queue is in the state of that queue. -/
theorem waits_of_place {waiting : T → Option (Waits O)} {q : Obj O}
    (here : place waiting tp = some q) :
    ∃ w, waiting tp = some w ∧ w.obj = some q ∧ w ≠ .OTHER ∧
      ∀ ref : O → Option T, freeRef ref w = ref := by
  obtain ⟨w, waits, obj⟩ := Option.bind_eq_some_iff.mp here
  refine ⟨w, waits, obj, ?_, ?_⟩
  · rintro rfl
    cases obj
  · intro ref
    cases w <;> first | rfl | cases obj

/-- A thread on a queue is released. -/
theorem Base.dequeue (base : Base idle s) (out : s.pc s.core.currp = none) {q : Obj O}
    (mem : tp ∈ s.queue q) {wake : Wake T O} (good : Good idle wake)
    (calm : s.vts.mode = .idle ∨ Keeps wake) (cnt : O → Int) (msg : Int) :
    Base idle ({ s with
      s_cnt := cnt
      queue := Function.update s.queue q ((s.queue q).erase tp) }.release wake tp false msg) := by
  obtain ⟨w, waits, obj, timeout, ref⟩ := waits_of_place (base.queued.place_eq mem)
  have wakes := good s.core tp msg base.core (by simp [waits])
  have calm' : s.vts.mode = .idle ∨ (wake s.core tp msg).currp = s.core.currp :=
    calm.imp_right fun keeps => keeps s.core tp msg
  have released := base.release out waits timeout wakes false (by simp) calm' cnt s.p_epending
  rw [ref, freeQueue, obj] at released
  exact released

theorem Base.wakeFirst (base : Base idle s) (out : s.pc s.core.currp = none) {wake : Wake T O}
    (good : Good idle wake) (calm : s.vts.mode = .idle ∨ Keeps wake) (cnt : O → Int) (q : Obj O)
    (msg : Int) :
    Base idle ({ s with s_cnt := cnt }.wakeFirst wake q msg) := by
  unfold Sleepers.wakeFirst
  split
  · exact ⟨base.core, base.queued, base.refs, base.holds, base.timers, base.armed, base.func,
      base.own, base.fired,
      base.busy⟩
  · next tp rest queue =>
    change s.queue q = tp :: rest at queue
    have mem : tp ∈ s.queue q := by simp [queue]
    have released := base.dequeue out mem good calm cnt msg
    rw [queue, List.erase_cons_head] at released
    exact released

omit [DecidableEq V] in
theorem wakeFirst_pc (s : Sleepers T V O) (wake : Wake T O) (q : Obj O) (msg : Int) :
    (s.wakeFirst wake q msg).pc = s.pc := by
  unfold wakeFirst
  split <;> rfl

omit [DecidableEq V] in
theorem wakeFirst_currp (s : Sleepers T V O) {wake : Wake T O} (keeps : Keeps wake) (q : Obj O)
    (msg : Int) :
    (s.wakeFirst wake q msg).core.currp = s.core.currp := by
  unfold wakeFirst
  split
  · rfl
  · exact keeps _ _ _

theorem Going.wakeFirst (going : Going idle s) {wake : Wake T O} (good : Good idle wake)
    (keeps : Keeps wake) (cnt : O → Int) (q : Obj O) (msg : Int) :
    Going idle ({ s with s_cnt := cnt }.wakeFirst wake q msg) := by
  refine ⟨going.base.wakeFirst going.out good (.inr keeps) cnt q msg, ?_⟩
  rw [wakeFirst_pc, wakeFirst_currp _ keeps]
  exact going.out

theorem Going.wakeAll (going : Going idle s) {wake : Wake T O} (good : Good idle wake)
    (keeps : Keeps wake) (q : Obj O) (msg : Int) (rounds : Nat) :
    Going idle (wakeAll wake q msg rounds s) := by
  induction rounds generalizing s with
  | zero => exact going
  | succ rounds ih => exact ih (going.wakeFirst good keeps s.s_cnt q msg)

theorem Base.setCnt (base : Base idle s) (cnt : O → Int) : Base idle { s with s_cnt := cnt } :=
  ⟨base.core, base.queued, base.refs, base.holds, base.timers, base.armed, base.func, base.own,
    base.fired, base.busy⟩

theorem Base.signalWith (base : Base idle s) (out : s.pc s.core.currp = none) {wake : Wake T O}
    (good : Good idle wake) (calm : s.vts.mode = .idle ∨ Keeps wake) (sp : O) :
    Base idle (signalWith wake s sp) := by
  unfold Sleepers.signalWith
  dsimp only
  split
  · exact base.wakeFirst out good calm _ _ _
  · exact base.setCnt _

theorem Going.signalWith (going : Going idle s) {wake : Wake T O} (good : Good idle wake)
    (keeps : Keeps wake) (sp : O) : Going idle (Sleepers.signalWith wake s sp) := by
  unfold Sleepers.signalWith
  dsimp only
  split
  · exact going.wakeFirst good keeps _ _ _
  · exact ⟨going.base.setCnt _, going.out⟩

theorem Going.chSemAddCounterI (going : Going idle s) (sp : O) (n : Nat) :
    Going idle (s.chSemAddCounterI sp n) := by
  induction n with
  | zero => exact going
  | succ n ih => exact ih.signalWith (good_readyMsg idle) keeps_readyMsg sp

theorem Going.resetLoop (going : Going idle s) (sp : O) (rounds : Nat) :
    Going idle (resetLoop sp rounds s) := by
  induction rounds generalizing s with
  | zero => exact going
  | succ rounds ih =>
      unfold Sleepers.resetLoop
      split
      · exact going
      · next tp last =>
        have mem : tp ∈ s.queue (.sem sp) := List.mem_of_getLast? last
        have released := going.base.dequeue going.out mem (good_readyMsg idle)
          (.inr keeps_readyMsg) s.s_cnt MSG_RESET
        rw [← dropLast_eq_erase (going.base.queued.nodup _) last] at released
        exact ih ⟨released, going.out⟩

theorem Base.resumeWith (base : Base idle s) (out : s.pc s.core.currp = none) {wake : Wake T O}
    (good : Good idle wake) (calm : s.vts.mode = .idle ∨ Keeps wake) (trp : O) (msg : Int) :
    Base idle (resumeWith wake s trp msg) := by
  unfold Sleepers.resumeWith
  split
  · exact base
  · next tp held =>
    have waits := (base.refs trp tp).mp held
    have wakes := good s.core tp msg base.core (by simp [waits])
    have calm' : s.vts.mode = .idle ∨ (wake s.core tp msg).currp = s.core.currp :=
      calm.imp_right fun keeps => keeps s.core tp msg
    exact base.release out waits (by simp) wakes false (by simp) calm' s.s_cnt s.p_epending

theorem Base.setEvents (base : Base idle s) (pending : T → BitVec 32) :
    Base idle { s with p_epending := pending } :=
  ⟨base.core, base.queued, base.refs, base.holds, base.timers, base.armed, base.func, base.own,
    base.fired, base.busy⟩

/-- The thread of an event wait is on no queue and behind no reference. -/
theorem Base.signalled (base : Base idle s) (out : s.pc s.core.currp = none)
    (state : s.core.p_state tp = .WAIT w) (timeout : w ≠ .OTHER)
    (queue : freeQueue s.queue tp w = s.queue) (ref : freeRef s.ref w = s.ref)
    (pending : T → BitVec 32) :
    Base idle ({ s with p_epending := pending }.release msgReady tp false MSG_OK) := by
  have waits := Core.waiting_eq_some.mpr state
  have wakes := good_msgReady idle s.core tp MSG_OK base.core (by simp [waits])
  have released := base.release out waits timeout wakes false (by simp) (.inr rfl) s.s_cnt pending
  rw [queue, ref] at released
  exact released

theorem Base.chEvtSignalI (base : Base idle s) (out : s.pc s.core.currp = none) (tp : T)
    (events : BitVec 32) :
    Base idle (s.chEvtSignalI tp events) := by
  unfold Sleepers.chEvtSignalI
  dsimp only
  split
  · next ewmask state =>
    split
    · exact base.signalled out state (by simp) rfl rfl _
    · exact base.setEvents _
  · next ewmask state =>
    split
    · exact base.signalled out state (by simp) rfl rfl _
    · exact base.setEvents _
  · exact base.setEvents _

theorem WakeI.base (base : Base idle s) (out : s.pc s.core.currp = none) (wake : WakeI s s') :
    Base idle s' := by
  have going : Going idle s := ⟨base, out⟩
  have good := good_msgReady (O := O) idle
  have keeps : Keeps (msgReady : Wake T O) := keeps_msgReady
  cases wake with
  | resumeI trp msg => exact base.resumeWith out good (.inr keeps) trp msg
  | semSignalI sp => exact base.signalWith out good (.inr keeps) sp
  | semAddCounterI sp n => exact (going.chSemAddCounterI sp n).base
  | semResetI sp n =>
      have started : Going idle { s with s_cnt := Function.update s.s_cnt sp n } :=
        ⟨base.setCnt _, out⟩
      exact (started.resetLoop sp _).base
  | condSignalI cp => exact base.wakeFirst out good (.inr keeps) s.s_cnt _ _
  | condBroadcastI cp => exact (going.wakeAll (good_readyMsg idle) keeps_readyMsg _ _ _).base
  | dequeueNextI tqp msg => exact base.wakeFirst out good (.inr keeps) s.s_cnt _ _
  | dequeueAllI tqp msg => exact (going.wakeAll good keeps _ _ _).base
  | evtSignalI tp events => exact base.chEvtSignalI out tp events
  | other tp msg waits =>
      exact base.wakes_other out waits (good s.core tp msg base.core (by simp [waits])) (.inr rfl)

theorem WakeS.base (base : Base idle s) (out : s.pc s.core.currp = none) (calm : s.vts.mode = .idle)
    (wake : WakeS s s') : Base idle s' := by
  have good := good_wakeupS (O := O) idle
  cases wake with
  | resumeS trp msg => exact base.resumeWith out good (.inl calm) trp msg
  | semSignal sp => exact base.signalWith out good (.inl calm) sp
  | condSignal cp => exact base.wakeFirst out good (.inl calm) s.s_cnt _ _
  | other tp msg waits =>
      exact base.wakes_other out waits (good s.core tp msg base.core (by simp [waits])) (.inl calm)

/-! ### Timers -/

/-- What happens to the timer of a thread that goes to sleep. -/
structure TimerSet (tp : T) (time : UInt32) (vts vts' : Timers.Sys (T ⊕ V) Vtfunc T) : Prop where
  mode : vts'.mode = vts.mode
  timers : (∃ l, Timers.Inv vts l) → ∃ l, Timers.Inv vts' l
  func : ∀ vtp, vts'.vt.vt_func vtp =
    if time ≠ TIME_INFINITE ∧ vtp = .inl tp then some .wakeup else vts.vt.vt_func vtp
  par : ∀ vtp, vts'.vt.vt_par vtp = if time ≠ TIME_INFINITE ∧ vtp = .inl tp then tp else vts.vt.vt_par vtp

omit [DecidableEq O] in
theorem timer_kept (tp : T) (vts : Timers.Sys (T ⊕ V) Vtfunc T) :
    TimerSet tp TIME_INFINITE vts vts where
  mode := rfl
  timers := id
  func vtp := by simp
  par vtp := by simp

omit [DecidableEq O] in
/-- What `chVTDoSetI` does to the fields of the timers. -/
theorem setTimer_spec {fuel : Nat} {vtp : T ⊕ V} {delay : UInt32} {fn : Vtfunc} {par : T}
    (unlocked : s.vts.mode ≠ .looping) (unarmed : s.vts.vt.vt_func vtp = none) (later : delay ≠ 0)
    (result : s.setTimer fuel vtp delay fn par = some s') :
    ∃ vts', s' = { s with vts := vts' } ∧ vts'.mode = s.vts.mode ∧
      ((∃ l, Timers.Inv s.vts l) → ∃ l, Timers.Inv vts' l) ∧
      vts'.vt.vt_func = Function.update s.vts.vt.vt_func vtp (some fn) ∧
      vts'.vt.vt_par = Function.update s.vts.vt.vt_par vtp par := by
  obtain ⟨vt, set, rfl⟩ := Option.map_eq_some_iff.mp result
  refine ⟨_, rfl, rfl, ?_, ?_, ?_⟩
  · rintro ⟨l, inv⟩
    exact Timers.inv_step inv (.set fuel vtp delay fn par unlocked unarmed later set)
  · obtain ⟨r, -, rfl⟩ := Option.map_eq_some_iff.mp set
    rfl
  · obtain ⟨r, -, rfl⟩ := Option.map_eq_some_iff.mp set
    rfl

/-- A thread outside has no timer. -/
theorem Base.unarmed (base : Base idle s) (out : s.pc t = none) :
    s.vts.vt.vt_func (.inl t) = none := by
  by_contra armed
  obtain ⟨time, inside, -⟩ := base.armed t armed
  exact absurd (out.symm.trans inside) (by simp)

omit [DecidableEq O] in
theorem chSchGoSleepTimeoutS_spec {fuel : Nat} {time : UInt32}
    (result : s.chSchGoSleepTimeoutS fuel w time = some s') (calm : s.vts.mode = .idle)
    (unarmed : s.vts.vt.vt_func (.inl s.core.currp) = none) (later : time ≠ TIME_IMMEDIATE) :
    ∃ vts', TimerSet s.core.currp time s.vts vts' ∧ s' = { s with vts := vts' }.goSleep w time := by
  unfold chSchGoSleepTimeoutS at result
  split_ifs at result with finite
  · obtain ⟨s₁, set, rfl⟩ := Option.map_eq_some_iff.mp result
    have unlocked : s.vts.mode ≠ .looping := by simp [calm]
    obtain ⟨vts', rfl, mode, timers, func, par⟩ := setTimer_spec unlocked unarmed later set
    refine ⟨vts', ⟨mode, timers, ?_, ?_⟩, rfl⟩
    · intro vtp
      rw [func, Function.update_apply]
      simp [finite]
    · intro vtp
      rw [par, Function.update_apply]
      simp [finite]
  · rw [not_not] at finite
    subst finite
    cases result
    exact ⟨s.vts, timer_kept _ _, rfl⟩

/-! ### Going to sleep -/

/-- The current thread goes to sleep in the state `w`, behind its reference or on its
queue. -/
theorem Base.goSleep (base : Base idle s) (out : s.pc s.core.currp = none)
    (calm : s.vts.mode = .idle)
    (other : s.core.currp ≠ idle) (timeout : w ≠ .OTHER) {time : UInt32}
      {vts : Timers.Sys (T ⊕ V) Vtfunc T}
    (set : TimerSet s.core.currp time s.vts vts) {ref : O → Option T} {queue : Obj O → List T}
      (cnt : O → Int)
    (queued : Queued none (Function.update (place s.core.waiting) s.core.currp w.obj) queue)
    (refs : ∀ trp t, ref trp = some t ↔
      Function.update s.core.waiting s.core.currp (some w) t = some (.SUSPENDED trp)) :
    Base idle ({ s with ref := ref, s_cnt := cnt, queue := queue, vts := vts }.goSleep w time) := by
  have sleeps := base.core.goSleep other w
  have timed : ∀ t, Timed s t →
      Timed ({ s with ref := ref, s_cnt := cnt, queue := queue, vts := vts }.goSleep w time) t := by
    rintro t ⟨time', inside, finite⟩
    have ne : t ≠ s.core.currp := by
      rintro rfl
      exact absurd (out.symm.trans inside) (by simp)
    exact ⟨time', (Function.update_of_ne ne _ _).trans inside, finite⟩
  refine ⟨sleeps.sound, ?_, ?_, ?_, set.timers base.timers, ?_, ?_, ?_, ?_, ?_⟩
  · change Queued none (place (s.core.chSchGoSleepS w).waiting) queue
    rw [sleeps.waiting, place_update]
    exact queued
  · intro trp t
    change ref trp = some t ↔ (s.core.chSchGoSleepS w).waiting t = _
    rw [sleeps.waiting]
    exact refs trp t
  · intro t
    change (phase t (s.log ++ [.slept s.core.currp w (s.core.readied s.core.currp)])).Holds
      ((s.core.chSchGoSleepS w).waiting t) ((s.core.chSchGoSleepS w).rdymsg t)
      ((s.core.chSchGoSleepS w).readied t) (Function.update s.pc s.core.currp (some time) t)
    rw [phase_concat, sleeps.waiting, sleeps.rdymsg, sleeps.readied]
    by_cases same : t = s.core.currp
    · subst same
      rw [base.outside out, Function.update_self, Function.update_self]
      simp only [Phase.next, if_true]
      exact ⟨by simp, rfl, timeout, rfl⟩
    · rw [Function.update_of_ne same, Function.update_of_ne same]
      simp only [Phase.next, if_neg (Ne.symm same)]
      exact base.holds t
  · intro t armed
    change vts.vt.vt_func (.inl t) ≠ none at armed
    rw [set.func] at armed
    split_ifs at armed with own
    · obtain rfl : t = s.core.currp := Sum.inl.inj own.2
      exact ⟨time, Function.update_self _ _ _, own.1⟩
    · exact timed t (base.armed t armed)
  · intro vtp func
    change vts.vt.vt_func vtp = some .wakeup at func
    change vtp = .inl (vts.vt.vt_par vtp)
    rw [set.func] at func
    rw [set.par]
    split_ifs at func ⊢ with own
    · exact own.2
    · exact base.func vtp func
  · intro t fn func
    change vts.vt.vt_func (.inl t) = some fn at func
    rw [set.func] at func
    split_ifs at func with own
    · exact (Option.some.inj func).symm
    · exact base.own t fn func
  · intro t fired
    have := (base.fired t fired).1
    rw [calm] at this
    cases this
  · intro active
    exact absurd (set.mode.trans calm) active

omit [DecidableEq V] [DecidableEq O] in
theorem refs_sleep {ref : O → Option T} {waiting : T → Option (Waits O)} (awake : waiting tp = none)
    (refs : ∀ trp t, ref trp = some t ↔ waiting t = some (.SUSPENDED trp))
    (state : ∀ trp, w ≠ .SUSPENDED trp) (trp : O) (t : T) :
    ref trp = some t ↔ Function.update waiting tp (some w) t = some (.SUSPENDED trp) := by
  rw [refs]
  by_cases same : t = tp
  · subst same
    rw [awake, Function.update_self]
    simp [state trp]
  · rw [Function.update_of_ne same]

/-- The current thread sleeps in a state without a queue or a reference. -/
theorem Base.sleep (base : Base idle s) (out : s.pc s.core.currp = none) (calm : s.vts.mode = .idle)
    (other : s.core.currp ≠ idle) {fuel : Nat} {time : UInt32} (later : time ≠ TIME_IMMEDIATE)
    (timeout : w ≠ .OTHER) (obj : w.obj = none) (state : ∀ trp, w ≠ .SUSPENDED trp)
    (result : s.chSchGoSleepTimeoutS fuel w time = some s') : Base idle s' := by
  obtain ⟨vts, set, rfl⟩ := chSchGoSleepTimeoutS_spec result calm (base.unarmed out) later
  have awake := base.core.inv.waiting_currp
  apply base.goSleep out calm other timeout set s.s_cnt
  · have off : place s.core.waiting s.core.currp = none := by
      rw [place, awake]
      rfl
    rw [obj, ← off, Function.update_eq_self]
    exact base.queued
  · exact refs_sleep awake base.refs state

/-- The current thread goes on a queue and sleeps. -/
theorem Base.enqueue (base : Base idle s) (out : s.pc s.core.currp = none)
    (calm : s.vts.mode = .idle)
    (other : s.core.currp ≠ idle) {fuel : Nat} {time : UInt32} (later : time ≠ TIME_IMMEDIATE)
      {q : Obj O}
    (obj : w.obj = some q) {insert : T → List T → List T}
    (mem : ∀ t, t ∈ insert s.core.currp (s.queue q) ↔ t = s.core.currp ∨ t ∈ s.queue q)
    (nodup : s.core.currp ∉ s.queue q → (s.queue q).Nodup → (insert s.core.currp (s.queue q)).Nodup)
      (cnt : O → Int)
    (result : { s with s_cnt := cnt }.enqueue fuel insert q w time = some s') : Base idle s' := by
  obtain ⟨vts, set, rfl⟩ := chSchGoSleepTimeoutS_spec result calm (base.unarmed out) later
  have awake := base.core.inv.waiting_currp
  have off : place s.core.waiting s.core.currp = none := by
    rw [place, awake]
    rfl
  apply base.goSleep out calm other ?_ set cnt
  · rw [obj]
    exact base.queued.arrive off mem (nodup (base.queued.not_mem off q) (base.queued.nodup q))
  · apply refs_sleep awake base.refs
    rintro trp rfl
    cases obj
  · rintro rfl
    cases obj

omit [DecidableEq T] in
theorem mem_behind {l : List T} : t ∈ behind tp l ↔ t = tp ∨ t ∈ l := by
  simp [behind, or_comm]

omit [DecidableEq T] in
theorem nodup_behind {l : List T} (fresh : tp ∉ l) (nodup : l.Nodup) : (behind tp l).Nodup :=
  List.nodup_append.mpr ⟨nodup, by simp, by
    intro a mem b hb eq
    rw [List.mem_singleton] at hb
    exact fresh (hb ▸ eq ▸ mem)⟩

omit [DecidableEq V] in
theorem refs_suspend {ref : O → Option T} {waiting : T → Option (Waits O)}
    (awake : waiting tp = none)
    (refs : ∀ trp t, ref trp = some t ↔ waiting t = some (.SUSPENDED trp)) {trp₀ : O}
    (null : ref trp₀ = none) (trp : O) (t : T) :
    Function.update ref trp₀ (some tp) trp = some t ↔
      Function.update waiting tp (some (.SUSPENDED trp₀)) t = some (.SUSPENDED trp) := by
  by_cases same : t = tp
  · subst same
    rw [Function.update_self]
    by_cases here : trp = trp₀
    · subst here
      simp
    · rw [Function.update_of_ne here, refs, awake]
      simp [Ne.symm here]
  · rw [Function.update_of_ne same, ← refs]
    by_cases here : trp = trp₀
    · subst here
      rw [Function.update_self, null]
      simp [Ne.symm same]
    · rw [Function.update_of_ne here]

theorem Base.suspend (base : Base idle s) (out : s.pc s.core.currp = none)
    (calm : s.vts.mode = .idle) (other : s.core.currp ≠ idle) {fuel : Nat} {time : UInt32} {trp : O}
    (null : s.ref trp = none) (result : s.chThdSuspendTimeoutS fuel trp time = some s') :
    Base idle s' := by
  unfold chThdSuspendTimeoutS at result
  split_ifs at result with immediate
  · cases result
    exact base
  · obtain ⟨vts, set, rfl⟩ := chSchGoSleepTimeoutS_spec result calm (base.unarmed out) immediate
    have awake := base.core.inv.waiting_currp
    apply base.goSleep out calm other (by simp) set s.s_cnt
    · have off : place s.core.waiting s.core.currp = none := by
        rw [place, awake]
        rfl
      change Queued none (Function.update _ _ none) _
      rw [← off, Function.update_eq_self]
      exact base.queued
    · exact refs_suspend awake base.refs null

theorem Sleep.base (base : Base idle s) (running : s.Running) (other : s.core.currp ≠ idle)
    (sleep : Sleep s s') :
    Base idle s' := by
  obtain ⟨out, calm⟩ := running
  cases sleep with
  | suspend fuel trp time null result => exact base.suspend out calm other null result
  | semWait fuel sp time result =>
      simp only [chSemWaitTimeoutS] at result
      split_ifs at result with short immediate
      · cases result
        exact base.setCnt _
      · exact base.enqueue out calm other immediate rfl (fun _ => mem_behind) nodup_behind _ result
      · cases result
        exact base.setCnt _
  | condWait fuel cp time later result =>
      exact base.enqueue out calm other later rfl (fun _ => mem_insertBehind)
        (fun fresh nodup => nodup_insertBehind nodup fresh) s.s_cnt result
  | enqueue fuel tqp time result =>
      simp only [chThdEnqueueTimeoutS] at result
      split_ifs at result with immediate
      · cases result
        exact base
      · exact base.enqueue out calm other immediate rfl
          (fun _ => mem_behind) nodup_behind s.s_cnt result
  | sleep fuel time later result =>
      exact base.sleep out calm other later (by simp) rfl (by simp) result
  | waitAny fuel events time result =>
      simp only [chEvtWaitAnyTimeout] at result
      split_ifs at result with nothing immediate
      · cases result
        exact base
      · exact base.sleep out calm other immediate (by simp) rfl (by simp) result
      · cases result
        exact base
  | waitAll fuel events time result =>
      simp only [chEvtWaitAllTimeout] at result
      split_ifs at result with some_missing immediate
      · cases result
        exact base
      · exact base.sleep out calm other immediate (by simp) rfl (by simp) result
      · cases result
        exact base

/-! ### Running again -/

/-- The timer is off the list when the thread returns. -/
theorem Base.resume_timers (base : Base idle s) {time : UInt32}
    (inside : s.pc s.core.currp = some time) (calm : s.vts.mode = .idle) :
    (∃ l, Timers.Inv (s.resume time).vts l) ∧ (s.resume time).vts.mode = .idle ∧
      (s.resume time).vts.vt.vt_par = s.vts.vt.vt_par ∧
      (s.resume time).vts.vt.vt_func =
        Function.update s.vts.vt.vt_func (.inl s.core.currp) none := by
  obtain ⟨l, inv⟩ := base.timers
  unfold Sleepers.resume
  dsimp only
  split
  · next armed =>
    have unlocked : s.vts.mode ≠ .looping := by simp [calm]
    exact ⟨Timers.inv_step inv (.reset _ unlocked armed.2), calm, rfl, rfl⟩
  · next off =>
    refine ⟨⟨l, inv⟩, calm, rfl, ?_⟩
    have unarmed : s.vts.vt.vt_func (.inl s.core.currp) = none := by
      by_contra armed
      obtain ⟨time', inside', finite⟩ := base.armed _ armed
      have same : time = time' := Option.some.inj (inside.symm.trans inside')
      exact off ⟨same ▸ finite, armed⟩
    rw [← unarmed, Function.update_eq_self]

omit [DecidableEq O] in
theorem resume_rest (s : Sleepers T V O) (time : UInt32) :
    (s.resume time).core = s.core ∧ (s.resume time).ref = s.ref ∧ (s.resume time).queue = s.queue ∧
      (s.resume time).fired = s.fired ∧
        (s.resume time).pc = Function.update s.pc s.core.currp none ∧
      (s.resume time).log = s.log ++ [.returned s.core.currp (s.core.rdymsg s.core.currp)] := by
  unfold resume
  dsimp only
  split <;> exact ⟨rfl, rfl, rfl, rfl, rfl, rfl⟩

/-- A thread that runs in a sleep has been released. -/
theorem Base.released (base : Base idle s) (inside : s.pc s.core.currp ≠ none) :
    ∃ w k timer msg direct, phase s.core.currp s.log = .released w k timer msg direct ∧
      s.core.rdymsg s.core.currp = msg ∧ (timer = true → msg = MSG_TIMEOUT) ∧
        (timer = true → direct = false) ∧
      s.core.readied s.core.currp = k + if direct then 0 else 1 := by
  have holds := base.holds s.core.currp
  rw [base.core.inv.waiting_currp] at holds
  cases eq : phase s.core.currp s.log with
  | outside =>
      rw [eq] at holds
      exact absurd holds.1 inside
  | asleep w k =>
      rw [eq] at holds
      exact absurd holds.2.1 (by simp)
  | released w k timer msg direct =>
      rw [eq] at holds
      exact ⟨w, k, timer, msg, direct, rfl, holds.2.2⟩
  | broken =>
      rw [eq] at holds
      exact holds.elim

theorem Base.resume (base : Base idle s) {time : UInt32} (inside : s.pc s.core.currp = some time)
    (calm : s.vts.mode = .idle) : Base idle (s.resume time) := by
  obtain ⟨timers, mode, par, func⟩ := base.resume_timers inside calm
  obtain ⟨core, ref, queue, fired, pc, log⟩ := resume_rest s time
  obtain ⟨w, k, timer, msg, direct, before, same_msg, -⟩ := base.released (by simp [inside])
  constructor
  · rw [core]
    exact base.core
  · rw [core, queue]
    exact base.queued
  · rw [core, ref]
    exact base.refs
  · intro t
    rw [core, pc, log, phase_concat]
    by_cases same : t = s.core.currp
    · subst same
      rw [before, Function.update_self, same_msg]
      simp only [Phase.next, if_true]
      exact ⟨rfl, .inl base.core.inv.waiting_currp⟩
    · rw [Function.update_of_ne same]
      simp only [Phase.next, if_neg (Ne.symm same)]
      exact base.holds t
  · exact timers
  · intro t armed
    rw [func] at armed
    by_cases same : t = s.core.currp
    · subst same
      simp at armed
    · rw [Function.update_of_ne (by simpa using same)] at armed
      obtain ⟨time', inside', finite⟩ := base.armed t armed
      refine ⟨time', ?_, finite⟩
      rw [pc, Function.update_of_ne same]
      exact inside'
  · intro vtp armed
    rw [func] at armed
    rw [par]
    by_cases same : vtp = .inl s.core.currp
    · subst same
      simp at armed
    · rw [Function.update_of_ne same] at armed
      exact base.func vtp armed
  · intro t fn armed
    rw [func] at armed
    by_cases same : t = s.core.currp
    · subst same
      simp at armed
    · rw [Function.update_of_ne (by simpa using same)] at armed
      exact base.own t fn armed
  · intro t late
    rw [fired] at late
    have := (base.fired t late).1
    rw [calm] at this
    cases this
  · intro active
    exact absurd mode active

/-! ### The tick handler -/

theorem tick_func (vt : Timers.VtList (T ⊕ V) Vtfunc T) : vt.tick.vt_func = vt.vt_func := by
  unfold Timers.VtList.tick
  dsimp only
  split <;> rfl

theorem tick_par (vt : Timers.VtList (T ⊕ V) Vtfunc T) : vt.tick.vt_par = vt.vt_par := by
  unfold Timers.VtList.tick
  dsimp only
  split <;> rfl

theorem Base.tick (base : Base idle s) (running : s.Running) : Base idle s.tick := by
  obtain ⟨out, calm⟩ := running
  have quiet := base.quiet out base.core.tick (.inl calm)
  obtain ⟨l, inv⟩ := base.timers
  have currp : s.core.tick.currp = s.core.currp := by
    unfold Core.tick
    split <;> rfl
  refine ⟨quiet.core, quiet.queued, quiet.refs, quiet.holds, Timers.inv_step inv (.tick calm), ?_,
    ?_, ?_, ?_, ?_⟩
  · intro t armed
    change s.vts.vt.tick.vt_func (.inl t) ≠ none at armed
    rw [tick_func] at armed
    exact base.armed t armed
  · intro vtp armed
    change s.vts.vt.tick.vt_func vtp = _ at armed
    change vtp = .inl (s.vts.vt.tick.vt_par vtp)
    rw [tick_func] at armed
    rw [tick_par]
    exact base.func vtp armed
  · intro t fn armed
    change s.vts.vt.tick.vt_func (.inl t) = _ at armed
    rw [tick_func] at armed
    exact base.own t fn armed
  · intro t late
    have := (base.fired t late).1
    rw [calm] at this
    cases this
  · intro _
    change s.pc s.core.tick.currp = none
    rw [currp]
    exact out

/-- A timer that expires belongs to a thread in a sleep, or is not one of a thread. -/
theorem Base.fire (base : Base idle s) {vtp : T ⊕ V} {fn : Vtfunc} (looping : s.vts.mode = .looping)
    (first : s.vts.vt.links.next none = some vtp) (due : s.vts.vt.vt_delta (some vtp) = 0)
    (func : s.vts.vt.vt_func vtp = some fn) : Base idle (s.fire vtp fn) := by
  obtain ⟨l, inv⟩ := base.timers
  have less : ∀ v, (s.vts.vt.expire vtp).vt_func v = if v = vtp then none else s.vts.vt.vt_func v := by
    intro v
    exact Function.update_apply _ _ _ _
  refine ⟨base.core, base.queued, base.refs, base.holds,
    Timers.inv_step inv (.fire vtp fn looping first due func),
    ?_, ?_, ?_, ?_, ?_⟩
  · intro t armed
    change (s.vts.vt.expire vtp).vt_func (.inl t) ≠ none at armed
    rw [less] at armed
    split_ifs at armed
    · exact absurd rfl armed
    · exact base.armed t armed
  · intro v armed
    change (s.vts.vt.expire vtp).vt_func v = _ at armed
    rw [less] at armed
    split_ifs at armed
    exact base.func v armed
  · intro t fn' armed
    change (s.vts.vt.expire vtp).vt_func (.inl t) = _ at armed
    rw [less] at armed
    split_ifs at armed
    exact base.own t fn' armed
  · intro t late
    change (if fn = .wakeup then some (s.vts.vt.vt_par vtp) else none) = some t at late
    split_ifs at late with mine
    subst mine
    have is := base.func vtp func
    rw [Option.some.inj late] at is
    subst is
    refine ⟨rfl, base.armed t (by simp [func]), ?_⟩
    change (s.vts.vt.expire (.inl t)).vt_func (.inl t) = none
    rw [less, if_pos rfl]
  · intro _
    exact base.busy (by simp [looping])

theorem Base.setMode (base : Base idle s) {mode : Timers.Mode}
    (timers : ∃ l, Timers.Inv { s.vts with mode := mode } l)
    (called : s.fired = none) (active : s.vts.mode ≠ .idle) : Base idle (s.setMode mode) := by
  refine ⟨base.core, base.queued, base.refs, base.holds, timers, base.armed, base.func, base.own,
    ?_, ?_⟩
  · intro t late
    change s.fired = some t at late
    rw [called] at late
    cases late
  · intro _
    exact base.busy active

/-- The callback finds the thread asleep, or ready because a handler was faster. -/
theorem Base.fired_cases (base : Base idle s) (fired : s.fired = some tp) :
    (∃ w, s.core.p_state tp = .WAIT w ∧ w ≠ .OTHER) ∨ s.core.p_state tp = .READY := by
  obtain ⟨mode, ⟨time, inside, -⟩, -⟩ := base.fired tp fired
  have out := base.busy (by simp [mode])
  have holds := base.holds tp
  cases eq : phase tp s.log with
  | outside =>
      rw [eq] at holds
      exact absurd (inside.symm.trans holds.1) (by simp)
  | asleep w k =>
      rw [eq] at holds
      exact .inl ⟨w, Core.waiting_eq_some.mp holds.2.1, holds.2.2.1⟩
  | released w k timer m direct =>
      rw [eq] at holds
      rcases Core.waiting_eq_none.mp holds.2.1 with ready | current
      · exact .inr ready
      · -- The current thread is in no call while a handler is active.
        have same := (base.core.inv.current tp).mp current
        rw [← same] at out
        exact absurd (inside.symm.trans out) (by simp)
  | broken =>
      rw [eq] at holds
      exact holds.elim

omit [DecidableEq V] in
/-- `wakeup` takes the thread off the object it waits for. -/
theorem leave_eq (s : Sleepers T V O) (tp : T) (w : Waits O) :
    ∃ cnt, s.leave tp (.WAIT w) = { s with
      ref := freeRef s.ref w, s_cnt := cnt, queue := freeQueue s.queue tp w, p_epending :=
        s.p_epending } := by
  cases w with
  | WTSEM sp => exact ⟨_, rfl⟩
  | SUSPENDED trp => exact ⟨s.s_cnt, rfl⟩
  | WTCOND cp => exact ⟨s.s_cnt, rfl⟩
  | QUEUED tqp => exact ⟨s.s_cnt, rfl⟩
  | SLEEPING => exact ⟨s.s_cnt, rfl⟩
  | WTOREVT m => exact ⟨s.s_cnt, rfl⟩
  | WTANDEVT m => exact ⟨s.s_cnt, rfl⟩
  | OTHER => exact ⟨s.s_cnt, rfl⟩

theorem Base.wakeup (base : Base idle s) (fired : s.fired = some tp) : Base idle (s.wakeup tp) := by
  unfold Sleepers.wakeup
  rcases base.fired_cases fired with ⟨w, state, timeout⟩ | ready
  · have waits := Core.waiting_eq_some.mpr state
    have asleep : s.core.waiting tp ≠ none := by simp [waits]
    have out := base.busy (by simp [(base.fired tp fired).1])
    rw [state, if_neg (by simp)]
    obtain ⟨cnt, eq⟩ := leave_eq s tp w
    rw [eq]
    apply base.release out waits timeout (good_msgReady idle s.core tp MSG_TIMEOUT base.core asleep)
    · exact fun _ => ⟨rfl, base.core.asleep_ne asleep⟩
    · exact .inr rfl
  · rw [if_pos ready]
    exact base

theorem Base.callback (base : Base idle s) (fired : s.fired = some tp) :
    Base idle (s.callback tp) := by
  have woken := base.wakeup fired
  refine ⟨woken.core, woken.queued, woken.refs, woken.holds, woken.timers, woken.armed, woken.func,
    woken.own, ?_,
    woken.busy⟩
  intro t late
  cases late

/-- A thread that sleeps when the callback of its timer runs is released with `MSG_TIMEOUT`. -/
theorem Base.callback_asleep (base : Base idle s)
    (waits : s.core.waiting tp = some w) :
    (s.callback tp).core.waiting tp = none ∧ (s.callback tp).core.rdymsg tp = MSG_TIMEOUT ∧
      (s.callback tp).log = s.log ++ [.released tp true MSG_TIMEOUT false] := by
  have state := Core.waiting_eq_some.mp waits
  have asleep : s.core.waiting tp ≠ none := by simp [waits]
  obtain ⟨cnt, left⟩ := leave_eq s tp w
  have wakes := good_msgReady idle s.core tp MSG_TIMEOUT base.core asleep
  have late : (msgReady s.core tp MSG_TIMEOUT).currp ≠ tp := base.core.asleep_ne asleep
  simp only [Sleepers.callback, Sleepers.wakeup, state, reduceCtorEq, if_false, left]
  refine ⟨?_, ?_, ?_⟩
  · change (msgReady s.core tp MSG_TIMEOUT).waiting tp = none
    rw [wakes.waiting, Function.update_self]
  · change (msgReady s.core tp MSG_TIMEOUT).rdymsg tp = MSG_TIMEOUT
    rw [wakes.rdymsg, Function.update_self]
  · change s.log ++ [.released tp true MSG_TIMEOUT
      (decide ((msgReady s.core tp MSG_TIMEOUT).currp = tp))] = _
    rw [decide_eq_false late]

/-- A thread that a handler was faster to wake is left alone. -/
theorem Base.callback_ready (base : Base idle s) (fired : s.fired = some tp)
    (awake : s.core.waiting tp = none) : s.callback tp = { s with fired := none } := by
  rcases base.fired_cases fired with ⟨w, state, -⟩ | ready
  · rw [Core.waiting_eq_some.mpr state] at awake
    cases awake
  · simp only [Sleepers.callback, Sleepers.wakeup, ready, if_true]

theorem Base.callback_awake (base : Base idle s) (fired : s.fired = some tp) :
    (s.callback tp).core.waiting tp = none := by
  cases waits : s.core.waiting tp with
  | none =>
      rw [base.callback_ready fired waits]
      exact waits
  | some w => exact (base.callback_asleep waits).1

/-! ### Steps and runs -/

/-- A timer that is not one of a thread is set or reset. -/
theorem Base.setVts (base : Base idle s) {vts : Timers.Sys (T ⊕ V) Vtfunc T}
    (mode : vts.mode = s.vts.mode)
    (timers : ∃ l, Timers.Inv vts l)
      (func : ∀ t, vts.vt.vt_func (.inl t) = s.vts.vt.vt_func (.inl t))
    (par : ∀ t, vts.vt.vt_par (.inl t) = s.vts.vt.vt_par (.inl t))
    (other : ∀ v, vts.vt.vt_func (.inr v) = some .wakeup →
      s.vts.vt.vt_func (.inr v) = some .wakeup) :
    Base idle { s with vts := vts } := by
  refine ⟨base.core, base.queued, base.refs, base.holds, timers, ?_, ?_, ?_, ?_, ?_⟩
  · intro t armed
    rw [func] at armed
    exact base.armed t armed
  · intro vtp armed
    cases vtp with
    | inl t =>
        rw [func] at armed
        rw [par]
        exact base.func _ armed
    | inr v => cases base.func _ (other v armed)
  · intro t fn armed
    rw [func] at armed
    exact base.own t fn armed
  · intro t late
    rw [mode, func]
    exact base.fired t late
  · intro active
    rw [mode] at active
    exact base.busy active

theorem Base.sleepOther (base : Base idle s) (out : s.pc s.core.currp = none)
    (calm : s.vts.mode = .idle) (other : s.core.currp ≠ idle) :
    Base idle { s with core := s.core.chSchGoSleepS .OTHER } := by
  have sleeps := base.core.goSleep other .OTHER
  have awake := base.core.inv.waiting_currp
  refine ⟨sleeps.sound, ?_, ?_, ?_, base.timers, base.armed, base.func, base.own, base.fired, ?_⟩
  · have off : place s.core.waiting s.core.currp = none := by
      rw [place, awake]
      rfl
    rw [sleeps.waiting, place_update]
    change Queued none (Function.update _ _ none) _
    rw [← off, Function.update_eq_self]
    exact base.queued
  · rw [sleeps.waiting]
    exact refs_sleep awake base.refs (by simp)
  · intro t
    rw [sleeps.waiting, sleeps.rdymsg, sleeps.readied]
    by_cases same : t = s.core.currp
    · subst same
      rw [base.outside out, Function.update_self]
      exact ⟨out, .inr rfl⟩
    · rw [Function.update_of_ne same]
      exact base.holds t
  · intro active
    exact absurd calm active

theorem Start.base (start : Start idle s) : Base idle s := by
  obtain ⟨vt, vts⟩ := start.vts
  have unarmed : ∀ vtp, s.vts.vt.vt_func vtp = none := by
    intro vtp
    rw [vts]
    rfl
  have off : ∀ t, place s.core.waiting t = none := by
    intro t
    rcases start.asleep t with awake | other
    · simp [place, awake]
    · simp [place, other, Waits.obj]
  constructor
  · exact start.core
  · constructor
    · intro q t
      rw [start.queue, off]
      simp
    · intro q
      rw [start.queue]
      exact List.nodup_nil
  · intro trp t
    rw [start.ref]
    rcases start.asleep t with awake | other
    · simp [awake]
    · simp [other]
  · intro t
    rw [start.log]
    exact ⟨start.pc t, start.asleep t⟩
  · rw [vts]
    exact ⟨[], Timers.inv_init vt⟩
  · intro t armed
    exact absurd (unarmed _) armed
  · intro vtp armed
    rw [unarmed] at armed
    cases armed
  · intro t fn armed
    rw [unarmed] at armed
    cases armed
  · intro t late
    rw [start.fired] at late
    cases late
  · intro active
    rw [vts] at active
    exact absurd rfl active

theorem Step.base (step : Step idle s s') (base : Base idle s) : Base idle s' := by
  cases step with
  | sleep running other sleep => exact sleep.base base running other
  | sleepOther running other => exact base.sleepOther running.1 running.2 other
  | resume time inside calm => exact base.resume inside calm
  | wakeI unlocked wake => exact wake.base base unlocked.1
  | wakeS running wake => exact wake.base base running.1 running.2
  | events running mask => exact base.setEvents _
  | switch running switch => exact base.quiet running.1 (base.core.switch switch) (.inl running.2)
  | set fuel v delay par unlocked unarmed later result =>
      obtain ⟨vts, rfl, mode, timers, func, par⟩ := setTimer_spec unlocked.2 unarmed later result
      apply base.setVts mode (timers base.timers)
      · intro t
        rw [func, Function.update_of_ne (by simp)]
      · intro t
        rw [par, Function.update_of_ne (by simp)]
      · intro v' armed
        rw [func, Function.update_apply] at armed
        split_ifs at armed
        · cases armed
        · exact armed
  | reset v unlocked armed =>
      obtain ⟨l, inv⟩ := base.timers
      have func : ∀ vtp, (s.vts.vt.chVTDoResetI (.inr v)).vt_func vtp =
          if vtp = .inr v then none else s.vts.vt.vt_func vtp := fun vtp => Function.update_apply _ _ _ _
      have timers := Timers.inv_step inv (.reset (.inr v) unlocked.2 armed)
      refine base.setVts ?_ timers ?_ ?_ ?_
      · rfl
      · intro t
        change (s.vts.vt.chVTDoResetI (.inr v)).vt_func _ = _
        rw [func, if_neg (by simp)]
      · exact fun _ => rfl
      · intro v' armed'
        change (s.vts.vt.chVTDoResetI (.inr v)).vt_func _ = _ at armed'
        rw [func] at armed'
        split_ifs at armed'
        exact armed'
  | tick running => exact base.tick running
  | fire vtp fn looping first due func => exact base.fire looping first due func
  | callback tp fired => exact base.callback fired
  | «return» callback called =>
      obtain ⟨l, inv⟩ := base.timers
      exact base.setMode (Timers.inv_step inv (.return callback)) called (by simp [callback])
  | done looping later =>
      obtain ⟨l, inv⟩ := base.timers
      have called : s.fired = none := by
        cases eq : s.fired with
        | none => rfl
        | some t =>
            have := (base.fired t eq).1
            rw [looping] at this
            cases this
      exact base.setMode (Timers.inv_step inv (.done looping later)) called (by simp [looping])

theorem Reachable.base (reachable : Reachable idle s) : Base idle s := by
  obtain ⟨s₀, start, run⟩ := reachable
  induction run with
  | refl => exact start.base
  | tail _ step ih => exact step.base ih

/-! ### Thread references -/

/-- No reference changes hands: it keeps its thread, or is `NULL` before or after. -/
def Handed (ref ref' : O → Option T) : Prop :=
  ∀ trp, ref' trp = ref trp ∨ ref' trp = none ∨ ref trp = none

omit [DecidableEq T] [DecidableEq O] in
theorem handed_refl (ref : O → Option T) : Handed ref ref := fun _ => .inl rfl

omit [DecidableEq T] in
theorem handed_null (ref : O → Option T) (trp : O) : Handed ref (Function.update ref trp none) := by
  intro trp'
  by_cases here : trp' = trp
  · subst here
    simp
  · simp [here]

omit [DecidableEq V] in
theorem wakeFirst_ref (s : Sleepers T V O) (wake : Wake T O) (q : Obj O) (msg : Int) :
    (s.wakeFirst wake q msg).ref = s.ref := by
  unfold wakeFirst
  split <;> rfl

omit [DecidableEq V] in
theorem wakeAll_ref (wake : Wake T O) (q : Obj O) (msg : Int) (rounds : Nat) (s : Sleepers T V O) :
    (wakeAll wake q msg rounds s).ref = s.ref := by
  induction rounds generalizing s with
  | zero => rfl
  | succ rounds ih => exact (ih _).trans (wakeFirst_ref s wake q msg)

omit [DecidableEq V] in
theorem signalWith_ref (wake : Wake T O) (s : Sleepers T V O) (sp : O) :
    (signalWith wake s sp).ref = s.ref := by
  unfold signalWith
  dsimp only
  split
  · exact wakeFirst_ref _ wake _ _
  · rfl

omit [DecidableEq V] in
theorem chSemAddCounterI_ref (s : Sleepers T V O) (sp : O) (n : Nat) :
    (s.chSemAddCounterI sp n).ref = s.ref := by
  induction n with
  | zero => rfl
  | succ n ih => exact (signalWith_ref _ _ sp).trans ih

omit [DecidableEq V] in
theorem resetLoop_ref (sp : O) (rounds : Nat) (s : Sleepers T V O) :
    (resetLoop sp rounds s).ref = s.ref := by
  induction rounds generalizing s with
  | zero => rfl
  | succ rounds ih =>
      unfold resetLoop
      split
      · rfl
      · exact ih _

omit [DecidableEq V] in
theorem resumeWith_handed (wake : Wake T O) (s : Sleepers T V O) (trp : O) (msg : Int) :
    Handed s.ref (resumeWith wake s trp msg).ref := by
  unfold resumeWith
  split
  · exact handed_refl _
  · exact handed_null _ _

omit [DecidableEq V] [DecidableEq O] in
theorem chEvtSignalI_ref (s : Sleepers T V O) (tp : T) (events : BitVec 32) :
    (s.chEvtSignalI tp events).ref = s.ref := by
  unfold chEvtSignalI
  dsimp only
  split
  · split <;> rfl
  · split <;> rfl
  · rfl

omit [DecidableEq V] in
theorem wakeup_handed (s : Sleepers T V O) (tp : T) : Handed s.ref (s.wakeup tp).ref := by
  unfold wakeup
  split
  · exact handed_refl _
  · change Handed s.ref (s.leave tp (s.core.p_state tp)).ref
    unfold leave
    split
    · exact handed_null _ _
    · exact handed_refl _
    · exact handed_refl _
    · exact handed_refl _
    · exact handed_refl _

omit [DecidableEq O] in
theorem chSchGoSleepTimeoutS_ref {fuel : Nat} {time : UInt32}
    (result : s.chSchGoSleepTimeoutS fuel w time = some s') : s'.ref = s.ref := by
  unfold chSchGoSleepTimeoutS at result
  split_ifs at result
  · obtain ⟨s₁, set, rfl⟩ := Option.map_eq_some_iff.mp result
    obtain ⟨vt, -, rfl⟩ := Option.map_eq_some_iff.mp set
    rfl
  · cases result
    rfl

/-- A call that may sleep returns at once, or puts the current thread to sleep. -/
theorem Sleep.cases (sleep : Sleep s s') :
    (∃ cnt, s' = { s with s_cnt := cnt }) ∨
      ∃ (s₀ : Sleepers T V O) (fuel : Nat) (w : Waits O) (time : UInt32),
        s₀.chSchGoSleepTimeoutS fuel w time = some s' ∧ s₀.core = s.core ∧ s₀.vts = s.vts ∧
          s₀.fired = s.fired ∧ s₀.pc = s.pc ∧ time ≠ TIME_IMMEDIATE ∧ Handed s.ref s₀.ref := by
  have returned : ∃ cnt, s = { s with s_cnt := cnt } := ⟨s.s_cnt, rfl⟩
  cases sleep with
  | suspend fuel trp time null result =>
      unfold chThdSuspendTimeoutS at result
      split_ifs at result with immediate
      · cases result
        exact .inl returned
      · refine .inr ⟨_, fuel, _, time, result, rfl, rfl, rfl, rfl, immediate, ?_⟩
        intro trp'
        by_cases here : trp' = trp
        · subst here
          exact .inr (.inr null)
        · exact .inl (Function.update_of_ne here _ _)
  | semWait fuel sp time result =>
      simp only [chSemWaitTimeoutS] at result
      split_ifs at result with short immediate
      · cases result
        exact .inl ⟨_, rfl⟩
      · exact .inr ⟨_, fuel, _, time, result, rfl, rfl, rfl, rfl, immediate, handed_refl _⟩
      · cases result
        exact .inl ⟨_, rfl⟩
  | condWait fuel cp time later result =>
      exact .inr ⟨_, fuel, _, time, result, rfl, rfl, rfl, rfl, later, handed_refl _⟩
  | enqueue fuel tqp time result =>
      unfold chThdEnqueueTimeoutS at result
      split_ifs at result with immediate
      · cases result
        exact .inl returned
      · exact .inr ⟨_, fuel, _, time, result, rfl, rfl, rfl, rfl, immediate, handed_refl _⟩
  | sleep fuel time later result =>
      exact .inr ⟨_, fuel, _, time, result, rfl, rfl, rfl, rfl, later, handed_refl _⟩
  | waitAny fuel events time result =>
      unfold chEvtWaitAnyTimeout at result
      split_ifs at result with missing immediate
      · cases result
        exact .inl returned
      · exact .inr ⟨_, fuel, _, time, result, rfl, rfl, rfl, rfl, immediate, handed_refl _⟩
      · cases result
        exact .inl returned
  | waitAll fuel events time result =>
      unfold chEvtWaitAllTimeout at result
      split_ifs at result with missing immediate
      · cases result
        exact .inl returned
      · exact .inr ⟨_, fuel, _, time, result, rfl, rfl, rfl, rfl, immediate, handed_refl _⟩
      · cases result
        exact .inl returned

theorem Sleep.handed (sleep : Sleep s s') : Handed s.ref s'.ref := by
  rcases sleep.cases with ⟨cnt, rfl⟩ | ⟨s₀, fuel, w, time, result, -, -, -, -, -, handed⟩
  · exact handed_refl _
  · rw [chSchGoSleepTimeoutS_ref result]
    exact handed

theorem Step.handed (step : Step idle s s') : Handed s.ref s'.ref := by
  cases step with
  | sleep running other sleep => exact sleep.handed
  | resume time inside calm =>
      rw [(resume_rest s time).2.1]
      exact handed_refl _
  | wakeI unlocked wake =>
      cases wake with
      | resumeI trp msg => exact resumeWith_handed _ s trp msg
      | semSignalI sp => exact fun trp => .inl (congrFun (signalWith_ref _ s sp) trp)
      | semAddCounterI sp n => exact fun trp => .inl (congrFun (chSemAddCounterI_ref s sp n) trp)
      | semResetI sp n => exact fun trp => .inl (congrFun (resetLoop_ref sp _ _) trp)
      | condSignalI cp => exact fun trp => .inl (congrFun (wakeFirst_ref s _ _ _) trp)
      | condBroadcastI cp => exact fun trp => .inl (congrFun (wakeAll_ref _ _ _ _ s) trp)
      | dequeueNextI tqp msg => exact fun trp => .inl (congrFun (wakeFirst_ref s _ _ _) trp)
      | dequeueAllI tqp msg => exact fun trp => .inl (congrFun (wakeAll_ref _ _ _ _ s) trp)
      | evtSignalI tp events => exact fun trp => .inl (congrFun (chEvtSignalI_ref s tp events) trp)
      | other tp msg waits => exact handed_refl _
  | wakeS running wake =>
      cases wake with
      | resumeS trp msg => exact resumeWith_handed _ s trp msg
      | semSignal sp => exact fun trp => .inl (congrFun (signalWith_ref _ s sp) trp)
      | condSignal cp => exact fun trp => .inl (congrFun (wakeFirst_ref s _ _ _) trp)
      | other tp msg waits => exact handed_refl _
  | set fuel v delay par unlocked unarmed later result =>
      obtain ⟨vts, rfl, -⟩ := setTimer_spec unlocked.2 unarmed later result
      exact handed_refl _
  | callback tp fired => exact wakeup_handed s tp
  | _ => exact handed_refl _

/-! ### The timers of sleeping threads -/

/-- The timer of a thread that sleeps with a finite time is armed, or its callback is to come. -/
def Ticking (s : Sleepers T V O) : Prop :=
  ∀ t w time, s.core.waiting t = some w → w ≠ .OTHER → s.pc t = some time → time ≠ TIME_INFINITE →
    s.vts.vt.vt_func (.inl t) = some .wakeup ∨ s.fired = some t

/-- What a waker does to the timers and to the sleeps: some threads wake, and that is all. -/
structure OnlyWakes (s s' : Sleepers T V O) : Prop where
  vts : s'.vts = s.vts
  fired : s'.fired = s.fired
  pc : s'.pc = s.pc
  waiting : ∀ t, s'.core.waiting t = s.core.waiting t ∨ s'.core.waiting t = none

omit [DecidableEq T] [DecidableEq V] [DecidableEq O] in
theorem OnlyWakes.of_core (same : s'.core = s.core) (vts : s'.vts = s.vts)
    (fired : s'.fired = s.fired) (pc : s'.pc = s.pc) : OnlyWakes s s' :=
  ⟨vts, fired, pc, fun t => .inl (by rw [same])⟩

omit [DecidableEq T] [DecidableEq V] [DecidableEq O] in
theorem OnlyWakes.refl (s : Sleepers T V O) : OnlyWakes s s := .of_core rfl rfl rfl rfl

omit [DecidableEq T] [DecidableEq V] [DecidableEq O] in
theorem OnlyWakes.trans {s₁ s₂ s₃ : Sleepers T V O} (first : OnlyWakes s₁ s₂)
    (second : OnlyWakes s₂ s₃) : OnlyWakes s₁ s₃ := by
  refine ⟨second.vts.trans first.vts, second.fired.trans first.fired, second.pc.trans first.pc, ?_⟩
  intro t
  rcases second.waiting t with same | awake
  · rw [same]
    exact first.waiting t
  · exact .inr awake

/-- A way to wake a thread that puts no other thread to sleep. -/
def Gentle (wake : Wake T O) : Prop :=
  ∀ (c : Core T (Waits O)) (tp : T) (msg : Int) (t : T),
    (wake c tp msg).waiting t = c.waiting t ∨ (wake c tp msg).waiting t = none

omit [DecidableEq V] [DecidableEq O] in
theorem gentle_update (waiting : T → Option (Waits O)) (tp t : T) :
    Function.update waiting tp none t = waiting t ∨ Function.update waiting tp none t = none := by
  by_cases same : t = tp
  · subst same
    exact .inr (Function.update_self _ _ _)
  · exact .inl (Function.update_of_ne same _ _)

omit [DecidableEq V] [DecidableEq O] in
theorem gentle_msgReady : Gentle (msgReady : Wake T O) := by
  intro c tp msg t
  rw [msgReady, Core.waiting_chSchReadyI, Core.waiting_setMsg]
  exact gentle_update _ _ _

omit [DecidableEq V] [DecidableEq O] in
theorem gentle_readyMsg : Gentle (readyMsg : Wake T O) := by
  intro c tp msg t
  rw [readyMsg, Core.waiting_setMsg, Core.waiting_chSchReadyI]
  exact gentle_update _ _ _

omit [DecidableEq V] [DecidableEq O] in
theorem gentle_wakeupS : Gentle (wakeupS : Wake T O) := by
  intro c tp msg t
  unfold wakeupS Core.chSchWakeupS
  dsimp only
  split
  · exact gentle_msgReady c tp msg t
  · -- The current thread goes behind the ready list, and the woken one runs.
    change (((c.setMsg tp msg).chSchReadyI c.currp).setState tp .CURRENT).waiting t = _ ∨
      (((c.setMsg tp msg).chSchReadyI c.currp).setState tp .CURRENT).waiting t = none
    rw [Core.waiting_setState, Core.waiting_chSchReadyI, Core.waiting_setMsg]
    rcases gentle_update (Function.update c.waiting c.currp none) tp t with same | awake
    · rw [same]
      exact gentle_update _ _ _
    · exact .inr awake

omit [DecidableEq V] [DecidableEq O] in
theorem onlyWakes_release {wake : Wake T O} (gentle : Gentle wake) (tp : T) (timer : Bool)
    (msg : Int) : OnlyWakes s (s.release wake tp timer msg) :=
  ⟨rfl, rfl, rfl, gentle s.core tp msg⟩

omit [DecidableEq V] in
theorem onlyWakes_wakeFirst {wake : Wake T O} (gentle : Gentle wake) (s : Sleepers T V O)
    (q : Obj O) (msg : Int) : OnlyWakes s (s.wakeFirst wake q msg) := by
  unfold wakeFirst
  split
  · exact .refl s
  · exact ⟨rfl, rfl, rfl, gentle s.core _ msg⟩

omit [DecidableEq V] in
theorem onlyWakes_wakeAll {wake : Wake T O} (gentle : Gentle wake) (q : Obj O) (msg : Int)
    (rounds : Nat) (s : Sleepers T V O) : OnlyWakes s (wakeAll wake q msg rounds s) := by
  induction rounds generalizing s with
  | zero => exact .refl s
  | succ rounds ih => exact (onlyWakes_wakeFirst gentle s q msg).trans (ih _)

omit [DecidableEq V] in
theorem onlyWakes_signalWith {wake : Wake T O} (gentle : Gentle wake) (s : Sleepers T V O) (sp : O) :
    OnlyWakes s (signalWith wake s sp) := by
  unfold signalWith
  dsimp only
  split
  · refine OnlyWakes.trans ?_ (onlyWakes_wakeFirst gentle _ _ _)
    exact .of_core rfl rfl rfl rfl
  · exact .of_core rfl rfl rfl rfl

omit [DecidableEq V] in
theorem onlyWakes_chSemAddCounterI (s : Sleepers T V O) (sp : O) (n : Nat) :
    OnlyWakes s (s.chSemAddCounterI sp n) := by
  induction n with
  | zero => exact .refl s
  | succ n ih => exact ih.trans (onlyWakes_signalWith gentle_readyMsg _ sp)

omit [DecidableEq V] in
theorem onlyWakes_resetLoop (sp : O) (rounds : Nat) (s : Sleepers T V O) :
    OnlyWakes s (resetLoop sp rounds s) := by
  induction rounds generalizing s with
  | zero => exact .refl s
  | succ rounds ih =>
      unfold resetLoop
      split
      · exact .refl s
      · next tp last =>
        have released : OnlyWakes s ({ s with
            queue := Function.update s.queue (.sem sp) (s.queue (.sem sp)).dropLast }.release
              readyMsg tp false MSG_RESET) :=
          ⟨rfl, rfl, rfl, gentle_readyMsg s.core tp MSG_RESET⟩
        exact released.trans (ih _)

omit [DecidableEq V] in
theorem onlyWakes_resumeWith {wake : Wake T O} (gentle : Gentle wake) (s : Sleepers T V O) (trp : O)
    (msg : Int) : OnlyWakes s (resumeWith wake s trp msg) := by
  unfold resumeWith
  split
  · exact .refl s
  · exact ⟨rfl, rfl, rfl, gentle s.core _ msg⟩

omit [DecidableEq V] [DecidableEq O] in
theorem onlyWakes_chEvtSignalI (s : Sleepers T V O) (tp : T) (events : BitVec 32) :
    OnlyWakes s (s.chEvtSignalI tp events) := by
  have signalled : OnlyWakes s ({ s with
      p_epending := Function.update s.p_epending tp (s.p_epending tp ||| events) }.release msgReady
        tp false MSG_OK) :=
    ⟨rfl, rfl, rfl, gentle_msgReady s.core tp MSG_OK⟩
  unfold chEvtSignalI
  dsimp only
  split
  · split
    · exact signalled
    · exact .of_core rfl rfl rfl rfl
  · split
    · exact signalled
    · exact .of_core rfl rfl rfl rfl
  · exact .of_core rfl rfl rfl rfl

omit [DecidableEq V] in
theorem WakeI.onlyWakes (wake : WakeI s s') : OnlyWakes s s' := by
  cases wake with
  | resumeI trp msg => exact onlyWakes_resumeWith gentle_msgReady s trp msg
  | semSignalI sp => exact onlyWakes_signalWith gentle_msgReady s sp
  | semAddCounterI sp n => exact onlyWakes_chSemAddCounterI s sp n
  | semResetI sp n =>
      refine OnlyWakes.trans ?_ (onlyWakes_resetLoop sp _ _)
      exact .of_core rfl rfl rfl rfl
  | condSignalI cp => exact onlyWakes_wakeFirst gentle_msgReady s _ _
  | condBroadcastI cp => exact onlyWakes_wakeAll gentle_readyMsg _ _ _ s
  | dequeueNextI tqp msg => exact onlyWakes_wakeFirst gentle_msgReady s _ _
  | dequeueAllI tqp msg => exact onlyWakes_wakeAll gentle_msgReady _ _ _ s
  | evtSignalI tp events => exact onlyWakes_chEvtSignalI s tp events
  | other tp msg waits => exact ⟨rfl, rfl, rfl, gentle_msgReady s.core tp msg⟩

omit [DecidableEq V] in
theorem WakeS.onlyWakes (wake : WakeS s s') : OnlyWakes s s' := by
  cases wake with
  | resumeS trp msg => exact onlyWakes_resumeWith gentle_wakeupS s trp msg
  | semSignal sp => exact onlyWakes_signalWith gentle_wakeupS s sp
  | condSignal cp => exact onlyWakes_wakeFirst gentle_wakeupS s _ _
  | other tp msg waits => exact ⟨rfl, rfl, rfl, gentle_wakeupS s.core tp msg⟩

omit [DecidableEq V] in
theorem onlyWakes_wakeup (s : Sleepers T V O) (tp : T) : OnlyWakes s (s.wakeup tp) := by
  unfold wakeup
  split
  · exact .refl s
  · have left : OnlyWakes s (s.leave tp (s.core.p_state tp)) := by
      unfold leave
      split <;> exact .of_core rfl rfl rfl rfl
    exact left.trans (onlyWakes_release gentle_msgReady tp true MSG_TIMEOUT)

omit [DecidableEq T] [DecidableEq V] [DecidableEq O] in
theorem Ticking.onlyWakes (ticking : Ticking s) (wakes : OnlyWakes s s') : Ticking s' := by
  intro t w time waits timeout inside finite
  rw [wakes.vts, wakes.fired]
  rw [wakes.pc] at inside
  rcases wakes.waiting t with same | awake
  · exact ticking t w time (same ▸ waits) timeout inside finite
  · rw [awake] at waits
    cases waits

omit [DecidableEq T] [DecidableEq V] [DecidableEq O] in
/-- The timers of the threads, the pending callback and the sleeps are as they were. -/
theorem Ticking.of_eq (ticking : Ticking s) (waiting : s'.core.waiting = s.core.waiting)
    (pc : s'.pc = s.pc) (fired : s'.fired = s.fired)
    (func : ∀ t, s'.vts.vt.vt_func (.inl t) = s.vts.vt.vt_func (.inl t)) : Ticking s' := by
  intro t w time waits timeout inside finite
  rw [func, fired]
  rw [waiting] at waits
  rw [pc] at inside
  exact ticking t w time waits timeout inside finite

/-- The current thread sets its timer and goes to sleep. -/
theorem Ticking.goSleep (ticking : Ticking s) (base : Base idle s) (other : s.core.currp ≠ idle)
    (calm : s.vts.mode = .idle) (out : s.pc s.core.currp = none) {s₀ : Sleepers T V O} {fuel : Nat}
    {time : UInt32} (later : time ≠ TIME_IMMEDIATE) (core : s₀.core = s.core) (vts : s₀.vts = s.vts)
    (fired : s₀.fired = s.fired) (pc : s₀.pc = s.pc)
    (result : s₀.chSchGoSleepTimeoutS fuel w time = some s') : Ticking s' := by
  have unarmed : s₀.vts.vt.vt_func (.inl s₀.core.currp) = none := by
    rw [vts, core]
    exact base.unarmed out
  obtain ⟨vts', set, rfl⟩ := chSchGoSleepTimeoutS_spec result (vts ▸ calm) unarmed later
  have sleeps := base.core.goSleep other w
  intro t w' time' waits timeout inside finite
  change (s₀.core.chSchGoSleepS w).waiting t = some w' at waits
  change Function.update s₀.pc s₀.core.currp (some time) t = some time' at inside
  change vts'.vt.vt_func (.inl t) = _ ∨ s₀.fired = _
  rw [core, sleeps.waiting] at waits
  rw [set.func, fired]
  by_cases same : t = s₀.core.currp
  · subst same
    rw [Function.update_self] at inside
    rw [← Option.some.inj inside] at finite
    rw [if_pos ⟨finite, rfl⟩]
    exact .inl rfl
  · rw [Function.update_of_ne same, pc] at inside
    rw [Function.update_of_ne (core ▸ same)] at waits
    rw [if_neg (by simp [same]), vts]
    exact ticking t w' time' waits timeout inside finite

theorem Ticking.resume (ticking : Ticking s) (base : Base idle s) {time : UInt32}
    (inside : s.pc s.core.currp = some time) (calm : s.vts.mode = .idle) :
    Ticking (s.resume time) := by
  obtain ⟨-, -, -, func⟩ := base.resume_timers inside calm
  obtain ⟨core, -, -, fired, pc, -⟩ := resume_rest s time
  intro t w time' waits timeout inside' finite
  rw [core] at waits
  rw [pc] at inside'
  rw [func, fired]
  have other : t ≠ s.core.currp := by
    rintro rfl
    rw [Function.update_self] at inside'
    cases inside'
  rw [Function.update_of_ne other] at inside'
  rw [Function.update_of_ne (by simpa using other)]
  exact ticking t w time' waits timeout inside' finite

/-- The callback of a timer that the handler takes off the list is the next thing it calls. -/
theorem Ticking.fire (ticking : Ticking s) (base : Base idle s) {vtp : T ⊕ V} {fn : Vtfunc}
    (looping : s.vts.mode = .looping) (func : s.vts.vt.vt_func vtp = some fn) :
    Ticking (s.fire vtp fn) := by
  intro t w time waits timeout inside finite
  change Function.update s.vts.vt.vt_func vtp none (.inl t) = _ ∨
    (if fn = .wakeup then some (s.vts.vt.vt_par vtp) else none) = some t
  by_cases own : vtp = .inl t
  · subst own
    obtain rfl := base.own t fn func
    have par : t = s.vts.vt.vt_par (.inl t) := Sum.inl.inj (base.func (.inl t) func)
    rw [if_pos rfl, ← par]
    exact .inr rfl
  · rw [Function.update_of_ne (Ne.symm own)]
    rcases ticking t w time waits timeout inside finite with armed | late
    · exact .inl armed
    · have := (base.fired t late).1
      rw [looping] at this
      cases this

/-- After the callback its thread is awake. -/
theorem Ticking.callback (ticking : Ticking s) (base : Base idle s) (fired : s.fired = some tp) :
    Ticking (s.callback tp) := by
  have wakes := onlyWakes_wakeup s tp
  intro t w time waits timeout inside finite
  change (s.wakeup tp).core.waiting t = some w at waits
  change (s.wakeup tp).pc t = some time at inside
  change (s.wakeup tp).vts.vt.vt_func (.inl t) = _ ∨ none = some t
  rw [wakes.pc] at inside
  rw [wakes.vts]
  by_cases same : t = tp
  · subst same
    have awake : (s.wakeup t).core.waiting t = none := base.callback_awake fired
    rw [awake] at waits
    cases waits
  · rcases wakes.waiting t with before | awake
    · rcases ticking t w time (before ▸ waits) timeout inside finite with armed | late
      · exact .inl armed
      · exact absurd (Option.some.inj (late.symm.trans fired)) same
    · rw [awake] at waits
      cases waits

theorem Step.ticking (step : Step idle s s') (base : Base idle s) (ticking : Ticking s) :
    Ticking s' := by
  cases step with
  | sleep running other sleep =>
      rcases sleep.cases with ⟨cnt, rfl⟩ | ⟨s₀, fuel, w, time, result, core, vts, fired, pc, later, -⟩
      · exact ticking.of_eq rfl rfl rfl fun _ => rfl
      · exact ticking.goSleep base other running.2 running.1 later core vts fired pc result
  | sleepOther running other =>
      intro t w time waits timeout inside finite
      have sleeps := base.core.goSleep other .OTHER
      change (s.core.chSchGoSleepS .OTHER).waiting t = some w at waits
      rw [sleeps.waiting] at waits
      by_cases same : t = s.core.currp
      · subst same
        rw [Function.update_self] at waits
        exact absurd (Option.some.inj waits).symm timeout
      · rw [Function.update_of_ne same] at waits
        exact ticking t w time waits timeout inside finite
  | resume time inside calm => exact ticking.resume base inside calm
  | wakeI unlocked wake => exact ticking.onlyWakes wake.onlyWakes
  | wakeS running wake => exact ticking.onlyWakes wake.onlyWakes
  | events running mask => exact ticking.of_eq rfl rfl rfl fun _ => rfl
  | switch running switch =>
      exact ticking.of_eq (base.core.switch switch).waiting rfl rfl fun _ => rfl
  | set fuel v delay par unlocked unarmed later result =>
      obtain ⟨vts, rfl, -, -, func, -⟩ := setTimer_spec unlocked.2 unarmed later result
      refine ticking.of_eq rfl rfl rfl ?_
      intro t
      rw [func, Function.update_of_ne (by simp)]
  | reset v unlocked armed =>
      refine ticking.of_eq rfl rfl rfl ?_
      intro t
      exact Function.update_of_ne (show Sum.inl t ≠ .inr v by simp) none s.vts.vt.vt_func
  | tick running =>
      refine ticking.of_eq base.core.tick.waiting rfl rfl ?_
      intro t
      exact congrFun (tick_func s.vts.vt) (.inl t)
  | fire vtp fn looping first due func => exact ticking.fire base looping func
  | callback tp fired => exact ticking.callback base fired
  | «return» callback called => exact ticking.of_eq rfl rfl rfl fun _ => rfl
  | done looping later => exact ticking.of_eq rfl rfl rfl fun _ => rfl

omit [DecidableEq O] in
theorem Start.ticking (start : Start idle s) : Ticking s := by
  intro t w time waits timeout
  rcases start.asleep t with awake | other
  · rw [awake] at waits
    cases waits
  · rw [other] at waits
    exact absurd (Option.some.inj waits).symm timeout

theorem Reachable.ticking (reachable : Reachable idle s) : Ticking s := by
  obtain ⟨s₀, start, run⟩ := reachable
  induction run with
  | refl => exact start.ticking
  | tail run step ih => exact step.ticking (Reachable.base ⟨s₀, start, run⟩) ih

/-! ### What a sleeping thread can rely on -/

/-- The sleep a thread has been released from: it waits for nothing and is on no queue and
behind no reference, it has the message of what released it, and since it fell asleep it
has been put on the ready list once, or made to run at once. -/
structure Released (s : Sleepers T V O) (t : T) (readied : Nat) (timer : Bool) (msg : Int)
    (direct : Bool) :
    Prop where
  awake : s.core.waiting t = none
  message : s.core.rdymsg t = msg
  late : timer = true → msg = MSG_TIMEOUT ∧ direct = false
  ready : s.core.readied t = readied + if direct then 0 else 1
  queue : ∀ q, t ∉ s.queue q
  ref : ∀ trp, s.ref trp ≠ some t

/-- The timer of a thread is not on the timer list. -/
def OffList (s : Sleepers T V O) (t : T) : Prop :=
  s.vts.vt.vt_func (.inl t) = none ∧ ∀ l : List (T ⊕ V),
    Linked.Ring s.vts.vt.links none (l.map some) → .inl t ∉ l

theorem Base.offList (base : Base idle s) (unarmed : s.vts.vt.vt_func (.inl t) = none) :
    OffList s t := by
  refine ⟨unarmed, ?_⟩
  intro l ring mem
  obtain ⟨l', inv⟩ := base.timers
  have same : l' = l := by
    apply List.map_injective_iff.mpr (Option.some_injective _)
    exact inv.linked.ring.unique ring
  rw [← same, ← inv.linked.func] at mem
  exact mem unarmed

theorem Base.released_of_phase (base : Base idle s) {k : Nat} {timer direct : Bool}
    (eq : phase t s.log = .released w k timer msg direct) : Released s t k timer msg direct := by
  have holds := base.holds t
  rw [eq] at holds
  obtain ⟨-, awake, message, late, listed, ready⟩ := holds
  have off : place s.core.waiting t = none := by
    rw [place, awake]
    rfl
  refine ⟨awake, message, fun by_timer => ⟨late by_timer, listed by_timer⟩, ready,
    base.queued.not_mem off, ?_⟩
  intro trp held
  rw [base.refs, awake] at held
  cases held

/-- A step that wakes a thread leaves its reference `NULL`. -/
theorem Base.ref_null (base : Base idle s) (step : Step idle s s') {trp : O}
    (waits : s.core.waiting t = some (.SUSPENDED trp)) (woken : s'.core.waiting t = none) :
    s'.ref trp = none := by
  have held := (base.refs trp t).mpr waits
  rcases step.handed trp with same | null | null
  · rw [held, (step.base base).refs, woken] at same
    cases same
  · exact null
  · rw [held] at null
    cases null

/-- The timer of a thread is on the timer list, and is to call `wakeup` for it. -/
def OnList (s : Sleepers T V O) (t : T) : Prop :=
  s.vts.vt.vt_func (.inl t) = some .wakeup ∧ s.vts.vt.vt_par (.inl t) = t ∧
    ∃ l : List (T ⊕ V), Linked.Ring s.vts.vt.links none (l.map some) ∧ .inl t ∈ l

theorem Base.onList (base : Base idle s) (armed : s.vts.vt.vt_func (.inl t) = some .wakeup) :
    OnList s t := by
  obtain ⟨l, inv⟩ := base.timers
  refine ⟨armed, (Sum.inl.inj (base.func _ armed)).symm, l, inv.linked.ring, ?_⟩
  rw [← inv.linked.func, armed]
  simp

/-- The current thread of `s` has gone to sleep in the state `w`, and its timer is set to
expire after `time` unless it sleeps for ever. -/
structure FellAsleep (s s' : Sleepers T V O) (w : Waits O) (time : UInt32) : Prop where
  waits : s'.core.waiting s.core.currp = some w
  inside : s'.pc s.core.currp = some time
  log : s'.log = s.log ++ [.slept s.core.currp w (s.core.readied s.core.currp)]
  timer : time ≠ TIME_INFINITE →
    s'.vts.log = s.vts.log ++ [.set s.vts.ticks (.inl s.core.currp) time .wakeup s.core.currp]

theorem Base.fellAsleep (base : Base idle s) (other : s.core.currp ≠ idle) {fuel : Nat}
    {time : UInt32} (result : s.chSchGoSleepTimeoutS fuel w time = some s') :
    FellAsleep s s' w time := by
  have sleeps := base.core.goSleep other w
  have waits : (s.core.chSchGoSleepS w).waiting s.core.currp = some w := by
    rw [sleeps.waiting, Function.update_self]
  unfold chSchGoSleepTimeoutS at result
  split_ifs at result with finite
  · obtain ⟨s₁, set, rfl⟩ := Option.map_eq_some_iff.mp result
    obtain ⟨vt, -, rfl⟩ := Option.map_eq_some_iff.mp set
    exact ⟨waits, Function.update_self _ _ _, rfl, fun _ => rfl⟩
  · cases result
    exact ⟨waits, Function.update_self _ _ _, rfl, fun finite' => absurd finite' finite⟩

/-- `chSchGoSleepTimeoutS` gets to the end of the timer list. -/
theorem Base.sleep_goes (base : Base idle s) (out : s.pc s.core.currp = none) (w : Waits O)
    {time : UInt32} (later : time ≠ TIME_IMMEDIATE) :
    ∃ fuel s', s.chSchGoSleepTimeoutS fuel w time = some s' := by
  by_cases finite : time = TIME_INFINITE
  · exact ⟨0, s.goSleep w time, if_neg (not_not.mpr finite)⟩
  · obtain ⟨l, inv⟩ := base.timers
    obtain ⟨vt, -, set, -⟩ := Timers.linked_set inv.linked (base.unarmed out) later
      (Nat.lt_succ_self _) .wakeup s.core.currp
    refine ⟨l.length + 1, ?_⟩
    rw [chSchGoSleepTimeoutS, if_pos finite, setTimer, set]
    exact ⟨_, rfl⟩

/-- A waker has released the thread `tp` with a message. -/
structure Woken (s s' : Sleepers T V O) (tp : T) (msg : Int) : Prop where
  awake : s'.core.waiting tp = none
  message : s'.core.rdymsg tp = msg
  log : ∃ direct, s'.log = s.log ++ [.released tp false msg direct]

theorem Base.woken (base : Base idle s) (waits : s.core.waiting tp = some w) {wake : Wake T O}
    (good : Good idle wake) {ref : O → Option T} {cnt : O → Int} {queue : Obj O → List T}
    {pending : T → BitVec 32} (msg : Int) :
    Woken s ({ s with ref := ref, s_cnt := cnt, queue := queue, p_epending := pending }.release
      wake tp false msg) tp msg := by
  have wakes := good s.core tp msg base.core (by simp [waits])
  refine ⟨?_, ?_, decide ((wake s.core tp msg).currp = tp), rfl⟩
  · change (wake s.core tp msg).waiting tp = none
    rw [wakes.waiting, Function.update_self]
  · change (wake s.core tp msg).rdymsg tp = msg
    rw [wakes.rdymsg, Function.update_self]

/-- The first thread of a queue is woken, whatever the counters are. -/
theorem Base.wakeFirst_woken (base : Base idle s) {q : Obj O} {rest : List T}
    (queue : s.queue q = tp :: rest) {wake : Wake T O} (good : Good idle wake) (cnt : O → Int)
    (msg : Int) : Woken s ({ s with s_cnt := cnt }.wakeFirst wake q msg) tp msg := by
  have mem : tp ∈ s.queue q := by simp [queue]
  obtain ⟨w, waits, -⟩ := waits_of_place (base.queued.place_eq mem)
  simp only [Sleepers.wakeFirst, queue]
  exact base.woken waits good msg

/-- Every waker releases the thread it finds, with the message it has for it. -/
structure Wakers (s : Sleepers T V O) : Prop where
  resumed : ∀ trp tp msg, s.ref trp = some tp →
    Woken s (s.chThdResumeI trp msg) tp msg ∧ Woken s (s.chThdResumeS trp msg) tp msg
  signalled : ∀ sp tp rest, s.queue (.sem sp) = tp :: rest → s.s_cnt sp < 0 →
    Woken s (s.chSemSignal sp) tp MSG_OK ∧ Woken s (s.chSemSignalI sp) tp MSG_OK
  told : ∀ cp tp rest, s.queue (.cond cp) = tp :: rest →
    Woken s (s.chCondSignal cp) tp MSG_OK ∧ Woken s (s.chCondSignalI cp) tp MSG_OK
  dequeued : ∀ tqp tp rest msg, s.queue (.threads tqp) = tp :: rest →
    Woken s (s.chThdDequeueNextI tqp msg) tp msg
  any : ∀ tp ewmask events, s.core.waiting tp = some (.WTOREVT ewmask) →
    (s.p_epending tp ||| events) &&& ewmask ≠ 0 → Woken s (s.chEvtSignalI tp events) tp MSG_OK
  all : ∀ tp ewmask events, s.core.waiting tp = some (.WTANDEVT ewmask) →
    (s.p_epending tp ||| events) &&& ewmask = ewmask →
      Woken s (s.chEvtSignalI tp events) tp MSG_OK

theorem Base.signalWith_woken (base : Base idle s) {sp : O} {rest : List T}
    (queue : s.queue (.sem sp) = tp :: rest) (short : s.s_cnt sp < 0) {wake : Wake T O}
    (good : Good idle wake) : Woken s (s.signalWith wake sp) tp MSG_OK := by
  have waiting : Function.update s.s_cnt sp (s.s_cnt sp + 1) sp ≤ 0 := by
    rw [Function.update_self]
    omega
  simp only [Sleepers.signalWith, if_pos waiting]
  exact base.wakeFirst_woken queue good _ MSG_OK

theorem Base.wakers (base : Base idle s) : Wakers s where
  resumed trp tp msg held := by
    have waits := (base.refs trp tp).mp held
    simp only [chThdResumeI, chThdResumeS, Sleepers.resumeWith, held]
    exact ⟨base.woken waits (good_msgReady idle) msg,
      base.woken waits (good_wakeupS idle) msg⟩
  signalled sp tp rest queue short :=
    ⟨base.signalWith_woken queue short (good_wakeupS idle),
      base.signalWith_woken queue short (good_msgReady idle)⟩
  told cp tp rest queue :=
    ⟨base.wakeFirst_woken queue (good_wakeupS idle) s.s_cnt MSG_OK,
      base.wakeFirst_woken queue (good_msgReady idle) s.s_cnt MSG_OK⟩
  dequeued tqp tp rest msg queue := base.wakeFirst_woken queue (good_msgReady idle) s.s_cnt msg
  any tp ewmask events waits found := by
    simp only [Sleepers.chEvtSignalI, Core.waiting_eq_some.mp waits, Function.update_self, ne_eq,
      found, not_false_eq_true, if_true]
    exact base.woken waits (good_msgReady idle) MSG_OK
  all tp ewmask events waits found := by
    simp only [Sleepers.chEvtSignalI, Core.waiting_eq_some.mp waits, Function.update_self, found,
      if_true]
    exact base.woken waits (good_msgReady idle) MSG_OK

/-- What the callback of a thread's timer does: it releases the thread with `MSG_TIMEOUT` if
that still sleeps, and nothing if a handler was faster. -/
structure Expires (s : Sleepers T V O) (tp : T) : Prop where
  locked : s.vts.mode = .callback
  asleep : ∀ w, s.core.waiting tp = some w → w ≠ .OTHER ∧
    (s.callback tp).core.waiting tp = none ∧ (s.callback tp).core.rdymsg tp = MSG_TIMEOUT ∧
      (s.callback tp).log = s.log ++ [.released tp true MSG_TIMEOUT false]
  ready : s.core.waiting tp = none → s.callback tp = { s with fired := none }

theorem Base.expires (base : Base idle s) (fired : s.fired = some tp) : Expires s tp where
  locked := (base.fired tp fired).1
  asleep w waits := by
    refine ⟨?_, base.callback_asleep waits⟩
    rcases base.fired_cases fired with ⟨w', state, timeout⟩ | ready
    · rw [Core.waiting_eq_some.mpr state] at waits
      exact Option.some.inj waits ▸ timeout
    · rw [Core.waiting_eq_none.mpr (.inl ready)] at waits
      cases waits
  ready awake := base.callback_ready fired awake

/-- What a thread that sleeps with a timeout can rely on. -/
structure Reliable (idle : T) (s : Sleepers T V O) : Prop where
  sleeps : ∀ fuel w time s', s.core.currp ≠ idle →
    s.chSchGoSleepTimeoutS fuel w time = some s' → FellAsleep s s' w time
  goes : s.pc s.core.currp = none → ∀ w time, time ≠ TIME_IMMEDIATE →
    ∃ fuel s', s.chSchGoSleepTimeoutS fuel w time = some s'
  timed : ∀ t w time, s.core.waiting t = some w → w ≠ .OTHER → s.pc t = some time →
    time ≠ TIME_INFINITE → OnList s t ∨ s.fired = some t
  expires : ∀ tp, s.fired = some tp → Expires s tp
  wakers : Wakers s
  once : ∀ t, phase t s.log ≠ .broken
  asleep : ∀ t w, s.core.waiting t = some w → w ≠ .OTHER →
      phase t s.log = .asleep w (s.core.readied t)
  released : ∀ t w k timer msg direct, phase t s.log = .released w k timer msg direct →
    Released s t k timer msg direct
  null : ∀ s' t trp, Step idle s s' → s.core.waiting t = some (.SUSPENDED trp) →
      s'.core.waiting t = none →
    s'.ref trp = none
  counter : ∀ tp sp, s.fired = some tp → s.core.waiting tp = some (.WTSEM sp) →
    (s.callback tp).s_cnt = Function.update s.s_cnt sp (s.s_cnt sp + 1)
  returns : ∀ time, s.pc s.core.currp = some time → s.vts.mode = .idle →
    ∃ w k timer msg direct, phase s.core.currp s.log = .released w k timer msg direct ∧
      (s.resume time).log = s.log ++ [.returned s.core.currp msg] ∧
        OffList (s.resume time) s.core.currp
  outside : ∀ t, s.pc t = none → OffList s t

omit [DecidableEq V] in
theorem callback_s_cnt {sp : O} (waits : s.core.waiting tp = some (.WTSEM sp)) :
    (s.callback tp).s_cnt = Function.update s.s_cnt sp (s.s_cnt sp + 1) := by
  have state := Core.waiting_eq_some.mp waits
  simp only [callback, wakeup, state]
  rfl

theorem Base.reliable (base : Base idle s) (ticking : Ticking s) : Reliable idle s where
  sleeps fuel w time s' other result := base.fellAsleep other result
  goes out w time later := base.sleep_goes out w later
  timed t w time waits timeout inside finite :=
    (ticking t w time waits timeout inside finite).imp_left base.onList
  expires tp fired := base.expires fired
  wakers := base.wakers
  once t eq := by
    have holds := base.holds t
    rw [eq] at holds
    exact holds
  asleep t w waits timeout := (base.asleep waits timeout).2
  released t w k timer msg direct := base.released_of_phase
  null s' t trp step waits woken := base.ref_null step waits woken
  counter tp sp _ waits := callback_s_cnt waits
  returns time inside calm := by
    obtain ⟨w, k, timer, msg, direct, eq, message, -⟩ := base.released (by simp [inside])
    refine ⟨w, k, timer, msg, direct, eq, ?_, ?_⟩
    · rw [(resume_rest s time).2.2.2.2.2, message]
    · apply (base.resume inside calm).offList
      rw [(base.resume_timers inside calm).2.2.2, Function.update_self]
  outside t out := base.offList (base.unarmed out)

/-- A thread that sleeps with a timeout, in any state and in every run of threads and
nested interrupt handlers, is released once, with the message of what released it, and
what it leaves behind is clean: its queue, its reference, the counter of its semaphore and
its timer. -/
theorem timeout_or_wakeup (idle : T) (s : Sleepers T V O) (reachable : Reachable idle s) :
    Reliable idle s :=
  reachable.base.reliable reachable.ticking

end Proofs

/-! ### An example -/

/-- The idle thread 0, the thread 1 and the current thread 2 of a higher priority. -/
def sampleStart : Sleepers (Fin 3) Unit Unit where
  core :=
    { p_prio := fun t => if t = 0 then IDLEPRIO else if t = 1 then 64 else 128
      p_state := fun t => if t = 2 then .CURRENT else .READY
      p_preempt := fun _ => CH_CFG_TIME_QUANTUM
      rdymsg := fun _ => MSG_OK
      ready := [1, 0]
      currp := 2
      log := [] }
  ref := fun _ => none
  s_cnt := fun _ => 0
  queue := fun _ => []
  p_epending := fun _ => 0
  vts := ⟨(Timers.VtList._vt_init ⟨⟨id, id⟩, fun _ => 0, fun _ => none, fun _ => 0, 0⟩), .idle, 0,
    []⟩
  fired := none
  pc := fun _ => none
  log := []

theorem sampleStart_start : Start 0 sampleStart where
  core :=
    { inv :=
        { sorted := by simp [Descending, sampleStart, IDLEPRIO]
          nodup := by decide
          mem_ready := by decide
          current := by decide
          awake := by decide }
      pos := by decide }
  asleep := by decide
  ref _ := rfl
  queue _ := rfl
  vts := ⟨_, rfl⟩
  fired := rfl
  pc _ := rfl
  log := rfl

/-- The thread 2 suspends itself for ten ticks. -/
def sampleSuspended : Sleepers (Fin 3) Unit Unit :=
  (sampleStart.chThdSuspendTimeoutS 1 () 10).getD sampleStart

/-- The thread 1 resumes it, with a message of its own choice. -/
def sampleResumed : Sleepers (Fin 3) Unit Unit := sampleSuspended.chThdResumeS () MSG_TIMEOUT

theorem sampleResumed_reachable : Reachable 0 sampleResumed := by
  refine ⟨sampleStart, sampleStart_start, ?_⟩
  have suspend : Step 0 sampleStart sampleSuspended :=
    .sleep ⟨rfl, rfl⟩ (by decide) (.suspend 1 () 10 rfl rfl)
  have resume : Step 0 sampleSuspended sampleResumed := .wakeS ⟨rfl, rfl⟩ (.resumeS () MSG_TIMEOUT)
  exact (Relation.ReflTransGen.single suspend).tail resume

theorem sampleResumed_reliable :
    Reliable 0 sampleResumed ∧
      phase 2 sampleResumed.log = .released (.SUSPENDED ()) 0 false MSG_TIMEOUT true :=
  ⟨timeout_or_wakeup 0 _ sampleResumed_reachable, by decide⟩

/-- A thread of a lower priority that wakes a thread does not put it on the ready list, and
its message can be the one of a timeout. -/
theorem not_once_on_ready_list :
    ¬ ∀ s : Sleepers (Fin 3) Unit Unit, Reachable 0 s →
      ∀ t w k timer msg direct, phase t s.log = .released w k timer msg direct →
        s.core.readied t = k + 1 ∧ (s.core.rdymsg t = MSG_TIMEOUT ↔ timer = true) := by
  intro claimed
  have := claimed sampleResumed sampleResumed_reachable 2 (.SUSPENDED ()) 0 false MSG_TIMEOUT true
    (by decide)
  revert this
  decide

end Sleepers

end LtcOs.Kernel
