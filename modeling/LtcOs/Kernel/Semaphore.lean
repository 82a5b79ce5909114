import LtcOs.Kernel.Effect
import LtcOs.Lib.Waiting

/-!
Counting semaphores (`chsem.c`) with timeouts (`wakeup` in `chschd.c`).

The counter of a semaphore counts units while it is positive and waiting threads while
it is negative. The history of a run says which unit went where: `account` reads the
value of a semaphore off it, and `phase` where a thread is in a wait.
-/

namespace LtcOs.Kernel

open LtcOs.Waiting

/-- What a thread waits for; `OTHER` stands for everything but a semaphore. -/
inductive SemWait (S : Type) where
  | WTSEM (sp : S)
  | OTHER
deriving DecidableEq, Repr

/-- What released a thread. -/
inductive Cause where
  | signal
  | reset
  | timer
deriving DecidableEq, Repr

def Cause.msg : Cause → Int
  | .signal => MSG_OK
  | .reset => MSG_RESET
  | .timer => MSG_TIMEOUT

/-- What happens to semaphores: a unit is signalled, the counter is reset, a wait ends at
once with `MSG_OK` or `MSG_TIMEOUT`, a thread is queued, released, and returns. -/
inductive SemEvent (T S : Type) where
  | signal (sp : S)
  | reset (sp : S) (n : Nat)
  | passed (tp : T) (sp : S)
  | refused (tp : T) (sp : S)
  | queued (tp : T) (sp : S)
  | released (tp : T) (sp : S) (cause : Cause)
  | returned (tp : T) (sp : S) (msg : Int)
deriving DecidableEq, Repr

/-- Semaphores of type `S`. A thread that slept in a wait is in it until it runs again;
its timer is armed up to then, unless it expires. The tick handler gives up the lock
before the callback of an expired timer; `fired` is the thread the callback is for. -/
structure Sems (T S : Type) where
  core : Core T (SemWait S)
  s_cnt : S → Int
  s_queue : S → List T
  timer : T → Bool
  fired : Option T
  pc : T → Option S
  log : List (SemEvent T S)

variable {T S : Type}

namespace Sems

/-! ### The code -/

section Code

variable [DecidableEq T] [DecidableEq S]

/-- `++sp->s_cnt` for a unit signalled. -/
def give (s : Sems T S) (sp : S) : Sems T S :=
  { s with s_cnt := Function.update s.s_cnt sp (s.s_cnt sp + 1), log := s.log ++ [.signal sp] }

/-- One unit; the first thread on the queue is woken in one of several ways. -/
def signalWith (wake : Core T (SemWait S) → T → Core T (SemWait S)) (s : Sems T S) (sp : S) :
    Sems T S :=
  let s := s.give sp
  if s.s_cnt sp ≤ 0 then
    match s.s_queue sp with
    | [] => s
    | tp :: rest => { s with
        s_queue := Function.update s.s_queue sp rest
        core := wake s.core tp
        log := s.log ++ [.released tp sp .signal] }
  else s

def chSemSignal : Sems T S → S → Sems T S := signalWith fun c tp => c.chSchWakeupS tp MSG_OK

def chSemSignalI : Sems T S → S → Sems T S :=
  signalWith fun c tp => (c.setMsg tp MSG_OK).chSchReadyI tp

/-- One round of `chSemAddCounterI`, and the first part of `chSemSignalWait`. -/
def signalRound : Sems T S → S → Sems T S :=
  signalWith fun c tp => (c.chSchReadyI tp).setMsg tp MSG_OK

def chSemAddCounterI (s : Sems T S) (sp : S) : (n : Nat) → Sems T S
  | 0 => s
  | n + 1 => (s.chSemAddCounterI sp n).signalRound sp

/-- `--sp->s_cnt`. -/
def take (s : Sems T S) (sp : S) : Sems T S :=
  { s with s_cnt := Function.update s.s_cnt sp (s.s_cnt sp - 1) }

/-- The current thread goes on the queue and to sleep. -/
def sleepOn (s : Sems T S) (sp : S) (timed : Bool) : Sems T S :=
  let ctp := s.core.currp
  { s with
    s_queue := Function.update s.s_queue sp (s.s_queue sp ++ [ctp])
    core := s.core.chSchGoSleepS (.WTSEM sp)
    timer := Function.update s.timer ctp timed
    pc := Function.update s.pc ctp (some sp)
    log := s.log ++ [.queued ctp sp] }

def pass (s : Sems T S) (sp : S) : Sems T S := { s with log := s.log ++ [.passed s.core.currp sp] }

/-- The message, or none if the thread sleeps. -/
def chSemWaitS (s : Sems T S) (sp : S) : Option Int × Sems T S :=
  let s := s.take sp
  if s.s_cnt sp < 0 then (none, s.sleepOn sp false) else (some MSG_OK, s.pass sp)

/-- The message, or none if the thread sleeps. -/
def chSemWaitTimeoutS (s : Sems T S) (sp : S) (time : Timeout) : Option Int × Sems T S :=
  let s := s.take sp
  if s.s_cnt sp < 0 then
    if time = .immediate then
      (some MSG_TIMEOUT, { s with
        s_cnt := Function.update s.s_cnt sp (s.s_cnt sp + 1)
        log := s.log ++ [.refused s.core.currp sp] })
    else (none, s.sleepOn sp (decide (time = .finite)))
  else (some MSG_OK, s.pass sp)

def reschedule (s : Sems T S) : Sems T S := { s with core := s.core.chSchRescheduleS }

/-- The message, or none if the thread sleeps. -/
def chSemSignalWait (s : Sems T S) (sps spw : S) : Option Int × Sems T S :=
  let s := (s.signalRound sps).take spw
  if s.s_cnt spw < 0 then (none, s.sleepOn spw false) else (some MSG_OK, (s.pass spw).reschedule)

/-- The loop of `chSemResetI`. -/
def resetLoop (sp : S) : (rounds : Nat) → Sems T S → Sems T S
  | 0, s => s
  | rounds + 1, s =>
      match (s.s_queue sp).getLast? with
      | none => s
      | some tp => resetLoop sp rounds { s with
          s_queue := Function.update s.s_queue sp (s.s_queue sp).dropLast
          core := (s.core.chSchReadyI tp).setMsg tp MSG_RESET
          log := s.log ++ [.released tp sp .reset] }

def chSemResetI (s : Sems T S) (sp : S) (n : Nat) : Sems T S :=
  let cnt := s.s_cnt sp
  let s := { s with s_cnt := Function.update s.s_cnt sp n, log := s.log ++ [.reset sp n] }
  resetLoop sp (-cnt).toNat s

def chSemReset (s : Sems T S) (sp : S) (n : Nat) : Sems T S := (s.chSemResetI sp n).reschedule

/-- The timeout callback `wakeup`. -/
def wakeup (s : Sems T S) (tp : T) : Sems T S :=
  match s.core.p_state tp with
  | .READY => s
  | .WAIT (.WTSEM sp) => { s with
      s_cnt := Function.update s.s_cnt sp (s.s_cnt sp + 1)
      s_queue := Function.update s.s_queue sp ((s.s_queue sp).erase tp)
      core := (s.core.setMsg tp MSG_TIMEOUT).chSchReadyI tp
      log := s.log ++ [.released tp sp .timer] }
  | _ => { s with core := (s.core.setMsg tp MSG_TIMEOUT).chSchReadyI tp }

/-- The tick handler takes the timer of a thread off the list. -/
def expire (s : Sems T S) (tp : T) : Sems T S :=
  { s with timer := Function.update s.timer tp false, fired := some tp }

/-- The tick handler calls the callback. -/
def callback (s : Sems T S) (tp : T) : Sems T S := { s.wakeup tp with fired := none }

/-- The current thread runs again in a wait: it resets its timer and returns. -/
def resume (s : Sems T S) (sp : S) : Sems T S :=
  let ctp := s.core.currp
  { s with
    timer := Function.update s.timer ctp false
    pc := Function.update s.pc ctp none
    log := s.log ++ [.returned ctp sp (s.core.rdymsg ctp)] }

end Code

/-! ### Runs -/

section Steps

variable [DecidableEq T] [DecidableEq S]

/-- The kernel is unlocked: the current thread is not in a call. -/
def Unlocked (s : Sems T S) : Prop := s.pc s.core.currp = none

/-- The current thread runs: it is in no call, and the tick handler is not active. -/
def Running (s : Sems T S) : Prop := s.Unlocked ∧ s.fired = none

/-- What else interrupt handlers do: they wake threads, and the tick handler takes timers
off the list and then calls their callbacks. -/
inductive Isr : Sems T S → Sems T S → Prop where
  | expire {s : Sems T S} (tp : T) (calm : s.fired = none) (armed : s.timer tp = true) :
    Isr s (s.expire tp)
  | callback {s : Sems T S} (tp : T) (fired : s.fired = some tp) : Isr s (s.callback tp)
  | ready {s : Sems T S} (tp : T) (msg : Int) (waits : s.core.waiting tp = some .OTHER) :
      Isr s { s with core := (s.core.setMsg tp msg).chSchReadyI tp }
  | tick {s : Sems T S} : Isr s { s with core := s.core.tick }

/-- What else threads do. The idle thread does not sleep. -/
inductive Thread (idle : T) : Sems T S → Sems T S → Prop where
  | sleep {s : Sems T S} (other : s.core.currp ≠ idle) :
    Thread idle s { s with core := s.core.chSchGoSleepS .OTHER }
  | wakeup {s : Sems T S} (tp : T) (msg : Int) (waits : s.core.waiting tp = some .OTHER) :
      Thread idle s { s with core := s.core.chSchWakeupS tp msg }
  | switch {s : Sems T S} {c : Core T (SemWait S)} (switch : s.core.Switch c) :
    Thread idle s { s with core := c }

/-- The calls of the current thread, the calls of interrupt handlers, also in the middle
of the tick handler, and the return of a thread that slept in a wait. -/
inductive Step (idle : T) : Sems T S → Sems T S → Prop where
  | wait {s : Sems T S} (sp : S) (running : s.Running) (other : s.core.currp ≠ idle) :
      Step idle s (s.chSemWaitS sp).2
  | waitTimeout {s : Sems T S} (sp : S) (time : Timeout) (running : s.Running)
    (other : s.core.currp ≠ idle) :
      Step idle s (s.chSemWaitTimeoutS sp time).2
  | signal {s : Sems T S} (sp : S) (running : s.Running) : Step idle s (s.chSemSignal sp)
  | signalI {s : Sems T S} (sp : S) (unlocked : s.Unlocked) : Step idle s (s.chSemSignalI sp)
  | addCounterI {s : Sems T S} (sp : S) (n : Nat) (unlocked : s.Unlocked) :
    Step idle s (s.chSemAddCounterI sp n)
  | signalWait {s : Sems T S} (sps spw : S) (running : s.Running) (other : s.core.currp ≠ idle) :
      Step idle s (s.chSemSignalWait sps spw).2
  | reset {s : Sems T S} (sp : S) (n : Nat) (running : s.Running) : Step idle s (s.chSemReset sp n)
  | resetI {s : Sems T S} (sp : S) (n : Nat) (unlocked : s.Unlocked) :
    Step idle s (s.chSemResetI sp n)
  | resume {s : Sems T S} (sp : S) (inside : s.pc s.core.currp = some sp) (calm : s.fired = none) :
      Step idle s (s.resume sp)
  | isr {s s' : Sems T S} (unlocked : s.Unlocked) (isr : Isr s s') : Step idle s s'
  | thread {s s' : Sems T S} (running : s.Running) (thread : Thread idle s s') : Step idle s s'

/-- The semaphores are initialised with the units of `n`, and no thread waits for them. -/
structure Start (idle : T) (n : S → Nat) (s : Sems T S) : Prop where
  core : s.core.Sound idle
  asleep : ∀ t, s.core.waiting t = none ∨ s.core.waiting t = some .OTHER
  count : ∀ sp, s.s_cnt sp = n sp
  queue : ∀ sp, s.s_queue sp = []
  timer : ∀ t, s.timer t = false
  fired : s.fired = none
  pc : ∀ t, s.pc t = none
  log : s.log = []

def Reachable (idle : T) (n : S → Nat) (s : Sems T S) : Prop :=
  ∃ s₀, Start idle n s₀ ∧ Relation.ReflTransGen (Step idle) s₀ s

end Steps

/-! ### Histories -/

/-- Where a thread is in a wait. -/
inductive Phase (S : Type) where
  | outside
  | queued (sp : S)
  | released (sp : S) (cause : Cause)
  | broken
deriving DecidableEq, Repr

section Histories

variable [DecidableEq T] [DecidableEq S]

/-- What an event does to the phase of `t`: a thread is queued from outside, released once
from the queue it is on, and returns with the message of what released it. -/
def Phase.next (t : T) (phase : Phase S) : SemEvent T S → Phase S
  | .signal _ => phase
  | .reset _ _ => phase
  | .passed tp _ => if tp = t then (if phase = .outside then .outside else .broken) else phase
  | .refused tp _ => if tp = t then (if phase = .outside then .outside else .broken) else phase
  | .queued tp sp => if tp = t then (if phase = .outside then .queued sp else .broken) else phase
  | .released tp sp cause =>
      if tp = t then (if phase = .queued sp then .released sp cause else .broken) else phase
  | .returned tp sp msg =>
      if tp = t then
        match phase with
        | .released sp' cause => if sp' = sp ∧ msg = cause.msg then .outside else .broken
        | _ => .broken
      else phase

def phase (t : T) (log : List (SemEvent T S)) : Phase S := log.foldl (Phase.next t) .outside

/-- What an event adds to the units of `sp`: a signal gives one, a wait that gets `MSG_OK`
takes one, and a reset starts over. -/
def credit (sp : S) (units : Int) : SemEvent T S → Int
  | .signal sp' => if sp' = sp then units + 1 else units
  | .reset sp' n => if sp' = sp then n else units
  | .passed _ sp' => if sp' = sp then units - 1 else units
  | .released _ sp' .signal => if sp' = sp then units - 1 else units
  | _ => units

/-- The units of `sp`, `n` at first: units signalled since the last reset less the waits that
got `MSG_OK`. -/
def account (n : Nat) (sp : S) (log : List (SemEvent T S)) : Int := log.foldl (credit sp) n

theorem phase_concat (t : T) (log : List (SemEvent T S)) (e : SemEvent T S) :
    phase t (log ++ [e]) = (phase t log).next t e := by
  simp [phase]

omit [DecidableEq T] in
theorem account_concat (n : Nat) (sp : S) (log : List (SemEvent T S)) (e : SemEvent T S) :
    account n sp (log ++ [e]) = credit sp (account n sp log) e := by
  simp [account]

end Histories

/-! ### The invariant -/

def semOf : SemWait S → Option S
  | .WTSEM sp => some sp
  | .OTHER => none

/-- The semaphore a thread waits for. -/
def place (waiting : T → Option (SemWait S)) (t : T) : Option S := (waiting t).bind semOf

/-- What the history says about a thread is true: a queued thread sleeps, a released one is
awake with the message of what released it. -/
def Phase.Holds (waits : Option (SemWait S)) (msg : Int) (pc : Option S) : Phase S → Prop
  | .outside => pc = none ∧ waits.bind semOf = none
  | .queued sp => pc = some sp ∧ waits = some (.WTSEM sp)
  | .released sp cause => pc = some sp ∧ waits = none ∧ msg = cause.msg
  | .broken => False

/-- The queue of `sp` is as long as its counter says, and the history accounts for both. -/
structure Counted (n : Nat) (s : Sems T S) [DecidableEq S] (sp : S) : Prop where
  length : ((s.s_queue sp).length : Int) = max 0 (-s.s_cnt sp)
  balance : account n sp s.log = s.s_cnt sp + (s.s_queue sp).length

/-- The threads and the queues agree, also in the middle of a call. -/
structure Base (idle : T) (s : Sems T S) [DecidableEq T] [DecidableEq S] : Prop where
  core : s.core.Sound idle
  queued : Queued none (place s.core.waiting) s.s_queue
  holds : ∀ t, (phase t s.log).Holds (s.core.waiting t) (s.core.rdymsg t) (s.pc t)
  timed : ∀ t, s.timer t = true ∨ s.fired = some t → s.pc t ≠ none

structure Inv (idle : T) (n : S → Nat) (s : Sems T S) [DecidableEq T] [DecidableEq S] : Prop where
  base : Base idle s
  counted : ∀ sp, Counted (n sp) s sp

section Proofs

variable [DecidableEq T] [DecidableEq S] {idle tp t : T} {s : Sems T S} {sp : S} {n : Nat}
  {units : S → Nat} {c : Core T (SemWait S)}

omit [DecidableEq S] in
theorem place_update (waiting : T → Option (SemWait S)) (tp : T) (w : Option (SemWait S)) :
    place (Function.update waiting tp w) = Function.update (place waiting) tp (w.bind semOf) := by
  funext t
  by_cases same : t = tp
  · subst same
    simp [place]
  · simp [place, same]

theorem Base.mem_iff (base : Base idle s) :
    t ∈ s.s_queue sp ↔ s.core.waiting t = some (.WTSEM sp) := by
  rw [base.queued.mem_iff, place]
  cases s.core.waiting t with
  | none => simp
  | some w => cases w <;> simp [semOf]

/-- A thread in no call is outside. -/
theorem Base.outside (base : Base idle s) (out : s.pc t = none) : phase t s.log = .outside := by
  have holds := base.holds t
  cases eq : phase t s.log with
  | outside => rfl
  | queued sp =>
      rw [eq] at holds
      exact absurd (out.symm.trans holds.1) (by simp)
  | released sp cause =>
      rw [eq] at holds
      exact absurd (out.symm.trans holds.1) (by simp)
  | broken =>
      rw [eq] at holds
      exact holds.elim

theorem Base.phase_queued (base : Base idle s) (mem : t ∈ s.s_queue sp) :
    phase t s.log = .queued sp := by
  have waits := base.mem_iff.mp mem
  have holds := base.holds t
  rw [waits] at holds
  cases eq : phase t s.log with
  | outside =>
      rw [eq] at holds
      exact absurd holds.2 (by simp [semOf])
  | queued sp' =>
      rw [eq] at holds
      have same := holds.2
      simp only [Option.some.injEq, SemWait.WTSEM.injEq] at same
      rw [same]
  | released sp' cause =>
      rw [eq] at holds
      exact absurd holds.2.1 (by simp)
  | broken =>
      rw [eq] at holds
      exact holds.elim

/-! ### What keeps threads and queues in agreement -/

/-- The scheduler does nothing to a semaphore. -/
theorem Base.quiet (base : Base idle s) (quiet : Core.Quiet idle s.core c) :
    Base idle { s with core := c } := by
  refine ⟨quiet.sound, ?_, ?_, base.timed⟩
  · rw [quiet.waiting]
    exact base.queued
  · intro t
    rw [quiet.waiting, quiet.rdymsg]
    exact base.holds t

/-- An event that changes the phase of no thread. -/
theorem Base.note (base : Base idle s) (e : SemEvent T S)
    (same : ∀ t, (phase t s.log).next t e = phase t s.log) (cnt : S → Int) :
    Base idle { s with s_cnt := cnt, log := s.log ++ [e] } := by
  refine ⟨base.core, base.queued, ?_, base.timed⟩
  intro t
  rw [phase_concat, same]
  exact base.holds t

/-- A thread leaves a queue, whatever the cause. -/
theorem Base.release (base : Base idle s) {cause : Cause} (mem : tp ∈ s.s_queue sp)
    (wakes : Core.Wakes idle tp cause.msg s.core c) (cnt : S → Int) :
    Base idle { s with
      s_cnt := cnt
      s_queue := Function.update s.s_queue sp ((s.s_queue sp).erase tp)
      core := c
      log := s.log ++ [.released tp sp cause] } := by
  have waits := base.queued.place_eq mem
  have before := base.phase_queued mem
  refine ⟨wakes.sound, ?_, ?_, base.timed⟩
  · rw [wakes.waiting, place_update]
    exact base.queued.depart waits
  · intro t
    rw [phase_concat, wakes.waiting, wakes.rdymsg]
    have holds := base.holds t
    by_cases same : t = tp
    · subst same
      rw [before] at holds ⊢
      simp only [Phase.next, if_true, Function.update_self]
      exact ⟨holds.1, rfl, rfl⟩
    · rw [Function.update_of_ne same, Function.update_of_ne same]
      simp only [Phase.next, if_neg (Ne.symm same)]
      exact holds

/-- A thread that waits for something else wakes. -/
theorem Base.wakes_other (base : Base idle s) {msg : Int} (waits : s.core.waiting tp = some .OTHER)
    (wakes : Core.Wakes idle tp msg s.core c) : Base idle { s with core := c } := by
  have place_eq : place s.core.waiting tp = none := by
    rw [place, waits]
    rfl
  refine ⟨wakes.sound, ?_, ?_, base.timed⟩
  · rw [wakes.waiting, place_update, Option.bind_none, ← place_eq, Function.update_eq_self]
    exact base.queued
  · intro t
    rw [wakes.waiting, wakes.rdymsg]
    have holds := base.holds t
    by_cases same : t = tp
    · subst same
      rw [waits] at holds
      cases eq : phase t s.log with
      | outside =>
          rw [eq] at holds
          rw [Function.update_self]
          exact ⟨holds.1, rfl⟩
      | queued sp =>
          rw [eq] at holds
          exact absurd holds.2 (by simp)
      | released sp cause =>
          rw [eq] at holds
          exact absurd holds.2.1 (by simp)
      | broken =>
          rw [eq] at holds
          exact holds.elim
    · rw [Function.update_of_ne same, Function.update_of_ne same]
      exact holds

/-- The current thread sleeps on something else. -/
theorem Base.sleeps_other (base : Base idle s) (out : s.pc s.core.currp = none)
    (sleeps : Core.Sleeps idle .OTHER s.core c) : Base idle { s with core := c } := by
  have place_eq : place s.core.waiting s.core.currp = none := by
    rw [place, base.core.inv.waiting_currp]
    rfl
  refine ⟨sleeps.sound, ?_, ?_, base.timed⟩
  · rw [sleeps.waiting, place_update]
    change Queued none (Function.update _ _ none) _
    rw [← place_eq, Function.update_eq_self]
    exact base.queued
  · intro t
    rw [sleeps.waiting, sleeps.rdymsg]
    by_cases same : t = s.core.currp
    · subst same
      rw [base.outside out, Function.update_self]
      exact ⟨out, rfl⟩
    · rw [Function.update_of_ne same]
      exact base.holds t

/-- The current thread goes on a queue and to sleep. -/
theorem Base.sleepOn (base : Base idle s) (out : s.pc s.core.currp = none)
    (other : s.core.currp ≠ idle) (sp : S) (timed : Bool) : Base idle (s.sleepOn sp timed) := by
  have sleeps := base.core.goSleep other (.WTSEM sp)
  have place_eq : place s.core.waiting s.core.currp = none := by
    rw [place, base.core.inv.waiting_currp]
    rfl
  refine ⟨sleeps.sound, ?_, ?_, ?_⟩
  · change Queued none (place (s.core.chSchGoSleepS (.WTSEM sp)).waiting) _
    rw [sleeps.waiting, place_update]
    apply base.queued.arrive place_eq
    · intro t
      simp [or_comm]
    · exact List.nodup_append.mpr ⟨base.queued.nodup sp, by simp, by
        intro a mem b hb eq
        rw [List.mem_singleton] at hb
        exact base.queued.not_mem place_eq sp (hb ▸ eq ▸ mem)⟩
  · intro t
    change (phase t (s.log ++ [.queued s.core.currp sp])).Holds
      ((s.core.chSchGoSleepS (.WTSEM sp)).waiting t)
      ((s.core.chSchGoSleepS (.WTSEM sp)).rdymsg t) (Function.update s.pc s.core.currp (some sp) t)
    rw [phase_concat, sleeps.waiting, sleeps.rdymsg]
    by_cases same : t = s.core.currp
    · subst same
      rw [base.outside out]
      simp only [Phase.next, if_true, Function.update_self]
      exact ⟨rfl, rfl⟩
    · rw [Function.update_of_ne same, Function.update_of_ne same]
      simp only [Phase.next, if_neg (Ne.symm same)]
      exact base.holds t
  · intro t
    change Function.update s.timer s.core.currp timed t = true ∨ s.fired = some t →
      Function.update s.pc s.core.currp (some sp) t ≠ none
    by_cases same : t = s.core.currp
    · subst same
      simp
    · rw [Function.update_of_ne same, Function.update_of_ne same]
      exact base.timed t

/-- The current thread returns from a wait. -/
theorem Base.resume (base : Base idle s) (inside : s.pc s.core.currp = some sp)
    (calm : s.fired ≠ some s.core.currp) :
    Base idle (s.resume sp) := by
  have current := base.core.inv.waiting_currp
  refine ⟨base.core, base.queued, ?_, ?_⟩
  · intro t
    change (phase t (s.log ++ [.returned s.core.currp sp (s.core.rdymsg s.core.currp)])).Holds
      (s.core.waiting t) (s.core.rdymsg t) (Function.update s.pc s.core.currp none t)
    have holds := base.holds t
    rw [phase_concat]
    by_cases same : t = s.core.currp
    · subst same
      rw [Function.update_self, current] at *
      cases eq : phase s.core.currp s.log with
      | outside =>
          rw [eq] at holds
          exact absurd (inside.symm.trans holds.1) (by simp)
      | queued sp' =>
          rw [eq] at holds
          exact absurd holds.2 (by simp)
      | released sp' cause =>
          rw [eq] at holds
          have there : sp' = sp := Option.some.inj (holds.1.symm.trans inside)
          simp only [Phase.next, if_true, there, holds.2.2, and_self]
          exact ⟨rfl, rfl⟩
      | broken =>
          rw [eq] at holds
          exact holds.elim
    · rw [Function.update_of_ne same]
      simp only [Phase.next, if_neg (Ne.symm same)]
      exact holds
  · intro t
    change Function.update s.timer s.core.currp false t = true ∨ s.fired = some t →
      Function.update s.pc s.core.currp none t ≠ none
    by_cases same : t = s.core.currp
    · subst same
      simp [calm]
    · rw [Function.update_of_ne same, Function.update_of_ne same]
      exact base.timed t

/-! ### What the calls leave alone -/

theorem signalRound_pc (s : Sems T S) (sp : S) : (s.signalRound sp).pc = s.pc := by
  simp only [signalRound, signalWith]
  split
  · split <;> rfl
  · rfl

/-- The current thread goes on with `chSemSignalWait` after the signal. -/
theorem signalRound_currp (s : Sems T S) (sp : S) :
    (s.signalRound sp).core.currp = s.core.currp := by
  simp only [signalRound, signalWith]
  split
  · split <;> rfl
  · rfl

/-! ### Counting -/

omit [DecidableEq T] in
/-- Nothing happens to the semaphore `sp`. -/
theorem Counted.of_same {s' : Sems T S} (counted : Counted n s sp)
    (queue : s'.s_queue sp = s.s_queue sp) (cnt : s'.s_cnt sp = s.s_cnt sp)
    (log : account n sp s'.log = account n sp s.log) : Counted n s' sp := by
  constructor
  · rw [queue, cnt]
    exact counted.length
  · rw [queue, cnt, log]
    exact counted.balance

theorem Inv.quiet (inv : Inv idle units s) (quiet : Core.Quiet idle s.core c) :
    Inv idle units { s with core := c } :=
  ⟨inv.base.quiet quiet, fun sp => (inv.counted sp).of_same rfl rfl rfl⟩

omit [DecidableEq T] in
/-- The queue is empty unless the counter is negative. -/
theorem Counted.queue_nil (counted : Counted n s sp) (nonneg : 0 ≤ s.s_cnt sp) :
    s.s_queue sp = [] := by
  apply List.eq_nil_of_length_eq_zero
  have := counted.length
  omega

omit [DecidableEq T] in
theorem Counted.queue_cons (counted : Counted n s sp) (neg : s.s_cnt sp < 0) :
    ∃ tp rest, s.s_queue sp = tp :: rest := by
  apply List.exists_cons_of_ne_nil
  intro nil
  have := counted.length
  rw [nil, List.length_nil] at this
  omega

omit [DecidableEq T] in
/-- A signal with a thread on the queue hands the unit over. -/
theorem signalWith_neg {wake : Core T (SemWait S) → T → Core T (SemWait S)} {rest : List T}
    (neg : s.s_cnt sp < 0) (queue : s.s_queue sp = tp :: rest) :
    s.signalWith wake sp = { s.give sp with
      s_queue := Function.update s.s_queue sp rest
      core := wake s.core tp
      log := (s.give sp).log ++ [.released tp sp .signal] } := by
  have le : (s.give sp).s_cnt sp ≤ 0 := by
    simp only [give, Function.update_self]
    omega
  have same : (s.give sp).s_queue sp = tp :: rest := queue
  simp only [signalWith, if_pos le, same]
  rfl

omit [DecidableEq T] in
theorem signalWith_nonneg {wake : Core T (SemWait S) → T → Core T (SemWait S)}
    (nonneg : 0 ≤ s.s_cnt sp) :
    s.signalWith wake sp = s.give sp := by
  have gt : ¬ (s.give sp).s_cnt sp ≤ 0 := by
    simp only [give, Function.update_self]
    omega
  simp only [signalWith, if_neg gt]

theorem Inv.signalWith (inv : Inv idle units s) {wake : Core T (SemWait S) → T → Core T (SemWait S)}
    (wakes : ∀ tp, s.core.waiting tp ≠ none → Core.Wakes idle tp MSG_OK s.core (wake s.core tp))
    (sp : S) :
    Inv idle units (s.signalWith wake sp) := by
  have given : Base idle (s.give sp) := inv.base.note _ (fun _ => rfl) _
  have counted := inv.counted sp
  have length := counted.length
  have balance := counted.balance
  by_cases neg : s.s_cnt sp < 0
  · obtain ⟨tp, rest, queue⟩ := counted.queue_cons neg
    have mem : tp ∈ s.s_queue sp := by simp [queue]
    have asleep : s.core.waiting tp ≠ none := by simp [inv.base.mem_iff.mp mem]
    have woken : Core.Wakes idle tp Cause.signal.msg (s.give sp).core (wake s.core tp) :=
      wakes tp asleep
    have released := given.release mem woken (s.give sp).s_cnt
    have erased : ((s.give sp).s_queue sp).erase tp = rest := by
      change (s.s_queue sp).erase tp = rest
      rw [queue, List.erase_cons_head]
    rw [signalWith_neg neg queue]
    rw [erased] at released
    refine ⟨released, ?_⟩
    rw [queue, List.length_cons, Nat.cast_add, Nat.cast_one] at length balance
    intro sp'
    by_cases same : sp' = sp
    · subst same
      constructor
      · simp only [give, Function.update_self]
        omega
      · simp only [give, account_concat, credit, Function.update_self, if_true]
        omega
    · apply (inv.counted sp').of_same
      · exact Function.update_of_ne same _ _
      · exact Function.update_of_ne same _ _
      · simp only [give, account_concat, credit, if_neg (Ne.symm same)]
  · rw [not_lt] at neg
    have nil := counted.queue_nil neg
    rw [signalWith_nonneg neg]
    refine ⟨given, ?_⟩
    intro sp'
    by_cases same : sp' = sp
    · subst same
      rw [nil, List.length_nil, Nat.cast_zero] at length balance
      constructor
      · simp only [give, Function.update_self, nil, List.length_nil, Nat.cast_zero]
        omega
      · simp only [give, account_concat, credit, Function.update_self, if_true, nil,
          List.length_nil, Nat.cast_zero]
        omega
    · apply (inv.counted sp').of_same
      · rfl
      · exact Function.update_of_ne same _ _
      · simp only [give, account_concat, credit, if_neg (Ne.symm same)]

theorem Inv.chSemSignal (inv : Inv idle units s) (sp : S) : Inv idle units (s.chSemSignal sp) :=
  inv.signalWith (fun _ asleep => inv.base.core.wakeup asleep MSG_OK) sp

theorem Inv.chSemSignalI (inv : Inv idle units s) (sp : S) : Inv idle units (s.chSemSignalI sp) :=
  inv.signalWith (fun _ asleep => inv.base.core.setMsg_ready asleep MSG_OK) sp

theorem Inv.signalRound (inv : Inv idle units s) (sp : S) : Inv idle units (s.signalRound sp) :=
  inv.signalWith (fun _ asleep => inv.base.core.ready_setMsg asleep MSG_OK) sp

theorem Inv.chSemAddCounterI (inv : Inv idle units s) (sp : S) (n : Nat) :
    Inv idle units (s.chSemAddCounterI sp n) := by
  induction n with
  | zero => exact inv
  | succ n ih => exact ih.signalRound sp

/-- A wait that takes its unit at once. -/
theorem Inv.pass (inv : Inv idle units s) (out : s.pc s.core.currp = none)
    (enough : ¬ (s.take sp).s_cnt sp < 0) :
    Inv idle units ((s.take sp).pass sp) := by
  have counted := inv.counted sp
  have length := counted.length
  have balance := counted.balance
  simp only [take, Function.update_self, not_lt] at enough
  have nil := counted.queue_nil (by omega)
  constructor
  · apply inv.base.note
    intro t
    simp only [Phase.next]
    split_ifs with same outside
    · exact outside.symm
    · exact absurd (inv.base.outside (same ▸ out)) outside
    · rfl
  · intro sp'
    by_cases same : sp' = sp
    · subst same
      rw [nil, List.length_nil, Nat.cast_zero] at length balance
      constructor
      · simp only [Sems.pass, take, Function.update_self, nil, List.length_nil, Nat.cast_zero]
        omega
      · simp only [Sems.pass, take, account_concat, credit, Function.update_self, if_true, nil,
          List.length_nil,
          Nat.cast_zero]
        omega
    · apply (inv.counted sp').of_same
      · rfl
      · exact Function.update_of_ne same _ _
      · simp only [Sems.pass, take, account_concat, credit, if_neg (Ne.symm same)]

/-- A wait that sleeps. -/
theorem Inv.sleepOn (inv : Inv idle units s) (out : s.pc s.core.currp = none)
    (other : s.core.currp ≠ idle) (short : (s.take sp).s_cnt sp < 0) (timed : Bool) :
    Inv idle units ((s.take sp).sleepOn sp timed) := by
  have taken : Base idle (s.take sp) :=
    ⟨inv.base.core, inv.base.queued, inv.base.holds, inv.base.timed⟩
  have length := (inv.counted sp).length
  have balance := (inv.counted sp).balance
  simp only [take, Function.update_self] at short
  refine ⟨taken.sleepOn out other sp timed, ?_⟩
  intro sp'
  by_cases same : sp' = sp
  · subst same
    constructor
    · simp only [Sems.sleepOn, take, Function.update_self, List.length_append,
        List.length_singleton, Nat.cast_add,
        Nat.cast_one]
      omega
    · simp only [Sems.sleepOn, take, account_concat, credit, Function.update_self,
        List.length_append,
        List.length_singleton, Nat.cast_add, Nat.cast_one]
      omega
  · apply (inv.counted sp').of_same
    · exact Function.update_of_ne same _ _
    · exact Function.update_of_ne same _ _
    · simp only [Sems.sleepOn, take, account_concat, credit]

theorem Inv.chSemWaitS (inv : Inv idle units s) (out : s.pc s.core.currp = none)
    (other : s.core.currp ≠ idle) (sp : S) : Inv idle units (s.chSemWaitS sp).2 := by
  simp only [Sems.chSemWaitS]
  split_ifs with short
  · exact inv.sleepOn out other short false
  · exact inv.pass out short

theorem Inv.chSemWaitTimeoutS (inv : Inv idle units s) (out : s.pc s.core.currp = none)
    (other : s.core.currp ≠ idle) (sp : S) (time : Timeout) :
    Inv idle units (s.chSemWaitTimeoutS sp time).2 := by
  simp only [Sems.chSemWaitTimeoutS]
  split_ifs with short immediate
  · -- The unit is given back at once.
    constructor
    · apply inv.base.note
      intro t
      simp only [Phase.next]
      split_ifs with same outside
      · exact outside.symm
      · exact absurd (inv.base.outside (same ▸ out)) outside
      · rfl
    · intro sp'
      apply (inv.counted sp').of_same
      · rfl
      · by_cases same : sp' = sp
        · subst same
          simp [take]
        · simp [take, same]
      · simp only [take, account_concat, credit]
  · exact inv.sleepOn out other short _
  · exact inv.pass out short

theorem Inv.reschedule (inv : Inv idle units s) : Inv idle units s.reschedule :=
  inv.quiet inv.base.core.reschedule

theorem Inv.chSemSignalWait (inv : Inv idle units s) (out : s.pc s.core.currp = none)
    (other : s.core.currp ≠ idle) (sps spw : S) : Inv idle units (s.chSemSignalWait sps spw).2 := by
  have signalled := inv.signalRound sps
  have out' : (s.signalRound sps).pc (s.signalRound sps).core.currp = none := by
    rw [signalRound_pc, signalRound_currp]
    exact out
  simp only [Sems.chSemSignalWait]
  split_ifs with short
  · apply signalled.sleepOn out' ?_ short
    rw [signalRound_currp]
    exact other
  · exact (signalled.pass out' short).reschedule

/-! ### Reset and timeout -/

/-- The loop of `chSemResetI` releases every thread on the queue and changes nothing else. -/
structure Emptied (idle : T) (sp : S) (s s' : Sems T S) : Prop where
  base : Base idle s'
  queue : s'.s_queue sp = []
  others : ∀ sp', sp' ≠ sp → s'.s_queue sp' = s.s_queue sp'
  cnt : s'.s_cnt = s.s_cnt
  log : s'.log = s.log ++ (s.s_queue sp).reverse.map fun tp => .released tp sp .reset
  told : ∀ tp ∈ s.s_queue sp, s'.core.waiting tp = none ∧ s'.core.rdymsg tp = MSG_RESET
  kept : ∀ tp, tp ∉ s.s_queue sp →
    s'.core.waiting tp = s.core.waiting tp ∧ s'.core.rdymsg tp = s.core.rdymsg tp

theorem Base.resetLoop {rounds : Nat} (base : Base idle s) (length : (s.s_queue sp).length = rounds) :
    Emptied idle sp s (Sems.resetLoop sp rounds s) := by
  induction rounds generalizing s with
  | zero =>
      have nil := List.eq_nil_of_length_eq_zero length
      refine ⟨base, nil, fun _ _ => rfl, rfl, ?_, ?_, fun _ _ => ⟨rfl, rfl⟩⟩
      · rw [nil]
        exact (List.append_nil _).symm
      · simp [nil]
  | succ rounds ih =>
      have nonempty : s.s_queue sp ≠ [] := List.ne_nil_of_length_eq_add_one length
      have last := List.getLast?_eq_some_getLast nonempty
      have split := List.dropLast_append_getLast nonempty
      have mem := List.getLast_mem nonempty
      generalize (s.s_queue sp).getLast nonempty = tp at last split mem
      have apart : tp ∉ (s.s_queue sp).dropLast := by
        intro before
        have nodup := base.queued.nodup sp
        rw [← split] at nodup
        exact (List.nodup_append.mp nodup).2.2 tp before tp (List.mem_singleton_self _) rfl
      have asleep : s.core.waiting tp ≠ none := by simp [base.mem_iff.mp mem]
      have woken : Core.Wakes idle tp Cause.reset.msg s.core
          ((s.core.chSchReadyI tp).setMsg tp MSG_RESET) :=
        base.core.ready_setMsg asleep MSG_RESET
      have released := base.release mem woken s.s_cnt
      rw [← dropLast_eq_erase (base.queued.nodup sp) last] at released
      simp only [Sems.resetLoop, last]
      have emptied := ih released (by simp [length])
      obtain ⟨base', queue, others, cnt, log, told, kept⟩ := emptied
      simp only [Function.update_self] at log told kept
      constructor
      · exact base'
      · exact queue
      · intro sp' other
        rw [others sp' other]
        exact Function.update_of_ne other _ _
      · exact cnt
      · rw [log, ← split]
        simp
      · intro t at_t
        rw [← split, List.mem_append, List.mem_singleton] at at_t
        rcases at_t with before | rfl
        · exact told t before
        · rw [(kept t apart).1, (kept t apart).2, woken.waiting, woken.rdymsg]
          exact ⟨Function.update_self _ _ _, Function.update_self _ _ _⟩
      · intro t off
        have differs : t ≠ tp := by
          rintro rfl
          exact off mem
        have before : t ∉ (s.s_queue sp).dropLast := fun h => off (List.mem_of_mem_dropLast h)
        rw [(kept t before).1, (kept t before).2, woken.waiting, woken.rdymsg,
          Function.update_of_ne differs, Function.update_of_ne differs]
        exact ⟨rfl, rfl⟩

omit [DecidableEq T] in
/-- Releases by a reset cost no unit. -/
theorem account_released (n : Nat) (sp sp' : S) (log : List (SemEvent T S)) (l : List T) :
    account n sp' (log ++ l.map fun tp => .released tp sp .reset) = account n sp' log := by
  induction l generalizing log with
  | nil => simp
  | cons tp l ih =>
      rw [List.map_cons, List.append_cons, ih, account_concat]
      rfl

theorem Inv.chSemResetI (inv : Inv idle units s) (sp : S) (n : Nat) :
    Inv idle units (s.chSemResetI sp n) := by
  have length := (inv.counted sp).length
  have noted : Base idle
      { s with s_cnt := Function.update s.s_cnt sp n, log := s.log ++ [.reset sp n] } :=
    inv.base.note _ (fun _ => rfl) _
  have rounds : (s.s_queue sp).length = (-s.s_cnt sp).toNat := by omega
  have emptied := noted.resetLoop rounds
  refine ⟨emptied.base, ?_⟩
  intro sp'
  have queue := emptied.queue
  have log : account (units sp') sp' _ = account (units sp') sp' _ :=
    congrArg (account (units sp') sp') emptied.log
  rw [account_released, account_concat] at log
  by_cases same : sp' = sp
  · subst same
    simp only [credit, if_true] at log
    constructor
    · simp only [Sems.chSemResetI, emptied.cnt, queue, Function.update_self, List.length_nil,
        Nat.cast_zero]
      omega
    · simp only [Sems.chSemResetI, emptied.cnt, queue, Function.update_self, List.length_nil,
        Nat.cast_zero, log,
        add_zero]
  · simp only [credit, if_neg (Ne.symm same)] at log
    apply (inv.counted sp').of_same
    · exact emptied.others sp' same
    · simp only [Sems.chSemResetI, emptied.cnt, Function.update_of_ne same]
    · exact log

theorem Inv.chSemReset (inv : Inv idle units s) (sp : S) (n : Nat) :
    Inv idle units (s.chSemReset sp n) :=
  (inv.chSemResetI sp n).reschedule

/-- The thread of an expired timer is on the queue of a semaphore, or ready already. -/
theorem Base.fired_cases (base : Base idle s) (unlocked : s.Unlocked) (fired : s.fired = some tp) :
    (∃ sp, s.core.p_state tp = .WAIT (.WTSEM sp)) ∨ s.core.p_state tp = .READY := by
  have inside := base.timed tp (.inr fired)
  have holds := base.holds tp
  cases eq : phase tp s.log with
  | outside =>
      rw [eq] at holds
      exact absurd holds.1 inside
  | queued sp =>
      rw [eq] at holds
      exact .inl ⟨sp, Core.waiting_eq_some.mp holds.2⟩
  | released sp cause =>
      rw [eq] at holds
      rcases Core.waiting_eq_none.mp holds.2.1 with ready | current
      · exact .inr ready
      · -- The current thread is not in a call.
        have same := (base.core.inv.current tp).mp current
        rw [Unlocked, ← same] at unlocked
        exact absurd unlocked inside
  | broken =>
      rw [eq] at holds
      exact holds.elim

theorem Inv.wakeup (inv : Inv idle units s) (unlocked : s.Unlocked) (fired : s.fired = some tp) :
    Inv idle units (s.wakeup tp) := by
  rcases inv.base.fired_cases unlocked fired with ⟨sp, state⟩ | ready
  · have waits := Core.waiting_eq_some.mpr state
    have mem := inv.base.mem_iff.mpr waits
    have woken : Core.Wakes idle tp Cause.timer.msg s.core
        ((s.core.setMsg tp MSG_TIMEOUT).chSchReadyI tp) :=
      inv.base.core.setMsg_ready (by simp [waits]) MSG_TIMEOUT
    have length := (inv.counted sp).length
    have balance := (inv.counted sp).balance
    have erased := List.length_erase_of_mem mem
    have some_waits := List.length_pos_of_mem mem
    simp only [Sems.wakeup, state]
    refine ⟨inv.base.release mem woken _, ?_⟩
    intro sp'
    by_cases same : sp' = sp
    · subst same
      constructor
      · simp only [Function.update_self, erased]
        omega
      · simp only [account_concat, credit, Function.update_self, erased]
        omega
    · apply (inv.counted sp').of_same
      · exact Function.update_of_ne same _ _
      · exact Function.update_of_ne same _ _
      · rw [account_concat]
        rfl
  · simp only [Sems.wakeup, ready]
    exact inv

theorem Inv.callback (inv : Inv idle units s) (unlocked : s.Unlocked) (fired : s.fired = some tp) :
    Inv idle units (s.callback tp) := by
  have woken := inv.wakeup unlocked fired
  refine ⟨⟨woken.base.core, woken.base.queued, woken.base.holds, ?_⟩,
    fun sp => (woken.counted sp).of_same rfl rfl rfl⟩
  rintro t (armed | fired)
  · exact woken.base.timed t (.inl armed)
  · cases fired

theorem Inv.expire (inv : Inv idle units s) (armed : s.timer tp = true) :
    Inv idle units (s.expire tp) := by
  refine ⟨⟨inv.base.core, inv.base.queued, inv.base.holds, ?_⟩,
    fun sp => (inv.counted sp).of_same rfl rfl rfl⟩
  rintro t (still | now)
  · apply inv.base.timed t
    by_cases same : t = tp
    · exact .inl (same ▸ armed)
    · change Function.update s.timer tp false t = true at still
      rw [Function.update_of_ne same] at still
      exact .inl still
  · cases now
    exact inv.base.timed tp (.inl armed)

/-! ### Runs -/

theorem Start.inv (start : Start idle units s) : Inv idle units s := by
  have off : ∀ t, place s.core.waiting t = none := by
    intro t
    rcases start.asleep t with awake | other
    · simp [place, awake]
    · simp [place, other, semOf]
  refine ⟨⟨start.core, ⟨?_, ?_⟩, ?_, ?_⟩, ?_⟩
  · intro sp t
    rw [start.queue, off]
    simp
  · intro sp
    rw [start.queue]
    exact List.nodup_nil
  · intro t
    rw [start.log]
    exact ⟨start.pc t, off t⟩
  · intro t
    simp [start.timer, start.fired]
  · intro sp
    constructor
    · rw [start.queue, start.count]
      simp
    · rw [start.queue, start.count, start.log]
      simp [account]

theorem Inv.resume (inv : Inv idle units s) (inside : s.pc s.core.currp = some sp)
    (calm : s.fired = none) :
    Inv idle units (s.resume sp) := by
  refine ⟨inv.base.resume inside (by simp [calm]), ?_⟩
  intro sp'
  apply (inv.counted sp').of_same
  · rfl
  · rfl
  · simp only [Sems.resume, account_concat, credit]

theorem Inv.isr {s' : Sems T S} (inv : Inv idle units s) (unlocked : s.Unlocked) (isr : Isr s s') :
    Inv idle units s' := by
  cases isr with
  | expire tp calm armed => exact inv.expire armed
  | callback tp fired => exact inv.callback unlocked fired
  | ready tp msg waits =>
      have base := inv.base.wakes_other waits (inv.base.core.setMsg_ready (by simp [waits]) msg)
      exact ⟨base, fun sp => (inv.counted sp).of_same rfl rfl rfl⟩
  | tick => exact inv.quiet inv.base.core.tick

theorem Inv.thread {s' : Sems T S} (inv : Inv idle units s) (out : s.pc s.core.currp = none)
    (thread : Thread idle s s') : Inv idle units s' := by
  cases thread with
  | sleep other =>
      have base := inv.base.sleeps_other out (inv.base.core.goSleep other .OTHER)
      exact ⟨base, fun sp => (inv.counted sp).of_same rfl rfl rfl⟩
  | wakeup tp msg waits =>
      have base := inv.base.wakes_other waits (inv.base.core.wakeup (by simp [waits]) msg)
      exact ⟨base, fun sp => (inv.counted sp).of_same rfl rfl rfl⟩
  | switch switch => exact inv.quiet (inv.base.core.switch switch)

theorem Step.inv {s' : Sems T S} (step : Step idle s s') (inv : Inv idle units s) :
    Inv idle units s' := by
  cases step with
  | wait sp running other => exact inv.chSemWaitS running.1 other sp
  | waitTimeout sp time running other => exact inv.chSemWaitTimeoutS running.1 other sp time
  | signal sp _ => exact inv.chSemSignal sp
  | signalI sp _ => exact inv.chSemSignalI sp
  | addCounterI sp n _ => exact inv.chSemAddCounterI sp n
  | signalWait sps spw running other => exact inv.chSemSignalWait running.1 other sps spw
  | reset sp n _ => exact inv.chSemReset sp n
  | resetI sp n _ => exact inv.chSemResetI sp n
  | resume sp inside calm => exact inv.resume inside calm
  | isr unlocked isr => exact inv.isr unlocked isr
  | thread running thread => exact inv.thread running.1 thread

theorem Reachable.inv (reachable : Reachable idle units s) : Inv idle units s := by
  obtain ⟨s₀, start, run⟩ := reachable
  induction run with
  | refl => exact start.inv
  | tail _ step ih => exact step.inv ih

/-! ### The atomicity of signal and wait -/

/-- The events of the signal that `chSemSignalWait` starts with. -/
theorem signalRound_log (s : Sems T S) (sp : S) :
    ∃ woken : List T, woken.length ≤ 1 ∧
      (s.signalRound sp).log = s.log ++ .signal sp :: woken.map fun tp =>
        .released tp sp .signal := by
  simp only [signalRound, signalWith]
  split
  · split
    · exact ⟨[], by simp, rfl⟩
    · next tp rest _ =>
      refine ⟨[tp], by simp, ?_⟩
      simp [give]
  · exact ⟨[], by simp, rfl⟩

theorem signalRound_s_cnt (s : Sems T S) (sp : S) :
    (s.signalRound sp).s_cnt = Function.update s.s_cnt sp (s.s_cnt sp + 1) := by
  simp only [signalRound, signalWith]
  split
  · split <;> rfl
  · rfl

/-- What another thread finds after `chSemSignalWait`: both counters are changed, and the
history has the signal and the wait next to each other. -/
structure Atomic (sps spw : S) (s s' : Sems T S) : Prop where
  counters : ∃ signalled : S → Int, signalled = Function.update s.s_cnt sps (s.s_cnt sps + 1) ∧
    s'.s_cnt = Function.update signalled spw (signalled spw - 1)
  log : ∃ (woken : List T) (last : SemEvent T S), woken.length ≤ 1 ∧
    (last = .passed s.core.currp spw ∨ last = .queued s.core.currp spw) ∧
    s'.log = s.log ++ .signal sps :: (woken.map fun tp => .released tp sps .signal) ++ [last]

theorem chSemSignalWait_atomic (s : Sems T S) (sps spw : S) :
    Atomic sps spw s (s.chSemSignalWait sps spw).2 := by
  obtain ⟨woken, one, log⟩ := signalRound_log s sps
  simp only [chSemSignalWait]
  split_ifs
  · constructor
    · refine ⟨_, rfl, ?_⟩
      simp [sleepOn, take, signalRound_s_cnt]
    · refine ⟨woken, .queued s.core.currp spw, one, .inr rfl, ?_⟩
      simp only [sleepOn, take, log, signalRound_currp]
  · constructor
    · refine ⟨_, rfl, ?_⟩
      simp [reschedule, pass, take, signalRound_s_cnt]
    · refine ⟨woken, .passed s.core.currp spw, one, .inl rfl, ?_⟩
      simp only [reschedule, pass, take, log, signalRound_currp]

/-! ### What the calls come to -/

/-- A wait takes a unit and answers `MSG_OK`, or is refused with `MSG_TIMEOUT`, or its caller
sleeps at the end of the queue, with its timer armed if it has a finite time. -/
inductive Waited (sp : S) (time : Timeout) (s : Sems T S) : Option Int × Sems T S → Prop where
  | passed {s' : Sems T S} (enough : 0 < s.s_cnt sp)
      (cnt : s'.s_cnt = Function.update s.s_cnt sp (s.s_cnt sp - 1))
      (queue : s'.s_queue = s.s_queue) (pc : s'.pc = s.pc)
      (log : s'.log = s.log ++ [.passed s.core.currp sp]) : Waited sp time s (some MSG_OK, s')
  | refused {s' : Sems T S} (short : s.s_cnt sp ≤ 0) (immediate : time = .immediate)
      (cnt : s'.s_cnt = s.s_cnt) (queue : s'.s_queue = s.s_queue) (pc : s'.pc = s.pc)
      (log : s'.log = s.log ++ [.refused s.core.currp sp]) :
      Waited sp time s (some MSG_TIMEOUT, s')
  | asleep {s' : Sems T S} (short : s.s_cnt sp ≤ 0) (blocks : time ≠ .immediate)
      (cnt : s'.s_cnt = Function.update s.s_cnt sp (s.s_cnt sp - 1))
      (queue : s'.s_queue = Function.update s.s_queue sp (s.s_queue sp ++ [s.core.currp]))
      (state : s'.core.p_state s.core.currp = .WAIT (.WTSEM sp))
      (timer : s'.timer s.core.currp = decide (time = .finite))
      (pc : s'.pc s.core.currp = some sp)
      (log : s'.log = s.log ++ [.queued s.core.currp sp]) : Waited sp time s (none, s')

/-- A thread is awake, with a message. -/
def Told (s : Sems T S) (tp : T) (msg : Int) : Prop :=
  s.core.waiting tp = none ∧ s.core.rdymsg tp = msg

/-- A unit is signalled; the first thread on the queue gets it. -/
structure Signalled (sp : S) (s s' : Sems T S) : Prop where
  cnt : s'.s_cnt = Function.update s.s_cnt sp (s.s_cnt sp + 1)
  nobody : s.s_queue sp = [] → s'.s_queue = s.s_queue ∧ s'.log = s.log ++ [.signal sp]
  first : ∀ tp rest, s.s_queue sp = tp :: rest →
    s'.s_queue = Function.update s.s_queue sp rest ∧
      s'.log = s.log ++ [.signal sp, .released tp sp .signal] ∧ s'.Told tp MSG_OK

/-- A semaphore is reset: every thread on its queue is released. -/
structure Reset (sp : S) (n : Nat) (s s' : Sems T S) : Prop where
  cnt : s'.s_cnt = Function.update s.s_cnt sp n
  queue : s'.s_queue = Function.update s.s_queue sp []
  log : s'.log = s.log ++ .reset sp n ::
    (s.s_queue sp).reverse.map fun tp => .released tp sp .reset
  told : ∀ tp ∈ s.s_queue sp, s'.Told tp MSG_RESET

/-- The timer of a thread has expired: one that is on a queue is released from it, and for one
that was released before nothing changes. -/
structure Expired (tp : T) (s s' : Sems T S) : Prop where
  late : ∀ sp, tp ∈ s.s_queue sp → s'.s_cnt = Function.update s.s_cnt sp (s.s_cnt sp + 1) ∧
    s'.s_queue = Function.update s.s_queue sp ((s.s_queue sp).erase tp) ∧
    s'.log = s.log ++ [.released tp sp .timer] ∧ s'.Told tp MSG_TIMEOUT
  early : (∀ sp, tp ∉ s.s_queue sp) → s' = { s with fired := none }

theorem Inv.waited (inv : Inv idle units s) (other : s.core.currp ≠ idle) (sp : S)
    (time : Timeout) : Waited sp time s (s.chSemWaitTimeoutS sp time) := by
  have state : (s.core.chSchGoSleepS (.WTSEM sp)).p_state s.core.currp = .WAIT (.WTSEM sp) := by
    rw [← Core.waiting_eq_some, (inv.base.core.goSleep other _).waiting, Function.update_self]
  have cnt : (s.take sp).s_cnt sp = s.s_cnt sp - 1 := Function.update_self _ _ _
  simp only [Sems.chSemWaitTimeoutS, cnt]
  split_ifs with short immediate
  · apply Waited.refused (by omega) immediate
    · funext sp'
      by_cases same : sp' = sp
      · subst same
        simp [take]
      · simp [take, same]
    · rfl
    · rfl
    · rfl
  · exact .asleep (by omega) immediate rfl rfl state (Function.update_self _ _ _)
      (Function.update_self _ _ _) rfl
  · exact .passed (by omega) rfl rfl rfl rfl

omit [DecidableEq S] in
/-- `chSemWaitS` waits as long as it takes. -/
theorem chSemWaitS_eq [DecidableEq S] (s : Sems T S) (sp : S) :
    s.chSemWaitS sp = s.chSemWaitTimeoutS sp .infinite := by
  simp [chSemWaitS, chSemWaitTimeoutS]

theorem Inv.signalled (inv : Inv idle units s) {wake : Core T (SemWait S) → T → Core T (SemWait S)}
    (wakes : ∀ tp, s.core.waiting tp ≠ none → Core.Wakes idle tp MSG_OK s.core (wake s.core tp))
    (sp : S) : Signalled sp s (s.signalWith wake sp) := by
  by_cases neg : s.s_cnt sp < 0
  · obtain ⟨tp, rest, queue⟩ := (inv.counted sp).queue_cons neg
    have woken := wakes tp (by simp [inv.base.mem_iff.mp (queue ▸ List.mem_cons_self)])
    rw [signalWith_neg neg queue]
    refine ⟨rfl, fun nil => absurd (queue.symm.trans nil) (by simp), ?_⟩
    intro tp' rest' eq
    obtain ⟨rfl, rfl⟩ := List.cons.inj (queue.symm.trans eq)
    refine ⟨rfl, ?_, ?_, ?_⟩
    · simp [give]
    · change (wake s.core tp).waiting tp = none
      rw [woken.waiting, Function.update_self]
    · change (wake s.core tp).rdymsg tp = MSG_OK
      rw [woken.rdymsg, Function.update_self]
  · rw [not_lt] at neg
    have nil := (inv.counted sp).queue_nil neg
    rw [signalWith_nonneg neg]
    exact ⟨rfl, fun _ => ⟨rfl, rfl⟩, fun tp rest eq => absurd (nil.symm.trans eq) (by simp)⟩

theorem Inv.signalled_round (inv : Inv idle units s) (sp : S) :
    Signalled sp s (s.signalRound sp) :=
  inv.signalled (fun _ asleep => inv.base.core.ready_setMsg asleep MSG_OK) sp

/-- The wait of `chSemSignalWait` is one for the semaphore as it is after the signal. -/
theorem Inv.waited_signalWait (inv : Inv idle units s) (other : s.core.currp ≠ idle) (sps spw : S) :
    Waited spw .infinite (s.signalRound sps) (s.chSemSignalWait sps spw) := by
  have waited := (inv.signalRound sps).waited (by rwa [signalRound_currp]) spw .infinite
  rw [← chSemWaitS_eq] at waited
  simp only [Sems.chSemWaitS, Sems.chSemSignalWait] at waited ⊢
  split_ifs at waited ⊢
  · exact waited
  · generalize hs : ((s.signalRound sps).take spw).pass spw = passed at waited
    cases waited with
    | passed enough cnt queue pc log => exact .passed enough cnt queue pc log

theorem Inv.reset (inv : Inv idle units s) (sp : S) (n : Nat) : Reset sp n s (s.chSemResetI sp n) := by
  have noted : Base idle
      { s with s_cnt := Function.update s.s_cnt sp n, log := s.log ++ [.reset sp n] } :=
    inv.base.note _ (fun _ => rfl) _
  have length := (inv.counted sp).length
  have rounds : (s.s_queue sp).length = (-s.s_cnt sp).toNat := by omega
  have emptied := noted.resetLoop rounds
  refine ⟨emptied.cnt, ?_, ?_, emptied.told⟩
  · funext sp'
    by_cases same : sp' = sp
    · subst same
      rw [Function.update_self]
      exact emptied.queue
    · rw [Function.update_of_ne same]
      exact emptied.others sp' same
  · exact emptied.log.trans (List.append_assoc _ _ _)

theorem Inv.expired (inv : Inv idle units s) (unlocked : s.Unlocked) (fired : s.fired = some tp) :
    Expired tp s (s.callback tp) := by
  rcases inv.base.fired_cases unlocked fired with ⟨sp, state⟩ | ready
  · have waits := Core.waiting_eq_some.mpr state
    have mem := inv.base.mem_iff.mpr waits
    have woken : Core.Wakes idle tp MSG_TIMEOUT s.core
        ((s.core.setMsg tp MSG_TIMEOUT).chSchReadyI tp) :=
      inv.base.core.setMsg_ready (by simp [waits]) MSG_TIMEOUT
    refine ⟨?_, fun off => absurd mem (off sp)⟩
    intro sp' mem'
    have same := (inv.base.mem_iff.mp mem').symm.trans waits
    simp only [Option.some.injEq, SemWait.WTSEM.injEq] at same
    subst same
    simp only [Sems.callback, Sems.wakeup, state]
    refine ⟨trivial, trivial, trivial, ?_, ?_⟩
    · exact (congrFun woken.waiting tp).trans (Function.update_self _ _ _)
    · exact (congrFun woken.rdymsg tp).trans (Function.update_self _ _ _)
  · constructor
    · intro sp mem
      have waits := Core.waiting_eq_some.mp (inv.base.mem_iff.mp mem)
      exact absurd (ready.symm.trans waits) (by simp)
    · intro _
      simp only [Sems.callback, Sems.wakeup, ready]

/-! ### Semaphore accounting -/

/-- The semaphores as their users see them. -/
structure Accounting (idle : T) (units : S → Nat) (s : Sems T S) : Prop where
  length : ∀ sp, ((s.s_queue sp).length : Int) = max 0 (-s.s_cnt sp)
  balance : ∀ sp, account (units sp) sp s.log = s.s_cnt sp + (s.s_queue sp).length
  asleep : ∀ sp t, t ∈ s.s_queue sp ↔ s.core.p_state t = .WAIT (.WTSEM sp)
  nodup : ∀ sp, (s.s_queue sp).Nodup
  queued : ∀ sp t, t ∈ s.s_queue sp ↔ phase t s.log = .queued sp
  once : ∀ t, phase t s.log ≠ .broken
  returns : ∀ sp t, s.core.p_state t = .CURRENT → s.pc t = some sp →
    ∃ cause, phase t s.log = .released sp cause ∧ s.core.rdymsg t = cause.msg
  atomic : ∀ sps spw, Atomic sps spw s (s.chSemSignalWait sps spw).2
  waits : s.core.currp ≠ idle → ∀ sp, Waited sp .infinite s (s.chSemWaitS sp) ∧
    (∀ time, Waited sp time s (s.chSemWaitTimeoutS sp time)) ∧
    ∀ sps, Waited sp .infinite (s.signalRound sps) (s.chSemSignalWait sps sp)
  signals : ∀ sp, Signalled sp s (s.chSemSignal sp) ∧ Signalled sp s (s.chSemSignalI sp) ∧
    Signalled sp s (s.signalRound sp) ∧
    ∀ n, Signalled sp (s.chSemAddCounterI sp n) (s.chSemAddCounterI sp (n + 1))
  resets : ∀ sp n, Reset sp n s (s.chSemResetI sp n) ∧ Reset sp n s (s.chSemReset sp n)
  expires : s.Unlocked → ∀ tp, s.fired = some tp → Expired tp s (s.callback tp)

theorem Inv.accounting (inv : Inv idle units s) : Accounting idle units s where
  length sp := (inv.counted sp).length
  balance sp := (inv.counted sp).balance
  asleep sp t := inv.base.mem_iff.trans Core.waiting_eq_some
  nodup := inv.base.queued.nodup
  queued sp t := by
    constructor
    · exact inv.base.phase_queued
    · intro eq
      have holds := inv.base.holds t
      rw [eq] at holds
      exact inv.base.mem_iff.mpr holds.2
  once t eq := by
    have holds := inv.base.holds t
    rw [eq] at holds
    exact holds
  returns sp t current inside := by
    have awake := Core.waiting_eq_none.mpr (.inr current)
    have holds := inv.base.holds t
    rw [awake, inside] at holds
    cases eq : phase t s.log with
    | outside =>
        rw [eq] at holds
        exact absurd holds.1 (by simp)
    | queued sp' =>
        rw [eq] at holds
        exact absurd holds.2 (by simp)
    | released sp' cause =>
        rw [eq] at holds
        have same : sp = sp' := Option.some.inj holds.1
        exact ⟨cause, by rw [same], holds.2.2⟩
    | broken =>
        rw [eq] at holds
        exact holds.elim
  atomic := chSemSignalWait_atomic s
  waits other sp := ⟨chSemWaitS_eq s sp ▸ inv.waited other sp .infinite,
    fun time => inv.waited other sp time, fun sps => inv.waited_signalWait other sps sp⟩
  signals sp := ⟨inv.signalled (fun _ asleep => inv.base.core.wakeup asleep MSG_OK) sp,
    inv.signalled (fun _ asleep => inv.base.core.setMsg_ready asleep MSG_OK) sp,
    inv.signalled_round sp, fun n => (inv.chSemAddCounterI sp n).signalled_round sp⟩
  resets sp n := by
    have reset := inv.reset sp n
    have quiet := (inv.chSemResetI sp n).base.core.reschedule
    refine ⟨reset, reset.cnt, reset.queue, reset.log, fun tp mem => ?_⟩
    have told := reset.told tp mem
    exact ⟨(congrFun quiet.waiting tp).trans told.1, (congrFun quiet.rdymsg tp).trans told.2⟩
  expires unlocked tp fired := inv.expired unlocked fired

/-- In every run of any number of threads and interrupt handlers the queue of a semaphore is
as long as its counter says, no unit is lost or made, every queued thread is released
once, with the message of what released it, and signal and wait are one step. What the
calls answer is what they did: `MSG_OK` for a unit taken, `MSG_TIMEOUT` for a wait that is
refused. -/
theorem semaphore_accounting (idle : T) (units : S → Nat) (s : Sems T S)
    (reachable : Reachable idle units s) :
    Accounting idle units s :=
  reachable.inv.accounting

end Proofs

/-! ### An example -/

/-- The idle thread and one other, which is current; no semaphore has a unit. -/
def sampleStart : Sems Bool Unit where
  core :=
    { p_prio := fun t => if t then 128 else IDLEPRIO
      p_state := fun t => if t then .CURRENT else .READY
      p_preempt := fun _ => CH_CFG_TIME_QUANTUM
      rdymsg := fun _ => MSG_OK
      ready := [false]
      currp := true
      log := [] }
  s_cnt := fun _ => 0
  s_queue := fun _ => []
  timer := fun _ => false
  fired := none
  pc := fun _ => none
  log := []

theorem sampleStart_start : Start false (fun _ => 0) sampleStart where
  core :=
    { inv :=
        { sorted := by simp [Prio.Descending, sampleStart]
          nodup := by decide
          mem_ready := by decide
          current := by decide
          awake := by decide }
      pos := by decide }
  asleep := by decide
  count _ := rfl
  queue _ := rfl
  timer _ := rfl
  fired := rfl
  pc _ := rfl
  log := rfl

/-- The thread waits with a timeout, and its timer expires before the wait is signalled. -/
def sampleExpired : Sems Bool Unit :=
  (((sampleStart.chSemWaitTimeoutS () .finite).2.expire true).callback true).chSemSignalI ()

theorem sampleExpired_reachable : Reachable false (fun _ => 0) sampleExpired := by
  refine ⟨sampleStart, sampleStart_start, ?_⟩
  have first : Step false sampleStart (sampleStart.chSemWaitTimeoutS () .finite).2 :=
    .waitTimeout () .finite ⟨rfl, rfl⟩ (by decide)
  have run₂ := (Relation.ReflTransGen.single first).tail (.isr rfl (.expire true rfl rfl))
  have run₃ := run₂.tail (.isr rfl (.callback true rfl))
  exact run₃.tail (.signalI () rfl)

theorem sampleExpired_accounting :
    Accounting false (fun _ => 0) sampleExpired ∧ sampleExpired.s_cnt () = 1 ∧
      sampleExpired.core.rdymsg true = MSG_TIMEOUT :=
  ⟨semaphore_accounting false _ _ sampleExpired_reachable, by decide, by decide⟩

end Sems

end LtcOs.Kernel
