import LtcOs.Kernel.Effect
import LtcOs.Kernel.Events
import LtcOs.Lib.Waiting
import Mathlib.Data.Fintype.Card

/-!
The kernel as the scheduler sees it.

All objects a thread can wait for are here together, with every function of the kernel that a
thread may call: threads, semaphores, mutexes, condition variables, events, mailboxes and
messages. What matters is which threads a call makes ready, and whether the scheduler is asked
to choose again before the lock is given up. Contents of mailboxes and messages are left to
the modules about them.

A call ends, or sleeps and goes on when its thread runs again. Handlers of interrupts run as a
whole, from their first call to `_port_irq_epilogue`.
-/

namespace LtcOs.Kernel

open LtcOs.Prio

/-- A semaphore of its own, or one of the two of a mailbox. -/
inductive Sem (O : Type) where
  | sem (sp : O)
  | emptysem (mbp : O)
  | fullsem (mbp : O)
deriving DecidableEq, Repr

/-- The states of threads that sleep, with the object they wait for. An area that was never
used for a thread is `UNUSED`. -/
inductive RtWait (T O : Type) where
  | UNUSED
  | WTSTART
  | SUSPENDED (trp : O)
  | WTSEM (sp : Sem O)
  | WTMTX (mp : O)
  | WTCOND (cp : O)
  | SLEEPING
  | WTEXIT (tp : T)
  | WTOREVT (ewmask : BitVec 32)
  | WTANDEVT (ewmask : BitVec 32)
  | SNDMSGQ (tp : T)
  | SNDMSG
  | WTMSG
  | FINAL
deriving DecidableEq, Repr

/-- The lists of waiting threads. A thread reference is one of at most one thread. -/
inductive RtQueue (T O : Type) where
  | ref (trp : O)
  | sem (sp : Sem O)
  | mtx (mp : O)
  | cond (cp : O)
  | exit (tp : T)
  | msg (tp : T)
deriving DecidableEq, Repr

/-- The states a thread can sleep in with a timeout. -/
def RtWait.timed {T O : Type} : RtWait T O → Bool
  | .SUSPENDED _ => true
  | .WTSEM _ => true
  | .WTCOND _ => true
  | .SLEEPING => true
  | .WTOREVT _ => true
  | .WTANDEVT _ => true
  | _ => false

/-- The list a sleeping thread is on. -/
def RtWait.queue {T O : Type} : RtWait T O → Option (RtQueue T O)
  | .SUSPENDED trp => some (.ref trp)
  | .WTSEM sp => some (.sem sp)
  | .WTMTX mp => some (.mtx mp)
  | .WTCOND cp => some (.cond cp)
  | .WTEXIT tp => some (.exit tp)
  | .SNDMSGQ tp => some (.msg tp)
  | _ => none

/-- What a thread does after it slept in a call: it returns, gives a unit of the other
semaphore of a mailbox, locks a mutex again, takes its events, or takes a message. -/
inductive RtPc (O : Type) where
  | outside
  | returns
  | transfer (gives : Sem O)
  | relock (mp : O) (timed : Bool)
  | events (kind : EvKind) (events : BitVec 32) (timed : Bool)
  | receive
deriving DecidableEq, Repr

/-- Threads `T` and objects `O`. -/
structure Rt (T O : Type) where
  core : Core T (RtWait T O)
  p_realprio : T → Nat
  queue : RtQueue T O → List T
  s_cnt : Sem O → Int
  m_owner : O → Option T
  p_mtxlist : T → List O
  p_epending : T → BitVec 32
  es_next : O → List O
  el : O → Listener T
  mb_size : O → Nat
  timer : T → Bool
  pc : T → RtPc O

variable {T O : Type}

namespace Rt

/-! ### Waking and sleeping -/

def prio (s : Rt T O) : T → Nat := s.core.p_prio

section Code

variable [DecidableEq T] [DecidableEq O]

/-- A way to wake a thread. -/
abbrev Wake (T O : Type) := Core T (RtWait T O) → T → Core T (RtWait T O)

def msgReady (msg : Int) : Wake T O := fun c tp => (c.setMsg tp msg).chSchReadyI tp

def readyMsg (msg : Int) : Wake T O := fun c tp => (c.chSchReadyI tp).setMsg tp msg

def readyI : Wake T O := fun c tp => c.chSchReadyI tp

def wakeupS (msg : Int) : Wake T O := fun c tp => c.chSchWakeupS tp msg

/-- `queue_fifo_remove`, and the thread is woken. -/
def wakeFirst (wake : Wake T O) (s : Rt T O) (q : RtQueue T O) : Rt T O :=
  match s.queue q with
  | [] => s
  | tp :: rest => { s with queue := Function.update s.queue q rest, core := wake s.core tp }

/-- One round for each thread on the queue. -/
def wakeAll (wake : Wake T O) (q : RtQueue T O) : (rounds : Nat) → Rt T O → Rt T O
  | 0, s => s
  | rounds + 1, s => wakeAll wake q rounds (s.wakeFirst wake q)

/-- The current thread sleeps, on the queues as given, and knows how to go on. -/
def goSleep (s : Rt T O) (queue : RtQueue T O → List T) (newstate : RtWait T O) (timed : Bool)
    (pc : RtPc O) : Rt T O :=
  { s with
    queue := queue
    core := s.core.chSchGoSleepS newstate
    timer := Function.update s.timer s.core.currp timed
    pc := Function.update s.pc s.core.currp pc }

/-- `queue_insert`, and the thread sleeps. -/
def sleepBehind (s : Rt T O) (q : RtQueue T O) (newstate : RtWait T O) (timed : Bool) (pc : RtPc O) :
    Rt T O :=
  s.goSleep (Function.update s.queue q (s.queue q ++ [s.core.currp])) newstate timed pc

/-- `queue_prio_insert`, and the thread sleeps. -/
def sleepByPrio (s : Rt T O) (q : RtQueue T O) (newstate : RtWait T O) (timed : Bool) (pc : RtPc O) :
    Rt T O :=
  s.goSleep (Function.update s.queue q (insertBehind s.prio s.core.currp (s.queue q))) newstate
    timed pc

def reschedule (s : Rt T O) : Rt T O := { s with core := s.core.chSchRescheduleS }

/-- The current thread leaves a call. -/
def leave (s : Rt T O) : Rt T O :=
  { s with
    timer := Function.update s.timer s.core.currp false
    pc := Function.update s.pc s.core.currp .outside }

/-! ### Threads -/

/-- `chThdCreateI`: the thread is there, and waits to be started. -/
def chThdCreateI (s : Rt T O) (tp : T) (prio : Nat) : Rt T O :=
  { s with
    core := ((s.core.setPrio tp prio).setState tp (.WAIT .WTSTART)).setPreempt tp
      CH_CFG_TIME_QUANTUM
    p_realprio := Function.update s.p_realprio tp prio
    p_mtxlist := Function.update s.p_mtxlist tp []
    p_epending := Function.update s.p_epending tp 0
    queue := Function.update (Function.update s.queue (.exit tp) []) (.msg tp) []
    timer := Function.update s.timer tp false
    pc := Function.update s.pc tp .outside }

/-- `chThdCreateStatic`, and `chThdCreateFromHeap` after its allocation. -/
def chThdCreateStatic (s : Rt T O) (tp : T) (prio : Nat) : Rt T O :=
  let s := s.chThdCreateI tp prio
  { s with core := s.core.chSchWakeupS tp MSG_OK }

def chThdStartI (s : Rt T O) (tp : T) : Rt T O := { s with core := s.core.chSchReadyI tp }

/-- There is no `chSchRescheduleS` here. -/
def chThdStart (s : Rt T O) (tp : T) : Rt T O := s.chThdStartI tp

def chThdSetPriority (s : Rt T O) (newprio : Nat) : Rt T O :=
  let ctp := s.core.currp
  let s :=
    if s.prio ctp = s.p_realprio ctp ∨ s.prio ctp < newprio then { s with core := s.core.setPrio ctp newprio } else s
  { s with p_realprio := Function.update s.p_realprio ctp newprio }.reschedule

/-- A time is `TIME_IMMEDIATE`, `TIME_INFINITE`, or a number of ticks. -/
def timeout (time : UInt32) : Timeout :=
  if time = 0 then .immediate else if time = 0xFFFFFFFF then .infinite else .finite

def chThdSleep (s : Rt T O) (time : Timeout) : Rt T O :=
  s.goSleep s.queue .SLEEPING (decide (time ≠ .infinite)) .returns

/-- The system time is `now`. -/
def chThdSleepUntil (s : Rt T O) (now time : UInt32) : Rt T O :=
  if 0 < time - now then s.chThdSleep (timeout (time - now)) else s

/-- The system time is `now`. -/
def chThdSleepUntilWindowed (s : Rt T O) (now prev next : UInt32) : Rt T O :=
  if now - prev < next - prev then s.chThdSleep (timeout (next - now)) else s

def chThdYield (s : Rt T O) : Rt T O := { s with core := s.core.chSchDoYieldS }

def chThdSuspendTimeoutS (s : Rt T O) (trp : O) (time : Timeout) : Rt T O :=
  if time = .immediate then s
  else s.goSleep (Function.update s.queue (.ref trp) [s.core.currp]) (.SUSPENDED trp)
    (decide (time = .finite)) .returns

def chThdResume (s : Rt T O) (trp : O) (msg : Int) : Rt T O := s.wakeFirst (wakeupS msg) (.ref trp)

def chThdResumeI (s : Rt T O) (trp : O) (msg : Int) : Rt T O :=
  s.wakeFirst (msgReady msg) (.ref trp)

def chThdExit (s : Rt T O) : Rt T O :=
  let ctp := s.core.currp
  let s := wakeAll readyI (.exit ctp) (s.queue (.exit ctp)).length s
  s.goSleep s.queue .FINAL false .returns

def chThdWait (s : Rt T O) (tp : T) : Rt T O :=
  if s.core.p_state tp = .WAIT .FINAL then s
  else s.goSleep (Function.update s.queue (.exit tp) (s.core.currp :: s.queue (.exit tp)))
    (.WTEXIT tp) false .returns

/-! ### Semaphores -/

def addCnt (s : Rt T O) (sp : Sem O) (n : Int) : Rt T O :=
  { s with s_cnt := Function.update s.s_cnt sp (s.s_cnt sp + n) }

/-- One unit; the first thread on the queue is woken in one of several ways. -/
def signalWith (wake : Wake T O) (s : Rt T O) (sp : Sem O) : Rt T O :=
  let s := s.addCnt sp 1
  if s.s_cnt sp ≤ 0 then s.wakeFirst wake (.sem sp) else s

def chSemSignal : Rt T O → Sem O → Rt T O := signalWith (wakeupS MSG_OK)

def chSemSignalI : Rt T O → Sem O → Rt T O := signalWith (msgReady MSG_OK)

def chSemAddCounterI (s : Rt T O) (sp : Sem O) : (n : Nat) → Rt T O
  | 0 => s
  | n + 1 => signalWith (readyMsg MSG_OK) (s.chSemAddCounterI sp n) sp

def chSemWait (s : Rt T O) (sp : Sem O) : Rt T O :=
  let s := s.addCnt sp (-1)
  if s.s_cnt sp < 0 then s.sleepBehind (.sem sp) (.WTSEM sp) false .returns else s

/-- `chSemWaitTimeoutS`, with what the thread does next; and whether it returns `MSG_OK` at
once. -/
def chSemWaitTimeoutS (s : Rt T O) (sp : Sem O) (time : Timeout) (pc : RtPc O) : Bool × Rt T O :=
  let s := s.addCnt sp (-1)
  if s.s_cnt sp < 0 then
    if time = .immediate then (false, s.addCnt sp 1)
    else (false, s.sleepBehind (.sem sp) (.WTSEM sp) (decide (time = .finite)) pc)
  else (true, s)

def chSemWaitTimeout (s : Rt T O) (sp : Sem O) (time : Timeout) : Rt T O :=
  (s.chSemWaitTimeoutS sp time .returns).2

def chSemSignalWait (s : Rt T O) (sps spw : Sem O) : Rt T O :=
  let s := (signalWith (readyMsg MSG_OK) s sps).addCnt spw (-1)
  if s.s_cnt spw < 0 then s.sleepBehind (.sem spw) (.WTSEM spw) false .returns else s.reschedule

/-- `queue_lifo_remove` in the loop of `chSemResetI`. -/
def resetLoop (sp : Sem O) : (rounds : Nat) → Rt T O → Rt T O
  | 0, s => s
  | rounds + 1, s =>
      match (s.queue (.sem sp)).getLast? with
      | none => s
      | some tp => resetLoop sp rounds { s with
          queue := Function.update s.queue (.sem sp) (s.queue (.sem sp)).dropLast
          core := readyMsg MSG_RESET s.core tp }

def chSemResetI (s : Rt T O) (sp : Sem O) (n : Int) : Rt T O :=
  let cnt := s.s_cnt sp
  resetLoop sp (-cnt).toNat { s with s_cnt := Function.update s.s_cnt sp n }

def chSemReset (s : Rt T O) (sp : Sem O) (n : Int) : Rt T O := (s.chSemResetI sp n).reschedule

def chBSemReset (s : Rt T O) (sp : Sem O) (taken : Bool) : Rt T O :=
  s.chSemReset sp (if taken then 0 else 1)

def chBSemSignalI (s : Rt T O) (sp : Sem O) : Rt T O :=
  if s.s_cnt sp < 1 then s.chSemSignalI sp else s

def chBSemSignal (s : Rt T O) (sp : Sem O) : Rt T O := (s.chBSemSignalI sp).reschedule

/-! ### Mutexes -/

/-- The reordering after a change of priority. -/
def requeue (s : Rt T O) (tp : T) : Rt T O :=
  let reorder (q : RtQueue T O) : Rt T O :=
    { s with queue := Function.update s.queue q (insertBehind s.prio tp ((s.queue q).erase tp)) }
  match s.core.p_state tp with
  | .WAIT (.WTMTX mp) => reorder (.mtx mp)
  | .WAIT (.WTCOND cp) => reorder (.cond cp)
  | .READY => { s with core := { s.core with ready := s.core.ready.erase tp }.chSchReadyI tp }
  | _ => s

/-- Make the priority of `tp` match that of the running thread. -/
def raise (s : Rt T O) (ctp tp : T) : Rt T O :=
  requeue { s with core := s.core.setPrio tp (s.prio ctp) } tp

theorem raise_prio (s : Rt T O) (ctp tp : T) :
    (s.raise ctp tp).prio = Function.update s.prio tp (s.prio ctp) := by
  unfold raise requeue
  dsimp only
  split <;> rfl

/-- The threads below the running thread. -/
def below [Fintype T] (s : Rt T O) (ctp : T) : Finset T :=
  Finset.univ.filter fun t => s.prio t < s.prio ctp

theorem below_raise [Fintype T] {s : Rt T O} {ctp tp : T} (less : s.prio tp < s.prio ctp) :
    (s.raise ctp tp).below ctp ⊂ s.below ctp := by
  have other : ctp ≠ tp := by
    rintro rfl
    exact absurd less (lt_irrefl _)
  have same : (s.raise ctp tp).prio ctp = s.prio ctp := by
    rw [raise_prio, Function.update_of_ne other]
  have self : (s.raise ctp tp).prio tp = s.prio ctp := by
    rw [raise_prio, Function.update_self]
  apply Finset.ssubset_iff_of_subset _ |>.mpr
  · refine ⟨tp, by simpa [below] using less, ?_⟩
    simp [below, same, self]
  · intro t mem
    simp only [below, Finset.mem_filter, Finset.mem_univ, true_and, same] at mem ⊢
    by_cases eq : t = tp
    · rw [eq]
      exact less
    · rw [raise_prio, Function.update_of_ne eq] at mem
      exact mem

/-- The loop of `chMtxLockS` along the owners. -/
def boost [Fintype T] (s : Rt T O) (ctp tp : T) : Rt T O :=
  if _less : s.prio tp < s.prio ctp then
    match (s.raise ctp tp).core.waiting tp with
    | some (.WTMTX mp) =>
        match (s.raise ctp tp).m_owner mp with
        | some owner => boost (s.raise ctp tp) ctp owner
        | none => s.raise ctp tp
    | _ => s.raise ctp tp
  else s
termination_by (s.below ctp).card
decreasing_by exact Finset.card_lt_card (below_raise _less)

/-- The thread `tp` becomes the owner of a mutex. -/
def own (s : Rt T O) (mp : O) (tp : T) : Rt T O :=
  { s with
    m_owner := Function.update s.m_owner mp (some tp)
    p_mtxlist := Function.update s.p_mtxlist tp (mp :: s.p_mtxlist tp) }

def chMtxLock [Fintype T] (s : Rt T O) (mp : O) : Rt T O :=
  match s.m_owner mp with
  | some tp => (s.boost s.core.currp tp).sleepByPrio (.mtx mp) (.WTMTX mp) false .returns
  | none => s.own mp s.core.currp

def chMtxTryLock (s : Rt T O) (mp : O) : Rt T O :=
  match s.m_owner mp with
  | some _ => s
  | none => s.own mp s.core.currp

/-- The highest priority among that of the thread itself and those of the first waiting
threads of the mutexes on a list. -/
def newprio (s : Rt T O) (ctp : T) (l : List O) : Nat :=
  l.foldl (fun p lmp => match s.queue (.mtx lmp) with
    | [] => p
    | tp :: _ => if p < s.prio tp then s.prio tp else p) (s.p_realprio ctp)

/-- The mutex goes to the first waiting thread, which becomes ready, or to nobody. -/
def handOff (s : Rt T O) (mp : O) : Rt T O :=
  match s.queue (.mtx mp) with
  | [] => { s with m_owner := Function.update s.m_owner mp none }
  | tp :: _ => (s.own mp tp).wakeFirst readyI (.mtx mp)

/-- `ctp->p_mtxlist = mp->m_next` for the mutex on top. -/
def pop (s : Rt T O) (ctp : T) : Rt T O :=
  { s with p_mtxlist := Function.update s.p_mtxlist ctp (s.p_mtxlist ctp).tail }

def chMtxUnlockS (s : Rt T O) (mp : O) : Rt T O :=
  let ctp := s.core.currp
  let s := s.pop ctp
  if s.queue (.mtx mp) ≠ [] then
    handOff { s with core := s.core.setPrio ctp (s.newprio ctp (s.p_mtxlist ctp)) } mp
  else s.handOff mp

def chMtxUnlock (s : Rt T O) (mp : O) : Rt T O :=
  if s.queue (.mtx mp) ≠ [] then (s.chMtxUnlockS mp).reschedule else s.chMtxUnlockS mp

/-- The loop of `chMtxUnlockAll`, one round for each mutex of the thread. -/
def unlockLoop (ctp : T) : (rounds : Nat) → Rt T O → Rt T O
  | 0, s => s
  | rounds + 1, s =>
      match s.p_mtxlist ctp with
      | [] => s
      | mp :: _ => unlockLoop ctp rounds ((s.pop ctp).handOff mp)

def chMtxUnlockAll (s : Rt T O) : Rt T O :=
  let ctp := s.core.currp
  if s.p_mtxlist ctp ≠ [] then
    let s := unlockLoop ctp (s.p_mtxlist ctp).length s
    reschedule { s with core := s.core.setPrio ctp (s.p_realprio ctp) }
  else s

/-! ### Condition variables -/

def chCondSignal (s : Rt T O) (cp : O) : Rt T O := s.wakeFirst (wakeupS MSG_OK) (.cond cp)

def chCondSignalI (s : Rt T O) (cp : O) : Rt T O := s.wakeFirst (msgReady MSG_OK) (.cond cp)

def chCondBroadcastI (s : Rt T O) (cp : O) : Rt T O :=
  wakeAll (readyMsg MSG_RESET) (.cond cp) (s.queue (.cond cp)).length s

def chCondBroadcast (s : Rt T O) (cp : O) : Rt T O := (s.chCondBroadcastI cp).reschedule

/-- The part of `chCondWaitS` and `chCondWaitTimeoutS` up to the sleep. -/
def condWait (s : Rt T O) (cp : O) (timed armed : Bool) : Rt T O :=
  match s.p_mtxlist s.core.currp with
  | [] => s
  | mp :: _ => (s.chMtxUnlockS mp).sleepByPrio (.cond cp) (.WTCOND cp) armed (.relock mp timed)

def chCondWait (s : Rt T O) (cp : O) : Rt T O := s.condWait cp false false

def chCondWaitTimeout (s : Rt T O) (cp : O) (time : Timeout) : Rt T O :=
  s.condWait cp true (decide (time ≠ .infinite))

/-! ### Events -/

/-- The test of `chEvtSignalI` on the AND/OR conditions wait states. -/
def awaited (pending : BitVec 32) : Status (RtWait T O) → Bool
  | .WAIT (.WTOREVT ewmask) => decide (pending &&& ewmask ≠ 0)
  | .WAIT (.WTANDEVT ewmask) => decide (pending &&& ewmask = ewmask)
  | _ => false

def chEvtSignalI (s : Rt T O) (tp : T) (events : BitVec 32) : Rt T O :=
  let s := { s with p_epending := Function.update s.p_epending tp (s.p_epending tp ||| events) }
  if awaited (s.p_epending tp) (s.core.p_state tp) then { s with core := msgReady MSG_OK s.core tp } else s

def chEvtSignal (s : Rt T O) (tp : T) (events : BitVec 32) : Rt T O :=
  (s.chEvtSignalI tp events).reschedule

/-- One round of `chEvtBroadcastFlagsI`. -/
def notify (flags : BitVec 32) (s : Rt T O) (elp : O) : Rt T O :=
  let l := { s.el elp with el_flags := (s.el elp).el_flags ||| flags }
  let s := { s with el := Function.update s.el elp l }
  if flags = 0 ∨ l.el_flags &&& l.el_wflags ≠ 0 then s.chEvtSignalI l.el_listener l.el_events else s

def chEvtBroadcastFlagsI (s : Rt T O) (esp : O) (flags : BitVec 32) : Rt T O :=
  (s.es_next esp).foldl (notify flags) s

def chEvtBroadcastFlags (s : Rt T O) (esp : O) (flags : BitVec 32) : Rt T O :=
  (s.chEvtBroadcastFlagsI esp flags).reschedule

def chEvtRegisterMaskWithFlags (s : Rt T O) (esp elp : O) (events wflags : BitVec 32) : Rt T O :=
  { s with
    es_next := Function.update s.es_next esp (elp :: s.es_next esp)
    el := Function.update s.el elp
      { el_listener := s.core.currp, el_events := events, el_flags := 0, el_wflags := wflags } }

def chEvtUnregister (s : Rt T O) (esp elp : O) : Rt T O :=
  { s with es_next := Function.update s.es_next esp ((s.es_next esp).erase elp) }

def chEvtGetAndClearFlags (s : Rt T O) (elp : O) : Rt T O :=
  { s with el := Function.update s.el elp { s.el elp with el_flags := 0 } }

/-- `p_epending &= ~m` for the current thread. -/
def clearEvents (s : Rt T O) (m : BitVec 32) : Rt T O :=
  let ctp := s.core.currp
  { s with p_epending := Function.update s.p_epending ctp (s.p_epending ctp &&& ~~~m) }

def chEvtGetAndClearEvents (s : Rt T O) (events : BitVec 32) : Rt T O := s.clearEvents events

def chEvtAddEvents (s : Rt T O) (events : BitVec 32) : Rt T O :=
  let ctp := s.core.currp
  { s with p_epending := Function.update s.p_epending ctp (s.p_epending ctp ||| events) }

/-- The end of a wait. -/
def takeEvents (s : Rt T O) (kind : EvKind) (events : BitVec 32) : Rt T O :=
  s.clearEvents (Events.served (s.p_epending s.core.currp) events kind)

/-- The state a wait sleeps in. -/
def waitState (events : BitVec 32) : EvKind → RtWait T O
  | .one => .WTOREVT events
  | .any => .WTOREVT events
  | .all => .WTANDEVT events

/-- `chEvtWaitOne`, `chEvtWaitAny` and `chEvtWaitAll`. -/
def chEvtWait (s : Rt T O) (kind : EvKind) (events : BitVec 32) : Rt T O :=
  if Events.Met (s.p_epending s.core.currp) events kind then s.takeEvents kind events
  else s.goSleep s.queue (waitState events kind) false (.events kind events false)

/-- `chEvtWaitOneTimeout`, `chEvtWaitAnyTimeout` and `chEvtWaitAllTimeout`. -/
def chEvtWaitTimeout (s : Rt T O) (kind : EvKind) (events : BitVec 32) (time : Timeout) : Rt T O :=
  if Events.Met (s.p_epending s.core.currp) events kind then s.takeEvents kind events
  else if time = .immediate then s
  else s.goSleep s.queue (waitState events kind) (decide (time = .finite))
    (.events kind events true)

/-! ### Mailboxes -/

/-- A message is posted or fetched: this needs a unit of one semaphore and gives one of the
other. -/
def transfer (s : Rt T O) (needs gives : Sem O) (timeout : Timeout) : Rt T O :=
  match s.chSemWaitTimeoutS needs timeout (.transfer gives) with
  | (true, s) => (s.chSemSignalI gives).reschedule
  | (false, s) => s

def chMBPost (s : Rt T O) (mbp : O) (timeout : Timeout) : Rt T O :=
  s.transfer (.emptysem mbp) (.fullsem mbp) timeout

def chMBPostAhead (s : Rt T O) (mbp : O) (timeout : Timeout) : Rt T O :=
  s.transfer (.emptysem mbp) (.fullsem mbp) timeout

def chMBFetch (s : Rt T O) (mbp : O) (timeout : Timeout) : Rt T O :=
  s.transfer (.fullsem mbp) (.emptysem mbp) timeout

def transferI (s : Rt T O) (needs gives : Sem O) : Rt T O :=
  if s.s_cnt needs ≤ 0 then s else (s.addCnt needs (-1)).chSemSignalI gives

def chMBPostI (s : Rt T O) (mbp : O) : Rt T O := s.transferI (.emptysem mbp) (.fullsem mbp)

def chMBFetchI (s : Rt T O) (mbp : O) : Rt T O := s.transferI (.fullsem mbp) (.emptysem mbp)

def chMBResetI (s : Rt T O) (mbp : O) : Rt T O :=
  (s.chSemResetI (.emptysem mbp) (s.mb_size mbp)).chSemResetI (.fullsem mbp) 0

def chMBReset (s : Rt T O) (mbp : O) : Rt T O := (s.chMBResetI mbp).reschedule

/-! ### Messages -/

def chMsgSend (s : Rt T O) (tp : T) : Rt T O :=
  let s := if s.core.p_state tp = .WAIT .WTMSG then { s with core := s.core.chSchReadyI tp } else s
  s.sleepBehind (.msg tp) (.SNDMSGQ tp) false .returns

/-- The first message is taken. -/
def receive (s : Rt T O) : Rt T O :=
  match s.queue (.msg s.core.currp) with
  | [] => s
  | tp :: rest => { s with
      queue := Function.update s.queue (.msg s.core.currp) rest
      core := s.core.setState tp (.WAIT .SNDMSG) }

def chMsgWait (s : Rt T O) : Rt T O :=
  if s.queue (.msg s.core.currp) = [] then s.goSleep s.queue .WTMSG false .receive else s.receive

def chMsgRelease (s : Rt T O) (tp : T) (msg : Int) : Rt T O :=
  { s with core := s.core.chSchWakeupS tp msg }

/-! ### After a sleep -/

/-- The current thread runs again in a call. -/
def resume [Fintype T] (s : Rt T O) : Rt T O :=
  let msg := s.core.rdymsg s.core.currp
  match s.pc s.core.currp with
  | .outside => s
  | .returns => s.leave
  | .transfer gives => if msg = MSG_OK then (s.leave.chSemSignalI gives).reschedule else s.leave
  | .relock mp timed => if timed = true ∧ msg = MSG_TIMEOUT then s.leave else s.leave.chMtxLock mp
  | .events kind events timed =>
      if timed = true ∧ msg < MSG_OK then s.leave else s.leave.takeEvents kind events
  | .receive => s.leave.receive

/-- The timeout callback `wakeup`. -/
def wakeup (s : Rt T O) (tp : T) : Rt T O :=
  let ready (s : Rt T O) : Rt T O := { s with core := msgReady MSG_TIMEOUT s.core tp }
  match s.core.p_state tp with
  | .READY => s
  | .WAIT (.SUSPENDED trp) => ready { s with queue := Function.update s.queue (.ref trp) [] }
  | .WAIT (.WTSEM sp) =>
      ready { s.addCnt sp 1 with queue := Function.update s.queue (.sem sp) ((s.queue (.sem sp)).erase tp) }
  | .WAIT (.WTCOND cp) =>
      ready { s with queue := Function.update s.queue (.cond cp) ((s.queue (.cond cp)).erase tp) }
  | _ => ready s

end Code

/-! ### Runs -/

section Steps

variable [DecidableEq T] [DecidableEq O]

/-- The calls of threads. -/
inductive Call (T O : Type) where
  | chThdCreateI (tp : T) (prio : Nat)
  | chThdCreateStatic (tp : T) (prio : Nat)
  | chThdStart (tp : T)
  | chThdSetPriority (newprio : Nat)
  | chThdSleep (time : Timeout)
  | chThdSleepUntil (now time : UInt32)
  | chThdSleepUntilWindowed (now prev next : UInt32)
  | chThdYield
  | chThdSuspendTimeoutS (trp : O) (time : Timeout)
  | chThdResume (trp : O) (msg : Int)
  | chThdExit
  | chThdWait (tp : T)
  | chSemReset (sp : Sem O) (n : Int)
  | chSemWait (sp : Sem O)
  | chSemWaitTimeout (sp : Sem O) (time : Timeout)
  | chSemSignal (sp : Sem O)
  | chSemSignalWait (sps spw : Sem O)
  | chBSemReset (sp : Sem O) (taken : Bool)
  | chBSemSignal (sp : Sem O)
  | chMtxLock (mp : O)
  | chMtxTryLock (mp : O)
  | chMtxUnlock (mp : O)
  | chMtxUnlockAll
  | chCondSignal (cp : O)
  | chCondBroadcast (cp : O)
  | chCondWait (cp : O)
  | chCondWaitTimeout (cp : O) (time : Timeout)
  | chEvtRegisterMaskWithFlags (esp elp : O) (events wflags : BitVec 32)
  | chEvtUnregister (esp elp : O)
  | chEvtGetAndClearFlags (elp : O)
  | chEvtGetAndClearEvents (events : BitVec 32)
  | chEvtAddEvents (events : BitVec 32)
  | chEvtSignal (tp : T) (events : BitVec 32)
  | chEvtBroadcastFlags (esp : O) (flags : BitVec 32)
  | chEvtWait (kind : EvKind) (events : BitVec 32)
  | chEvtWaitTimeout (kind : EvKind) (events : BitVec 32) (time : Timeout)
  | chMBReset (mbp : O)
  | chMBPost (mbp : O) (timeout : Timeout)
  | chMBPostAhead (mbp : O) (timeout : Timeout)
  | chMBFetch (mbp : O) (timeout : Timeout)
  | chMsgSend (tp : T)
  | chMsgWait
  | chMsgRelease (tp : T) (msg : Int)

def call [Fintype T] (s : Rt T O) : Call T O → Rt T O
  | .chThdCreateI tp prio => s.chThdCreateI tp prio
  | .chThdCreateStatic tp prio => s.chThdCreateStatic tp prio
  | .chThdStart tp => s.chThdStart tp
  | .chThdSetPriority newprio => s.chThdSetPriority newprio
  | .chThdSleep time => s.chThdSleep time
  | .chThdSleepUntil now time => s.chThdSleepUntil now time
  | .chThdSleepUntilWindowed now prev next => s.chThdSleepUntilWindowed now prev next
  | .chThdYield => s.chThdYield
  | .chThdSuspendTimeoutS trp time => s.chThdSuspendTimeoutS trp time
  | .chThdResume trp msg => s.chThdResume trp msg
  | .chThdExit => s.chThdExit
  | .chThdWait tp => s.chThdWait tp
  | .chSemReset sp n => s.chSemReset sp n
  | .chSemWait sp => s.chSemWait sp
  | .chSemWaitTimeout sp time => s.chSemWaitTimeout sp time
  | .chSemSignal sp => s.chSemSignal sp
  | .chSemSignalWait sps spw => s.chSemSignalWait sps spw
  | .chBSemReset sp taken => s.chBSemReset sp taken
  | .chBSemSignal sp => s.chBSemSignal sp
  | .chMtxLock mp => s.chMtxLock mp
  | .chMtxTryLock mp => s.chMtxTryLock mp
  | .chMtxUnlock mp => s.chMtxUnlock mp
  | .chMtxUnlockAll => s.chMtxUnlockAll
  | .chCondSignal cp => s.chCondSignal cp
  | .chCondBroadcast cp => s.chCondBroadcast cp
  | .chCondWait cp => s.chCondWait cp
  | .chCondWaitTimeout cp time => s.chCondWaitTimeout cp time
  | .chEvtRegisterMaskWithFlags esp elp events wflags =>
      s.chEvtRegisterMaskWithFlags esp elp events wflags
  | .chEvtUnregister esp elp => s.chEvtUnregister esp elp
  | .chEvtGetAndClearFlags elp => s.chEvtGetAndClearFlags elp
  | .chEvtGetAndClearEvents events => s.chEvtGetAndClearEvents events
  | .chEvtAddEvents events => s.chEvtAddEvents events
  | .chEvtSignal tp events => s.chEvtSignal tp events
  | .chEvtBroadcastFlags esp flags => s.chEvtBroadcastFlags esp flags
  | .chEvtWait kind events => s.chEvtWait kind events
  | .chEvtWaitTimeout kind events time => s.chEvtWaitTimeout kind events time
  | .chMBReset mbp => s.chMBReset mbp
  | .chMBPost mbp timeout => s.chMBPost mbp timeout
  | .chMBPostAhead mbp timeout => s.chMBPostAhead mbp timeout
  | .chMBFetch mbp timeout => s.chMBFetch mbp timeout
  | .chMsgSend tp => s.chMsgSend tp
  | .chMsgWait => s.chMsgWait
  | .chMsgRelease tp msg => s.chMsgRelease tp msg

/-- A thread can be created in an area that no thread uses. -/
def Unused (s : Rt T O) (tp : T) : Prop :=
  s.core.p_state tp = .WAIT .UNUSED ∨ s.core.p_state tp = .WAIT .FINAL

/-- What the caller of a function has to see to: priorities are above `NOPRIO`, threads are in
the states the functions ask for, and a thread reference is free before it is used. -/
def Able (s : Rt T O) : Call T O → Prop
  | .chThdCreateI tp prio => s.Unused tp ∧ NOPRIO < prio
  | .chThdCreateStatic tp prio => s.Unused tp ∧ NOPRIO < prio
  | .chThdStart tp => s.core.p_state tp = .WAIT .WTSTART
  | .chThdSetPriority newprio => NOPRIO < newprio
  | .chThdSuspendTimeoutS trp _ => s.queue (.ref trp) = []
  | .chMsgRelease tp _ => s.core.p_state tp = .WAIT .SNDMSG
  | _ => True

/-- The calls of interrupt handlers, and what the tick handler does. -/
inductive Isr (T O : Type) where
  | chThdCreateI (tp : T) (prio : Nat)
  | chThdStartI (tp : T)
  | chThdResumeI (trp : O) (msg : Int)
  | chSemResetI (sp : Sem O) (n : Int)
  | chSemSignalI (sp : Sem O)
  | chSemAddCounterI (sp : Sem O) (n : Nat)
  | chBSemSignalI (sp : Sem O)
  | chCondSignalI (cp : O)
  | chCondBroadcastI (cp : O)
  | chEvtSignalI (tp : T) (events : BitVec 32)
  | chEvtBroadcastFlagsI (esp : O) (flags : BitVec 32)
  | chMBResetI (mbp : O)
  | chMBPostI (mbp : O)
  | chMBFetchI (mbp : O)
  | tick
  | timeout (tp : T)

def isr (s : Rt T O) : Isr T O → Rt T O
  | .chThdCreateI tp prio => s.chThdCreateI tp prio
  | .chThdStartI tp => s.chThdStartI tp
  | .chThdResumeI trp msg => s.chThdResumeI trp msg
  | .chSemResetI sp n => s.chSemResetI sp n
  | .chSemSignalI sp => s.chSemSignalI sp
  | .chSemAddCounterI sp n => s.chSemAddCounterI sp n
  | .chBSemSignalI sp => s.chBSemSignalI sp
  | .chCondSignalI cp => s.chCondSignalI cp
  | .chCondBroadcastI cp => s.chCondBroadcastI cp
  | .chEvtSignalI tp events => s.chEvtSignalI tp events
  | .chEvtBroadcastFlagsI esp flags => s.chEvtBroadcastFlagsI esp flags
  | .chMBResetI mbp => s.chMBResetI mbp
  | .chMBPostI mbp => s.chMBPostI mbp
  | .chMBFetchI mbp => s.chMBFetchI mbp
  | .tick => { s with core := s.core.tick }
  | .timeout tp => wakeup { s with timer := Function.update s.timer tp false } tp

def Meets (s : Rt T O) : Isr T O → Prop
  | .chThdCreateI tp prio => s.Unused tp ∧ NOPRIO < prio
  | .chThdStartI tp => s.core.p_state tp = .WAIT .WTSTART
  | .timeout tp => s.timer tp = true
  | _ => True

/-- What an interrupt handler has done so far. -/
def Handles : Rt T O → Rt T O → Prop :=
  Relation.ReflTransGen fun s s' => ∃ op, s.Meets op ∧ s' = s.isr op

/-- The calls in which a thread may sleep. -/
def Call.sleeps : Call T O → Bool
  | .chThdSleep _ => true
  | .chThdSleepUntil _ _ => true
  | .chThdSleepUntilWindowed _ _ _ => true
  | .chThdSuspendTimeoutS _ _ => true
  | .chThdExit => true
  | .chThdWait _ => true
  | .chSemWait _ => true
  | .chSemWaitTimeout _ _ => true
  | .chSemSignalWait _ _ => true
  | .chMtxLock _ => true
  | .chCondWait _ => true
  | .chCondWaitTimeout _ _ => true
  | .chEvtWait _ _ => true
  | .chEvtWaitTimeout _ _ _ => true
  | .chMBPost _ _ => true
  | .chMBPostAhead _ _ => true
  | .chMBFetch _ _ => true
  | .chMsgSend _ => true
  | .chMsgWait => true
  | _ => false

/-- A call, the rest of a call, or an interrupt handler. The idle thread does not sleep. -/
inductive Step [Fintype T] (idle : T) : Option (Call T O) → Rt T O → Rt T O → Prop where
  | call {s : Rt T O} (c : Call T O) (out : s.pc s.core.currp = .outside)
      (other : c.sleeps = true → s.core.currp ≠ idle) (able : s.Able c) :
        Step idle (some c) s (s.call c)
  | resume {s : Rt T O} (inside : s.pc s.core.currp ≠ .outside) : Step idle none s s.resume
  | interrupt {s s' : Rt T O} (out : s.pc s.core.currp = .outside) (handles : s.Handles s') :
      Step idle none s { s' with core := s'.core.epilogue }

/-- At the start nothing is waited for. -/
structure Start (idle : T) (s : Rt T O) : Prop where
  core : s.core.Sound idle
  ordered : s.core.firstprio ≤ s.core.p_prio s.core.currp
  asleep : ∀ t w, s.core.waiting t = some w → w = .UNUSED
  real : ∀ t, s.p_realprio t = s.core.p_prio t
  queue : ∀ q, s.queue q = []
  timer : ∀ t, s.timer t = false
  pc : ∀ t, s.pc t = .outside

/-- States reached by steps that meet a condition. -/
def Reach [Fintype T] (ok : Option (Call T O) → Rt T O → Prop) (idle : T) (s : Rt T O) : Prop :=
  ∃ s₀, Start idle s₀ ∧ Relation.ReflTransGen (fun s s' => ∃ c, ok c s ∧ Step idle c s s') s₀ s

end Steps

end Rt

end LtcOs.Kernel
