import LtcOs.Kernel.Core
import Mathlib.Data.Fintype.Card

/-!
Mutexes and condition variables (`chmtx.c`, `chcond.c`), without recursion.

A thread that waits for a mutex lends its priority to the owner, and through the owner
to the owner of whatever that one waits for. The model has the queues as lists, the
stack `p_mtxlist` of each thread as a list of mutexes, and for each thread where it is
in a call that sleeps. Interrupt handlers are steps of their own between those of the
threads.
-/

namespace LtcOs.Kernel

open LtcOs.Prio

/-- What a thread waits for; `OTHER` stands for all states whose queues have no order
of priorities. -/
inductive Wait (M C : Type) where
  | WTMTX (mp : M)
  | WTCOND (cp : C)
  | OTHER
deriving DecidableEq, Repr

/-- Where a thread is: in no call, in `chMtxLockS`, or in `chCondWaitS` before its call of
`chMtxLockS`. -/
inductive Pc (M : Type) where
  | user
  | locking (mp : M)
  | relock (mp : M) (timed : Bool)
deriving DecidableEq, Repr

/-- The threads, mutexes and condition variables. The stamp of a thread is the time
when it was last put on the queue of a mutex. -/
structure Mtx (T M C : Type) where
  core : Core T (Wait M C)
  realprio : T → Nat
  m_owner : M → Option T
  m_queue : M → List T
  p_mtxlist : T → List M
  c_queue : C → List T
  pc : T → Pc M
  stamp : T → Nat
  clock : Nat

variable {T M C : Type}

namespace Mtx

/-! ### The code -/

def prio (s : Mtx T M C) : T → Nat := s.core.p_prio

section Code

variable [DecidableEq T] [DecidableEq M] [DecidableEq C]

def setPrio (s : Mtx T M C) (tp : T) (p : Nat) : Mtx T M C :=
  { s with core := s.core.setPrio tp p }

/-- `queue_prio_insert` on the queue of a mutex. -/
def queueM (s : Mtx T M C) (tp : T) (mp : M) : Mtx T M C :=
  { s with
    m_queue := Function.update s.m_queue mp (insertBehind s.prio tp (s.m_queue mp))
    stamp := Function.update s.stamp tp s.clock
    clock := s.clock + 1 }

/-- `queue_dequeue` from the queue of a mutex. -/
def dequeueM (s : Mtx T M C) (tp : T) (mp : M) : Mtx T M C :=
  { s with m_queue := Function.update s.m_queue mp ((s.m_queue mp).erase tp) }

/-- `queue_prio_insert` on the queue of a condition variable. -/
def queueC (s : Mtx T M C) (tp : T) (cp : C) : Mtx T M C :=
  { s with c_queue := Function.update s.c_queue cp (insertBehind s.prio tp (s.c_queue cp)) }

/-- `queue_dequeue` from the queue of a condition variable. -/
def dequeueC (s : Mtx T M C) (tp : T) (cp : C) : Mtx T M C :=
  { s with c_queue := Function.update s.c_queue cp ((s.c_queue cp).erase tp) }

/-- The reordering after a change of priority. -/
def requeue (s : Mtx T M C) (tp : T) : Mtx T M C :=
  match s.core.p_state tp with
  | .WAIT (.WTMTX mp) => (s.dequeueM tp mp).queueM tp mp
  | .WAIT (.WTCOND cp) => (s.dequeueC tp cp).queueC tp cp
  | .READY => { s with core := { s.core with ready := s.core.ready.erase tp }.chSchReadyI tp }
  | _ => s

/-- Make the priority of `tp` match that of the running thread. -/
def raise (s : Mtx T M C) (ctp tp : T) : Mtx T M C := (s.setPrio tp (s.prio ctp)).requeue tp

omit [DecidableEq M] [DecidableEq C] in
@[simp] theorem setPrio_prio (s : Mtx T M C) (tp : T) (p : Nat) :
    (s.setPrio tp p).prio = Function.update s.prio tp p := rfl

@[simp] theorem requeue_prio (s : Mtx T M C) (tp : T) : (s.requeue tp).prio = s.prio := by
  unfold requeue
  split <;> rfl

@[simp] theorem raise_prio (s : Mtx T M C) (ctp tp : T) :
    (s.raise ctp tp).prio = Function.update s.prio tp (s.prio ctp) := by
  rw [raise, requeue_prio, setPrio_prio]

/-- The threads below the running thread. -/
def below [Fintype T] (s : Mtx T M C) (ctp : T) : Finset T :=
  Finset.univ.filter fun t => s.prio t < s.prio ctp

omit [DecidableEq T] [DecidableEq M] [DecidableEq C] in
theorem mem_below [Fintype T] {s : Mtx T M C} {ctp t : T} :
    t ∈ s.below ctp ↔ s.prio t < s.prio ctp := by
  simp [below]

theorem below_raise [Fintype T] {s : Mtx T M C} {ctp tp : T} (less : s.prio tp < s.prio ctp) :
    (s.raise ctp tp).below ctp ⊂ s.below ctp := by
  have other : ctp ≠ tp := by
    rintro rfl
    exact absurd less (lt_irrefl _)
  apply Finset.ssubset_iff_subset_ne.mpr
  constructor
  · intro t ht
    rw [mem_below, raise_prio, Function.update_of_ne other, Function.update_apply] at ht
    split_ifs at ht with same
    · exact absurd ht (lt_irrefl _)
    · exact mem_below.mpr ht
  · intro eq
    have mem : tp ∈ (s.raise ctp tp).below ctp := by
      rw [eq]
      exact mem_below.mpr less
    rw [mem_below, raise_prio, Function.update_of_ne other, Function.update_self] at mem
    exact absurd mem (lt_irrefl _)

/-- The loop of `chMtxLockS` along the owners. -/
def boost [Fintype T] (s : Mtx T M C) (ctp tp : T) : Mtx T M C :=
  if _less : s.prio tp < s.prio ctp then
    match (s.raise ctp tp).core.waiting tp with
    | some (.WTMTX mp) =>
        match (s.raise ctp tp).m_owner mp with
        | some owner => boost (s.raise ctp tp) ctp owner
        | none => s.raise ctp tp
    | _ => s.raise ctp tp
  else s
termination_by (s.below ctp).card
decreasing_by exact Finset.card_lt_card (below_raise _less)

def chMtxLockS [Fintype T] (s : Mtx T M C) (mp : M) : Mtx T M C :=
  let ctp := s.core.currp
  match s.m_owner mp with
  | some tp =>
      let s := (s.boost ctp tp).queueM ctp mp
      { s with
        core := s.core.chSchGoSleepS (.WTMTX mp)
        pc := Function.update s.pc ctp (.locking mp) }
  | none => { s with
      m_owner := Function.update s.m_owner mp (some ctp)
      p_mtxlist := Function.update s.p_mtxlist ctp (mp :: s.p_mtxlist ctp)
      pc := Function.update s.pc ctp .user }

def chMtxTryLockS (s : Mtx T M C) (mp : M) : Bool × Mtx T M C :=
  let ctp := s.core.currp
  match s.m_owner mp with
  | some _ => (false, s)
  | none => (true, { s with
      m_owner := Function.update s.m_owner mp (some ctp)
      p_mtxlist := Function.update s.p_mtxlist ctp (mp :: s.p_mtxlist ctp) })

/-- The highest priority among that of the thread itself and those of the first waiting
threads of the mutexes on a list. -/
def newprio (s : Mtx T M C) (ctp : T) (l : List M) : Nat :=
  l.foldl (fun p lmp => match s.m_queue lmp with
    | [] => p
    | tp :: _ => if p < s.prio tp then s.prio tp else p) (s.realprio ctp)

/-- `ctp->p_mtxlist = mp->m_next` for the mutex `mp` on top. -/
def pop (s : Mtx T M C) (ctp : T) : Mtx T M C :=
  { s with p_mtxlist := Function.update s.p_mtxlist ctp (s.p_mtxlist ctp).tail }

/-- The mutex goes to the first waiting thread, which becomes ready, or to nobody. -/
def handOff (s : Mtx T M C) (mp : M) : Mtx T M C :=
  match s.m_queue mp with
  | [] => { s with m_owner := Function.update s.m_owner mp none }
  | tp :: rest => { s with
      m_queue := Function.update s.m_queue mp rest
      m_owner := Function.update s.m_owner mp (some tp)
      p_mtxlist := Function.update s.p_mtxlist tp (mp :: s.p_mtxlist tp)
      core := s.core.chSchReadyI tp }

def chMtxUnlockS (s : Mtx T M C) (mp : M) : Mtx T M C :=
  let ctp := s.core.currp
  let s := s.pop ctp
  if s.m_queue mp ≠ [] then (s.setPrio ctp (s.newprio ctp (s.p_mtxlist ctp))).handOff mp
  else s.handOff mp

def reschedule (s : Mtx T M C) : Mtx T M C := { s with core := s.core.chSchRescheduleS }

def chMtxUnlock (s : Mtx T M C) (mp : M) : Mtx T M C :=
  if s.m_queue mp ≠ [] then (s.chMtxUnlockS mp).reschedule else s.chMtxUnlockS mp

/-- The loop of `chMtxUnlockAll`, one round for each mutex of the thread. -/
def unlockLoop (ctp : T) : (rounds : Nat) → Mtx T M C → Mtx T M C
  | 0, s => s
  | rounds + 1, s =>
      match s.p_mtxlist ctp with
      | [] => s
      | mp :: _ => unlockLoop ctp rounds ((s.pop ctp).handOff mp)

def chMtxUnlockAll (s : Mtx T M C) : Mtx T M C :=
  let ctp := s.core.currp
  if s.p_mtxlist ctp ≠ [] then
    let s := unlockLoop ctp (s.p_mtxlist ctp).length s
    (s.setPrio ctp (s.realprio ctp)).reschedule
  else s

/-- `chCondWaitS` and `chCondWaitTimeoutS` up to the sleep. -/
def chCondWaitS (s : Mtx T M C) (cp : C) (timed : Bool) : Mtx T M C :=
  let ctp := s.core.currp
  match s.p_mtxlist ctp with
  | [] => s
  | mp :: _ =>
      let s := (s.chMtxUnlockS mp).queueC ctp cp
      { s with
        core := s.core.chSchGoSleepS (.WTCOND cp)
        pc := Function.update s.pc ctp (.relock mp timed) }

def chCondSignal (s : Mtx T M C) (cp : C) : Mtx T M C :=
  match s.c_queue cp with
  | [] => s
  | tp :: rest => { s with
      c_queue := Function.update s.c_queue cp rest
      core := s.core.chSchWakeupS tp MSG_OK }

def chCondSignalI (s : Mtx T M C) (cp : C) : Mtx T M C :=
  match s.c_queue cp with
  | [] => s
  | tp :: rest => { s with
      c_queue := Function.update s.c_queue cp rest
      core := (s.core.setMsg tp MSG_OK).chSchReadyI tp }

/-- The loop of `chCondBroadcastI`, one round for each thread on the queue. -/
def broadcastLoop (cp : C) : (rounds : Nat) → Mtx T M C → Mtx T M C
  | 0, s => s
  | rounds + 1, s =>
      match s.c_queue cp with
      | [] => s
      | tp :: rest => broadcastLoop cp rounds { s with
          c_queue := Function.update s.c_queue cp rest
          core := (s.core.chSchReadyI tp).setMsg tp MSG_RESET }

def chCondBroadcastI (s : Mtx T M C) (cp : C) : Mtx T M C :=
  broadcastLoop cp (s.c_queue cp).length s

def chCondBroadcast (s : Mtx T M C) (cp : C) : Mtx T M C := (s.chCondBroadcastI cp).reschedule

/-- The timeout callback `wakeup` for a thread in `chCondWaitTimeoutS`. -/
def timeout (s : Mtx T M C) (tp : T) (cp : C) : Mtx T M C :=
  let s := s.dequeueC tp cp
  { s with core := (s.core.setMsg tp MSG_TIMEOUT).chSchReadyI tp }

end Code

/-! ### Runs -/

section Steps

variable [DecidableEq T] [DecidableEq M] [DecidableEq C] [Fintype T]

/-- The calls of the current thread and of interrupt handlers while no call is under way,
and what a thread does when it runs again after it slept in a call. Only the mutex
on top of the list of a thread is unlocked, and the idle thread does not sleep. -/
inductive Step (idle : T) : Mtx T M C → Mtx T M C → Prop where
  | lock {s : Mtx T M C} (mp : M) (user : s.pc s.core.currp = .user) (other : s.core.currp ≠ idle) :
      Step idle s (s.chMtxLockS mp)
  | tryLock {s : Mtx T M C} (mp : M) (user : s.pc s.core.currp = .user) :
    Step idle s (s.chMtxTryLockS mp).2
  | unlock {s : Mtx T M C} (mp : M) (rest : List M) (user : s.pc s.core.currp = .user)
      (top : s.p_mtxlist s.core.currp = mp :: rest) : Step idle s (s.chMtxUnlock mp)
  | unlockS {s : Mtx T M C} (mp : M) (rest : List M) (user : s.pc s.core.currp = .user)
      (top : s.p_mtxlist s.core.currp = mp :: rest) : Step idle s (s.chMtxUnlockS mp)
  | unlockAll {s : Mtx T M C} (user : s.pc s.core.currp = .user) : Step idle s s.chMtxUnlockAll
  | condWait {s : Mtx T M C} (cp : C) (timed : Bool) (user : s.pc s.core.currp = .user)
      (other : s.core.currp ≠ idle) (owns : s.p_mtxlist s.core.currp ≠ []) :
        Step idle s (s.chCondWaitS cp timed)
  | condSignal {s : Mtx T M C} (cp : C) (user : s.pc s.core.currp = .user) :
    Step idle s (s.chCondSignal cp)
  | condSignalI {s : Mtx T M C} (cp : C) (user : s.pc s.core.currp = .user) :
    Step idle s (s.chCondSignalI cp)
  | condBroadcast {s : Mtx T M C} (cp : C) (user : s.pc s.core.currp = .user) :
      Step idle s (s.chCondBroadcast cp)
  | condBroadcastI {s : Mtx T M C} (cp : C) (user : s.pc s.core.currp = .user) :
      Step idle s (s.chCondBroadcastI cp)
  | timeout {s : Mtx T M C} (tp : T) (cp : C) (mp : M) (user : s.pc s.core.currp = .user)
      (waits : s.core.waiting tp = some (.WTCOND cp)) (timed : s.pc tp = .relock mp true) :
      Step idle s (s.timeout tp cp)
  | sleep {s : Mtx T M C} (user : s.pc s.core.currp = .user) (other : s.core.currp ≠ idle) :
      Step idle s { s with core := s.core.chSchGoSleepS .OTHER }
  | ready {s : Mtx T M C} (tp : T) (msg : Int) (user : s.pc s.core.currp = .user)
      (waits : s.core.waiting tp = some .OTHER) :
      Step idle s { s with core := (s.core.setMsg tp msg).chSchReadyI tp }
  | wakeup {s : Mtx T M C} (tp : T) (msg : Int) (user : s.pc s.core.currp = .user)
      (waits : s.core.waiting tp = some .OTHER) :
        Step idle s { s with core := s.core.chSchWakeupS tp msg }
  | reschedule {s : Mtx T M C} (user : s.pc s.core.currp = .user) : Step idle s s.reschedule
  | yield {s : Mtx T M C} (user : s.pc s.core.currp = .user) :
      Step idle s { s with core := s.core.chSchDoYieldS }
  | tick {s : Mtx T M C} (user : s.pc s.core.currp = .user) :
    Step idle s { s with core := s.core.tick }
  | epilogue {s : Mtx T M C} (user : s.pc s.core.currp = .user) :
    Step idle s { s with core := s.core.epilogue }
  | locked {s : Mtx T M C} (mp : M) (inside : s.pc s.core.currp = .locking mp) :
      Step idle s { s with pc := Function.update s.pc s.core.currp .user }
  | relock {s : Mtx T M C} (mp : M) (timed : Bool) (inside : s.pc s.core.currp = .relock mp timed)
      (signalled : timed = false ∨ s.core.rdymsg s.core.currp ≠ MSG_TIMEOUT) :
        Step idle s (s.chMtxLockS mp)
  | timedOut {s : Mtx T M C} (mp : M) (inside : s.pc s.core.currp = .relock mp true)
      (late : s.core.rdymsg s.core.currp = MSG_TIMEOUT) :
      Step idle s { s with pc := Function.update s.pc s.core.currp .user }

/-- At the start all mutexes are free, no thread is in a call, and only the current
thread runs. -/
structure Start (idle : T) (s : Mtx T M C) : Prop where
  core : s.core.Inv idle
  asleep : ∀ t, s.core.waiting t = none ∨ s.core.waiting t = some .OTHER
  owner : ∀ m, s.m_owner m = none
  queue : ∀ m, s.m_queue m = []
  mtxlist : ∀ t, s.p_mtxlist t = []
  cond : ∀ c, s.c_queue c = []
  pc : ∀ t, s.pc t = .user
  prio : ∀ t, s.prio t = s.realprio t
  pos : ∀ t, NOPRIO < s.realprio t

def Reachable (idle : T) (s : Mtx T M C) : Prop :=
  ∃ s₀, Start idle s₀ ∧ Relation.ReflTransGen (Step idle) s₀ s

end Steps

end Mtx

end LtcOs.Kernel
