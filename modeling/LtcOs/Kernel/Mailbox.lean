import LtcOs.Kernel.Supply
import LtcOs.Lib.Circular
import Mathlib.Data.Set.Card

/-!
Mailboxes (`chmboxes.c`): a circular buffer of messages between two semaphores, one that
counts the empty slots and one that counts the full ones.

A slot is granted to a thread by a semaphore and used when the thread runs. A reset of the
pointers and of both semaphores in between forgets that the slot is taken.
-/

namespace LtcOs.Kernel

open LtcOs.Circular

/-- The semaphores `mb_emptysem` and `mb_fullsem`. -/
inductive Slot where
  | empty
  | full
deriving DecidableEq, Repr

/-- What a thread or a handler does to a mailbox. -/
inductive MbCall where
  | post (msg : Int)
  | postAhead (msg : Int)
  | fetch
deriving DecidableEq, Repr

/-- Messages go in at the tail or at the head and come out at the head; a call returns, and
the mailbox is reset. -/
inductive MbEvent where
  | posted (msg : Int)
  | postedAhead (msg : Int)
  | fetched (msg : Int)
  | returned (call : MbCall) (msg : Int)
  | reset
deriving DecidableEq, Repr

structure Mailbox (T : Type) where
  sems : Sems T Slot
  ring : Circ Int
  call : T → MbCall
  log : List MbEvent

variable {T : Type}

namespace Mailbox

/-! ### The code -/

section Code

variable [DecidableEq T]

/-- The semaphore a call waits for. -/
def MbCall.needs : MbCall → Slot
  | .post _ => .empty
  | .postAhead _ => .empty
  | .fetch => .full

/-- The semaphore a call signals. -/
def MbCall.gives : MbCall → Slot
  | .post _ => .full
  | .postAhead _ => .full
  | .fetch => .empty

/-- The buffer after a call, and what happened to it. -/
def move (ring : Circ Int) : MbCall → Circ Int × MbEvent
  | .post msg => (store ring msg, .posted msg)
  | .postAhead msg => (storeAhead ring msg, .postedAhead msg)
  | .fetch => (drop ring, .fetched (first ring))

/-- A call uses the slot it has got and signals the other semaphore. -/
def perform (s : Mailbox T) (call : MbCall) : Mailbox T :=
  let (ring, event) := move s.ring call
  { s with ring := ring, sems := s.sems.chSemSignalI (MbCall.gives call), log := s.log ++ [event] }

/-- A call returns. -/
def leave (s : Mailbox T) (call : MbCall) (msg : Int) : Mailbox T :=
  { s with log := s.log ++ [.returned call msg] }

def reschedule (s : Mailbox T) : Mailbox T := { s with sems := s.sems.reschedule }

/-- The rest of a call of a thread after `chSemWaitTimeoutS`. -/
def proceed (s : Mailbox T) (call : MbCall) (rdymsg : Int) : Mailbox T :=
  if rdymsg = MSG_OK then ((s.perform call).leave call rdymsg).reschedule else s.leave call rdymsg

/-- `chMBPostS`, `chMBPostAheadS` or `chMBFetchS`. -/
def transfer (s : Mailbox T) (call : MbCall) (timeout : Timeout) : Mailbox T :=
  let (result, sems) := s.sems.chSemWaitTimeoutS (MbCall.needs call) timeout
  let s' := { s with sems := sems }
  match result with
  | some rdymsg => s'.proceed call rdymsg
  | none => { s' with call := Function.update s.call s.sems.core.currp call }

def chMBPostS (s : Mailbox T) (msg : Int) (timeout : Timeout) : Mailbox T :=
  s.transfer (.post msg) timeout

def chMBPostAheadS (s : Mailbox T) (msg : Int) (timeout : Timeout) : Mailbox T :=
  s.transfer (.postAhead msg) timeout

def chMBFetchS (s : Mailbox T) (timeout : Timeout) : Mailbox T := s.transfer .fetch timeout

/-- The current thread runs again in a call. -/
def resume (s : Mailbox T) (sp : Slot) : Mailbox T :=
  { s with sems := s.sems.resume sp }.proceed (s.call s.sems.core.currp)
    (s.sems.core.rdymsg s.sems.core.currp)

/-- `chSemFastWaitI` with a unit available. -/
def chSemFastWaitI (s : Mailbox T) (sp : Slot) : Mailbox T :=
  { s with sems := (s.sems.take sp).pass sp }

/-- `chMBPostI`, `chMBPostAheadI` or `chMBFetchI`. -/
def transferI (s : Mailbox T) (call : MbCall) : Int × Mailbox T :=
  if s.sems.s_cnt (MbCall.needs call) ≤ 0 then (MSG_TIMEOUT, s.leave call MSG_TIMEOUT)
  else (MSG_OK, ((s.chSemFastWaitI (MbCall.needs call)).perform call).leave call MSG_OK)

def chMBPostI (s : Mailbox T) (msg : Int) : Int × Mailbox T := s.transferI (.post msg)

def chMBPostAheadI (s : Mailbox T) (msg : Int) : Int × Mailbox T := s.transferI (.postAhead msg)

def chMBFetchI (s : Mailbox T) : Int × Mailbox T := s.transferI .fetch

def chMBResetI (s : Mailbox T) : Mailbox T :=
  { s with
    ring := rewind s.ring
    sems := (s.sems.chSemResetI .empty s.ring.size).chSemResetI .full 0
    log := s.log ++ [.reset] }

def chMBReset (s : Mailbox T) : Mailbox T := s.chMBResetI.reschedule

end Code

/-! ### Runs -/

section Steps

variable [DecidableEq T]

/-- Whether a step resets the mailbox. -/
inductive Action where
  | reset
  | other
deriving DecidableEq, Repr

/-- A call of a thread or an interrupt handler, the rest of a call of a thread that slept, or
what else happens. -/
inductive Step (idle : T) : Action → Mailbox T → Mailbox T → Prop where
  | post {s : Mailbox T} (msg : Int) (timeout : Timeout) (running : s.sems.Running)
    (other : s.sems.core.currp ≠ idle) :
      Step idle .other s (s.chMBPostS msg timeout)
  | postAhead {s : Mailbox T} (msg : Int) (timeout : Timeout) (running : s.sems.Running)
      (other : s.sems.core.currp ≠ idle) : Step idle .other s (s.chMBPostAheadS msg timeout)
  | fetch {s : Mailbox T} (timeout : Timeout) (running : s.sems.Running)
    (other : s.sems.core.currp ≠ idle) :
      Step idle .other s (s.chMBFetchS timeout)
  | postI {s : Mailbox T} (msg : Int) (unlocked : s.sems.Unlocked) :
    Step idle .other s (s.chMBPostI msg).2
  | postAheadI {s : Mailbox T} (msg : Int) (unlocked : s.sems.Unlocked) :
    Step idle .other s (s.chMBPostAheadI msg).2
  | fetchI {s : Mailbox T} (unlocked : s.sems.Unlocked) : Step idle .other s s.chMBFetchI.2
  | resume {s : Mailbox T} (sp : Slot) (inside : s.sems.pc s.sems.core.currp = some sp)
    (calm : s.sems.fired = none) :
      Step idle .other s (s.resume sp)
  | isr {s : Mailbox T} {sems : Sems T Slot} (unlocked : s.sems.Unlocked)
    (isr : Sems.Isr s.sems sems) :
      Step idle .other s { s with sems := sems }
  | thread {s : Mailbox T} {sems : Sems T Slot} (running : s.sems.Running)
    (thread : Sems.Thread idle s.sems sems) :
      Step idle .other s { s with sems := sems }
  | reset {s : Mailbox T} (running : s.sems.Running) : Step idle .reset s s.chMBReset
  | resetI {s : Mailbox T} (unlocked : s.sems.Unlocked) : Step idle .reset s s.chMBResetI

/-- `chMBObjectInit` gives the units of the semaphores. -/
def initial (n : Nat) : Slot → Nat
  | .empty => n
  | .full => 0

/-- After `chMBObjectInit` with `n` slots. -/
structure Start (idle : T) (n : Nat) (s : Mailbox T) : Prop where
  sems : Sems.Start idle (initial n) s.sems
  size : s.ring.size = n
  pointers : s.ring.rdptr = 0 ∧ s.ring.wrptr = 0
  log : s.log = []

def Reachable (idle : T) (n : Nat) (s : Mailbox T) : Prop :=
  ∃ s₀, Start idle n s₀ ∧ Relation.ReflTransGen (fun s s' => ∃ action, Step idle action s s') s₀ s

/-- A thread that has been granted a slot and has not run since. -/
def Granted (s : Mailbox T) (t : T) : Prop :=
  s.sems.pc t ≠ none ∧ s.sems.core.waiting t = none ∧ s.sems.core.rdymsg t = MSG_OK

instance (s : Mailbox T) (t : T) : Decidable (Granted s t) :=
  inferInstanceAs (Decidable (_ ∧ _ ∧ _))

/-- A step that is not a reset while a thread has been granted a slot. -/
def CarefulStep (idle : T) (s s' : Mailbox T) : Prop :=
  ∃ action, Step idle action s s' ∧ (action = .reset → ∀ t, ¬ Granted s t)

def ReachableCarefully (idle : T) (n : Nat) (s : Mailbox T) : Prop :=
  ∃ s₀, Start idle n s₀ ∧ Relation.ReflTransGen (CarefulStep idle) s₀ s

end Steps

/-! ### Histories -/

/-- One event on the messages in a mailbox; none if a message is fetched that is not the
first. -/
def replayStep (l : Option (List Int)) : MbEvent → Option (List Int)
  | .posted msg => l.map (· ++ [msg])
  | .postedAhead msg => l.map (msg :: ·)
  | .fetched msg => l.bind fun l => if l.head? = some msg then some l.tail else none
  | .returned _ _ => l
  | .reset => l.map fun _ => []

/-- The messages in the mailbox after a history. -/
def replay (log : List MbEvent) : Option (List Int) := log.foldl replayStep (some [])

theorem replay_concat (log : List MbEvent) (e : MbEvent) :
    replay (log ++ [e]) = replayStep (replay log) e := by
  simp [replay]

/-! ### The invariant -/

/-- The semaphores, and the slot a thread waits for. -/
structure Base (idle : T) (n : Nat) (s : Mailbox T) [DecidableEq T] : Prop where
  sems : Sems.Inv idle (initial n) s.sems
  calls : ∀ t sp, s.sems.pc t = some sp → MbCall.needs (s.call t) = sp

/-- The buffer has the messages `l`, and the supply of the semaphores agrees with it, less
the slots taken and not yet used. -/
structure Data (n : Nat) (s : Mailbox T) (l : List Int) (taken : Slot → Nat) [DecidableEq T] :
    Prop where
  holds : Holds s.ring l
  size : s.ring.size = n
  replay : replay s.log = some l
  empty : Sems.supply n .empty s.sems.log = n - l.length - taken .empty
  full : Sems.supply 0 .full s.sems.log = l.length - taken .full

/-- One slot is taken for a call. -/
def one (call : MbCall) (sp : Slot) : Nat := if sp = MbCall.needs call then 1 else 0

def Inv (idle : T) (n : Nat) (s : Mailbox T) [DecidableEq T] : Prop :=
  Base idle n s ∧ ∃ l, Data n s l fun _ => 0

section Proofs

variable [DecidableEq T] {idle t : T} {n : Nat} {s : Mailbox T} {sems : Sems T Slot} {l : List Int}
  {call : MbCall}

omit [DecidableEq T] in
theorem signalWith_pc (wake : Core T (SemWait Slot) → T → Core T (SemWait Slot))
    (sems : Sems T Slot) (sp : Slot) :
    (sems.signalWith wake sp).pc = sems.pc := by
  simp only [Sems.signalWith]
  split
  · split <;> rfl
  · rfl

theorem resetLoop_pc (sp : Slot) (rounds : Nat) (sems : Sems T Slot) :
    (Sems.resetLoop sp rounds sems).pc = sems.pc := by
  induction rounds generalizing sems with
  | zero => rfl
  | succ rounds ih =>
      unfold Sems.resetLoop
      split
      · rfl
      · exact ih _

theorem chSemResetI_pc (sems : Sems T Slot) (sp : Slot) (m : Nat) :
    (sems.chSemResetI sp m).pc = sems.pc :=
  resetLoop_pc sp _ _

theorem isr_pc {sems' : Sems T Slot} (isr : Sems.Isr sems sems') : sems'.pc = sems.pc := by
  cases isr with
  | callback tp fired =>
      change (sems.wakeup tp).pc = sems.pc
      unfold Sems.wakeup
      split <;> rfl
  | _ => rfl

theorem Base.perform (base : Base idle n s) (call : MbCall) : Base idle n (s.perform call) := by
  refine ⟨base.sems.chSemSignalI _, ?_⟩
  intro t sp inside
  apply base.calls t sp
  rw [← inside]
  exact (congrFun (signalWith_pc _ s.sems _) t).symm

/-- A call with its slot keeps the buffer and the semaphores in agreement. -/
theorem Data.perform (data : Data n s l (one call)) (base : Base idle n s) :
    ∃ l', Data n (s.perform call) l' fun _ => 0 := by
  have size := data.size
  have empty := data.empty
  have full := data.full
  have nonneg_empty : 0 ≤ Sems.supply n .empty s.sems.log := base.sems.supply_nonneg .empty
  have nonneg_full : 0 ≤ Sems.supply 0 .full s.sems.log := base.sems.supply_nonneg .full
  have signalled : ∀ m sp, Sems.supply m sp (s.perform call).sems.log =
      Sems.supply m sp s.sems.log + if MbCall.gives call = sp then 1 else 0 :=
    fun m sp => Sems.supply_signalWith _ s.sems _
  cases call with
  | post msg =>
      simp only [one, MbCall.needs, if_true, reduceCtorEq, if_false] at empty full
      have room : l.length < s.ring.size := by omega
      refine ⟨l ++ [msg], data.holds.store room msg, size, ?_, ?_, ?_⟩
      · change Mailbox.replay (s.log ++ [.posted msg]) = _
        rw [replay_concat, data.replay]
        rfl
      · rw [signalled, List.length_append, List.length_singleton]
        simp only [MbCall.gives, reduceCtorEq, if_false]
        push_cast
        omega
      · rw [signalled, List.length_append, List.length_singleton]
        simp only [MbCall.gives, if_true]
        push_cast
        omega
  | postAhead msg =>
      simp only [one, MbCall.needs, if_true, reduceCtorEq, if_false] at empty full
      have room : l.length < s.ring.size := by omega
      refine ⟨msg :: l, data.holds.storeAhead room msg, size, ?_, ?_, ?_⟩
      · change Mailbox.replay (s.log ++ [.postedAhead msg]) = _
        rw [replay_concat, data.replay]
        rfl
      · rw [signalled, List.length_cons]
        simp only [MbCall.gives, reduceCtorEq, if_false]
        push_cast
        omega
      · rw [signalled, List.length_cons]
        simp only [MbCall.gives, if_true]
        push_cast
        omega
  | fetch =>
      simp only [one, MbCall.needs, if_true, reduceCtorEq, if_false] at empty full
      obtain ⟨msg, l, rfl⟩ : ∃ msg rest, l = msg :: rest := by
        apply List.exists_cons_of_ne_nil
        rintro rfl
        simp only [List.length_nil] at full
        omega
      rw [List.length_cons] at empty full
      refine ⟨l, data.holds.drop, size, ?_, ?_, ?_⟩
      · change Mailbox.replay (s.log ++ [.fetched (first s.ring)]) = _
        rw [replay_concat, data.replay, data.holds.first]
        simp [replayStep]
      · rw [signalled]
        simp only [MbCall.gives, if_true]
        push_cast at empty
        omega
      · rw [signalled]
        simp only [MbCall.gives, reduceCtorEq, if_false]
        push_cast at full
        omega

theorem Data.congr {s' : Mailbox T} {taken : Slot → Nat} (data : Data n s l taken)
    (ring : s'.ring = s.ring) (log : Mailbox.replay s'.log = Mailbox.replay s.log)
    (supply : ∀ m sp, Sems.supply m sp s'.sems.log = Sems.supply m sp s.sems.log) :
    Data n s' l taken := by
  constructor
  · rw [ring]
    exact data.holds
  · rw [ring]
    exact data.size
  · rw [log]
    exact data.replay
  · rw [supply]
    exact data.empty
  · rw [supply]
    exact data.full

theorem replay_returned (log : List MbEvent) (call : MbCall) (msg : Int) :
    replay (log ++ [.returned call msg]) = replay log := by
  rw [replay_concat]
  rfl

theorem Inv.leave (inv : Inv idle n s) (call : MbCall) (msg : Int) :
    Inv idle n (s.leave call msg) := by
  obtain ⟨base, l, data⟩ := inv
  exact ⟨⟨base.sems, base.calls⟩, l, data.congr rfl (replay_returned _ _ _) fun _ _ => rfl⟩

theorem Inv.reschedule (inv : Inv idle n s) : Inv idle n s.reschedule := by
  obtain ⟨base, l, data⟩ := inv
  exact ⟨⟨base.sems.reschedule, base.calls⟩, l, data.congr rfl rfl fun _ _ => rfl⟩

/-- A call of a thread goes on with its slot, or without one. -/
theorem Base.proceed (base : Base idle n s) {rdymsg : Int}
    (data : Data n s l (if rdymsg = MSG_OK then one call else fun _ => 0)) :
    Inv idle n (s.proceed call rdymsg) := by
  unfold Mailbox.proceed
  split_ifs at data ⊢ with ok
  · have performed : Inv idle n (s.perform call) := ⟨base.perform call, data.perform base⟩
    exact (performed.leave call rdymsg).reschedule
  · exact Inv.leave ⟨base, l, data⟩ call rdymsg

theorem wait_pc (sems : Sems T Slot) (sp : Slot) (timeout : Timeout) :
    (sems.chSemWaitTimeoutS sp timeout).2.pc =
      if (sems.chSemWaitTimeoutS sp timeout).1 = none then Function.update sems.pc sems.core.currp (some sp)
      else sems.pc := by
  unfold Sems.chSemWaitTimeoutS
  dsimp only
  split
  · split
    · rw [if_neg (by simp)]
      rfl
    · rw [if_pos rfl]
      rfl
  · rw [if_neg (by simp)]
    rfl

/-- A call takes a unit if the condition `mine` is met. -/
theorem Data.take (data : Data n s l fun _ => 0) (call : MbCall) (mine : Prop) [Decidable mine]
    (supply : ∀ m sp, Sems.supply m sp sems.log =
      Sems.supply m sp s.sems.log - if mine ∧ MbCall.needs call = sp then 1 else 0) :
    Data n { s with sems := sems } l (if mine then one call else fun _ => 0) := by
  refine ⟨data.holds, data.size, data.replay, ?_, ?_⟩
  · change Sems.supply n .empty sems.log = _
    rw [supply, data.empty]
    by_cases mine <;> cases call <;> simp [one, MbCall.needs, *]
  · change Sems.supply 0 .full sems.log = _
    rw [supply, data.full]
    by_cases mine <;> cases call <;> simp [one, MbCall.needs, *]

theorem Inv.transfer (inv : Inv idle n s) (running : s.sems.Running)
    (other : s.sems.core.currp ≠ idle) (call : MbCall) (timeout : Timeout) :
    Inv idle n (s.transfer call timeout) := by
  obtain ⟨base, l, data⟩ := inv
  have sems := base.sems.chSemWaitTimeoutS running.1 other (MbCall.needs call) timeout
  have pc := wait_pc s.sems (MbCall.needs call) timeout
  have waited := data.take call _ fun m sp => Sems.supply_wait (MbCall.needs call) timeout
  unfold Mailbox.transfer
  generalize s.sems.chSemWaitTimeoutS (MbCall.needs call) timeout = result at sems pc waited
  obtain ⟨msg, sems'⟩ := result
  cases msg with
  | none =>
      refine ⟨⟨sems, ?_⟩, l, waited.congr rfl rfl fun _ _ => rfl⟩
      intro t sp inside
      change sems'.pc t = some sp at inside
      change sems'.pc = _ at pc
      rw [pc, if_pos rfl] at inside
      change MbCall.needs (Function.update s.call s.sems.core.currp call t) = sp
      by_cases same : t = s.sems.core.currp
      · rw [same, Function.update_self] at inside ⊢
        exact Option.some.inj inside
      · rw [Function.update_of_ne same] at inside ⊢
        exact base.calls t sp inside
  | some rdymsg =>
      have kept : Base idle n { s with sems := sems' } := by
        refine ⟨sems, ?_⟩
        intro t sp inside
        change sems'.pc t = some sp at inside
        change sems'.pc = _ at pc
        rw [pc, if_neg (by simp)] at inside
        exact base.calls t sp inside
      simp only [Option.some.injEq] at waited
      exact kept.proceed waited

theorem Inv.transferI (inv : Inv idle n s) (unlocked : s.sems.Unlocked) (call : MbCall) :
    Inv idle n (s.transferI call).2 := by
  unfold Mailbox.transferI
  split_ifs with none
  · exact inv.leave call MSG_TIMEOUT
  · obtain ⟨base, l, data⟩ := inv
    have enough : ¬ (s.sems.take (MbCall.needs call)).s_cnt (MbCall.needs call) < 0 := by
      simp only [Sems.take, Function.update_self]
      omega
    have taken : Base idle n (s.chSemFastWaitI (MbCall.needs call)) :=
      ⟨base.sems.pass unlocked enough, base.calls⟩
    have held : Data n (s.chSemFastWaitI (MbCall.needs call)) l (one call) := by
      refine data.take call True fun m sp => ?_
      simp only [true_and]
      exact Sems.supply_passed _ _
    have performed : Inv idle n ((s.chSemFastWaitI (MbCall.needs call)).perform call) :=
      ⟨taken.perform call, held.perform taken⟩
    exact performed.leave call MSG_OK

/-- A thread that runs again has its slot if it was woken with `MSG_OK`. -/
theorem Inv.resume (inv : Inv idle n s) {sp : Slot} (inside : s.sems.pc s.sems.core.currp = some sp)
    (calm : s.sems.fired = none) : Inv idle n (s.resume sp) := by
  obtain ⟨base, l, data⟩ := inv
  have needs : MbCall.needs (s.call s.sems.core.currp) = sp := base.calls _ sp inside
  have resumed : Base idle n { s with sems := s.sems.resume sp } := by
    refine ⟨base.sems.resume inside calm, ?_⟩
    intro t sp' inside'
    change Function.update s.sems.pc s.sems.core.currp none t = some sp' at inside'
    by_cases same : t = s.sems.core.currp
    · rw [same, Function.update_self] at inside'
      exact absurd inside' (by simp)
    · rw [Function.update_of_ne same] at inside'
      exact base.calls t sp' inside'
  have ok : ∀ sp', s.sems.core.currp ∈ Sems.granted sp' s.sems.log ↔
      sp = sp' ∧ s.sems.core.rdymsg s.sems.core.currp = MSG_OK := by
    intro sp'
    rw [base.sems.base.mem_granted, inside, base.sems.base.core.inv.waiting_currp]
    simp
  have held : Data n { s with sems := s.sems.resume sp } l
      (if s.sems.core.rdymsg s.sems.core.currp = MSG_OK then one (s.call s.sems.core.currp) else fun _ => 0) := by
    refine data.take _ _ fun m sp' => (Sems.supply_returned _ _ _).trans ?_
    simp only [ok, needs]
    congr 2
    rw [and_self_left, and_comm]
  exact resumed.proceed held

theorem Inv.isr (inv : Inv idle n s) (unlocked : s.sems.Unlocked) (isr : Sems.Isr s.sems sems) :
    Inv idle n { s with sems := sems } := by
  obtain ⟨base, l, data⟩ := inv
  refine ⟨⟨base.sems.isr unlocked isr, ?_⟩, l, data.congr rfl rfl fun _ _ => Sems.supply_isr isr⟩
  intro t sp inside
  apply base.calls t sp
  rw [← inside]
  exact (congrFun (isr_pc isr) t).symm

theorem Inv.thread (inv : Inv idle n s) (running : s.sems.Running)
    (thread : Sems.Thread idle s.sems sems) :
    Inv idle n { s with sems := sems } := by
  obtain ⟨base, l, data⟩ := inv
  refine ⟨⟨base.sems.thread running.1 thread, ?_⟩, l,
    data.congr rfl rfl fun _ _ => Sems.supply_thread thread⟩
  intro t sp inside
  apply base.calls t sp
  rw [← inside]
  cases thread <;> rfl

/-! ### Reset -/

theorem granted_iff (base : Base idle n s) :
    Granted s t ↔ ∃ sp, t ∈ Sems.granted sp s.sems.log := by
  simp only [base.sems.base.mem_granted, Granted, Option.ne_none_iff_exists']
  constructor
  · rintro ⟨⟨sp, inside⟩, awake⟩
    exact ⟨sp, inside, awake⟩
  · rintro ⟨sp, inside, awake⟩
    exact ⟨⟨sp, inside⟩, awake⟩

/-- A reset while no thread has been granted a slot. -/
theorem Inv.chMBResetI (inv : Inv idle n s) (careful : ∀ t, ¬ Granted s t) :
    Inv idle n s.chMBResetI := by
  obtain ⟨base, l, data⟩ := inv
  have nobody : ∀ sp, Sems.granted sp s.sems.log = [] := by
    intro sp
    apply List.eq_nil_iff_forall_not_mem.mpr
    intro t mem
    exact careful t ((granted_iff base).mpr ⟨sp, mem⟩)
  have head := data.holds.head
  refine ⟨⟨(base.sems.chSemResetI .empty s.ring.size).chSemResetI .full 0, ?_⟩, [], ?_, data.size,
    ?_, ?_, ?_⟩
  · intro t sp inside
    apply base.calls t sp
    rw [← inside]
    change s.sems.pc t = ((s.sems.chSemResetI .empty s.ring.size).chSemResetI .full 0).pc t
    rw [chSemResetI_pc, chSemResetI_pc]
  · apply holds_nil
    · change 0 < s.ring.size
      omega
    · rfl
  · change Mailbox.replay (s.log ++ [.reset]) = _
    rw [replay_concat, data.replay]
    rfl
  · change Sems.supply n .empty ((s.sems.chSemResetI .empty s.ring.size).chSemResetI .full 0).log =
      _
    rw [Sems.supply_chSemResetI, if_neg (by simp), Sems.supply_chSemResetI, if_pos rfl, nobody,
      data.size]
    simp
  · change Sems.supply 0 .full ((s.sems.chSemResetI .empty s.ring.size).chSemResetI .full 0).log = _
    rw [Sems.supply_chSemResetI, if_pos rfl, Sems.granted_chSemResetI, nobody]
    simp

/-! ### Runs -/

theorem Start.inv (start : Start idle n s) (pos : 0 < n) : Inv idle n s := by
  refine ⟨⟨start.sems.inv, ?_⟩, [], ?_, start.size, ?_, ?_, ?_⟩
  · intro t sp inside
    rw [start.sems.pc] at inside
    exact absurd inside (by simp)
  · apply holds_nil
    · rw [start.pointers.1, start.size]
      exact pos
    · rw [start.pointers.1, start.pointers.2]
  · rw [start.log]
    rfl
  · rw [start.sems.log]
    simp [Sems.supply, Sems.account, Sems.granted]
  · rw [start.sems.log]
    simp [Sems.supply, Sems.account, Sems.granted]

theorem Step.inv {s' : Mailbox T} {action : Action} (step : Step idle action s s')
    (inv : Inv idle n s) (careful : action = .reset → ∀ t, ¬ Granted s t) : Inv idle n s' := by
  cases step with
  | post msg timeout running other => exact inv.transfer running other _ timeout
  | postAhead msg timeout running other => exact inv.transfer running other _ timeout
  | fetch timeout running other => exact inv.transfer running other _ timeout
  | postI msg unlocked => exact inv.transferI unlocked _
  | postAheadI msg unlocked => exact inv.transferI unlocked _
  | fetchI unlocked => exact inv.transferI unlocked _
  | resume sp inside calm => exact inv.resume inside calm
  | isr unlocked isr => exact inv.isr unlocked isr
  | thread running thread => exact inv.thread running thread
  | reset running => exact (inv.chMBResetI (careful rfl)).reschedule
  | resetI unlocked => exact inv.chMBResetI (careful rfl)

theorem ReachableCarefully.reachable (reachable : ReachableCarefully idle n s) :
    Reachable idle n s := by
  obtain ⟨s₀, start, run⟩ := reachable
  refine ⟨s₀, start, ?_⟩
  induction run with
  | refl => exact .refl
  | tail _ step ih =>
      obtain ⟨action, step, _⟩ := step
      exact ih.tail ⟨action, step⟩

theorem ReachableCarefully.inv (reachable : ReachableCarefully idle n s) (pos : 0 < n) :
    Inv idle n s := by
  obtain ⟨s₀, start, run⟩ := reachable
  induction run with
  | refl => exact start.inv pos
  | tail _ step ih =>
      obtain ⟨action, step, careful⟩ := step
      exact step.inv ih careful

/-! ### Integrity -/

/-- What a call with `MSG_OK` did to the messages. -/
def MbCall.Done : MbCall → MbEvent → Prop
  | .post msg, e => e = .posted msg
  | .postAhead msg, e => e = .postedAhead msg
  | .fetch, e => ∃ msg, e = .fetched msg

/-- A call that returns `MSG_OK` has just moved its message. -/
def Answers (e next : MbEvent) : Prop := ∀ call, next = .returned call MSG_OK → MbCall.Done call e

/-- The messages of the history, and no others, are in the buffer; what returned `MSG_OK` is in
the history; and every slot is empty, full, or granted to a thread that has not run since. -/
structure Integrity (n : Nat) (s : Mailbox T) : Prop where
  stored : ∃ l, replay s.log = some l ∧ Holds s.ring l ∧ s.ring.size = n ∧ l.length ≤ n
  answered : List.IsChain Answers (.reset :: s.log)
  slots : ((s.sems.s_cnt .empty).toNat + (s.sems.s_cnt .full).toNat : ℕ∞) +
      {t | Granted s t}.encard = n

/-- A step adds nothing to the history, or a move, a return, or both. -/
inductive Grows (log : List MbEvent) : List MbEvent → Prop where
  | same : Grows log log
  | reset : Grows log (log ++ [.reset])
  | failed (call : MbCall) {msg : Int} (other : msg ≠ MSG_OK) :
    Grows log (log ++ [.returned call msg])
  | done (call : MbCall) {e : MbEvent} (done : MbCall.Done call e) :
    Grows log (log ++ [e] ++ [.returned call MSG_OK])

theorem move_done (ring : Circ Int) (call : MbCall) : MbCall.Done call (move ring call).2 := by
  cases call with
  | post msg => rfl
  | postAhead msg => rfl
  | fetch => exact ⟨_, rfl⟩

theorem MbCall.Done.answers {e : MbEvent} (done : MbCall.Done call e) (before : MbEvent) :
    Answers before e := by
  intro call' eq
  cases call with
  | post msg => exact absurd (eq.symm.trans done) (by simp)
  | postAhead msg => exact absurd (eq.symm.trans done) (by simp)
  | fetch =>
      obtain ⟨msg, done⟩ := done
      exact absurd (eq.symm.trans done) (by simp)

theorem proceed_grows (s : Mailbox T) (call : MbCall) (rdymsg : Int) :
    Grows s.log (s.proceed call rdymsg).log := by
  unfold Mailbox.proceed
  split_ifs with ok
  · subst ok
    exact .done call (move_done s.ring call)
  · exact .failed call ok

theorem transfer_grows (s : Mailbox T) (call : MbCall) (timeout : Timeout) :
    Grows s.log (s.transfer call timeout).log := by
  unfold Mailbox.transfer
  dsimp only
  split
  · exact proceed_grows
      { s with sems := (s.sems.chSemWaitTimeoutS (MbCall.needs call) timeout).2 } call _
  · exact .same

theorem transferI_grows (s : Mailbox T) (call : MbCall) : Grows s.log (s.transferI call).2.log := by
  unfold Mailbox.transferI
  split_ifs
  · exact .failed call (by decide)
  · exact .done call (move_done s.ring call)

theorem Step.grows {s' : Mailbox T} {action : Action} (step : Step idle action s s') :
    Grows s.log s'.log := by
  cases step with
  | post msg timeout _ _ => exact transfer_grows s _ timeout
  | postAhead msg timeout _ _ => exact transfer_grows s _ timeout
  | fetch timeout _ _ => exact transfer_grows s _ timeout
  | postI msg _ => exact transferI_grows s _
  | postAheadI msg _ => exact transferI_grows s _
  | fetchI _ => exact transferI_grows s _
  | resume sp _ _ => exact proceed_grows { s with sems := s.sems.resume sp } _ _
  | isr _ _ => exact .same
  | thread _ _ => exact .same
  | reset _ => exact .reset
  | resetI _ => exact .reset

theorem answered_concat {l : List MbEvent} {e : MbEvent} (chain : l.IsChain Answers)
    (last : ∀ before ∈ l.getLast?, Answers before e) : (l ++ [e]).IsChain Answers := by
  apply List.isChain_append.mpr
  refine ⟨chain, List.isChain_singleton e, ?_⟩
  intro before mem next first
  rw [List.head?_singleton, Option.mem_some_iff] at first
  exact first ▸ last before mem

theorem Grows.answered {log log' : List MbEvent} (grows : Grows log log')
    (chain : List.IsChain Answers (.reset :: log)) :
    List.IsChain Answers (.reset :: log') := by
  cases grows with
  | same => exact chain
  | reset => exact answered_concat chain fun _ _ call eq => absurd eq (by simp)
  | failed call other =>
      apply answered_concat chain
      intro _ _ call' eq
      exact absurd (MbEvent.returned.inj eq).2 other
  | @done call e done =>
      have moved := answered_concat chain fun before _ => done.answers before
      apply answered_concat moved
      intro before mem call' eq
      rw [List.getLast?_concat, Option.mem_some_iff] at mem
      rw [← mem, ← (MbEvent.returned.inj eq).1]
      exact done

theorem ReachableCarefully.answered (reachable : ReachableCarefully idle n s) :
    List.IsChain Answers (.reset :: s.log) := by
  obtain ⟨s₀, start, run⟩ := reachable
  induction run with
  | refl =>
      rw [start.log]
      exact List.isChain_singleton _
  | tail _ step ih =>
      obtain ⟨action, step, _⟩ := step
      exact step.grows.answered ih

/-- The threads granted a slot are those granted an empty one and those granted a full one. -/
theorem Base.granted_encard (base : Base idle n s) :
    {t | Granted s t}.encard =
      ((Sems.granted .empty s.sems.log).length + (Sems.granted .full s.sems.log).length : ℕ∞) := by
  have split : {t | Granted s t} =
      ↑((Sems.granted .empty s.sems.log).toFinset ∪ (Sems.granted .full s.sems.log).toFinset) := by
    ext t
    simp only [Set.mem_ofPred_eq, granted_iff base, Finset.coe_union, List.coe_toFinset,
      Set.mem_union]
    constructor
    · rintro ⟨sp, mem⟩
      cases sp with
      | empty => exact .inl mem
      | full => exact .inr mem
    · rintro (mem | mem)
      · exact ⟨.empty, mem⟩
      · exact ⟨.full, mem⟩
  have apart : Disjoint (Sems.granted .empty s.sems.log).toFinset
      (Sems.granted .full s.sems.log).toFinset := by
    rw [Finset.disjoint_left]
    intro t left right
    rw [List.mem_toFinset, base.sems.base.mem_granted] at left right
    exact absurd (left.1.symm.trans right.1) (by simp)
  rw [split, Set.encard_coe_eq_coe_finsetCard, Finset.card_union_of_disjoint apart,
    List.toFinset_card_of_nodup (base.sems.base.granted_nodup .empty),
    List.toFinset_card_of_nodup (base.sems.base.granted_nodup .full)]
  push_cast
  rfl

theorem Inv.slots (inv : Inv idle n s) :
    ((s.sems.s_cnt .empty).toNat + (s.sems.s_cnt .full).toNat : ℕ∞) + {t | Granted s t}.encard =
      n := by
  obtain ⟨base, l, data⟩ := inv
  have empty : max 0 (s.sems.s_cnt .empty) + (Sems.granted .empty s.sems.log).length =
      (n : Int) - l.length - 0 :=
    (base.sems.supply_eq .empty).symm.trans data.empty
  have full : max 0 (s.sems.s_cnt .full) + (Sems.granted .full s.sems.log).length =
      (l.length : Int) - 0 :=
    (base.sems.supply_eq .full).symm.trans data.full
  rw [base.granted_encard]
  norm_cast
  omega

theorem mailbox_integrity (idle : T) (n : Nat) (s : Mailbox T) (pos : 0 < n)
    (reachable : ReachableCarefully idle n s) : Integrity n s := by
  obtain ⟨base, l, data⟩ := reachable.inv pos
  refine ⟨⟨l, data.replay, data.holds, data.size, ?_⟩, reachable.answered,
    (reachable.inv pos).slots⟩
  have room := data.holds.room
  rw [data.size] at room
  exact room

end Proofs

/-! ### A reset while a slot is granted -/

/-- An idle thread, and two others; the one with the higher priority is current. The mailbox
has one slot. -/
def sampleStart : Mailbox (Fin 3) where
  sems :=
    { core :=
        { p_prio := ![ IDLEPRIO, 64, 128]
          p_state := ![.READY, .READY, .CURRENT]
          p_preempt := fun _ => CH_CFG_TIME_QUANTUM
          rdymsg := fun _ => MSG_OK
          ready := [1, 0]
          currp := 2
          log := [] }
      s_cnt := fun sp => initial 1 sp
      s_queue := fun _ => []
      timer := fun _ => false
      fired := none
      pc := fun _ => none
      log := [] }
  ring := { size := 1, buffer := fun _ => 0, rdptr := 0, wrptr := 0 }
  call := fun _ => .fetch
  log := []

theorem sampleStart_start : Start 0 1 sampleStart where
  sems :=
    { core :=
        { inv :=
            { sorted := by simp [Prio.Descending, sampleStart, IDLEPRIO]
              nodup := by decide
              mem_ready := by decide
              current := by decide
              awake := by decide }
          pos := by decide }
      asleep := by decide
      count _ := rfl
      queue _ := rfl
      timer _ := rfl
      fired := rfl
      pc _ := rfl
      log := rfl }
  size := rfl
  pointers := ⟨rfl, rfl⟩
  log := rfl

/-- The thread 2 fills the slot and sleeps, and the thread 1 waits for a slot. -/
def samplePosted : Mailbox (Fin 3) :=
  let s := sampleStart.chMBPostS 10 .infinite
  { s with sems := { s.sems with core := s.sems.core.chSchGoSleepS .OTHER } }.chMBPostS 20 .infinite

/-- An interrupt wakes the thread 2, which is granted the processor and fetches the message;
the slot goes to the thread 1. -/
def sampleFetched : Mailbox (Fin 3) :=
  let s := samplePosted
  let core := ((s.sems.core.setMsg 2 MSG_OK).chSchReadyI 2).epilogue
  { s with sems := { s.sems with core := core } }.chMBFetchS .infinite

theorem sampleFetched_reachable : ReachableCarefully 0 1 sampleFetched := by
  refine ⟨sampleStart, sampleStart_start, ?_⟩
  have posted : Step 0 .other sampleStart (sampleStart.chMBPostS 10 .infinite) :=
    .post 10 .infinite ⟨rfl, rfl⟩ (by decide)
  have run₁ := Relation.ReflTransGen.single (r := CarefulStep 0) ⟨_, posted, by simp⟩
  have run₂ := run₁.tail ⟨_, .thread ⟨rfl, rfl⟩ (.sleep (by decide)), by simp⟩
  have run₃ : Relation.ReflTransGen (CarefulStep 0) sampleStart samplePosted :=
    run₂.tail ⟨_, .post 20 .infinite ⟨rfl, rfl⟩ (by decide), by simp⟩
  have run₄ := run₃.tail ⟨_, .isr rfl (.ready 2 MSG_OK (by decide)), by simp⟩
  have run₅ := run₄.tail ⟨_, .thread ⟨rfl, rfl⟩ (.switch .epilogue), by simp⟩
  exact run₅.tail ⟨_, .fetch .infinite ⟨rfl, rfl⟩ (by decide), by simp⟩

/-- The thread 2 sleeps again, and the thread 1 fills the slot that it was granted. -/
def sampleFilled : Mailbox (Fin 3) :=
  let s := sampleFetched
  { s with sems := { s.sems with core := s.sems.core.chSchGoSleepS .OTHER } }.resume .empty

/-- It resets the mailbox, while no slot is granted, and posts again. -/
def sampleReset : Mailbox (Fin 3) := sampleFilled.chMBReset.chMBPostS 30 .infinite

theorem sampleReset_reachable : ReachableCarefully 0 1 sampleReset := by
  obtain ⟨s₀, start, run⟩ := sampleFetched_reachable
  have asleep := run.tail ⟨_, .thread ⟨rfl, rfl⟩ (.sleep (by decide)), by simp⟩
  have filled : Relation.ReflTransGen (CarefulStep 0) s₀ sampleFilled :=
    asleep.tail ⟨_, .resume .empty rfl rfl, by simp⟩
  have free : ∀ t, ¬ Granted sampleFilled t := by decide
  have reset := filled.tail ⟨_, .reset ⟨rfl, rfl⟩, fun _ => free⟩
  exact ⟨s₀, start, reset.tail ⟨_, .post 30 .infinite ⟨rfl, rfl⟩ (by decide), by simp⟩⟩

/-- The slot is granted to the thread 1, used, emptied by the reset and filled again. -/
theorem sampleReset_integrity :
    Integrity 1 sampleFetched ∧ Granted sampleFetched 1 ∧ Integrity 1 sampleReset ∧
      replay sampleFilled.log = some [20] ∧ replay sampleReset.log = some [30] :=
  ⟨mailbox_integrity 0 1 sampleFetched (by decide) sampleFetched_reachable, by decide,
    mailbox_integrity 0 1 sampleReset (by decide) sampleReset_reachable, by decide, by decide⟩

/-- A reset now makes the slot empty, and the thread 1 still has it. -/
theorem reset_breaks_integrity :
    ¬ ∀ s : Mailbox (Fin 3), Reachable 0 1 s → Integrity 1 s := by
  intro integrity
  obtain ⟨s₀, start, run⟩ := sampleFetched_reachable.reachable
  have reset := integrity _ ⟨s₀, start, run.tail ⟨_, .reset ⟨rfl, rfl⟩⟩⟩
  have granted : {t | Granted sampleFetched.chMBReset t}.Nonempty := ⟨1, by decide⟩
  have slots : (1 : ℕ∞) + 0 + {t | Granted sampleFetched.chMBReset t}.encard = 1 := reset.slots
  rw [← Set.one_le_encard_iff_nonempty] at granted
  have twice : (1 : ℕ∞) + 0 + 1 ≤ 1 := (add_le_add_right granted (1 + 0)).trans slots.le
  exact absurd twice (by decide)

end Mailbox

end LtcOs.Kernel
