import LtcOs.Kernel.Callers
import LtcOs.Lib.Circular
import Mathlib.Data.Set.Card

/-!
Input and output byte queues (`chqueues.c`, `chqueues.h`).

Threads read an input queue that an interrupt handler fills, and write an output queue
that an interrupt handler empties. In both the counter says what the threads can use, bytes
or free places, and in both a thread that finds nothing waits until the handler wakes
it. The notification callback of a queue runs under the lock of the caller; what it does
to the queue are calls of a handler.
-/

namespace LtcOs.Kernel

open LtcOs.Circular

/-- What a thread waits for; `OTHER` stands for everything but the queue. -/
inductive QWait where
  | QUEUED
  | OTHER
deriving DecidableEq, Repr

/-- An `input_queue_t` or an `output_queue_t`. -/
inductive Direction where
  | input
  | output
deriving DecidableEq, Repr

def Q_OK : Int := MSG_OK

def Q_TIMEOUT : Int := MSG_TIMEOUT

def Q_RESET : Int := MSG_RESET

def Q_EMPTY : Int := -3

def Q_FULL : Int := -4

/-- A call under way: `chIQGetTimeout` or `chOQPutTimeout` for a `single` byte, else
`chIQReadTimeout` or `chOQWriteTimeout`. The buffer of the caller is in two parts, that before
the pointer and that from it on; a single byte is in a buffer of one. -/
structure Call where
  single : Bool
  passed : List UInt8
  bp : List UInt8
  transferred : Nat
  timeout : Timeout
deriving DecidableEq, Repr

/-- A thread is outside, slept in a call and returns to it locked, or is between two bytes
of a call. -/
inductive QPc where
  | outside
  | asleep (call : Call)
  | unlocked (call : Call)
deriving DecidableEq, Repr

/-- Calls begin; bytes go into the queue and come out, moved by a thread or by the handler;
calls return, with what is in the buffer then; and the queue is reset. -/
inductive ByteEvent (T : Type) where
  | called (tp : T) (call : Call)
  | accepted (who : Option T) (b : UInt8)
  | delivered (who : Option T) (b : UInt8)
  | returned (tp : T) (result : Int) (buffer : List UInt8)
  | reset
deriving DecidableEq, Repr

structure IoQueue (T : Type) where
  core : Core T QWait
  q_waiting : List T
  q_counter : Nat
  ring : Circ UInt8
  timer : T → Bool
  fired : Option T
  pc : T → QPc
  log : List (ByteEvent T)

variable {T : Type}

namespace IoQueue

/-! ### The code -/

section Code

variable [DecidableEq T]

def chIQIsEmptyI (s : IoQueue T) : Bool := decide (s.q_counter = 0)

def chIQIsFullI (s : IoQueue T) : Bool := decide (s.ring.wrptr = s.ring.rdptr ∧ s.q_counter ≠ 0)

def chOQIsEmptyI (s : IoQueue T) : Bool := decide (s.ring.wrptr = s.ring.rdptr ∧ s.q_counter ≠ 0)

def chOQIsFullI (s : IoQueue T) : Bool := decide (s.q_counter = 0)

def setCounter (s : IoQueue T) (n : Nat) : IoQueue T := { s with q_counter := n }

/-- `*q_wrptr++ = b`. -/
def accept (s : IoQueue T) (who : Option T) (b : UInt8) : IoQueue T :=
  { s with ring := store s.ring b, log := s.log ++ [.accepted who b] }

/-- `*q_rdptr++`. -/
def deliver (s : IoQueue T) (who : Option T) : UInt8 × IoQueue T :=
  (first s.ring, { s with ring := drop s.ring, log := s.log ++ [.delivered who (first s.ring)] })

def chThdDequeueNextI (s : IoQueue T) (msg : Int) : IoQueue T :=
  match s.q_waiting with
  | [] => s
  | tp :: rest => { s with q_waiting := rest, core := (s.core.setMsg tp msg).chSchReadyI tp }

def chThdDequeueAllI (msg : Int) : (rounds : Nat) → IoQueue T → IoQueue T
  | 0, s => s
  | rounds + 1, s => chThdDequeueAllI msg rounds (s.chThdDequeueNextI msg)

def chIQPutI (s : IoQueue T) (b : UInt8) : Int × IoQueue T :=
  if s.chIQIsFullI then (Q_FULL, s)
  else (Q_OK, ((s.setCounter (s.q_counter + 1)).accept none b).chThdDequeueNextI Q_OK)

def chOQGetI (s : IoQueue T) : Int × IoQueue T :=
  if s.chOQIsEmptyI then (Q_EMPTY, s)
  else
    let (b, s) := (s.setCounter (s.q_counter + 1)).deliver none
    (b.toNat, s.chThdDequeueNextI Q_OK)

/-- The queue is as it was at first, and every thread that waits is woken. -/
def resetWith (counter : Nat) (s : IoQueue T) : IoQueue T :=
  chThdDequeueAllI Q_RESET s.q_waiting.length
    { s with ring := rewind s.ring, q_counter := counter, log := s.log ++ [.reset] }

def chIQResetI (s : IoQueue T) : IoQueue T := s.resetWith 0

def chOQResetI (s : IoQueue T) : IoQueue T := s.resetWith s.ring.size

/-- The current thread leaves its call. -/
def leave (s : IoQueue T) (call : Call) (result : Int) : IoQueue T :=
  { s with
    pc := Function.update s.pc s.core.currp .outside
    log := s.log ++ [.returned s.core.currp result (call.passed ++ call.bp)] }

/-- What a call returns when it ends with a message: the message, or the number of bytes
transferred. -/
def Call.result (call : Call) (msg : Int) : Int := if call.single then msg else call.transferred

/-- The current thread goes on the queue and to sleep. -/
def enqueue (s : IoQueue T) (call : Call) : IoQueue T :=
  { s with
    q_waiting := s.q_waiting ++ [s.core.currp]
    core := s.core.chSchGoSleepS .QUEUED
    timer := Function.update s.timer s.core.currp (decide (call.timeout = .finite))
    pc := Function.update s.pc s.core.currp (.asleep call) }

/-- The transfer of one byte by the current thread: to the place at `bp`, or from it. The result
is what is in that place afterwards. -/
def transfer (dir : Direction) (s : IoQueue T) (b : UInt8) : UInt8 × IoQueue T :=
  let s := s.setCounter (s.q_counter - 1)
  match dir with
  | .input => s.deliver (some s.core.currp)
  | .output => (b, s.accept (some s.core.currp) b)

/-- What a call for a single byte returns when it has transferred it. -/
def Direction.result (b : UInt8) : Direction → Int
  | .input => b.toNat
  | .output => Q_OK

/-- The pointer moves over a place that has the byte `b` now. -/
def Call.pass (call : Call) (b : UInt8) (bp : List UInt8) : Call :=
  { call with passed := call.passed ++ [b], bp := bp, transferred := call.transferred + 1 }

/-- From the test of the counter to the next point without the lock: the thread sleeps,
or transfers one byte and goes on with the rest. -/
def attempt (dir : Direction) (s : IoQueue T) (call : Call) : IoQueue T :=
  if s.q_counter = 0 then
    if call.timeout = .immediate then s.leave call (Call.result call Q_TIMEOUT)
    else s.enqueue call
  else
    match call.bp with
    | [] => s.leave call call.transferred
    | b :: bp =>
        let (b, s) := s.transfer dir b
        let call := Call.pass call b bp
        if call.single then s.leave call (Direction.result b dir)
        else if bp = [] then s.leave call call.transferred
        else { s with pc := Function.update s.pc s.core.currp (.unlocked call) }

/-- A call begins. -/
def called (s : IoQueue T) (call : Call) : IoQueue T :=
  { s with log := s.log ++ [.called s.core.currp call] }

def enter (dir : Direction) (s : IoQueue T) (call : Call) : IoQueue T :=
  (s.called call).attempt dir call

def chIQGetTimeout (s : IoQueue T) (timeout : Timeout) : IoQueue T :=
  s.enter .input ⟨true, [], [0], 0, timeout⟩

def chIQReadTimeout (s : IoQueue T) (bp : List UInt8) (timeout : Timeout) : IoQueue T :=
  s.enter .input ⟨false, [], bp, 0, timeout⟩

def chOQPutTimeout (s : IoQueue T) (b : UInt8) (timeout : Timeout) : IoQueue T :=
  s.enter .output ⟨true, [], [b], 0, timeout⟩

def chOQWriteTimeout (s : IoQueue T) (bp : List UInt8) (timeout : Timeout) : IoQueue T :=
  s.enter .output ⟨false, [], bp, 0, timeout⟩

/-- A message that ends a call. -/
def Call.ends (call : Call) (msg : Int) : Bool :=
  if call.single then decide (msg < Q_OK) else decide (msg ≠ Q_OK)

/-- The current thread runs again after it slept in a call: the timer is reset, and the
message is looked at. -/
def resume (dir : Direction) (s : IoQueue T) (call : Call) : IoQueue T :=
  let msg := s.core.rdymsg s.core.currp
  let s := { s with timer := Function.update s.timer s.core.currp false }
  if Call.ends call msg then s.leave call (Call.result call msg) else s.attempt dir call

/-- The timeout callback `wakeup`. -/
def wakeup (s : IoQueue T) (tp : T) : IoQueue T :=
  match s.core.p_state tp with
  | .READY => s
  | .WAIT .QUEUED => { s with
      q_waiting := s.q_waiting.erase tp
      core := (s.core.setMsg tp MSG_TIMEOUT).chSchReadyI tp }
  | _ => { s with core := (s.core.setMsg tp MSG_TIMEOUT).chSchReadyI tp }

/-- The tick handler takes the timer of a thread off the list. -/
def expire (s : IoQueue T) (tp : T) : IoQueue T :=
  { s with timer := Function.update s.timer tp false, fired := some tp }

/-- The tick handler calls the callback. -/
def callback (s : IoQueue T) (tp : T) : IoQueue T := { s.wakeup tp with fired := none }

end Code

/-! ### Runs -/

section Steps

variable [DecidableEq T]

/-- The kernel is unlocked: the current thread did not just wake in a call. -/
def Unlocked (s : IoQueue T) : Prop := ∀ call, s.pc s.core.currp ≠ .asleep call

/-- What an interrupt handler does: it puts a byte into an input queue or takes one from an
output queue. -/
inductive Serve (s : IoQueue T) : Direction → IoQueue T → Prop where
  | put (b : UInt8) : Serve s .input (s.chIQPutI b).2
  | get : Serve s .output s.chOQGetI.2

/-- A call of the current thread. The buffer of a transfer is not empty. -/
inductive Begin (s : IoQueue T) : Direction → IoQueue T → Prop where
  | get (timeout : Timeout) : Begin s .input (s.chIQGetTimeout timeout)
  | read (bp : List UInt8) (timeout : Timeout) (some_bytes : bp ≠ []) :
    Begin s .input (s.chIQReadTimeout bp timeout)
  | put (b : UInt8) (timeout : Timeout) : Begin s .output (s.chOQPutTimeout b timeout)
  | write (bp : List UInt8) (timeout : Timeout) (some_bytes : bp ≠ []) :
      Begin s .output (s.chOQWriteTimeout bp timeout)

def reset (s : IoQueue T) : Direction → IoQueue T
  | .input => s.chIQResetI
  | .output => s.chOQResetI

/-- What else interrupt handlers do: they wake threads, and the tick handler takes timers
off the list and then calls their callbacks. -/
inductive Isr : IoQueue T → IoQueue T → Prop where
  | expire {s : IoQueue T} (tp : T) (calm : s.fired = none) (armed : s.timer tp = true) :
    Isr s (s.expire tp)
  | callback {s : IoQueue T} (tp : T) (fired : s.fired = some tp) : Isr s (s.callback tp)
  | ready {s : IoQueue T} (tp : T) (msg : Int) (waits : s.core.waiting tp = some .OTHER) :
      Isr s { s with core := (s.core.setMsg tp msg).chSchReadyI tp }
  | tick {s : IoQueue T} : Isr s { s with core := s.core.tick }

/-- What else threads do. The idle thread does not sleep. -/
inductive Thread (idle : T) : IoQueue T → IoQueue T → Prop where
  | sleep {s : IoQueue T} (out : s.pc s.core.currp = .outside) (other : s.core.currp ≠ idle) :
      Thread idle s { s with core := s.core.chSchGoSleepS .OTHER }
  | wakeup {s : IoQueue T} (tp : T) (msg : Int) (waits : s.core.waiting tp = some .OTHER) :
      Thread idle s { s with core := s.core.chSchWakeupS tp msg }
  | switch {s : IoQueue T} {c : Core T QWait} (switch : s.core.Switch c) :
    Thread idle s { s with core := c }

/-- One step under the kernel lock. Threads do not run while the tick handler is between a
timer and its callback. -/
inductive Step (idle : T) (dir : Direction) : IoQueue T → IoQueue T → Prop where
  | begin {s s' : IoQueue T} (out : s.pc s.core.currp = .outside) (calm : s.fired = none)
    (other : s.core.currp ≠ idle)
      (begins : Begin s dir s') : Step idle dir s s'
  | next {s : IoQueue T} (call : Call) (inside : s.pc s.core.currp = .unlocked call)
    (calm : s.fired = none) :
      Step idle dir s (s.attempt dir call)
  | resume {s : IoQueue T} (call : Call) (inside : s.pc s.core.currp = .asleep call)
    (calm : s.fired = none) :
      Step idle dir s (s.resume dir call)
  | serve {s s' : IoQueue T} (unlocked : s.Unlocked) (serves : Serve s dir s') : Step idle dir s s'
  | reset {s : IoQueue T} (unlocked : s.Unlocked) : Step idle dir s (s.reset dir)
  | isr {s s' : IoQueue T} (unlocked : s.Unlocked) (isr : Isr s s') : Step idle dir s s'
  | thread {s s' : IoQueue T} (unlocked : s.Unlocked) (calm : s.fired = none)
    (thread : Thread idle s s') :
      Step idle dir s s'

/-- An empty queue of `size` places, and no thread in a call. -/
structure Start (idle : T) (dir : Direction) (size : Nat) (s : IoQueue T) : Prop where
  core : s.core.Sound idle
  asleep : ∀ t, s.core.waiting t ≠ some .QUEUED
  waiting : s.q_waiting = []
  counter : s.q_counter = match dir with
    | .input => 0
    | .output => size
  size : s.ring.size = size
  pointers : s.ring.rdptr = 0 ∧ s.ring.wrptr = 0
  timer : ∀ t, s.timer t = false
  fired : s.fired = none
  pc : ∀ t, s.pc t = .outside
  log : s.log = []

def Reachable (idle : T) (dir : Direction) (size : Nat) (s : IoQueue T) : Prop :=
  ∃ s₀, Start idle dir size s₀ ∧ Relation.ReflTransGen (Step idle dir) s₀ s

end Steps

/-! ### Histories -/

/-- The bytes accepted since the last reset. -/
def accepted (log : List (ByteEvent T)) : List UInt8 :=
  log.foldl (fun l e => match e with
    | .accepted _ b => l ++ [b]
    | .reset => []
    | _ => l) []

/-- The bytes delivered since the last reset. -/
def delivered (log : List (ByteEvent T)) : List UInt8 :=
  log.foldl (fun l e => match e with
    | .delivered _ b => l ++ [b]
    | .reset => []
    | _ => l) []

/-- What an event is for the calls of the thread `tp`. -/
def effect [DecidableEq T] (tp : T) : ByteEvent T → Answers.Effect Call UInt8
  | .called t call => if t = tp then .called call else .other
  | .accepted who b => if who = some tp then .moved [b] else .other
  | .delivered who b => if who = some tp then .moved [b] else .other
  | .returned t _ _ => if t = tp then .returned else .other
  | .reset => .reset

abbrev Progress := Answers.Progress Call UInt8

/-- The call that a thread is in after a history. -/
def progress [DecidableEq T] (tp : T) (log : List (ByteEvent T)) : Option Progress :=
  Answers.progress (effect tp) log

/-- A result, and what is in the buffer of the caller, agree with what the call has done. A call
leaves out bytes only if it was given a timeout or the queue was reset meanwhile. -/
def Agrees (dir : Direction) (p : Progress) (r : Int × List UInt8) : Prop :=
  r.2 = p.items ++ p.call.bp.drop p.items.length ∧ (dir = .output → p.items <+: p.call.bp) ∧
    if p.call.single then
      (∃ b, p.items = [b] ∧ r.1 = Direction.result b dir) ∨
        p.items = [] ∧ (r.1 = Q_TIMEOUT ∧ p.call.timeout ≠ .infinite ∨
          r.1 = Q_RESET ∧ p.reset = true)
    else
      r.1 = p.items.length ∧ p.items.length ≤ p.call.bp.length ∧
        (p.items.length = p.call.bp.length ∨ p.call.timeout ≠ .infinite ∨ p.reset = true)

/-- Every call returns what the history says that it did. -/
def Reports [DecidableEq T] (dir : Direction) (log : List (ByteEvent T)) : Prop :=
  Answers.Reports effect (fun tp r => .returned tp r.1 r.2) (Agrees dir) log

section Log

variable (log : List (ByteEvent T)) (who : Option T) (b : UInt8) (t : T) (call : Call) (r : Int)
  (buffer : List UInt8)

@[simp] theorem accepted_called : accepted (log ++ [.called t call]) = accepted log := by
  simp [accepted]
@[simp] theorem accepted_accepted : accepted (log ++ [.accepted who b]) = accepted log ++ [b] := by
  simp [accepted]
@[simp] theorem accepted_delivered : accepted (log ++ [.delivered who b]) = accepted log := by
  simp [accepted]
@[simp] theorem accepted_returned : accepted (log ++ [.returned t r buffer]) = accepted log := by
  simp [accepted]
@[simp] theorem accepted_reset : accepted (log ++ [.reset]) = [] := by simp [accepted]
@[simp] theorem delivered_called : delivered (log ++ [.called t call]) = delivered log := by
  simp [delivered]
@[simp] theorem delivered_accepted : delivered (log ++ [.accepted who b]) = delivered log := by
  simp [delivered]
@[simp] theorem delivered_delivered :
    delivered (log ++ [.delivered who b]) = delivered log ++ [b] := by
  simp [delivered]
@[simp] theorem delivered_returned : delivered (log ++ [.returned t r buffer]) = delivered log := by
  simp [delivered]
@[simp] theorem delivered_reset : delivered (log ++ [.reset]) = [] := by simp [delivered]

end Log

/-! ### The invariant -/

/-- What the threads can use of a queue that holds `l`: its bytes, or its free places. -/
def usable (dir : Direction) (size : Nat) (l : List UInt8) : Nat :=
  match dir with
  | .input => l.length
  | .output => size - l.length

/-- The bytes in the queue are those accepted and not delivered, and the counter counts
them. -/
structure Data (dir : Direction) (s : IoQueue T) (l : List UInt8) : Prop where
  holds : Holds s.ring l
  counter : s.q_counter = usable dir s.ring.size l
  order : delivered s.log ++ l = accepted s.log

/-- A thread woken with `Q_OK` that has not run yet. -/
def Woken (s : IoQueue T) (t : T) : Prop :=
  (∃ call, s.pc t = .asleep call) ∧ s.core.waiting t = none ∧ s.core.rdymsg t = Q_OK

/-- As many threads as could use something have been woken. -/
def Served (s : IoQueue T) : Prop :=
  s.q_waiting ≠ [] → ∃ l : List T, l.Nodup ∧ (∀ t ∈ l, Woken s t) ∧ s.q_counter ≤ l.length

/-- The pointer of a call is behind the bytes moved, as the history has them. -/
structure Passed (dir : Direction) (p : Progress) (call : Call) : Prop where
  call : call = { p.call with
    passed := p.items
    bp := p.call.bp.drop p.items.length
    transferred := p.items.length }
  within : p.items.length ≤ p.call.bp.length
  same : dir = .output → p.items <+: p.call.bp

/-- There is more to do in a call under way; a single byte is in a buffer of one. -/
structure Going (dir : Direction) (p : Progress) (call : Call) : Prop extends Passed dir p call where
  more : p.items.length < p.call.bp.length
  single : p.call.single = true → p.call.bp.length = 1

/-- Where a thread is, with the timeout it sleeps with. -/
def place : QPc → CallPc Call
  | .outside => .outside
  | .asleep call => .asleep call call.timeout
  | .unlocked call => .unlocked call

section Invariant

variable [DecidableEq T]

def calls (dir : Direction) : Protocol T Call UInt8 (Int × List UInt8) (ByteEvent T) where
  effect := effect
  returned tp r := .returned tp r.1 r.2
  answers := Agrees dir
  going := Going dir
  timeout := Call.timeout
  effect_returned _ _ _ other := if_neg other

/-- The threads of the queue. -/
def callers (s : IoQueue T) : Callers T QWait Call (ByteEvent T) :=
  ⟨s.core, s.q_waiting, s.timer, s.fired, place ∘ s.pc, s.log⟩

/-- The calls have reported what they did, or will. -/
def Told (idle : T) (dir : Direction) (s : IoQueue T) : Prop :=
  Callers.Told (calls dir) idle .QUEUED s.callers

/-- The current thread is in a call with the lock, and what it has done meets a condition. -/
def Locked (idle : T) (dir : Direction) (s : IoQueue T) (so_far : Progress → Prop) : Prop :=
  Callers.Locked (calls dir) idle .QUEUED s.callers so_far

structure Inv (idle : T) (dir : Direction) (s : IoQueue T) : Prop where
  told : Told idle dir s
  data : ∃ l, Data dir s l
  served : Served s

end Invariant

section Proofs

variable {idle tp t : T} {dir : Direction} {s s' : IoQueue T} {l : List UInt8} {c : Core T QWait}
  {msg : Int} {call : Call} {result : Int} {so_far so_far' : Progress → Prop}

/-! ### Bytes -/

theorem Data.congr (data : Data dir s l) (ring : s'.ring = s.ring)
    (counter : s'.q_counter = s.q_counter) (accept : accepted s'.log = accepted s.log)
    (deliver : delivered s'.log = delivered s.log) : Data dir s' l := by
  constructor
  · rw [ring]
    exact data.holds
  · rw [counter, ring]
    exact data.counter
  · rw [accept, deliver]
    exact data.order

/-- The counter is what the handler tests for together with the pointers. -/
theorem Data.limit_iff (data : Data dir s l) :
    (s.ring.wrptr = s.ring.rdptr ∧ s.q_counter ≠ 0) ↔ s.q_counter = s.ring.size := by
  have room := data.holds.room
  have head := data.holds.head
  have counter := data.counter
  rw [data.holds.pointers, ← List.length_eq_zero_iff]
  cases dir with
  | input =>
      change s.q_counter = l.length at counter
      omega
  | output =>
      change s.q_counter = s.ring.size - l.length at counter
      omega

theorem Data.accept (data : Data dir s l) (who : Option T) (b : UInt8) {n : Nat}
    (room : l.length < s.ring.size) (counter : n = usable dir s.ring.size (l ++ [b])) :
    Data dir ((s.setCounter n).accept who b) (l ++ [b]) := by
  refine ⟨data.holds.store room b, counter, ?_⟩
  change delivered (s.log ++ [.accepted who b]) ++ (l ++ [b]) =
    accepted (s.log ++ [.accepted who b])
  rw [delivered_accepted, accepted_accepted, ← List.append_assoc, data.order]

theorem Data.deliver {b : UInt8} (data : Data dir s (b :: l)) (who : Option T) {n : Nat}
    (counter : n = usable dir s.ring.size l) :
    ((s.setCounter n).deliver who).1 = b ∧ Data dir ((s.setCounter n).deliver who).2 l := by
  have head : first s.ring = b := data.holds.first
  refine ⟨head, data.holds.drop, counter, ?_⟩
  change delivered (s.log ++ [.delivered who (first s.ring)]) ++ l =
    accepted (s.log ++ [.delivered who (first s.ring)])
  rw [delivered_delivered, accepted_delivered, head, List.append_assoc]
  exact data.order

/-- A byte is transferred by a thread. -/
theorem Data.transfer (data : Data dir s l) (some_use : s.q_counter ≠ 0) (b : UInt8) :
    ∃ l', Data dir (s.transfer dir b).2 l' := by
  have room := data.holds.room
  have counter := data.counter
  cases dir with
  | input =>
      change s.q_counter = l.length at counter
      obtain ⟨b', rest, rfl⟩ : ∃ b rest, l = b :: rest := by
        apply List.exists_cons_of_ne_nil
        rintro rfl
        exact some_use counter
      rw [List.length_cons] at counter
      exact ⟨rest, (data.deliver (n := s.q_counter - 1) (some s.core.currp) (by
        change _ = rest.length
        omega)).2⟩
  | output =>
      change s.q_counter = s.ring.size - l.length at counter
      refine ⟨l ++ [b], data.accept (n := s.q_counter - 1) (some s.core.currp) b (by omega) ?_⟩
      change _ = s.ring.size - (l ++ [b]).length
      rw [List.length_append, List.length_singleton]
      omega

/-- A transfer moves a byte and takes one from the counter; the threads are as they were. -/
theorem transfer_eq (dir : Direction) (s : IoQueue T) (b : UInt8) :
    ∃ ring log, (s.transfer dir b).2 =
      { s with ring := ring, q_counter := s.q_counter - 1, log := log } := by
  cases dir with
  | input => exact ⟨_, _, rfl⟩
  | output => exact ⟨_, _, rfl⟩

/-! ### Threads -/

theorem place_asleep {pc : QPc} {timeout : Timeout} (asleep : place pc = .asleep call timeout) :
    pc = .asleep call ∧ call.timeout = timeout := by
  cases pc with
  | asleep call' =>
      obtain ⟨rfl, rfl⟩ := CallPc.asleep.inj asleep
      exact ⟨rfl, rfl⟩
  | _ => cases asleep

variable [DecidableEq T]

omit [DecidableEq T] in
theorem Unlocked.callers (unlocked : s.Unlocked) : s.callers.Unlocked := by
  intro call timeout asleep
  exact unlocked call (place_asleep asleep).1

theorem Told.queued (told : Told idle dir s) (waits : s.core.waiting t = some .QUEUED) :
    ∃ call, s.pc t = .asleep call := by
  obtain ⟨call, timeout, inside⟩ := told.base.inside t waits
  exact ⟨call, (place_asleep inside).1⟩

omit [DecidableEq T] in
theorem Served.of (served : Served s) (woken : ∀ t, Woken s t → Woken s' t)
    (waiting : s'.q_waiting ≠ [] → s.q_waiting ≠ []) (counter : s'.q_counter ≤ s.q_counter) :
    Served s' := by
  intro waits
  obtain ⟨l, nodup, all, enough⟩ := served (waiting waits)
  exact ⟨l, nodup, fun t mem => woken t (all t mem), counter.trans enough⟩

theorem woken_quiet (quiet : Core.Quiet idle s.core c) (t : T) (woken : Woken s t) :
    Woken { s with core := c } t := by
  obtain ⟨inside, awake, msg⟩ := woken
  refine ⟨inside, ?_, ?_⟩
  · rw [quiet.waiting]
    exact awake
  · rw [quiet.rdymsg]
    exact msg

theorem woken_wake (wakes : Core.Wakes idle tp msg s.core c) (asleep : s.core.waiting tp ≠ none)
    (core : s'.core = c) (pc : s'.pc = s.pc) (t : T) (woken : Woken s t) : Woken s' t := by
  obtain ⟨inside, awake, ok⟩ := woken
  have other : t ≠ tp := by
    rintro rfl
    exact asleep awake
  refine ⟨?_, ?_, ?_⟩
  · rw [pc]
    exact inside
  · rw [core, wakes.waiting, Function.update_of_ne other]
    exact awake
  · rw [core, wakes.rdymsg, Function.update_of_ne other]
    exact ok

/-- The handler adds something to use and wakes a thread for it. -/
theorem Served.chThdDequeueNextI (served : Served s) (told : Told idle dir s) {ring : Circ UInt8}
    {log : List (ByteEvent T)} :
    Served ({ s with ring := ring, q_counter := s.q_counter + 1, log := log }.chThdDequeueNextI Q_OK) := by
  unfold IoQueue.chThdDequeueNextI
  split
  · next nil =>
    intro waits
    exact absurd nil waits
  · next tp rest queue =>
    change s.q_waiting = tp :: rest at queue
    have mem : tp ∈ s.q_waiting := by simp [queue]
    have queued : s.core.waiting tp = some .QUEUED := (told.base.mem tp).mp mem
    have asleep : s.core.waiting tp ≠ none := by simp [queued]
    have wakes := told.base.core.setMsg_ready asleep Q_OK
    intro _
    obtain ⟨l, nodup, all, enough⟩ := served (List.ne_nil_of_mem mem)
    refine ⟨tp :: l, List.nodup_cons.mpr ⟨?_, nodup⟩, ?_, ?_⟩
    · intro again
      exact asleep (all tp again).2.1
    · intro t mem
      rcases List.mem_cons.mp mem with rfl | mem
      · obtain ⟨call, inside⟩ := told.queued queued
        refine ⟨⟨call, inside⟩, ?_, ?_⟩
        · exact congrFun wakes.waiting t |>.trans (Function.update_self _ _ _)
        · exact congrFun wakes.rdymsg t |>.trans (Function.update_self _ _ _)
      · refine woken_wake wakes asleep ?_ ?_ t (all t mem)
        · rfl
        · rfl
    · rw [List.length_cons]
      exact Nat.succ_le_succ enough

theorem chThdDequeueNextI_rest (s : IoQueue T) (msg : Int) :
    (s.chThdDequeueNextI msg).ring = s.ring ∧ (s.chThdDequeueNextI msg).q_counter = s.q_counter ∧
      (s.chThdDequeueNextI msg).log = s.log ∧
        (s.chThdDequeueNextI msg).q_waiting = s.q_waiting.tail := by
  unfold chThdDequeueNextI
  split
  · next nil => exact ⟨rfl, rfl, rfl, by rw [nil, List.tail_nil]⟩
  · next queue => exact ⟨rfl, rfl, rfl, by rw [queue, List.tail_cons]⟩

/-- The loop of a reset empties the queue of threads. -/
theorem chThdDequeueAllI_rest (msg : Int) (rounds : Nat) (length : s.q_waiting.length = rounds) :
    (chThdDequeueAllI msg rounds s).ring = s.ring ∧
      (chThdDequeueAllI msg rounds s).q_counter = s.q_counter ∧
      (chThdDequeueAllI msg rounds s).log = s.log ∧
        (chThdDequeueAllI msg rounds s).q_waiting = [] := by
  induction rounds generalizing s with
  | zero => exact ⟨rfl, rfl, rfl, List.eq_nil_of_length_eq_zero length⟩
  | succ rounds ih =>
      obtain ⟨ring, counter, log, waiting⟩ := chThdDequeueNextI_rest s msg
      have shorter : (s.chThdDequeueNextI msg).q_waiting.length = rounds := by
        rw [waiting, List.length_tail, length]
        rfl
      obtain ⟨ring', counter', log', empty⟩ := ih shorter
      exact ⟨ring'.trans ring, counter'.trans counter, log'.trans log, empty⟩

/-! ### What calls report -/

theorem Going.pass {p : Progress} {b b' : UInt8} {bp : List UInt8} (going : Going dir p call)
    (bytes : call.bp = b :: bp) (same : dir = .output → b' = b) :
    Passed dir { p with items := p.items ++ [b'] } (Call.pass call b' bp) := by
  have rest : p.call.bp.drop p.items.length = b :: bp := by
    rw [← bytes, going.call]
  have next : p.call.bp.drop (p.items ++ [b']).length = bp := by
    rw [List.length_append, List.length_singleton, ← List.tail_drop, rest, List.tail_cons]
  refine ⟨?_, ?_, fun output => ?_⟩
  · rw [next, going.call]
    simp [Call.pass]
  · have more := going.more
    simp only [List.length_append, List.length_singleton]
    omega
  · obtain ⟨tail, whole⟩ := going.same output
    rw [← whole, List.drop_left] at rest
    refine ⟨bp, ?_⟩
    rw [← whole, rest, same output]
    simp

theorem Going.work {p : Progress} (going : Going dir p call) : call.bp ≠ [] := by
  have more := going.more
  rw [going.call]
  intro all
  exact absurd (List.drop_eq_nil_iff.mp all) (by omega)

theorem Passed.buffer {p : Progress} (passed : Passed dir p call) :
    call.passed ++ call.bp = p.items ++ p.call.bp.drop p.items.length := by
  rw [passed.call]

theorem Passed.agrees_single {p : Progress} {b : UInt8} (passed : Passed dir p call)
    (single : p.call.single = true) (one : p.items = [b]) :
    Agrees dir p (Direction.result b dir, call.passed ++ call.bp) := by
  refine ⟨passed.buffer, passed.same, ?_⟩
  rw [if_pos single]
  exact .inl ⟨b, one, rfl⟩

/-- A call that has come to the end of its buffer. -/
theorem Passed.agrees_all {p : Progress} (passed : Passed dir p call)
    (many : p.call.single ≠ true) (all : call.bp = []) :
    Agrees dir p (call.transferred, call.passed ++ call.bp) := by
  have whole : p.call.bp.length ≤ p.items.length := by
    rw [passed.call] at all
    exact List.drop_eq_nil_iff.mp all
  refine ⟨passed.buffer, passed.same, ?_⟩
  rw [if_neg many]
  refine ⟨?_, passed.within, .inl (Nat.le_antisymm passed.within whole)⟩
  rw [passed.call]

/-- A call that ends with a message reports what it moved before. -/
theorem Going.agrees {p : Progress} (going : Going dir p call)
    (excused : Callers.Excused (calls (T := T) dir) p call msg) (bad : msg ≠ Q_OK) :
    Agrees dir p (Call.result call msg, call.passed ++ call.bp) := by
  have kind : call.single = p.call.single := by rw [going.call]
  have same_timeout : call.timeout = p.call.timeout := by rw [going.call]
  have ends : msg = Q_TIMEOUT ∧ p.call.timeout ≠ .infinite ∨ msg = Q_RESET ∧ p.reset = true := by
    rw [← same_timeout]
    exact excused.resolve_left bad
  refine ⟨going.buffer, going.same, ?_⟩
  unfold Call.result
  rw [kind]
  split_ifs with single
  · refine .inr ⟨?_, ends⟩
    have more := going.more
    rw [going.single single] at more
    exact List.eq_nil_of_length_eq_zero (by omega)
  · exact ⟨by rw [going.call], going.within, .inr (ends.imp And.right And.right)⟩

/-! #### Inside a call -/

theorem Locked.leave (locked : Locked idle dir s (Agrees dir · (result, call.passed ++ call.bp))) :
    Told idle dir (s.leave call result) := by
  have left := Callers.Locked.leave locked fun tp r eq => by
    obtain ⟨result', buffer⟩ := r
    obtain ⟨rfl, rfl, rfl⟩ := ByteEvent.returned.inj eq
    exact ⟨rfl, rfl⟩
  unfold Told callers IoQueue.leave
  rw [Function.comp_update]
  exact left

theorem Locked.unlock (locked : Locked idle dir s (Going dir · call)) :
    Told idle dir { s with pc := Function.update s.pc s.core.currp (.unlocked call) } := by
  unfold Told callers
  rw [Function.comp_update]
  exact Callers.Locked.unlock locked

theorem Locked.enqueue (locked : Locked idle dir s (Going dir · call)) :
    Told idle dir (s.enqueue call) := by
  unfold Told callers IoQueue.enqueue
  rw [Function.comp_update]
  exact Callers.Locked.enqueue locked id

/-- A byte is moved by the current thread, and the history has it. -/
theorem Locked.transfer (locked : Locked idle dir s so_far) (b : UInt8)
    (now : ∀ p b', so_far p → (dir = .output → b' = b) → (s.transfer dir b).1 = b' →
      so_far' { p with items := p.items ++ [b'] }) :
    Locked idle dir (s.transfer dir b).2 so_far' := by
  have mine : ∀ t, t ≠ s.core.currp → some s.core.currp ≠ some t :=
    fun t away same => away (Option.some.inj same).symm
  cases dir with
  | input =>
      exact Callers.Locked.moved locked (if_pos rfl) (fun t away => if_neg (mine t away))
        (by rintro tp r ⟨⟩) fun p done => now p _ done (by simp) rfl
  | output =>
      exact Callers.Locked.moved locked (if_pos rfl) (fun t away => if_neg (mine t away))
        (by rintro tp r ⟨⟩) fun p done => now p b done (fun _ => rfl) rfl

theorem Locked.attempt (locked : Locked idle dir s (Going dir · call)) :
    Told idle dir (s.attempt dir call) := by
  unfold IoQueue.attempt
  split_ifs with nothing immediate
  · refine Locked.leave (locked.mono fun p going =>
      going.agrees (T := T) (.inr (.inl ⟨rfl, ?_⟩)) (by decide))
    change call.timeout ≠ .infinite
    rw [immediate]
    simp
  · exact locked.enqueue
  · cases bytes : call.bp with
    | nil =>
        obtain ⟨p, -, going⟩ := Callers.Locked.call locked
        exact absurd bytes going.work
    | cons b bp =>
        dsimp only
        generalize moved_eq : s.transfer dir b = moved
        obtain ⟨b', s₁⟩ := moved
        have moved : Locked idle dir s₁ fun p => Passed dir p (Call.pass call b' bp) ∧
            (p.call.single = true → p.items = [b'] ∧ p.call.bp.length = 1) ∧
            p.call.single = call.single := by
          have transferred : Locked idle dir (s.transfer dir b).2 fun p =>
              Passed dir p (Call.pass call (s.transfer dir b).1 bp) ∧
              (p.call.single = true → p.items = [(s.transfer dir b).1] ∧ p.call.bp.length = 1) ∧
              p.call.single = call.single := by
            refine Locked.transfer locked b ?_
            rintro p b'' going same rfl
            refine ⟨going.pass bytes same, fun single => ⟨?_, going.single single⟩, ?_⟩
            · have more := going.more
              rw [going.single single] at more
              have none : p.items = [] := List.eq_nil_of_length_eq_zero (by omega)
              rw [none, List.nil_append]
            · rw [going.call]
          rw [moved_eq] at transferred
          exact transferred
        have kind : (Call.pass call b' bp).single = call.single := rfl
        dsimp only
        rw [kind]
        split_ifs with single last
        · refine Locked.leave (moved.mono fun p now => ?_)
          obtain ⟨passed, one, same⟩ := now
          exact passed.agrees_single (same.trans single) (one (same.trans single)).1
        · refine Locked.leave (moved.mono fun p now => ?_)
          obtain ⟨passed, -, same⟩ := now
          exact passed.agrees_all (same ▸ single) last
        · refine Locked.unlock (moved.mono fun p now => ?_)
          obtain ⟨passed, -, same⟩ := now
          refine ⟨passed, ?_, fun is => absurd (same.symm.trans is) single⟩
          have rest : bp = p.call.bp.drop p.items.length := congrArg Call.bp passed.call
          by_contra all
          exact last (rest.trans (List.drop_eq_nil_iff.mpr (Nat.le_of_not_lt all)))

variable (call) in
/-- A call is noted when it begins. -/
theorem Told.called (told : Told idle dir s) (out : s.pc s.core.currp = .outside) :
    Told idle dir (s.called call) := by
  refine Callers.Told.silent told (fun t inside => if_neg ?_) (by rintro tp r ⟨⟩)
  rintro rfl
  exact inside (congrArg place out)

theorem Told.enter (told : Told idle dir s) (out : s.pc s.core.currp = .outside)
    (other : s.core.currp ≠ idle) (calm : s.fired = none) (fresh : call.passed = [])
    (zero : call.transferred = 0) (work : call.bp ≠ [])
    (single : call.single = true → call.bp.length = 1) :
    Locked idle dir (s.called call) (Going dir · call) := by
  refine Callers.Told.enter call told (congrArg place out) other calm (if_pos rfl)
    (fun t away => if_neg (Ne.symm away)) (by rintro tp r ⟨⟩) ?_
  refine ⟨⟨?_, Nat.zero_le _, fun _ => List.nil_prefix⟩, List.length_pos_of_ne_nil work, single⟩
  obtain ⟨single, passed, bp, transferred, timeout⟩ := call
  obtain rfl : passed = [] := fresh
  obtain rfl : transferred = 0 := zero
  rfl

/-- The next byte of a call. -/
theorem Told.next (told : Told idle dir s) (inside : s.pc s.core.currp = .unlocked call)
    (calm : s.fired = none) : Locked idle dir s (Going dir · call) :=
  Callers.Told.next told (congrArg place inside) calm

theorem Told.resume (told : Told idle dir s) (inside : s.pc s.core.currp = .asleep call)
    (calm : s.fired = none) :
    Locked idle dir { s with timer := Function.update s.timer s.core.currp false } fun p =>
      Going dir p call ∧ Callers.Excused (calls (T := T) dir) p call (s.core.rdymsg s.core.currp) :=
  (Callers.Told.resume told (congrArg place inside) calm).1

/-! #### Other threads and handlers -/

theorem Told.chThdDequeueNextI (told : Told idle dir s)
    (excused : ∀ t p call, progress t s.log = some p →
      Callers.Excused (calls (T := T) dir) p call msg) :
    Told idle dir (s.chThdDequeueNextI msg) := by
  unfold IoQueue.chThdDequeueNextI
  split
  · exact told
  · next tp rest queue =>
    exact Callers.Told.wakeFirst told queue fun call _ p _ has => excused tp p call has

theorem Told.chThdDequeueAllI (told : Told idle dir s) (rounds : Nat)
    (excused : ∀ t p call, progress t s.log = some p →
      Callers.Excused (calls (T := T) dir) p call msg) :
    Told idle dir (IoQueue.chThdDequeueAllI msg rounds s) := by
  induction rounds generalizing s with
  | zero => exact told
  | succ rounds ih =>
      refine ih (told.chThdDequeueNextI excused) fun t p call has => ?_
      rw [(chThdDequeueNextI_rest s msg).2.2.1] at has
      exact excused t p call has

/-- The handler moves a byte. -/
theorem Told.serve (told : Told idle dir s) (serves : Serve s dir s') : Told idle dir s' := by
  cases serves with
  | put b =>
      unfold chIQPutI
      split
      · exact told
      · refine Told.chThdDequeueNextI (Callers.Told.silent told ?_ ?_) fun _ _ _ _ => .inl rfl
        · exact fun t _ => (by simp [effect] : effect t (.accepted none b) = .other)
        · rintro tp r ⟨⟩
  | get =>
      unfold chOQGetI
      split
      · exact told
      · refine Told.chThdDequeueNextI (Callers.Told.silent told ?_ ?_) fun _ _ _ _ => .inl rfl
        · exact fun t _ => (by simp [effect] : effect t (.delivered none (first s.ring)) = .other)
        · rintro tp r ⟨⟩

theorem Told.resetWith (told : Told idle dir s) (n : Nat) : Told idle dir (s.resetWith n) := by
  have noted : Told idle dir
      { s with ring := rewind s.ring, q_counter := n, log := s.log ++ [.reset] } := by
    refine Callers.Told.reset told (fun _ => rfl) (by rintro tp r ⟨⟩) fun p call going => ?_
    exact ⟨⟨going.call, going.within, going.same⟩, going.more, going.single⟩
  refine noted.chThdDequeueAllI _ fun t p call has => ?_
  rw [progress, Answers.progress_concat] at has
  obtain ⟨p, -, rfl⟩ := Option.map_eq_some_iff.mp has
  exact .inr (.inr ⟨rfl, rfl⟩)

theorem Told.fired_cases (told : Told idle dir s) (unlocked : s.Unlocked)
    (fired : s.fired = some tp) : s.core.p_state tp = .WAIT .QUEUED ∨ s.core.p_state tp = .READY :=
  Callers.Told.fired_cases told unlocked.callers fired

theorem Told.wakeup (told : Told idle dir s) (unlocked : s.Unlocked) (fired : s.fired = some tp) :
    Told idle dir (s.wakeup tp) := by
  unfold IoQueue.wakeup
  rcases told.fired_cases unlocked fired with state | ready
  · simp only [state]
    exact Callers.Told.expired told fired state
  · simp only [ready]
    exact told

theorem Told.isr (told : Told idle dir s) (unlocked : s.Unlocked) (isr : Isr s s') :
    Told idle dir s' := by
  cases isr with
  | expire tp calm armed => exact Callers.Told.expire told armed
  | callback tp fired => exact Callers.Told.called (told.wakeup unlocked fired)
  | ready tp msg waits =>
      exact Callers.Told.wakes_other told waits (by simp)
        (told.base.core.setMsg_ready (by simp [callers, waits]) msg)
  | tick => exact Callers.Told.quiet told told.base.core.tick

theorem Told.thread (told : Told idle dir s) (thread : Thread idle s s') : Told idle dir s' := by
  cases thread with
  | sleep out other =>
      exact Callers.Told.sleeps_other told (congrArg place out) (by simp)
        (told.base.core.goSleep other .OTHER)
  | wakeup tp msg waits =>
      exact Callers.Told.wakes_other told waits (by simp)
        (told.base.core.wakeup (by simp [callers, waits]) msg)
  | switch switch => exact Callers.Told.quiet told (told.base.core.switch switch)

theorem Start.told {size : Nat} (start : Start idle dir size s) : Told idle dir s :=
  Callers.told_start start.core start.asleep start.waiting start.timer start.fired
    (fun t => congrArg place (start.pc t)) start.log

/-! ### The handler -/

/-- A byte that the handler puts is the last one in the queue. -/
theorem Data.chIQPutI (data : Data .input s l) (room : l.length ≠ s.ring.size) (b : UInt8) :
    s.chIQPutI b =
        (Q_OK, ((s.setCounter (s.q_counter + 1)).accept none b).chThdDequeueNextI Q_OK) ∧
      Data .input (s.chIQPutI b).2 (l ++ [b]) ∧
      accepted (s.chIQPutI b).2.log = accepted s.log ++ [b] := by
  have counter : s.q_counter = l.length := data.counter
  have limit := data.limit_iff
  have most := data.holds.room
  have some_room : s.chIQIsFullI ≠ true := by
    rw [chIQIsFullI, ne_eq, decide_eq_true_eq, limit, counter]
    exact room
  have put : s.chIQPutI b =
      (Q_OK, ((s.setCounter (s.q_counter + 1)).accept none b).chThdDequeueNextI Q_OK) :=
    if_neg some_room
  have more := data.accept (n := s.q_counter + 1) none b (by omega) (by simp [usable, counter])
  have rest := chThdDequeueNextI_rest ((s.setCounter (s.q_counter + 1)).accept none b) Q_OK
  refine ⟨put, ?_, ?_⟩
  · rw [put]
    apply more.congr rest.1 rest.2.1
    · rw [rest.2.2.1]
    · rw [rest.2.2.1]
  · rw [put, rest.2.2.1]
    exact accepted_accepted _ _ _

/-- The byte that the handler gets is the first one in the queue. -/
theorem Data.chOQGetI {b : UInt8} (data : Data .output s (b :: l)) :
    s.chOQGetI = ((b.toNat : Int),
        ((s.setCounter (s.q_counter + 1)).deliver none).2.chThdDequeueNextI Q_OK) ∧
      Data .output s.chOQGetI.2 l ∧ delivered s.chOQGetI.2.log = delivered s.log ++ [b] := by
  have counter : s.q_counter = s.ring.size - (b :: l).length := data.counter
  have limit := data.limit_iff
  have most := data.holds.room
  rw [List.length_cons] at counter most
  have some_bytes : s.chOQIsEmptyI ≠ true := by
    rw [chOQIsEmptyI, ne_eq, decide_eq_true_eq, limit]
    omega
  obtain ⟨byte, less⟩ := data.deliver (n := s.q_counter + 1) none (by
    change _ = s.ring.size - l.length
    omega)
  have get : s.chOQGetI = ((b.toNat : Int),
      ((s.setCounter (s.q_counter + 1)).deliver none).2.chThdDequeueNextI Q_OK) := by
    rw [IoQueue.chOQGetI, if_neg some_bytes, ← byte]
  have rest := chThdDequeueNextI_rest ((s.setCounter (s.q_counter + 1)).deliver none).2 Q_OK
  refine ⟨get, ?_, ?_⟩
  · rw [get]
    apply less.congr rest.1 rest.2.1
    · rw [rest.2.2.1]
    · rw [rest.2.2.1]
  · rw [get, rest.2.2.1, ← byte]
    exact delivered_delivered _ _ _

theorem Inv.serve (inv : Inv idle dir s) (serves : Serve s dir s') : Inv idle dir s' := by
  have told := inv.told.serve serves
  obtain ⟨l, data⟩ := inv.data
  cases serves with
  | put b =>
      by_cases full : l.length = s.ring.size
      · have counter : s.q_counter = l.length := data.counter
        have refused : s.chIQIsFullI = true := by
          rw [chIQIsFullI, decide_eq_true_eq, data.limit_iff, counter]
          exact full
        rw [chIQPutI, if_pos refused]
        exact inv
      · obtain ⟨put, more, -⟩ := data.chIQPutI full b
        refine ⟨told, ⟨l ++ [b], more⟩, ?_⟩
        rw [put]
        exact inv.served.chThdDequeueNextI inv.told
  | get =>
      cases l with
      | nil =>
          have refused : s.chOQIsEmptyI = true := by
            rw [chOQIsEmptyI, decide_eq_true_eq, data.limit_iff]
            exact data.counter
          rw [chOQGetI, if_pos refused]
          exact inv
      | cons b l =>
          obtain ⟨get, less, -⟩ := data.chOQGetI
          refine ⟨told, ⟨l, less⟩, ?_⟩
          rw [get]
          exact inv.served.chThdDequeueNextI inv.told

theorem Inv.resetWith (inv : Inv idle dir s) {n : Nat} (counter : n = usable dir s.ring.size []) :
    Inv idle dir (s.resetWith n) := by
  obtain ⟨l, data⟩ := inv.data
  have pos : 0 < s.ring.size := Nat.zero_lt_of_lt data.holds.head
  obtain ⟨ring, count, log, empty⟩ := chThdDequeueAllI_rest Q_RESET s.q_waiting.length
    (s := { s with ring := rewind s.ring, q_counter := n, log := s.log ++ [.reset] }) rfl
  refine ⟨inv.told.resetWith n, ⟨[], ?_, ?_, ?_⟩, fun waits => absurd empty waits⟩
  · unfold IoQueue.resetWith
    rw [ring]
    exact holds_nil pos rfl
  · unfold IoQueue.resetWith
    rw [count, ring]
    exact counter
  · unfold IoQueue.resetWith
    rw [log, delivered_reset, accepted_reset]
    rfl

theorem Inv.reset (inv : Inv idle dir s) : Inv idle dir (s.reset dir) := by
  cases dir with
  | input => exact inv.resetWith rfl
  | output => exact inv.resetWith rfl

/-! ### The calls of threads -/

/-- Without the current thread, one woken thread may be missing. -/
def Spare (s : IoQueue T) : Prop :=
  s.q_waiting ≠ [] →
    ∃ l : List T, l.Nodup ∧ (∀ t ∈ l, Woken s t ∧ t ≠ s.core.currp) ∧ s.q_counter ≤ l.length + 1

omit [DecidableEq T] in
/-- A change of the place of the current thread leaves the other woken threads. -/
theorem Woken.other {pc : QPc} [DecidableEq T] (woken : Woken s t) (other : t ≠ s.core.currp)
    (core : s'.core = s.core) (same : s'.pc = Function.update s.pc s.core.currp pc) :
    Woken s' t := by
  obtain ⟨inside, awake, ok⟩ := woken
  refine ⟨?_, ?_, ?_⟩
  · rw [same, Function.update_of_ne other]
    exact inside
  · rw [core]
    exact awake
  · rw [core]
    exact ok

/-- After a transfer as many threads are woken as before, and there is one less to use. -/
theorem Spare.transferred {pc : QPc} (spare : Spare s) (core : s'.core = s.core)
    (waiting : s'.q_waiting = s.q_waiting) (counter : s'.q_counter = s.q_counter - 1)
    (same : s'.pc = Function.update s.pc s.core.currp pc) : Served s' := by
  intro waits
  rw [waiting] at waits
  obtain ⟨l, nodup, all, enough⟩ := spare waits
  refine ⟨l, nodup, ?_, ?_⟩
  · intro t mem
    obtain ⟨woken, other⟩ := all t mem
    exact woken.other other core same
  · rw [counter]
    omega

theorem Inv.attempt (locked : Locked idle dir s (Going dir · call)) (data : Data dir s l)
    (spare : Spare s) : Inv idle dir (s.attempt dir call) := by
  have told := locked.attempt
  obtain ⟨p, -, going⟩ := Callers.Locked.call locked
  unfold IoQueue.attempt at told ⊢
  by_cases nothing : s.q_counter = 0
  · rw [if_pos nothing] at told ⊢
    have enough : ∀ s' : IoQueue T, s'.q_counter = s.q_counter → Served s' := by
      intro s' same _
      exact ⟨[], List.nodup_nil, by simp, by rw [same, nothing]; exact Nat.zero_le _⟩
    split_ifs at told ⊢ with immediate
    · refine ⟨told, ⟨l, ?_⟩, enough _ rfl⟩
      exact data.congr rfl rfl (accepted_returned _ _ _ _) (delivered_returned _ _ _ _)
    · exact ⟨told, ⟨l, data.congr rfl rfl rfl rfl⟩, enough _ rfl⟩
  · rw [if_neg nothing] at told ⊢
    obtain ⟨b, bp, bytes⟩ := List.exists_cons_of_ne_nil going.work
    obtain ⟨l', moved⟩ := data.transfer nothing b
    obtain ⟨ring, log, eq⟩ := transfer_eq dir s b
    simp only [bytes] at told ⊢
    rw [eq] at told moved ⊢
    split_ifs at told ⊢ with single last
    · refine ⟨told, ⟨l', ?_⟩, spare.transferred rfl rfl rfl rfl⟩
      exact moved.congr rfl rfl (accepted_returned _ _ _ _) (delivered_returned _ _ _ _)
    · refine ⟨told, ⟨l', ?_⟩, spare.transferred rfl rfl rfl rfl⟩
      exact moved.congr rfl rfl (accepted_returned _ _ _ _) (delivered_returned _ _ _ _)
    · exact ⟨told, ⟨l', moved.congr rfl rfl rfl rfl⟩, spare.transferred rfl rfl rfl rfl⟩

omit [DecidableEq T] in
/-- The current thread is not asleep: it is not one of the woken threads. -/
theorem Served.spare (served : Served s) (unlocked : s.Unlocked) : Spare s := by
  intro waits
  obtain ⟨l, nodup, all, enough⟩ := served waits
  refine ⟨l, nodup, ?_, Nat.le_succ_of_le enough⟩
  intro t mem
  refine ⟨all t mem, ?_⟩
  rintro rfl
  obtain ⟨⟨call, inside⟩, -⟩ := all _ mem
  exact unlocked call inside

variable (call) in
theorem Inv.called (inv : Inv idle dir s) (out : s.pc s.core.currp = .outside) :
    Inv idle dir (s.called call) := by
  obtain ⟨l, data⟩ := inv.data
  refine ⟨inv.told.called call out, ⟨l, ?_⟩, inv.served⟩
  exact data.congr rfl rfl (accepted_called _ _ _) (delivered_called _ _ _)

theorem Inv.enter (inv : Inv idle dir s) (out : s.pc s.core.currp = .outside)
    (other : s.core.currp ≠ idle) (calm : s.fired = none) (fresh : call.passed = [])
    (zero : call.transferred = 0) (work : call.bp ≠ [])
    (single : call.single = true → call.bp.length = 1) : Inv idle dir (s.enter dir call) := by
  obtain ⟨l, data⟩ := (inv.called call out).data
  have spare : Spare s := inv.served.spare fun call' asleep => by
    rw [out] at asleep
    cases asleep
  exact Inv.attempt (inv.told.enter out other calm fresh zero work single) data spare

theorem Inv.begin (inv : Inv idle dir s) (out : s.pc s.core.currp = .outside)
    (calm : s.fired = none) (other : s.core.currp ≠ idle) (begins : Begin s dir s') :
    Inv idle dir s' := by
  cases begins with
  | get timeout => exact inv.enter out other calm rfl rfl (List.cons_ne_nil _ _) fun _ => rfl
  | read bp timeout some_bytes =>
      exact inv.enter out other calm rfl rfl some_bytes fun single => by cases single
  | put b timeout => exact inv.enter out other calm rfl rfl (List.cons_ne_nil _ _) fun _ => rfl
  | write bp timeout some_bytes =>
      exact inv.enter out other calm rfl rfl some_bytes fun single => by cases single

/-- The next byte of a call. -/
theorem Inv.next (inv : Inv idle dir s) (inside : s.pc s.core.currp = .unlocked call)
    (calm : s.fired = none) : Inv idle dir (s.attempt dir call) := by
  obtain ⟨l, data⟩ := inv.data
  refine Inv.attempt (inv.told.next inside calm) data (inv.served.spare fun call' asleep => ?_)
  rw [inside] at asleep
  cases asleep

omit [DecidableEq T] in
theorem Call.ends_ne {call : Call} (ends : Call.ends call msg = true) : msg ≠ Q_OK := by
  unfold Call.ends at ends
  split_ifs at ends
  · exact ne_of_lt (of_decide_eq_true ends)
  · exact of_decide_eq_true ends

theorem Inv.resume (inv : Inv idle dir s) (inside : s.pc s.core.currp = .asleep call)
    (calm : s.fired = none) : Inv idle dir (s.resume dir call) := by
  obtain ⟨l, data⟩ := inv.data
  have locked := inv.told.resume inside calm
  unfold IoQueue.resume
  dsimp only
  split_ifs with ends
  · -- The thread was not woken for something to use.
    have refused := Call.ends_ne ends
    refine ⟨?_, ⟨l, ?_⟩, ?_⟩
    · exact Locked.leave (locked.mono fun p now => now.1.agrees now.2 refused)
    · exact data.congr rfl rfl (accepted_returned _ _ _ _) (delivered_returned _ _ _ _)
    · apply inv.served.of
      · intro t woken
        have away : t ≠ s.core.currp := by
          rintro rfl
          exact refused woken.2.2
        exact woken.other away rfl rfl
      · exact id
      · exact le_rfl
  · refine Inv.attempt (locked.mono fun p now => now.1) (data.congr rfl rfl rfl rfl) ?_
    intro waits
    obtain ⟨ts, nodup, all, enough⟩ := inv.served waits
    refine ⟨ts.erase s.core.currp, nodup.erase _, ?_, ?_⟩
    · intro t mem
      obtain ⟨away, mem⟩ := nodup.mem_erase_iff.mp mem
      exact ⟨all t mem, away⟩
    · change s.q_counter ≤ _
      rw [List.length_erase]
      split_ifs <;> omega

/-! ### Steps and runs -/

/-- Nothing else touches the bytes. -/
theorem Isr.rest (isr : Isr s s') :
    s'.ring = s.ring ∧ s'.q_counter = s.q_counter ∧ s'.log = s.log := by
  cases isr with
  | callback tp fired =>
      change (s.wakeup tp).ring = s.ring ∧ (s.wakeup tp).q_counter = s.q_counter ∧
        (s.wakeup tp).log = s.log
      unfold IoQueue.wakeup
      split <;> exact ⟨rfl, rfl, rfl⟩
  | _ => exact ⟨rfl, rfl, rfl⟩

theorem Thread.rest (thread : Thread idle s s') :
    s'.ring = s.ring ∧ s'.q_counter = s.q_counter ∧ s'.log = s.log := by
  cases thread <;> exact ⟨rfl, rfl, rfl⟩

/-- What else interrupt handlers do leaves the woken threads as they are. -/
theorem Served.isr (served : Served s) (told : Told idle dir s) (unlocked : s.Unlocked)
    (isr : Isr s s') : Served s' := by
  have core := told.base.core
  cases isr with
  | expire tp calm armed => exact served
  | callback tp fired =>
      unfold IoQueue.callback IoQueue.wakeup
      rcases told.fired_cases unlocked fired with state | ready
      · have queued := Core.waiting_eq_some.mpr state
        have asleep : s.core.waiting tp ≠ none := by simp [queued]
        have wakes := core.setMsg_ready asleep MSG_TIMEOUT
        simp only [state]
        refine served.of (woken_wake wakes asleep rfl rfl) (fun _ => ?_) le_rfl
        exact List.ne_nil_of_mem ((told.base.mem tp).mpr queued)
      · simp only [ready]
        exact served
  | ready tp msg waits =>
      have asleep : s.core.waiting tp ≠ none := by simp [waits]
      exact served.of (woken_wake (core.setMsg_ready asleep msg) asleep rfl rfl) id le_rfl
  | tick => exact served.of (woken_quiet core.tick) id le_rfl

theorem Inv.isr (inv : Inv idle dir s) (unlocked : s.Unlocked) (isr : Isr s s') :
    Inv idle dir s' := by
  obtain ⟨l, data⟩ := inv.data
  obtain ⟨ring, counter, log⟩ := isr.rest
  exact ⟨inv.told.isr unlocked isr, ⟨l, data.congr ring counter (by rw [log]) (by rw [log])⟩,
    inv.served.isr inv.told unlocked isr⟩

theorem Served.thread (served : Served s) (told : Told idle dir s) (thread : Thread idle s s') :
    Served s' := by
  have core := told.base.core
  cases thread with
  | sleep out other =>
      have sleeps := core.goSleep other .OTHER
      refine served.of ?_ id le_rfl
      rintro t ⟨⟨call, inside⟩, awake, ok⟩
      have away : t ≠ s.core.currp := by
        rintro rfl
        exact absurd (out.symm.trans inside) (by simp)
      refine ⟨⟨call, inside⟩, ?_, ?_⟩
      · exact (congrFun sleeps.waiting t).trans ((Function.update_of_ne away _ _).trans awake)
      · exact (congrFun sleeps.rdymsg t).trans ok
  | wakeup tp msg waits =>
      have asleep : s.core.waiting tp ≠ none := by simp [waits]
      exact served.of (woken_wake (core.wakeup asleep msg) asleep rfl rfl) id le_rfl
  | switch switch => exact served.of (woken_quiet (core.switch switch)) id le_rfl

theorem Inv.thread (inv : Inv idle dir s) (thread : Thread idle s s') : Inv idle dir s' := by
  obtain ⟨l, data⟩ := inv.data
  obtain ⟨ring, counter, log⟩ := thread.rest
  exact ⟨inv.told.thread thread, ⟨l, data.congr ring counter (by rw [log]) (by rw [log])⟩,
    inv.served.thread inv.told thread⟩

theorem Start.inv {size : Nat} (start : Start idle dir size s) (pos : 0 < size) :
    Inv idle dir s := by
  refine ⟨start.told, ⟨[], ?_, ?_, ?_⟩, fun waits => absurd start.waiting waits⟩
  · apply holds_nil
    · rw [start.pointers.1, start.size]
      exact pos
    · rw [start.pointers.1, start.pointers.2]
  · rw [start.counter, start.size]
    cases dir with
    | input => rfl
    | output => rfl
  · rw [start.log]
    rfl

theorem Step.inv (step : Step idle dir s s') (inv : Inv idle dir s) : Inv idle dir s' := by
  cases step with
  | begin out calm other begins => exact inv.begin out calm other begins
  | next call inside calm => exact inv.next inside calm
  | resume call inside calm => exact inv.resume inside calm
  | serve unlocked serves => exact inv.serve serves
  | reset unlocked => exact inv.reset
  | isr unlocked isr => exact inv.isr unlocked isr
  | thread unlocked calm thread => exact inv.thread thread

theorem Reachable.inv {size : Nat} (reachable : Reachable idle dir size s) (pos : 0 < size) :
    Inv idle dir s := by
  obtain ⟨s₀, start, run⟩ := reachable
  induction run with
  | refl => exact start.inv pos
  | tail _ step ih => exact step.inv ih

/-! ### The size of a queue -/

theorem attempt_size (dir : Direction) (s : IoQueue T) (call : Call) :
    (s.attempt dir call).ring.size = s.ring.size := by
  unfold attempt
  split
  · split <;> rfl
  · split
    · rfl
    · next b bp _ =>
      have size : (s.transfer dir b).2.ring.size = s.ring.size := by cases dir <;> rfl
      dsimp only
      split
      · exact size
      · split
        · exact size
        · exact size

theorem resetWith_size (n : Nat) (s : IoQueue T) : (s.resetWith n).ring.size = s.ring.size := by
  have rest := chThdDequeueAllI_rest Q_RESET s.q_waiting.length
    (s := { s with ring := rewind s.ring, q_counter := n, log := s.log ++ [.reset] }) rfl
  exact (congrArg Circ.size rest.1 :)

theorem Step.size (step : Step idle dir s s') : s'.ring.size = s.ring.size := by
  cases step with
  | begin out calm other begins =>
      cases begins with
      | get timeout => exact attempt_size .input (s.called _) _
      | read bp timeout some_bytes => exact attempt_size .input (s.called _) _
      | put b timeout => exact attempt_size .output (s.called _) _
      | write bp timeout some_bytes => exact attempt_size .output (s.called _) _
  | next call inside calm => exact attempt_size _ s _
  | resume call inside calm =>
      unfold IoQueue.resume
      dsimp only
      split
      · rfl
      · exact attempt_size _ _ _
  | serve unlocked serves =>
      cases serves with
      | put b =>
          unfold chIQPutI
          split
          · rfl
          · rw [(chThdDequeueNextI_rest _ _).1]
            rfl
      | get =>
          unfold chOQGetI
          split
          · rfl
          · change (((s.setCounter (s.q_counter + 1)).deliver none).2.chThdDequeueNextI
              Q_OK).ring.size = _
            rw [(chThdDequeueNextI_rest _ _).1]
            rfl
  | reset unlocked =>
      cases dir with
      | input => exact resetWith_size _ s
      | output => exact resetWith_size _ s
  | isr unlocked isr => rw [isr.rest.1]
  | thread unlocked calm thread => rw [thread.rest.1]

theorem Reachable.size {size : Nat} (reachable : Reachable idle dir size s) :
    s.ring.size = size := by
  obtain ⟨s₀, start, run⟩ := reachable
  induction run with
  | refl => exact start.size
  | tail _ step ih => exact step.size.trans ih

/-! ### Lossless queues -/

/-- A queue of `size` places that holds the bytes `l`, as the threads and the handler see it. A
byte that the handler puts comes last, and it gets the first; every call of a thread returns
what it has done. -/
structure Lossless (dir : Direction) (size : Nat) (s : IoQueue T) (l : List UInt8) : Prop where
  stored : Holds s.ring l ∧ s.ring.size = size
  order : delivered s.log ++ l = accepted s.log
  counter : s.q_counter = usable dir size l
  iqEmpty : dir = .input → (s.chIQIsEmptyI = true ↔ l = [])
  iqFull : dir = .input → (s.chIQIsFullI = true ↔ l.length = size)
  oqEmpty : dir = .output → (s.chOQIsEmptyI = true ↔ l = [])
  oqFull : dir = .output → (s.chOQIsFullI = true ↔ l.length = size)
  put : dir = .input → ∀ b, if l.length = size then s.chIQPutI b = (Q_FULL, s)
    else (s.chIQPutI b).1 = Q_OK ∧ Holds (s.chIQPutI b).2.ring (l ++ [b]) ∧
      accepted (s.chIQPutI b).2.log = accepted s.log ++ [b]
  get : dir = .output → if l = [] then s.chOQGetI = (Q_EMPTY, s)
    else ∃ b rest, l = b :: rest ∧ s.chOQGetI.1 = b.toNat ∧ Holds s.chOQGetI.2.ring rest ∧
      delivered s.chOQGetI.2.log = delivered s.log ++ [b]
  reports : Reports dir s.log
  waiting : ∀ t, t ∈ s.q_waiting ↔ s.core.p_state t = .WAIT .QUEUED
  woken : s.q_waiting ≠ [] → s.q_counter ≤ {t | Woken s t}.encard

theorem Served.encard (served : Served s) (waits : s.q_waiting ≠ []) :
    s.q_counter ≤ {t | Woken s t}.encard := by
  obtain ⟨l, nodup, all, enough⟩ := served waits
  have sub : (l.toFinset : Set T) ⊆ {t | Woken s t} := by
    intro t mem
    exact all t (List.mem_toFinset.mp (Finset.mem_coe.mp mem))
  calc (s.q_counter : ℕ∞) ≤ l.length := by exact_mod_cast enough
    _ = (l.toFinset : Set T).encard := by rw [Set.encard_coe_eq_coe_finsetCard,
      List.toFinset_card_of_nodup nodup]
    _ ≤ {t | Woken s t}.encard := Set.encard_le_encard sub

theorem Inv.lossless (inv : Inv idle dir s) :
    ∃ l, Lossless dir s.ring.size s l := by
  obtain ⟨l, data⟩ := inv.data
  have room := data.holds.room
  have head := data.holds.head
  have limit := data.limit_iff
  have counter := data.counter
  have nil : l = [] ↔ l.length = 0 := List.length_eq_zero_iff.symm
  have iqFull : dir = .input → (s.chIQIsFullI = true ↔ l.length = s.ring.size) := by
    rintro rfl
    change s.q_counter = l.length at counter
    rw [chIQIsFullI, decide_eq_true_eq, limit, counter]
  have oqEmpty : dir = .output → (s.chOQIsEmptyI = true ↔ l = []) := by
    rintro rfl
    change s.q_counter = s.ring.size - l.length at counter
    rw [chOQIsEmptyI, decide_eq_true_eq, limit, nil]
    omega
  refine ⟨l, ⟨data.holds, rfl⟩, data.order, counter, ?_, iqFull, oqEmpty, ?_, ?_, ?_,
    inv.told.reports, ?_, inv.served.encard⟩
  · rintro rfl
    change s.q_counter = l.length at counter
    rw [chIQIsEmptyI, decide_eq_true_eq, counter, nil]
  · rintro rfl
    change s.q_counter = s.ring.size - l.length at counter
    rw [chOQIsFullI, decide_eq_true_eq]
    omega
  · intro input b
    split_ifs with full
    · rw [chIQPutI, if_pos ((iqFull input).mpr full)]
    · subst input
      obtain ⟨put, more, log⟩ := data.chIQPutI full b
      exact ⟨by rw [put], more.holds, log⟩
  · intro output
    split_ifs with empty
    · rw [chOQGetI, if_pos ((oqEmpty output).mpr empty)]
    · subst output
      obtain ⟨b, rest, rfl⟩ := List.exists_cons_of_ne_nil empty
      obtain ⟨get, less, log⟩ := data.chOQGetI
      exact ⟨b, rest, rfl, by rw [get], less.holds, log⟩
  · intro t
    rw [← Core.waiting_eq_some]
    exact inv.told.base.mem t

/-- In every run of threads and interrupt handlers a byte queue is a lossless FIFO that
knows full from empty, every call returns what it has moved, with the bytes in the caller's
buffer, and no thread waits while there is something for it that no woken thread is about to
use. -/
theorem queue_lossless (idle : T) (dir : Direction) (size : Nat) (pos : 0 < size) (s : IoQueue T)
    (reachable : Reachable idle dir size s) : ∃ l, Lossless dir size s l := by
  have lossless := (reachable.inv pos).lossless
  rwa [reachable.size] at lossless

end Proofs

/-! ### An example -/

/-- The idle thread and one other, which is current; an empty input queue of one place. -/
def sampleStart : IoQueue Bool where
  core :=
    { p_prio := fun t => if t then 128 else IDLEPRIO
      p_state := fun t => if t then .CURRENT else .READY
      p_preempt := fun _ => CH_CFG_TIME_QUANTUM
      rdymsg := fun _ => MSG_OK
      ready := [false]
      currp := true
      log := [] }
  q_waiting := []
  q_counter := 0
  ring := ⟨1, fun _ => 0, 0, 0⟩
  timer := fun _ => false
  fired := none
  pc := fun _ => .outside
  log := []

theorem sampleStart_start : Start false .input 1 sampleStart where
  core :=
    { inv :=
        { sorted := by simp [Prio.Descending, sampleStart]
          nodup := by decide
          mem_ready := by decide
          current := by decide
          awake := by decide }
      pos := by decide }
  asleep := by decide
  waiting := rfl
  counter := rfl
  size := rfl
  pointers := ⟨rfl, rfl⟩
  timer _ := rfl
  fired := rfl
  pc _ := rfl
  log := rfl

/-- The thread reads two bytes into its buffer, and sleeps; the handler puts the first one. -/
def sampleWoken : IoQueue Bool :=
  ((sampleStart.chIQReadTimeout [0, 0] .infinite).chIQPutI 7).2

/-- The thread runs again, takes the byte and sleeps for the next one. -/
def sampleHalf : IoQueue Bool :=
  let s := { sampleWoken with core := sampleWoken.core.chSchRescheduleS }
  (s.resume .input ⟨false, [], [0, 0], 0, .infinite⟩).attempt .input ⟨false, [7], [0], 1, .infinite⟩

/-- The handler puts it, and the call returns. -/
def sampleFull : IoQueue Bool :=
  let s := (sampleHalf.chIQPutI 8).2
  { s with core := s.core.chSchRescheduleS }.resume .input ⟨false, [7], [0], 1, .infinite⟩

theorem sampleHalf_reachable : Reachable false .input 1 sampleHalf := by
  refine ⟨sampleStart, sampleStart_start, ?_⟩
  have read : Step false .input sampleStart (sampleStart.chIQReadTimeout [0, 0] .infinite) :=
    .begin rfl rfl (by decide) (.read [0, 0] .infinite (by decide))
  have put : Step false .input (sampleStart.chIQReadTimeout [0, 0] .infinite) sampleWoken := by
    refine .serve ?_ (.put 7)
    rintro call ⟨⟩
  have switch : Step false .input sampleWoken
      { sampleWoken with core := sampleWoken.core.chSchRescheduleS } := by
    refine .thread ?_ rfl (.switch .reschedule)
    rintro call ⟨⟩
  have take : Step false .input { sampleWoken with core := sampleWoken.core.chSchRescheduleS } _ :=
    .resume ⟨false, [], [0, 0], 0, .infinite⟩ rfl rfl
  have wait : Step false .input _ sampleHalf := .next ⟨false, [7], [0], 1, .infinite⟩ rfl rfl
  exact ((((Relation.ReflTransGen.single read).tail put).tail switch).tail take).tail wait

theorem sampleFull_reachable : Reachable false .input 1 sampleFull := by
  obtain ⟨s₀, start, run⟩ := sampleHalf_reachable
  have put : Step false .input sampleHalf (sampleHalf.chIQPutI 8).2 := by
    refine .serve ?_ (.put 8)
    rintro call ⟨⟩
  have switch : Step false .input (sampleHalf.chIQPutI 8).2
      { (sampleHalf.chIQPutI 8).2 with core := (sampleHalf.chIQPutI 8).2.core.chSchRescheduleS } := by
    refine .thread ?_ rfl (.switch .reschedule)
    rintro call ⟨⟩
  have take : Step false .input
      { (sampleHalf.chIQPutI 8).2 with core := (sampleHalf.chIQPutI 8).2.core.chSchRescheduleS }
      sampleFull :=
    .resume ⟨false, [7], [0], 1, .infinite⟩ rfl rfl
  exact ⟨s₀, start, ((run.tail put).tail switch).tail take⟩

theorem sampleFull_lossless :
    (∃ l, Lossless .input 1 sampleFull l) ∧ accepted sampleFull.log = [7, 8] ∧
      sampleFull.log.getLast? = some (.returned true 2 [7, 8]) :=
  ⟨queue_lossless false .input 1 (by decide) _ sampleFull_reachable, by decide, by decide⟩

end IoQueue

end LtcOs.Kernel
