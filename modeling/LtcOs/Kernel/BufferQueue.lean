import LtcOs.Kernel.Callers
import LtcOs.Kernel.IoQueue

/-!
Input queues of buffers (`hal_buffers.c`).

An interrupt handler fills the empty buffers of a ring and posts them; threads read the
posted ones byte by byte or in chunks. The buffer being read is the current one, with a
pointer into it that all readers share. A thread that finds no current buffer and nothing
posted waits; when it runs again it takes the first posted buffer as the current one, from
its begin. The notification callback runs under the lock of the reader; what it does to the
queue are calls of the handler.
-/

namespace LtcOs.Kernel

open LtcOs.Circular

/-- A buffer with its size field. -/
structure Buffer where
  used : Nat
  data : Nat → UInt8

/-- The bytes of a posted buffer. -/
def Buffer.content (b : Buffer) : List UInt8 := (List.range b.used).map b.data

/-- The current buffer; `ptr` and `top` are offsets of its data. -/
structure Cursor where
  buffer : Nat
  ptr : Nat
  top : Nat
deriving DecidableEq, Repr

/-- A call under way: `ibqGetTimeout` for a `single` byte, else `ibqReadTimeout` of `n` bytes,
of which `r` are read. The buffer of the caller is in two parts, that before the pointer and that
from it on; a single byte is in a buffer of one. -/
structure ReadCall where
  single : Bool
  n : Nat
  passed : List UInt8
  bp : List UInt8
  r : Nat
  timeout : Timeout
deriving DecidableEq, Repr

/-- What is left of a finite timeout. -/
inductive Left where
  | some
  | nothing
  | passed
deriving DecidableEq, Repr

/-- A buffer is posted, calls begin, bytes are read, and calls return, with what is in the buffer
of the caller then. A read is marked with whether the buffer it was from was posted. -/
inductive BufEvent (T : Type) where
  | posted (bytes : List UInt8)
  | called (tp : T) (call : ReadCall)
  | read (tp : T) (bytes : List UInt8) (valid : Bool)
  | returned (tp : T) (result : Int) (buffer : List UInt8)
deriving DecidableEq, Repr

/-- An `input_buffers_queue_t`; `filling` says that the handler has an empty buffer. -/
structure BufferQueue (T : Type) where
  core : Core T QWait
  waiting : List T
  bcounter : Nat
  bsize : Nat
  ring : Circ Buffer
  cursor : Option Cursor
  filling : Bool
  timer : T → Bool
  fired : Option T
  pc : T → CallPc ReadCall
  log : List (BufEvent T)

variable {T : Type}

namespace BufferQueue

/-! ### The code -/

section Code

variable [DecidableEq T]

def ibqIsEmptyI (s : BufferQueue T) : Bool := decide (s.bcounter = 0)

def ibqIsFullI (s : BufferQueue T) : Bool := decide (s.ring.wrptr = s.ring.rdptr ∧ s.bcounter ≠ 0)

/-- The handler gets the buffer at the write pointer, or none. -/
def ibqGetEmptyBufferI (s : BufferQueue T) : BufferQueue T :=
  if s.ibqIsFullI then s else { s with filling := true }

/-- The handler writes a byte into its buffer. -/
def fill (s : BufferQueue T) (offset : Nat) (b : UInt8) : BufferQueue T :=
  let buffer := s.ring.buffer s.ring.wrptr
  let buffer := { buffer with data := Function.update buffer.data offset b }
  { s with ring := { s.ring with buffer := Function.update s.ring.buffer s.ring.wrptr buffer } }

def osalThreadDequeueNextI (s : BufferQueue T) (msg : Int) : BufferQueue T :=
  match s.waiting with
  | [] => s
  | tp :: rest => { s with waiting := rest, core := (s.core.setMsg tp msg).chSchReadyI tp }

def ibqPostFullBufferI (s : BufferQueue T) (size : Nat) : BufferQueue T :=
  let buffer := { s.ring.buffer s.ring.wrptr with used := size }
  osalThreadDequeueNextI { s with
    ring := store s.ring buffer
    bcounter := s.bcounter + 1
    filling := false
    log := s.log ++ [.posted buffer.content] } MSG_OK

def ibqReleaseEmptyBufferS (s : BufferQueue T) : BufferQueue T :=
  { s with bcounter := s.bcounter - 1, ring := drop s.ring, cursor := none }

/-- The current thread leaves its call. -/
def leave (s : BufferQueue T) (call : ReadCall) (result : Int) : BufferQueue T :=
  { s with
    pc := Function.update s.pc s.core.currp .outside
    log := s.log ++ [.returned s.core.currp result (call.passed ++ call.bp)] }

/-- What a call returns when it ends with a message: the message, or the number of bytes
read. -/
def ReadCall.result (call : ReadCall) (msg : Int) : Int := if call.single then msg else call.r

/-- The current thread goes on the queue and to sleep. -/
def enqueue (s : BufferQueue T) (call : ReadCall) (timeout : Timeout) : BufferQueue T :=
  { s with
    waiting := s.waiting ++ [s.core.currp]
    core := s.core.chSchGoSleepS .QUEUED
    timer := Function.update s.timer s.core.currp (decide (timeout = .finite))
    pc := Function.update s.pc s.core.currp (.asleep call timeout) }

/-- The buffer is one of the posted ones. -/
def isPosted (s : BufferQueue T) (buffer : Nat) : Bool :=
  (List.range s.bcounter).any fun i => slot s.ring.size s.ring.rdptr i == buffer

/-- The bytes at the pointer. -/
def chunk (s : BufferQueue T) (at_ : Cursor) (size : Nat) : List UInt8 :=
  (List.range' at_.ptr size).map (s.ring.buffer at_.buffer).data

/-- Bytes are read at the pointer, which moves on; a buffer that is fully read is released. -/
def take (s : BufferQueue T) (at_ : Cursor) (size : Nat) : BufferQueue T :=
  let valid := s.isPosted at_.buffer && decide (at_.ptr + size ≤ (s.ring.buffer at_.buffer).used)
  let s := { s with
    log := s.log ++ [.read s.core.currp (s.chunk at_ size) valid]
    cursor := some { at_ with ptr := at_.ptr + size } }
  if at_.top ≤ at_.ptr + size then s.ibqReleaseEmptyBufferS else s

/-- `memcpy` of bytes to the buffer of the caller, over which the pointer moves. -/
def ReadCall.memcpy (call : ReadCall) (bytes : List UInt8) : ReadCall :=
  { call with
    passed := call.passed ++ bytes
    bp := call.bp.drop bytes.length
    r := call.r + bytes.length }

/-- From the current buffer to the next point without the lock. -/
def proceed (s : BufferQueue T) (call : ReadCall) (at_ : Cursor) : BufferQueue T :=
  if call.single then
    (s.take at_ 1).leave (ReadCall.memcpy call (s.chunk at_ 1))
      ((s.ring.buffer at_.buffer).data at_.ptr).toNat
  else
    -- chunks are small in order to not make the critical zone too long
    let size := min (min (at_.top - at_.ptr) (call.n - call.r)) 64
    let call := ReadCall.memcpy call (s.chunk at_ size)
    let s := s.take at_ size
    if call.n ≤ call.r then s.leave call call.r
    else { s with pc := Function.update s.pc s.core.currp (.unlocked call) }

/-- `ibqGetFullBufferTimeoutS`, and then the rest of the call. -/
def ibqGetFullBufferTimeoutS (s : BufferQueue T) (call : ReadCall) (timeout : Timeout) :
    BufferQueue T :=
  if s.ibqIsEmptyI then
    if timeout = .immediate then s.leave call (ReadCall.result call MSG_TIMEOUT)
    else s.enqueue call timeout
  else
    let at_ : Cursor := ⟨s.ring.rdptr, 0, (s.ring.buffer s.ring.rdptr).used⟩
    proceed { s with cursor := some at_ } call at_

/-- The timeout for the next buffer; none if the deadline has passed. -/
def ReadCall.next (call : ReadCall) (left : Left) : Option Timeout :=
  if call.single ∨ call.timeout ≠ .finite then some call.timeout
  else match left with
    | .some => some .finite
    | .nothing => some .immediate
    | .passed => none

/-- From the test of the pointer to the next point without the lock. -/
def attempt (s : BufferQueue T) (call : ReadCall) (left : Left) : BufferQueue T :=
  match s.cursor with
  | some at_ => s.proceed call at_
  | none =>
      match ReadCall.next call left with
      | some timeout => s.ibqGetFullBufferTimeoutS call timeout
      | none => s.leave call call.r

/-- A call begins. -/
def enter (s : BufferQueue T) (call : ReadCall) : BufferQueue T :=
  attempt { s with log := s.log ++ [.called s.core.currp call] } call .some

def ibqGetTimeout (s : BufferQueue T) (timeout : Timeout) : BufferQueue T :=
  s.enter ⟨true, 1, [], [0], 0, timeout⟩

/-- The buffer of the caller has the length `n`. -/
def ibqReadTimeout (s : BufferQueue T) (bp : List UInt8) (timeout : Timeout) : BufferQueue T :=
  s.enter ⟨false, bp.length, [], bp, 0, timeout⟩

/-- The current thread runs again after it slept in a call: the timer is reset, and the
message is looked at. -/
def resume (s : BufferQueue T) (call : ReadCall) (timeout : Timeout) : BufferQueue T :=
  let msg := s.core.rdymsg s.core.currp
  let s := { s with timer := Function.update s.timer s.core.currp false }
  if msg < MSG_OK then s.leave call (ReadCall.result call msg)
  else s.ibqGetFullBufferTimeoutS call timeout

/-- The timeout callback `wakeup`. -/
def wakeup (s : BufferQueue T) (tp : T) : BufferQueue T :=
  match s.core.p_state tp with
  | .READY => s
  | .WAIT .QUEUED => { s with
      waiting := s.waiting.erase tp
      core := (s.core.setMsg tp MSG_TIMEOUT).chSchReadyI tp }
  | _ => { s with core := (s.core.setMsg tp MSG_TIMEOUT).chSchReadyI tp }

end Code

/-! ### Runs -/

section Steps

variable [DecidableEq T]

/-- The kernel is unlocked: the current thread did not just wake in a call. -/
def Unlocked (s : BufferQueue T) : Prop := ∀ call timeout, s.pc s.core.currp ≠ .asleep call timeout

/-- What the handler of the driver does. A posted buffer is not empty. -/
inductive Serve (s : BufferQueue T) : BufferQueue T → Prop where
  | getEmpty : Serve s s.ibqGetEmptyBufferI
  | fill (offset : Nat) (b : UInt8) (mine : s.filling = true) (inside : offset < s.bsize) :
    Serve s (s.fill offset b)
  | post (size : Nat) (mine : s.filling = true) (pos : 0 < size) (inside : size ≤ s.bsize) :
      Serve s (s.ibqPostFullBufferI size)

/-- A call of the current thread. -/
inductive Begin (s : BufferQueue T) : BufferQueue T → Prop where
  | get (timeout : Timeout) : Begin s (s.ibqGetTimeout timeout)
  | read (bp : List UInt8) (timeout : Timeout) (some_bytes : bp ≠ []) :
      Begin s (s.ibqReadTimeout bp timeout)

/-- What else interrupt handlers do: they wake threads, and the tick handler takes timers
off the list and then calls their callbacks. -/
inductive Isr : BufferQueue T → BufferQueue T → Prop where
  | expire {s : BufferQueue T} (tp : T) (calm : s.fired = none) (armed : s.timer tp = true) :
      Isr s { s with timer := Function.update s.timer tp false, fired := some tp }
  | callback {s : BufferQueue T} (tp : T) (fired : s.fired = some tp) :
    Isr s { s.wakeup tp with fired := none }
  | ready {s : BufferQueue T} (tp : T) (msg : Int) (waits : s.core.waiting tp = some .OTHER) :
      Isr s { s with core := (s.core.setMsg tp msg).chSchReadyI tp }
  | tick {s : BufferQueue T} : Isr s { s with core := s.core.tick }

/-- What else threads do. The idle thread does not sleep. -/
inductive Thread (idle : T) : BufferQueue T → BufferQueue T → Prop where
  | sleep {s : BufferQueue T} (out : s.pc s.core.currp = .outside) (other : s.core.currp ≠ idle) :
      Thread idle s { s with core := s.core.chSchGoSleepS .OTHER }
  | wakeup {s : BufferQueue T} (tp : T) (msg : Int) (waits : s.core.waiting tp = some .OTHER) :
      Thread idle s { s with core := s.core.chSchWakeupS tp msg }
  | switch {s : BufferQueue T} {c : Core T QWait} (switch : s.core.Switch c) :
    Thread idle s { s with core := c }

/-- One step under the kernel lock. Threads do not run while the tick handler is between a
timer and its callback. -/
inductive Step (idle : T) : BufferQueue T → BufferQueue T → Prop where
  | begin {s s' : BufferQueue T} (out : s.pc s.core.currp = .outside) (calm : s.fired = none)
      (other : s.core.currp ≠ idle) (begins : Begin s s') : Step idle s s'
  | next {s : BufferQueue T} (call : ReadCall) (left : Left)
    (inside : s.pc s.core.currp = .unlocked call)
      (calm : s.fired = none) : Step idle s (s.attempt call left)
  | resume {s : BufferQueue T} (call : ReadCall) (timeout : Timeout)
      (inside : s.pc s.core.currp = .asleep call timeout) (calm : s.fired = none) :
      Step idle s (s.resume call timeout)
  | serve {s s' : BufferQueue T} (unlocked : s.Unlocked) (serves : Serve s s') : Step idle s s'
  | isr {s s' : BufferQueue T} (unlocked : s.Unlocked) (isr : Isr s s') : Step idle s s'
  | thread {s s' : BufferQueue T} (unlocked : s.Unlocked) (calm : s.fired = none)
    (thread : Thread idle s s') :
      Step idle s s'

/-- `bn` empty buffers, and no thread in a call. -/
structure Start (idle : T) (bsize bn : Nat) (s : BufferQueue T) : Prop where
  core : s.core.Sound idle
  asleep : ∀ t, s.core.waiting t ≠ some .QUEUED
  waiting : s.waiting = []
  counter : s.bcounter = 0
  bsize : s.bsize = bsize
  size : s.ring.size = bn
  pointers : s.ring.rdptr = 0 ∧ s.ring.wrptr = 0
  cursor : s.cursor = none
  filling : s.filling = false
  timer : ∀ t, s.timer t = false
  fired : s.fired = none
  pc : ∀ t, s.pc t = .outside
  log : s.log = []

/-- States reached by steps from states that meet a condition. -/
def Reach (ok : BufferQueue T → Prop) (idle : T) (bsize bn : Nat) (s : BufferQueue T) : Prop :=
  ∃ s₀, Start idle bsize bn s₀ ∧ Relation.ReflTransGen (fun s s' => ok s ∧ Step idle s s') s₀ s

def Reachable (idle : T) (bsize bn : Nat) : BufferQueue T → Prop :=
  Reach (fun _ => True) idle bsize bn

/-- The condition under which no byte is read twice: a thread that was woken by a posting runs
again only while there is no current buffer. -/
def Undisturbed (s : BufferQueue T) : Prop :=
  ∀ call timeout, s.pc s.core.currp = .asleep call timeout → MSG_OK ≤ s.core.rdymsg s.core.currp →
    s.cursor = none

end Steps

/-! ### Histories -/

def postedBytes (log : List (BufEvent T)) : List UInt8 :=
  log.flatMap fun e => match e with
    | .posted bytes => bytes
    | _ => []

def readBytes (log : List (BufEvent T)) : List UInt8 :=
  log.flatMap fun e => match e with
    | .read _ bytes _ => bytes
    | _ => []

/-- What an event is for the calls of the thread `tp`. -/
def effect [DecidableEq T] (tp : T) : BufEvent T → Answers.Effect ReadCall UInt8
  | .posted _ => .other
  | .called t call => if t = tp then .called call else .other
  | .read t bytes _ => if t = tp then .moved bytes else .other
  | .returned t _ _ => if t = tp then .returned else .other

abbrev Progress := Answers.Progress ReadCall UInt8

/-- A result, and what is in the buffer of the caller, agree with what the call has read: the
byte, or the number of bytes that are in the buffer now. A call reads less only if it was given a
timeout. -/
def Agrees (p : Progress) (r : Int × List UInt8) : Prop :=
  r.2 = p.items ++ p.call.bp.drop p.items.length ∧
    if p.call.single then
      (∃ b, p.items = [b] ∧ r.1 = b.toNat) ∨
        p.items = [] ∧ r.1 = MSG_TIMEOUT ∧ p.call.timeout ≠ .infinite
    else
      r.1 = p.items.length ∧ p.items.length ≤ p.call.n ∧
        (p.items.length = p.call.n ∨ p.call.timeout ≠ .infinite)

/-- The bytes read are the first of the bytes posted, every read was from a posted buffer, and
every call returns what it has read. -/
structure Delivered [DecidableEq T] (s : BufferQueue T) : Prop where
  once : readBytes s.log <+: postedBytes s.log
  valid : ∀ tp bytes valid, .read tp bytes valid ∈ s.log → valid = true
  reports : Answers.Reports effect (fun tp r => .returned tp r.1 r.2) Agrees s.log

/-! ### The invariant -/

/-- The bytes of the posted buffers that have not been read. -/
def unread (cursor : Option Cursor) (l : List Buffer) : List UInt8 :=
  match cursor with
  | some at_ => (l.flatMap Buffer.content).drop at_.ptr
  | none => l.flatMap Buffer.content

/-- The ring holds the posted buffers, the first of which is the current one if there is one. -/
structure Inv (s : BufferQueue T) (l : List Buffer) : Prop where
  holds : Holds s.ring l
  counter : s.bcounter = l.length
  filling : s.filling = true → l.length < s.ring.size
  cursor : ∀ at_, s.cursor = some at_ →
    ∃ b rest, l = b :: rest ∧ at_.buffer = s.ring.rdptr ∧ at_.top = b.used ∧ at_.ptr < b.used
  used : ∀ b ∈ l, 0 < b.used
  bytes : postedBytes s.log = readBytes s.log ++ unread s.cursor l
  valid : ∀ tp bytes valid, .read tp bytes valid ∈ s.log → valid = true

/-- Nothing is posted or read. -/
structure Same (s s' : BufferQueue T) : Prop where
  ring : s'.ring = s.ring
  bcounter : s'.bcounter = s.bcounter
  filling : s'.filling = s.filling
  cursor : s'.cursor = s.cursor
  posted : postedBytes s'.log = postedBytes s.log
  read : readBytes s'.log = readBytes s.log
  reads : ∀ tp bytes valid, .read tp bytes valid ∈ s'.log → .read tp bytes valid ∈ s.log

section Proofs

variable {s s' : BufferQueue T} {l : List Buffer}

theorem Inv.same (inv : Inv s l) (same : Same s s') : Inv s' l where
  holds := by
    rw [same.ring]
    exact inv.holds
  counter := by
    rw [same.bcounter]
    exact inv.counter
  filling := by
    rw [same.filling, same.ring]
    exact inv.filling
  cursor := by
    rw [same.cursor, same.ring]
    exact inv.cursor
  used := inv.used
  bytes := by
    rw [same.posted, same.read, same.cursor]
    exact inv.bytes
  valid tp bytes valid mem := inv.valid tp bytes valid (same.reads tp bytes valid mem)

theorem same_of_log (ring : s'.ring = s.ring) (bcounter : s'.bcounter = s.bcounter)
    (filling : s'.filling = s.filling) (cursor : s'.cursor = s.cursor) (log : s'.log = s.log) :
    Same s s' :=
  ⟨ring, bcounter, filling, cursor, by rw [log], by rw [log], by rw [log]; exact fun _ _ _ mem => mem⟩

theorem length_content (b : Buffer) : b.content.length = b.used := by
  simp [Buffer.content]

/-- What is left of a buffer is a chunk and what is left after it. -/
theorem drop_content (b : Buffer) {ptr size : Nat} (inside : ptr + size ≤ b.used) :
    b.content.drop ptr = (List.range' ptr size).map b.data ++ b.content.drop (ptr + size) := by
  have split : List.range' ptr (b.used - ptr) =
      List.range' ptr size ++ List.range' (ptr + size) (b.used - (ptr + size)) := by
    rw [List.range'_append_1]
    congr 1
    omega
  simp only [Buffer.content, ← List.map_drop, List.range_eq_range', List.drop_range', Nat.zero_add,
    Nat.mul_one,
    ← List.map_append, split]

theorem Inv.take (inv : Inv s l) {at_ : Cursor} (current : s.cursor = some at_) {size : Nat}
    (inside : size ≤ at_.top - at_.ptr) : ∃ l', Inv (s.take at_ size) l' := by
  obtain ⟨b, rest, rfl, buffer, top, lt⟩ := inv.cursor at_ current
  have first : s.ring.buffer at_.buffer = b := by
    rw [buffer]
    exact inv.holds.first
  have fits : at_.ptr + size ≤ b.used := by omega
  have flat : (b :: rest).flatMap Buffer.content = b.content ++ rest.flatMap Buffer.content :=
    List.flatMap_cons
  have left : unread s.cursor (b :: rest) =
      s.chunk at_ size ++ (b.content ++ rest.flatMap Buffer.content).drop (at_.ptr + size) := by
    have length := length_content b
    simp only [unread, current, flat, chunk, first]
    rw [List.drop_append_of_le_length (by omega), List.drop_append_of_le_length (by omega),
      drop_content b fits,
      List.append_assoc]
  have posted : s.isPosted at_.buffer = true := by
    rw [isPosted, List.any_eq_true]
    refine ⟨0, ?_, ?_⟩
    · rw [List.mem_range, inv.counter, List.length_cons]
      exact Nat.succ_pos _
    · rw [slot_zero inv.holds.head, buffer]
      exact beq_self_eq_true _
  have valid : (s.isPosted at_.buffer && decide (at_.ptr + size ≤ (s.ring.buffer at_.buffer).used)) = true := by
    rw [posted, first, Bool.true_and]
    exact decide_eq_true fits
  have log : ∀ tp bytes v,
      .read tp bytes v ∈ s.log ++ [.read s.core.currp (s.chunk at_ size) true] → v = true := by
    intro tp bytes v mem
    rcases List.mem_append.mp mem with old | new
    · exact inv.valid tp bytes v old
    · cases List.mem_singleton.mp new
      rfl
  have bytes : postedBytes (s.log ++ [.read s.core.currp (s.chunk at_ size) true]) =
    readBytes (s.log ++ [.read s.core.currp (s.chunk at_ size) true]) ++
      (b.content ++ rest.flatMap Buffer.content).drop (at_.ptr + size) := by
    have before := inv.bytes
    rw [left] at before
    simp only [postedBytes, readBytes, List.flatMap_append, List.flatMap_singleton, List.append_nil,
      List.append_assoc]
    exact before
  unfold BufferQueue.take
  dsimp only
  rw [valid]
  split_ifs with done
  · refine ⟨rest, inv.holds.drop, ?_, ?_, by simp [ibqReleaseEmptyBufferS], ?_, ?_, log⟩
    · simp only [ibqReleaseEmptyBufferS, inv.counter, List.length_cons, Nat.add_sub_cancel]
    · intro filling
      exact Nat.lt_of_succ_lt (inv.filling filling)
    · intro b' mem
      exact inv.used b' (List.mem_cons_of_mem _ mem)
    · have all : at_.ptr + size = b.content.length := by
        rw [length_content]
        omega
      rw [all, List.drop_left] at bytes
      exact bytes
  · refine ⟨b :: rest, inv.holds, inv.counter, inv.filling, ?_, inv.used, ?_, log⟩
    · intro next eq
      cases eq
      refine ⟨b, rest, rfl, buffer, top, ?_⟩
      change at_.ptr + size < b.used
      omega
    · rw [← flat] at bytes
      exact bytes

/-! ### The calls -/

section Calls

variable [DecidableEq T]

theorem leave_same (s : BufferQueue T) (call : ReadCall) (result : Int) :
    Same s (s.leave call result) := by
  refine ⟨rfl, rfl, rfl, rfl, ?_, ?_, ?_⟩
  · simp [leave, postedBytes]
  · simp [leave, readBytes]
  · simp [leave]

theorem Inv.proceed (inv : Inv s l) {at_ : Cursor} (current : s.cursor = some at_) (call : ReadCall) :
    ∃ l', Inv (s.proceed call at_) l' := by
  have inside : min (min (at_.top - at_.ptr) (call.n - call.r)) 64 ≤ at_.top - at_.ptr := by omega
  unfold BufferQueue.proceed
  dsimp only
  split_ifs with single last
  · obtain ⟨b, rest, -, -, top, lt⟩ := inv.cursor at_ current
    obtain ⟨l', taken⟩ := inv.take current (show 1 ≤ at_.top - at_.ptr by omega)
    exact ⟨l', taken.same (leave_same _ _ _)⟩
  · obtain ⟨l', taken⟩ := inv.take current inside
    exact ⟨l', taken.same (leave_same _ _ _)⟩
  · obtain ⟨l', taken⟩ := inv.take current inside
    exact ⟨l', taken.same (same_of_log rfl rfl rfl rfl rfl)⟩

/-- The first posted buffer becomes the current one. There must be none. -/
theorem Inv.getFullBuffer (inv : Inv s l) (none : s.cursor = none) (call : ReadCall)
    (timeout : Timeout) :
    ∃ l', Inv (s.ibqGetFullBufferTimeoutS call timeout) l' := by
  unfold BufferQueue.ibqGetFullBufferTimeoutS
  split_ifs with empty immediate
  · exact ⟨l, inv.same (leave_same _ _ _)⟩
  · exact ⟨l, inv.same (same_of_log rfl rfl rfl rfl rfl)⟩
  · cases l with
    | nil =>
        have zero : s.ibqIsEmptyI = true := decide_eq_true inv.counter
        exact absurd zero empty
    | cons b rest =>
        have first : s.ring.buffer s.ring.rdptr = b := inv.holds.first
        have bytes := inv.bytes
        rw [none] at bytes
        have acquired :
            Inv { s with cursor := some ⟨s.ring.rdptr, 0, (s.ring.buffer s.ring.rdptr).used⟩ }
            (b :: rest) := by
          refine ⟨inv.holds, inv.counter, inv.filling, ?_, inv.used, bytes, inv.valid⟩
          intro at_ eq
          cases eq
          refine ⟨b, rest, rfl, rfl, congrArg Buffer.used first, ?_⟩
          exact inv.used b List.mem_cons_self
        exact acquired.proceed rfl call

theorem Inv.attempt (inv : Inv s l) (call : ReadCall) (left : Left) :
    ∃ l', Inv (s.attempt call left) l' := by
  unfold BufferQueue.attempt
  cases current : s.cursor with
  | some at_ => exact inv.proceed current call
  | none =>
      dsimp only
      split
      · exact inv.getFullBuffer current call _
      · exact ⟨l, inv.same (leave_same _ _ _)⟩

theorem Inv.enter (inv : Inv s l) (call : ReadCall) : ∃ l', Inv (s.enter call) l' := by
  have same : Same s { s with log := s.log ++ [.called s.core.currp call] } :=
    ⟨rfl, rfl, rfl, rfl, by simp [postedBytes], by simp [readBytes], by simp⟩
  exact (inv.same same).attempt call .some

theorem Inv.resume (inv : Inv s l) {call : ReadCall} {timeout : Timeout}
    (inside : s.pc s.core.currp = .asleep call timeout) (undisturbed : Undisturbed s) :
    ∃ l', Inv (s.resume call timeout) l' := by
  have reset : Inv { s with timer := Function.update s.timer s.core.currp false } l :=
    inv.same (same_of_log rfl rfl rfl rfl rfl)
  unfold BufferQueue.resume
  dsimp only
  split_ifs with woken
  · exact ⟨l, reset.same (leave_same _ _ _)⟩
  · exact reset.getFullBuffer (undisturbed call timeout inside (not_lt.mp woken)) call timeout

/-! ### The handlers -/

theorem dequeueNext_same (s : BufferQueue T) (msg : Int) :
    Same s (s.osalThreadDequeueNextI msg) := by
  unfold osalThreadDequeueNextI
  split <;> exact same_of_log rfl rfl rfl rfl rfl

theorem wakeup_same (s : BufferQueue T) (tp : T) : Same s { s.wakeup tp with fired := none } := by
  unfold wakeup
  split <;> exact same_of_log rfl rfl rfl rfl rfl

omit [DecidableEq T] in
/-- A queue with room is not full, and the other way round. -/
theorem Inv.full_iff (inv : Inv s l) : s.ibqIsFullI = true ↔ l.length = s.ring.size := by
  have head := inv.holds.head
  have length : l = [] ↔ l.length = 0 := List.length_eq_zero_iff.symm
  rw [ibqIsFullI, decide_eq_true_iff, inv.holds.pointers, inv.counter, length]
  omega

omit [DecidableEq T] in
theorem Inv.getEmpty (inv : Inv s l) : Inv s.ibqGetEmptyBufferI l := by
  unfold ibqGetEmptyBufferI
  split_ifs with full
  · exact inv
  · refine ⟨inv.holds, inv.counter, ?_, inv.cursor, inv.used, inv.bytes, inv.valid⟩
    intro _
    exact lt_of_le_of_ne inv.holds.room fun eq => full (inv.full_iff.mpr eq)

omit [DecidableEq T] in
theorem Inv.fill (inv : Inv s l) (mine : s.filling = true) (offset : Nat) (b : UInt8) :
    Inv (s.fill offset b) l where
  holds := inv.holds.scribble (inv.filling mine) _
  counter := inv.counter
  filling := inv.filling
  cursor := inv.cursor
  used := inv.used
  bytes := inv.bytes
  valid := inv.valid

omit [DecidableEq T] in
/-- More is posted behind what is unread. -/
theorem Inv.unread_append (inv : Inv s l) (b : Buffer) :
    unread s.cursor (l ++ [b]) = unread s.cursor l ++ b.content := by
  cases current : s.cursor with
  | none => simp [unread]
  | some at_ =>
      obtain ⟨first, rest, rfl, -, -, lt⟩ := inv.cursor at_ current
      have length := length_content first
      simp only [unread, List.flatMap_append, List.flatMap_singleton]
      rw [List.drop_append_of_le_length]
      rw [List.flatMap_cons, List.length_append]
      omega

theorem Inv.post (inv : Inv s l) (mine : s.filling = true) {size : Nat} (pos : 0 < size) :
    Inv (s.ibqPostFullBufferI size) (l ++ [{ s.ring.buffer s.ring.wrptr with used := size }]) := by
  apply Inv.same _ (dequeueNext_same _ _)
  refine ⟨inv.holds.store (inv.filling mine) _, ?_, by simp, ?_, ?_, ?_, ?_⟩
  · rw [List.length_append, List.length_singleton]
    exact congrArg (· + 1) inv.counter
  · intro at_ eq
    obtain ⟨b, rest, rfl, buffer, top, lt⟩ := inv.cursor at_ eq
    exact ⟨b, rest ++ [_], rfl, buffer, top, lt⟩
  · intro b mem
    rcases List.mem_append.mp mem with old | new
    · exact inv.used b old
    · rw [List.mem_singleton.mp new]
      exact pos
  · have bytes := inv.bytes
    change postedBytes (s.log ++ [.posted _]) =
      readBytes (s.log ++ [.posted _]) ++ unread s.cursor _
    rw [inv.unread_append]
    simp only [postedBytes, readBytes, List.flatMap_append, List.flatMap_singleton,
      List.append_nil] at bytes ⊢
    rw [bytes, List.append_assoc]
  · intro tp bytes valid mem
    rcases List.mem_append.mp mem with old | new
    · exact inv.valid tp bytes valid old
    · cases List.mem_singleton.mp new

/-! ### Runs -/

omit [DecidableEq T] in
theorem Start.inv {idle : T} {bsize bn : Nat} (pos : 0 < bn) (start : Start idle bsize bn s) :
    Inv s [] := by
  refine ⟨holds_nil ?_ ?_, start.counter, ?_, ?_, by simp, ?_, ?_⟩
  · rw [start.size, start.pointers.1]
    exact pos
  · rw [start.pointers.1, start.pointers.2]
  · rw [start.filling]
    simp
  · rw [start.cursor]
    simp
  · rw [start.log, start.cursor]
    rfl
  · rw [start.log]
    simp

theorem Inv.step (inv : Inv s l) {idle : T} (undisturbed : Undisturbed s) (step : Step idle s s') :
    ∃ l', Inv s' l' := by
  cases step with
  | begin out calm other begins =>
      cases begins with
      | get timeout => exact inv.enter _
      | read bp timeout some_bytes => exact inv.enter _
  | next call left inside calm => exact inv.attempt call left
  | resume call timeout inside calm => exact inv.resume inside undisturbed
  | serve unlocked serves =>
      cases serves with
      | getEmpty => exact ⟨l, inv.getEmpty⟩
      | fill offset b mine inside => exact ⟨l, inv.fill mine offset b⟩
      | post size mine pos inside => exact ⟨_, inv.post mine pos⟩
  | isr unlocked isr =>
      cases isr with
      | expire tp calm armed => exact ⟨l, inv.same (same_of_log rfl rfl rfl rfl rfl)⟩
      | callback tp fired => exact ⟨l, inv.same (wakeup_same s tp)⟩
      | ready tp msg waits => exact ⟨l, inv.same (same_of_log rfl rfl rfl rfl rfl)⟩
      | tick => exact ⟨l, inv.same (same_of_log rfl rfl rfl rfl rfl)⟩
  | thread unlocked calm thread =>
      cases thread with
      | sleep out other => exact ⟨l, inv.same (same_of_log rfl rfl rfl rfl rfl)⟩
      | wakeup tp msg waits => exact ⟨l, inv.same (same_of_log rfl rfl rfl rfl rfl)⟩
      | switch switch => exact ⟨l, inv.same (same_of_log rfl rfl rfl rfl rfl)⟩

theorem Reach.inv {idle : T} {bsize bn : Nat} (pos : 0 < bn)
    (reach : Reach Undisturbed idle bsize bn s) :
    ∃ l, Inv s l := by
  obtain ⟨s₀, start, run⟩ := reach
  induction run with
  | refl => exact ⟨[], start.inv pos⟩
  | tail _ step ih =>
      obtain ⟨l, inv⟩ := ih
      exact inv.step step.1 step.2

end Calls

end Proofs

/-! ### What calls report -/

/-- The pointer of a call is behind the bytes read, as the history has them. -/
structure Passed (p : Progress) (call : ReadCall) : Prop where
  call : call = { p.call with
    passed := p.items
    bp := p.call.bp.drop p.items.length
    r := p.items.length }
  length : p.call.bp.length = p.call.n
  within : p.items.length ≤ p.call.n

/-- There is more to read in a call under way. -/
structure Going (p : Progress) (call : ReadCall) : Prop extends Passed p call where
  more : p.items.length < p.call.n
  single : p.call.single = true → p.call.n = 1
  kept : p.reset = false

section Told

variable [DecidableEq T]

def calls : Protocol T ReadCall UInt8 (Int × List UInt8) (BufEvent T) where
  effect := effect
  returned tp r := .returned tp r.1 r.2
  answers := Agrees
  going := Going
  timeout := ReadCall.timeout
  effect_returned _ _ _ other := if_neg other

/-- The threads of the queue. -/
def callers (s : BufferQueue T) : Callers T QWait ReadCall (BufEvent T) :=
  ⟨s.core, s.waiting, s.timer, s.fired, s.pc, s.log⟩

/-- The calls have reported what they did, or will. -/
def Told (idle : T) (s : BufferQueue T) : Prop := Callers.Told calls idle .QUEUED s.callers

/-- The current thread is in a call with the lock, and what it has done meets a condition. -/
def Locked (idle : T) (s : BufferQueue T) (so_far : Progress → Prop) : Prop :=
  Callers.Locked calls idle .QUEUED s.callers so_far

variable {s s' : BufferQueue T} {idle tp t : T} {msg : Int} {call : ReadCall} {timeout : Timeout}
  {at_ : Cursor} {result : Int} {so_far so_far' : Progress → Prop}

theorem Locked.leave
    (locked : Locked idle s (Agrees · (result, call.passed ++ call.bp))) :
    Told idle (s.leave call result) := by
  refine Callers.Locked.leave locked fun tp r eq => ?_
  obtain ⟨result', buffer⟩ := r
  obtain ⟨rfl, rfl, rfl⟩ := BufEvent.returned.inj eq
  exact ⟨rfl, rfl⟩

theorem Locked.take (locked : Locked idle s so_far) (at_ : Cursor) (size : Nat)
    (now : ∀ p, so_far p → so_far' { p with items := p.items ++ s.chunk at_ size }) :
    Locked idle (s.take at_ size) so_far' := by
  have read : ∀ valid, Callers.Locked calls idle .QUEUED
      { s.callers with log := s.log ++ [.read s.core.currp (s.chunk at_ size) valid] } so_far' := by
    intro valid
    refine Callers.Locked.moved locked (if_pos rfl) (fun t away => if_neg (Ne.symm away)) ?_ now
    intro tp r eq
    cases eq
  unfold BufferQueue.take
  dsimp only
  split
  · exact read _
  · exact read _

omit [DecidableEq T] in
theorem length_chunk (s : BufferQueue T) (at_ : Cursor) (size : Nat) :
    (s.chunk at_ size).length = size := by
  simp [chunk]

omit [DecidableEq T] in
theorem Going.memcpy {p : Progress} (going : Going p call) {bytes : List UInt8}
    (fits : p.items.length + bytes.length ≤ p.call.n) :
    Passed { p with items := p.items ++ bytes } (ReadCall.memcpy call bytes) := by
  refine ⟨?_, going.length, ?_⟩
  · rw [going.call]
    simp [ReadCall.memcpy, List.drop_drop]
  · simp only [List.length_append]
    exact fits

omit [DecidableEq T] in
theorem Passed.buffer {p : Progress} (passed : Passed p call) :
    call.passed ++ call.bp = p.items ++ p.call.bp.drop p.items.length := by
  rw [passed.call]

omit [DecidableEq T] in
/-- A call that ends without a byte, or with a part of its bytes. -/
theorem Going.agrees {p : Progress} (going : Going p call)
    (late : msg = MSG_TIMEOUT ∧ call.timeout ≠ .infinite) :
    Agrees p (ReadCall.result call msg, call.passed ++ call.bp) := by
  have kind : call.single = p.call.single := by rw [going.call]
  have same_timeout : call.timeout = p.call.timeout := by rw [going.call]
  rw [same_timeout] at late
  refine ⟨going.buffer, ?_⟩
  unfold ReadCall.result
  rw [kind]
  split_ifs with single
  · refine .inr ⟨?_, late⟩
    have more := going.more
    rw [going.single single] at more
    exact List.eq_nil_of_length_eq_zero (by omega)
  · exact ⟨by rw [going.call], going.within, .inr late.2⟩

omit [DecidableEq T] in
/-- A call that has read all it was asked for. -/
theorem Passed.agrees {p : Progress} (passed : Passed p call) (many : p.call.single ≠ true)
    (all : call.n ≤ call.r) : Agrees p (call.r, call.passed ++ call.bp) := by
  have whole : p.call.n ≤ p.items.length := by
    rw [passed.call] at all
    exact all
  refine ⟨passed.buffer, ?_⟩
  rw [if_neg many]
  exact ⟨by rw [passed.call], passed.within, .inl (Nat.le_antisymm passed.within whole)⟩

theorem Locked.proceed (locked : Locked idle s (Going · call)) (at_ : Cursor) :
    Told idle (s.proceed call at_) := by
  obtain ⟨p₀, -, going₀⟩ := Callers.Locked.call locked
  have kind : call.single = p₀.call.single := by rw [going₀.call]
  unfold BufferQueue.proceed
  split_ifs with single
  · refine Locked.leave (Locked.take locked at_ 1 fun p going => ?_)
    have one : p.call.n = 1 := going.single (by rw [← single, going.call])
    have more := going.more
    have nothing : p.items = [] := List.eq_nil_of_length_eq_zero (by omega)
    have fits : p.items.length + (s.chunk at_ 1).length ≤ p.call.n := by
      rw [length_chunk]
      omega
    have passed := going.memcpy fits
    refine ⟨passed.buffer, ?_⟩
    rw [if_pos (show p.call.single = true by rw [← single, going.call])]
    exact .inl ⟨_, by rw [nothing]; rfl, rfl⟩
  · dsimp only
    generalize size_eq : min (min (at_.top - at_.ptr) (call.n - call.r)) 64 = size
    have taken : Locked idle (s.take at_ size) fun p =>
        Passed p (ReadCall.memcpy call (s.chunk at_ size)) ∧ p.call.single = call.single ∧
          p.reset = false := by
      refine Locked.take locked at_ size fun p going => ⟨going.memcpy ?_, ?_, going.kept⟩
      · have n_eq : call.n = p.call.n := by rw [going.call]
        have r_eq : call.r = p.items.length := by rw [going.call]
        have more := going.more
        rw [length_chunk]
        omega
      · rw [going.call]
    split_ifs with last
    · refine Locked.leave (taken.mono fun p now => ?_)
      exact now.1.agrees (now.2.1 ▸ single) last
    · refine Callers.Locked.unlock (taken.mono fun p now => ?_)
      obtain ⟨passed, same, kept⟩ := now
      refine ⟨passed, ?_, fun is => absurd (same.symm.trans is) single, kept⟩
      have n_eq := congrArg ReadCall.n passed.call
      have r_eq := congrArg ReadCall.r passed.call
      dsimp only at n_eq r_eq
      omega

/-- A thread without the current buffer. -/
theorem Locked.getFullBuffer (locked : Locked idle s (Going · call))
    (timeouts : timeout ≠ .infinite → call.timeout ≠ .infinite) :
    Told idle (s.ibqGetFullBufferTimeoutS call timeout) := by
  unfold BufferQueue.ibqGetFullBufferTimeoutS
  split_ifs with empty immediate
  · refine Locked.leave (locked.mono fun p going => going.agrees ⟨rfl, ?_⟩)
    exact timeouts (by rw [immediate]; simp)
  · exact Callers.Locked.enqueue locked timeouts
  · exact Locked.proceed (s := { s with cursor := _ }) locked _

/-- The time left is no more than what was given. -/
theorem next_timeout {left : Left} (next : ReadCall.next call left = some timeout)
    (finite : timeout ≠ .infinite) : call.timeout ≠ .infinite := by
  unfold ReadCall.next at next
  split_ifs at next with given
  · rwa [Option.some.inj next]
  · rw [not_or, not_not] at given
    rw [given.2]
    simp

theorem Locked.attempt (locked : Locked idle s (Going · call)) (left : Left) :
    Told idle (s.attempt call left) := by
  unfold BufferQueue.attempt
  split
  · exact locked.proceed _
  · split
    · next timeout next => exact locked.getFullBuffer fun finite => next_timeout next finite
    · next none =>
      -- The deadline has passed: the call was given a finite timeout, and it is no single read.
      have given : ¬ (call.single = true ∨ call.timeout ≠ .finite) := by
        intro given
        unfold ReadCall.next at none
        rw [if_pos given] at none
        cases none
      rw [not_or, not_not] at given
      have result : ReadCall.result call MSG_TIMEOUT = call.r := if_neg given.1
      rw [← result]
      refine Locked.leave (locked.mono fun p going => going.agrees ⟨rfl, ?_⟩)
      rw [given.2]
      simp

theorem Told.enter (told : Told idle s) (out : s.pc s.core.currp = .outside)
    (other : s.core.currp ≠ idle) (calm : s.fired = none) (fresh : call.passed = [])
    (zero : call.r = 0) (length : call.bp.length = call.n) (pos : 0 < call.n)
    (single : call.single = true → call.n = 1) : Told idle (s.enter call) := by
  have begun : Locked idle { s with log := s.log ++ [.called s.core.currp call] }
      (Going · call) := by
    refine Callers.Told.enter call told out other calm ?_ ?_ ?_ ?_
    · exact if_pos rfl
    · exact fun t away => if_neg (Ne.symm away)
    · intro tp r eq
      cases eq
    · refine ⟨⟨?_, length, Nat.zero_le _⟩, pos, single, rfl⟩
      obtain ⟨single, n, passed, bp, r, timeout⟩ := call
      obtain rfl : passed = [] := fresh
      obtain rfl : r = 0 := zero
      rfl
  exact begun.attempt .some

theorem Told.begin (told : Told idle s) (out : s.pc s.core.currp = .outside)
    (other : s.core.currp ≠ idle) (calm : s.fired = none) (begins : Begin s s') :
    Told idle s' := by
  cases begins with
  | get timeout =>
      exact told.enter out other calm rfl rfl rfl Nat.one_pos fun _ => rfl
  | read bp timeout some_bytes =>
      exact told.enter out other calm rfl rfl rfl (List.length_pos_of_ne_nil some_bytes)
        fun single => by cases single

/-- Messages on this queue are `MSG_OK` and `MSG_TIMEOUT`: there is no reset. -/
theorem Told.resume (told : Told idle s) (inside : s.pc s.core.currp = .asleep call timeout)
    (calm : s.fired = none) : Told idle (s.resume call timeout) := by
  obtain ⟨locked, timeouts⟩ := Callers.Told.resume told inside calm
  have off : Locked idle { s with timer := Function.update s.timer s.core.currp false } fun p =>
      Going p call ∧ Callers.Excused calls p call (s.core.rdymsg s.core.currp) := locked
  unfold BufferQueue.resume
  dsimp only
  split_ifs with ends
  · refine Locked.leave (off.mono fun p now => ?_)
    obtain ⟨going, ok | late | gone⟩ := now
    · rw [ok] at ends
      exact absurd ends (by decide)
    · exact going.agrees late
    · exact absurd (going.kept.symm.trans gone.2) (by simp)
  · exact Locked.getFullBuffer (off.mono fun p now => now.1) timeouts

/-- The handler fills and posts buffers, and wakes a thread. -/
theorem Told.serve (told : Told idle s) (serves : Serve s s') : Told idle s' := by
  cases serves with
  | getEmpty =>
      unfold ibqGetEmptyBufferI
      split
      · exact told
      · exact told
  | fill offset b mine inside => exact told
  | post size mine pos inside =>
      have posted : Callers.Told calls idle QWait.QUEUED { s.callers with log := s.log ++
          [.posted { s.ring.buffer s.ring.wrptr with used := size }.content] } := by
        refine Callers.Told.silent told (fun _ _ => rfl) ?_
        intro tp r eq
        cases eq
      unfold ibqPostFullBufferI osalThreadDequeueNextI
      dsimp only
      split
      · exact posted
      · next tp rest queue => exact Callers.Told.wakeFirst posted queue fun _ _ _ _ _ => .inl rfl

theorem Told.wakeup (told : Told idle s) (unlocked : s.Unlocked) (fired : s.fired = some tp) :
    Told idle { s.wakeup tp with fired := none } := by
  refine Callers.Told.called (s := (s.wakeup tp).callers) ?_
  unfold BufferQueue.wakeup
  rcases Callers.Told.fired_cases told unlocked fired with state | ready
  · change s.core.p_state tp = .WAIT .QUEUED at state
    simp only [state]
    exact Callers.Told.expired told fired state
  · change s.core.p_state tp = .READY at ready
    simp only [ready]
    exact told

theorem Told.isr (told : Told idle s) (unlocked : s.Unlocked) (isr : Isr s s') : Told idle s' := by
  cases isr with
  | expire tp calm armed => exact Callers.Told.expire told armed
  | callback tp fired => exact told.wakeup unlocked fired
  | ready tp msg waits =>
      exact Callers.Told.wakes_other told waits (by simp)
        (told.base.core.setMsg_ready (by simp [callers, waits]) msg)
  | tick => exact Callers.Told.quiet told told.base.core.tick

theorem Told.thread (told : Told idle s) (thread : Thread idle s s') : Told idle s' := by
  cases thread with
  | sleep out other =>
      exact Callers.Told.sleeps_other told out (by simp) (told.base.core.goSleep other .OTHER)
  | wakeup tp msg waits =>
      exact Callers.Told.wakes_other told waits (by simp)
        (told.base.core.wakeup (by simp [callers, waits]) msg)
  | switch switch => exact Callers.Told.quiet told (told.base.core.switch switch)

theorem Told.step (told : Told idle s) (step : Step idle s s') : Told idle s' := by
  cases step with
  | begin out calm other begins => exact told.begin out other calm begins
  | next call left inside calm => exact Locked.attempt (Callers.Told.next told inside calm) left
  | resume call timeout inside calm => exact told.resume inside calm
  | serve unlocked serves => exact told.serve serves
  | isr unlocked isr => exact told.isr unlocked isr
  | thread unlocked calm thread => exact told.thread thread

theorem Start.told {bsize bn : Nat} (start : Start idle bsize bn s) : Told idle s :=
  Callers.told_start start.core start.asleep start.waiting start.timer start.fired start.pc
    start.log

theorem Reach.told {ok : BufferQueue T → Prop} {bsize bn : Nat} (reach : Reach ok idle bsize bn s) :
    Told idle s := by
  obtain ⟨s₀, start, run⟩ := reach
  induction run with
  | refl => exact start.told
  | tail _ step ih => exact ih.step step.2

end Told

/-- Every byte is delivered once and in order, as long as no thread that was woken by a posting
runs again while another has a current buffer. -/
theorem bytes_delivered_once [DecidableEq T] (idle : T) (bsize bn : Nat) (pos : 0 < bn)
    (s : BufferQueue T) (reach : Reach Undisturbed idle bsize bn s) : Delivered s := by
  obtain ⟨l, inv⟩ := reach.inv pos
  refine ⟨?_, inv.valid, reach.told.reports⟩
  rw [inv.bytes]
  exact List.prefix_append _ _

/-! ### Examples -/

/-- The idle thread and two others; one buffer of two bytes. -/
def sampleStart : BufferQueue (Fin 3) where
  core :=
    { p_prio := ![ IDLEPRIO, 128, 129]
      p_state := ![.READY, .READY, .CURRENT]
      p_preempt := fun _ => CH_CFG_TIME_QUANTUM
      rdymsg := fun _ => MSG_OK
      ready := [1, 0]
      currp := 2
      log := [] }
  waiting := []
  bcounter := 0
  bsize := 2
  ring := ⟨1, fun _ => ⟨0, fun _ => 0⟩, 0, 0⟩
  cursor := none
  filling := false
  timer := fun _ => false
  fired := none
  pc := fun _ => .outside
  log := []

theorem sampleStart_start : Start 0 2 1 sampleStart where
  core :=
    { inv :=
        { sorted := by simp [Prio.Descending, sampleStart, IDLEPRIO]
          nodup := by decide
          mem_ready := by decide
          current := by decide
          awake := by decide }
      pos := by decide }
  asleep := by decide
  waiting := rfl
  counter := rfl
  bsize := rfl
  size := rfl
  pointers := ⟨rfl, rfl⟩
  cursor := rfl
  filling := rfl
  timer _ := rfl
  fired := rfl
  pc _ := rfl
  log := rfl

section Samples

variable {s s' : BufferQueue (Fin 3)}

theorem unlocked_of_outside (out : s.pc s.core.currp = .outside) : s.Unlocked := by
  intro call timeout inside
  rw [out] at inside
  cases inside

/-- A thread outside of the calls disturbs nobody. -/
theorem Reach.step (reach : Reach Undisturbed 0 2 1 s) (out : s.pc s.core.currp = .outside)
    (step : Step 0 s s') :
    Reach Undisturbed 0 2 1 s' := by
  obtain ⟨s₀, start, run⟩ := reach
  refine ⟨s₀, start, run.tail ⟨?_, step⟩⟩
  intro call timeout inside
  exact absurd inside (unlocked_of_outside out call timeout)

/-- The second thread waits for a byte, and the handler posts two. -/
def samplePosted : BufferQueue (Fin 3) :=
  let s := { sampleStart with core := sampleStart.core.chSchGoSleepS .OTHER }
  ((((s.ibqGetTimeout .infinite).ibqGetEmptyBufferI.fill 0 1).fill 1 2)).ibqPostFullBufferI 2

/-- The third thread, with the higher priority, wakes first and reads one of them. -/
def sampleRead : BufferQueue (Fin 3) :=
  let s := { samplePosted with core := (samplePosted.core.setMsg 2 MSG_OK).chSchReadyI 2 }
  let s := { s with core := s.core.chSchRescheduleS }
  s.ibqGetTimeout .infinite

theorem samplePosted_reach : Reach Undisturbed 0 2 1 samplePosted := by
  have start : Reach Undisturbed 0 2 1 sampleStart := ⟨sampleStart, sampleStart_start, .refl⟩
  have slept := start.step rfl (.thread (unlocked_of_outside rfl) rfl (.sleep rfl (by decide)))
  have waits := slept.step rfl (.begin rfl rfl (by decide) (.get .infinite))
  have empty := waits.step rfl (.serve (unlocked_of_outside rfl) .getEmpty)
  have first := empty.step rfl (.serve (unlocked_of_outside rfl) (.fill 0 1 rfl (by decide)))
  have second := first.step rfl (.serve (unlocked_of_outside rfl) (.fill 1 2 rfl (by decide)))
  exact second.step rfl (.serve (unlocked_of_outside rfl) (.post 2 rfl (by decide) (by decide)))

theorem sampleRead_reach : Reach Undisturbed 0 2 1 sampleRead := by
  have woken := samplePosted_reach.step rfl
    (.isr (unlocked_of_outside rfl) (.ready 2 MSG_OK (by decide)))
  have runs := woken.step rfl (.thread (unlocked_of_outside rfl) rfl (.switch .reschedule))
  exact runs.step rfl (.begin rfl rfl (by decide) (.get .infinite))

end Samples

theorem sampleRead_delivered :
    Delivered sampleRead ∧ readBytes sampleRead.log = [1] ∧
      sampleRead.log.getLast? = some (.returned 2 1 [1]) :=
  ⟨bytes_delivered_once 0 2 1 (by decide) sampleRead sampleRead_reach, by decide, by decide⟩

/-- The thread that waited for the posting reads the same byte again. -/
theorem byte_read_twice :
    ¬ ∀ (bsize bn : Nat) (s : BufferQueue (Fin 3)), 0 < bn → Reachable 0 bsize bn s →
      Delivered s := by
  intro delivered
  obtain ⟨s₀, start, run⟩ := sampleRead_reach
  have read : Relation.ReflTransGen (fun s s' => True ∧ Step 0 s s') s₀ sampleRead :=
    Relation.ReflTransGen.mono (fun _ _ step => ⟨trivial, step.2⟩) _ _ run
  have sleep := read.tail ⟨trivial, .thread (unlocked_of_outside rfl) rfl (.sleep rfl (by decide))⟩
  have again := sleep.tail ⟨trivial, .resume ⟨true, 1, [], [0], 0, .infinite⟩ .infinite (by decide) rfl⟩
  have once := (delivered 2 1 _ (by decide) ⟨s₀, start, again⟩).once
  revert once
  decide

end BufferQueue

end LtcOs.Kernel
