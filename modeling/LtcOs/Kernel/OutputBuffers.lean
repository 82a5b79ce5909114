import LtcOs.Kernel.BufferQueue

/-!
Output queues of buffers (`hal_buffers.c`).

Threads write into the current buffer of a ring, byte by byte or in chunks, and post it when it is
full or flushed; an interrupt handler sends the posted buffers and releases them. All writers
share the current buffer. A thread that finds no current buffer and no empty one waits; when it
runs again it takes the next empty buffer as the current one, from its begin. The notification
callback runs under the lock of the writer; what it does to the queue are calls of the handler.
-/

namespace LtcOs.Kernel

open LtcOs.Circular

/-- A call under way: `obqPutTimeout` of one byte, or `obqWriteTimeout` of the bytes at `bp`, of
which `w` are written. -/
inductive WriteCall where
  | put (b : UInt8) (timeout : Timeout)
  | write (bp : List UInt8) (w : Nat) (timeout : Timeout)
deriving DecidableEq, Repr

/-- Calls begin, write bytes and return; the handler has sent a buffer; everything is reset. -/
inductive OutEvent (T : Type) where
  | called (tp : T) (call : WriteCall)
  | wrote (tp : T) (bytes : List UInt8)
  | returned (tp : T) (result : Int)
  | sent (bytes : List UInt8)
  | reset
deriving DecidableEq, Repr

/-- An `output_buffers_queue_t`; `sending` is the buffer and the size that the handler got for
the driver. -/
structure OutputBuffers (T : Type) where
  core : Core T QWait
  waiting : List T
  bcounter : Nat
  bsize : Nat
  ring : Circ Buffer
  cursor : Option Cursor
  sending : Option (Nat × Nat)
  timer : T → Bool
  fired : Option T
  pc : T → CallPc WriteCall
  log : List (OutEvent T)

/-- `sizeof (size_t)` -/
def SIZEOF_SIZE_T : Nat := 4

variable {T : Type}

namespace OutputBuffers

/-! ### The code -/

section Code

variable [DecidableEq T]

def obqIsEmptyI (s : OutputBuffers T) : Bool :=
  decide (s.ring.wrptr = s.ring.rdptr ∧ s.bcounter ≠ 0)

def obqIsFullI (s : OutputBuffers T) : Bool := decide (s.bcounter = 0)

def osalThreadDequeueNextI (s : OutputBuffers T) (msg : Int) : OutputBuffers T :=
  match s.waiting with
  | [] => s
  | tp :: rest => { s with waiting := rest, core := (s.core.setMsg tp msg).chSchReadyI tp }

/-- The loop of `osalThreadDequeueAllI`. -/
def osalThreadDequeueAllI (msg : Int) : (rounds : Nat) → OutputBuffers T → OutputBuffers T
  | 0, s => s
  | rounds + 1, s => osalThreadDequeueAllI msg rounds (s.osalThreadDequeueNextI msg)

/-- All data is lost; the driver gives up the buffer that it is sending. -/
def obqResetI (s : OutputBuffers T) : OutputBuffers T :=
  osalThreadDequeueAllI MSG_RESET s.waiting.length { s with
    bcounter := s.ring.size
    ring := rewind s.ring
    cursor := none
    sending := none
    log := s.log ++ [.reset] }

/-- The handler gets the buffer at the read pointer and its size, or none. -/
def obqGetFullBufferI (s : OutputBuffers T) : OutputBuffers T :=
  if s.obqIsEmptyI then s
  else { s with sending := some (s.ring.rdptr, (s.ring.buffer s.ring.rdptr).used) }

/-- What is in memory where the driver sends from. -/
def bytesAt (s : OutputBuffers T) (buffer : Nat × Nat) : List UInt8 :=
  (List.range buffer.2).map (s.ring.buffer buffer.1).data

/-- The driver has sent a buffer. -/
def obqReleaseEmptyBufferI (s : OutputBuffers T) (buffer : Nat × Nat) : OutputBuffers T :=
  osalThreadDequeueNextI { s with
    bcounter := s.bcounter + 1
    ring := drop s.ring
    sending := none
    log := s.log ++ [.sent (s.bytesAt buffer)] } MSG_OK

def obqPostFullBufferS (s : OutputBuffers T) (size : Nat) : OutputBuffers T :=
  { s with
    bcounter := s.bcounter - 1
    ring := store s.ring { s.ring.buffer s.ring.wrptr with used := size }
    cursor := none }

/-- How far the pointer is from the data of the buffer at the write pointer; the buffers are
`bsize` bytes and a size field apart. -/
def written (s : OutputBuffers T) (at_ : Cursor) : Nat :=
  at_.buffer * (s.bsize + SIZEOF_SIZE_T) + at_.ptr - s.ring.wrptr * (s.bsize + SIZEOF_SIZE_T)

def obqTryFlushI (s : OutputBuffers T) : Bool × OutputBuffers T :=
  match s.cursor with
  | none => (false, s)
  | some at_ =>
      if s.obqIsEmptyI ∧ 0 < s.written at_ then (true, s.obqPostFullBufferS (s.written at_))
      else (false, s)

def obqFlush (s : OutputBuffers T) : OutputBuffers T :=
  match s.cursor with
  | none => s
  | some at_ => if 0 < s.written at_ then s.obqPostFullBufferS (s.written at_) else s

/-- The current thread leaves its call. -/
def leave (s : OutputBuffers T) (result : Int) : OutputBuffers T :=
  { s with
    pc := Function.update s.pc s.core.currp .outside
    log := s.log ++ [.returned s.core.currp result] }

/-- What a call returns when it ends with a message: the message, or the number of bytes
written. -/
def WriteCall.result (msg : Int) : WriteCall → Int
  | .put _ _ => msg
  | .write _ w _ => w

/-- The current thread goes on the queue and to sleep. -/
def enqueue (s : OutputBuffers T) (call : WriteCall) (timeout : Timeout) : OutputBuffers T :=
  { s with
    waiting := s.waiting ++ [s.core.currp]
    core := s.core.chSchGoSleepS .QUEUED
    timer := Function.update s.timer s.core.currp (decide (timeout = .finite))
    pc := Function.update s.pc s.core.currp (.asleep call timeout) }

/-- Bytes are written over a buffer. -/
def splice (data : Nat → UInt8) (ptr : Nat) (bytes : List UInt8) : Nat → UInt8 :=
  fun i => if ptr ≤ i ∧ i < ptr + bytes.length then bytes.getD (i - ptr) 0 else data i

/-- Bytes are written at the pointer, which moves on. -/
def memcpy (s : OutputBuffers T) (at_ : Cursor) (bytes : List UInt8) : OutputBuffers T :=
  let buffer := s.ring.buffer at_.buffer
  let buffer := { buffer with data := splice buffer.data at_.ptr bytes }
  { s with
    ring := { s.ring with buffer := Function.update s.ring.buffer at_.buffer buffer }
    cursor := some { at_ with ptr := at_.ptr + bytes.length }
    log := s.log ++ [.wrote s.core.currp bytes] }

/-- A buffer that is fully written is posted. -/
def fill (s : OutputBuffers T) (at_ : Cursor) (bytes : List UInt8) : OutputBuffers T :=
  if at_.top ≤ at_.ptr + bytes.length then (s.memcpy at_ bytes).obqPostFullBufferS s.bsize
  else s.memcpy at_ bytes

/-- From the current buffer to the next point without the lock. -/
def proceed (s : OutputBuffers T) (at_ : Cursor) : WriteCall → OutputBuffers T
  | .put b _ => (s.fill at_ [b]).leave MSG_OK
  | .write bp w timeout =>
      -- chunks are small in order to not make the critical zone too long
      let size := min (min (at_.top - at_.ptr) (bp.length - w)) 64
      let s := s.fill at_ ((bp.drop w).take size)
      if bp.length ≤ w + size then s.leave (w + size : Nat)
      else { s with
        pc := Function.update s.pc s.core.currp (.unlocked (.write bp (w + size) timeout)) }

/-- `obqGetEmptyBufferTimeoutS`, and then the rest of the call. -/
def obqGetEmptyBufferTimeoutS (s : OutputBuffers T) (call : WriteCall) (timeout : Timeout) :
    OutputBuffers T :=
  if s.obqIsFullI then
    if timeout = .immediate then s.leave (WriteCall.result MSG_TIMEOUT call)
    else s.enqueue call timeout
  else
    let at_ : Cursor := ⟨s.ring.wrptr, 0, s.bsize⟩
    proceed { s with cursor := some at_ } at_ call

/-- The timeout for the next buffer; none if the deadline has passed. -/
def WriteCall.next (left : Left) : WriteCall → Option Timeout
  | .put _ timeout => some timeout
  | .write _ _ .finite => match left with
    | .some => some .finite
    | .nothing => some .immediate
    | .passed => none
  | .write _ _ timeout => some timeout

/-- From the test of the pointer to the next point without the lock. -/
def attempt (s : OutputBuffers T) (call : WriteCall) (left : Left) : OutputBuffers T :=
  match s.cursor with
  | some at_ => s.proceed at_ call
  | none =>
      match WriteCall.next left call with
      | some timeout => s.obqGetEmptyBufferTimeoutS call timeout
      | none => s.leave (WriteCall.result MSG_TIMEOUT call)

/-- A call begins. -/
def enter (s : OutputBuffers T) (call : WriteCall) : OutputBuffers T :=
  attempt { s with log := s.log ++ [.called s.core.currp call] } call .some

def obqPutTimeout (s : OutputBuffers T) (b : UInt8) (timeout : Timeout) : OutputBuffers T :=
  s.enter (.put b timeout)

def obqWriteTimeout (s : OutputBuffers T) (bp : List UInt8) (timeout : Timeout) :
    OutputBuffers T :=
  s.enter (.write bp 0 timeout)

/-- The current thread runs again after it slept in a call: the timer is reset, and the
message is looked at. -/
def resume (s : OutputBuffers T) (call : WriteCall) (timeout : Timeout) : OutputBuffers T :=
  let msg := s.core.rdymsg s.core.currp
  let s := { s with timer := Function.update s.timer s.core.currp false }
  if msg < MSG_OK then s.leave (WriteCall.result msg call)
  else s.obqGetEmptyBufferTimeoutS call timeout

/-- The timeout callback `wakeup`. -/
def wakeup (s : OutputBuffers T) (tp : T) : OutputBuffers T :=
  match s.core.p_state tp with
  | .READY => s
  | .WAIT .QUEUED => { s with
      waiting := s.waiting.erase tp
      core := (s.core.setMsg tp MSG_TIMEOUT).chSchReadyI tp }
  | _ => { s with core := (s.core.setMsg tp MSG_TIMEOUT).chSchReadyI tp }

end Code

/-! ### Runs -/

section Steps

variable [DecidableEq T]

/-- The kernel is unlocked: the current thread did not just wake in a call. -/
def Unlocked (s : OutputBuffers T) : Prop :=
  ∀ call timeout, s.pc s.core.currp ≠ .asleep call timeout

/-- What the driver does. It releases the buffer that it got. -/
inductive Serve (s : OutputBuffers T) : OutputBuffers T → Prop where
  | getFull : Serve s s.obqGetFullBufferI
  | release (buffer : Nat × Nat) (mine : s.sending = some buffer) :
      Serve s (s.obqReleaseEmptyBufferI buffer)
  | tryFlush : Serve s s.obqTryFlushI.2
  | reset : Serve s s.obqResetI

/-- A call of the current thread. -/
inductive Begin (s : OutputBuffers T) : OutputBuffers T → Prop where
  | put (b : UInt8) (timeout : Timeout) : Begin s (s.obqPutTimeout b timeout)
  | write (bp : List UInt8) (timeout : Timeout) : Begin s (s.obqWriteTimeout bp timeout)
  | flush : Begin s s.obqFlush

/-- What else interrupt handlers do: they wake threads, and the tick handler takes timers
off the list and then calls their callbacks. -/
inductive Isr : OutputBuffers T → OutputBuffers T → Prop where
  | expire {s : OutputBuffers T} (tp : T) (calm : s.fired = none) (armed : s.timer tp = true) :
      Isr s { s with timer := Function.update s.timer tp false, fired := some tp }
  | callback {s : OutputBuffers T} (tp : T) (fired : s.fired = some tp) :
      Isr s { s.wakeup tp with fired := none }
  | ready {s : OutputBuffers T} (tp : T) (msg : Int) (waits : s.core.waiting tp = some .OTHER) :
      Isr s { s with core := (s.core.setMsg tp msg).chSchReadyI tp }
  | tick {s : OutputBuffers T} : Isr s { s with core := s.core.tick }

/-- What else threads do. The idle thread does not sleep. -/
inductive Thread (idle : T) : OutputBuffers T → OutputBuffers T → Prop where
  | sleep {s : OutputBuffers T} (out : s.pc s.core.currp = .outside)
      (other : s.core.currp ≠ idle) : Thread idle s { s with core := s.core.chSchGoSleepS .OTHER }
  | wakeup {s : OutputBuffers T} (tp : T) (msg : Int) (waits : s.core.waiting tp = some .OTHER) :
      Thread idle s { s with core := s.core.chSchWakeupS tp msg }
  | switch {s : OutputBuffers T} {c : Core T QWait} (switch : s.core.Switch c) :
      Thread idle s { s with core := c }

/-- One step under the kernel lock. Threads do not run while the tick handler is between a
timer and its callback. -/
inductive Step (idle : T) : OutputBuffers T → OutputBuffers T → Prop where
  | begin {s s' : OutputBuffers T} (out : s.pc s.core.currp = .outside) (calm : s.fired = none)
      (other : s.core.currp ≠ idle) (begins : Begin s s') : Step idle s s'
  | next {s : OutputBuffers T} (call : WriteCall) (left : Left)
      (inside : s.pc s.core.currp = .unlocked call) (calm : s.fired = none) :
      Step idle s (s.attempt call left)
  | resume {s : OutputBuffers T} (call : WriteCall) (timeout : Timeout)
      (inside : s.pc s.core.currp = .asleep call timeout) (calm : s.fired = none) :
      Step idle s (s.resume call timeout)
  | serve {s s' : OutputBuffers T} (unlocked : s.Unlocked) (serves : Serve s s') : Step idle s s'
  | isr {s s' : OutputBuffers T} (unlocked : s.Unlocked) (isr : Isr s s') : Step idle s s'
  | thread {s s' : OutputBuffers T} (unlocked : s.Unlocked) (calm : s.fired = none)
      (thread : Thread idle s s') : Step idle s s'

/-- `bn` empty buffers, and no thread in a call. -/
structure Start (idle : T) (bsize bn : Nat) (s : OutputBuffers T) : Prop where
  core : s.core.Sound idle
  asleep : ∀ t, s.core.waiting t ≠ some .QUEUED
  waiting : s.waiting = []
  counter : s.bcounter = bn
  bsize : s.bsize = bsize
  size : s.ring.size = bn
  pointers : s.ring.rdptr = 0 ∧ s.ring.wrptr = 0
  cursor : s.cursor = none
  sending : s.sending = none
  timer : ∀ t, s.timer t = false
  fired : s.fired = none
  pc : ∀ t, s.pc t = .outside
  log : s.log = []

/-- A thread that was woken by a release runs again only while there is no current buffer; else it
would begin that buffer anew, over the bytes that others have written into it. -/
def Undisturbed (s : OutputBuffers T) : Prop :=
  ∀ call timeout, s.pc s.core.currp = .asleep call timeout → MSG_OK ≤ s.core.rdymsg s.core.currp →
    s.cursor = none

/-- States reached by steps from states that meet a condition. -/
def Reach (ok : OutputBuffers T → Prop) (idle : T) (bsize bn : Nat) (s : OutputBuffers T) : Prop :=
  ∃ s₀, Start idle bsize bn s₀ ∧ Relation.ReflTransGen (fun s s' => ok s ∧ Step idle s s') s₀ s

end Steps

/-! ### Histories -/

/-- The bytes written since the last reset. -/
def wrote (log : List (OutEvent T)) : List UInt8 :=
  log.foldl (fun l e => match e with
    | .wrote _ bytes => l ++ bytes
    | .reset => []
    | _ => l) []

/-- The bytes sent since the last reset. -/
def sent (log : List (OutEvent T)) : List UInt8 :=
  log.foldl (fun l e => match e with
    | .sent bytes => l ++ bytes
    | .reset => []
    | _ => l) []

/-- What an event is for the calls of the thread `tp`. -/
def effect [DecidableEq T] (tp : T) : OutEvent T → Answers.Effect WriteCall UInt8
  | .called t call => if t = tp then .called call else .other
  | .wrote t bytes => if t = tp then .moved bytes else .other
  | .returned t _ => if t = tp then .returned else .other
  | .sent _ => .other
  | .reset => .reset

abbrev Progress := Answers.Progress WriteCall UInt8

/-- A result agrees with what a call has done. A call leaves out bytes only if it was given a
timeout or the queue was reset meanwhile. -/
def Agrees (p : Progress) (result : Int) : Prop :=
  match p.call with
  | .put b timeout =>
      result = MSG_OK ∧ p.items = [b] ∨
        p.items = [] ∧ (result = MSG_TIMEOUT ∧ timeout ≠ .infinite ∨
          result = MSG_RESET ∧ p.reset = true)
  | .write bp _ timeout =>
      p.items <+: bp ∧ p.items.length = result ∧
        (p.items = bp ∨ timeout ≠ .infinite ∨ p.reset = true)

/-- The bytes sent are the first of those written since the last reset, the driver sends what
comes next, and no more than the buffers hold is under way; every call reports what it wrote. -/
structure Delivered [DecidableEq T] (bsize bn : Nat) (s : OutputBuffers T) : Prop where
  order : ∃ pending, sent s.log ++ pending = wrote s.log ∧ pending.length ≤ bn * bsize ∧
    ∀ buffer, s.sending = some buffer → s.bytesAt buffer <+: pending
  reports : Answers.Reports effect .returned Agrees s.log

section Log

variable (log : List (OutEvent T)) (tp : T) (bytes : List UInt8) (call : WriteCall) (result : Int)

@[simp] theorem wrote_called : wrote (log ++ [.called tp call]) = wrote log := by simp [wrote]
@[simp] theorem wrote_wrote : wrote (log ++ [.wrote tp bytes]) = wrote log ++ bytes := by
  simp [wrote]
@[simp] theorem wrote_returned : wrote (log ++ [.returned tp result]) = wrote log := by
  simp [wrote]
@[simp] theorem wrote_sent : wrote (log ++ [.sent bytes]) = wrote log := by simp [wrote]
@[simp] theorem wrote_reset : wrote (log ++ [.reset]) = [] := by simp [wrote]
@[simp] theorem sent_called : sent (log ++ [.called tp call]) = sent log := by simp [sent]
@[simp] theorem sent_wrote : sent (log ++ [.wrote tp bytes]) = sent log := by simp [sent]
@[simp] theorem sent_returned : sent (log ++ [.returned tp result]) = sent log := by simp [sent]
@[simp] theorem sent_sent : sent (log ++ [.sent bytes]) = sent log ++ bytes := by simp [sent]
@[simp] theorem sent_reset : sent (log ++ [.reset]) = [] := by simp [sent]

end Log

/-! ### The bytes -/

/-- What has been written into the current buffer. -/
def current (s : OutputBuffers T) : List UInt8 :=
  match s.cursor with
  | some at_ => s.bytesAt (at_.buffer, at_.ptr)
  | none => []

/-- The ring of `bn` buffers holds the posted ones `l`, and the current one comes after them. -/
structure Inv (bsize bn : Nat) (s : OutputBuffers T) (l : List Buffer) : Prop where
  bsize : s.bsize = bsize
  size : s.ring.size = bn
  holds : Holds s.ring l
  counter : s.bcounter + l.length = bn
  pos : 0 < s.bsize
  cursor : ∀ at_, s.cursor = some at_ →
    l.length < bn ∧ at_.buffer = s.ring.wrptr ∧ at_.top = s.bsize ∧ at_.ptr ≤ s.bsize
  sending : ∀ buffer, s.sending = some buffer →
    ∃ b rest, l = b :: rest ∧ buffer = (s.ring.rdptr, b.used)
  used : ∀ b ∈ l, b.used ≤ s.bsize
  bytes : sent s.log ++ (l.flatMap Buffer.content ++ s.current) = wrote s.log

/-- The current buffer is not full. -/
def Room (s : OutputBuffers T) : Prop := ∀ at_, s.cursor = some at_ → at_.ptr < at_.top

/-- No byte moves. -/
structure Same (s s' : OutputBuffers T) : Prop where
  ring : s'.ring = s.ring
  bcounter : s'.bcounter = s.bcounter
  bsize : s'.bsize = s.bsize
  cursor : s'.cursor = s.cursor
  sending : s'.sending = s.sending
  sent : sent s'.log = sent s.log
  wrote : wrote s'.log = wrote s.log

section Bytes

variable {s s' : OutputBuffers T} {bsize bn : Nat} {l : List Buffer} {at_ : Cursor}

theorem Same.refl (s : OutputBuffers T) : Same s s := ⟨rfl, rfl, rfl, rfl, rfl, rfl, rfl⟩

theorem Same.trans {s'' : OutputBuffers T} (first : Same s s') (second : Same s' s'') :
    Same s s'' :=
  ⟨second.ring.trans first.ring, second.bcounter.trans first.bcounter,
    second.bsize.trans first.bsize, second.cursor.trans first.cursor,
    second.sending.trans first.sending, second.sent.trans first.sent,
    second.wrote.trans first.wrote⟩

theorem Inv.same (inv : Inv bsize bn s l) (same : Same s s') : Inv bsize bn s' l where
  bsize := by
    rw [same.bsize]
    exact inv.bsize
  size := by
    rw [same.ring]
    exact inv.size
  holds := by
    rw [same.ring]
    exact inv.holds
  counter := by
    rw [same.bcounter]
    exact inv.counter
  pos := by
    rw [same.bsize]
    exact inv.pos
  cursor := by
    rw [same.cursor, same.ring, same.bsize]
    exact inv.cursor
  sending := by
    rw [same.sending, same.ring]
    exact inv.sending
  used := by
    rw [same.bsize]
    exact inv.used
  bytes := by
    have current : s'.current = s.current := by
      unfold OutputBuffers.current bytesAt
      rw [same.cursor, same.ring]
    rw [current, same.sent, same.wrote]
    exact inv.bytes

theorem Room.same (room : Room s) (same : Same s s') : Room s' := by
  unfold Room
  rw [same.cursor]
  exact room

theorem map_splice (data : Nat → UInt8) (ptr : Nat) (bytes : List UInt8) :
    (List.range (ptr + bytes.length)).map (splice data ptr bytes) =
      (List.range ptr).map data ++ bytes := by
  rw [List.range_add, List.map_append, List.map_map]
  congr 1
  · refine List.map_congr_left fun i mem => ?_
    have below := List.mem_range.mp mem
    exact if_neg fun inside => absurd inside.1 (by omega)
  · refine List.ext_getElem (by simp) fun i _ inside => ?_
    rw [List.getElem_map, List.getElem_range, Function.comp_apply, splice,
      if_pos ⟨by omega, by omega⟩, Nat.add_sub_cancel_left]
    exact (List.getElem_eq_getD _).symm

/-- The bytes come after those that were written before. -/
theorem Inv.memcpy (inv : Inv bsize bn s l) (current : s.cursor = some at_) {bytes : List UInt8}
    (inside : at_.ptr + bytes.length ≤ at_.top) : Inv bsize bn (s.memcpy at_ bytes) l := by
  obtain ⟨room, buffer, top, -⟩ := inv.cursor at_ current
  refine ⟨inv.bsize, inv.size, ?_, inv.counter, inv.pos, ?_, inv.sending, inv.used, ?_⟩
  · have held := inv.holds.scribble (inv.size.symm ▸ room)
      { s.ring.buffer at_.buffer with
        data := splice (s.ring.buffer at_.buffer).data at_.ptr bytes }
    unfold OutputBuffers.memcpy
    rw [buffer] at held ⊢
    exact held
  · intro next eq
    cases eq
    exact ⟨room, buffer, top, inside.trans top.le⟩
  · have before := inv.bytes
    have now : (s.memcpy at_ bytes).current = s.current ++ bytes := by
      unfold OutputBuffers.current OutputBuffers.memcpy bytesAt
      simp only [current, Function.update_self]
      exact map_splice _ _ _
    change sent (s.log ++ [.wrote _ bytes]) ++ _ = wrote (s.log ++ [.wrote _ bytes])
    rw [now, sent_wrote, wrote_wrote, ← before]
    simp only [List.append_assoc]

/-- The current buffer is posted with what was written into it. -/
theorem Inv.post (inv : Inv bsize bn s l) (current : s.cursor = some at_) :
    Inv bsize bn (s.obqPostFullBufferS at_.ptr)
      (l ++ [{ s.ring.buffer s.ring.wrptr with used := at_.ptr }]) := by
  obtain ⟨room, buffer, top, fits⟩ := inv.cursor at_ current
  have counter := inv.counter
  refine ⟨inv.bsize, inv.size, inv.holds.store (inv.size.symm ▸ room) _, ?_, inv.pos, ?_, ?_, ?_, ?_⟩
  · rw [List.length_append, List.length_singleton]
    change s.bcounter - 1 + (l.length + 1) = bn
    omega
  · intro next eq
    cases eq
  · intro b eq
    obtain ⟨first, rest, rfl, at_first⟩ := inv.sending b eq
    exact ⟨first, rest ++ [_], rfl, at_first⟩
  · intro b mem
    rcases List.mem_append.mp mem with old | new
    · exact inv.used b old
    · rw [List.mem_singleton.mp new]
      exact fits
  · have before := inv.bytes
    have content : s.current =
        Buffer.content { s.ring.buffer s.ring.wrptr with used := at_.ptr } := by
      unfold OutputBuffers.current bytesAt Buffer.content
      simp only [current, buffer]
    rw [content] at before
    change sent s.log ++ (_ ++ []) = wrote s.log
    rw [← before, List.append_nil, List.flatMap_append, List.flatMap_singleton]

theorem written_eq (s : OutputBuffers T) (buffer : at_.buffer = s.ring.wrptr) :
    s.written at_ = at_.ptr := by
  unfold written
  rw [buffer, Nat.add_sub_cancel_left]

theorem Inv.flush (inv : Inv bsize bn s l) (room : Room s) :
    ∃ l', Inv bsize bn s.obqFlush l' ∧ Room s.obqFlush := by
  unfold obqFlush
  cases current : s.cursor with
  | none => exact ⟨l, inv, room⟩
  | some at_ =>
      obtain ⟨-, buffer, -, -⟩ := inv.cursor at_ current
      dsimp only
      rw [s.written_eq buffer]
      split_ifs
      · exact ⟨_, inv.post current, fun next eq => by cases eq⟩
      · exact ⟨l, inv, room⟩

theorem Inv.tryFlush (inv : Inv bsize bn s l) (room : Room s) :
    ∃ l', Inv bsize bn s.obqTryFlushI.2 l' ∧ Room s.obqTryFlushI.2 := by
  unfold obqTryFlushI
  cases current : s.cursor with
  | none => exact ⟨l, inv, room⟩
  | some at_ =>
      obtain ⟨-, buffer, -, -⟩ := inv.cursor at_ current
      dsimp only
      rw [s.written_eq buffer]
      split_ifs
      · exact ⟨_, inv.post current, fun next eq => by cases eq⟩
      · exact ⟨l, inv, room⟩

theorem Inv.fill (inv : Inv bsize bn s l) (current : s.cursor = some at_) {bytes : List UInt8}
    (inside : at_.ptr + bytes.length ≤ at_.top) :
    ∃ l', Inv bsize bn (s.fill at_ bytes) l' ∧ Room (s.fill at_ bytes) := by
  have filled := inv.memcpy current inside
  obtain ⟨-, -, top, -⟩ := inv.cursor at_ current
  unfold OutputBuffers.fill
  split_ifs with full
  · have now : (s.memcpy at_ bytes).cursor = some { at_ with ptr := at_.ptr + bytes.length } := rfl
    have posted := filled.post now
    have all : at_.ptr + bytes.length = s.bsize := by omega
    dsimp only at posted
    rw [all] at posted
    exact ⟨_, posted, fun next eq => by cases eq⟩
  · refine ⟨l, filled, fun next eq => ?_⟩
    cases eq
    exact not_le.mp full

theorem same_of_log (ring : s'.ring = s.ring) (bcounter : s'.bcounter = s.bcounter)
    (width : s'.bsize = s.bsize) (cursor : s'.cursor = s.cursor)
    (sending : s'.sending = s.sending) (log : s'.log = s.log) : Same s s' :=
  ⟨ring, bcounter, width, cursor, sending, by rw [log], by rw [log]⟩

/-- A queue with something posted is not empty. -/
theorem Inv.posted (inv : Inv bsize bn s l) (full : ¬ s.obqIsEmptyI = true) :
    ∃ b rest, l = b :: rest := by
  cases l with
  | cons b rest => exact ⟨b, rest, rfl⟩
  | nil =>
      refine absurd (decide_eq_true ⟨inv.holds.pointers.mpr (.inl rfl), ?_⟩) full
      have counter := inv.counter
      have head := inv.holds.head
      have size := inv.size
      rw [List.length_nil] at counter
      omega

theorem Inv.getFull (inv : Inv bsize bn s l) : Inv bsize bn s.obqGetFullBufferI l := by
  unfold obqGetFullBufferI
  split_ifs with empty
  · exact inv
  · obtain ⟨b, rest, rfl⟩ := inv.posted empty
    refine ⟨inv.bsize, inv.size, inv.holds, inv.counter, inv.pos, inv.cursor, fun buffer eq => ?_,
      inv.used, inv.bytes⟩
    have first : s.ring.buffer s.ring.rdptr = b := inv.holds.first
    rw [first] at eq
    exact ⟨b, rest, rfl, (Option.some.inj eq).symm⟩

/-- The driver sends from the first posted buffer. -/
theorem Inv.bytesAt (inv : Inv bsize bn s l) {buffer : Nat × Nat} (mine : s.sending = some buffer) :
    ∃ b rest, l = b :: rest ∧ s.bytesAt buffer = b.content := by
  obtain ⟨b, rest, rfl, rfl⟩ := inv.sending buffer mine
  have first : s.ring.buffer s.ring.rdptr = b := inv.holds.first
  refine ⟨b, rest, rfl, ?_⟩
  unfold OutputBuffers.bytesAt Buffer.content
  dsimp only
  rw [first]

theorem length_content_le (inv : Inv bsize bn s l) :
    (l.flatMap Buffer.content).length ≤ l.length * s.bsize := by
  rw [List.length_flatMap]
  refine (List.sum_le_card_nsmul _ s.bsize ?_).trans_eq ?_
  · intro n mem
    obtain ⟨b, posted, rfl⟩ := List.mem_map.mp mem
    rw [BufferQueue.length_content]
    exact inv.used b posted
  · rw [List.length_map, smul_eq_mul]

theorem Inv.order (inv : Inv bsize bn s l) :
    ∃ pending, sent s.log ++ pending = wrote s.log ∧ pending.length ≤ bn * bsize ∧
      ∀ buffer, s.sending = some buffer → s.bytesAt buffer <+: pending := by
  refine ⟨_, inv.bytes, ?_, fun buffer mine => ?_⟩
  · have posted := length_content_le inv
    have counter := inv.counter
    rw [inv.bsize] at posted
    rw [List.length_append]
    cases cursor : s.cursor with
    | none =>
        have current : s.current.length = 0 := by simp [current, cursor]
        have most := Nat.mul_le_mul_right bsize (show l.length ≤ bn by omega)
        omega
    | some at_ =>
        obtain ⟨less, -, -, fits⟩ := inv.cursor at_ cursor
        have current : s.current.length = at_.ptr := by
          simp [current, cursor, OutputBuffers.bytesAt]
        have most := Nat.mul_le_mul_right bsize (Nat.succ_le_of_lt less)
        rw [Nat.succ_mul] at most
        rw [inv.bsize] at fits
        omega
  · obtain ⟨b, rest, rfl, content⟩ := inv.bytesAt mine
    rw [content, List.flatMap_cons, List.append_assoc]
    exact List.prefix_append _ _

theorem Start.inv {idle : T} (pos : 0 < bsize ∧ 0 < bn) (start : Start idle bsize bn s) :
    Inv bsize bn s [] := by
  refine ⟨start.bsize, start.size, holds_nil ?_ ?_, ?_, ?_, ?_, ?_, by simp, ?_⟩
  · rw [start.size, start.pointers.1]
    exact pos.2
  · rw [start.pointers.1, start.pointers.2]
  · rw [start.counter]
    rfl
  · rw [start.bsize]
    exact pos.1
  · rw [start.cursor]
    simp
  · rw [start.sending]
    simp
  · unfold current
    rw [start.log, start.cursor]
    rfl

end Bytes

/-! ### The calls -/

/-- How far a call is, as the log has it. -/
def Going (p : Progress) : WriteCall → Prop
  | .put b timeout => p.call = .put b timeout ∧ p.items = []
  | .write bp w timeout => p.call = .write bp 0 timeout ∧ p.items = bp.take w ∧ w ≤ bp.length

def WriteCall.timeout : WriteCall → Timeout
  | .put _ timeout => timeout
  | .write _ _ timeout => timeout

section Calls

variable [DecidableEq T]

def calls : Protocol T WriteCall UInt8 Int (OutEvent T) where
  effect := effect
  returned := .returned
  answers := Agrees
  going := Going
  timeout := WriteCall.timeout
  effect_returned _ _ _ other := if_neg other

/-- The threads of the queue. -/
def callers (s : OutputBuffers T) : Callers T QWait WriteCall (OutEvent T) :=
  ⟨s.core, s.waiting, s.timer, s.fired, s.pc, s.log⟩

/-- The calls have reported what they did, or will. -/
def Told (idle : T) (s : OutputBuffers T) : Prop := Callers.Told calls idle .QUEUED s.callers

/-- The current thread is in a call with the lock, and what it has done meets a condition. -/
def Locked (idle : T) (s : OutputBuffers T) (so_far : Progress → Prop) : Prop :=
  Callers.Locked calls idle .QUEUED s.callers so_far

variable {s s' : OutputBuffers T} {idle tp t : T} {msg : Int} {call : WriteCall}
  {timeout : Timeout} {so_far so_far' : Progress → Prop} {result : Int}

theorem dequeueNext_rest (s : OutputBuffers T) (msg : Int) :
    Same s (s.osalThreadDequeueNextI msg) ∧ (s.osalThreadDequeueNextI msg).log = s.log := by
  unfold osalThreadDequeueNextI
  split
  · exact ⟨.refl s, rfl⟩
  · exact ⟨⟨rfl, rfl, rfl, rfl, rfl, rfl, rfl⟩, rfl⟩

theorem dequeueAll_same (msg : Int) (rounds : Nat) (s : OutputBuffers T) :
    Same s (osalThreadDequeueAllI msg rounds s) := by
  induction rounds generalizing s with
  | zero => exact .refl s
  | succ rounds ih => exact (dequeueNext_rest s msg).1.trans (ih _)

/-! #### Inside a call -/

theorem Locked.leave (locked : Locked idle s (Agrees · result)) : Told idle (s.leave result) := by
  refine Callers.Locked.leave locked fun tp r eq => ?_
  obtain ⟨rfl, rfl⟩ := OutEvent.returned.inj eq
  exact ⟨rfl, rfl⟩

theorem Locked.unlock (locked : Locked idle s (Going · call)) :
    Told idle { s with pc := Function.update s.pc s.core.currp (.unlocked call) } :=
  Callers.Locked.unlock locked

theorem Locked.fill (locked : Locked idle s so_far) (at_ : Cursor) (bytes : List UInt8)
    (now : ∀ p, so_far p → so_far' { p with items := p.items ++ bytes }) :
    Locked idle (s.fill at_ bytes) so_far' := by
  have wrote : Callers.Locked calls idle QWait.QUEUED
      { s.callers with log := s.log ++ [.wrote s.core.currp bytes] } so_far' := by
    refine Callers.Locked.moved locked (if_pos rfl) (fun t away => if_neg (Ne.symm away)) ?_ now
    rintro tp r ⟨⟩
  unfold OutputBuffers.fill
  split
  · exact wrote
  · exact wrote

/-- A call that ends with a message reports what it wrote before. -/
theorem Going.agrees {p : Progress} (going : Going p call)
    (excused : Callers.Excused (calls (T := T)) p call msg) (bad : msg ≠ MSG_OK) :
    Agrees p (WriteCall.result msg call) := by
  have ends := excused.resolve_left bad
  cases call with
  | put b timeout =>
      obtain ⟨called, none⟩ := going
      unfold Agrees
      rw [called]
      exact .inr ⟨none, ends⟩
  | write bp w timeout =>
      obtain ⟨called, some_bytes, within⟩ := going
      unfold Agrees
      rw [called]
      refine ⟨?_, ?_, .inr (ends.imp And.right And.right)⟩
      · rw [some_bytes]
        exact List.take_prefix w bp
      · rw [some_bytes, List.length_take, Nat.min_eq_left within]
        rfl

theorem Locked.proceed (locked : Locked idle s (Going · call)) (at_ : Cursor) :
    Told idle (s.proceed at_ call) := by
  cases call with
  | put b timeout =>
      refine Locked.leave (Locked.fill locked at_ [b] fun p going => ?_)
      obtain ⟨called, none⟩ := going
      unfold Agrees
      dsimp only
      rw [called]
      refine .inl ⟨rfl, ?_⟩
      rw [none, List.nil_append]
  | write bp w timeout =>
      unfold OutputBuffers.proceed
      dsimp only
      generalize size_eq : min (min (at_.top - at_.ptr) (bp.length - w)) 64 = size
      have filled : Locked idle (s.fill at_ ((bp.drop w).take size))
          (Going · (.write bp (w + size) timeout)) := by
        refine Locked.fill locked at_ _ fun p going => ?_
        obtain ⟨called, some_bytes, within⟩ := going
        refine ⟨called, ?_, by omega⟩
        dsimp only
        rw [some_bytes, List.take_add]
      split_ifs with last
      · refine Locked.leave (filled.mono fun p going => ?_)
        obtain ⟨called, all, within⟩ := going
        have whole : p.items = bp := all.trans (List.take_of_length_le last)
        unfold Agrees
        rw [called]
        refine ⟨?_, ?_, .inl whole⟩
        · rw [whole]
        · rw [whole]
          omega
      · exact filled.unlock

theorem Locked.getEmptyBuffer (locked : Locked idle s (Going · call))
    (timeouts : timeout ≠ .infinite → WriteCall.timeout call ≠ .infinite) :
    Told idle (s.obqGetEmptyBufferTimeoutS call timeout) := by
  unfold obqGetEmptyBufferTimeoutS
  split_ifs with full immediate
  · refine Locked.leave (locked.mono fun p going =>
      going.agrees (T := T) (.inr (.inl ⟨rfl, ?_⟩)) (by decide))
    exact timeouts (by rw [immediate]; simp)
  · exact Callers.Locked.enqueue locked timeouts
  · exact Locked.proceed (s := { s with cursor := _ }) locked _

/-- A timeout for the next buffer is one only in a call that was given one. -/
theorem WriteCall.next_timeout {left : Left} (next : WriteCall.next left call = some timeout) :
    timeout ≠ .infinite → WriteCall.timeout call ≠ .infinite := by
  cases call with
  | put b given =>
      obtain rfl : given = timeout := Option.some.inj next
      exact id
  | write bp w given =>
      cases given with
      | infinite =>
          obtain rfl : Timeout.infinite = timeout := Option.some.inj next
          exact id
      | immediate => exact fun _ => by simp [WriteCall.timeout]
      | finite => exact fun _ => by simp [WriteCall.timeout]

/-- A call with a deadline that has passed is one that was given a timeout. -/
theorem WriteCall.next_none {left : Left} (next : WriteCall.next left call = none) :
    WriteCall.timeout call ≠ .infinite := by
  cases call with
  | put b given => cases next
  | write bp w given =>
      cases given with
      | infinite => cases next
      | immediate => cases next
      | finite => simp [WriteCall.timeout]

theorem Locked.attempt (locked : Locked idle s (Going · call)) (left : Left) :
    Told idle (s.attempt call left) := by
  unfold OutputBuffers.attempt
  split
  · exact locked.proceed _
  · split
    · next timeout next => exact locked.getEmptyBuffer (WriteCall.next_timeout next)
    · next next =>
      refine Locked.leave (locked.mono fun p going => ?_)
      exact going.agrees (T := T) (.inr (.inl ⟨rfl, WriteCall.next_none next⟩)) (by decide)

/-! #### Steps of the calls -/

theorem Told.enter (told : Told idle s) (out : s.pc s.core.currp = .outside)
    (calm : s.fired = none) (other : s.core.currp ≠ idle) (starts : Going ⟨call, [], false⟩ call) :
    Told idle (s.enter call) := by
  have begun : Locked idle { s with log := s.log ++ [.called s.core.currp call] }
      (Going · call) := by
    refine Callers.Told.enter call told out other calm (if_pos rfl)
      (fun t away => if_neg (Ne.symm away)) ?_ starts
    rintro tp r ⟨⟩
  exact begun.attempt .some

theorem Told.begin (told : Told idle s) (out : s.pc s.core.currp = .outside)
    (calm : s.fired = none) (other : s.core.currp ≠ idle) (begins : Begin s s') : Told idle s' := by
  cases begins with
  | put b timeout => exact told.enter out calm other ⟨rfl, rfl⟩
  | write bp timeout => exact told.enter out calm other ⟨rfl, rfl, Nat.zero_le _⟩
  | flush =>
      unfold obqFlush
      split
      · exact told
      · split
        · exact told
        · exact told

theorem Told.resume (told : Told idle s) (inside : s.pc s.core.currp = .asleep call timeout)
    (calm : s.fired = none) : Told idle (s.resume call timeout) := by
  obtain ⟨locked, timeouts⟩ := Callers.Told.resume told inside calm
  have off : Locked idle { s with timer := Function.update s.timer s.core.currp false } fun p =>
      Going p call ∧ Callers.Excused calls p call (s.core.rdymsg s.core.currp) := locked
  unfold OutputBuffers.resume
  dsimp only
  split_ifs with bad
  · exact Locked.leave (off.mono fun p now => now.1.agrees now.2 bad.ne)
  · exact Locked.getEmptyBuffer (off.mono fun p now => now.1) timeouts

theorem Told.dequeueNext (told : Told idle s)
    (excused : ∀ t p call, Answers.progress (effect t) s.log = some p →
      Callers.Excused (calls (T := T)) p call msg) : Told idle (s.osalThreadDequeueNextI msg) := by
  unfold osalThreadDequeueNextI
  split
  · exact told
  · next tp rest queue =>
    exact Callers.Told.wakeFirst told queue fun call _ p _ has => excused tp p call has

theorem Told.dequeueAll (told : Told idle s) (rounds : Nat)
    (excused : ∀ t p call, Answers.progress (effect t) s.log = some p →
      Callers.Excused (calls (T := T)) p call msg) :
    Told idle (osalThreadDequeueAllI msg rounds s) := by
  induction rounds generalizing s with
  | zero => exact told
  | succ rounds ih =>
      refine ih (told.dequeueNext excused) fun t p call has => ?_
      rw [(dequeueNext_rest s msg).2] at has
      exact excused t p call has

theorem Told.reset (told : Told idle s) : Told idle s.obqResetI := by
  have noted : Told idle { s with
      bcounter := s.ring.size
      ring := rewind s.ring
      cursor := none
      sending := none
      log := s.log ++ [.reset] } := by
    refine Callers.Told.reset told (fun _ => rfl) (by rintro tp r ⟨⟩) fun p call going => ?_
    cases call with
    | put b timeout => exact going
    | write bp w timeout => exact going
  refine noted.dequeueAll _ fun t p call has => ?_
  rw [Answers.progress_concat] at has
  obtain ⟨p, -, rfl⟩ := Option.map_eq_some_iff.mp has
  exact .inr (.inr ⟨rfl, rfl⟩)

/-- The driver. -/
theorem Told.serve (told : Told idle s) (serves : Serve s s') : Told idle s' := by
  cases serves with
  | getFull =>
      unfold obqGetFullBufferI
      split
      · exact told
      · exact told
  | release buffer mine =>
      refine Told.dequeueNext (Callers.Told.silent told (fun _ _ => rfl) ?_) fun _ _ _ _ => .inl rfl
      rintro tp r ⟨⟩
  | tryFlush =>
      unfold obqTryFlushI
      split
      · exact told
      · split
        · exact told
        · exact told
  | reset => exact told.reset

theorem Told.wakeup (told : Told idle s) (unlocked : s.Unlocked) (fired : s.fired = some tp) :
    Told idle (s.wakeup tp) := by
  unfold OutputBuffers.wakeup
  rcases Callers.Told.fired_cases told unlocked fired with state | ready
  · change s.core.p_state tp = .WAIT .QUEUED at state
    simp only [state]
    exact Callers.Told.expired told fired state
  · change s.core.p_state tp = .READY at ready
    simp only [ready]
    exact told

theorem Told.isr (told : Told idle s) (unlocked : s.Unlocked) (isr : Isr s s') : Told idle s' := by
  cases isr with
  | expire tp calm armed => exact Callers.Told.expire told armed
  | callback tp fired => exact Callers.Told.called (told.wakeup unlocked fired)
  | ready tp msg waits =>
      exact Callers.Told.wakes_other told waits (by simp)
        (told.base.core.setMsg_ready (by simp [callers, waits]) msg)
  | tick => exact Callers.Told.quiet told told.base.core.tick

theorem Told.thread (told : Told idle s) (thread : Thread idle s s') : Told idle s' := by
  cases thread with
  | sleep out other =>
      exact Callers.Told.sleeps_other told out (by simp) (told.base.core.goSleep other .OTHER)
  | wakeup tp msg waits =>
      exact Callers.Told.wakes_other told waits (by simp)
        (told.base.core.wakeup (by simp [callers, waits]) msg)
  | switch switch => exact Callers.Told.quiet told (told.base.core.switch switch)

theorem Told.step (told : Told idle s) (step : Step idle s s') : Told idle s' := by
  cases step with
  | begin out calm other begins => exact told.begin out calm other begins
  | next call left inside calm => exact Locked.attempt (Callers.Told.next told inside calm) left
  | resume call timeout inside calm => exact told.resume inside calm
  | serve unlocked serves => exact told.serve serves
  | isr unlocked isr => exact told.isr unlocked isr
  | thread unlocked calm thread => exact told.thread thread

theorem Start.told {bsize bn : Nat} (start : Start idle bsize bn s) : Told idle s :=
  Callers.told_start start.core start.asleep start.waiting start.timer start.fired start.pc
    start.log

/-! ### Steps of the bytes -/

section Moves

variable {bsize bn : Nat} {l : List Buffer}

theorem leave_same (s : OutputBuffers T) (result : Int) : Same s (s.leave result) :=
  ⟨rfl, rfl, rfl, rfl, rfl, sent_returned _ _ _, wrote_returned _ _ _⟩

theorem Inv.proceed (inv : Inv bsize bn s l) (room : Room s) (current : s.cursor = some at_)
    (call : WriteCall) :
    ∃ l', Inv bsize bn (s.proceed at_ call) l' ∧ Room (s.proceed at_ call) := by
  have space := room at_ current
  cases call with
  | put b timeout =>
      obtain ⟨l', filled, room'⟩ := inv.fill current (show at_.ptr + [b].length ≤ at_.top from space)
      exact ⟨l', filled.same (leave_same _ _), room'.same (leave_same _ _)⟩
  | write bp w timeout =>
      unfold OutputBuffers.proceed
      dsimp only
      generalize size_eq : min (min (at_.top - at_.ptr) (bp.length - w)) 64 = size
      have fits : at_.ptr + ((bp.drop w).take size).length ≤ at_.top := by
        rw [List.length_take]
        omega
      obtain ⟨l', filled, room'⟩ := inv.fill current fits
      split_ifs
      · exact ⟨l', filled.same (leave_same _ _), room'.same (leave_same _ _)⟩
      · exact ⟨l', filled.same (same_of_log rfl rfl rfl rfl rfl rfl),
          room'.same (same_of_log rfl rfl rfl rfl rfl rfl)⟩

/-- The next empty buffer becomes the current one. There must be none. -/
theorem Inv.getEmptyBuffer (inv : Inv bsize bn s l) (none : s.cursor = none) (call : WriteCall)
    (timeout : Timeout) :
    ∃ l', Inv bsize bn (s.obqGetEmptyBufferTimeoutS call timeout) l' ∧
      Room (s.obqGetEmptyBufferTimeoutS call timeout) := by
  have room : Room s := by
    intro at_ eq
    exact absurd (none.symm.trans eq) (by simp)
  have counter := inv.counter
  unfold obqGetEmptyBufferTimeoutS
  split_ifs with full immediate
  · exact ⟨l, inv.same (leave_same _ _), room.same (leave_same _ _)⟩
  · exact ⟨l, inv.same (same_of_log rfl rfl rfl rfl rfl rfl),
      room.same (same_of_log rfl rfl rfl rfl rfl rfl)⟩
  · have free : s.bcounter ≠ 0 := fun zero => full (decide_eq_true zero)
    have acquired : Inv bsize bn { s with cursor := some ⟨s.ring.wrptr, 0, s.bsize⟩ } l := by
      refine ⟨inv.bsize, inv.size, inv.holds, counter, inv.pos, fun at_ eq => ?_, inv.sending,
        inv.used, ?_⟩
      · cases eq
        exact ⟨by omega, rfl, rfl, Nat.zero_le _⟩
      · have bytes := inv.bytes
        unfold OutputBuffers.current at bytes
        rw [none] at bytes
        exact bytes
    refine acquired.proceed (fun at_ eq => ?_) rfl call
    cases eq
    exact inv.pos

theorem Inv.attempt (inv : Inv bsize bn s l) (room : Room s) (call : WriteCall) (left : Left) :
    ∃ l', Inv bsize bn (s.attempt call left) l' ∧ Room (s.attempt call left) := by
  unfold OutputBuffers.attempt
  cases current : s.cursor with
  | some at_ => exact inv.proceed room current call
  | none =>
      dsimp only
      split
      · exact inv.getEmptyBuffer current call _
      · exact ⟨l, inv.same (leave_same _ _), room.same (leave_same _ _)⟩

theorem Inv.enter (inv : Inv bsize bn s l) (room : Room s) (call : WriteCall) :
    ∃ l', Inv bsize bn (s.enter call) l' ∧ Room (s.enter call) := by
  have begun : Same s { s with log := s.log ++ [.called s.core.currp call] } :=
    ⟨rfl, rfl, rfl, rfl, rfl, sent_called _ _ _, wrote_called _ _ _⟩
  exact (inv.same begun).attempt (room.same begun) call .some

theorem Inv.resume (inv : Inv bsize bn s l) (room : Room s) (undisturbed : Undisturbed s)
    (inside : s.pc s.core.currp = .asleep call timeout) :
    ∃ l', Inv bsize bn (s.resume call timeout) l' ∧ Room (s.resume call timeout) := by
  have off : Same s { s with timer := Function.update s.timer s.core.currp false } :=
    same_of_log rfl rfl rfl rfl rfl rfl
  unfold OutputBuffers.resume
  dsimp only
  split_ifs with bad
  · exact ⟨l, (inv.same off).same (leave_same _ _), (room.same off).same (leave_same _ _)⟩
  · exact (inv.same off).getEmptyBuffer (undisturbed call timeout inside (not_lt.mp bad)) call
      timeout

theorem Inv.release (inv : Inv bsize bn s l) (room : Room s) {buffer : Nat × Nat}
    (mine : s.sending = some buffer) :
    ∃ l', Inv bsize bn (s.obqReleaseEmptyBufferI buffer) l' ∧
      Room (s.obqReleaseEmptyBufferI buffer) := by
  obtain ⟨b, rest, rfl, content⟩ := inv.bytesAt mine
  have released : Inv bsize bn { s with
      bcounter := s.bcounter + 1
      ring := drop s.ring
      sending := none
      log := s.log ++ [.sent (s.bytesAt buffer)] } rest := by
    refine ⟨inv.bsize, inv.size, inv.holds.drop, ?_, inv.pos, fun at_ eq => ?_, ?_,
      fun b mem => inv.used b (List.mem_cons_of_mem _ mem), ?_⟩
    · have counter := inv.counter
      rw [List.length_cons] at counter
      change s.bcounter + 1 + rest.length = bn
      omega
    · obtain ⟨less, same⟩ := inv.cursor at_ eq
      rw [List.length_cons] at less
      exact ⟨by omega, same⟩
    · intro _ eq
      cases eq
    · have bytes := inv.bytes
      rw [List.flatMap_cons] at bytes
      change sent (s.log ++ [.sent _]) ++ (_ ++ s.current) = wrote (s.log ++ [.sent _])
      rw [sent_sent, wrote_sent, content, ← bytes]
      simp only [List.append_assoc]
  have same := (dequeueNext_rest { s with
      bcounter := s.bcounter + 1
      ring := drop s.ring
      sending := none
      log := s.log ++ [.sent (s.bytesAt buffer)] } MSG_OK).1
  refine ⟨rest, released.same same, fun at_ eq => ?_⟩
  exact room at_ (same.cursor.symm.trans eq)

theorem Inv.reset (inv : Inv bsize bn s l) :
    ∃ l', Inv bsize bn s.obqResetI l' ∧ Room s.obqResetI := by
  unfold obqResetI
  refine ⟨[], Inv.same ?_ (dequeueAll_same _ _ _), Room.same ?_ (dequeueAll_same _ _ _)⟩
  · refine ⟨inv.bsize, inv.size, holds_nil (Nat.zero_lt_of_lt inv.holds.head) rfl, inv.size,
      inv.pos, by simp, by simp, by simp, ?_⟩
    change sent (s.log ++ [.reset]) ++ _ = wrote (s.log ++ [.reset])
    rw [sent_reset, wrote_reset]
    rfl
  · intro at_ eq
    cases eq

theorem Inv.serve (inv : Inv bsize bn s l) (room : Room s) (serves : Serve s s') :
    ∃ l', Inv bsize bn s' l' ∧ Room s' := by
  cases serves with
  | getFull =>
      refine ⟨l, inv.getFull, ?_⟩
      unfold obqGetFullBufferI
      split <;> exact room
  | release buffer mine => exact inv.release room mine
  | tryFlush => exact inv.tryFlush room
  | reset => exact inv.reset

theorem wakeup_same (s : OutputBuffers T) (tp : T) : Same s { s.wakeup tp with fired := none } := by
  unfold wakeup
  split <;> exact same_of_log rfl rfl rfl rfl rfl rfl

theorem Isr.same (isr : Isr s s') : Same s s' := by
  cases isr with
  | callback tp fired => exact wakeup_same s tp
  | _ => exact same_of_log rfl rfl rfl rfl rfl rfl

theorem Thread.same (thread : Thread idle s s') : Same s s' := by
  cases thread <;> exact same_of_log rfl rfl rfl rfl rfl rfl

theorem Inv.step (inv : Inv bsize bn s l) (room : Room s) (undisturbed : Undisturbed s)
    (step : Step idle s s') : ∃ l', Inv bsize bn s' l' ∧ Room s' := by
  cases step with
  | begin out calm other begins =>
      cases begins with
      | put b timeout => exact inv.enter room _
      | write bp timeout => exact inv.enter room _
      | flush => exact inv.flush room
  | next call left inside calm => exact inv.attempt room call left
  | resume call timeout inside calm => exact inv.resume room undisturbed inside
  | serve unlocked serves => exact inv.serve room serves
  | isr unlocked isr => exact ⟨l, inv.same isr.same, room.same isr.same⟩
  | thread unlocked calm thread => exact ⟨l, inv.same thread.same, room.same thread.same⟩

/-! ### Runs -/

/-- Writers lose nothing that they were told is written. As long as no thread that was woken by a
release runs again while there is a current buffer, the driver sends what was written since the
last reset, in the order in which it was written, and each call reports what it wrote. -/
theorem bytes_sent_in_order (idle : T) (bsize bn : Nat) (pos : 0 < bsize ∧ 0 < bn)
    (s : OutputBuffers T) (reach : Reach Undisturbed idle bsize bn s) : Delivered bsize bn s := by
  obtain ⟨s₀, start, run⟩ := reach
  have good : Told idle s ∧ ∃ l, Inv bsize bn s l ∧ Room s := by
    induction run with
    | refl =>
        refine ⟨start.told, [], start.inv pos, fun at_ eq => ?_⟩
        exact absurd (start.cursor.symm.trans eq) (by simp)
    | tail _ step ih =>
        obtain ⟨told, l, inv, room⟩ := ih
        exact ⟨told.step step.2, inv.step room step.1 step.2⟩
  obtain ⟨told, l, inv, -⟩ := good
  exact ⟨inv.order, told.reports⟩

end Moves

end Calls

/-! ### Examples -/

/-- The idle thread and two others; one buffer of two bytes. -/
def sampleStart : OutputBuffers (Fin 3) where
  core :=
    { p_prio := ![ IDLEPRIO, 128, 129]
      p_state := ![.READY, .READY, .CURRENT]
      p_preempt := fun _ => CH_CFG_TIME_QUANTUM
      rdymsg := fun _ => MSG_OK
      ready := [1, 0]
      currp := 2
      log := [] }
  waiting := []
  bcounter := 1
  bsize := 2
  ring := ⟨1, fun _ => ⟨0, fun _ => 0⟩, 0, 0⟩
  cursor := none
  sending := none
  timer := fun _ => false
  fired := none
  pc := fun _ => .outside
  log := []

theorem sampleStart_start : Start 0 2 1 sampleStart where
  core :=
    { inv :=
        { sorted := by simp [Prio.Descending, sampleStart, IDLEPRIO]
          nodup := by decide
          mem_ready := by decide
          current := by decide
          awake := by decide }
      pos := by decide }
  asleep := by decide
  waiting := rfl
  counter := rfl
  bsize := rfl
  size := rfl
  pointers := ⟨rfl, rfl⟩
  cursor := rfl
  sending := rfl
  timer _ := rfl
  fired := rfl
  pc _ := rfl
  log := rfl

section Samples

variable {s s' : OutputBuffers (Fin 3)} {ok : OutputBuffers (Fin 3) → Prop}

theorem unlocked_of_outside (out : s.pc s.core.currp = .outside) : s.Unlocked := by
  intro call timeout inside
  exact absurd (out.symm.trans inside) (by simp)

theorem Reach.step (reach : Reach ok 0 2 1 s) (good : ok s) (step : Step 0 s s') :
    Reach ok 0 2 1 s' := by
  obtain ⟨s₀, start, run⟩ := reach
  exact ⟨s₀, start, run.tail ⟨good, step⟩⟩

/-- The second thread writes three bytes, of which two fit. -/
def sampleFull : OutputBuffers (Fin 3) :=
  let s := { sampleStart with core := sampleStart.core.chSchGoSleepS .OTHER }
  (s.obqWriteTimeout [1, 2, 3] .infinite).attempt (.write [1, 2, 3] 2 .infinite) .some

/-- They are sent, and the second thread runs again. -/
def sampleSent : OutputBuffers (Fin 3) :=
  let s := sampleFull.obqGetFullBufferI.obqReleaseEmptyBufferI (0, 2)
  let s := { s with core := s.core.chSchRescheduleS }
  s.resume (.write [1, 2, 3] 2 .infinite) .infinite

theorem sampleFull_reach (good : ∀ s : OutputBuffers (Fin 3), s.cursor = none → ok s) :
    Reach ok 0 2 1 sampleFull := by
  have start : Reach ok 0 2 1 sampleStart := ⟨sampleStart, sampleStart_start, .refl⟩
  have slept := start.step (good _ rfl)
    (.thread (unlocked_of_outside rfl) rfl (.sleep rfl (by decide)))
  have wrote := slept.step (good _ rfl)
    (.begin rfl rfl (by decide) (.write [1, 2, 3] .infinite))
  exact wrote.step (good _ rfl) (.next (.write [1, 2, 3] 2 .infinite) .some (by decide) rfl)

theorem sampleSent_reach : Reach Undisturbed 0 2 1 sampleSent := by
  have good : ∀ s : OutputBuffers (Fin 3), s.cursor = none → Undisturbed s :=
    fun s none _ _ _ _ => none
  have got := (sampleFull_reach good).step (good _ rfl)
    (.serve (unlocked_of_outside rfl) .getFull)
  have sent := got.step (good _ rfl)
    (.serve (unlocked_of_outside rfl) (.release (0, 2) (by decide)))
  have runs := sent.step (good _ rfl)
    (.thread (unlocked_of_outside rfl) rfl (.switch .reschedule))
  exact runs.step (good _ rfl) (.resume (.write [1, 2, 3] 2 .infinite) .infinite (by decide) rfl)

end Samples

theorem sampleSent_delivered :
    Delivered 2 1 sampleSent ∧ wrote sampleSent.log = [1, 2, 3] ∧ sent sampleSent.log = [1, 2] :=
  ⟨bytes_sent_in_order 0 2 1 (by decide) sampleSent sampleSent_reach, by decide, by decide⟩

/-- The buffer is released for the second thread, but the third one, with the higher priority,
runs first and writes into it. -/
def sampleShared : OutputBuffers (Fin 3) :=
  let s := sampleFull.obqGetFullBufferI.obqReleaseEmptyBufferI (0, 2)
  let s := { s with core := (s.core.setMsg 2 MSG_OK).chSchReadyI 2 }
  let s := { s with core := s.core.chSchRescheduleS }
  s.obqPutTimeout 4 .infinite

/-- The second thread runs, and what it writes goes over that. -/
def sampleOver : OutputBuffers (Fin 3) :=
  let s := { sampleShared with core := sampleShared.core.chSchGoSleepS .OTHER }
  (s.resume (.write [1, 2, 3] 2 .infinite) .infinite).obqFlush.obqGetFullBufferI

theorem sampleOver_reach : Reach (fun _ => True) 0 2 1 sampleOver := by
  have full : Reach (fun _ => True) 0 2 1 sampleFull := sampleFull_reach fun _ _ => trivial
  have got := full.step trivial (.serve (unlocked_of_outside rfl) .getFull)
  have sent := got.step trivial
    (.serve (unlocked_of_outside rfl) (.release (0, 2) (by decide)))
  have woken := sent.step trivial
    (.isr (unlocked_of_outside rfl) (.ready 2 MSG_OK (by decide)))
  have runs := woken.step trivial
    (.thread (unlocked_of_outside rfl) rfl (.switch .reschedule))
  have shared := runs.step trivial (.begin rfl rfl (by decide) (.put 4 .infinite))
  have slept := shared.step trivial
    (.thread (unlocked_of_outside rfl) rfl (.sleep rfl (by decide)))
  have again := slept.step trivial
    (.resume (.write [1, 2, 3] 2 .infinite) .infinite (by decide) rfl)
  have flushed := again.step trivial (.begin rfl rfl (by decide) .flush)
  exact flushed.step trivial (.serve (unlocked_of_outside rfl) .getFull)

/-- So it is not delivered if the second thread is disturbed. -/
theorem byte_overwritten : ¬ Delivered 2 1 sampleOver := by
  intro delivered
  obtain ⟨pending, all, -, sending⟩ := delivered.order
  have sent : sent sampleOver.log = [1, 2] := by decide
  have wrote : wrote sampleOver.log = [1, 2] ++ [4, 3] := by decide
  rw [sent, wrote, List.append_cancel_left_eq] at all
  have next := sending (0, 1) (by decide)
  rw [all] at next
  revert next
  decide

end OutputBuffers

end LtcOs.Kernel
