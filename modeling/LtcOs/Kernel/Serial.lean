import LtcOs.Kernel.IoQueue

/-!
The transmitter of the serial driver (`serial_lld.c` for KL02x): an output queue, filled by
threads, and the data register of the UART, fed by the notification of the queue and by
the interrupt handler.

Writing `D` clears `TDRE`, and the transmitter sets it again at any later moment. The
receiver only wakes threads. The handler may be entered at any time: for `TDRE` with `TIE`,
for a byte received, or for an error.
-/

namespace LtcOs.Kernel

/-- The interrupt handler is not active, is before its look at `TDRE`, or has a result of
`oqGetI`. -/
inductive Handler where
  | idle
  | entered
  | fetched (b : Int)
deriving DecidableEq, Repr

/-- `written` has the bytes written to `D`, each with the value of `TDRE` at that moment. -/
structure Serial (T : Type) where
  oq : IoQueue T
  tdre : Bool
  tie : Bool
  written : List (UInt8 × Bool)
  handler : Handler

variable {T : Type}

namespace Serial

/-! ### The code -/

section Code

variable [DecidableEq T]

/-- `uart->C2 = UARTx_C2_RE | UARTx_C2_RIE | UARTx_C2_TE` in `configure_uart`. -/
def configure_uart (s : Serial T) : Serial T := { s with tie := false }

/-- `u->D = b`. -/
def writeD (s : Serial T) (b : Int) : Serial T :=
  { s with tdre := false, written := s.written ++ [(UInt8.ofNat b.toNat, s.tdre)] }

/-- The notification of the output queue. -/
def preload (s : Serial T) : Serial T :=
  if s.tdre then
    let (b, oq) := s.oq.chOQGetI
    let s := { s with oq := oq }
    if b < Q_OK then s else { s.writeD b with tie := true }
  else s

/-- A transfer of a thread with the notification that follows it under the same lock. -/
def attempt (s : Serial T) (call : Call) : Serial T :=
  let s' := { s with oq := s.oq.attempt .output call }
  if s.oq.q_counter = 0 then s' else s'.preload

/-- A call begins. -/
def begin (s : Serial T) (call : Call) : Serial T :=
  attempt { s with oq := s.oq.called call } call

/-- The transfer of a thread that slept. -/
def resume (s : Serial T) (call : Call) : Serial T :=
  let s' := { s with oq := s.oq.resume .output call }
  if IoQueue.Call.ends call (s.oq.core.rdymsg s.oq.core.currp) then s'
  else if s.oq.q_counter = 0 then s'
  else s'.preload

/-- `serve_interrupt` up to the result of `oqGetI`. -/
def serve (s : Serial T) : Serial T :=
  if s.tdre then
    let (b, oq) := s.oq.chOQGetI
    { s with oq := oq, handler := .fetched b }
  else { s with handler := .idle }

/-- The rest of `serve_interrupt`. -/
def finish (s : Serial T) (b : Int) : Serial T :=
  if b < Q_OK then { s with tie := false, handler := .idle }
  else { s.writeD b with handler := .idle }

end Code

/-! ### Runs -/

section Steps

variable [DecidableEq T]

/-- Threads do not run while a handler is active. -/
def Running (s : Serial T) : Prop := s.oq.fired = none ∧ s.handler = .idle

inductive Step (idle : T) : Serial T → Serial T → Prop where
  | put {s : Serial T} (b : UInt8) (timeout : Timeout) (out : s.oq.pc s.oq.core.currp = .outside)
      (running : s.Running) (other : s.oq.core.currp ≠ idle) :
        Step idle s (s.begin ⟨true, [], [b], 0, timeout⟩)
  | write {s : Serial T} (bp : List UInt8) (timeout : Timeout) (some_bytes : bp ≠ [])
      (out : s.oq.pc s.oq.core.currp = .outside) (running : s.Running)
        (other : s.oq.core.currp ≠ idle) :
      Step idle s (s.begin ⟨false, [], bp, 0, timeout⟩)
  | next {s : Serial T} (call : Call) (inside : s.oq.pc s.oq.core.currp = .unlocked call)
    (running : s.Running) :
      Step idle s (s.attempt call)
  | resume {s : Serial T} (call : Call) (inside : s.oq.pc s.oq.core.currp = .asleep call)
    (running : s.Running) :
      Step idle s (s.resume call)
  | thread {s : Serial T} {oq : IoQueue T} (unlocked : s.oq.Unlocked) (running : s.Running)
      (thread : IoQueue.Thread idle s.oq oq) : Step idle s { s with oq := oq }
  | isr {s : Serial T} {oq : IoQueue T} (unlocked : s.oq.Unlocked) (isr : IoQueue.Isr s.oq oq) :
      Step idle s { s with oq := oq }
  | transmit {s : Serial T} : Step idle s { s with tdre := true }
  | enter {s : Serial T} (unlocked : s.oq.Unlocked) (free : s.handler = .idle) :
      Step idle s { s with handler := .entered }
  | serve {s : Serial T} (entered : s.handler = .entered) : Step idle s s.serve
  | finish {s : Serial T} (b : Int) (fetched : s.handler = .fetched b) : Step idle s (s.finish b)

/-- After `sd_lld_start`, with an idle transmitter and an empty output queue. -/
structure Start (idle : T) (size : Nat) (s : Serial T) : Prop where
  oq : IoQueue.Start idle .output size s.oq
  tdre : s.tdre = true
  configured : s.configure_uart = s
  written : s.written = []
  handler : s.handler = .idle

def Reachable (idle : T) (size : Nat) (s : Serial T) : Prop :=
  ∃ s₀, Start idle size s₀ ∧ Relation.ReflTransGen (Step idle) s₀ s

end Steps

/-! ### The invariant -/

/-- The byte taken from the queue and not yet written. -/
def inFlight : Handler → List UInt8
  | .fetched b => if b < Q_OK then [] else [UInt8.ofNat b.toNat]
  | _ => []

/-- The bytes written to `D`. -/
def sent (s : Serial T) : List UInt8 := s.written.map Prod.fst

/-- A byte that waits in the queue will be asked for: `TIE` is on. While the handler has
found the queue empty, it stays so, as threads do not run. -/
def Prompt (s : Serial T) (l : List UInt8) : Handler → Prop
  | .fetched b => s.tdre = true ∧ if b < Q_OK then l = [] else s.tie = true
  | _ => l ≠ [] → s.tie = true

structure Inv [DecidableEq T] (idle : T) (s : Serial T) (l : List UInt8) : Prop where
  oq : IoQueue.Inv idle .output s.oq
  data : IoQueue.Data .output s.oq l
  sent : s.sent ++ inFlight s.handler = IoQueue.delivered s.oq.log
  ready : ∀ p ∈ s.written, p.2 = true
  busy : s.tdre = false → s.tie = true
  prompt : Prompt s l s.handler

section Proofs

variable [DecidableEq T] {idle : T} {s : Serial T} {oq : IoQueue T} {l : List UInt8}

theorem chOQGetI_nil (data : IoQueue.Data .output oq []) : oq.chOQGetI = (Q_EMPTY, oq) := by
  have empty : oq.chOQIsEmptyI = true := by
    rw [IoQueue.chOQIsEmptyI, decide_eq_true_eq, data.limit_iff]
    exact data.counter
  rw [IoQueue.chOQGetI, if_pos empty]

theorem chOQGetI_cons {b : UInt8} (inv : IoQueue.Inv idle .output oq)
    (data : IoQueue.Data .output oq (b :: l)) :
    oq.chOQGetI.1 = b.toNat ∧ IoQueue.Inv idle .output oq.chOQGetI.2 ∧
      IoQueue.Data .output oq.chOQGetI.2 l ∧
      IoQueue.delivered oq.chOQGetI.2.log = IoQueue.delivered oq.log ++ [b] := by
  obtain ⟨get, less, log⟩ := data.chOQGetI
  exact ⟨by rw [get], inv.serve .get, less, log⟩

/-- A byte comes back from its message. -/
theorem byte_of_msg (b : UInt8) : UInt8.ofNat ((b.toNat : Int)).toNat = b := by simp

theorem not_lt_ok (b : UInt8) : ¬ ((b.toNat : Int) < Q_OK) := by
  change ¬ ((b.toNat : Int) < 0)
  omega

/-- The notification sends a byte if it can, and then asks for the next interrupt; if it
cannot, the interrupt has been asked for. -/
theorem Inv.preload (oq : IoQueue.Inv idle .output s.oq) (data : IoQueue.Data .output s.oq l)
    (sent : s.sent = IoQueue.delivered s.oq.log) (ready : ∀ p ∈ s.written, p.2 = true)
    (busy : s.tdre = false → s.tie = true) (free : s.handler = .idle) :
    ∃ l', Inv idle s.preload l' := by
  unfold Serial.preload
  split_ifs with tdre
  · cases l with
    | nil =>
        rw [chOQGetI_nil data]
        refine ⟨[], oq, data, ?_, ready, busy, ?_⟩
        · change s.sent ++ inFlight s.handler = _
          rw [free]
          exact (List.append_nil _).trans sent
        · change Prompt _ _ s.handler
          rw [free]
          exact fun some_bytes => absurd rfl some_bytes
    | cons b rest =>
        obtain ⟨byte, oq', data', delivered⟩ := chOQGetI_cons oq data
        dsimp only
        rw [byte, if_neg (not_lt_ok b)]
        refine ⟨rest, oq', data', ?_, ?_, fun _ => rfl, ?_⟩
        · change (s.written ++ [(UInt8.ofNat ((b.toNat : Int)).toNat, s.tdre)]).map Prod.fst ++
            inFlight s.handler =
            IoQueue.delivered s.oq.chOQGetI.2.log
          rw [byte_of_msg, free, List.map_append, delivered, ← sent]
          exact List.append_nil _
        · intro p mem
          change p ∈ s.written ++ [(UInt8.ofNat ((b.toNat : Int)).toNat, s.tdre)] at mem
          rcases List.mem_append.mp mem with old | new
          · exact ready p old
          · rw [List.mem_singleton.mp new]
            exact tdre
        · change Prompt _ _ s.handler
          rw [free]
          exact fun _ => rfl
  · have tie := busy (Bool.eq_false_of_not_eq_true tdre)
    refine ⟨l, oq, data, ?_, ready, busy, ?_⟩
    · rw [free]
      exact (List.append_nil _).trans sent
    · rw [free]
      exact fun _ => tie

/-! ### Steps and runs -/

/-- A step that touches neither the bytes nor the transmitter. -/
theorem Inv.setOq (inv : Inv idle s l) (kept : IoQueue.Inv idle .output oq)
    (rest : oq.ring = s.oq.ring ∧ oq.q_counter = s.oq.q_counter ∧
      IoQueue.accepted oq.log = IoQueue.accepted s.oq.log ∧
      IoQueue.delivered oq.log = IoQueue.delivered s.oq.log) : Inv idle { s with oq := oq } l := by
  obtain ⟨ring, counter, accepted, delivered⟩ := rest
  refine ⟨kept, inv.data.congr ring counter accepted delivered, ?_, inv.ready, inv.busy, ?_⟩
  · rw [delivered]
    exact inv.sent
  · have prompt := inv.prompt
    change Prompt _ _ s.handler
    cases eq : s.handler with
    | idle =>
        rw [eq] at prompt
        exact prompt
    | entered =>
        rw [eq] at prompt
        exact prompt
    | fetched b =>
        rw [eq] at prompt
        exact prompt

theorem Inv.called (inv : Inv idle s l) (call : Call)
    (out : s.oq.pc s.oq.core.currp = .outside) : Inv idle { s with oq := s.oq.called call } l :=
  inv.setOq (inv.oq.called call out)
    ⟨rfl, rfl, IoQueue.accepted_called _ _ _, IoQueue.delivered_called _ _ _⟩

theorem attempt_delivered (oq : IoQueue T) (call : Call) :
    IoQueue.delivered (oq.attempt .output call).log = IoQueue.delivered oq.log := by
  unfold IoQueue.attempt
  split
  · split
    · exact IoQueue.delivered_returned _ _ _ _
    · rfl
  · split
    · exact IoQueue.delivered_returned _ _ _ _
    · next b bp _ =>
      have same : IoQueue.delivered (oq.transfer .output b).2.log = IoQueue.delivered oq.log :=
        IoQueue.delivered_accepted _ _ _
      dsimp only
      split
      · exact (IoQueue.delivered_returned _ _ _ _).trans same
      · split
        · exact (IoQueue.delivered_returned _ _ _ _).trans same
        · exact same

/-- With no free place a thread leaves the bytes alone. -/
theorem attempt_full (oq : IoQueue T) (call : Call) (full : oq.q_counter = 0) :
    (oq.attempt .output call).ring = oq.ring ∧ (oq.attempt .output call).q_counter = oq.q_counter ∧
      IoQueue.accepted (oq.attempt .output call).log = IoQueue.accepted oq.log := by
  unfold IoQueue.attempt
  rw [if_pos full]
  split
  · exact ⟨rfl, rfl, IoQueue.accepted_returned _ _ _ _⟩
  · exact ⟨rfl, rfl, rfl⟩

/-- A thread transfers a byte, or waits, or gives up. -/
theorem Inv.transfer (inv : Inv idle s l) (free : s.handler = .idle) {call : Call}
    (kept : IoQueue.Inv idle .output (s.oq.attempt .output call)) :
    ∃ l', Inv idle (s.attempt call) l' := by
  have delivered := attempt_delivered s.oq call
  unfold Serial.attempt
  dsimp only
  split_ifs with full
  · obtain ⟨ring, counter, accepted⟩ := attempt_full s.oq call full
    exact ⟨l, inv.setOq kept ⟨ring, counter, accepted, delivered⟩⟩
  · obtain ⟨l', data⟩ := kept.data
    have sent := inv.sent
    rw [free] at sent
    refine Inv.preload (s := { s with oq := _ }) kept data ?_ inv.ready inv.busy free
    rw [delivered, ← sent]
    exact (List.append_nil _).symm

theorem Inv.resume (inv : Inv idle s l) (free : s.handler = .idle) (calm : s.oq.fired = none)
    {call : Call} (inside : s.oq.pc s.oq.core.currp = .asleep call) :
    ∃ l', Inv idle (s.resume call) l' := by
  have kept := inv.oq.resume inside calm
  have sent := inv.sent
  rw [free] at sent
  unfold Serial.resume
  dsimp only
  split_ifs with ends full
  · refine ⟨l, inv.setOq kept ?_⟩
    unfold IoQueue.resume
    rw [if_pos ends]
    exact ⟨rfl, rfl, IoQueue.accepted_returned _ _ _ _, IoQueue.delivered_returned _ _ _ _⟩
  · refine ⟨l, inv.setOq kept ?_⟩
    unfold IoQueue.resume
    rw [if_neg ends]
    obtain ⟨ring, counter, accepted⟩ := attempt_full
      { s.oq with timer := Function.update s.oq.timer s.oq.core.currp false } call full
    exact ⟨ring, counter, accepted, attempt_delivered _ call⟩
  · obtain ⟨l', data⟩ := kept.data
    refine Inv.preload (s := { s with oq := _ }) kept data ?_ inv.ready inv.busy free
    have delivered : IoQueue.delivered (s.oq.resume .output call).log =
        IoQueue.delivered s.oq.log := by
      unfold IoQueue.resume
      rw [if_neg ends]
      exact attempt_delivered _ call
    rw [delivered, ← sent]
    exact (List.append_nil _).symm

theorem Inv.serve (inv : Inv idle s l) (entered : s.handler = .entered) :
    ∃ l', Inv idle s.serve l' := by
  have sent := inv.sent
  have prompt := inv.prompt
  rw [entered] at sent prompt
  unfold Serial.serve
  split_ifs with tdre
  · cases l with
    | nil =>
        rw [chOQGetI_nil inv.data]
        exact ⟨[], inv.oq, inv.data, sent, inv.ready, inv.busy, tdre, rfl⟩
    | cons b rest =>
        obtain ⟨byte, oq', data', delivered⟩ := chOQGetI_cons inv.oq inv.data
        dsimp only
        rw [byte]
        refine ⟨rest, oq', data', ?_, inv.ready, inv.busy, tdre, ?_⟩
        · change s.sent ++ (if ((b.toNat : Int) < Q_OK) then [] else [UInt8.ofNat ((b.toNat : Int)).toNat]) = _
          rw [if_neg (not_lt_ok b), byte_of_msg, delivered, ← sent, List.append_assoc]
          rfl
        · rw [if_neg (not_lt_ok b)]
          exact prompt (by simp)
  · exact ⟨l, inv.oq, inv.data, sent, inv.ready, inv.busy, prompt⟩

theorem Inv.finish (inv : Inv idle s l) {b : Int} (fetched : s.handler = .fetched b) :
    Inv idle (s.finish b) l := by
  have sent := inv.sent
  have prompt := inv.prompt
  rw [fetched] at sent prompt
  obtain ⟨tdre, rest⟩ := prompt
  simp only [inFlight] at sent
  unfold Serial.finish
  split_ifs with empty
  · rw [if_pos empty] at sent rest
    refine ⟨inv.oq, inv.data, sent, inv.ready, ?_, ?_⟩
    · intro clear
      rw [tdre] at clear
      cases clear
    · exact fun some_bytes => absurd rest some_bytes
  · rw [if_neg empty] at sent rest
    refine ⟨inv.oq, inv.data, ?_, ?_, fun _ => rest, fun _ => rest⟩
    · change (s.written ++ [(UInt8.ofNat b.toNat, s.tdre)]).map Prod.fst ++ [] = _
      rw [List.map_append, List.append_nil]
      exact sent
    · intro p mem
      change p ∈ s.written ++ [(UInt8.ofNat b.toNat, s.tdre)] at mem
      rcases List.mem_append.mp mem with old | new
      · exact inv.ready p old
      · rw [List.mem_singleton.mp new]
        exact tdre

theorem Start.inv {size : Nat} (start : Start idle size s) (pos : 0 < size) :
    ∃ l, Inv idle s l := by
  have oq := start.oq.inv pos
  obtain ⟨l, data⟩ := oq.data
  have empty : l = [] := by
    have order := data.order
    rw [start.oq.log] at order
    exact order
  refine ⟨l, oq, data, ?_, ?_, ?_, ?_⟩
  · rw [start.handler, start.oq.log]
    change s.written.map Prod.fst ++ [] = []
    rw [start.written]
    rfl
  · rw [start.written]
    simp
  · intro clear
    rw [start.tdre] at clear
    cases clear
  · rw [start.handler]
    exact fun some_bytes => absurd empty some_bytes

theorem Step.inv {s' : Serial T} (step : Step idle s s') (inv : Inv idle s l) :
    ∃ l', Inv idle s' l' := by
  cases step with
  | put b timeout out running other =>
      exact (inv.called _ out).transfer running.2
        (inv.oq.begin out running.1 other (.put b timeout))
  | write bp timeout some_bytes out running other =>
      exact (inv.called _ out).transfer running.2
        (inv.oq.begin out running.1 other (.write bp timeout some_bytes))
  | next call inside running => exact inv.transfer running.2 (inv.oq.next inside running.1)
  | resume call inside running => exact inv.resume running.2 running.1 inside
  | thread unlocked running thread =>
      obtain ⟨ring, counter, log⟩ := thread.rest
      exact ⟨l, inv.setOq (inv.oq.thread thread) ⟨ring, counter, by rw [log], by rw [log]⟩⟩
  | isr unlocked isr =>
      obtain ⟨ring, counter, log⟩ := isr.rest
      exact ⟨l, inv.setOq (inv.oq.isr unlocked isr) ⟨ring, counter, by rw [log], by rw [log]⟩⟩
  | transmit =>
      have prompt := inv.prompt
      refine ⟨l, inv.oq, inv.data, inv.sent, inv.ready, fun clear => absurd clear (by simp), ?_⟩
      change Prompt _ _ s.handler
      cases eq : s.handler with
      | idle =>
          rw [eq] at prompt
          exact prompt
      | entered =>
          rw [eq] at prompt
          exact prompt
      | fetched b =>
          rw [eq] at prompt
          exact ⟨rfl, prompt.2⟩
  | enter unlocked free =>
      have sent := inv.sent
      have prompt := inv.prompt
      rw [free] at sent prompt
      exact ⟨l, inv.oq, inv.data, sent, inv.ready, inv.busy, prompt⟩
  | serve entered => exact inv.serve entered
  | finish b fetched => exact ⟨l, inv.finish fetched⟩

theorem Reachable.inv {size : Nat} (reachable : Reachable idle size s) (pos : 0 < size) :
    ∃ l, Inv idle s l := by
  obtain ⟨s₀, start, run⟩ := reachable
  induction run with
  | refl => exact start.inv pos
  | tail _ step ih =>
      obtain ⟨l, inv⟩ := ih
      exact step.inv inv

/-! ### The transmitter -/

/-- The output queue has the bytes `l` left, as the other side of the line will see it. -/
structure Transmits (s : Serial T) (l : List UInt8) : Prop where
  stored : Circular.Holds s.oq.ring l
  order : s.sent ++ inFlight s.handler ++ l = IoQueue.accepted s.oq.log
  tdre : ∀ p ∈ s.written, p.2 = true
  tie : s.handler = .idle → s.oq.chOQIsEmptyI = false → s.tie = true

theorem Inv.transmits (inv : Inv idle s l) : Transmits s l where
  stored := inv.data.holds
  order := by
    rw [inv.sent]
    exact inv.data.order
  tdre := inv.ready
  tie free waiting := by
    have prompt := inv.prompt
    rw [free] at prompt
    apply prompt
    rintro rfl
    have empty : s.oq.chOQIsEmptyI = true := by
      rw [IoQueue.chOQIsEmptyI, decide_eq_true_eq, inv.data.limit_iff]
      exact inv.data.counter
    rw [empty] at waiting
    cases waiting

/-- In every run of writing threads, transmitter events and interrupts the bytes written to
`D` are those accepted by the output queue, in order, up to the ones still in the queue and
the one the handler is about to write; `D` is written only when `TDRE` is set; and when no
handler is active, `TIE` is on if the queue is not empty. -/
theorem transmitter_never_stalls (idle : T) (size : Nat) (pos : 0 < size) (s : Serial T)
    (reachable : Reachable idle size s) : ∃ l, Transmits s l := by
  obtain ⟨l, inv⟩ := reachable.inv pos
  exact ⟨l, inv.transmits⟩

end Proofs

/-! ### An example -/

/-- The idle thread and one other, which is current; an empty output queue of one place and
an idle transmitter. -/
def sampleStart : Serial Bool where
  oq := { IoQueue.sampleStart with q_counter := 1 }
  tdre := true
  tie := false
  written := []
  handler := .idle

theorem sampleStart_start : Start false 1 sampleStart where
  oq :=
    { core := IoQueue.sampleStart_start.core
      asleep := IoQueue.sampleStart_start.asleep
      waiting := rfl
      counter := rfl
      size := rfl
      pointers := ⟨rfl, rfl⟩
      timer _ := rfl
      fired := rfl
      pc _ := rfl
      log := rfl }
  tdre := rfl
  configured := rfl
  written := rfl
  handler := rfl

/-- The thread writes two bytes before the first one has left `D`. -/
def sampleBusy : Serial Bool :=
  (sampleStart.begin ⟨true, [], [7], 0, .infinite⟩).begin ⟨true, [], [8], 0, .infinite⟩

theorem sampleBusy_reachable : Reachable false 1 sampleBusy := by
  refine ⟨sampleStart, sampleStart_start, ?_⟩
  have first : Step false sampleStart (sampleStart.begin ⟨true, [], [7], 0, .infinite⟩) :=
    .put 7 .infinite rfl ⟨rfl, rfl⟩ (by decide)
  exact (Relation.ReflTransGen.single first).tail (.put 8 .infinite rfl ⟨rfl, rfl⟩ (by decide))

theorem sampleBusy_transmits :
    (∃ l, Transmits sampleBusy l) ∧ sampleBusy.sent = [7] ∧ sampleBusy.oq.chOQIsEmptyI = false ∧
      sampleBusy.tie = true :=
  ⟨transmitter_never_stalls false 1 (by decide) _ sampleBusy_reachable, by decide, by decide, by decide⟩

end Serial

end LtcOs.Kernel
