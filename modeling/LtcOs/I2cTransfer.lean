import LtcOs.I2c
import Mathlib.Data.BitVec

/-!
When a transfer of the I2C master does what it should.

The interrupts of a phase are followed by induction on the bytes that are still to come:
`interrupts_write` for the bytes to transmit, `interrupts_read` for the bytes that come.
The driver decides on the read phase by the receive buffer and not by the number of bytes,
so that a transfer with a buffer for no bytes goes wrong; `transfers_iff` says that it is
the only one.
-/

namespace LtcOs.I2c

open LtcOs.Kernel

/-! ### One interrupt -/

section Interrupt

variable {slave : Nat → Reply} {x : Transfer} {d e f : Dev} {y : Xfer} {r : Reply} {b : UInt8}
  {fuel : Nat}

/-- A transfer is under way. -/
structure Running (x : Transfer) (d : Dev) : Prop where
  errors : d.errors = I2C_NO_ERROR
  thread : d.thread = true
  addr : d.addr = x.addr
  txbuf : d.txbuf = x.txbuf
  txbytes : d.txbytes = x.txbytes
  rxbuf : d.rxbuf = x.rxbuf
  rxbytes : d.rxbytes = x.rxbytes
  mst : d.mst = true
  arbl : d.arbl = false

/-- The registers after an interrupt, and its trace. -/
def served (d : Dev) (r : Reply) (event : BusEvent) : Dev :=
  { d with
    xfer := none
    iicif := false
    arbl := false
    rxak := r.rxak
    mst := d.mst && !r.arbl
    served := d.served + 1
    bus := d.bus ++ [event] }

/-- The thread is resumed. -/
def resumed (d : Dev) (msg : Int) : Dev :=
  { d with thread := false, rdymsg := msg, wakeups := d.wakeups ++ [msg] }

/-- The arbitration is lost, in any state. -/
theorem serve_lost (run : Running x d) (state : d.intstate ≠ .STATE_STOP) (lost : r.arbl = true) :
    (d.complete y r).serveInterrupt =
      resumed { served d r .lost with errors := I2C_ARBITRATION_LOST } MSG_RESET := by
  simp [Dev.complete, Dev.serveInterrupt, Dev.serveState, Dev.orS, Dev.threadResumeI, served,
    resumed, lost, run.errors, run.thread, state, I2C_NO_ERROR, I2C_ARBITRATION_LOST]

/-- A byte is not acknowledged. -/
theorem serve_nack (run : Running x d)
    (state : d.intstate = .STATE_SEND ∨ d.intstate = .STATE_DUMMY) (kept : r.arbl = false)
    (nack : r.rxak = true) :
    (d.complete (.send b) r).serveInterrupt =
      resumed { served d r (.sent b false) with errors := I2C_ACK_FAILURE } MSG_RESET := by
  rcases state with state | state
  all_goals
    simp [Dev.complete, Dev.serveInterrupt, Dev.serveState, Dev.serveSend, Dev.serveDummy,
      Dev.orS, Dev.threadResumeI, served, resumed, kept, nack, run.errors, run.thread, run.arbl,
      state, I2C_NO_ERROR, I2C_ACK_FAILURE]

/-- A byte is acknowledged, and there are more. -/
theorem serve_send (run : Running x d) (state : d.intstate = .STATE_SEND) (tx : d.tx = true)
    (buffer : x.txbuf ≠ NULL) (kept : r.arbl = false) (ack : r.rxak = false)
    (more : d.txidx < x.txbytes) :
    (d.complete (.send b) r).serveInterrupt =
      { served d r (.sent b true) with
        txidx := d.txidx + 1
        xfer := some (.send (d.mem (x.txbuf + d.txidx))) } := by
  simp [Dev.complete, Dev.serveInterrupt, Dev.serveState, Dev.serveSend, Dev.writeD, Dev.orS,
    served, kept, ack, run.errors, run.arbl, run.mst, run.txbuf, run.txbytes, state, tx, buffer,
    more]

/-- The last byte is acknowledged. -/
theorem serve_sent (run : Running x d) (state : d.intstate = .STATE_SEND) (kept : r.arbl = false)
    (ack : r.rxak = false) (done : ¬ d.txidx < x.txbytes) :
    (d.complete (.send b) r).serveInterrupt =
      resumed { served d r (.sent b true) with intstate := .STATE_STOP } MSG_OK := by
  simp [Dev.complete, Dev.serveInterrupt, Dev.serveState, Dev.serveSend, Dev.orS,
    Dev.threadResumeI, served, resumed, kept, ack, run.errors, run.thread, run.arbl, run.txbytes,
    state, done]

/-- The read address is acknowledged. -/
theorem serve_dummy (run : Running x d) (state : d.intstate = .STATE_DUMMY)
    (kept : r.arbl = false) (ack : r.rxak = false) :
    (d.complete (.send b) r).serveInterrupt =
      { served d r (.sent b true) with
        tx := false
        txak := !decide (1 < x.rxbytes)
        xfer := some .receive
        intstate := .STATE_RECV } := by
  simp [Dev.complete, Dev.serveInterrupt, Dev.serveState, Dev.serveDummy, Dev.readD, Dev.orS,
    served, kept, ack, run.errors, run.arbl, run.mst, run.rxbytes, state]

/-- A byte came, and there are more. -/
theorem serve_receive (run : Running x d) (state : d.intstate = .STATE_RECV) (tx : d.tx = false)
    (kept : r.arbl = false) (several : 1#32 < x.rxbytes) (early : d.rxidx ≠ x.rxbytes - 1#32)
    (more : d.rxidx + 1#32 ≠ x.rxbytes) :
    (d.complete .receive r).serveInterrupt =
      { served d r (.received r.data (!d.txak)) with
        data := r.data
        txak := decide (d.rxidx = x.rxbytes - 2)
        mem := Function.update d.mem (x.rxbuf + d.rxidx) r.data
        rxidx := d.rxidx + 1
        xfer := some .receive } := by
  simp [Dev.complete, Dev.serveInterrupt, Dev.serveState, Dev.serveRecv, Dev.nextTxak, Dev.store,
    Dev.readD, Dev.orS, served, kept, run.errors, run.arbl, run.mst, run.rxbuf, run.rxbytes, state,
    tx, several, early, more]

/-- The last byte came. -/
theorem serve_received (run : Running x d) (state : d.intstate = .STATE_RECV)
    (kept : r.arbl = false) (last : d.rxidx = x.rxbytes - 1#32) :
    ∃ txak, (d.complete .receive r).serveInterrupt =
      resumed { served d r (.received r.data (!d.txak)) with
        data := r.data
        txak := txak
        mst := false
        tx := false
        bus := d.bus ++ [.received r.data (!d.txak), .stop]
        mem := Function.update d.mem (x.rxbuf + d.rxidx) r.data
        rxidx := d.rxidx + 1
        intstate := .STATE_STOP } MSG_OK := by
  refine ⟨if 1 < x.rxbytes then decide (d.rxidx = x.rxbytes - 2) else d.txak, ?_⟩
  by_cases several : 1#32 < x.rxbytes
  all_goals
    simp [Dev.complete, Dev.serveInterrupt, Dev.serveState, Dev.serveRecv, Dev.nextTxak, Dev.store,
      Dev.readD, Dev.clearMst, Dev.orS, Dev.threadResumeI, served, resumed, kept, run.errors,
      run.thread, run.arbl, run.mst, run.rxbuf, run.rxbytes, state, several, last]

theorem interrupts_next (busy : d.xfer = some y)
    (eq : (d.complete y (slave d.served)).serveInterrupt = e) (asleep : e.thread = true) :
    Dev.interrupts slave (fuel + 1) d = Dev.interrupts slave fuel e := by
  rw [Dev.interrupts, busy]
  dsimp only
  rw [eq, if_pos asleep]

theorem interrupts_last (busy : d.xfer = some y)
    (eq : (d.complete y (slave d.served)).serveInterrupt = e) (awake : e.thread = false) :
    Dev.interrupts slave (fuel + 1) d = some (e.rdymsg, e) := by
  rw [Dev.interrupts, busy]
  dsimp only
  rw [eq, awake]
  rfl

end Interrupt

/-! ### Phases -/

section Phases

variable {slave : Nat → Reply} {x : Transfer} {d e f : Dev} {r : Reply} {b : UInt8}
  {l : List BusEvent} {event : BusEvent} {fuel : Nat}

@[simp] theorem good_sent (b : UInt8) (acked : Bool) : (BusEvent.sent b acked).good = acked := rfl
@[simp] theorem good_received (b : UInt8) (acked : Bool) :
    (BusEvent.received b acked).good = true := rfl
@[simp] theorem good_lost : BusEvent.lost.good = false := rfl
@[simp] theorem good_restart : BusEvent.restart.good = true := rfl
@[simp] theorem good_stop : BusEvent.stop.good = true := rfl

@[simp] theorem fine_nil : Fine [] := by simp [Fine]

@[simp] theorem fine_cons : Fine (event :: l) ↔ event.good ∧ Fine l := by simp [Fine]

@[simp] theorem fine_append {l' : List BusEvent} : Fine (l ++ l') ↔ Fine l ∧ Fine l' := by
  simp only [Fine, List.forall_mem_append]

theorem status_cons (good : event.good = true) : status (event :: l) = status l := by
  simp [status, good]

/-- The end of a phase with the events `l`, after which the thread releases the bus. -/
structure Ended (d : Dev) (l : List BusEvent) (f : Dev) : Prop where
  thread : f.thread = false
  arbl : f.arbl = false
  iicif : f.iicif = false
  xfer : f.xfer = none
  wakeups : f.wakeups = d.wakeups ++ [status l]
  served : f.served = d.served + l.length
  released : f.clearMst.bus = d.bus ++ l ++ if .lost ∈ l then [] else [.stop]

/-- What the write phase leaves to the read phase. -/
structure Written (x : Transfer) (d : Dev) (l : List BusEvent) (f : Dev) : Prop extends
    Ended d l f where
  mem : f.mem = d.mem
  next : Fine l → Running x { f with thread := true } ∧ f.tx = true ∧ f.rxidx = d.rxidx ∧
    f.bus = d.bus ++ l

theorem ended_lost (lost : r.arbl = true) (errors : BitVec 32) :
    Ended d [.lost] (resumed { served d r .lost with errors := errors } MSG_RESET) := by
  constructor
  all_goals simp [resumed, served, status, Dev.clearMst, lost]

theorem ended_nack (run : Running x d) (kept : r.arbl = false) (errors : BitVec 32) :
    Ended d [.sent b false]
      (resumed { served d r (.sent b false) with errors := errors } MSG_RESET) := by
  constructor
  all_goals simp [resumed, served, status, Dev.clearMst, kept, run.mst]

/-- One more byte before the others. -/
theorem Ended.cons (ended : Ended e l f) (good : event.good = true)
    (wakeups : e.wakeups = d.wakeups) (served : e.served = d.served + 1)
    (bus : e.bus = d.bus ++ [event]) : Ended d (event :: l) f := by
  have other : event ≠ .lost := by
    rintro rfl
    cases good
  refine ⟨ended.thread, ended.arbl, ended.iicif, ended.xfer, ?_, ?_, ?_⟩
  · rw [ended.wakeups, wakeups, status_cons good]
  · rw [ended.served, served, List.length_cons]
    omega
  · rw [ended.released, bus]
    simp [Ne.symm other]

theorem writeLog_lost {k : Nat} (lost : (slave k).arbl = true) (bs : List UInt8) :
    writeLog slave k (b :: bs) = [.lost] := by
  simp [writeLog, lost]

theorem writeLog_nack {k : Nat} (kept : (slave k).arbl = false) (nack : (slave k).rxak = true)
    (bs : List UInt8) : writeLog slave k (b :: bs) = [.sent b false] := by
  simp [writeLog, kept, nack]

theorem writeLog_ack {k : Nat} (kept : (slave k).arbl = false) (ack : (slave k).rxak = false)
    (bs : List UInt8) :
    writeLog slave k (b :: bs) = .sent b true :: writeLog slave (k + 1) bs := by
  simp [writeLog, kept, ack]

theorem not_refuses : ¬ r.Refuses ↔ r.arbl = false ∧ r.rxak = false := by
  rw [Reply.Refuses, not_or, Bool.not_eq_true, Bool.not_eq_true]

theorem not_fine_of_refuses {k : Nat} (refused : (slave k).Refuses) (bs : List UInt8) :
    ¬ Fine (writeLog slave k (b :: bs)) := by
  cases lost : (slave k).arbl with
  | true =>
      rw [writeLog_lost lost]
      simp
  | false =>
      rw [writeLog_nack lost (refused.resolve_left (by simp [lost]))]
      simp

/-- A byte that is not acknowledged ends the phase. -/
theorem interrupts_refused (run : Running x d)
    (state : d.intstate = .STATE_SEND ∨ d.intstate = .STATE_DUMMY)
    (busy : d.xfer = some (.send b)) (refused : (slave d.served).Refuses) (bs : List UInt8) :
    ∃ f, Dev.interrupts slave (fuel + 1) d = some (MSG_RESET, f) ∧
      Ended d (writeLog slave d.served (b :: bs)) f ∧ f.mem = d.mem := by
  cases lost : (slave d.served).arbl with
  | true =>
      have working : d.intstate ≠ .STATE_STOP := by
        rcases state with h | h
        · simp [h]
        · simp [h]
      rw [writeLog_lost lost]
      exact ⟨_, interrupts_last busy (serve_lost run working lost) rfl, ended_lost lost _, rfl⟩
  | false =>
      have nack : (slave d.served).rxak = true := refused.resolve_left (by simp [lost])
      rw [writeLog_nack lost nack]
      exact ⟨_, interrupts_last busy (serve_nack run state lost nack) rfl, ended_nack run lost _,
        rfl⟩

theorem written_refused (run : Running x d) (state : d.intstate = .STATE_SEND)
    (busy : d.xfer = some (.send b))
    (refused : (slave d.served).Refuses) (bs : List UInt8) :
    ∃ f, Dev.interrupts slave (fuel + 1) d =
        some (status (writeLog slave d.served (b :: bs)), f) ∧
      Written x d (writeLog slave d.served (b :: bs)) f := by
  have bad := not_fine_of_refuses refused bs (b := b)
  obtain ⟨f, eq, ended, mem⟩ := interrupts_refused run (.inl state) busy refused bs
  refine ⟨f, ?_, ended, mem, fun fine => absurd fine bad⟩
  rw [eq, status, if_neg bad]

theorem written_sent (run : Running x d) (tx : d.tx = true) (kept : r.arbl = false) :
    Written x d [.sent b true]
      (resumed { served d r (.sent b true) with intstate := .STATE_STOP } MSG_OK) := by
  constructor
  · constructor
    all_goals simp [resumed, served, status, Dev.clearMst, kept, run.mst]
  · rfl
  · intro _
    refine ⟨?_, tx, rfl, rfl⟩
    constructor
    all_goals
      simp [resumed, served, kept, run.errors, run.addr, run.txbuf, run.txbytes, run.rxbuf,
        run.rxbytes, run.mst]

theorem Written.cons (written : Written x e l f) (good : event.good = true)
    (wakeups : e.wakeups = d.wakeups) (served : e.served = d.served + 1)
    (bus : e.bus = d.bus ++ [event]) (mem : e.mem = d.mem) (rxidx : e.rxidx = d.rxidx) :
    Written x d (event :: l) f := by
  refine ⟨written.toEnded.cons good wakeups served bus, written.mem.trans mem, ?_⟩
  intro fine
  obtain ⟨run, tx, index, bus'⟩ := written.next (fine_cons.mp fine).2
  refine ⟨run, tx, index.trans rxidx, ?_⟩
  rw [bus', bus, List.append_assoc]
  rfl

/-- The write phase, by induction on the bytes that are still to come. -/
theorem interrupts_write {n i : Nat} (run : Running x d) (state : d.intstate = .STATE_SEND)
    (tx : d.tx = true) (buffer : x.txbuf ≠ NULL) (busy : d.xfer = some (.send b))
    (index : d.txidx = BitVec.ofNat 32 i) (count : x.txbytes.toNat = i + n) (enough : n < fuel) :
    ∃ f, Dev.interrupts slave fuel d =
        some (status (writeLog slave d.served (b :: bytesAt d.mem x.txbuf i n)), f) ∧
      Written x d (writeLog slave d.served (b :: bytesAt d.mem x.txbuf i n)) f := by
  have small := x.txbytes.isLt
  induction n generalizing d b i fuel with
  | zero =>
      obtain ⟨fuel, rfl⟩ := Nat.exists_eq_add_one.mpr enough
      by_cases refused : (slave d.served).Refuses
      · exact written_refused run state busy refused _
      · obtain ⟨kept, ack⟩ := not_refuses.mp refused
        have done : ¬ d.txidx < x.txbytes := by
          rw [BitVec.lt_def, index, BitVec.toNat_ofNat, count]
          omega
        rw [writeLog_ack kept ack, status_cons rfl]
        exact ⟨_, interrupts_last busy (serve_sent run state kept ack done) rfl,
          written_sent run tx kept⟩
  | succ n ih =>
      obtain ⟨fuel, rfl⟩ := Nat.exists_eq_add_one.mpr (Nat.zero_lt_of_lt enough)
      by_cases refused : (slave d.served).Refuses
      · exact written_refused run state busy refused _
      · obtain ⟨kept, ack⟩ := not_refuses.mp refused
        have more : d.txidx < x.txbytes := by
          rw [BitVec.lt_def, index, BitVec.toNat_ofNat, count]
          omega
        rw [interrupts_next busy (serve_send run state tx buffer kept ack more) run.thread,
          writeLog_ack kept ack, status_cons rfl, bytesAt, ← index]
        have run' : Running x { served d (slave d.served) (.sent b true) with
            txidx := d.txidx + 1
            xfer := some (.send (d.mem (x.txbuf + d.txidx))) } := by
          refine ⟨run.errors, run.thread, run.addr, run.txbuf, run.txbytes, run.rxbuf,
            run.rxbytes, ?_, rfl⟩
          simp [served, run.mst, kept]
        have index' : d.txidx + 1 = BitVec.ofNat 32 (i + 1) := by
          rw [index, BitVec.ofNat_add]
          rfl
        have enough' : n < fuel := by omega
        obtain ⟨f, eq, written⟩ := ih run' state tx rfl index' (by omega) enough'
        exact ⟨f, eq, written.cons rfl rfl rfl rfl rfl rfl⟩

end Phases

/-! ### The read phase -/

section Read

variable {slave : Nat → Reply} {x : Transfer} {d e f : Dev} {b : UInt8} {fuel n i : Nat}

/-- The bytes `bs` are in the receive buffer from an index on, and nothing else has
changed. -/
structure Stored (x : Transfer) (d : Dev) (i : Nat) (bs : List UInt8) (f : Dev) : Prop where
  stored : ∀ j b, bs[j]? = some b → f.mem (x.rxbuf + BitVec.ofNat 32 (i + j)) = b
  kept : ∀ a, (∀ j < bs.length, a ≠ x.rxbuf + BitVec.ofNat 32 (i + j)) → f.mem a = d.mem a

theorem stored_nil (mem : f.mem = d.mem) : Stored x d i [] f := by
  refine ⟨by simp, ?_⟩
  intro a _
  rw [mem]

theorem address_ne {p : BitVec 32} {i j : Nat} (less : i < j) (small : j < 2 ^ 32) :
    p + BitVec.ofNat 32 i ≠ p + BitVec.ofNat 32 j := by
  intro same
  have eq := congrArg BitVec.toNat (BitVec.add_right_inj p |>.mp same)
  rw [BitVec.toNat_ofNat, BitVec.toNat_ofNat, Nat.mod_eq_of_lt small,
    Nat.mod_eq_of_lt (less.trans small)] at eq
  omega

/-- One more byte before the others, which are elsewhere. -/
theorem Stored.cons {bs : List UInt8} (others : Stored x e (i + 1) bs f)
    (mem : e.mem = Function.update d.mem (x.rxbuf + BitVec.ofNat 32 i) b)
    (small : i + bs.length < 2 ^ 32) : Stored x d i (b :: bs) f := by
  constructor
  · intro j c at_j
    cases j with
    | zero =>
        rw [List.getElem?_cons_zero, Option.some.injEq] at at_j
        rw [Nat.add_zero, others.kept, mem, Function.update_self, at_j]
        intro j less
        exact address_ne (by omega) (by omega)
    | succ j =>
        rw [List.getElem?_cons_succ] at at_j
        rw [← others.stored j c at_j]
        congr 3
        omega
  · intro a outside
    rw [others.kept, mem, Function.update_of_ne]
    · exact outside 0 (by simp)
    · intro j less
      have := outside (j + 1) (by simp [less])
      rwa [show i + (j + 1) = i + 1 + j by omega] at this

theorem stored_one (mem : f.mem = Function.update d.mem (x.rxbuf + BitVec.ofNat 32 i) b)
    (small : i < 2 ^ 32) : Stored x d i [b] f := by
  have rest : Stored x f (i + 1) [] f := stored_nil rfl
  exact rest.cons mem small

theorem readLog_lost {k : Nat} (lost : (slave k).arbl = true) (n : Nat) :
    readLog slave k (n + 1) = [.lost] := by
  simp [readLog, lost]

theorem readLog_kept {k : Nat} (kept : (slave k).arbl = false) (n : Nat) :
    readLog slave k (n + 1) =
      .received (slave k).data (decide (n ≠ 0)) :: readLog slave (k + 1) n := by
  simp [readLog, kept]

theorem receivedBytes_received (b : UInt8) (acked : Bool) (l : List BusEvent) :
    receivedBytes (.received b acked :: l) = b :: receivedBytes l := rfl

theorem length_receivedBytes_readLog (slave : Nat → Reply) (k n : Nat) :
    (receivedBytes (readLog slave k n)).length ≤ n := by
  induction n generalizing k with
  | zero => exact le_rfl
  | succ n ih =>
      cases lost : (slave k).arbl with
      | true =>
          rw [readLog_lost lost]
          exact Nat.zero_le _
      | false =>
          rw [readLog_kept lost, receivedBytes_received]
          exact Nat.succ_le_succ (ih (k + 1))

/-- The arbitration is lost while a byte should come. -/
theorem interrupts_read_lost (run : Running x d) (state : d.intstate = .STATE_RECV)
    (busy : d.xfer = some .receive) (lost : (slave d.served).arbl = true) (n : Nat) :
    ∃ f, Dev.interrupts slave (fuel + 1) d = some (status (readLog slave d.served (n + 1)), f) ∧
      Ended d (readLog slave d.served (n + 1)) f ∧
      Stored x d i (receivedBytes (readLog slave d.served (n + 1))) f := by
  have working : d.intstate ≠ .STATE_STOP := by simp [state]
  rw [readLog_lost lost]
  exact ⟨_, interrupts_last busy (serve_lost run working lost) rfl, ended_lost lost _,
    stored_nil rfl⟩

/-- The bytes of the read phase, by induction on those still to come after the next. The
acknowledge bit is programmed for it. -/
theorem interrupts_read (run : Running x d) (state : d.intstate = .STATE_RECV)
    (tx : d.tx = false) (txak : d.txak = decide (n = 0)) (busy : d.xfer = some .receive)
    (index : d.rxidx = BitVec.ofNat 32 i) (count : x.rxbytes.toNat = i + n + 1)
    (enough : n < fuel) :
    ∃ f, Dev.interrupts slave fuel d = some (status (readLog slave d.served (n + 1)), f) ∧
      Ended d (readLog slave d.served (n + 1)) f ∧
      Stored x d i (receivedBytes (readLog slave d.served (n + 1))) f := by
  have small := x.rxbytes.isLt
  induction n generalizing d i fuel with
  | zero =>
      have acked : (!d.txak) = decide (0 ≠ 0) := by simp [txak]
      obtain ⟨fuel, rfl⟩ := Nat.exists_eq_add_one.mpr enough
      cases lost : (slave d.served).arbl with
      | true => exact interrupts_read_lost run state busy lost _
      | false =>
          have last : d.rxidx = x.rxbytes - 1#32 := by
            rw [index]
            bv_omega
          obtain ⟨next, eq⟩ := serve_received run state lost last
          rw [readLog_kept lost, status_cons rfl, receivedBytes_received, ← acked]
          refine ⟨_, interrupts_last busy eq rfl, ?_, ?_⟩
          · constructor
            all_goals simp [resumed, served, status, readLog, Dev.clearMst]
          · apply stored_one
            · rw [← index]
              rfl
            · omega
  | succ n ih =>
      have acked : (!d.txak) = decide (n + 1 ≠ 0) := by simp [txak]
      obtain ⟨fuel, rfl⟩ := Nat.exists_eq_add_one.mpr (Nat.zero_lt_of_lt enough)
      cases lost : (slave d.served).arbl with
      | true => exact interrupts_read_lost run state busy lost _
      | false =>
          have several : 1#32 < x.rxbytes := by bv_omega
          have early : d.rxidx ≠ x.rxbytes - 1#32 := by
            rw [index]
            bv_omega
          have more : d.rxidx + 1#32 ≠ x.rxbytes := by
            rw [index]
            bv_omega
          have txak' : decide (d.rxidx = x.rxbytes - 2) = decide (n = 0) := by
            rw [index, decide_eq_decide]
            bv_omega
          have run' : Running x { served d (slave d.served)
                (.received (slave d.served).data (!d.txak)) with
              data := (slave d.served).data
              txak := decide (d.rxidx = x.rxbytes - 2)
              mem := Function.update d.mem (x.rxbuf + d.rxidx) (slave d.served).data
              rxidx := d.rxidx + 1
              xfer := some .receive } := by
            refine ⟨run.errors, run.thread, run.addr, run.txbuf, run.txbytes, run.rxbuf,
              run.rxbytes, ?_, rfl⟩
            simp [served, run.mst, lost]
          have index' : d.rxidx + 1 = BitVec.ofNat 32 (i + 1) := by
            rw [index, BitVec.ofNat_add]
            rfl
          have enough' : n < fuel := by omega
          have fits := length_receivedBytes_readLog slave (d.served + 1) (n + 1)
          obtain ⟨f, eq, ended, stored⟩ := ih run' state tx txak' rfl index' (by omega) enough'
          rw [interrupts_next busy (serve_receive run state tx lost several early more) run.thread,
            readLog_kept lost, status_cons rfl, receivedBytes_received, ← acked]
          refine ⟨f, eq, ended.cons rfl rfl rfl rfl, ?_⟩
          apply stored.cons
          · rw [← index]
          · change i + (receivedBytes (readLog slave (d.served + 1) (n + 1))).length < 2 ^ 32
            omega

theorem receivedBytes_writeLog (slave : Nat → Reply) (k : Nat) (bs : List UInt8) :
    receivedBytes (writeLog slave k bs) = [] := by
  induction bs generalizing k with
  | nil => rfl
  | cons b bs ih =>
      rw [writeLog]
      split_ifs
      · rfl
      · rfl
      · exact ih (k + 1)

/-- The read phase from the address on. -/
theorem interrupts_readPhase (slave : Nat → Reply) (run : Running x d)
    (state : d.intstate = .STATE_DUMMY) (busy : d.xfer = some (.send (x.addr <<< 1 ||| 1)))
    (index : d.rxidx = 0) (some_bytes : 0 < x.rxbytes.toNat) (enough : x.rxbytes.toNat < fuel) :
    ∃ f, Dev.interrupts slave fuel d = some (status (x.readPhase slave d.served), f) ∧
      Ended d (x.readPhase slave d.served) f ∧
      Stored x d 0 (receivedBytes (x.readPhase slave d.served)) f := by
  obtain ⟨fuel, rfl⟩ := Nat.exists_eq_add_one.mpr (Nat.zero_lt_of_lt enough)
  obtain ⟨n, count⟩ := Nat.exists_eq_add_one.mpr some_bytes
  have small := x.rxbytes.isLt
  by_cases refused : (slave d.served).Refuses
  · have bad := not_fine_of_refuses refused [] (b := x.addr <<< 1 ||| 1)
    obtain ⟨f, eq, ended, mem⟩ := interrupts_refused run (.inr state) busy refused []
    have phase : x.readPhase slave d.served = writeLog slave d.served [x.addr <<< 1 ||| 1] :=
      if_neg bad
    rw [phase]
    refine ⟨f, ?_, ended, ?_⟩
    · rw [eq, status, if_neg bad]
    · rw [receivedBytes_writeLog]
      exact stored_nil mem
  · obtain ⟨kept, ack⟩ := not_refuses.mp refused
    have address : writeLog slave d.served [x.addr <<< 1 ||| 1] =
        [.sent (x.addr <<< 1 ||| 1) true] := writeLog_ack kept ack []
    have phase : x.readPhase slave d.served =
        .sent (x.addr <<< 1 ||| 1) true :: readLog slave (d.served + 1) (n + 1) := by
      unfold Transfer.readPhase
      dsimp only
      rw [address, if_pos (by simp), count]
      rfl
    have txak : (!decide (1 < x.rxbytes)) = decide (n = 0) := by
      rw [← decide_not, decide_eq_decide]
      bv_omega
    have run' : Running x { served d (slave d.served) (.sent (x.addr <<< 1 ||| 1) true) with
        tx := false
        txak := !decide (1 < x.rxbytes)
        xfer := some .receive
        intstate := .STATE_RECV } := by
      refine ⟨run.errors, run.thread, run.addr, run.txbuf, run.txbytes, run.rxbuf, run.rxbytes,
        ?_, rfl⟩
      simp [served, run.mst, kept]
    have enough' : n < fuel := by omega
    have index' : d.rxidx = BitVec.ofNat 32 0 := index
    have total : x.rxbytes.toNat = 0 + n + 1 := by omega
    obtain ⟨f, eq, ended, stored⟩ := interrupts_read run' rfl rfl txak rfl index' total enough'
    rw [interrupts_next busy (serve_dummy run state kept ack) run.thread, phase, status_cons rfl]
    exact ⟨f, eq, ended.cons rfl rfl rfl rfl, stored.stored, stored.kept⟩

end Read

/-! ### Whole transfers -/

section Transfers

variable {slave : Nat → Reply} {x : Transfer} {d e f : Dev} {l : List BusEvent} {msg : Int}
  {fuel fuel' : Nat}

/-- The thread has sent the start and the write address and sleeps. -/
def begun (d : Dev) (x : Transfer) : Dev :=
  { d with
    errors := I2C_NO_ERROR
    addr := x.addr
    txbuf := x.txbuf
    txbytes := x.txbytes
    txidx := 0
    rxbuf := x.rxbuf
    rxbytes := x.rxbytes
    rxidx := 0
    intstate := .STATE_SEND
    mst := true
    tx := true
    bus := d.bus ++ [.start]
    xfer := some (.send (x.addr <<< 1))
    thread := true }

/-- The thread has sent the repeated start and the read address and sleeps. -/
def again (d : Dev) : Dev :=
  { d with
    intstate := .STATE_DUMMY
    bus := d.bus ++ [.restart]
    xfer := some (.send (d.addr <<< 1 ||| 1))
    thread := true }

theorem threadSuspend_startTransfer (idle : Idle d) :
    Dev.threadSuspend slave fuel ({ d with intstate := .STATE_SEND }.startTransfer x) =
      Dev.interrupts slave fuel (begun d x) := by
  simp [Dev.threadSuspend, Dev.startTransfer, Dev.setMst, Dev.writeD, begun, idle.mst]

theorem threadSuspend_startRead (mst : d.mst = true) (tx : d.tx = true) :
    Dev.threadSuspend slave fuel d.startRead = Dev.interrupts slave fuel (again d) := by
  simp [Dev.threadSuspend, Dev.startRead, Dev.setRsta, Dev.writeD, again, mst, tx]

/-- The transfer ends with the write phase. -/
theorem transmit_write (idle : Idle d)
    (write : Dev.interrupts slave fuel (begun d x) = some (msg, e))
    (ends : ¬ (msg = MSG_OK ∧ x.txbuf ≠ NULL ∧ x.rxbuf ≠ NULL)) :
    Dev.i2cLldMasterTransmitTimeout slave fuel d x = some (msg, e.clearMst) := by
  unfold Dev.i2cLldMasterTransmitTimeout Dev.i2cTxrxTimeout
  rw [threadSuspend_startTransfer idle, write]
  exact if_neg ends

/-- The transfer goes on with the read phase. -/
theorem transmit_read (idle : Idle d)
    (write : Dev.interrupts slave fuel (begun d x) = some (msg, e))
    (reads : msg = MSG_OK ∧ x.txbuf ≠ NULL ∧ x.rxbuf ≠ NULL) (mst : e.mst = true)
    (tx : e.tx = true) :
    Dev.i2cLldMasterTransmitTimeout slave fuel d x =
      (Dev.interrupts slave fuel (again e)).map fun out => (out.1, out.2.clearMst) := by
  unfold Dev.i2cLldMasterTransmitTimeout Dev.i2cTxrxTimeout
  rw [threadSuspend_startTransfer idle, write, ← threadSuspend_startRead mst tx]
  refine (if_pos reads).trans ?_
  cases Dev.threadSuspend slave fuel e.startRead with
  | none => rfl
  | some out => rfl

theorem interrupts_mono {out : Int × Dev} (eq : Dev.interrupts slave fuel d = some out)
    (more : fuel ≤ fuel') : Dev.interrupts slave fuel' d = some out := by
  induction fuel generalizing d fuel' with
  | zero => cases eq
  | succ fuel ih =>
      obtain ⟨fuel', rfl⟩ := Nat.exists_eq_add_one.mpr (Nat.zero_lt_of_lt more)
      rw [Dev.interrupts] at eq ⊢
      cases busy : d.xfer with
      | none =>
          rw [busy] at eq
          cases eq
      | some y =>
          rw [busy] at eq
          dsimp only at eq ⊢
          split_ifs at eq ⊢ with asleep
          · exact ih eq (by omega)
          · exact eq

theorem Ended.idle (ended : Ended e l f) : Idle f.clearMst := by
  unfold Dev.clearMst
  split_ifs with mst
  · exact ⟨ended.thread, rfl, ended.arbl, ended.iicif, ended.xfer⟩
  · exact ⟨ended.thread, Bool.eq_false_iff.mpr mst, ended.arbl, ended.iicif, ended.xfer⟩

theorem clearMst_mem (d : Dev) : d.clearMst.mem = d.mem := by
  unfold Dev.clearMst
  split_ifs <;> rfl

theorem clearMst_wakeups (d : Dev) : d.clearMst.wakeups = d.wakeups := by
  unfold Dev.clearMst
  split_ifs <;> rfl

theorem begun_running (idle : Idle d) : Running x (begun d x) :=
  ⟨rfl, rfl, rfl, rfl, rfl, rfl, rfl, rfl, idle.arbl⟩

/-- The write phase from the start of the transfer. -/
theorem write_phase (slave : Nat → Reply) (idle : Idle d) (buffer : x.txbuf ≠ NULL)
    (enough : x.txbytes.toNat < fuel) :
    ∃ e, Dev.interrupts slave fuel (begun d x) =
        some (status (x.writePhase slave d.mem d.served), e) ∧
      Written x (begun d x) (x.writePhase slave d.mem d.served) e := by
  have count : x.txbytes.toNat = 0 + x.txbytes.toNat := (Nat.zero_add _).symm
  exact interrupts_write (begun_running idle) rfl rfl buffer rfl rfl count enough

theorem fine_log (slave : Nat → Reply) (x : Transfer) (mem : BitVec 32 → UInt8) (k : Nat) :
    Fine (x.log slave mem k) ↔
      Fine (x.writePhase slave mem k) ∧ Fine (x.readPart slave mem k) := by
  have close : Fine (if .lost ∈ x.writePhase slave mem k ++ x.readPart slave mem k then []
      else [.stop]) := by
    split_ifs
    · exact fine_nil
    · simp
  have part : Fine (if x.Reads slave mem k then .restart :: x.readPart slave mem k else []) ↔
      Fine (x.readPart slave mem k) := by
    unfold Transfer.readPart
    split_ifs
    · simp
    · rfl
  unfold Transfer.log
  dsimp only
  have good : BusEvent.start.good = true := rfl
  rw [fine_append, and_iff_left close, fine_append, fine_cons, part, and_iff_right good]

theorem not_lost_of_fine (fine : Fine l) : .lost ∉ l := by
  intro mem
  cases fine .lost mem

theorem status_eq_ok : status l = MSG_OK ↔ Fine l := by
  unfold status
  split_ifs with fine
  · simp [fine]
  · simp [fine, MSG_OK, MSG_RESET]

/-- A transfer without a read phase. -/
theorem meets_write (written : Written x (begun d x) (x.writePhase slave d.mem d.served) e)
    (none : ¬ x.Reads slave d.mem d.served) :
    Meets slave d x (status (x.writePhase slave d.mem d.served)) e.clearMst := by
  have part : x.readPart slave d.mem d.served = [] := if_neg none
  have fine := fine_log slave x d.mem d.served
  rw [part] at fine
  have result : status (x.writePhase slave d.mem d.served) =
      status (x.log slave d.mem d.served) := by
    unfold status
    rw [if_congr fine rfl rfl]
    simp
  constructor
  · rw [written.released, Transfer.log, part, if_neg none]
    simp [begun]
  · rw [part]
    intro i b h
    cases h
  · intro a _
    rw [clearMst_mem, written.mem]
    rfl
  · rw [part]
    exact Nat.zero_le _
  · intro ok
    have fine := status_eq_ok.mp ok
    have zero : ¬ 0 < x.rxbytes := fun some_bytes => none ⟨fine, some_bytes⟩
    rw [part]
    change 0 = _
    bv_omega
  · rw [clearMst_wakeups, written.wakeups, if_neg none]
    rfl
  · exact result
  · exact written.toEnded.idle

theorem length_receivedBytes_of_fine {k n : Nat} (fine : Fine (readLog slave k n)) :
    (receivedBytes (readLog slave k n)).length = n := by
  induction n generalizing k with
  | zero => rfl
  | succ n ih =>
      cases lost : (slave k).arbl with
      | true =>
          rw [readLog_lost lost] at fine
          cases fine .lost (by simp)
      | false =>
          rw [readLog_kept lost] at fine ⊢
          rw [receivedBytes_received, List.length_cons, ih (fine_cons.mp fine).2]

theorem receivedBytes_readPhase (slave : Nat → Reply) (x : Transfer) (k : Nat) :
    (receivedBytes (x.readPhase slave k)).length ≤ x.rxbytes.toNat ∧
      (Fine (x.readPhase slave k) →
        (receivedBytes (x.readPhase slave k)).length = x.rxbytes.toNat) := by
  unfold Transfer.readPhase
  dsimp only
  split_ifs with address
  · have bytes : receivedBytes (writeLog slave k [x.addr <<< 1 ||| 1] ++
        readLog slave (k + 1) x.rxbytes.toNat) =
          receivedBytes (readLog slave (k + 1) x.rxbytes.toNat) := by
      unfold receivedBytes
      rw [List.filterMap_append]
      change receivedBytes (writeLog slave k _) ++ _ = _
      rw [receivedBytes_writeLog, List.nil_append]
    rw [bytes]
    refine ⟨length_receivedBytes_readLog slave _ _, ?_⟩
    intro fine
    exact length_receivedBytes_of_fine (fine_append.mp fine).2
  · rw [receivedBytes_writeLog]
    exact ⟨Nat.zero_le _, fun fine => absurd fine address⟩

/-- A transfer with a read phase. -/
theorem meets_read (written : Written x (begun d x) (x.writePhase slave d.mem d.served) e)
    (reads : x.Reads slave d.mem d.served)
    (ended : Ended (again e) (x.readPhase slave e.served) f)
    (stored : Stored x (again e) 0 (receivedBytes (x.readPhase slave e.served)) f) :
    Meets slave d x (status (x.readPhase slave e.served)) f.clearMst := by
  have fine := reads.1
  obtain ⟨-, -, -, bus⟩ := written.next fine
  have at_read : e.served = d.served + (x.writePhase slave d.mem d.served).length := written.served
  have part : x.readPart slave d.mem d.served = x.readPhase slave e.served := by
    rw [at_read]
    exact if_pos reads
  have all := fine_log slave x d.mem d.served
  rw [part] at all
  have mem : (again e).mem = d.mem := written.mem
  obtain ⟨fits, full⟩ := receivedBytes_readPhase slave x e.served
  constructor
  · rw [ended.released, Transfer.log, part, if_pos reads]
    simp [again, bus, begun, not_lost_of_fine fine]
  · rw [part, clearMst_mem]
    intro i b h
    have := stored.stored i b h
    rwa [Nat.zero_add] at this
  · rw [part, clearMst_mem]
    intro a outside
    rw [stored.kept, mem]
    intro j less
    rw [Nat.zero_add]
    exact outside j less
  · rw [part]
    exact fits
  · intro ok
    rw [part]
    exact full (status_eq_ok.mp ok)
  · rw [clearMst_wakeups, ended.wakeups, if_pos reads, part]
    change e.wakeups ++ _ = _
    rw [written.wakeups]
    simp [begun]
  · unfold status
    rw [if_congr all rfl rfl]
    simp [fine]
  · exact ended.idle

theorem bus_clearMst (d : Dev) : d.bus <+: d.clearMst.bus := by
  unfold Dev.clearMst
  split_ifs
  · exact List.prefix_append _ _
  · exact List.prefix_rfl

theorem bus_complete (d : Dev) (y : Xfer) (r : Reply) : d.bus <+: (d.complete y r).bus := by
  unfold Dev.complete
  dsimp only
  split_ifs
  · exact List.prefix_append _ _
  · cases y with
    | send b => exact List.prefix_append _ _
    | receive => exact List.prefix_append _ _

theorem bus_threadResumeI (d : Dev) (msg : Int) : (d.threadResumeI msg).bus = d.bus := by
  unfold Dev.threadResumeI
  dsimp only
  split_ifs <;> rfl

theorem bus_readD (d : Dev) : d.readD.bus = d.bus := by
  unfold Dev.readD
  split_ifs <;> rfl

theorem bus_serveRecv (d : Dev) : d.bus <+: d.serveRecv.bus := by
  have next : d.nextTxak.bus = d.bus := by
    unfold Dev.nextTxak
    split_ifs <;> rfl
  have store : ∀ e : Dev, e.store.bus = e.bus := bus_readD
  have stop : d.bus <+: (if d.nextTxak.rxidx = d.nextTxak.rxbytes - 1 then d.nextTxak.clearMst
      else d.nextTxak).bus := by
    split_ifs
    · exact next ▸ bus_clearMst d.nextTxak
    · rw [next]
  have last : ∀ e : Dev, (if e.rxidx = e.rxbytes then { e with intstate := .STATE_STOP }
      else e).bus = e.bus := by
    intro e
    split_ifs <;> rfl
  unfold Dev.serveRecv
  dsimp only
  rw [last, store]
  exact stop

theorem bus_serveState (d : Dev) : d.bus <+: d.serveState.bus := by
  unfold Dev.serveState
  split_ifs
  · exact List.prefix_rfl
  · split
    · unfold Dev.serveSend Dev.writeD
      split_ifs <;> exact List.prefix_rfl
    · unfold Dev.serveDummy
      split_ifs
      · exact List.prefix_rfl
      · exact (bus_readD _).symm ▸ List.prefix_rfl
    · exact bus_serveRecv d
    · exact List.prefix_rfl

theorem bus_serveInterrupt (d : Dev) : d.bus <+: d.serveInterrupt.bus := by
  unfold Dev.serveInterrupt
  dsimp only
  split_ifs
  · rw [bus_threadResumeI, bus_threadResumeI]
    exact bus_serveState d
  · rw [bus_threadResumeI]
    exact bus_serveState d
  · rw [bus_threadResumeI]
    exact bus_serveState d
  · exact bus_serveState d

/-- What was on the bus stays in its history. -/
theorem bus_interrupts (eq : Dev.interrupts slave fuel d = some (msg, f)) : d.bus <+: f.bus := by
  induction fuel generalizing d with
  | zero => cases eq
  | succ fuel ih =>
      rw [Dev.interrupts] at eq
      cases busy : d.xfer with
      | none =>
          rw [busy] at eq
          cases eq
      | some y =>
          rw [busy] at eq
          dsimp only at eq
          have first := (bus_complete d y (slave d.served)).trans (bus_serveInterrupt _)
          split_ifs at eq with asleep
          · exact first.trans (ih eq)
          · rw [Option.some.injEq, Prod.mk.injEq] at eq
            exact eq.2 ▸ first

/-- When no bytes are asked for but there is a receive buffer, the code goes on to read. -/
theorem restarts (idle : Idle d) (buffer : x.txbuf ≠ NULL) (receive : x.rxbuf ≠ NULL)
    (fine : Fine (x.writePhase slave d.mem d.served)) (enough : x.txbytes.toNat < fuel)
    (eq : Dev.i2cLldMasterTransmitTimeout slave fuel d x = some (msg, f)) :
    d.bus ++ .start :: x.writePhase slave d.mem d.served ++ [.restart] <+: f.bus := by
  obtain ⟨e, write, written⟩ := write_phase slave idle buffer enough
  obtain ⟨run, tx, -, bus⟩ := written.next fine
  have mst : e.mst = true := run.mst
  have ok : status (x.writePhase slave d.mem d.served) = MSG_OK := status_eq_ok.mpr fine
  rw [transmit_read idle write ⟨ok, buffer, receive⟩ mst tx, Option.map_eq_some_iff] at eq
  obtain ⟨⟨msg', f'⟩, read, out⟩ := eq
  rw [Prod.mk.injEq] at out
  have grown : (again e).bus <+: f.bus := (bus_interrupts read).trans (out.2 ▸ bus_clearMst f')
  have front : (again e).bus =
      d.bus ++ .start :: x.writePhase slave d.mem d.served ++ [.restart] := by
    change e.bus ++ _ = _
    rw [bus]
    simp [begun]
  rwa [front] at grown

theorem transfers_write (idle : Idle d) (buffer : x.txbuf ≠ NULL)
    (none : ¬ x.Reads slave d.mem d.served)
    (ends : x.rxbuf = NULL ∨ ¬ Fine (x.writePhase slave d.mem d.served)) :
    Transfers slave d x := by
  obtain ⟨e, write, written⟩ := write_phase slave idle buffer (Nat.lt_succ_self _)
  refine ⟨_, e.clearMst, meets_write written none, x.txbytes.toNat + 1, ?_⟩
  intro fuel enough
  apply transmit_write idle (interrupts_mono write enough)
  rintro ⟨ok, -, receive⟩
  rcases ends with null | bad
  · exact receive null
  · exact bad (status_eq_ok.mp ok)

theorem transfers_read (idle : Idle d) (buffer : x.txbuf ≠ NULL) (receive : x.rxbuf ≠ NULL)
    (reads : x.Reads slave d.mem d.served) : Transfers slave d x := by
  obtain ⟨e, write, written⟩ := write_phase slave idle buffer (Nat.lt_succ_self _)
  obtain ⟨run, tx, index, -⟩ := written.next reads.1
  have ok : status (x.writePhase slave d.mem d.served) = MSG_OK := status_eq_ok.mpr reads.1
  have some_bytes : 0 < x.rxbytes.toNat := reads.2
  have run' : Running x (again e) := ⟨run.errors, rfl, run.addr, run.txbuf, run.txbytes,
    run.rxbuf, run.rxbytes, run.mst, run.arbl⟩
  have busy : (again e).xfer = some (.send (x.addr <<< 1 ||| 1)) := by
    rw [← run.addr]
    rfl
  obtain ⟨f, read, ended, stored⟩ := interrupts_readPhase slave run' rfl busy index some_bytes
    (Nat.lt_succ_self _)
  refine ⟨_, f.clearMst, meets_read written reads ended stored,
    x.txbytes.toNat + 1 + (x.rxbytes.toNat + 1), ?_⟩
  intro fuel enough
  rw [transmit_read idle (interrupts_mono write (by omega)) ⟨ok, buffer, receive⟩ run.mst tx,
    interrupts_mono read (by omega)]
  rfl

/-- With a receive buffer for no bytes, the bus sees a repeated start. -/
theorem not_transfers (idle : Idle d) (buffer : x.txbuf ≠ NULL) (receive : x.rxbuf ≠ NULL)
    (zero : ¬ 0 < x.rxbytes) (fine : Fine (x.writePhase slave d.mem d.served)) :
    ¬ Transfers slave d x := by
  rintro ⟨msg, f, meets, n, returns⟩
  have grown := restarts idle buffer receive fine
    (show x.txbytes.toNat < n + (x.txbytes.toNat + 1) by omega) (returns _ (by omega))
  have none : ¬ x.Reads slave d.mem d.served := fun reads => zero reads.2
  have part : x.readPart slave d.mem d.served = [] := if_neg none
  have bus : f.bus = d.bus ++ .start :: x.writePhase slave d.mem d.served ++ [.stop] := by
    rw [meets.bus, Transfer.log, part, if_neg none]
    simp [not_lost_of_fine fine]
  rw [bus, List.prefix_append_right_inj] at grown
  simp at grown

theorem not_fine_writeLog {k : Nat} {bs : List UInt8} :
    ¬ Fine (writeLog slave k bs) ↔ ∃ i < bs.length, (slave (k + i)).Refuses := by
  induction bs generalizing k with
  | nil => simp [writeLog]
  | cons b bs ih =>
      by_cases refused : (slave k).Refuses
      · constructor
        · intro _
          exact ⟨0, Nat.succ_pos _, refused⟩
        · intro _
          exact not_fine_of_refuses refused bs
      · obtain ⟨kept, ack⟩ := not_refuses.mp refused
        have good : (BusEvent.sent b true).good = true := rfl
        rw [writeLog_ack kept ack, fine_cons, and_iff_right good, ih]
        constructor
        · rintro ⟨i, less, later⟩
          exact ⟨i + 1, Nat.succ_lt_succ less, by rwa [show k + (i + 1) = k + 1 + i by omega]⟩
        · rintro ⟨i, less, later⟩
          cases i with
          | zero => exact absurd later refused
          | succ i =>
              exact ⟨i, Nat.lt_of_succ_lt_succ less,
                by rwa [show k + 1 + i = k + (i + 1) by omega]⟩

theorem length_bytesAt (mem : BitVec 32 → UInt8) (buf : BitVec 32) (i n : Nat) :
    (bytesAt mem buf i n).length = n := by
  induction n generalizing i with
  | zero => rfl
  | succ n ih => rw [bytesAt, List.length_cons, ih]

/-- The write phase fails at the address or at one of the bytes. -/
theorem not_fine_writePhase {mem : BitVec 32 → UInt8} {k : Nat} :
    ¬ Fine (x.writePhase slave mem k) ↔ ∃ i ≤ x.txbytes.toNat, (slave (k + i)).Refuses := by
  have length : (x.writes mem).length = x.txbytes.toNat + 1 := by
    rw [Transfer.writes, List.length_cons, length_bytesAt]
  rw [Transfer.writePhase, not_fine_writeLog, length]
  simp only [Nat.lt_succ_iff]

/-- A transfer of the master does what it should exactly when bytes are asked for, or there
is no receive buffer, or the write address or a byte to transmit is not acknowledged. -/
theorem transfers_iff (slave : Nat → Reply) (idle : Idle d) (transmit : x.txbuf ≠ NULL)
    (receive : 0 < x.rxbytes → x.rxbuf ≠ NULL) :
    Transfers slave d x ↔ 0 < x.rxbytes ∨ x.rxbuf = NULL ∨
      ∃ i ≤ x.txbytes.toNat, (slave (d.served + i)).Refuses := by
  rw [← not_fine_writePhase]
  constructor
  · intro transfers
    by_contra other
    rw [not_or, not_or, not_not] at other
    obtain ⟨zero, buffer, fine⟩ := other
    exact not_transfers idle transmit buffer zero fine transfers
  · intro holds
    by_cases reads : x.Reads slave d.mem d.served
    · exact transfers_read idle transmit (receive reads.2) reads
    · apply transfers_write idle transmit reads
      rcases holds with some_bytes | null | bad
      · exact .inr fun fine => reads ⟨fine, some_bytes⟩
      · exact .inl null
      · exact .inr bad

end Transfers

/-! ### An example -/

/-- After `i2c_lld_init` and `i2c_lld_start`. -/
def sampleDev : Dev where
  errors := I2C_NO_ERROR
  thread := false
  addr := 0
  txbuf := NULL
  txbytes := 0
  txidx := 0
  rxbuf := NULL
  rxbytes := 0
  rxidx := 0
  intstate := .STATE_STOP
  mst := false
  tx := false
  txak := false
  arbl := false
  rxak := false
  iicif := false
  data := 0
  xfer := none
  mem := fun _ => 0
  rdymsg := 0
  bus := []
  wakeups := []
  served := 0

theorem sampleDev_idle : Idle sampleDev := ⟨rfl, rfl, rfl, rfl, rfl⟩

/-- One byte is written and `rxbytes` bytes are read. -/
def sampleTransfer (rxbytes : BitVec 32) : Transfer where
  addr := 0x1D
  txbuf := 0x20000000
  txbytes := 1
  rxbuf := 0x20000100
  rxbytes := rxbytes

/-- A slave that acknowledges everything and sends bytes until another master interferes. -/
def sampleSlave (k : Nat) : Reply := ⟨decide (k = 5), false, 0xAA⟩

theorem sampleTransfer_two :
    Idle sampleDev ∧ Transfers sampleSlave sampleDev (sampleTransfer 2) :=
  ⟨sampleDev_idle, (transfers_iff sampleSlave sampleDev_idle (by decide) (by decide)).mpr
    (.inl (by decide))⟩

/-- No bytes are asked for, but two are written to the receive buffer. -/
theorem sampleTransfer_zero :
    ¬ Transfers sampleSlave sampleDev (sampleTransfer 0) ∧
      (Dev.i2cLldMasterTransmitTimeout sampleSlave 4 sampleDev (sampleTransfer 0)).map
        (fun out => (out.1, out.2.mem 0x20000100, out.2.mem 0x20000101)) =
          some (MSG_RESET, 0xAA, 0xAA) :=
  ⟨not_transfers sampleDev_idle (by decide) (by decide) (by decide) (by decide), by decide⟩

end LtcOs.I2c
