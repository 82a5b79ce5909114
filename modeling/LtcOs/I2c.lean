import LtcOs.Kernel.Core
import Mathlib.Tactic

/-!
Transfers of the I2C master (`i2c_lld.c` for KINETIS).

A thread starts the transfer and sleeps; the interrupts at the end of each byte move the
state machine of `serve_interrupt` on until it resumes the thread. What the slave and the
other masters on the bus do is a parameter: for each interrupt whether arbitration was
lost, whether the byte was acknowledged, and which byte came. The busy waiting for the
start and the end of the bus traffic is left out.
-/

namespace LtcOs.I2c

open LtcOs.Kernel

/-! ### The peripheral and the driver -/

/-- `intstate_t`. -/
inductive IntState where
  | STATE_STOP
  | STATE_SEND
  | STATE_RECV
  | STATE_DUMMY
deriving DecidableEq, Repr

def I2C_NO_ERROR : BitVec 32 := 0x00

def I2C_ARBITRATION_LOST : BitVec 32 := 0x02

def I2C_ACK_FAILURE : BitVec 32 := 0x04

def NULL : BitVec 32 := 0

/-- What is seen on the bus. A byte whose arbitration was lost is `lost`. -/
inductive BusEvent where
  | start
  | restart
  | sent (b : UInt8) (acked : Bool)
  | received (b : UInt8) (acked : Bool)
  | lost
  | stop
deriving DecidableEq, Repr

/-- A byte on its way. -/
inductive Xfer where
  | send (b : UInt8)
  | receive
deriving DecidableEq, Repr

/-- How a byte ends: the flags of `S`, and the byte that `D` holds when one was received. -/
structure Reply where
  arbl : Bool
  rxak : Bool
  data : UInt8

/-- The byte was not acknowledged, or the arbitration lost. -/
def Reply.Refuses (r : Reply) : Prop := r.arbl = true ∨ r.rxak = true

/-- The fields of `I2CDriver`, the bits of the registers, and the memory. `thread` is
whether a thread is suspended. The bus, the calls that resume the thread and the number of
interrupts are kept as a history. -/
structure Dev where
  errors : BitVec 32
  thread : Bool
  addr : UInt8
  txbuf : BitVec 32
  txbytes : BitVec 32
  txidx : BitVec 32
  rxbuf : BitVec 32
  rxbytes : BitVec 32
  rxidx : BitVec 32
  intstate : IntState
  mst : Bool
  tx : Bool
  txak : Bool
  arbl : Bool
  rxak : Bool
  iicif : Bool
  data : UInt8
  xfer : Option Xfer
  mem : BitVec 32 → UInt8
  rdymsg : Int
  bus : List BusEvent
  wakeups : List Int
  served : Nat

/-- The arguments of a transfer. -/
structure Transfer where
  addr : UInt8
  txbuf : BitVec 32
  txbytes : BitVec 32
  rxbuf : BitVec 32
  rxbytes : BitVec 32

namespace Dev

/-- `C1 |= MST`. -/
def setMst (d : Dev) : Dev :=
  if d.mst then d else { d with mst := true, bus := d.bus ++ [.start] }

/-- `C1 &= ~(TX | MST)`. -/
def clearMst (d : Dev) : Dev :=
  if d.mst then { d with mst := false, tx := false, bus := d.bus ++ [.stop] }
  else { d with tx := false }

/-- `C1 |= RSTA`. -/
def setRsta (d : Dev) : Dev := if d.mst then { d with bus := d.bus ++ [.restart] } else d

/-- A write to `D` sends the byte. -/
def writeD (d : Dev) (b : UInt8) : Dev :=
  if d.mst ∧ d.tx then { d with xfer := some (.send b) } else d

/-- A read of `D` lets the next byte come. -/
def readD (d : Dev) : Dev := if d.mst ∧ ¬ d.tx then { d with xfer := some .receive } else d

/-- `S |= …`: the flags are cleared by writing a one, also those that were set before. -/
def orS (d : Dev) (arbl iicif : Bool) : Dev :=
  { d with
    arbl := d.arbl && !(d.arbl || arbl)
    iicif := d.iicif && !(d.iicif || iicif) }

/-- The end of a byte on the bus. A master that loses the arbitration is none any more. -/
def complete (d : Dev) (x : Xfer) (r : Reply) : Dev :=
  let d := { d with xfer := none, iicif := true, rxak := r.rxak, served := d.served + 1 }
  if r.arbl then { d with arbl := true, mst := false, bus := d.bus ++ [.lost] }
  else
    match x with
    | .send b => { d with bus := d.bus ++ [.sent b (!r.rxak)] }
    | .receive => { d with data := r.data, bus := d.bus ++ [.received r.data (!d.txak)] }

/-- `osalThreadResumeI`. -/
def threadResumeI (d : Dev) (msg : Int) : Dev :=
  let d := { d with wakeups := d.wakeups ++ [msg] }
  if d.thread then { d with thread := false, rdymsg := msg } else d

/-- `serve_interrupt` in `STATE_SEND`. -/
def serveSend (d : Dev) : Dev :=
  if d.rxak then { d with errors := d.errors ||| I2C_ACK_FAILURE }
  else if d.txbuf ≠ NULL ∧ d.txidx < d.txbytes then
    { d with txidx := d.txidx + 1 }.writeD (d.mem (d.txbuf + d.txidx))
  else { d with intstate := .STATE_STOP }

/-- `serve_interrupt` in `STATE_DUMMY`. -/
def serveDummy (d : Dev) : Dev :=
  if d.rxak then { d with errors := d.errors ||| I2C_ACK_FAILURE }
  else { { d with tx := false, txak := !decide (1 < d.rxbytes) }.readD with
    intstate := .STATE_RECV }

/-- The acknowledge bit for the byte after the one that is there. -/
def nextTxak (d : Dev) : Dev :=
  if 1 < d.rxbytes then { d with txak := decide (d.rxidx = d.rxbytes - 2) } else d

/-- `rxbuf[rxidx++] = D`. -/
def store (d : Dev) : Dev :=
  { d.readD with
    mem := Function.update d.mem (d.rxbuf + d.rxidx) d.data
    rxidx := d.rxidx + 1 }

/-- `serve_interrupt` in `STATE_RECV`. -/
def serveRecv (d : Dev) : Dev :=
  let d := d.nextTxak
  let d := if d.rxidx = d.rxbytes - 1 then d.clearMst else d
  let d := d.store
  if d.rxidx = d.rxbytes then { d with intstate := .STATE_STOP } else d

/-- `serve_interrupt` up to the reset of the interrupt flag. -/
def serveState (d : Dev) : Dev :=
  if d.arbl then { d with errors := d.errors ||| I2C_ARBITRATION_LOST }.orS true false
  else
    match d.intstate with
    | .STATE_SEND => d.serveSend
    | .STATE_DUMMY => d.serveDummy
    | .STATE_RECV => d.serveRecv
    | .STATE_STOP => d

def serveInterrupt (d : Dev) : Dev :=
  let d := d.serveState.orS false true
  let d := if d.errors ≠ I2C_NO_ERROR then d.threadResumeI MSG_RESET else d
  if d.intstate = .STATE_STOP then d.threadResumeI MSG_OK else d

/-- `_i2c_txrx_timeout` up to where the thread sleeps. -/
def startTransfer (d : Dev) (x : Transfer) : Dev :=
  let op : UInt8 := if d.intstate = .STATE_SEND then 0 else 1
  let d := { d with
    errors := I2C_NO_ERROR
    addr := x.addr
    txbuf := x.txbuf
    txbytes := x.txbytes
    txidx := 0
    rxbuf := x.rxbuf
    rxbytes := x.rxbytes
    rxidx := 0 }
  { d.setMst with tx := true }.writeD (x.addr <<< 1 ||| op)

/-- The repeated start, until the thread sleeps again. -/
def startRead (d : Dev) : Dev :=
  let d := { d.setRsta with intstate := .STATE_DUMMY }
  d.writeD (d.addr <<< 1 ||| 1)

section Code

variable (slave : Nat → Reply)

/-- The interrupts until the thread is resumed. When no byte is on its way, no interrupt
comes. -/
def interrupts : (fuel : Nat) → Dev → Option (Int × Dev)
  | 0, _ => none
  | fuel + 1, d =>
      match d.xfer with
      | none => none
      | some x =>
          let d := (d.complete x (slave d.served)).serveInterrupt
          if d.thread then interrupts fuel d else some (d.rdymsg, d)

/-- `osalThreadSuspendTimeoutS` without a timeout. -/
def threadSuspend (fuel : Nat) (d : Dev) : Option (Int × Dev) :=
  interrupts slave fuel { d with thread := true }

/-- `_i2c_txrx_timeout`. -/
def i2cTxrxTimeout (fuel : Nat) (d : Dev) (x : Transfer) : Option (Int × Dev) := do
  let (msg, d) ← threadSuspend slave fuel (d.startTransfer x)
  if msg = MSG_OK ∧ x.txbuf ≠ NULL ∧ x.rxbuf ≠ NULL then
    let (msg, d) ← threadSuspend slave fuel d.startRead
    return (msg, d.clearMst)
  else return (msg, d.clearMst)

def i2cLldMasterTransmitTimeout (fuel : Nat) (d : Dev) (x : Transfer) : Option (Int × Dev) :=
  i2cTxrxTimeout slave fuel { d with intstate := .STATE_SEND } x

end Code

end Dev

/-! ### What a transfer should do -/

section Spec

variable (slave : Nat → Reply)

/-- The `n` bytes of a buffer from an index on. -/
def bytesAt (mem : BitVec 32 → UInt8) (buf : BitVec 32) : (i n : Nat) → List UInt8
  | _, 0 => []
  | i, n + 1 => mem (buf + BitVec.ofNat 32 i) :: bytesAt mem buf (i + 1) n

/-- Bytes are sent in order until the first that is not acknowledged; `k` counts the
interrupts. -/
def writeLog : (k : Nat) → List UInt8 → List BusEvent
  | _, [] => []
  | k, b :: bs =>
      if (slave k).arbl then [.lost]
      else if (slave k).rxak then [.sent b false]
      else .sent b true :: writeLog (k + 1) bs

/-- Bytes are received, and all but the last acknowledged. -/
def readLog : (k n : Nat) → List BusEvent
  | _, 0 => []
  | k, n + 1 =>
      if (slave k).arbl then [.lost]
      else .received (slave k).data (decide (n ≠ 0)) :: readLog (k + 1) n

/-- Not a byte that was refused, and no lost arbitration. -/
def BusEvent.good : BusEvent → Bool
  | .sent _ acked => acked
  | .lost => false
  | _ => true

/-- Everything was acknowledged and no arbitration lost. -/
def Fine (l : List BusEvent) : Prop := ∀ e ∈ l, e.good

instance (l : List BusEvent) : Decidable (Fine l) := inferInstanceAs (Decidable (∀ e ∈ l, e.good))

/-- The message that goes with a part of the transfer. -/
def status (l : List BusEvent) : Int := if Fine l then MSG_OK else MSG_RESET

/-- The bytes that came. -/
def receivedBytes (l : List BusEvent) : List UInt8 :=
  l.filterMap fun
    | .received b _ => some b
    | _ => none

namespace Transfer

variable (x : Transfer) (mem : BitVec 32 → UInt8) (k : Nat)

/-- The write address and the bytes to transmit. -/
def writes : List UInt8 := (x.addr <<< 1) :: bytesAt mem x.txbuf 0 x.txbytes.toNat

/-- The write phase. -/
def writePhase : List BusEvent := writeLog slave k (x.writes mem)

/-- The read phase: the read address and, when it is acknowledged, the bytes. -/
def readPhase : List BusEvent :=
  let address := writeLog slave k [x.addr <<< 1 ||| 1]
  if Fine address then address ++ readLog slave (k + 1) x.rxbytes.toNat else address

/-- The read phase takes place when the write phase went well and bytes are asked for. -/
def Reads : Prop := Fine (x.writePhase slave mem k) ∧ 0 < x.rxbytes

instance : Decidable (x.Reads slave mem k) :=
  inferInstanceAs (Decidable (Fine (x.writePhase slave mem k) ∧ 0 < x.rxbytes))

/-- The read phase when it takes place. -/
def readPart : List BusEvent :=
  if x.Reads slave mem k then x.readPhase slave (k + (x.writePhase slave mem k).length) else []

/-- All of the transfer. A master that lost the arbitration does not stop the bus. -/
def log : List BusEvent :=
  let write := x.writePhase slave mem k
  let read := x.readPart slave mem k
  .start :: write ++ (if x.Reads slave mem k then .restart :: read else []) ++
    (if .lost ∈ write ++ read then [] else [.stop])

end Transfer

/-- Between two transfers. -/
structure Idle (d : Dev) : Prop where
  thread : d.thread = false
  mst : d.mst = false
  arbl : d.arbl = false
  iicif : d.iicif = false
  xfer : d.xfer = none

/-- What the transfer `x` from `d` ends with. The bytes that came are in the receive
buffer and nothing else has changed, the thread was resumed once in each phase, and the
result says whether everything went well. -/
structure Meets (d : Dev) (x : Transfer) (msg : Int) (f : Dev) : Prop where
  bus : f.bus = d.bus ++ x.log slave d.mem d.served
  stored : ∀ i b, (receivedBytes (x.readPart slave d.mem d.served))[i]? = some b →
    f.mem (x.rxbuf + BitVec.ofNat 32 i) = b
  kept : ∀ a, (∀ i < (receivedBytes (x.readPart slave d.mem d.served)).length,
    a ≠ x.rxbuf + BitVec.ofNat 32 i) → f.mem a = d.mem a
  fits : (receivedBytes (x.readPart slave d.mem d.served)).length ≤ x.rxbytes.toNat
  full : msg = MSG_OK →
    (receivedBytes (x.readPart slave d.mem d.served)).length = x.rxbytes.toNat
  resumed : f.wakeups = d.wakeups ++ status (x.writePhase slave d.mem d.served) ::
    if x.Reads slave d.mem d.served then [status (x.readPart slave d.mem d.served)] else []
  result : msg = status (x.log slave d.mem d.served)
  idle : Idle f

/-- The transfer returns and does what it should when it has enough fuel. -/
def Transfers (d : Dev) (x : Transfer) : Prop :=
  ∃ msg f, Meets slave d x msg f ∧
    ∃ n, ∀ fuel, n ≤ fuel → Dev.i2cLldMasterTransmitTimeout slave fuel d x = some (msg, f)

end Spec

end LtcOs.I2c
