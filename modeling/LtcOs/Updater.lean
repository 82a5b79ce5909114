import LtcOs.FlashDevice
import LtcOs.Murmur3

/-!
The updater `esplanade_updater.c`: packets in, storage contents out.

`updaterPacketProcess` is one call on a received packet, a program over the bus
requests of the driver, so it can be interrupted between any two of them. LEDs,
`printf` and the interrupt lock around the driver calls have no effect on what
is modelled and are left out.

`Step` is the bootloader as a whole: packets arrive while it waits, a call
proceeds one request at a time, and a reset may come at any point.
-/

namespace LtcOs.Updater

open LtcOs.Memory LtcOs.Request LtcOs.Flash LtcOs.Murmur3

/-! ### Packets (`esplanade_mac.h`) -/

/-- The bytes of the packet buffer `demod_pkt_t`, a union of the two packet
types. -/
abbrev Packet := Mem

def PKTTYPE_CTRL : UInt8 := 0x01

def PKTTYPE_DATA : UInt8 := 0x02

def MURMUR_SEED_BLOCK : UInt32 := 0xdeadbeef

def MURMUR_SEED_TOTAL : UInt32 := 0x32d0babe

/-- `sizeof(demod_pkt_ctrl_t)`. -/
def CTRL_LEN : Nat := 32

/-- `sizeof(demod_pkt_data_t)`. -/
def DATA_LEN : Nat := 264

namespace Packet

def version (pkt : Packet) : UInt8 := pkt 0

def type (pkt : Packet) : UInt8 := pkt 1

/-- `ctrl_pkt.length`. -/
def length (pkt : Packet) : UInt32 := word pkt 4

/-- `ctrl_pkt.fullhash`. -/
def fullhash (pkt : Packet) : UInt32 := word pkt 8

/-- `ctrl_pkt.guid[j]`. -/
def guid (pkt : Packet) (j : Nat) : UInt8 := pkt (12 + j)

/-- `data_pkt.block`. -/
def block (pkt : Packet) : UInt16 := halfword pkt 2

/-- `data_pkt.payload`. -/
def payload (pkt : Packet) : Mem := fun j => pkt (4 + j)

/-- The hash of a control packet covers all but its last field. -/
def ctrlHashOk (pkt : Packet) : Prop := murmur pkt 28 MURMUR_SEED_BLOCK = word pkt 28

/-- The hash of a data packet covers all but its last field. -/
def dataHashOk (pkt : Packet) : Prop := murmur pkt 260 MURMUR_SEED_BLOCK = word pkt 260

instance (pkt : Packet) : Decidable pkt.ctrlHashOk := inferInstanceAs (Decidable (_ = _))

instance (pkt : Packet) : Decidable pkt.dataHashOk := inferInstanceAs (Decidable (_ = _))

/-- A packet whose hash check succeeds for its type. -/
def HashValid (pkt : Packet) : Prop :=
  (pkt.type = PKTTYPE_CTRL ∧ pkt.ctrlHashOk) ∨ (pkt.type = PKTTYPE_DATA ∧ pkt.dataHashOk)

end Packet

/-! ### Updater state -/

/-- `app_state`. -/
inductive AppState where
  | idle
  | gotId
  | updating
  | updated
  | fail
deriving DecidableEq, Repr

def STORAGE_VERSION : UInt32 := 0

/-- `'Chib'`. -/
def STORAGE_MAGIC : UInt32 := 0x62696843

def BLOCK_SIZE : UInt32 := 256

/-- `SECTOR_MIN`, the first storage sector. -/
def SECTOR_MIN : UInt32 := 22

/-- `SECTOR_COUNT`. -/
def SECTOR_COUNT : UInt16 := 10

/-- Where the updater's buffers are in RAM. The packet buffer is declared
`aligned(4)` and the locals hold words, so all are word-aligned. -/
structure Ram where
  proto : UInt32
  dummy : UInt32
  pkt : UInt32
  proto_aligned : proto % 4 = 0
  dummy_aligned : dummy % 4 = 0
  pkt_aligned : pkt % 4 = 0

/-- How a call of `updaterPacketProcess` ends: it returns with a new `astate`,
the thread exits to the user program, or it hangs in `errorCondition`. -/
inductive Exit where
  | returned (astate : AppState) (err : Int)
  | threadExit
  | hang
deriving DecidableEq, Repr

/-! ### Boot decision -/

def APP_MAGIC : UInt32 := 0xd3fbf67a

def APP_VERSION : UInt32 := 0x00000100

/-- `appIsValid` of `esplanade_app.c`, from the header of the image itself. -/
def appIsValid : FlashM Bool := do
  let magic ← load32 (.appHeader 24)
  if magic = APP_MAGIC then do
    let version ← load32 (.appHeader 28)
    return version = APP_VERSION
  else .ret false

/-- `bootToUserApp`, and `astate = APP_FAIL` when it returns. -/
def bootToUserApp (err : Int) : FlashM Exit := do
  let valid ← appIsValid
  if valid then .ret .threadExit else .ret (.returned .fail err)

/-- `demod_thread` after a reset: with the button released a valid application
is run, otherwise packets are awaited in `APP_IDLE`. -/
def demod_thread (released : Bool) : FlashM Exit := do
  let boot ← (if released then appIsValid else .ret false)
  if boot then .ret .threadExit else .ret (.returned .idle 0)

/-! ### Packet processing -/

/-- `memcmp(storageHdr->guid, cpkt->guid, 16) == 0`, with `k` bytes left from
byte `j` on. -/
def guidMatches (pkt : Packet) : (k j : Nat) → FlashM Bool
  | 0, _ => .ret true
  | k + 1, j => do
      let b ← load8 (.guid j)
      if b = pkt.guid j then guidMatches pkt k (j + 1) else .ret false

/-- The RAM copy `proto` of the program ID section of the header. -/
def headerProto (pkt : Packet) : Mem :=
  let guid : Mem := fun x => pkt.guid (x - 16)
  setWord (setWord (setWord (setWord guid 0 STORAGE_VERSION) 4 STORAGE_MAGIC) 8 pkt.fullhash)
    12 pkt.length

def init_storage_header (R : Ram) (pkt : Packet) : FlashM Int :=
  flashProgram (.ram R.proto (headerProto pkt)) 0x5800 32

def eraseStorage : FlashM Int := flashEraseSectors SECTOR_MIN SECTOR_COUNT

/-- `((storageHdr->length - 1) / BLOCK_SIZE) + 1` in unsigned arithmetic. -/
def blockCount (length : UInt32) : Nat := ((length - 1) / BLOCK_SIZE + 1).toNat

/-- The completion scan; it does not stop at the first missing block. -/
def allDone (length : UInt32) : FlashM Bool :=
  Prog.fold (fun i => load32 (.blockmap i))
    (fun alldone entry => if entry = 0xFFFFFFFF then false else alldone) (blockCount length) 0 true

/-- `MurmurHash3_x86_32((uint8_t *)STORAGE_PROGRAM_OFFSET, length, MURMUR_SEED_TOTAL, &hash)`. -/
def programHash (length : UInt32) : FlashM UInt32 :=
  MurmurHash3_x86_32 (fun k => load32 (.program ((programOffset + 4 * k) % 4294967296)))
    (fun j => load8 (.program ((programOffset + j) % 4294967296).toNat)) (toInt length)
    MURMUR_SEED_TOTAL

/-- Record the block in the blockmap, then program it. The blockmap word comes
first so that a block is never programmed twice. -/
def programBlock (R : Ram) (pkt : Packet) : FlashM Int := do
  let _ ← flashProgram (.ram R.dummy fun _ => 0) (0x5824 + 4 * pkt.block.toUInt32) 4
  flashProgram (.ram (R.pkt + 4) pkt.payload) (0x5900 + pkt.block.toUInt32 * BLOCK_SIZE) 256

/-- The full-program hash decides whether the image is marked complete. -/
def finish (R : Ram) (length : UInt32) : FlashM Exit := do
  let hash ← programHash length
  let fullhash ← load32 (.header 8)
  if hash = fullhash then do
    let err ← flashProgram (.ram R.dummy fun _ => 0) 0x5820 4
    bootToUserApp err
  else do
    let err ← eraseStorage
    .ret (.returned .fail err)

/-- A hash-valid data packet in `APP_UPDATING`. -/
def processData (R : Ram) (pkt : Packet) : FlashM Exit := do
  let entry ← load32 (.blockmap pkt.block.toNat)
  let err ← (if entry = 0xFFFFFFFF then programBlock R pkt else .ret 0)
  let length ← load32 (.header 12)
  let alldone ← allDone length
  if alldone then finish R length else .ret (.returned .updating err)

/-- A hash-valid control packet in `APP_IDLE`. -/
def processCtrl (R : Ram) (pkt : Packet) : FlashM Exit := do
  let same ← guidMatches pkt 16 0
  if same then do
    let complete ← load32 (.header 32)
    if complete = 0xFFFFFFFF then .ret (.returned .updating 0) else .ret (.returned .updated 0)
  else do
    let err ← eraseStorage
    let _ ← init_storage_header R pkt
    .ret (.returned .updating err)

def updaterPacketProcess (R : Ram) (astate : AppState) (pkt : Packet) : FlashM Exit :=
  match astate with
  | .idle =>
      if pkt.type = PKTTYPE_CTRL ∧ pkt.ctrlHashOk then processCtrl R pkt
      else .ret (.returned .idle 0)
  | .updating => do
      let magic ← load32 (.header 4)
      if magic = STORAGE_MAGIC then
        if pkt.type = PKTTYPE_DATA ∧ pkt.dataHashOk then processData R pkt
        else .ret (.returned .updating 0)
      else do
        let err ← eraseStorage
        .ret (.returned .idle err)
  | .updated => bootToUserApp 0
  | .fail => .ret .hang
  | .gotId => .ret (.returned .gotId 0)

/-! ### The bootloader as a system -/

/-- What the bootloader is doing: waiting for a packet in some `astate`, in the
middle of a call on a packet or of the boot decision, or gone. -/
inductive Mode where
  | waiting (astate : AppState)
  | busy (pkt : Option Packet) (p : FlashM Exit)
  | handedOver
  | hung

structure Sys where
  mem : Mem
  mode : Mode

/-- The mode in which a finished call leaves the bootloader. -/
def Exit.mode : Exit → Mode
  | .returned astate _ => .waiting astate
  | .threadExit => .handedOver
  | .hang => .hung

/-- What a step of the system is. -/
inductive Label where
  | packet (pkt : Packet)
  | exec
  | finish
  | reset (released : Bool)

/-- One step: a packet arrives, the call in progress has one request answered or
ends, or the processor is reset. RAM is lost at a reset, flash is not. -/
inductive Step (R : Ram) (bus : Nat → Option UInt8) : Label → Sys → Sys → Prop where
  | packet {m : Mem} {astate : AppState} (pkt : Packet) :
      Step R bus (.packet pkt) ⟨m, .waiting astate⟩
        ⟨m, .busy (some pkt) (updaterPacketProcess R astate pkt)⟩
  | exec {m m' : Mem} {cur : Option Packet} {p p' : FlashM Exit}
      (answer : Prog.Exec (device bus) (p, m) (p', m')) :
      Step R bus .exec ⟨m, .busy cur p⟩ ⟨m', .busy cur p'⟩
  | finish {m : Mem} {cur : Option Packet} {e : Exit} :
      Step R bus .finish ⟨m, .busy cur (.ret e)⟩ ⟨m, e.mode⟩
  | reset {m : Mem} {mode : Mode} (released : Bool) :
      Step R bus (.reset released) ⟨m, mode⟩ ⟨m, .busy none (demod_thread released)⟩

/-- Runs in which every step is admitted by `ok` in the state it is taken from. -/
abbrev Steps (R : Ram) (bus : Nat → Option UInt8) (ok : Sys → Label → Prop) : Sys → Sys → Prop :=
  Relation.ReflTransGen fun s s' => ∃ l, ok s l ∧ Step R bus l s s'

/-- Erased storage. -/
def Erased (m : Mem) : Prop := Blank m storage 10240

/-- States reached from erased storage after a first reset. -/
def Reachable (R : Ram) (bus : Nat → Option UInt8) (ok : Sys → Label → Prop) (s : Sys) : Prop :=
  ∃ m released, Erased m ∧ Steps R bus ok ⟨m, .busy none (demod_thread released)⟩ s

/-- To hold in every reachable state, a property has to hold after the first
reset and be kept by every admitted step. -/
theorem Reachable.invariant {R : Ram} {bus : Nat → Option UInt8} {ok : Sys → Label → Prop}
    {P : Sys → Prop} {s : Sys} (reachable : Reachable R bus ok s)
    (start : ∀ m released, Erased m → P ⟨m, .busy none (demod_thread released)⟩)
    (step : ∀ l s s', P s → ok s l → Step R bus l s s' → P s') : P s := by
  obtain ⟨m, released, erased, run⟩ := reachable
  induction run with
  | refl => exact start m released erased
  | tail _ next ih =>
      obtain ⟨l, allowed, next⟩ := next
      exact step l _ _ ih allowed next

/-! ### Header fields in storage -/

def hdrMagic (m : Mem) : UInt32 := word m (storage + 4)

def hdrFullhash (m : Mem) : UInt32 := word m (storage + 8)

def hdrLength (m : Mem) : UInt32 := word m (storage + 12)

def hdrGuid (m : Mem) (j : Nat) : UInt8 := m (storage + 16 + j)

def hdrComplete (m : Mem) : UInt32 := word m (storage + 32)

def hdrBlockmap (m : Mem) (i : Nat) : UInt32 := word m (storage + 36 + 4 * i)

/-- The program area as a buffer of its own. -/
def programArea (m : Mem) : Mem := fun i => m (programOffset + i)

end LtcOs.Updater
