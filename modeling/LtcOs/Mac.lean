import LtcOs.Lib.Bits
import LtcOs.Updater

/-!
The MAC layer `esplanade_mac.c`: a bit stream in, packets out.

`putBitMac` is one call with one bit. Its state does not depend on the flag nor on
stale bytes of the buffer (`sim_putBitMac`), and it is a number of bits away from
the next packet that goes down by at most one with each (`bitsToPacket`).
-/

namespace LtcOs.Demod

open LtcOs.Memory LtcOs.Bits LtcOs.Updater

/-! ### `putBitMac` -/

/-- `mac_state_t`. -/
inductive MacState where
  | idle
  | sync
  | packet
deriving DecidableEq, Repr

def PKT_VER_1 : UInt8 := 0x01

def PKT_VER_2 : UInt8 := 0x02

/-- The variables of `esplanade_mac.c`. `pkt_ptr` is only ever set to zero, and is
left out. -/
structure Mac where
  mstate : MacState
  idle_zeros : UInt8
  g_bitpos : Int
  g_curbyte : UInt8
  mac_sync : Mem
  sync_count : UInt8
  pkt_len : UInt32
  pkt_read : UInt32
  pkt : Packet
  pktReady : Bool

namespace Mac

/-- The values at reset. -/
def initial : Mac where
  mstate := .idle
  idle_zeros := 0
  g_bitpos := 9
  g_curbyte := 0
  mac_sync := fun _ => 0
  sync_count := 0
  pkt_len := 0
  pkt_read := 0
  pkt := fun _ => 0
  pktReady := false

/-- The label `make_idle`. -/
def make_idle (s : Mac) : Mac := { s with mstate := .idle, idle_zeros := 0 }

/-- Load on the next bit. -/
def shift (s : Mac) (bit : Bool) : Mac :=
  { s with g_curbyte := shiftIn s.g_curbyte bit, g_bitpos := s.g_bitpos - 1 }

/-- Tally up a sync character. -/
def pushSync (s : Mac) : Mac :=
  { s with
    mac_sync := Function.update s.mac_sync s.sync_count.toNat s.g_curbyte
    sync_count := s.sync_count + 1 }

/-- The third sync character decides. -/
def matchSync (s : Mac) : Mac :=
  if 3 ≤ s.sync_count then
    if s.mac_sync 0 = 0xAA ∧ s.mac_sync 1 = 0x55 ∧ s.mac_sync 2 = 0x42 then
      { s with mstate := .packet, pkt_len := 0, pkt_read := 0 }
    else s.make_idle
  else s

/-- Move on to the next byte. -/
def nextByte (s : Mac) : Mac := { s with g_bitpos := 8, g_curbyte := 0 }

/-- The length a packet header announces, `none` if it is not a valid one. -/
def headerLength (pkt : Packet) : Option UInt32 :=
  if pkt.version ≠ PKT_VER_1 ∧ pkt.version ≠ PKT_VER_2 then none
  else if pkt.type = PKTTYPE_CTRL then some 32
  else if pkt.type = PKTTYPE_DATA then some 264
  else none

/-- If the header is read and the length unknown, figure it out; `none` abandons
the packet. -/
def readHeader (s : Mac) : Option Mac :=
  if s.pkt_len = 0 ∧ s.pkt_read > 2 then
    (headerLength s.pkt).map fun len => { s with pkt_len := len }
  else some s

/-- Add a finished byte to the packet. -/
def storeByte (s : Mac) : Mac :=
  if s.g_bitpos = 0 then
    nextByte { s with
      pkt := Function.update s.pkt s.pkt_read.toNat s.g_curbyte
      pkt_read := s.pkt_read + 1 }
  else s

/-- The packet is read. -/
def Ended (s : Mac) : Prop := s.pkt_len ≠ 0 ∧ s.pkt_len ≤ s.pkt_read

instance (s : Mac) : Decidable s.Ended := inferInstanceAs (Decidable (_ ∧ _))

/-- Flag a finished packet. -/
def checkEnd (s : Mac) : Mac := if s.Ended then make_idle { s with pktReady := true } else s

/-- `case MAC_IDLE`. -/
def idleBit (s : Mac) (bit : Bool) : Mac :=
  if s.idle_zeros > 32 then
    if bit then { s with mstate := .sync, g_bitpos := 6, g_curbyte := 0x80, sync_count := 0 }
    else if s.idle_zeros < 255 then { s with idle_zeros := s.idle_zeros + 1 }
    else s
  else if bit then { s with idle_zeros := 0 }
  else { s with idle_zeros := s.idle_zeros + 1 }

/-- `case MAC_SYNC`. -/
def syncBit (s : Mac) (bit : Bool) : Mac :=
  let s := s.shift bit
  if s.g_bitpos ≠ 0 then s
  else if s.g_curbyte = 0 then { s with mstate := .idle, idle_zeros := 8 }
  else s.pushSync.matchSync.nextByte

/-- `case MAC_PACKET`. -/
def packetBit (s : Mac) (bit : Bool) : Mac :=
  match s.readHeader with
  | none => s.make_idle
  | some s => (s.shift bit).storeByte.checkEnd

end Mac

def putBitMac (s : Mac) (bit : Bool) : Mac :=
  match s.mstate with
  | .idle => s.idleBit bit
  | .sync => s.syncBit bit
  | .packet => s.packetBit bit

section Cases

variable {s : Mac}

theorem putBitMac_idle (h : s.mstate = .idle) (bit : Bool) : putBitMac s bit = s.idleBit bit := by
  rw [putBitMac, h]

theorem putBitMac_sync (h : s.mstate = .sync) (bit : Bool) : putBitMac s bit = s.syncBit bit := by
  rw [putBitMac, h]

theorem putBitMac_packet (h : s.mstate = .packet) (bit : Bool) :
    putBitMac s bit = s.packetBit bit := by
  rw [putBitMac, h]

theorem packetBit_none (read : s.readHeader = none) (bit : Bool) :
    s.packetBit bit = s.make_idle := by
  rw [Mac.packetBit, read]

theorem packetBit_some {t : Mac} (read : s.readHeader = some t) (bit : Bool) :
    s.packetBit bit = (t.shift bit).storeByte.checkEnd := by
  rw [Mac.packetBit, read]

end Cases

/-- The bit ends a packet. -/
def Mac.Ends (s : Mac) (bit : Bool) : Prop :=
  s.mstate = .packet ∧ ∃ t, s.readHeader = some t ∧ (t.shift bit).storeByte.Ended


/-- A sequence of bits, one call each. -/
def feed (s : Mac) (bits : List Bool) : Mac := bits.foldl putBitMac s

@[simp] theorem feed_nil (s : Mac) : feed s [] = s := rfl

@[simp] theorem feed_cons (s : Mac) (bit : Bool) (bits : List Bool) :
    feed s (bit :: bits) = feed (putBitMac s bit) bits := rfl

theorem feed_append (s : Mac) (xs ys : List Bool) : feed s (xs ++ ys) = feed (feed s xs) ys :=
  List.foldl_append

/-! ### Counters and the header -/

theorem idle_zeros_succ {z : UInt8} (lt : z.toNat < 255) : (z + 1).toNat = z.toNat + 1 := by
  rw [UInt8.toNat_add]
  change (z.toNat + 1) % 256 = _
  omega

theorem idle_zeros_lt {z : UInt8} : z > 32 ↔ 32 < z.toNat := UInt8.lt_iff_toNat_lt

theorem idle_zeros_below {z : UInt8} : z < 255 ↔ z.toNat < 255 := UInt8.lt_iff_toNat_lt

theorem sync_count_succ {c : UInt8} (lt : c.toNat < 3) : (c + 1).toNat = c.toNat + 1 :=
  idle_zeros_succ (by omega)

/-- The header is the only place a length comes from. -/
theorem headerLength_eq {pkt : Packet} {len : UInt32} (known : Mac.headerLength pkt = some len) :
    (pkt.version = PKT_VER_1 ∨ pkt.version = PKT_VER_2) ∧
      ((pkt.type = PKTTYPE_CTRL ∧ len = 32) ∨ (pkt.type = PKTTYPE_DATA ∧ len = 264)) := by
  unfold Mac.headerLength at known
  split_ifs at known with version ctrl data
  · refine ⟨by tauto, .inl ⟨ctrl, ?_⟩⟩
    exact (Option.some.inj known).symm
  · refine ⟨by tauto, .inr ⟨data, ?_⟩⟩
    exact (Option.some.inj known).symm

section Frame

variable (s : Mac) (bit : Bool)

theorem mstate_storeByte : (s.shift bit).storeByte.mstate = s.mstate := by
  unfold Mac.storeByte
  split_ifs <;> rfl

theorem pktReady_storeByte : (s.shift bit).storeByte.pktReady = s.pktReady := by
  unfold Mac.storeByte
  split_ifs <;> rfl

theorem pktReady_matchSync : s.matchSync.pktReady = s.pktReady := by
  unfold Mac.matchSync
  split_ifs <;> rfl

theorem pktReady_idleBit : (s.idleBit bit).pktReady = s.pktReady := by
  unfold Mac.idleBit
  split_ifs <;> rfl

theorem pktReady_syncBit : (s.syncBit bit).pktReady = s.pktReady := by
  simp only [Mac.syncBit]
  split_ifs
  · rfl
  · rfl
  · exact pktReady_matchSync _

end Frame

/-! ### What the flag and the buffer have no influence on -/

/-- The bit has the flag set: `pktReady = 1` is executed. -/
def SetsReady (s : Mac) (bit : Bool) : Prop :=
  (putBitMac { s with pktReady := false } bit).pktReady = true

/-- The same state with another buffer and another flag. -/
def Mac.withPkt (s : Mac) (p : Packet) (r : Bool) : Mac := { s with pkt := p, pktReady := r }

/-- States that no further bits tell apart. The flag is never read, and in the
buffer only what has been received of the present packet counts. -/
def Sim (s t : Mac) : Prop :=
  ∃ p r, t = s.withPkt p r ∧ (s.mstate = .packet → ∀ i, i < s.pkt_read.toNat → p i = s.pkt i)

section Other

variable (s : Mac) (bit : Bool) (p : Packet) (r : Bool)

theorem idleBit_withPkt : (s.withPkt p r).idleBit bit = (s.idleBit bit).withPkt p r := by
  change (if s.idle_zeros > 32 then if bit then _ else if s.idle_zeros < 255 then _ else _
    else if bit then _ else _) = _
  unfold Mac.idleBit
  split_ifs <;> rfl

theorem matchSync_withPkt : (s.withPkt p r).matchSync = s.matchSync.withPkt p r := by
  change (if 3 ≤ s.sync_count then if s.mac_sync 0 = 0xAA ∧ s.mac_sync 1 = 0x55 ∧ s.mac_sync 2 = 0x42
    then _ else _ else _) = _
  unfold Mac.matchSync
  split_ifs <;> rfl

theorem syncBit_withPkt : (s.withPkt p r).syncBit bit = (s.syncBit bit).withPkt p r := by
  change (if (s.shift bit).g_bitpos ≠ 0 then (s.shift bit).withPkt p r
    else if (s.shift bit).g_curbyte = 0 then _
    else ((s.shift bit).pushSync.withPkt p r).matchSync.nextByte) = _
  rw [matchSync_withPkt]
  simp only [Mac.syncBit]
  split_ifs <;> rfl

theorem pkt_idleBit : (s.idleBit bit).pkt = s.pkt := by
  unfold Mac.idleBit
  split_ifs <;> rfl

theorem pkt_syncBit : (s.syncBit bit).pkt = s.pkt := by
  have added : (s.shift bit).pushSync.matchSync.pkt = s.pkt := by
    unfold Mac.matchSync
    split_ifs <;> rfl
  simp only [Mac.syncBit]
  split_ifs
  · rfl
  · rfl
  · exact added

end Other

section Sim

variable {s t : Mac} {p : Packet} {r : Bool}

theorem headerLength_congr {p q : Packet} {n : Nat} (hn : 2 < n) (agree : ∀ i, i < n → p i = q i) :
    Mac.headerLength p = Mac.headerLength q := by
  have version : p.version = q.version := agree 0 (by omega)
  have type : p.type = q.type := agree 1 (by omega)
  rw [Mac.headerLength, version, type]
  rfl

theorem readHeader_withPkt (agree : ∀ i, i < s.pkt_read.toNat → p i = s.pkt i) :
    (s.withPkt p r).readHeader = s.readHeader.map fun u => u.withPkt p r := by
  change (if s.pkt_len = 0 ∧ s.pkt_read > 2 then
    (Mac.headerLength p).map fun len => Mac.withPkt { s with pkt_len := len } p r
    else some (s.withPkt p r)) = _
  unfold Mac.readHeader
  split_ifs with pending
  · rw [headerLength_congr (UInt32.lt_iff_toNat_lt.mp pending.2) agree, Option.map_map]
    rfl
  · rfl

theorem update_agree {p q : Packet} {n : UInt32} {v : UInt8}
    (agree : ∀ i, i < n.toNat → p i = q i) {i : Nat} (hi : i < (n + 1).toNat) :
    Function.update p n.toNat v i = Function.update q n.toNat v i := by
  by_cases last : i = n.toNat
  · rw [last, Function.update_self, Function.update_self]
  · rw [Function.update_of_ne last, Function.update_of_ne last]
    refine agree i ?_
    have := UInt32.toNat_add n 1
    change _ = (n.toNat + 1) % 4294967296 at this
    omega

theorem storeByte_withPkt (agree : ∀ i, i < s.pkt_read.toNat → p i = s.pkt i) :
    ∃ p', (s.withPkt p r).storeByte = s.storeByte.withPkt p' r ∧
      ∀ i, i < s.storeByte.pkt_read.toNat → p' i = s.storeByte.pkt i := by
  by_cases done : s.g_bitpos = 0
  · refine ⟨Function.update p s.pkt_read.toNat s.g_curbyte, ?_, ?_⟩
    · rw [Mac.storeByte, Mac.storeByte, if_pos done,
        if_pos (show (s.withPkt p r).g_bitpos = 0 from done)]
      rfl
    · rw [Mac.storeByte, if_pos done]
      exact fun i hi => update_agree agree hi
  · refine ⟨p, ?_, ?_⟩
    · rw [Mac.storeByte, Mac.storeByte, if_neg done,
        if_neg (show ¬ (s.withPkt p r).g_bitpos = 0 from done)]
    · rw [Mac.storeByte, if_neg done]
      exact agree

/-- The header decision sets the length, and is taken once. -/
theorem readHeader_eq (read : s.readHeader = some t) :
    ∃ len, t = { s with pkt_len := len } ∧ ¬ (len = 0 ∧ s.pkt_read > 2) := by
  unfold Mac.readHeader at read
  split_ifs at read with pending
  · obtain ⟨len, known, rfl⟩ := Option.map_eq_some_iff.mp read
    refine ⟨len, rfl, fun h => ?_⟩
    rcases (headerLength_eq known).2 with ⟨-, rfl⟩ | ⟨-, rfl⟩ <;> exact absurd h.1 (by decide)
  · obtain rfl := Option.some.inj read
    exact ⟨s.pkt_len, rfl, pending⟩

/-- The flag stays or is set. -/
theorem pktReady_putBitMac (s : Mac) (bit : Bool) :
    (putBitMac s bit).pktReady = true ↔ s.pktReady = true ∨ s.Ends bit := by
  cases state : s.mstate with
  | idle =>
      rw [putBitMac_idle state, pktReady_idleBit]
      simp [Mac.Ends, state]
  | sync =>
      rw [putBitMac_sync state, pktReady_syncBit]
      simp [Mac.Ends, state]
  | packet =>
      rw [putBitMac_packet state]
      cases read : s.readHeader with
      | none =>
          rw [packetBit_none read]
          simp [Mac.Ends, read, Mac.make_idle]
      | some t =>
          obtain ⟨len, rfl, -⟩ := readHeader_eq read
          have kept := pktReady_storeByte { s with pkt_len := len } bit
          rw [packetBit_some read, Mac.checkEnd]
          split_ifs with ended
          · exact iff_of_true rfl (.inr ⟨state, _, read, ended⟩)
          · rw [kept]
            refine ⟨.inl, fun h => h.resolve_right ?_⟩
            rintro ⟨-, u, hu, ended'⟩
            obtain rfl := Option.some.inj (read.symm.trans hu)
            exact ended ended'

theorem idleBit_not_packet (state : s.mstate = .idle) (bit : Bool) :
    (s.idleBit bit).mstate ≠ .packet := by
  unfold Mac.idleBit
  split_ifs <;> simp [state]

/-- A packet is entered empty. -/
theorem syncBit_packet (state : s.mstate = .sync) {bit : Bool}
    (entered : (s.syncBit bit).mstate = .packet) : (s.syncBit bit).pkt_read = 0 := by
  simp only [Mac.syncBit] at entered ⊢
  split_ifs at entered ⊢
  · exact absurd (state.symm.trans entered) (by decide)
  · unfold Mac.matchSync at entered ⊢
    split_ifs at entered ⊢
    · rfl
    · exact absurd entered (by simp [Mac.nextByte, Mac.make_idle])
    · exact absurd (state.symm.trans entered) (by decide)

theorem checkEnd_withPkt (s : Mac) (p : Packet) (r : Bool) :
    (s.withPkt p r).checkEnd = s.checkEnd.withPkt p (if s.Ended then true else r) := by
  change (if s.Ended then Mac.make_idle { s.withPkt p r with pktReady := true } else s.withPkt p r) = _
  unfold Mac.checkEnd
  split_ifs <;> rfl

theorem checkEnd_pkt (s : Mac) : s.checkEnd.pkt = s.pkt ∧ s.checkEnd.pkt_read = s.pkt_read := by
  unfold Mac.checkEnd
  split_ifs <;> exact ⟨rfl, rfl⟩

theorem sim_packetBit (state : s.mstate = .packet) (bit : Bool)
    (agree : ∀ i, i < s.pkt_read.toNat → p i = s.pkt i) :
    ∃ p' r', (s.withPkt p r).packetBit bit = (s.packetBit bit).withPkt p' r' ∧
      ((s.withPkt p r).Ends bit ↔ s.Ends bit) ∧
      ((s.packetBit bit).mstate = .packet ∨ s.Ends bit →
        ∀ i, i < (s.packetBit bit).pkt_read.toNat → p' i = (s.packetBit bit).pkt i) := by
  have state' : (s.withPkt p r).mstate = .packet := state
  have header := readHeader_withPkt (r := r) agree
  cases read : s.readHeader with
  | none =>
      rw [read] at header
      refine ⟨p, r, by rw [packetBit_none read, packetBit_none header]; rfl, ?_, ?_⟩
      · simp [Mac.Ends, read, header]
      · rw [packetBit_none read]
        rintro (packet | ⟨-, t, ht, -⟩)
        · exact absurd packet (by simp [Mac.make_idle])
        · rw [read] at ht
          exact absurd ht (by simp)
  | some u =>
      rw [read] at header
      have agree' : ∀ i, i < (u.shift bit).pkt_read.toNat → p i = (u.shift bit).pkt i := by
        obtain ⟨len, rfl, -⟩ := readHeader_eq read
        exact agree
      obtain ⟨p', stored, agreed⟩ := storeByte_withPkt (r := r) agree'
      have stored : ((u.withPkt p r).shift bit).storeByte = (u.shift bit).storeByte.withPkt p' r :=
        stored
      obtain ⟨pkt, count⟩ := checkEnd_pkt (u.shift bit).storeByte
      refine ⟨p', _, by rw [packetBit_some read, packetBit_some header, stored, checkEnd_withPkt],
        ?_, fun _ => by rwa [packetBit_some read, pkt, count]⟩
      constructor
      · rintro ⟨-, t, ht, ended⟩
        obtain rfl := Option.some.inj (header.symm.trans ht)
        rw [stored] at ended
        exact ⟨state, u, read, ended⟩
      · rintro ⟨-, t, ht, ended⟩
        obtain rfl := Option.some.inj (read.symm.trans ht)
        refine ⟨state', _, header, ?_⟩
        rw [stored]
        exact ended

/-- Two states that are alike stay alike, and flag the same bytes. -/
theorem sim_putBitMac (sim : Sim s t) (bit : Bool) :
    Sim (putBitMac s bit) (putBitMac t bit) ∧ (t.Ends bit ↔ s.Ends bit) ∧
      (s.Ends bit → ∀ i, i < (putBitMac s bit).pkt_read.toNat →
        (putBitMac t bit).pkt i = (putBitMac s bit).pkt i) := by
  obtain ⟨p, r, rfl, agree⟩ := sim
  cases state : s.mstate with
  | idle =>
      have state' : (s.withPkt p r).mstate = .idle := state
      rw [putBitMac_idle state, putBitMac_idle state', idleBit_withPkt]
      refine ⟨⟨p, r, rfl, fun packet => absurd packet (idleBit_not_packet state bit)⟩, ?_, ?_⟩
      · simp [Mac.Ends, state, state']
      · rintro ⟨packet, -⟩
        exact absurd (state.symm.trans packet) (by decide)
  | sync =>
      have state' : (s.withPkt p r).mstate = .sync := state
      rw [putBitMac_sync state, putBitMac_sync state', syncBit_withPkt]
      refine ⟨⟨p, r, rfl, fun packet i hi => ?_⟩, ?_, ?_⟩
      · rw [syncBit_packet state packet] at hi
        exact absurd hi (by simp)
      · simp [Mac.Ends, state, state']
      · rintro ⟨packet, -⟩
        exact absurd (state.symm.trans packet) (by decide)
  | packet =>
      have state' : (s.withPkt p r).mstate = .packet := state
      obtain ⟨p', r', result, ends, agreed⟩ := sim_packetBit (r := r) state bit (agree state)
      rw [putBitMac_packet state, putBitMac_packet state', result]
      exact ⟨⟨p', r', rfl, fun packet => agreed (.inl packet)⟩, ends, fun h => agreed (.inr h)⟩

theorem sim_refl (s : Mac) (r : Bool) : Sim s { s with pktReady := r } :=
  ⟨s.pkt, r, rfl, fun _ _ _ => rfl⟩

theorem setsReady_iff (s : Mac) (bit : Bool) : SetsReady s bit ↔ s.Ends bit := by
  rw [SetsReady, pktReady_putBitMac, (sim_putBitMac (sim_refl s false) bit).2.1]
  simp

end Sim

/-! ### The way to the next packet -/

/-- A lower bound on the bits until `MAC_PACKET` is entered, whatever they are. -/
def Mac.bitsToPacket (s : Mac) : Int :=
  match s.mstate with
  | .idle => 56 - min 33 s.idle_zeros.toNat
  | .sync => s.g_bitpos + 8 * (2 - s.sync_count.toNat : Nat)
  | .packet => 0

section Progress

variable {s : Mac}

theorem bitsToPacket_idle (state : s.mstate = .idle) :
    s.bitsToPacket = 56 - min 33 s.idle_zeros.toNat := by
  rw [Mac.bitsToPacket, state]

theorem bitsToPacket_sync (state : s.mstate = .sync) :
    s.bitsToPacket = s.g_bitpos + 8 * (2 - s.sync_count.toNat : Nat) := by
  rw [Mac.bitsToPacket, state]

theorem bitsToPacket_packet (state : s.mstate = .packet) : s.bitsToPacket = 0 := by
  rw [Mac.bitsToPacket, state]

theorem not_packet_of_pos (pos : 0 < s.bitsToPacket) : s.mstate ≠ .packet := by
  intro state
  rw [bitsToPacket_packet state] at pos
  omega

theorem bitsToPacket_idleBit (state : s.mstate = .idle) (bit : Bool) :
    s.bitsToPacket ≤ (s.idleBit bit).bitsToPacket + 1 := by
  have counted : ∀ z, min 33 z.toNat ≤ min 33 s.idle_zeros.toNat + 1 →
      s.bitsToPacket ≤ Mac.bitsToPacket { s with idle_zeros := z } + 1 := by
    intro z hz
    rw [bitsToPacket_idle state, bitsToPacket_idle (s := { s with idle_zeros := z }) state]
    change _ ≤ 56 - ((min 33 z.toNat : Nat) : Int) + 1
    omega
  unfold Mac.idleBit
  split_ifs with enough one below one
  · rw [idle_zeros_lt] at enough
    rw [bitsToPacket_idle state, bitsToPacket_sync rfl]
    change _ ≤ (6 + 8 * ((2 - 0 : Nat) : Int)) + 1
    omega
  · refine counted _ ?_
    rw [idle_zeros_succ (idle_zeros_below.mp below)]
    omega
  · omega
  · refine counted 0 ?_
    change min 33 0 ≤ _
    omega
  · rw [idle_zeros_lt] at enough
    refine counted _ ?_
    rw [idle_zeros_succ (by omega)]
    omega

theorem bitsToPacket_syncBit (state : s.mstate = .sync) (bit : Bool) :
    s.bitsToPacket ≤ (s.syncBit bit).bitsToPacket + 1 := by
  have left : (s.shift bit).g_bitpos = s.g_bitpos - 1 := rfl
  simp only [Mac.syncBit]
  split_ifs with more zero
  · rw [bitsToPacket_sync state, bitsToPacket_sync (s := s.shift bit) state, left]
    change _ ≤ _ + 8 * ((2 - s.sync_count.toNat : Nat) : Int) + 1
    omega
  · rw [bitsToPacket_sync state, bitsToPacket_idle rfl]
    change _ ≤ 56 - ((min 33 8 : Nat) : Int) + 1
    omega
  · have succ : (s.sync_count + 1).toNat = (s.sync_count.toNat + 1) % 256 := UInt8.toNat_add _ _
    have lt := s.sync_count.toNat_lt
    unfold Mac.matchSync
    split_ifs with third sync
    · have third : 3 ≤ (s.sync_count + 1).toNat := UInt8.le_iff_toNat_le.mp third
      rw [bitsToPacket_sync state, bitsToPacket_packet rfl]
      omega
    · rw [bitsToPacket_sync state, bitsToPacket_idle rfl]
      change _ ≤ 56 - ((min 33 0 : Nat) : Int) + 1
      omega
    · rw [bitsToPacket_sync state,
        bitsToPacket_sync (s := (s.shift bit).pushSync.nextByte) state]
      change _ ≤ 8 + 8 * ((2 - (s.sync_count + 1).toNat : Nat) : Int) + 1
      omega

theorem bitsToPacket_make_idle (s : Mac) : s.make_idle.bitsToPacket = 56 := by
  rw [bitsToPacket_idle rfl]
  rfl

theorem bitsToPacket_packetBit (state : s.mstate = .packet) (bit : Bool) :
    0 ≤ (s.packetBit bit).bitsToPacket := by
  cases read : s.readHeader with
  | none =>
      rw [packetBit_none read, bitsToPacket_make_idle]
      omega
  | some t =>
      obtain ⟨len, rfl, -⟩ := readHeader_eq read
      rw [packetBit_some read, Mac.checkEnd]
      split_ifs
      · rw [bitsToPacket_make_idle]
        omega
      · exact (bitsToPacket_packet
          ((mstate_storeByte { s with pkt_len := len } bit).trans state)).ge

/-- A packet that ends leaves all of the way to the next one. -/
theorem bitsToPacket_of_ends {bit : Bool} (ends : s.Ends bit) :
    (putBitMac s bit).bitsToPacket = 56 := by
  obtain ⟨state, t, read, ended⟩ := ends
  rw [putBitMac_packet state, packetBit_some read, Mac.checkEnd, if_pos ended,
    bitsToPacket_make_idle]

/-- Each bit comes at most one nearer to a packet. -/
theorem bitsToPacket_putBitMac (s : Mac) (bit : Bool) :
    s.bitsToPacket ≤ (putBitMac s bit).bitsToPacket + 1 := by
  cases state : s.mstate with
  | idle =>
      rw [putBitMac_idle state]
      exact bitsToPacket_idleBit state bit
  | sync =>
      rw [putBitMac_sync state]
      exact bitsToPacket_syncBit state bit
  | packet =>
      rw [putBitMac_packet state, bitsToPacket_packet state]
      have := bitsToPacket_packetBit state bit
      omega

/-- Outside a packet the buffer and the flag are left alone. -/
theorem putBitMac_untouched (outside : s.mstate ≠ .packet) (bit : Bool) :
    (putBitMac s bit).pkt = s.pkt ∧ (putBitMac s bit).pktReady = s.pktReady := by
  cases state : s.mstate with
  | idle =>
      rw [putBitMac_idle state]
      exact ⟨pkt_idleBit s bit, pktReady_idleBit s bit⟩
  | sync =>
      rw [putBitMac_sync state]
      exact ⟨pkt_syncBit s bit, pktReady_syncBit s bit⟩
  | packet => exact absurd state outside

/-- Too few bits for another packet leave the buffer and the flag alone. -/
theorem feed_untouched {bits : List Bool} (few : bits.length < s.bitsToPacket) :
    (feed s bits).mstate ≠ .packet ∧ (feed s bits).pkt = s.pkt ∧
      (feed s bits).pktReady = s.pktReady := by
  induction bits generalizing s with
  | nil => exact ⟨not_packet_of_pos (by simpa using few), rfl, rfl⟩
  | cons bit bits ih =>
      rw [List.length_cons] at few
      have step := bitsToPacket_putBitMac s bit
      obtain ⟨pkt, ready⟩ := putBitMac_untouched (not_packet_of_pos (s := s) (by omega)) bit
      obtain ⟨outside, pkt', ready'⟩ := ih (s := putBitMac s bit) (by omega)
      exact ⟨outside, pkt'.trans pkt, ready'.trans ready⟩

end Progress

end LtcOs.Demod
