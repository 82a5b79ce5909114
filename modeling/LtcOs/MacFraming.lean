import LtcOs.Mac

/-!
The framing of the MAC layer.

The state of `putBitMac` says at any time how the bits seen so far end (`Tracks`).
One bit keeps this description true, so a packet can only be flagged at the end of a
frame; and a frame leads from `MAC_IDLE` to the flag byte by byte.
-/

namespace LtcOs.Demod

open LtcOs.Memory LtcOs.Bits LtcOs.Updater

/-! ### What the state says about the bits so far -/

/-- The bytes of the packet received so far. -/
def Mac.received (s : Mac) : List UInt8 := (List.range s.pkt_read.toNat).map s.pkt

/-- The sync characters received so far. -/
def Mac.syncs (s : Mac) : List UInt8 := (List.range s.sync_count.toNat).map s.mac_sync

/-- The shift register holds the bits `ks` of an unfinished byte. -/
structure InByte (s : Mac) (ks : List Bool) : Prop where
  byte : s.g_curbyte = pack ks
  left : s.g_bitpos + ks.length = 8
  lt : ks.length < 8

/-- The length is unknown up to the first bit after the third byte. -/
def LengthKnown (s : Mac) (ks : List Bool) : Prop :=
  (s.pkt_len = 0 ∧ (s.pkt_read.toNat < 3 ∨ (s.pkt_read.toNat = 3 ∧ ks = []))) ∨
    (Mac.headerLength s.pkt = some s.pkt_len ∧ 3 ≤ s.pkt_read.toNat ∧ s.pkt_read < s.pkt_len)

/-- The bits before a packet: at least 33 zeros, of which the last belongs to the
first sync character, and the three sync characters. -/
def Preamble (h : List Bool) : Prop :=
  ∃ before n, 32 ≤ n ∧ h = before ++ List.replicate n false ++ bytesBits [0xAA, 0x55, 0x42]

/-- In `MAC_IDLE`: the zeros counted are there. -/
def TracksIdle (s : Mac) (h : List Bool) : Prop :=
  ∃ before, h = before ++ List.replicate s.idle_zeros.toNat false

/-- In `MAC_SYNC`: zeros, the sync characters so far, and an unfinished one. -/
def TracksSync (s : Mac) (h : List Bool) : Prop :=
  ∃ before n ks, 32 ≤ n ∧ h = before ++ List.replicate n false ++ bytesBits s.syncs ++ ks ∧
    InByte s ks ∧ s.sync_count.toNat < 3

/-- In `MAC_PACKET`: a preamble, the bytes so far, and an unfinished one. -/
def TracksPacket (s : Mac) (h : List Bool) : Prop :=
  ∃ before ks, Preamble before ∧ h = before ++ bytesBits s.received ++ ks ∧ InByte s ks ∧
    LengthKnown s ks

/-- How the history `h` ends, by the state it led to. -/
structure Tracks (s : Mac) (h : List Bool) : Prop where
  idle : s.mstate = .idle → TracksIdle s h
  sync : s.mstate = .sync → TracksSync s h
  packet : s.mstate = .packet → TracksPacket s h

section Bytes

variable {s : Mac} {bit : Bool} {ks : List Bool}

theorem map_range_update (f : Mem) (n : Nat) (v : UInt8) :
    (List.range (n + 1)).map (Function.update f n v) = (List.range n).map f ++ [v] := by
  rw [List.range_succ, List.map_append]
  congr 1
  · apply List.map_congr_left
    intro i hi
    rw [List.mem_range] at hi
    exact Function.update_of_ne (by omega) _ _
  · simp

theorem InByte.shift_byte (h : InByte s ks) : (s.shift bit).g_curbyte = pack (ks ++ [bit]) := by
  rw [pack_append, ← h.byte]
  rfl

theorem InByte.shift_left (h : InByte s ks) (bit : Bool) :
    (s.shift bit).g_bitpos + (ks ++ [bit]).length = 8 := by
  have := h.left
  simp only [Mac.shift, List.length_append, List.length_singleton]
  omega

/-- An unfinished byte. -/
theorem InByte.shift (h : InByte s ks) (more : (s.shift bit).g_bitpos ≠ 0) :
    InByte (s.shift bit) (ks ++ [bit]) := by
  have left := h.shift_left bit
  have lt := h.lt
  refine ⟨h.shift_byte, left, ?_⟩
  rw [List.length_append, List.length_singleton] at left ⊢
  omega

/-- A finished byte. -/
theorem InByte.bits (h : InByte s ks) (done : (s.shift bit).g_bitpos = 0) :
    byteBits (s.shift bit).g_curbyte = ks ++ [bit] := by
  have left := h.shift_left bit
  rw [h.shift_byte, byteBits_pack (by omega)]

theorem inByte_empty {s : Mac} (byte : s.g_curbyte = 0) (left : s.g_bitpos = 8) : InByte s [] :=
  ⟨byte, by simp [left], by simp⟩

end Bytes

section Steps

variable {s : Mac} {bit : Bool} {h : List Bool}

theorem tracks_of_idle (state : s.mstate = .idle) (tracks : TracksIdle s h) : Tracks s h :=
  ⟨fun _ => tracks, fun other => by simp [state] at other, fun other => by simp [state] at other⟩

theorem tracks_of_sync (state : s.mstate = .sync) (tracks : TracksSync s h) : Tracks s h :=
  ⟨fun other => by simp [state] at other, fun _ => tracks, fun other => by simp [state] at other⟩

theorem tracks_of_packet (state : s.mstate = .packet) (tracks : TracksPacket s h) : Tracks s h :=
  ⟨fun other => by simp [state] at other, fun other => by simp [state] at other, fun _ => tracks⟩

theorem tracks_make_idle (s : Mac) (h : List Bool) : Tracks s.make_idle h :=
  tracks_of_idle rfl ⟨h, by simp [Mac.make_idle]⟩

theorem tracks_idleBit (state : s.mstate = .idle) (tracks : TracksIdle s h) :
    Tracks (s.idleBit bit) (h ++ [bit]) := by
  obtain ⟨before, rfl⟩ := tracks
  have more : s.idle_zeros.toNat < 255 → Tracks { s with idle_zeros := s.idle_zeros + 1 }
      (before ++ List.replicate s.idle_zeros.toNat false ++ [false]) := by
    intro lt
    refine tracks_of_idle state ⟨before, ?_⟩
    rw [idle_zeros_succ lt, List.replicate_succ', List.append_assoc]
  unfold Mac.idleBit
  split_ifs with enough one below one
  · -- the last zero and this one are the first two bits of a byte
    rw [idle_zeros_lt] at enough
    obtain ⟨n, hn⟩ : ∃ n, s.idle_zeros.toNat = n + 1 := ⟨s.idle_zeros.toNat - 1, by omega⟩
    refine tracks_of_sync rfl ⟨before, n, [false, true], by omega, ?_, ⟨rfl, rfl, by simp⟩, by simp⟩
    rw [hn, one, List.replicate_succ']
    simp [Mac.syncs]
  · obtain rfl : bit = false := by simpa using one
    exact more (idle_zeros_below.mp below)
  · -- the counter is saturated
    obtain rfl : bit = false := by simpa using one
    refine tracks_of_idle state ⟨before ++ [false], ?_⟩
    rw [List.append_assoc, List.append_assoc, ← List.replicate_succ', List.replicate_succ]
    rfl
  · exact tracks_of_idle state ⟨before ++ List.replicate s.idle_zeros.toNat false ++ [bit], by simp⟩
  · obtain rfl : bit = false := by simpa using one
    rw [idle_zeros_lt] at enough
    exact more (by omega)

theorem syncs_pushSync (s : Mac) (count : s.sync_count.toNat < 3) :
    s.pushSync.syncs = s.syncs ++ [s.g_curbyte] := by
  unfold Mac.syncs
  change (List.range (s.sync_count + 1).toNat).map _ = _
  rw [sync_count_succ count]
  exact map_range_update _ _ _

theorem tracks_matchSync (before : List Bool) {n : Nat} (hn : 32 ≤ n)
    (count : s.sync_count.toNat ≤ 3) (state : s.mstate = .sync)
    (history : h = before ++ List.replicate n false ++ bytesBits s.syncs) :
    Tracks s.matchSync.nextByte h := by
  unfold Mac.matchSync
  split_ifs with third sync
  · -- all three characters are right
    have three : s.sync_count.toNat = 3 := by
      have : 3 ≤ s.sync_count.toNat := UInt8.le_iff_toNat_le.mp third
      omega
    have syncs : s.syncs = [0xAA, 0x55, 0x42] := by
      unfold Mac.syncs
      rw [three, ← sync.1, ← sync.2.1, ← sync.2.2]
      rfl
    refine tracks_of_packet rfl ⟨h, [], ⟨before, n, hn, by rw [history, syncs]⟩, ?_,
      inByte_empty rfl rfl, .inl ⟨rfl, .inl (show 0 < 3 by omega)⟩⟩
    exact (List.append_nil h).symm.trans (List.append_nil _).symm
  · exact tracks_of_idle rfl ⟨h, (List.append_nil h).symm⟩
  · have more : s.sync_count.toNat < 3 := UInt8.lt_iff_toNat_lt.mp (UInt8.not_le.mp third)
    exact tracks_of_sync state ⟨before, n, [], hn, by rw [history, List.append_nil]; rfl,
      inByte_empty rfl rfl, more⟩

theorem tracks_syncBit (state : s.mstate = .sync) (tracks : TracksSync s h) :
    Tracks (s.syncBit bit) (h ++ [bit]) := by
  obtain ⟨before, n, ks, hn, rfl, inByte, count⟩ := tracks
  simp only [Mac.syncBit]
  split_ifs with more zero
  · refine tracks_of_sync state ⟨before, n, ks ++ [bit], hn, ?_, inByte.shift more, count⟩
    rw [List.append_assoc _ ks]
    rfl
  · -- eight zeros in a row
    have bits := inByte.bits (not_not.mp more)
    rw [zero] at bits
    refine tracks_of_idle rfl ⟨before ++ List.replicate n false ++ bytesBits s.syncs, ?_⟩
    rw [List.append_assoc _ ks, ← bits]
    rfl
  · refine tracks_matchSync before hn ?_ state ?_
    · exact (sync_count_succ count).trans_le (by omega)
    · rw [syncs_pushSync (s.shift bit) count, bytesBits_append, bytesBits_cons,
        inByte.bits (not_not.mp more)]
      simp [Mac.syncs, Mac.shift]

theorem headerLength_update {pkt : Packet} {n : Nat} {v : UInt8} (hn : 3 ≤ n) :
    Mac.headerLength (Function.update pkt n v) = Mac.headerLength pkt := by
  have version : Packet.version (Function.update pkt n v) = pkt.version :=
    Function.update_of_ne (show (0 : Nat) ≠ n by omega) _ _
  have type : Packet.type (Function.update pkt n v) = pkt.type :=
    Function.update_of_ne (show (1 : Nat) ≠ n by omega) _ _
  rw [Mac.headerLength, version, type]
  rfl

/-- After `readHeader` the length is unknown only while the header is read. -/
theorem readHeader_some {t : Mac} {ks : List Bool} (known : LengthKnown s ks)
    (read : s.readHeader = some t) :
    ∃ len, t = { s with pkt_len := len } ∧
      ((len = 0 ∧ s.pkt_read.toNat < 3) ∨
        (Mac.headerLength s.pkt = some len ∧ 3 ≤ s.pkt_read.toNat ∧ s.pkt_read < len)) := by
  have late : s.pkt_read > 2 ↔ 2 < s.pkt_read.toNat := UInt32.lt_iff_toNat_lt
  unfold Mac.readHeader at read
  split_ifs at read with pending
  · obtain ⟨len, announced, rfl⟩ := Option.map_eq_some_iff.mp read
    refine ⟨len, rfl, .inr ⟨announced, by have := late.mp pending.2; omega, ?_⟩⟩
    have three : s.pkt_read.toNat = 3 := by
      rcases known with ⟨-, lt | ⟨three, -⟩⟩ | ⟨length, -, -⟩
      · have := late.mp pending.2
        omega
      · exact three
      · rcases (headerLength_eq length).2 with ⟨-, len⟩ | ⟨-, len⟩ <;>
          exact absurd (pending.1.symm.trans len) (by decide)
    rw [UInt32.lt_iff_toNat_lt]
    rcases (headerLength_eq announced).2 with ⟨-, rfl⟩ | ⟨-, rfl⟩
    · change s.pkt_read.toNat < 32
      omega
    · change s.pkt_read.toNat < 264
      omega
  · obtain rfl := Option.some.inj read
    refine ⟨s.pkt_len, rfl, ?_⟩
    rcases known with ⟨zero, lt⟩ | known
    · refine .inl ⟨zero, ?_⟩
      have := mt late.mpr fun h => pending ⟨zero, h⟩
      omega
    · exact .inr known

theorem pkt_read_succ {n : UInt32} (lt : n.toNat < 264) : (n + 1).toNat = n.toNat + 1 := by
  rw [UInt32.toNat_add]
  change (n.toNat + 1) % 4294967296 = _
  omega

/-- The length is known, or the header is still being read, and the packet may
just have ended. -/
def LengthReached (s : Mac) (ks : List Bool) : Prop :=
  (s.pkt_len = 0 ∧ (s.pkt_read.toNat < 3 ∨ (s.pkt_read.toNat = 3 ∧ ks = []))) ∨
    (Mac.headerLength s.pkt = some s.pkt_len ∧ 3 ≤ s.pkt_read.toNat ∧
      (s.pkt_read < s.pkt_len ∨ (s.pkt_read = s.pkt_len ∧ ks = [])))

theorem pkt_read_small {pkt : Packet} {read len : UInt32}
    (known : Mac.headerLength pkt = some len) (lt : read < len) : read.toNat < 264 := by
  have := UInt32.lt_iff_toNat_lt.mp lt
  rcases (headerLength_eq known).2 with ⟨-, rfl⟩ | ⟨-, rfl⟩
  · change read.toNat < 32 at this
    omega
  · exact this

theorem received_storeByte (done : (s.shift bit).g_bitpos = 0) (small : s.pkt_read.toNat < 264) :
    (s.shift bit).storeByte.received = s.received ++ [(s.shift bit).g_curbyte] := by
  rw [Mac.storeByte, if_pos done]
  unfold Mac.received
  change (List.range (s.pkt_read + 1).toNat).map _ = _
  rw [pkt_read_succ small]
  exact map_range_update _ _ _

/-- One bit of a packet, up to the check for its end. -/
theorem storeByte_spec (bit : Bool) {before ks : List Bool} (inByte : InByte s ks)
    (history : h = before ++ bytesBits s.received ++ ks)
    (known : (s.pkt_len = 0 ∧ s.pkt_read.toNat < 3) ∨ (Mac.headerLength s.pkt = some s.pkt_len ∧
      3 ≤ s.pkt_read.toNat ∧ s.pkt_read < s.pkt_len)) :
    ∃ ks', h ++ [bit] = before ++ bytesBits (s.shift bit).storeByte.received ++ ks' ∧
      InByte (s.shift bit).storeByte ks' ∧ LengthReached (s.shift bit).storeByte ks' := by
  have appended : h ++ [bit] = before ++ bytesBits s.received ++ (ks ++ [bit]) := by
    rw [history, List.append_assoc _ ks]
  by_cases done : (s.shift bit).g_bitpos = 0
  · have small : s.pkt_read.toNat < 264 := by
      rcases known with ⟨-, lt⟩ | ⟨length, -, lt⟩
      · omega
      · exact pkt_read_small length lt
    have succ : (s.pkt_read + 1).toNat = s.pkt_read.toNat + 1 := pkt_read_succ small
    refine ⟨[], ?_, ?_⟩
    · rw [received_storeByte done small, bytesBits_append, bytesBits_cons, bytesBits_nil,
        List.append_nil, List.append_nil, inByte.bits done, appended, List.append_assoc]
    rw [Mac.storeByte, if_pos done]
    constructor
    · exact inByte_empty rfl rfl
    · rcases known with ⟨zero, lt⟩ | ⟨length, ge, lt⟩
      · refine .inl ⟨zero, ?_⟩
        change (s.pkt_read + 1).toNat < 3 ∨ (s.pkt_read + 1).toNat = 3 ∧ [] = []
        rw [succ]
        by_cases third : s.pkt_read.toNat + 1 = 3
        · exact .inr ⟨third, rfl⟩
        · exact .inl (by omega)
      · refine .inr ⟨?_, ?_, ?_⟩
        · exact (headerLength_update ge).trans length
        · change 3 ≤ (s.pkt_read + 1).toNat
          omega
        · change s.pkt_read + 1 < s.pkt_len ∨ s.pkt_read + 1 = s.pkt_len ∧ [] = []
          rw [UInt32.lt_iff_toNat_lt] at lt ⊢
          rw [← UInt32.toNat_inj, succ]
          by_cases last : s.pkt_read.toNat + 1 = s.pkt_len.toNat
          · exact .inr ⟨last, rfl⟩
          · exact .inl (by omega)
  · rw [Mac.storeByte, if_neg done]
    refine ⟨ks ++ [bit], appended, inByte.shift done, ?_⟩
    rcases known with ⟨zero, lt⟩ | ⟨length, ge, lt⟩
    · exact .inl ⟨zero, .inl lt⟩
    · exact .inr ⟨length, ge, .inl lt⟩

/-- A complete frame: a preamble, then a packet with a valid header and exactly
the length it announces. -/
def Frame (pkt : Packet) (h : List Bool) : Prop :=
  ∃ before len, Preamble before ∧ Mac.headerLength pkt = some len ∧
    h = before ++ bytesBits ((List.range len.toNat).map pkt)

/-- The end of a packet: it is flagged, or `MAC_PACKET` goes on. -/
theorem checkEnd_spec {before ks : List Bool} (state : s.mstate = .packet)
    (preamble : Preamble before) (history : h = before ++ bytesBits s.received ++ ks)
    (inByte : InByte s ks) (reached : LengthReached s ks) :
    Tracks s.checkEnd h ∧ (s.Ended → Frame s.checkEnd.pkt h) := by
  unfold Mac.checkEnd
  split_ifs with finished
  · refine ⟨tracks_make_idle _ _, fun _ => ?_⟩
    rcases reached with ⟨zero, -⟩ | ⟨length, -, lt | ⟨last, rfl⟩⟩
    · exact absurd zero finished.1
    · exact absurd lt (UInt32.not_lt.mpr finished.2)
    · refine ⟨before, s.pkt_len, preamble, length, ?_⟩
      rw [history, List.append_nil, Mac.received, last]
      rfl
  · refine ⟨tracks_of_packet state ⟨before, ks, preamble, history, inByte, ?_⟩,
      fun ended => absurd ended finished⟩
    rcases reached with unknown | ⟨length, ge, lt | ⟨last, -⟩⟩
    · exact .inl unknown
    · exact .inr ⟨length, ge, lt⟩
    · refine absurd ⟨?_, ?_⟩ finished
      · rcases (headerLength_eq length).2 with ⟨-, len⟩ | ⟨-, len⟩ <;> rw [len] <;> decide
      · rw [last]
        exact UInt32.le_refl _

theorem tracks_packetBit (state : s.mstate = .packet) (tracks : TracksPacket s h) :
    Tracks (s.packetBit bit) (h ++ [bit]) ∧
      (s.Ends bit → Frame (s.packetBit bit).pkt (h ++ [bit])) := by
  obtain ⟨before, ks, preamble, history, inByte, known⟩ := tracks
  cases read : s.readHeader with
  | none =>
      rw [packetBit_none read]
      refine ⟨tracks_make_idle _ _, ?_⟩
      rintro ⟨-, t, ht, -⟩
      exact absurd (read.symm.trans ht) (by simp)
  | some t =>
      obtain ⟨len, rfl, length⟩ := readHeader_some known read
      obtain ⟨ks', history', inByte', reached⟩ :=
        storeByte_spec bit (s := { s with pkt_len := len }) ⟨inByte.byte, inByte.left, inByte.lt⟩
          history length
      obtain ⟨tracks, frame⟩ :=
        checkEnd_spec ((mstate_storeByte { s with pkt_len := len } bit).trans state) preamble
          history' inByte' reached
      rw [packetBit_some read]
      refine ⟨tracks, ?_⟩
      rintro ⟨-, t, ht, ended⟩
      obtain rfl := Option.some.inj (read.symm.trans ht)
      exact frame ended

/-- One bit: the state goes on describing the end of the history, and a packet
ends only at the end of a frame. -/
theorem tracks_putBitMac (tracks : Tracks s h) :
    Tracks (putBitMac s bit) (h ++ [bit]) ∧
      (s.Ends bit → Frame (putBitMac s bit).pkt (h ++ [bit])) := by
  cases state : s.mstate with
  | idle =>
      rw [putBitMac_idle state]
      exact ⟨tracks_idleBit state (tracks.idle state),
        fun ends => by simp [Mac.Ends, state] at ends⟩
  | sync =>
      rw [putBitMac_sync state]
      exact ⟨tracks_syncBit state (tracks.sync state),
        fun ends => by simp [Mac.Ends, state] at ends⟩
  | packet =>
      rw [putBitMac_packet state]
      exact tracks_packetBit state (tracks.packet state)

end Steps

/-! ### A frame is recognised -/

/-- A packet as it is sent: version, type, and the length for the type. -/
structure IsPacket (bytes : List UInt8) : Prop where
  version : bytes[0]? = some PKT_VER_1 ∨ bytes[0]? = some PKT_VER_2
  length : (bytes[1]? = some PKTTYPE_CTRL ∧ bytes.length = CTRL_LEN) ∨
    (bytes[1]? = some PKTTYPE_DATA ∧ bytes.length = DATA_LEN)

/-- The bits lead from `s` to `t`, and the flag is clear before each of them. -/
inductive Quietly : Mac → List Bool → Mac → Prop where
  | nil (s : Mac) : Quietly s [] s
  | cons {s t : Mac} {bit : Bool} {bits : List Bool} (clear : s.pktReady = false)
      (rest : Quietly (putBitMac s bit) bits t) : Quietly s (bit :: bits) t

namespace Quietly

variable {s t u : Mac} {xs ys : List Bool}

theorem feed_eq (h : Quietly s xs t) : feed s xs = t := by
  induction h with
  | nil => rfl
  | cons _ _ ih => exact ih

theorem trans (h : Quietly s xs t) (h' : Quietly t ys u) : Quietly s (xs ++ ys) u := by
  induction h with
  | nil => exact h'
  | cons clear _ ih => exact .cons clear (ih h')

theorem clear_before (h : Quietly s xs t) {k : Nat} (hk : k < xs.length) :
    (feed s (xs.take k)).pktReady = false := by
  induction h generalizing k with
  | nil => simp at hk
  | cons clear _ ih =>
      cases k with
      | zero => exact clear
      | succ k => exact ih (by simpa using hk)

end Quietly

section Recognised

variable {s : Mac} {bit : Bool} {ks : List Bool}

/-- Zeros are counted, up to 33 at least. -/
theorem quietly_zeros (state : s.mstate = .idle) (clear : s.pktReady = false) (k : Nat) :
    ∃ z : UInt8, Quietly s (List.replicate k false) { s with idle_zeros := z } ∧
      min 33 (s.idle_zeros.toNat + k) ≤ z.toNat := by
  induction k generalizing s with
  | zero => exact ⟨s.idle_zeros, .nil s, by omega⟩
  | succ k ih =>
      obtain ⟨z₁, first, count⟩ : ∃ z₁ : UInt8, putBitMac s false = { s with idle_zeros := z₁ } ∧
          min 33 (s.idle_zeros.toNat + 1) ≤ z₁.toNat := by
        rw [putBitMac_idle state]
        simp only [Mac.idleBit, Bool.false_eq_true, if_false]
        split_ifs with enough below
        · refine ⟨_, rfl, ?_⟩
          rw [idle_zeros_succ (idle_zeros_below.mp below)]
          omega
        · rw [idle_zeros_lt] at enough
          exact ⟨s.idle_zeros, rfl, by omega⟩
        · rw [idle_zeros_lt] at enough
          refine ⟨_, rfl, ?_⟩
          rw [idle_zeros_succ (by omega)]
          omega
      obtain ⟨z, rest, total⟩ := ih (s := { s with idle_zeros := z₁ }) state clear
      refine ⟨z, ?_, ?_⟩
      · rw [List.replicate_succ]
        exact .cons clear (by rw [first]; exact rest)
      · change min 33 (z₁.toNat + k) ≤ z.toNat at total
        omega

/-- The shift register full with the byte `b`. -/
def Mac.withByte (s : Mac) (b : UInt8) : Mac := { s with g_curbyte := b, g_bitpos := 0 }

theorem shift_last {b : UInt8} (inByte : InByte s ks) (bits : ks ++ [bit] = byteBits b) :
    s.shift bit = s.withByte b := by
  have byte : (s.shift bit).g_curbyte = b := by rw [inByte.shift_byte, bits, pack_byteBits]
  have left : (s.shift bit).g_bitpos = 0 := by
    have := inByte.shift_left bit
    rw [bits, length_byteBits] at this
    omega
  rw [Mac.withByte, ← byte, ← left]
  rfl

theorem shift_more {b : UInt8} {bit' : Bool} {rest : List Bool} (inByte : InByte s ks)
    (bits : ks ++ bit :: bit' :: rest = byteBits b) : (s.shift bit).g_bitpos ≠ 0 := by
  have left := inByte.shift_left bit
  have length := congrArg List.length bits
  rw [List.length_append] at left length
  simp only [List.length_cons, List.length_nil, length_byteBits] at left length
  omega

/-- A sync character other than zero is tallied. -/
theorem quietly_sync {b : UInt8} (ks : List Bool) (state : s.mstate = .sync)
    (clear : s.pktReady = false) (nonzero : b ≠ 0) (inByte : InByte s ks) {rest : List Bool}
    (some : rest ≠ []) (bits : ks ++ rest = byteBits b) :
    Quietly s rest (s.withByte b).pushSync.matchSync.nextByte := by
  induction rest generalizing s ks with
  | nil => exact absurd rfl some
  | cons bit rest ih =>
      refine .cons clear ?_
      rw [putBitMac_sync state]
      cases rest with
      | nil =>
          have last : s.syncBit bit = (s.withByte b).pushSync.matchSync.nextByte := by
            simp only [Mac.syncBit]
            rw [shift_last inByte bits, if_neg (by simp [Mac.withByte]),
              if_neg (show (s.withByte b).g_curbyte ≠ 0 from nonzero)]
          rw [last]
          exact .nil _
      | cons bit' rest =>
          have more := shift_more inByte bits
          have step : s.syncBit bit = s.shift bit := by
            simp only [Mac.syncBit]
            rw [if_pos more]
          rw [step]
          exact ih (s := s.shift bit) (ks ++ [bit]) state clear (inByte.shift more) (by simp)
            (by simpa using bits)

/-- Between two bytes of the packet `bytes`, of which `n` are received. -/
structure AtByte (bytes : List UInt8) (n : Nat) (s : Mac) : Prop where
  state : s.mstate = .packet
  clear : s.pktReady = false
  inByte : InByte s []
  read : s.pkt_read.toNat = n
  got : ∀ i, i < n → bytes[i]? = some (s.pkt i)
  len : (n ≤ 3 ∧ s.pkt_len = 0) ∨ (3 ≤ n ∧ s.pkt_len.toNat = bytes.length)

/-- The packet is complete and flagged. -/
structure Received (bytes : List UInt8) (s : Mac) : Prop where
  state : s.mstate = .idle
  zeros : s.idle_zeros = 0
  ready : s.pktReady = true
  got : ∀ i, i < bytes.length → bytes[i]? = some (s.pkt i)

theorem IsPacket.length_le {bytes : List UInt8} (packet : IsPacket bytes) :
    3 < bytes.length ∧ bytes.length ≤ 264 := by
  rcases packet.length with ⟨-, h⟩ | ⟨-, h⟩ <;> rw [h] <;> decide

theorem IsPacket.headerLength {bytes : List UInt8} (packet : IsPacket bytes) {pkt : Packet}
    {n : Nat} (hn : 3 ≤ n) (got : ∀ i, i < n → bytes[i]? = some (pkt i)) :
    ∃ len : UInt32, Mac.headerLength pkt = some len ∧ len.toNat = bytes.length := by
  have version : pkt.version = PKT_VER_1 ∨ pkt.version = PKT_VER_2 := by
    have := got 0 (by omega)
    exact packet.version.imp (fun h => Option.some.inj (this.symm.trans h))
      fun h => Option.some.inj (this.symm.trans h)
  have known : ¬ (pkt.version ≠ PKT_VER_1 ∧ pkt.version ≠ PKT_VER_2) := by tauto
  have type := got 1 (by omega)
  rw [Mac.headerLength, if_neg known]
  rcases packet.length with ⟨ctrl, length⟩ | ⟨data, length⟩
  · have ctrl : pkt.type = PKTTYPE_CTRL := Option.some.inj (type.symm.trans ctrl)
    exact ⟨32, if_pos ctrl, length.symm⟩
  · have data : pkt.type = PKTTYPE_DATA := Option.some.inj (type.symm.trans data)
    refine ⟨264, ?_, length.symm⟩
    rw [if_neg (by rw [data]; decide), if_pos data]

/-- A byte of the packet is stored. -/
theorem quietly_packet {b : UInt8} (state : s.mstate = .packet) (clear : s.pktReady = false)
    (settled : ¬ (s.pkt_len = 0 ∧ s.pkt_read > 2)) (going : ¬ s.Ended) (inByte : InByte s ks)
    {rest : List Bool} (some : rest ≠ []) (bits : ks ++ rest = byteBits b) :
    Quietly s rest (s.withByte b).storeByte.checkEnd := by
  induction rest generalizing s ks with
  | nil => exact absurd rfl some
  | cons bit rest ih =>
      refine .cons clear ?_
      rw [putBitMac_packet state, packetBit_some (if_neg settled)]
      cases rest with
      | nil =>
          rw [shift_last inByte bits]
          exact .nil _
      | cons bit' rest =>
          have more := shift_more inByte bits
          have step : (s.shift bit).storeByte.checkEnd = s.shift bit := by
            rw [Mac.storeByte, if_neg more]
            exact if_neg going
          rw [step]
          exact ih (s := s.shift bit) state clear settled going (inByte.shift more) (by simp)
            (by simpa using bits)

/-- The header decision is taken with the first bit of the next byte. -/
theorem quietly_readHeader {t u : Mac} {bits : List Bool} (state : s.mstate = .packet)
    (read : s.readHeader = some t) (some : bits ≠ []) (h : Quietly t bits u) :
    Quietly s bits u := by
  obtain ⟨len, rfl, settled⟩ := readHeader_eq read
  cases h with
  | nil => exact absurd rfl some
  | cons clear rest =>
      refine .cons clear ?_
      rw [putBitMac_packet state, packetBit_some read]
      rwa [putBitMac_packet (show Mac.mstate { s with pkt_len := len } = .packet from state),
        packetBit_some (s := { s with pkt_len := len }) (if_neg settled)] at rest

theorem byteBits_ne_nil (b : UInt8) : byteBits b ≠ [] := by
  intro h
  have := length_byteBits b
  rw [h] at this
  exact absurd this (by simp)

theorem AtByte.readHeader {bytes : List UInt8} {n : Nat} (packet : IsPacket bytes)
    (here : AtByte bytes n s) :
    ∃ len : UInt32, s.readHeader = some { s with pkt_len := len } ∧
      ((n < 3 ∧ len = 0) ∨ (3 ≤ n ∧ len.toNat = bytes.length)) := by
  have late : s.pkt_read > 2 ↔ 2 < n := by
    rw [← here.read]
    exact UInt32.lt_iff_toNat_lt
  obtain ⟨long, -⟩ := packet.length_le
  by_cases pending : s.pkt_len = 0 ∧ s.pkt_read > 2
  · have ge := late.mp pending.2
    obtain ⟨len, known, length⟩ := packet.headerLength (n := n) (by omega) here.got
    refine ⟨len, ?_, .inr ⟨by omega, length⟩⟩
    rw [Mac.readHeader, if_pos pending, known]
    rfl
  · refine ⟨s.pkt_len, if_neg pending, ?_⟩
    rcases here.len with ⟨small, zero⟩ | known
    · refine .inl ⟨?_, zero⟩
      have := mt late.mpr fun h => pending ⟨zero, h⟩
      omega
    · exact .inr known

/-- One byte of a packet. -/
theorem quietly_byte {bytes : List UInt8} {n : Nat} {b : UInt8} (packet : IsPacket bytes)
    (here : AtByte bytes n s) (next : bytes[n]? = some b) :
    ∃ t, Quietly s (byteBits b) t ∧ (n + 1 < bytes.length → AtByte bytes (n + 1) t) ∧
      (n + 1 = bytes.length → Received bytes t) := by
  obtain ⟨long, le⟩ := packet.length_le
  have inside : n < bytes.length := (List.getElem?_eq_some_iff.mp next).1
  obtain ⟨len, read, known⟩ := here.readHeader packet
  obtain ⟨_, same, settled⟩ := readHeader_eq read
  obtain rfl : len = _ := congrArg Mac.pkt_len same
  have count : (s.pkt_read + 1).toNat = n + 1 := by
    rw [pkt_read_succ (by rw [here.read]; omega), here.read]
  have going : ¬ Mac.Ended { s with pkt_len := len } := by
    rintro ⟨nonzero, ended⟩
    have ended : len.toNat ≤ s.pkt_read.toNat := UInt32.le_iff_toNat_le.mp ended
    rw [here.read] at ended
    rcases known with ⟨-, zero⟩ | ⟨-, length⟩
    · exact nonzero zero
    · omega
  have stored := quietly_packet (s := { s with pkt_len := len }) here.state here.clear settled going
    ⟨here.inByte.byte, here.inByte.left, here.inByte.lt⟩ (byteBits_ne_nil b) (List.nil_append _)
  have got : ∀ i, i < n + 1 → bytes[i]? = some (Function.update s.pkt s.pkt_read.toNat b i) := by
    intro i hi
    rw [here.read]
    by_cases last : i = n
    · rw [last, Function.update_self, next]
    · rw [Function.update_of_ne last, here.got i (by omega)]
  refine ⟨_, quietly_readHeader here.state read (byteBits_ne_nil b) stored, ?_, ?_⟩
  · intro more
    have going' : ¬ (Mac.withByte { s with pkt_len := len } b).storeByte.Ended := by
      rintro ⟨nonzero, ended⟩
      have ended : len.toNat ≤ (s.pkt_read + 1).toNat := UInt32.le_iff_toNat_le.mp ended
      rcases known with ⟨-, zero⟩ | ⟨-, length⟩
      · exact nonzero zero
      · omega
    rw [Mac.checkEnd, if_neg going']
    refine ⟨here.state, here.clear, inByte_empty rfl rfl, count, got, ?_⟩
    exact known.imp (fun h => ⟨by omega, h.2⟩) fun h => ⟨by omega, h.2⟩
  · intro last
    have ended : (Mac.withByte { s with pkt_len := len } b).storeByte.Ended := by
      rcases known with ⟨small, -⟩ | ⟨-, length⟩
      · omega
      · constructor
        · intro zero
          have zero : len = 0 := zero
          rw [zero] at length
          exact absurd length (by change 0 ≠ bytes.length; omega)
        · refine UInt32.le_iff_toNat_le.mpr ?_
          change len.toNat ≤ (s.pkt_read + 1).toNat
          omega
    rw [Mac.checkEnd, if_pos ended]
    exact ⟨rfl, rfl, rfl, fun i hi => got i (by omega)⟩

/-- The bytes of a packet from byte `n` on. -/
theorem quietly_bytes {bytes : List UInt8} (packet : IsPacket bytes) {n : Nat}
    (hn : n < bytes.length) (here : AtByte bytes n s) :
    ∃ t, Quietly s (bytesBits (bytes.drop n)) t ∧ Received bytes t := by
  obtain ⟨k, hk⟩ : ∃ k, bytes.length = n + 1 + k := ⟨bytes.length - n - 1, by omega⟩
  induction k generalizing n s with
  | zero =>
      obtain ⟨t, quiet, -, received⟩ := quietly_byte packet here (List.getElem?_eq_getElem hn)
      refine ⟨t, ?_, received (by omega)⟩
      rw [List.drop_eq_getElem_cons hn, bytesBits_cons, List.drop_eq_nil_of_le (by omega),
        bytesBits_nil, List.append_nil]
      exact quiet
  | succ k ih =>
      obtain ⟨t, quiet, going, -⟩ := quietly_byte packet here (List.getElem?_eq_getElem hn)
      obtain ⟨u, rest, received⟩ := ih (n := n + 1) (by omega) (going (by omega)) (by omega)
      refine ⟨u, ?_, received⟩
      rw [List.drop_eq_getElem_cons hn, bytesBits_cons]
      exact quiet.trans rest

/-- One of the first two sync characters. -/
theorem quietly_early {b : UInt8} (ks : List Bool) (state : s.mstate = .sync)
    (clear : s.pktReady = false) (nonzero : b ≠ 0) (early : ¬ 3 ≤ s.sync_count + 1)
    (inByte : InByte s ks) {rest : List Bool} (some : rest ≠ []) (bits : ks ++ rest = byteBits b) :
    Quietly s rest (s.withByte b).pushSync.nextByte := by
  have h := quietly_sync ks state clear nonzero inByte some bits
  rwa [Mac.matchSync, if_neg (show ¬ 3 ≤ (s.withByte b).pushSync.sync_count from early)] at h

/-- The sync characters after their first bit, which is a zero. -/
def syncBits : List Bool := (byteBits 0xAA).drop 1 ++ byteBits 0x55 ++ byteBits 0x42

/-- Enough zeros and the sync characters lead to an empty packet. -/
theorem quietly_syncBits (bytes : List UInt8) (state : s.mstate = .idle)
    (clear : s.pktReady = false) {k : Nat} (enough : 33 ≤ s.idle_zeros.toNat + k) :
    ∃ t, Quietly s (List.replicate k false ++ syncBits) t ∧ AtByte bytes 0 t := by
  obtain ⟨z, zeros, count⟩ := quietly_zeros state clear k
  -- the first one comes after the least significant bit of the first character
  let s₁ : Mac := { s with
    idle_zeros := z, mstate := .sync, g_bitpos := 6, g_curbyte := 0x80, sync_count := 0 }
  have first : Quietly { s with idle_zeros := z } [true] s₁ := by
    have enough : z > 32 := idle_zeros_lt.mpr (by omega)
    have step : putBitMac { s with idle_zeros := z } true = s₁ := by
      rw [putBitMac_idle (show Mac.mstate { s with idle_zeros := z } = .idle from state),
        Mac.idleBit,
        if_pos (show Mac.idle_zeros { s with idle_zeros := z } > 32 from enough), if_pos rfl]
    refine .cons clear ?_
    rw [step]
    exact .nil _
  have sync₁ : Quietly s₁ [false, true, false, true, false, true]
      (s₁.withByte 0xAA).pushSync.nextByte :=
    quietly_early (s := s₁) [false, true] rfl clear (by decide)
      (show ¬ 3 ≤ (0 : UInt8) + 1 by decide)
      ⟨rfl, rfl, by decide⟩ (by simp) (by decide)
  let s₂ := (s₁.withByte 0xAA).pushSync.nextByte
  have sync₂ : Quietly s₂ (byteBits 0x55) (s₂.withByte 0x55).pushSync.nextByte :=
    quietly_early (s := s₂) [] rfl clear (by decide) (show ¬ 3 ≤ (0 : UInt8) + 1 + 1 by decide)
      (inByte_empty rfl rfl) (byteBits_ne_nil _) (List.nil_append _)
  let s₃ := (s₂.withByte 0x55).pushSync.nextByte
  have sync₃ : Quietly s₃ (byteBits 0x42) (s₃.withByte 0x42).pushSync.matchSync.nextByte :=
    quietly_sync (s := s₃) [] rfl clear (by decide) (inByte_empty rfl rfl) (byteBits_ne_nil _)
      (List.nil_append _)
  have matched : (s₃.withByte 0x42).pushSync.matchSync =
      { (s₃.withByte 0x42).pushSync with mstate := .packet, pkt_len := 0, pkt_read := 0 } := by
    have three : 3 ≤ (s₃.withByte 0x42).pushSync.sync_count :=
      show 3 ≤ (0 : UInt8) + 1 + 1 + 1 by decide
    rw [Mac.matchSync, if_pos three, if_pos ⟨rfl, rfl, rfl⟩]
  rw [matched] at sync₃
  refine ⟨_, zeros.trans (((first.trans sync₁).trans sync₂).trans sync₃), ?_⟩
  exact ⟨rfl, clear, inByte_empty rfl rfl, rfl, fun i hi => absurd hi (by omega),
    .inl ⟨by omega, rfl⟩⟩

/-- Enough zeros, the sync characters and a packet. -/
theorem quietly_after_zeros {bytes : List UInt8} (packet : IsPacket bytes)
    (state : s.mstate = .idle) (clear : s.pktReady = false) {k : Nat}
    (enough : 33 ≤ s.idle_zeros.toNat + k) :
    ∃ t, Quietly s (List.replicate k false ++ (syncBits ++ bytesBits bytes)) t ∧
      Received bytes t := by
  obtain ⟨t, preamble, empty⟩ := quietly_syncBits bytes state clear enough
  obtain ⟨u, rest, received⟩ := quietly_bytes packet (by have := packet.length_le; omega) empty
  refine ⟨u, ?_, received⟩
  rw [← List.append_assoc]
  exact preamble.trans rest

/-- The four zero bytes of a preamble, and the first bit of the next one. -/
theorem frame_eq (bytes : List UInt8) :
    bytesBits ([0, 0, 0, 0, 0xAA, 0x55, 0x42] ++ bytes) =
      List.replicate 33 false ++ (syncBits ++ bytesBits bytes) := by
  rw [bytesBits_append, ← List.append_assoc]
  rfl

/-- The whole frame. -/
theorem quietly_frame {bytes : List UInt8} (packet : IsPacket bytes) (state : s.mstate = .idle)
    (clear : s.pktReady = false) :
    ∃ t, Quietly s (bytesBits ([0, 0, 0, 0, 0xAA, 0x55, 0x42] ++ bytes)) t ∧ Received bytes t := by
  rw [frame_eq]
  exact quietly_after_zeros packet state clear (by omega)

end Recognised

/-! ### Exact framing -/

theorem isPacket_of_headerLength {pkt : Packet} {len : UInt32}
    (known : Mac.headerLength pkt = some len) : IsPacket ((List.range len.toNat).map pkt) := by
  obtain ⟨version, type⟩ := headerLength_eq known
  have byte : ∀ i, i < 2 → ((List.range len.toNat).map pkt)[i]? = some (pkt i) := by
    intro i hi
    have long : i < len.toNat := by
      rcases type with ⟨-, rfl⟩ | ⟨-, rfl⟩
      · change i < 32
        omega
      · change i < 264
        omega
    rw [List.getElem?_map, List.getElem?_range long]
    rfl
  constructor
  · rw [byte 0 (by omega)]
    exact version.imp (congrArg some) (congrArg some)
  · rw [byte 1 (by omega), List.length_map, List.length_range]
    exact type.imp (fun h => ⟨congrArg some h.1, by rw [h.2]; rfl⟩)
      fun h => ⟨congrArg some h.1, by rw [h.2]; rfl⟩

theorem tracks_feed (bits : List Bool) : Tracks (feed .initial bits) bits := by
  induction bits using List.reverseRecOn with
  | nil => exact tracks_of_idle rfl ⟨[], rfl⟩
  | append_singleton bits bit ih =>
      rw [feed_append]
      exact (tracks_putBitMac ih).1

/-- The MAC recognises exactly its framing. Whatever bits it was fed from reset, a
bit sets the flag only as the last one of at least 33 zeros, the rest of the sync
characters and a packet, whose bytes are then in the buffer. From `MAC_IDLE` with
the flag clear, a preamble and a packet set it on their last bit and not before. -/
theorem mac_framing_exact :
    (∀ bits bit, SetsReady (feed .initial bits) bit →
      ∃ before n bytes, 33 ≤ n ∧ IsPacket bytes ∧
        bits ++ [bit] = before ++ List.replicate n false ++ (byteBits 0xAA).drop 1 ++
          byteBits 0x55 ++ byteBits 0x42 ++ bytesBits bytes ∧
        ∀ i, i < bytes.length → bytes[i]? = some ((feed .initial (bits ++ [bit])).pkt i)) ∧
    ∀ s bytes, s.mstate = .idle → s.pktReady = false → IsPacket bytes →
      ∀ bits, bits = bytesBits ([0, 0, 0, 0, 0xAA, 0x55, 0x42] ++ bytes) →
        (feed s bits).pktReady = true ∧
          ∀ k, k < bits.length → (feed s (bits.take k)).pktReady = false := by
  constructor
  · intro bits bit sets
    have ends := (setsReady_iff _ _).mp sets
    obtain ⟨_, len, ⟨before, n, hn, rfl⟩, known, history⟩ :=
      (tracks_putBitMac (tracks_feed bits)).2 ends
    have last : feed .initial (bits ++ [bit]) = putBitMac (feed .initial bits) bit :=
      feed_append _ _ _
    rw [last]
    refine ⟨before, n + 1, (List.range len.toNat).map (putBitMac (feed .initial bits) bit).pkt,
      by omega, isPacket_of_headerLength known, ?_, fun i hi => ?_⟩
    · rw [history, List.replicate_succ']
      simp only [List.append_assoc, bytesBits_cons, bytesBits_nil, List.append_nil]
      rfl
    · rw [List.length_map, List.length_range] at hi
      rw [List.getElem?_map, List.getElem?_range hi]
      rfl
  · rintro s bytes state clear packet bits rfl
    obtain ⟨t, quiet, received⟩ := quietly_frame packet state clear
    rw [quiet.feed_eq]
    exact ⟨received.ready, fun k hk => quiet.clear_before hk⟩

/-- A control packet with zeros only after its header. -/
def samplePacket : List UInt8 := [0x01, 0x01] ++ List.replicate 30 0

theorem samplePacket_isPacket : IsPacket samplePacket := ⟨.inl rfl, .inl ⟨rfl, rfl⟩⟩

/-- Its frame from reset. -/
theorem sampleFrame_exact :
    (feed .initial (bytesBits ([0, 0, 0, 0, 0xAA, 0x55, 0x42] ++ samplePacket))).pktReady = true ∧
      ∀ k, k < (bytesBits ([0, 0, 0, 0, 0xAA, 0x55, 0x42] ++ samplePacket)).length →
        (feed .initial ((bytesBits ([0, 0, 0, 0, 0xAA, 0x55, 0x42] ++ samplePacket)).take k)).pktReady
          = false :=
  mac_framing_exact.2 .initial samplePacket rfl rfl samplePacket_isPacket _ rfl

end LtcOs.Demod
