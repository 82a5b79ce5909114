import LtcOs.MacFraming

/-!
Memory safety of the MAC layer.

`Tracks` bounds every index of `putBitMac`: it holds after any bits from reset, noise or
not. A packet with a bad header is given up with the first bit after its third byte.
-/

namespace LtcOs.Demod

open LtcOs.Memory LtcOs.Bits LtcOs.Updater

/-! ### What a bit writes -/

/-- The index of `pkt` that a bit writes. -/
def Mac.pktIndex (s : Mac) (bit : Bool) : Option Nat :=
  match s.mstate with
  | .packet => s.readHeader.bind fun t =>
      if (t.shift bit).g_bitpos = 0 then some (t.shift bit).pkt_read.toNat else none
  | _ => none

/-- The index of `mac_sync` that a bit writes. -/
def Mac.syncIndex (s : Mac) (bit : Bool) : Option Nat :=
  match s.mstate with
  | .sync =>
      if (s.shift bit).g_bitpos = 0 ∧ (s.shift bit).g_curbyte ≠ 0 then some (s.shift bit).sync_count.toNat
      else none
  | _ => none

section Writes

variable {s : Mac} {bit : Bool} {h : List Bool}

theorem pkt_storeByte {t : Mac} {i : Nat} (other : ¬ (t.g_bitpos = 0 ∧ t.pkt_read.toNat = i)) :
    t.storeByte.pkt i = t.pkt i := by
  unfold Mac.storeByte
  split_ifs with done
  · exact Function.update_of_ne (fun same => other ⟨done, same.symm⟩) _ _
  · rfl

/-- Nothing else of `pkt` is written. -/
theorem pkt_putBitMac {i : Nat} (other : s.pktIndex bit ≠ some i) :
    (putBitMac s bit).pkt i = s.pkt i := by
  cases state : s.mstate with
  | idle => rw [putBitMac_idle state, pkt_idleBit]
  | sync => rw [putBitMac_sync state, pkt_syncBit]
  | packet =>
      rw [putBitMac_packet state]
      cases read : s.readHeader with
      | none =>
          rw [packetBit_none read]
          rfl
      | some t =>
          rw [Mac.pktIndex, state] at other
          simp only [read, Option.bind_some] at other
          obtain ⟨len, rfl, -⟩ := readHeader_eq read
          rw [packetBit_some read, (checkEnd_pkt _).1]
          apply pkt_storeByte
          rintro ⟨done, same⟩
          exact other (by rw [if_pos done, same])

theorem mac_sync_matchSync (t : Mac) : t.matchSync.mac_sync = t.mac_sync := by
  unfold Mac.matchSync
  split_ifs <;> rfl

theorem mac_sync_idleBit (s : Mac) (bit : Bool) : (s.idleBit bit).mac_sync = s.mac_sync := by
  unfold Mac.idleBit
  split_ifs <;> rfl

theorem mac_sync_packetBit (s : Mac) (bit : Bool) : (s.packetBit bit).mac_sync = s.mac_sync := by
  cases read : s.readHeader with
  | none =>
      rw [packetBit_none read]
      rfl
  | some t =>
      obtain ⟨len, rfl, -⟩ := readHeader_eq read
      rw [packetBit_some read]
      unfold Mac.checkEnd Mac.storeByte
      split_ifs <;> rfl

/-- Nothing else of `mac_sync` is written. -/
theorem mac_sync_putBitMac {i : Nat} (other : s.syncIndex bit ≠ some i) :
    (putBitMac s bit).mac_sync i = s.mac_sync i := by
  cases state : s.mstate with
  | idle => rw [putBitMac_idle state, mac_sync_idleBit]
  | packet => rw [putBitMac_packet state, mac_sync_packetBit]
  | sync =>
      rw [putBitMac_sync state]
      rw [Mac.syncIndex, state] at other
      simp only [Mac.syncBit]
      split_ifs with more zero
      · rfl
      · rfl
      · change (s.shift bit).pushSync.matchSync.mac_sync i = _
        rw [mac_sync_matchSync]
        apply Function.update_of_ne
        rintro rfl
        apply other
        exact if_pos ⟨not_not.mp more, zero⟩

/-! ### Bounds -/

theorem pktIndex_lt (tracks : Tracks s h) {i : Nat} (write : s.pktIndex bit = some i) :
    i < 264 := by
  unfold Mac.pktIndex at write
  split at write
  · next state =>
    obtain ⟨before, ks, _, _, _, known⟩ := tracks.packet state
    obtain ⟨t, read, index⟩ := Option.bind_eq_some_iff.mp write
    obtain ⟨len, rfl, length⟩ := readHeader_some known read
    split_ifs at index
    rw [← Option.some.inj index]
    rcases length with ⟨-, lt⟩ | ⟨header, -, lt⟩
    · exact lt.trans (by decide)
    · exact pkt_read_small header lt
  · cases write

theorem syncIndex_lt (tracks : Tracks s h) {i : Nat} (write : s.syncIndex bit = some i) :
    i < 3 := by
  unfold Mac.syncIndex at write
  split at write
  · next state =>
    obtain ⟨before, n, ks, _, _, _, count⟩ := tracks.sync state
    split_ifs at write
    rw [← Option.some.inj write]
    exact count
  · cases write

/-- A byte that is not finished has between one and eight bits to go. -/
theorem InByte.bitpos {ks : List Bool} (inByte : InByte s ks) :
    1 ≤ s.g_bitpos ∧ s.g_bitpos ≤ 8 := by
  have left := inByte.left
  have lt := inByte.lt
  omega

theorem Tracks.bitpos (tracks : Tracks s h) (busy : s.mstate ≠ .idle) :
    1 ≤ s.g_bitpos ∧ s.g_bitpos ≤ 8 := by
  cases state : s.mstate with
  | idle => exact absurd state busy
  | sync =>
      obtain ⟨_, _, _, _, _, inByte, _⟩ := tracks.sync state
      exact inByte.bitpos
  | packet =>
      obtain ⟨_, _, _, _, inByte, _⟩ := tracks.packet state
      exact inByte.bitpos

/-- Zeros are counted up to 255. -/
theorem idle_zeros_idleBit (s : Mac) :
    (s.idleBit false).idle_zeros.toNat = min 255 (s.idle_zeros.toNat + 1) := by
  have le := s.idle_zeros.toNat_lt
  simp only [Mac.idleBit, Bool.false_eq_true, if_false]
  split_ifs with enough below
  · change (s.idle_zeros + 1).toNat = _
    rw [idle_zeros_succ (idle_zeros_below.mp below)]
    have := idle_zeros_below.mp below
    omega
  · have := mt idle_zeros_below.mpr below
    omega
  · have := mt idle_zeros_lt.mpr enough
    change (s.idle_zeros + 1).toNat = _
    rw [idle_zeros_succ (by omega)]
    omega

end Writes

/-! ### The bits of a packet -/

/-- The bits of the present packet so far. -/
def Mac.packetBits (s : Mac) : Int := 8 * s.pkt_read.toNat + (8 - s.g_bitpos)

section Packet

variable {s : Mac} {bit : Bool} {h : List Bool}

theorem packetBits_eq {ks : List Bool} (inByte : InByte s ks) :
    s.packetBits = 8 * s.pkt_read.toNat + ks.length := by
  have left := inByte.left
  unfold Mac.packetBits
  omega

/-- A packet that goes on has one bit more. -/
theorem packetBits_succ (tracks : Tracks s h) (state : s.mstate = .packet)
    (stays : (putBitMac s bit).mstate = .packet) :
    (putBitMac s bit).packetBits = s.packetBits + 1 := by
  rw [putBitMac_packet state] at stays ⊢
  obtain ⟨before, ks, _, _, inByte, known⟩ := tracks.packet state
  cases read : s.readHeader with
  | none =>
      rw [packetBit_none read] at stays
      cases stays
  | some t =>
      rw [packetBit_some read] at stays ⊢
      obtain ⟨len, rfl, length⟩ := readHeader_some known read
      unfold Mac.checkEnd at stays ⊢
      split_ifs at stays ⊢ with ended
      · cases stays
      · by_cases done : s.g_bitpos - 1 = 0
        · have small : s.pkt_read.toNat < 264 := by
            rcases length with ⟨-, lt⟩ | ⟨header, -, lt⟩
            · omega
            · exact pkt_read_small header lt
          rw [Mac.storeByte,
            if_pos (show (Mac.shift { s with pkt_len := len } bit).g_bitpos = 0 from done)]
          change 8 * ((s.pkt_read + 1).toNat : Int) + (8 - 8) = s.packetBits + 1
          rw [pkt_read_succ small]
          unfold Mac.packetBits
          push_cast
          omega
        · rw [Mac.storeByte,
            if_neg (show ¬ (Mac.shift { s with pkt_len := len } bit).g_bitpos = 0 from done)]
          change 8 * (s.pkt_read.toNat : Int) + (8 - (s.g_bitpos - 1)) = s.packetBits + 1
          unfold Mac.packetBits
          omega

/-- With fewer than 24 bits a packet goes on. -/
theorem packet_goes_on (tracks : Tracks s h) (state : s.mstate = .packet) (few : s.packetBits < 24) :
    (putBitMac s bit).mstate = .packet ∧ ¬ s.Ends bit := by
  obtain ⟨before, ks, _, _, inByte, known⟩ := tracks.packet state
  have count := packetBits_eq inByte
  have late : s.pkt_read > 2 ↔ 2 < s.pkt_read.toNat := UInt32.lt_iff_toNat_lt
  have early : ¬ s.pkt_read > 2 := by
    rw [late]
    omega
  have unknown : s.pkt_len = 0 := by
    rcases known with ⟨zero, -⟩ | ⟨-, ge, -⟩
    · exact zero
    · omega
  have read : s.readHeader = some s := if_neg fun both => early both.2
  have going : ¬ (s.shift bit).storeByte.Ended := by
    have kept : (s.shift bit).storeByte.pkt_len = s.pkt_len := by
      unfold Mac.storeByte
      split_ifs <;> rfl
    rintro ⟨nonzero, -⟩
    exact nonzero (kept.trans unknown)
  constructor
  · rw [putBitMac_packet state, packetBit_some read, Mac.checkEnd, if_neg going, mstate_storeByte,
      state]
  · rintro ⟨-, t, ht, ended⟩
    obtain rfl := Option.some.inj (read.symm.trans ht)
    exact going ended

/-- The header has been read, and is not a valid one. -/
theorem packet_given_up (tracks : Tracks s h) (state : s.mstate = .packet)
    (full : s.packetBits = 24) (bad : Mac.headerLength s.pkt = none) :
    (putBitMac s bit).mstate = .idle ∧ ¬ s.Ends bit := by
  obtain ⟨before, ks, _, _, inByte, known⟩ := tracks.packet state
  have count := packetBits_eq inByte
  have lt := inByte.lt
  have pending : s.pkt_len = 0 ∧ s.pkt_read > 2 := by
    rcases known with ⟨zero, -⟩ | ⟨header, -, -⟩
    · refine ⟨zero, UInt32.lt_iff_toNat_lt.mpr ?_⟩
      change 2 < s.pkt_read.toNat
      omega
    · rw [bad] at header
      cases header
  have read : s.readHeader = none := by
    rw [Mac.readHeader, if_pos pending, bad]
    rfl
  constructor
  · rw [putBitMac_packet state, packetBit_none read]
    rfl
  · rintro ⟨-, t, ht, -⟩
    rw [read] at ht
    cases ht

end Packet

/-! ### A packet with a bad header -/

/-- The first bit of a packet comes next. -/
structure AtPacket (s : Mac) : Prop where
  state : s.mstate = .packet
  read : s.pkt_read = 0
  bitpos : s.g_bitpos = 8

section Header

variable {bits more : List Bool}

/-- The first 24 bits of a packet. -/
theorem packet_bits (start : AtPacket (feed .initial bits)) {k : Nat} (few : more.length = k)
    (le : k ≤ 24) :
    (feed .initial (bits ++ more)).mstate = .packet ∧
      (feed .initial (bits ++ more)).packetBits = k := by
  induction k generalizing more with
  | zero =>
      rw [List.eq_nil_of_length_eq_zero few, List.append_nil]
      refine ⟨start.state, ?_⟩
      unfold Mac.packetBits
      rw [start.read, start.bitpos]
      rfl
  | succ k ih =>
      obtain ⟨init, bit, rfl⟩ : ∃ init bit, more = init ++ [bit] := by
        refine ⟨more.dropLast, more.getLast ?_, (List.dropLast_append_getLast _).symm⟩
        rintro rfl
        cases few
      have length : init.length = k := by simpa using few
      obtain ⟨state, count⟩ := ih length (by omega)
      have tracks := tracks_feed (bits ++ init)
      have stays : (putBitMac (feed .initial (bits ++ init)) bit).mstate = .packet :=
        (packet_goes_on tracks state (by omega)).1
      rw [← List.append_assoc, feed_append]
      refine ⟨stays, ?_⟩
      rw [feed_cons, feed_nil, packetBits_succ tracks state stays, count]
      push_cast
      rfl

/-- The bytes in the buffer are those of the bits. -/
theorem packet_received (start : AtPacket (feed .initial bits)) (length : more.length = 24) :
    bytesBits (feed .initial (bits ++ more)).received = more := by
  obtain ⟨state, count⟩ := packet_bits start length le_rfl
  obtain ⟨before, ks, _, history, inByte, _⟩ := (tracks_feed (bits ++ more)).packet state
  have lt := inByte.lt
  have total := packetBits_eq inByte
  have received : (feed .initial (bits ++ more)).received.length =
      (feed .initial (bits ++ more)).pkt_read.toNat := by
    simp [Mac.received]
  have none : ks = [] := by
    apply List.eq_nil_of_length_eq_zero
    omega
  rw [none, List.append_nil] at history
  have same : bits.length = before.length := by
    have := congrArg List.length history
    rw [List.length_append, List.length_append, length_bytesBits, received] at this
    rw [none, List.length_nil] at total
    omega
  exact (List.append_inj history same).2.symm

/-- The version or the type byte is not a valid one. -/
def BadHeader (version type : UInt8) : Prop :=
  (version ≠ PKT_VER_1 ∧ version ≠ PKT_VER_2) ∨ (type ≠ PKTTYPE_CTRL ∧ type ≠ PKTTYPE_DATA)

theorem headerLength_bad {pkt : Packet} (bad : BadHeader (pkt 0) (pkt 1)) :
    Mac.headerLength pkt = none := by
  cases length : Mac.headerLength pkt with
  | none => rfl
  | some len =>
      obtain ⟨version, type⟩ := headerLength_eq length
      rcases bad with bad | bad
      · rcases version with version | version
        · exact absurd version bad.1
        · exact absurd version bad.2
      · rcases type with ⟨ctrl, -⟩ | ⟨data, -⟩
        · exact absurd ctrl bad.1
        · exact absurd data bad.2

theorem bytesBits_inj {bs cs : List UInt8} (same : bytesBits bs = bytesBits cs) : bs = cs := by
  induction bs generalizing cs with
  | nil =>
      cases cs with
      | nil => rfl
      | cons c cs =>
          have := congrArg List.length same
          rw [length_bytesBits, length_bytesBits, List.length_cons, List.length_nil] at this
          omega
  | cons b bs ih =>
      cases cs with
      | nil =>
          have := congrArg List.length same
          rw [length_bytesBits, length_bytesBits, List.length_cons, List.length_nil] at this
          omega
      | cons c cs =>
          rw [bytesBits_cons, bytesBits_cons] at same
          obtain ⟨first, rest⟩ := List.append_inj same (by rw [length_byteBits, length_byteBits])
          rw [ih rest, ← pack_byteBits b, first, pack_byteBits]

/-- The packet is given up with the last of the bits, and nothing is flagged before. -/
structure GivenUp (bits more : List Bool) : Prop where
  idle : (feed .initial (bits ++ more)).mstate = .idle
  quiet : ∀ xs x ys, more = xs ++ x :: ys → ¬ SetsReady (feed .initial (bits ++ xs)) x

theorem given_up (start : AtPacket (feed .initial bits)) {b₀ b₁ : UInt8} (b₂ : UInt8) (bit : Bool)
    (bad : BadHeader b₀ b₁) : GivenUp bits (bytesBits [b₀, b₁, b₂] ++ [bit]) := by
  have length : (bytesBits [b₀, b₁, b₂]).length = 24 := length_bytesBits _
  obtain ⟨state, count⟩ := packet_bits start length le_rfl
  have received := bytesBits_inj (packet_received start length)
  have tracks := tracks_feed (bits ++ bytesBits [b₀, b₁, b₂])
  have full : (feed .initial (bits ++ bytesBits [b₀, b₁, b₂])).packetBits = 24 := count
  have header : Mac.headerLength (feed .initial (bits ++ bytesBits [b₀, b₁, b₂])).pkt = none := by
    obtain ⟨_, _, _, _, inByte, _⟩ := tracks.packet state
    have total := packetBits_eq inByte
    have lt := inByte.lt
    have three : (feed .initial (bits ++ bytesBits [b₀, b₁, b₂])).pkt_read.toNat = 3 := by omega
    rw [Mac.received, three] at received
    apply headerLength_bad
    rw [(List.cons.inj received).1, (List.cons.inj (List.cons.inj received).2).1]
    exact bad
  have last : (putBitMac (feed .initial (bits ++ bytesBits [b₀, b₁, b₂])) bit).mstate = .idle ∧
      ¬ (feed .initial (bits ++ bytesBits [b₀, b₁, b₂])).Ends bit :=
        packet_given_up tracks state full header
  constructor
  · rw [← List.append_assoc, feed_append]
    exact last.1
  · intro xs x ys split
    rw [setsReady_iff]
    rcases List.append_eq_append_iff.mp split with ⟨zs, rfl, rest⟩ | ⟨zs, whole, rest⟩
    · -- the bit after the third byte
      cases zs with
      | nil =>
          rw [List.append_nil]
          rw [List.nil_append, List.cons.injEq] at rest
          rw [← rest.1]
          exact last.2
      | cons z zs => simp at rest
    · cases zs with
      | nil =>
          rw [List.append_nil] at whole
          rw [List.nil_append, List.cons.injEq] at rest
          rw [← whole, rest.1]
          exact last.2
      | cons z zs =>
          rw [List.cons_append, List.cons.injEq] at rest
          have short : xs.length < 24 := by
            have := congrArg List.length whole
            rw [length, List.length_append, List.length_cons] at this
            omega
          obtain ⟨state, count⟩ := packet_bits start (Eq.refl xs.length) short.le
          exact (packet_goes_on (tracks_feed _) state (by omega)).2

end Header

/-! ### Memory safety -/

/-- What one bit does. -/
structure SafeBit (s : Mac) (bit : Bool) : Prop where
  pkt : ∀ i, s.pktIndex bit = some i → i < 264
  pkt_rest : ∀ i, s.pktIndex bit ≠ some i → (putBitMac s bit).pkt i = s.pkt i
  sync : ∀ i, s.syncIndex bit = some i → i < 4
  sync_rest : ∀ i, s.syncIndex bit ≠ some i → (putBitMac s bit).mac_sync i = s.mac_sync i
  bitpos : s.mstate ≠ .idle → (putBitMac s bit).mstate = s.mstate →
    1 ≤ (putBitMac s bit).g_bitpos ∧ (putBitMac s bit).g_bitpos ≤ 8
  zeros : s.mstate = .idle → bit = false →
      (putBitMac s bit).idle_zeros.toNat = min 255 (s.idle_zeros.toNat + 1)
  entry : s.mstate ≠ .packet → (putBitMac s bit).mstate = .packet → AtPacket (putBitMac s bit)

theorem syncBit_atPacket {s : Mac} {bit : Bool} (state : s.mstate = .sync)
    (entered : (s.syncBit bit).mstate = .packet) :
    AtPacket (s.syncBit bit) := by
  refine ⟨entered, syncBit_packet state entered, ?_⟩
  simp only [Mac.syncBit] at entered ⊢
  split_ifs at entered ⊢
  · rw [show (s.shift bit).mstate = .sync from state] at entered
    cases entered
  · rfl

theorem safe_bit {s : Mac} {h : List Bool} (tracks : Tracks s h) (bit : Bool) : SafeBit s bit where
  pkt _ := pktIndex_lt tracks
  pkt_rest _ := pkt_putBitMac
  sync _ write := (syncIndex_lt tracks write).trans (by decide)
  sync_rest _ := mac_sync_putBitMac
  bitpos busy stays := by
    apply (tracks_putBitMac tracks).1.bitpos
    rw [stays]
    exact busy
  zeros state zero := by
    rw [putBitMac_idle state, zero]
    exact idle_zeros_idleBit s
  entry outside entered := by
    cases state : s.mstate with
    | idle =>
        rw [putBitMac_idle state] at entered
        exact absurd entered (idleBit_not_packet state bit)
    | sync =>
        rw [putBitMac_sync state] at entered ⊢
        exact syncBit_atPacket state entered
    | packet => exact absurd state outside

theorem mac_memory_safe :
    (∀ bits bit, SafeBit (feed .initial bits) bit) ∧
      ∀ bits b₀ b₁ b₂ bit, AtPacket (feed .initial bits) → BadHeader b₀ b₁ →
        GivenUp bits (bytesBits [b₀, b₁, b₂] ++ [bit]) := by
  constructor
  · intro bits bit
    exact safe_bit (tracks_feed bits) bit
  · intro bits b₀ b₁ b₂ bit start bad
    exact given_up start b₂ bit bad

/-- A packet of the third version, after a preamble. -/
theorem badVersion_given_up :
    GivenUp (bytesBits [0, 0, 0, 0, 0xAA, 0x55, 0x42]) (bytesBits [3, 1, 0] ++ [true]) :=
  mac_memory_safe.2 _ 3 1 0 true ⟨by decide +kernel, by decide +kernel, by decide +kernel⟩
    (.inl (by decide))

end LtcOs.Demod
