import LtcOs.MacSafety

/-!
A frame after noise.

Noise can leave the MAC in the middle of a false sync character. If the bits of that
character are zeros so far, the preamble makes a zero character of it, whose eight zeros are
counted. If one of them is a one, the zeros that finish the character are lost, the rest of
the preamble is too short, and with it the frame.
-/

namespace LtcOs.Demod

open LtcOs.Memory LtcOs.Bits LtcOs.Updater

/-! ### The flag has no influence -/

/-- The same state with another flag. -/
def Mac.withFlag (s : Mac) (r : Bool) : Mac := { s with pktReady := r }

section Flag

variable {s : Mac}

theorem storeByte_flag (s : Mac) (r : Bool) :
    (s.withFlag r).storeByte = s.storeByte.withFlag r := by
  by_cases done : s.g_bitpos = 0
  · simp [Mac.storeByte, done, Mac.nextByte, Mac.withFlag]
  · simp [Mac.storeByte, done, Mac.withFlag]

theorem readHeader_flag (s : Mac) (r : Bool) :
    (s.withFlag r).readHeader = s.readHeader.map fun t => t.withFlag r := by
  unfold Mac.readHeader
  by_cases pending : s.pkt_len = 0 ∧ s.pkt_read > 2
  · rw [if_pos pending,
      if_pos (show (s.withFlag r).pkt_len = 0 ∧ (s.withFlag r).pkt_read > 2 from pending),
      Option.map_map]
    rfl
  · rw [if_neg pending,
      if_neg (show ¬ ((s.withFlag r).pkt_len = 0 ∧ (s.withFlag r).pkt_read > 2) from pending)]
    rfl

theorem packetBit_flag (s : Mac) (r bit : Bool) :
    ∃ r', (s.withFlag r).packetBit bit = (s.packetBit bit).withFlag r' := by
  have header := readHeader_flag s r
  cases read : s.readHeader with
  | none =>
      rw [read] at header
      rw [packetBit_none read, packetBit_none header]
      exact ⟨r, rfl⟩
  | some t =>
      rw [read] at header
      rw [packetBit_some read, packetBit_some header]
      have stored : ((t.withFlag r).shift bit).storeByte = (t.shift bit).storeByte.withFlag r :=
        storeByte_flag (t.shift bit) r
      rw [stored]
      by_cases ended : (t.shift bit).storeByte.Ended
      · refine ⟨true, ?_⟩
        rw [Mac.checkEnd, Mac.checkEnd, if_pos ended]
        exact if_pos ended
      · refine ⟨r, ?_⟩
        rw [Mac.checkEnd, Mac.checkEnd, if_neg ended]
        exact if_neg ended

theorem putBitMac_flag (s : Mac) (r bit : Bool) :
    ∃ r', putBitMac (s.withFlag r) bit = (putBitMac s bit).withFlag r' := by
  cases state : s.mstate with
  | idle =>
      rw [putBitMac_idle state, putBitMac_idle (show (s.withFlag r).mstate = .idle from state)]
      refine ⟨r, (idleBit_withPkt s bit s.pkt r).trans ?_⟩
      rw [Mac.withPkt, ← pkt_idleBit s bit]
      rfl
  | sync =>
      rw [putBitMac_sync state, putBitMac_sync (show (s.withFlag r).mstate = .sync from state)]
      refine ⟨r, (syncBit_withPkt s bit s.pkt r).trans ?_⟩
      rw [Mac.withPkt, ← pkt_syncBit s bit]
      rfl
  | packet =>
      rw [putBitMac_packet state,
        putBitMac_packet (show (s.withFlag r).mstate = .packet from state)]
      exact packetBit_flag s r bit

theorem feed_flag (s : Mac) (r : Bool) (bits : List Bool) :
    ∃ r', feed (s.withFlag r) bits = (feed s bits).withFlag r' := by
  induction bits using List.reverseRecOn with
  | nil => exact ⟨r, rfl⟩
  | append_singleton bits bit ih =>
      obtain ⟨r₁, before⟩ := ih
      obtain ⟨r₂, after⟩ := putBitMac_flag (feed s bits) r₁ bit
      refine ⟨r₂, ?_⟩
      rw [feed_append, feed_append, before]
      exact after

end Flag

/-! ### A frame that is recognised -/

/-- The last bit sets the flag, with `bytes` in the buffer. -/
def Flags (s : Mac) (frame : List Bool) (bytes : List UInt8) : Prop :=
  ∃ bits bit, frame = bits ++ [bit] ∧ SetsReady (feed s bits) bit ∧
    ∀ i, i < bytes.length → bytes[i]? = some ((feed s frame).pkt i)

/-- The documented frame of a packet. -/
def frameOf (bytes : List UInt8) : List Bool := bytesBits ([0, 0, 0, 0, 0xAA, 0x55, 0x42] ++ bytes)

/-- The zeros of a preamble do not complete a sync sequence. -/
def NoPendingSync (s : Mac) : Prop :=
  ∀ k, k ≤ 32 → (feed s (List.replicate k false)).mstate ≠ .packet

section Recognised

variable {s t : Mac} {bytes : List UInt8}

/-- Bits that lead to the flag from a state with the flag clear. -/
theorem flags_of_quietly {frame : List Bool} (some : frame ≠ [])
    (quiet : Quietly (s.withFlag false) frame t) (received : Received bytes t) :
    Flags s frame bytes := by
  obtain ⟨bits, bit, rfl⟩ : ∃ bits bit, frame = bits ++ [bit] :=
    ⟨frame.dropLast, frame.getLast some, (List.dropLast_append_getLast some).symm⟩
  obtain ⟨r, before⟩ := feed_flag s false bits
  obtain ⟨r', after⟩ := feed_flag s false (bits ++ [bit])
  have clear : (feed (s.withFlag false) bits).pktReady = false := by
    have := quiet.clear_before (k := bits.length) (by simp)
    rwa [List.take_left] at this
  have ready := received.ready
  have got := received.got
  rw [← quiet.feed_eq] at ready got
  refine ⟨bits, bit, rfl, ?_, ?_⟩
  · rw [feed_append, before] at ready
    rw [before] at clear
    have clear : r = false := clear
    rw [clear] at ready
    exact ready
  · rw [after] at got
    exact got

theorem frameOf_ne_nil (bytes : List UInt8) : frameOf bytes ≠ [] := by
  rw [frameOf, frame_eq]
  simp

theorem frame_split (bytes : List UInt8) {p : Nat} (le : p ≤ 33) :
    frameOf bytes =
      List.replicate p false ++
      (List.replicate (33 - p) false ++ (syncBits ++ bytesBits bytes)) := by
  rw [frameOf, frame_eq, ← List.append_assoc (List.replicate p false),
    List.replicate_append_replicate,
    show p + (33 - p) = 33 by omega]

theorem flags_of_idle (packet : IsPacket bytes) (state : s.mstate = .idle) :
    Flags s (frameOf bytes) bytes := by
  obtain ⟨t, quiet, received⟩ := quietly_frame (s := s.withFlag false) packet state rfl
  exact flags_of_quietly (frameOf_ne_nil bytes) quiet received

/-- Zeros that finish a zero character. -/
theorem quietly_zero_char (state : s.mstate = .sync) (clear : s.pktReady = false)
    (zero : s.g_curbyte = 0) {p : Nat} (left : s.g_bitpos = p) (pos : 0 < p) :
    Quietly s (List.replicate p false)
      { s with mstate := .idle, idle_zeros := 8, g_bitpos := 0, g_curbyte := 0 } := by
  induction p generalizing s with
  | zero => omega
  | succ p ih =>
      have byte : (s.shift false).g_curbyte = 0 := by
        change shiftIn s.g_curbyte false = 0
        rw [zero]
        rfl
      have position : (s.shift false).g_bitpos = p := by
        change s.g_bitpos - 1 = _
        rw [left]
        push_cast
        omega
      rw [List.replicate_succ]
      refine .cons clear ?_
      rw [putBitMac_sync state]
      simp only [Mac.syncBit]
      cases p with
      | zero =>
          have done : (s.shift false).g_bitpos = 0 := position
          rw [if_neg (by simpa using done), if_pos byte]
          have same : ({ s.shift false with mstate := .idle, idle_zeros := 8 } : Mac) =
              { s with mstate := .idle, idle_zeros := 8, g_bitpos := 0, g_curbyte := 0 } := by
            rw [← done, ← byte]
            rfl
          rw [same]
          exact .nil _
      | succ p =>
          have more : (s.shift false).g_bitpos ≠ 0 := by
            rw [position]
            push_cast
            omega
          rw [if_pos more]
          exact ih (s := s.shift false) state clear byte position (by omega)

theorem flags_of_zero_char (packet : IsPacket bytes) (state : s.mstate = .sync)
    (zero : s.g_curbyte = 0) (bitpos : 1 ≤ s.g_bitpos ∧ s.g_bitpos ≤ 8) :
    Flags s (frameOf bytes) bytes := by
  obtain ⟨p, left⟩ : ∃ p : Nat, s.g_bitpos = p := ⟨s.g_bitpos.toNat, by omega⟩
  have char := quietly_zero_char (s := s.withFlag false) state rfl zero left (by omega)
  obtain ⟨t, rest, received⟩ := quietly_after_zeros (k := 33 - p) packet
    (s := { s with pktReady := false, mstate := .idle, idle_zeros := 8, g_bitpos := 0, g_curbyte := 0 }) rfl rfl (by
      change 33 ≤ 8 + (33 - p)
      omega)
  refine flags_of_quietly (frameOf_ne_nil bytes) (t := t) ?_ received
  rw [frame_split bytes (p := p) (by omega)]
  exact char.trans rest

end Recognised

/-! ### A frame that is lost -/

section Lost

variable {s : Mac} {bytes : List UInt8}

/-- Few zeros are counted exactly. -/
theorem feed_few_zeros (state : s.mstate = .idle) {m : Nat} (few : s.idle_zeros.toNat + m ≤ 32) :
    (feed s (List.replicate m false)).mstate = .idle ∧
      (feed s (List.replicate m false)).idle_zeros.toNat = s.idle_zeros.toNat + m := by
  induction m generalizing s with
  | zero => exact ⟨state, rfl⟩
  | succ m ih =>
      have below : ¬ s.idle_zeros > 32 := by
        rw [idle_zeros_lt]
        omega
      have step : putBitMac s false = { s with idle_zeros := s.idle_zeros + 1 } := by
        rw [putBitMac_idle state, Mac.idleBit, if_neg below, if_neg (by simp)]
      have succ : (s.idle_zeros + 1).toNat = s.idle_zeros.toNat + 1 := idle_zeros_succ (by omega)
      rw [List.replicate_succ, feed_cons, step]
      obtain ⟨idle, count⟩ := ih (s := { s with idle_zeros := s.idle_zeros + 1 }) state (by
        change (s.idle_zeros + 1).toNat + m ≤ 32
        omega)
      refine ⟨idle, count.trans ?_⟩
      change (s.idle_zeros + 1).toNat + m = _
      omega

/-- A one after too few zeros. -/
theorem feed_early_one (state : s.mstate = .idle) {m : Nat} (few : s.idle_zeros.toNat + m ≤ 32) :
    (feed s (List.replicate m false ++ [true])).bitsToPacket = 56 := by
  obtain ⟨idle, count⟩ := feed_few_zeros state few
  have below : ¬ (feed s (List.replicate m false)).idle_zeros > 32 := by
    rw [idle_zeros_lt]
    omega
  rw [feed_append, feed_cons, feed_nil, putBitMac_idle idle, Mac.idleBit, if_neg below, if_pos rfl,
    bitsToPacket_idle (s := { feed s (List.replicate m false) with idle_zeros := 0 }) idle]
  rfl

theorem pack_zeros (n : Nat) : pack (List.replicate n false) = 0 := by
  induction n with
  | zero => rfl
  | succ n ih =>
      rw [List.replicate_succ', pack_append, ih]
      rfl

theorem pack_ne_zero {ks : List Bool} {p : Nat} (length : (ks ++ List.replicate p false).length = 8)
    (nonzero : pack ks ≠ 0) : pack (ks ++ List.replicate p false) ≠ 0 := by
  intro zero
  have bits := byteBits_pack length
  have zeros : byteBits 0 = List.replicate 8 false := by decide
  rw [zero, zeros] at bits
  have early : ks = List.replicate ks.length false := by
    apply List.eq_replicate_of_mem
    intro b mem
    have : b ∈ List.replicate 8 false := by
      rw [bits]
      exact List.mem_append_left _ mem
    exact List.eq_of_mem_replicate this
  rw [early] at nonzero
  exact nonzero (pack_zeros _)

/-- Zeros finish a character that has a one. -/
theorem feed_nonzero_char (state : s.mstate = .sync) (clear : s.pktReady = false) {ks : List Bool}
    (inByte : InByte s ks) (nonzero : s.g_curbyte ≠ 0) {p : Nat} (left : s.g_bitpos = p) :
    ∃ b, feed s (List.replicate p false) = (s.withByte b).pushSync.matchSync.nextByte := by
  have whole := inByte.left
  have lt := inByte.lt
  have length : (ks ++ List.replicate p false).length = 8 := by
    rw [List.length_append, List.length_replicate]
    omega
  have some : List.replicate p false ≠ [] := by
    rw [ne_eq, List.replicate_eq_nil_iff]
    omega
  rw [inByte.byte] at nonzero
  have quiet := quietly_sync ks state clear (pack_ne_zero length nonzero) inByte some
    (byteBits_pack length).symm
  exact ⟨_, quiet.feed_eq⟩

/-- The zeros after that character are all that counts. -/
theorem feed_false_sync (state : s.mstate = .sync) (clear : s.pktReady = false) {ks : List Bool}
    (inByte : InByte s ks) (nonzero : s.g_curbyte ≠ 0) (pending : NoPendingSync s) {p : Nat}
    (left : s.g_bitpos = p) :
    ∃ q, q ≤ 8 ∧ (feed s (List.replicate (p + q) false)).mstate = .idle ∧
      (feed s (List.replicate (p + q) false)).idle_zeros.toNat = q := by
  have whole := inByte.left
  obtain ⟨b, char⟩ := feed_nonzero_char state clear inByte nonzero left
  have outside := pending p (by omega)
  rw [char] at outside
  by_cases third : 3 ≤ (s.withByte b).pushSync.sync_count
  · refine ⟨0, by omega, ?_⟩
    rw [Nat.add_zero, char]
    unfold Mac.matchSync at outside ⊢
    rw [if_pos third] at outside ⊢
    split_ifs at outside ⊢ with found
    · exact absurd rfl outside
    · exact ⟨rfl, rfl⟩
  · refine ⟨8, le_rfl, ?_⟩
    rw [← List.replicate_append_replicate, feed_append, char, Mac.matchSync, if_neg third]
    have next := quietly_zero_char (s := (s.withByte b).pushSync.nextByte)
        (p := 8) state clear rfl rfl (by omega)
    rw [next.feed_eq]
    exact ⟨rfl, rfl⟩

/-- The preamble ends far from the next packet. -/
theorem feed_lost_preamble (state : s.mstate = .sync) (clear : s.pktReady = false) {ks : List Bool}
    (inByte : InByte s ks) (nonzero : s.g_curbyte ≠ 0) (pending : NoPendingSync s) :
    (feed s (List.replicate 33 false ++ syncBits)).mstate ≠ .packet := by
  have whole := inByte.left
  have lt := inByte.lt
  obtain ⟨p, left⟩ : ∃ p : Nat, s.g_bitpos = p := ⟨s.g_bitpos.toNat, by omega⟩
  obtain ⟨q, le, idle, count⟩ := feed_false_sync state clear inByte nonzero pending left
  have far := feed_early_one (m := 33 - (p + q)) idle (by omega)
  rw [← feed_append, ← List.append_assoc, List.replicate_append_replicate,
    show p + q + (33 - (p + q)) = 33 by omega]
    at far
  have split : syncBits = [true] ++ syncBits.tail := rfl
  rw [split, ← List.append_assoc, feed_append]
  refine (feed_untouched ?_).1
  rw [far]
  decide

/-! ### How long a packet takes -/

theorem Tracks.feed {h : List Bool} (tracks : Tracks s h) (bits : List Bool) :
    Tracks (Demod.feed s bits) (h ++ bits) := by
  induction bits generalizing s h with
  | nil =>
      rw [List.append_nil]
      exact tracks
  | cons bit bits ih =>
      have first : Tracks (putBitMac s bit) (h ++ [bit]) := (tracks_putBitMac tracks).1
      have next := ih first
      rwa [List.append_assoc] at next

/-- A packet that was not begun before has fewer bits than were fed since. -/
theorem packetBits_lt {h : List Bool} (tracks : Tracks s h) (outside : s.mstate ≠ .packet)
    (bits : List Bool) (state : (feed s bits).mstate = .packet) :
    (feed s bits).packetBits < bits.length := by
  induction bits using List.reverseRecOn with
  | nil => exact absurd state outside
  | append_singleton bits bit ih =>
      have before := tracks.feed bits
      rw [feed_append, feed_cons, feed_nil] at state ⊢
      rw [List.length_append, List.length_singleton]
      by_cases inside : (feed s bits).mstate = .packet
      · have fewer := ih inside
        rw [packetBits_succ before inside state]
        push_cast
        omega
      · have start := (safe_bit before bit).entry inside state
        unfold Mac.packetBits
        rw [start.read, start.bitpos]
        simp

/-- A packet is flagged after as many bits as its header announces. -/
theorem ends_packetBits {h : List Bool} {bit : Bool} (tracks : Tracks s h) (ends : s.Ends bit) :
    ∃ len, Mac.headerLength (putBitMac s bit).pkt = some len ∧
      s.packetBits + 1 = 8 * len.toNat := by
  obtain ⟨state, t, read, ended⟩ := ends
  obtain ⟨before, ks, _, _, inByte, known⟩ := tracks.packet state
  obtain ⟨len, rfl, length⟩ := readHeader_some known read
  rw [putBitMac_packet state, packetBit_some read, (checkEnd_pkt _).1]
  have kept : (Mac.shift { s with pkt_len := len } bit).storeByte.pkt_len = len := by
    unfold Mac.storeByte
    split_ifs <;> rfl
  rw [Mac.Ended, kept] at ended
  rcases length with ⟨zero, -⟩ | ⟨header, ge, lt⟩
  · exact absurd zero ended.1
  · have small := pkt_read_small header lt
    have lt := UInt32.lt_iff_toNat_lt.mp lt
    have le := UInt32.le_iff_toNat_le.mp ended.2
    by_cases done : (Mac.shift { s with pkt_len := len } bit).g_bitpos = 0
    · rw [Mac.storeByte, if_pos done] at le ⊢
      refine ⟨len, (headerLength_update ge).trans header, ?_⟩
      have le : len.toNat ≤ (s.pkt_read + 1).toNat := le
      rw [pkt_read_succ small] at le
      have done : s.g_bitpos - 1 = 0 := done
      unfold Mac.packetBits
      omega
    · rw [Mac.storeByte, if_neg done] at le
      have le : len.toNat ≤ s.pkt_read.toNat := le
      omega

/-- A frame is lost if the MAC is in a false sync character that has a one. -/
theorem not_flags {h : List Bool} (tracks : Tracks s h) (clear : s.pktReady = false)
    (state : s.mstate = .sync) (nonzero : s.g_curbyte ≠ 0) (pending : NoPendingSync s)
    (packet : IsPacket bytes) :
    ¬ Flags s (frameOf bytes) bytes := by
  rintro ⟨bits, bit, split, sets, got⟩
  obtain ⟨before, n, ks, _, _, inByte, _⟩ := tracks.sync state
  have outside := feed_lost_preamble state clear inByte nonzero pending
  have length := length_bytesBits bytes
  have long := packet.length_le
  have some : bytesBits bytes ≠ [] := by
    rw [ne_eq, ← List.length_eq_zero_iff]
    omega
  obtain ⟨xs, last, ends⟩ : ∃ xs last, bytesBits bytes = xs ++ [last] :=
    ⟨_, _, (List.dropLast_append_getLast some).symm⟩
  have cut : frameOf bytes = (List.replicate 33 false ++ syncBits ++ xs) ++ [last] := by
    rw [frameOf, frame_eq, ends]
    simp only [List.append_assoc]
  obtain ⟨rfl, same⟩ := List.append_inj' (split.symm.trans cut) rfl
  have after := tracks.feed (List.replicate 33 false ++ syncBits)
  obtain ⟨len, header, bits_len⟩ := ends_packetBits (tracks.feed _) ((setsReady_iff _ _).mp sets)
  obtain ⟨len', header', bytes_len⟩ := packet.headerLength (by omega) got
  have last_pkt : (feed s (frameOf bytes)).pkt =
      (putBitMac (feed s (List.replicate 33 false ++ syncBits ++ xs)) bit).pkt := by
    rw [split, feed_append]
    rfl
  rw [last_pkt, header] at header'
  have lens := Option.some.inj header'
  have begun := ((setsReady_iff _ _).mp sets).1
  rw [feed_append] at begun bits_len
  have fewer := packetBits_lt after outside xs begun
  rw [ends, List.length_append, List.length_singleton] at length
  rw [lens] at bits_len
  omega

end Lost

/-! ### Resynchronisation -/

theorem flags_withFlag {s : Mac} {frame : List Bool} {bytes : List UInt8} (r : Bool)
    (flags : Flags s frame bytes) :
    Flags (s.withFlag r) frame bytes := by
  obtain ⟨bits, bit, split, sets, got⟩ := flags
  obtain ⟨r₁, before⟩ := feed_flag s r bits
  obtain ⟨r₂, after⟩ := feed_flag s r frame
  refine ⟨bits, bit, split, ?_, ?_⟩
  · rw [before]
    exact sets
  · rw [after]
    exact got

theorem Tracks.withFlag {s : Mac} {h : List Bool} (tracks : Tracks s h) (r : Bool) :
    Tracks (s.withFlag r) h := by
  refine ⟨tracks.idle, ?_, ?_⟩
  · intro state
    obtain ⟨before, n, ks, hn, history, inByte, count⟩ := tracks.sync state
    exact ⟨before, n, ks, hn, history, ⟨inByte.byte, inByte.left, inByte.lt⟩, count⟩
  · intro state
    obtain ⟨before, ks, preamble, history, inByte, known⟩ := tracks.packet state
    exact ⟨before, ks, preamble, history, ⟨inByte.byte, inByte.left, inByte.lt⟩, known⟩

/-- After any bits that do not end in a packet, and unless the preamble completes a pending sync
sequence, a frame is recognised if and only if the MAC is not in a character that has a one. -/
theorem mac_resync (bits : List Bool) (bytes : List UInt8) (packet : IsPacket bytes)
    (outside : (feed .initial bits).mstate ≠ .packet) (pending : NoPendingSync (feed .initial bits)) :
    Flags (feed .initial bits) (frameOf bytes) bytes ↔
      ¬ ((feed .initial bits).mstate = .sync ∧ (feed .initial bits).g_curbyte ≠ 0) := by
  have tracks := tracks_feed bits
  constructor
  · rintro flags ⟨state, nonzero⟩
    have cleared := flags_withFlag false flags
    refine not_flags (tracks.withFlag false) rfl state nonzero ?_ packet cleared
    intro k le
    obtain ⟨r, same⟩ := feed_flag (feed .initial bits) false (List.replicate k false)
    rw [same]
    exact pending k le
  · intro good
    cases state : (feed .initial bits).mstate with
    | idle => exact flags_of_idle packet state
    | packet => exact absurd state outside
    | sync =>
        apply flags_of_zero_char packet state
        · exact not_not.mp fun nonzero => good ⟨state, nonzero⟩
        · exact tracks.bitpos (by simp [state])

theorem noPendingSync_of_few {s : Mac} (far : 32 < s.bitsToPacket) : NoPendingSync s := by
  intro k le
  refine (feed_untouched ?_).1
  rw [List.length_replicate]
  omega

/-- From reset a frame is recognised. -/
theorem initial_resync : Flags .initial (frameOf samplePacket) samplePacket :=
  (mac_resync [] samplePacket samplePacket_isPacket (by decide) (noPendingSync_of_few (by decide))).mpr (by decide)

/-- A one after enough zeros starts a false sync character, and the frame after it is lost. -/
theorem lost_after_one :
    ¬ ∀ bits bytes, IsPacket bytes → (feed .initial bits).mstate ≠ .packet →
      NoPendingSync (feed .initial bits) →
      Flags (feed .initial bits) (frameOf bytes) bytes := by
  intro recognised
  let noise : List Bool := List.replicate 33 false ++ [true]
  have outside : (feed .initial noise).mstate ≠ .packet := by decide +kernel
  have pending : NoPendingSync (feed .initial noise) := by
    unfold NoPendingSync
    decide +kernel
  have flags := recognised noise samplePacket samplePacket_isPacket outside pending
  have state : (feed .initial noise).mstate = .sync := by decide +kernel
  have nonzero : (feed .initial noise).g_curbyte ≠ 0 := by decide +kernel
  have clear : (feed .initial noise).pktReady = false := by decide +kernel
  exact not_flags (tracks_feed noise) clear state nonzero pending samplePacket_isPacket flags

end LtcOs.Demod
