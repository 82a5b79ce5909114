import LtcOs.MacFraming
import LtcOs.UpdaterDelivery

/-!
The link: from the packets a sender transmits to the calls of `updaterPacketProcess`.

The demodulator hands the MAC a few bits at a time, and `demod_loop` looks at
`pktReady` only after each chunk. Chunks too short for a second packet make no
difference to the bits handled one at a time (`demodBits_chunks`), and for those the
framing of the MAC applies packet by packet.
-/

namespace LtcOs.Demod

open LtcOs.Memory LtcOs.Bits LtcOs.Updater LtcOs.Flash

/-! ### The packet branch of `demod_loop` -/

/-- What byte `i` of a data packet is striped with; zero where it is left alone. -/
def stripeMask (version : UInt8) (i : Nat) : UInt8 :=
  if version = PKT_VER_1 then
    if i % 16 = 7 then 0x55 else if i % 16 = 15 then 0xAA else 0
  else if version = PKT_VER_2 then
    if i % 3 = 0 then 0x35 else if i % 3 = 1 then 0xac else 0x95
  else 0

def unstripeByte (pkt : Packet) (i : Nat) : Packet :=
  Function.update pkt i (pkt i ^^^ stripeMask pkt.version i)

/-- Unstripe the transition xor's used to keep baud sync, on all but the header
and the ending hash. -/
def unstripe (pkt : Packet) : Packet :=
  if pkt.type = PKTTYPE_DATA then (List.range' 2 258).foldl unstripeByte pkt else pkt

/-- What `demod_loop` works on, apart from the samples. -/
structure Loop where
  mac : Mac
  astate : AppState
  mem : Mem

/-- The part of `demod_loop` after the wait for `pktReady`, `none` if
`updaterPacketProcess` does not return. -/
def Loop.packetBranch (R : Ram) (bus : Nat → Option UInt8) (s : Loop) : Option Loop :=
  match (updaterPacketProcess R s.astate (unstripe s.mac.pkt)).run (device bus) s.mem with
  | some (.returned astate _, mem) => some ⟨s.mac.withPkt (unstripe s.mac.pkt) false, astate, mem⟩
  | _ => none

/-- `demod_loop` on bits that arrive in chunks: the packets `updaterPacketProcess`
is called with, and the state after the last chunk unless a call did not return. -/
def demodBits (R : Ram) (bus : Nat → Option UInt8) :
    Loop → List (List Bool) → List Packet × Option Loop
  | s, [] => ([], some s)
  | s, chunk :: chunks =>
      let s := { s with mac := feed s.mac chunk }
      if s.mac.pktReady then
        match s.packetBranch R bus with
        | none => ([unstripe s.mac.pkt], none)
        | some s' =>
            let rest := demodBits R bus s' chunks
            (unstripe s.mac.pkt :: rest.1, rest.2)
      else demodBits R bus s chunks

/-! ### The sender -/

/-- A packet as it goes over the air. -/
def stripe (bytes : List UInt8) : List UInt8 :=
  if bytes[1]? = some PKTTYPE_DATA then
    bytes.mapIdx fun i b => if 2 ≤ i ∧ i < 260 then b ^^^ stripeMask (bytes.getD 0 0) i else b
  else bytes

/-- The bits of one packet: the preamble, then the packet. -/
def encode (bytes : List UInt8) : List Bool :=
  bytesBits ([0, 0, 0, 0, 0xAA, 0x55, 0x42] ++ stripe bytes)

/-- Packets, each after a number of extra zeros, and zeros at the end. -/
def transmission (trailing : Nat) : List (Nat × List UInt8) → List Bool
  | [] => List.replicate trailing false
  | (gap, bytes) :: sent => List.replicate gap false ++ (encode bytes ++ transmission trailing sent)

/-! ### Striping -/

theorem foldl_unstripe (pkt : Packet) (n i : Nat) :
    (List.range' 2 n).foldl unstripeByte pkt i =
      if 2 ≤ i ∧ i < 2 + n then pkt i ^^^ stripeMask pkt.version i else pkt i := by
  induction n generalizing i with
  | zero => rw [List.range'_zero, List.foldl_nil, if_neg (by omega)]
  | succ n ih =>
      -- the header is not among the bytes written
      have version : Packet.version ((List.range' 2 n).foldl unstripeByte pkt) = pkt.version := by
        rw [Packet.version, ih, if_neg (by omega)]
        rfl
      rw [List.range'_concat, List.foldl_append, List.foldl_cons, List.foldl_nil, unstripeByte,
        version]
      by_cases last : i = 2 + 1 * n
      · rw [last, Function.update_self, ih, if_neg (by omega), if_pos (by omega)]
      · rw [Function.update_of_ne last, ih]
        by_cases inside : 2 ≤ i ∧ i < 2 + n
        · rw [if_pos inside, if_pos (by omega)]
        · rw [if_neg inside, if_neg (by omega)]

theorem unstripe_data {pkt : Packet} (data : pkt.type = PKTTYPE_DATA) (i : Nat) :
    unstripe pkt i = if 2 ≤ i ∧ i < 260 then pkt i ^^^ stripeMask pkt.version i else pkt i := by
  rw [unstripe, if_pos data]
  exact foldl_unstripe pkt 258 i

theorem stripe_data {bytes : List UInt8} (data : bytes[1]? = some PKTTYPE_DATA) (i : Nat) :
    (stripe bytes)[i]? = bytes[i]?.map fun b =>
      if 2 ≤ i ∧ i < 260 then b ^^^ stripeMask (bytes.getD 0 0) i else b := by
  rw [stripe, if_pos data, List.getElem?_mapIdx]

theorem length_stripe (bytes : List UInt8) : (stripe bytes).length = bytes.length := by
  unfold stripe
  split_ifs
  · exact List.length_mapIdx
  · rfl

/-- The header goes over the air as it is. -/
theorem stripe_header (bytes : List UInt8) {i : Nat} (hi : i < 2) :
    (stripe bytes)[i]? = bytes[i]? := by
  by_cases data : bytes[1]? = some PKTTYPE_DATA
  · rw [stripe_data data]
    cases bytes[i]? with
    | none => rfl
    | some b => rw [Option.map_some, if_neg (by omega)]
  · rw [stripe, if_neg data]

theorem isPacket_stripe {bytes : List UInt8} (packet : IsPacket bytes) :
    IsPacket (stripe bytes) := by
  constructor
  · rw [stripe_header bytes (by omega)]
    exact packet.version
  · rw [stripe_header bytes (by omega), length_stripe]
    exact packet.length

/-- The buffer holds the bytes. -/
def Holds (pkt : Packet) (bytes : List UInt8) : Prop :=
  ∀ i, i < bytes.length → bytes[i]? = some (pkt i)

/-- What was striped by the sender is unstriped by the receiver. -/
theorem unstripe_stripe {bytes : List UInt8} (packet : IsPacket bytes) {pkt : Packet}
    (got : Holds pkt (stripe bytes)) : Holds (unstripe pkt) bytes := by
  intro i hi
  obtain ⟨long, -⟩ := packet.length_le
  have at_byte : ∀ j, j < bytes.length → (stripe bytes)[j]? = some (pkt j) := by
    intro j hj
    exact got j (by rwa [length_stripe])
  have version : bytes[0]? = some pkt.version :=
    (stripe_header bytes (by omega)).symm.trans (at_byte 0 (by omega))
  have type : bytes[1]? = some pkt.type :=
    (stripe_header bytes (by omega)).symm.trans (at_byte 1 (by omega))
  have here := at_byte i hi
  by_cases data : pkt.type = PKTTYPE_DATA
  · rw [stripe_data (type.trans (congrArg some data)), List.getElem?_eq_getElem hi, Option.map_some,
      List.getD_eq_getElem?_getD, version, Option.getD_some] at here
    have here := Option.some.inj here
    rw [List.getElem?_eq_getElem hi, unstripe_data data, ← here]
    split_ifs
    · rw [UInt8.xor_assoc, UInt8.xor_self, UInt8.xor_zero]
    · rfl
  · have other : bytes[1]? ≠ some PKTTYPE_DATA := by
      intro h
      exact data (Option.some.inj (type.symm.trans h))
    rw [stripe, if_neg other] at here
    rwa [unstripe, if_neg data]

/-! ### Chunks against single bits -/

section Chunks

variable {R : Ram} {bus : Nat → Option UInt8} {s : Loop}

/-- One chunk for each bit. -/
def singles (bits : List Bool) : List (List Bool) := bits.map fun bit => [bit]

theorem singles_append (xs ys : List Bool) : singles (xs ++ ys) = singles xs ++ singles ys :=
  List.map_append

theorem demodBits_clear (chunk : List Bool) (chunks : List (List Bool))
    (clear : (feed s.mac chunk).pktReady = false) :
    demodBits R bus s (chunk :: chunks) =
      demodBits R bus { s with mac := feed s.mac chunk } chunks := by
  have : ¬ (feed s.mac chunk).pktReady = true := by simp [clear]
  rw [demodBits]
  exact if_neg this

theorem demodBits_ready (chunk : List Bool) (chunks : List (List Bool))
    (ready : (feed s.mac chunk).pktReady = true) :
    demodBits R bus s (chunk :: chunks) =
      match Loop.packetBranch R bus { s with mac := feed s.mac chunk } with
      | none => ([unstripe (feed s.mac chunk).pkt], none)
      | some s' =>
          (unstripe (feed s.mac chunk).pkt :: (demodBits R bus s' chunks).1,
            (demodBits R bus s' chunks).2) := by
  rw [demodBits]
  exact if_pos ready

/-- Bits that flag nothing are only fed to the MAC. -/
theorem demodBits_quietly {bits : List Bool} {t : Mac} (quiet : Quietly s.mac bits t)
    (clear : t.pktReady = false) (rest : List (List Bool)) :
    demodBits R bus s (singles bits ++ rest) = demodBits R bus { s with mac := t } rest := by
  induction bits generalizing s with
  | nil =>
      cases quiet with
      | nil => rfl
  | cons bit bits ih =>
      cases quiet with
      | cons _ quiet =>
          have next : (feed s.mac [bit]).pktReady = false := by
            cases quiet with
            | nil => exact clear
            | cons clear _ => exact clear
          refine (demodBits_clear [bit] (singles bits ++ rest) next).trans ?_
          exact ih (s := { s with mac := feed s.mac [bit] }) quiet

/-- Bits of which the last flags a packet. -/
theorem demodBits_packet {bits : List Bool} {t : Mac} (quiet : Quietly s.mac bits t)
    (clear : s.mac.pktReady = false) (ready : t.pktReady = true) (rest : List (List Bool)) :
    demodBits R bus s (singles bits ++ rest) =
      match Loop.packetBranch R bus { s with mac := t } with
      | none => ([unstripe t.pkt], none)
      | some s' =>
          (unstripe t.pkt :: (demodBits R bus s' rest).1, (demodBits R bus s' rest).2) := by
  induction bits generalizing s with
  | nil =>
      cases quiet with
      | nil => exact absurd (clear.symm.trans ready) (by simp)
  | cons bit bits ih =>
      cases quiet with
      | cons _ quiet =>
          cases quiet with
          | nil => exact demodBits_ready [bit] rest ready
          | cons clear' quiet' =>
              refine (demodBits_clear [bit] (singles _ ++ rest) clear').trans ?_
              exact ih (s := { s with mac := feed s.mac [bit] }) (.cons clear' quiet') clear'

theorem putBitMac_withPkt {s : Mac} (outside : s.mstate ≠ .packet) (bit : Bool) (p : Packet)
    (r : Bool) :
    putBitMac (s.withPkt p r) bit = (putBitMac s bit).withPkt p r := by
  cases state : s.mstate with
  | idle =>
      rw [putBitMac_idle state, putBitMac_idle (show (s.withPkt p r).mstate = .idle from state)]
      exact idleBit_withPkt s bit p r
  | sync =>
      rw [putBitMac_sync state, putBitMac_sync (show (s.withPkt p r).mstate = .sync from state)]
      exact syncBit_withPkt s bit p r
  | packet => exact absurd state outside

/-- On the way to the next packet it does not matter when the buffer is emptied. -/
theorem feed_withPkt {s : Mac} {bits : List Bool} (few : bits.length < s.bitsToPacket) (p : Packet)
    (r : Bool) : feed (s.withPkt p r) bits = (feed s bits).withPkt p r := by
  induction bits generalizing s with
  | nil => rfl
  | cons bit bits ih =>
      rw [List.length_cons] at few
      have step := bitsToPacket_putBitMac s bit
      rw [feed_cons, feed_cons, putBitMac_withPkt (not_packet_of_pos (by omega)),
        ih (s := putBitMac s bit) (by omega)]

theorem quietly_few {s : Mac} {bits : List Bool} (few : bits.length < s.bitsToPacket)
    (clear : s.pktReady = false) : Quietly s bits (feed s bits) := by
  induction bits generalizing s with
  | nil => exact .nil s
  | cons bit bits ih =>
      rw [List.length_cons] at few
      have step := bitsToPacket_putBitMac s bit
      obtain ⟨-, same⟩ := putBitMac_untouched (not_packet_of_pos (s := s) (by omega)) bit
      exact .cons clear (ih (by omega) (same.trans clear))

/-- The rest of a chunk may as well come after the packet is processed. -/
theorem packetBranch_feed {ys : List Bool} (few : ys.length < s.mac.bitsToPacket) :
    Loop.packetBranch R bus { s with mac := feed s.mac ys } =
      (s.packetBranch R bus).map fun s' => { s' with mac := feed s'.mac ys } := by
  have pkt : (feed s.mac ys).pkt = s.mac.pkt := (feed_untouched few).2.1
  unfold Loop.packetBranch
  rw [pkt]
  cases (updaterPacketProcess R s.astate (unstripe s.mac.pkt)).run (device bus) s.mem with
  | none => rfl
  | some result =>
      obtain ⟨exit, mem⟩ := result
      cases exit with
      | returned astate err => rw [Option.map_some, feed_withPkt few]
      | threadExit => rfl
      | hang => rfl

theorem packetBranch_some {s' : Loop} (branch : s.packetBranch R bus = some s') :
    s'.mac = s.mac.withPkt (unstripe s.mac.pkt) false := by
  unfold Loop.packetBranch at branch
  split at branch
  · obtain rfl := Option.some.inj branch
    rfl
  · exact absurd branch (by simp)

theorem demodBits_cons (bit : Bool) (chunk : List Bool) (rest : List (List Bool)) :
    demodBits R bus s ((bit :: chunk) :: rest) =
      demodBits R bus { s with mac := putBitMac s.mac bit } (chunk :: rest) := rfl

/-- A packet in the middle of a chunk. -/
theorem demodBits_ends {bit : Bool} {ys : List Bool} (ends : s.mac.Ends bit) (few : ys.length < 56)
    (rest : List (List Bool)) :
    demodBits R bus s ((bit :: ys) :: rest) =
      demodBits R bus s ([bit] :: (singles ys ++ rest)) := by
  have ready : (putBitMac s.mac bit).pktReady = true := (pktReady_putBitMac _ _).mpr (.inr ends)
  have few : ys.length < (putBitMac s.mac bit).bitsToPacket := by
    rw [bitsToPacket_of_ends ends]
    omega
  obtain ⟨-, pkt, same⟩ := feed_untouched few
  have late : (feed s.mac (bit :: ys)).pktReady = true := same.trans ready
  have branch : Loop.packetBranch R bus { s with mac := feed (putBitMac s.mac bit) ys } = _ :=
    packetBranch_feed (s := { s with mac := putBitMac s.mac bit }) few
  rw [demodBits_ready (bit :: ys) rest late, demodBits_ready [bit] (singles ys ++ rest) ready,
    feed_cons, feed_cons, feed_nil, pkt, branch]
  cases after : Loop.packetBranch R bus { s with mac := putBitMac s.mac bit } with
  | none => rfl
  | some s' =>
      have mac := packetBranch_some after
      have few' : ys.length < s'.mac.bitsToPacket := by
        rw [mac]
        exact few
      have clear : s'.mac.pktReady = false := by
        rw [mac]
        rfl
      have quiet : demodBits R bus s' (singles ys ++ rest) = _ :=
        demodBits_quietly (quietly_few few' clear) ((feed_untouched few').2.2.trans clear) rest
      simp only [Option.map_some, quiet]

/-- A chunk too short for a second packet. -/
theorem demodBits_chunk {chunk : List Bool} (short : chunk.length ≤ 35)
    (clear : s.mac.pktReady = false) (rest : List (List Bool)) :
    demodBits R bus s (chunk :: rest) = demodBits R bus s (singles chunk ++ rest) := by
  induction chunk generalizing s with
  | nil => exact demodBits_clear [] rest clear
  | cons bit chunk ih =>
      rw [List.length_cons] at short
      cases flag : (putBitMac s.mac bit).pktReady with
      | false =>
          have more := ih (s := { s with mac := putBitMac s.mac bit }) (by omega) flag
          rw [demodBits_cons, more]
          exact (demodBits_clear [bit] (singles chunk ++ rest) flag).symm
      | true =>
          rcases (pktReady_putBitMac s.mac bit).mp flag with set | ends
          · exact absurd (clear.symm.trans set) (by simp)
          · exact demodBits_ends ends (by omega) rest

/-- The flag is clear whenever the loop waits for the next chunk. -/
theorem demodBits_congr {xs ys : List (List Bool)} (chunks : List (List Bool))
    (same : ∀ s : Loop, s.mac.pktReady = false → demodBits R bus s xs = demodBits R bus s ys)
    (clear : s.mac.pktReady = false) :
    demodBits R bus s (chunks ++ xs) = demodBits R bus s (chunks ++ ys) := by
  induction chunks generalizing s with
  | nil => exact same s clear
  | cons chunk chunks ih =>
      rw [List.cons_append, List.cons_append]
      cases flag : (feed s.mac chunk).pktReady with
      | false =>
          rw [demodBits_clear chunk _ flag, demodBits_clear chunk _ flag]
          exact ih flag
      | true =>
          rw [demodBits_ready chunk _ flag, demodBits_ready chunk _ flag]
          cases after : Loop.packetBranch R bus { s with mac := feed s.mac chunk } with
          | none => rfl
          | some s' =>
              have clear' : s'.mac.pktReady = false := by
                rw [packetBranch_some after]
                rfl
              simp only [ih clear']

/-- Chunks of at most 35 bits make no difference. -/
theorem demodBits_chunks {chunks : List (List Bool)} (short : ∀ chunk ∈ chunks, chunk.length ≤ 35)
    (clear : s.mac.pktReady = false) :
    demodBits R bus s chunks = demodBits R bus s (singles chunks.flatten) := by
  induction chunks generalizing s with
  | nil => rfl
  | cons chunk chunks ih =>
      rw [List.flatten_cons, singles_append,
        demodBits_chunk (short chunk List.mem_cons_self) clear]
      apply demodBits_congr (singles chunk) _ clear
      intro s clear
      exact ih (fun c hc => short c (List.mem_cons_of_mem _ hc)) clear

end Chunks

/-! ### Delivery -/

section Delivery

variable {R : Ram} {bus : Nat → Option UInt8} {s : Loop}

theorem quietly_gap {s : Mac} (state : s.mstate = .idle) (clear : s.pktReady = false) (gap : Nat) :
    ∃ t, Quietly s (List.replicate gap false) t ∧ t.mstate = .idle ∧ t.pktReady = false := by
  obtain ⟨z, quiet, -⟩ := quietly_zeros state clear gap
  exact ⟨_, quiet, state, clear⟩

/-- Calls of `updaterPacketProcess` one after the other: the state of the updater and
the memory that they lead to, `none` if one of them does not return. -/
def called (R : Ram) (bus : Nat → Option UInt8) :
    AppState × Mem → List Packet → Option (AppState × Mem)
  | state, [] => some state
  | (astate, mem), pkt :: pkts =>
      match (updaterPacketProcess R astate pkt).run (device bus) mem with
      | some (.returned astate _, mem) => called R bus (astate, mem) pkts
      | _ => none

theorem called_cons (state : AppState × Mem) (pkt : Packet) (pkts : List Packet) :
    called R bus state (pkt :: pkts) =
      (called R bus state [pkt]).bind fun state => called R bus state pkts := by
  obtain ⟨astate, mem⟩ := state
  rw [called, called]
  split <;> rfl

theorem packetBranch_called (s : Loop) :
    called R bus (s.astate, s.mem) [unstripe s.mac.pkt] =
      (s.packetBranch R bus).map fun s' => (s'.astate, s'.mem) := by
  rw [called, Loop.packetBranch]
  split <;> rfl

/-- The calls made are on the first packets sent, one call each. Either all of them return
and they are on all the packets, or the last one is a call that does not return. -/
structure Delivers (R : Ram) (bus : Nat → Option UInt8) (s : Loop)
    (result : List Packet × Option Loop) (sent : List (List UInt8)) : Prop where
  calls : List.Forall₂ Holds result.1 (sent.take result.1.length)
  all : result.2.isSome → result.1.length = sent.length
  returned : ∀ s', result.2 = some s' →
    called R bus (s.astate, s.mem) result.1 = some (s'.astate, s'.mem)
  stopped : result.2 = none → ∃ before last state, result.1 = before ++ [last] ∧
    called R bus (s.astate, s.mem) before = some state ∧ called R bus state [last] = none

theorem delivers_nothing (s : Loop) (mac : Mac) :
    Delivers R bus s ([], some { s with mac := mac }) [] where
  calls := .nil
  all _ := rfl
  returned := by
    rintro s' ⟨⟩
    rfl
  stopped := nofun

/-- One more packet, of which the call returns. -/
theorem Delivers.cons {s' : Loop} {bytes : List UInt8} {sent : List (List UInt8)}
    {rest : List Packet × Option Loop} (holds : Holds (unstripe s.mac.pkt) bytes)
    (branch : s.packetBranch R bus = some s') (delivers : Delivers R bus s' rest sent) :
    Delivers R bus s (unstripe s.mac.pkt :: rest.1, rest.2) (bytes :: sent) := by
  have call : called R bus (s.astate, s.mem) [unstripe s.mac.pkt] = some (s'.astate, s'.mem) := by
    rw [packetBranch_called, branch, Option.map_some]
  have first : ∀ pkts, called R bus (s.astate, s.mem) (unstripe s.mac.pkt :: pkts) =
      called R bus (s'.astate, s'.mem) pkts := by
    intro pkts
    rw [called_cons, call, Option.bind_some]
  constructor
  · exact .cons holds delivers.calls
  · intro returned
    exact congrArg (· + 1) (delivers.all returned)
  · intro t after
    exact (first rest.1).trans (delivers.returned t after)
  · intro after
    obtain ⟨before, last, state, split, passed, stopped⟩ := delivers.stopped after
    exact ⟨unstripe s.mac.pkt :: before, last, state,
      congrArg (unstripe s.mac.pkt :: ·) split, (first before).trans passed, stopped⟩

theorem delivers_stopped {bytes : List UInt8} (sent : List (List UInt8))
    (holds : Holds (unstripe s.mac.pkt) bytes) (branch : s.packetBranch R bus = none) :
    Delivers R bus s ([unstripe s.mac.pkt], none) (bytes :: sent) := by
  constructor
  · exact .cons holds .nil
  · simp
  · simp
  · intro _
    refine ⟨[], unstripe s.mac.pkt, (s.astate, s.mem), rfl, rfl, ?_⟩
    rw [packetBranch_called, branch, Option.map_none]

/-- Only what the calls work on matters. -/
theorem Delivers.of_mac {mac : Mac} {result : List Packet × Option Loop}
    {sent : List (List UInt8)} (delivers : Delivers R bus { s with mac := mac } result sent) :
    Delivers R bus s result sent where
  calls := delivers.calls
  all := delivers.all
  returned := delivers.returned
  stopped := delivers.stopped

theorem transmission_trailing (trailing : Nat) (sent : List (Nat × List UInt8)) :
    transmission trailing sent = transmission 0 sent ++ List.replicate trailing false := by
  induction sent with
  | nil => rfl
  | cons p sent ih => rw [transmission, transmission, ih, List.append_assoc, List.append_assoc]

/-- Packets bit by bit, from `MAC_IDLE`, with something behind them that is no packet. -/
theorem delivers_packets {sent : List (Nat × List UInt8)} {part : List Bool}
    (packets : ∀ p ∈ sent, IsPacket p.2)
    (behind : ∀ s : Loop, s.mac.mstate = .idle → s.mac.pktReady = false →
      Delivers R bus s (demodBits R bus s (singles part)) [])
    (state : s.mac.mstate = .idle) (clear : s.mac.pktReady = false) :
    Delivers R bus s (demodBits R bus s (singles (transmission 0 sent ++ part)))
      (sent.map Prod.snd) := by
  induction sent generalizing s with
  | nil => exact behind s state clear
  | cons p sent ih =>
      obtain ⟨gap, bytes⟩ := p
      have packet : IsPacket bytes := packets _ List.mem_cons_self
      obtain ⟨t, quiet, state', clear'⟩ := quietly_gap state clear gap
      obtain ⟨u, frame, received⟩ := quietly_frame (isPacket_stripe packet) state' clear'
      have holds : Holds (unstripe u.pkt) bytes := unstripe_stripe packet received.got
      rw [transmission, List.append_assoc, List.append_assoc, singles_append, singles_append,
        demodBits_quietly quiet clear', demodBits_packet frame clear' received.ready]
      cases after : Loop.packetBranch R bus { s with mac := u } with
      | none => exact (delivers_stopped _ holds after).of_mac
      | some s' =>
          have mac := packetBranch_some after
          refine (Delivers.cons holds after (ih ?_ ?_ ?_)).of_mac
          · exact fun p hp => packets p (List.mem_cons_of_mem _ hp)
          · rw [mac]
            exact received.state
          · rw [mac]
            rfl

/-- Bit by bit, from `MAC_IDLE`. -/
theorem delivers_singles {sent : List (Nat × List UInt8)} (trailing : Nat)
    (packets : ∀ p ∈ sent, IsPacket p.2) (state : s.mac.mstate = .idle)
    (clear : s.mac.pktReady = false) :
    Delivers R bus s (demodBits R bus s (singles (transmission trailing sent)))
      (sent.map Prod.snd) := by
  rw [transmission_trailing]
  refine delivers_packets packets (fun s state clear => ?_) state clear
  obtain ⟨t, quiet, -, clear'⟩ := quietly_gap state clear trailing
  have zeros : demodBits R bus s (singles (List.replicate trailing false) ++ []) = _ :=
    demodBits_quietly quiet clear' []
  rw [List.append_nil] at zeros
  rw [zeros]
  exact delivers_nothing s t

end Delivery

/-- Link-level delivery. Packets of either version and type, striped, framed and
sent with any number of zeros between them, reach `updaterPacketProcess` from reset
in chunks of at most 35 bits: one call each, in order, on the bytes the sender
started from, up to the first call that does not return. -/
theorem link_delivers (R : Ram) (bus : Nat → Option UInt8) (astate : AppState) (mem : Mem)
    (sent : List (Nat × List UInt8)) (trailing : Nat) (packets : ∀ p ∈ sent, IsPacket p.2)
    (chunks : List (List Bool)) (short : ∀ chunk ∈ chunks, chunk.length ≤ 35)
    (stream : chunks.flatten = transmission trailing sent) :
    Delivers R bus ⟨.initial, astate, mem⟩ (demodBits R bus ⟨.initial, astate, mem⟩ chunks)
      (sent.map Prod.snd) := by
  rw [demodBits_chunks short rfl, stream]
  exact delivers_singles trailing packets rfl rfl

/-- A control packet of the second version, and a data packet of the first. -/
def samplePackets : List (Nat × List UInt8) :=
  [(3, 2 :: 1 :: List.replicate 30 7), (0, 1 :: 2 :: List.replicate 262 9)]

/-- The bits in `n` chunks of 35. -/
def chunks35 (bits : List Bool) (n : Nat) : List (List Bool) :=
  (List.range n).map fun k => (bits.drop (35 * k)).take 35

theorem flatten_chunks35 (bits : List Bool) (n : Nat) :
    (chunks35 bits n).flatten = bits.take (35 * n) := by
  induction n with
  | zero => simp [chunks35]
  | succ n ih =>
      rw [chunks35] at ih ⊢
      rw [List.range_succ, List.map_append, List.flatten_append, ih, Nat.mul_succ, List.take_add]
      simp

theorem length_encode (bytes : List UInt8) : (encode bytes).length = 8 * (7 + bytes.length) := by
  rw [encode, length_bytesBits, List.length_append, length_stripe]
  rfl

theorem samplePackets_delivers :
    Delivers sampleRam (fun _ => none) ⟨.initial, .idle, fun _ => 0xFF⟩
      (demodBits sampleRam (fun _ => none) ⟨.initial, .idle, fun _ => 0xFF⟩
        (chunks35 (transmission 1 samplePackets) 71)) (samplePackets.map Prod.snd) := by
  apply link_delivers _ _ _ _ samplePackets 1
  · intro p hp
    rcases List.mem_pair.mp hp with rfl | rfl
    · exact ⟨.inr rfl, .inl ⟨rfl, congrArg (· + 2) List.length_replicate⟩⟩
    · exact ⟨.inl rfl, .inr ⟨rfl, congrArg (· + 2) List.length_replicate⟩⟩
  · intro chunk hchunk
    obtain ⟨k, -, rfl⟩ := List.mem_map.mp hchunk
    exact List.length_take_le _ _
  · rw [flatten_chunks35, List.take_of_length_le]
    simp only [samplePackets, transmission, length_encode, List.length_append, List.length_cons,
      List.length_replicate]
    omega

end LtcOs.Demod
