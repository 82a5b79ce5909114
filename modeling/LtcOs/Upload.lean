import LtcOs.Link

/-!
An upload, from the bits off the air to the program in flash.

The receiver is the demodulator thread as a whole: the MAC in RAM and the bootloader
it feeds. Between two resets it gets what a sender transmits until it is broken off.
Seen at packet boundaries it is the bootloader on the packets sent
(`sessions_stream`), so the delivery of images carries over to bits
(`upload_delivers`).
-/

namespace LtcOs.Upload

open LtcOs.Memory LtcOs.Flash LtcOs.Murmur3 LtcOs.Updater
open LtcOs.Demod hiding Holds

/-! ### The receiver -/

structure Receiver where
  mac : Mac
  sys : Sys

/-- Bits from the demodulator, or a reset. -/
inductive Input where
  | chunk (bits : List Bool)
  | reset (released : Bool)

/-- The state after an input, `none` if the call it leads to does not return. Nobody
listens any more once the thread has left for the user program or hangs. -/
def Receiver.next (R : Ram) (bus : Nat → Option UInt8) (r : Receiver) : Input → Option Receiver
  | .chunk bits =>
      match r.sys.mode with
      | .waiting _ =>
          let mac := feed r.mac bits
          if mac.pktReady then
            (r.sys.next R bus (.packet (unstripe mac.pkt))).map fun sys =>
              ⟨mac.withPkt (unstripe mac.pkt) false, sys⟩
          else some { r with mac := mac }
      | _ => some r
  | .reset released =>
      (r.sys.next R bus (.reset released)).map fun sys => ⟨.initial, sys⟩

def Receiver.run (R : Ram) (bus : Nat → Option UInt8) (r : Receiver) : List Input → Option Receiver
  | [] => some r
  | input :: inputs => (r.next R bus input).bind fun r' => r'.run R bus inputs

/-- The thread in `demod_loop`. -/
def receiver (s : Loop) : Receiver := ⟨s.mac, ⟨s.mem, .waiting s.astate⟩⟩

/-! ### Sessions -/

/-- The bits of a packet that is not through. -/
def Unfinished (part : List Bool) : Prop :=
  ∃ gap next rest, IsPacket next ∧ rest ≠ [] ∧
    part ++ rest = List.replicate gap false ++ encode next

/-- What the receiver gets between two resets: packets, each after a number of zeros,
until the transmission is broken off. -/
structure Session where
  released : Bool
  sent : List (Nat × List UInt8)
  part : List Bool
  chunks : List (List Bool)
  packets : ∀ p ∈ sent, IsPacket p.2
  unfinished : Unfinished part
  short : ∀ chunk ∈ chunks, chunk.length ≤ 35
  stream : chunks.flatten = transmission 0 sent ++ part

def Session.inputs (session : Session) : List Input :=
  .reset session.released :: session.chunks.map .chunk

/-- The same at packet boundaries, for packets as they come to lie in the buffer. -/
def Session.events (session : Session) (pkts : List Packet) : List Event :=
  .reset session.released :: pkts.map .packet

/-! ### Bits against packets -/

section Bits

variable {R : Ram} {bus : Nat → Option UInt8}

theorem stream_append (s : Sys) (evs evs' : List Event) :
    s.stream R bus (evs ++ evs') =
      (s.stream R bus evs).bind fun s' => s'.stream R bus evs' := by
  induction evs generalizing s with
  | nil => rfl
  | cons ev evs ih =>
      rw [List.cons_append, Sys.stream, Sys.stream]
      cases s.next R bus ev with
      | none => rfl
      | some s' => exact ih s'

theorem run_append (r : Receiver) (inputs inputs' : List Input) :
    r.run R bus (inputs ++ inputs') =
      (r.run R bus inputs).bind fun r' => r'.run R bus inputs' := by
  induction inputs generalizing r with
  | nil => rfl
  | cons input inputs ih =>
      rw [List.cons_append, Receiver.run, Receiver.run]
      cases r.next R bus input with
      | none => rfl
      | some r' => exact ih r'

/-- Nobody is there to listen. -/
def Gone (s : Sys) : Prop := ∀ astate, s.mode ≠ .waiting astate

theorem stream_gone {s : Sys} (gone : Gone s) (pkts : List Packet) :
    s.stream R bus (pkts.map .packet) = some s := by
  induction pkts with
  | nil => rfl
  | cons pkt pkts ih =>
      have next : s.next R bus (.packet pkt) = some s := by
        unfold Sys.next Sys.program
        cases mode : s.mode with
        | waiting astate => exact absurd mode (gone astate)
        | busy cur p => rfl
        | handedOver => rfl
        | hung => rfl
      rw [List.map_cons, Sys.stream, next]
      exact ih

theorem run_gone {r : Receiver} (gone : Gone r.sys) (chunks : List (List Bool)) :
    r.run R bus (chunks.map .chunk) = some r := by
  induction chunks with
  | nil => rfl
  | cons chunk chunks ih =>
      have next : r.next R bus (.chunk chunk) = some r := by
        unfold Receiver.next
        cases mode : r.sys.mode with
        | waiting astate => exact absurd mode (gone astate)
        | busy cur p => rfl
        | handedOver => rfl
        | hung => rfl
      rw [List.map_cons, Receiver.run, next]
      exact ih

/-- The bootloader on the calls made, and where it is if one of them does not return. -/
structure Follows (R : Ram) (bus : Nat → Option UInt8) (s : Loop) (chunks : List (List Bool)) :
    Prop where
  sys : ((receiver s).run R bus (chunks.map .chunk)).map Receiver.sys =
    (receiver s).sys.stream R bus ((demodBits R bus s chunks).1.map .packet)
  stopped : (demodBits R bus s chunks).2 = none →
    ∀ t, (receiver s).sys.stream R bus ((demodBits R bus s chunks).1.map .packet) = some t → Gone t

theorem follows_clear {s : Loop} {chunk : List Bool} {chunks : List (List Bool)}
    (clear : (feed s.mac chunk).pktReady = false)
    (rest : Follows R bus { s with mac := feed s.mac chunk } chunks) :
    Follows R bus s (chunk :: chunks) := by
  have next : (receiver s).next R bus (.chunk chunk) =
      some (receiver { s with mac := feed s.mac chunk }) := by
    simp only [Receiver.next, receiver, clear, Bool.false_eq_true, if_false]
  constructor
  · rw [List.map_cons, Receiver.run, next, demodBits_clear chunk chunks clear]
    exact rest.sys
  · rw [demodBits_clear chunk chunks clear]
    exact rest.stopped

theorem receiver_ready {s : Loop} {chunk : List Bool}
    (ready : (feed s.mac chunk).pktReady = true) :
    (receiver s).next R bus (.chunk chunk) =
      ((receiver s).sys.next R bus (.packet (unstripe (feed s.mac chunk).pkt))).map fun sys =>
        ⟨(feed s.mac chunk).withPkt (unstripe (feed s.mac chunk).pkt) false, sys⟩ := by
  simp only [Receiver.next, receiver, ready, if_true]

/-- A call from which the thread does not come back. -/
theorem follows_stopped {s : Loop} {chunk : List Bool} {chunks : List (List Bool)}
    (ready : (feed s.mac chunk).pktReady = true)
    (branch : Loop.packetBranch R bus { s with mac := feed s.mac chunk } = none)
    (gone : ∀ t, (receiver s).sys.next R bus (.packet (unstripe (feed s.mac chunk).pkt)) = some t →
      Gone t) : Follows R bus s (chunk :: chunks) := by
  have bits : demodBits R bus s (chunk :: chunks) = _ := demodBits_ready chunk chunks ready
  rw [branch] at bits
  constructor
  · rw [List.map_cons, Receiver.run, receiver_ready ready, bits, List.map_cons, Sys.stream]
    cases call : (receiver s).sys.next R bus (.packet (unstripe (feed s.mac chunk).pkt)) with
    | none => rfl
    | some t => exact congrArg (Option.map Receiver.sys) (run_gone (gone t call) chunks)
  · intro _ t run
    rw [bits, List.map_cons, Sys.stream] at run
    obtain ⟨t', call, same⟩ := Option.bind_eq_some_iff.mp run
    obtain rfl : t' = t := Option.some.inj same
    exact gone t' call

/-- A call on a packet: the thread comes back to `demod_loop` or not. -/
theorem follows_ready {s : Loop} {chunk : List Bool} {chunks : List (List Bool)}
    (ready : (feed s.mac chunk).pktReady = true)
    (rest : ∀ s', Loop.packetBranch R bus { s with mac := feed s.mac chunk } = some s' →
      Follows R bus s' chunks) : Follows R bus s (chunk :: chunks) := by
  have call : (receiver s).sys.next R bus (.packet (unstripe (feed s.mac chunk).pkt)) =
      ((updaterPacketProcess R s.astate (unstripe (feed s.mac chunk).pkt)).run (device bus)
        s.mem).map fun r => ⟨r.2, r.1.mode⟩ := rfl
  cases ran : (updaterPacketProcess R s.astate (unstripe (feed s.mac chunk).pkt)).run (device bus)
    s.mem with
  | none =>
      have branch : Loop.packetBranch R bus { s with mac := feed s.mac chunk } = none := by
        unfold Loop.packetBranch
        rw [ran]
      rw [ran] at call
      refine follows_stopped ready branch fun t next => ?_
      rw [call] at next
      exact absurd next (by simp)
  | some result =>
      obtain ⟨exit, mem⟩ := result
      rw [ran] at call
      cases exit with
      | returned astate err =>
          have branch : Loop.packetBranch R bus { s with mac := feed s.mac chunk } =
              some ⟨(feed s.mac chunk).withPkt (unstripe (feed s.mac chunk).pkt) false, astate,
                mem⟩ := by
            unfold Loop.packetBranch
            rw [ran]
          have bits : demodBits R bus s (chunk :: chunks) = _ := demodBits_ready chunk chunks ready
          obtain ⟨sys, stopped⟩ := rest _ branch
          rw [branch] at bits
          constructor
          · rw [List.map_cons, Receiver.run, receiver_ready ready, call, bits, List.map_cons,
              Sys.stream, call]
            exact sys
          · rw [bits, List.map_cons, Sys.stream, call]
            exact stopped
      | threadExit =>
          have branch : Loop.packetBranch R bus { s with mac := feed s.mac chunk } = none := by
            unfold Loop.packetBranch
            rw [ran]
          refine follows_stopped ready branch fun t next astate mode => ?_
          rw [call] at next
          obtain rfl := Option.some.inj next
          cases mode
      | hang =>
          have branch : Loop.packetBranch R bus { s with mac := feed s.mac chunk } = none := by
            unfold Loop.packetBranch
            rw [ran]
          refine follows_stopped ready branch fun t next astate mode => ?_
          rw [call] at next
          obtain rfl := Option.some.inj next
          cases mode

theorem follows (s : Loop) (chunks : List (List Bool)) : Follows R bus s chunks := by
  induction chunks generalizing s with
  | nil => exact ⟨rfl, fun stopped => absurd stopped (by simp [demodBits])⟩
  | cons chunk chunks ih =>
      cases flag : (feed s.mac chunk).pktReady with
      | false => exact follows_clear flag (ih _)
      | true => exact follows_ready flag fun s' _ => ih s'

/-! ### Sessions against streams -/

/-- The flag is clear wherever bits that flag nothing before their end are broken off. -/
theorem quietly_before {s t : Mac} {xs ys : List Bool} (quiet : Quietly s (xs ++ ys) t)
    (some : ys ≠ []) : ∃ u, Quietly s xs u ∧ u.pktReady = false := by
  induction xs generalizing s with
  | nil =>
      refine ⟨s, .nil s, ?_⟩
      cases quiet with
      | nil => exact absurd rfl some
      | cons clear _ => exact clear
  | cons x xs ih =>
      cases quiet with
      | cons clear rest =>
          obtain ⟨u, quiet', clear'⟩ := ih rest
          exact ⟨u, .cons clear quiet', clear'⟩

/-- Of a packet that is not through nothing is flagged. -/
theorem quietly_unfinished {s : Mac} {part : List Bool} (unfinished : Unfinished part)
    (state : s.mstate = .idle) (clear : s.pktReady = false) :
    ∃ t, Quietly s part t ∧ t.pktReady = false := by
  obtain ⟨gap, next, rest, packet, some, whole⟩ := unfinished
  obtain ⟨t, quiet, state', clear'⟩ := quietly_gap state clear gap
  obtain ⟨u, frame, -⟩ := quietly_frame (isPacket_stripe packet) state' clear'
  have through : Quietly s (part ++ rest) u := by
    rw [whole]
    exact quiet.trans frame
  exact quietly_before through some

/-- Delivery up to where the transmission is broken off. -/
theorem delivers_broken {s : Loop} {sent : List (Nat × List UInt8)} {part : List Bool}
    (packets : ∀ p ∈ sent, IsPacket p.2) (unfinished : Unfinished part)
    (state : s.mac.mstate = .idle) (clear : s.mac.pktReady = false) :
    Delivers R bus s (demodBits R bus s (singles (transmission 0 sent ++ part)))
      (sent.map Prod.snd) := by
  refine delivers_packets packets (fun s state clear => ?_) state clear
  obtain ⟨t, quiet, clear'⟩ := quietly_unfinished unfinished state clear
  have few : demodBits R bus s (singles part ++ []) = _ := demodBits_quietly quiet clear' []
  rw [List.append_nil] at few
  rw [few]
  exact delivers_nothing s t

/-- The bytes in a buffer of their own. -/
def packetOf (bytes : List UInt8) : Packet := fun i => bytes.getD i 0

theorem holds_packetOf (bytes : List UInt8) : Demod.Holds (packetOf bytes) bytes := by
  intro i hi
  rw [packetOf, List.getD_eq_getElem?_getD, List.getElem?_eq_getElem hi, Option.getD_some]

theorem forall₂_packetOf (sent : List (List UInt8)) :
    List.Forall₂ Demod.Holds (sent.map packetOf) sent := by
  rw [List.forall₂_map_left_iff, List.forall₂_same]
  exact fun bytes _ => holds_packetOf bytes

/-- Packets that come after the last call are as good as not sent. -/
theorem loop_stream (s : Loop) {chunks : List (List Bool)} {sent : List (List UInt8)}
    (delivers : Delivers R bus s (demodBits R bus s chunks) sent) :
    ∃ pkts, List.Forall₂ Demod.Holds pkts sent ∧
      ((receiver s).run R bus (chunks.map .chunk)).map Receiver.sys =
        (receiver s).sys.stream R bus (pkts.map .packet) := by
  have both : Follows R bus s chunks := follows s chunks
  cases after : (demodBits R bus s chunks).2 with
  | some s' =>
      have all := delivers.all (by rw [after]; rfl)
      refine ⟨(demodBits R bus s chunks).1, ?_, both.sys⟩
      rw [← List.take_length (l := sent), ← all]
      exact delivers.calls
  | none =>
      refine ⟨(demodBits R bus s chunks).1 ++
        (sent.drop (demodBits R bus s chunks).1.length).map packetOf, ?_, ?_⟩
      · have split : List.Forall₂ Demod.Holds (_ ++ _) (_ ++ _) := List.rel_append delivers.calls
          (forall₂_packetOf (sent.drop (demodBits R bus s chunks).1.length))
        rwa [List.take_append_drop] at split
      · rw [both.sys, List.map_append, stream_append]
        cases run : (receiver s).sys.stream R bus ((demodBits R bus s chunks).1.map .packet) with
        | none => rfl
        | some t => exact (stream_gone (both.stopped after t run) _).symm

/-- From a reset to the next. -/
theorem session_stream (R : Ram) (bus : Nat → Option UInt8) (r : Receiver) (session : Session) :
    ∃ pkts, List.Forall₂ Demod.Holds pkts (session.sent.map Prod.snd) ∧
      (r.run R bus session.inputs).map Receiver.sys =
        r.sys.stream R bus (session.events pkts) := by
  cases reset : r.sys.next R bus (.reset session.released) with
  | none =>
      refine ⟨_, forall₂_packetOf _, ?_⟩
      rw [Session.inputs, Session.events, Receiver.run, Receiver.next, Sys.stream, reset]
      rfl
  | some sys =>
      have start : ∀ pkts, (r.run R bus session.inputs).map Receiver.sys =
          r.sys.stream R bus (session.events pkts) ↔
          ((Receiver.mk .initial sys).run R bus (session.chunks.map .chunk)).map Receiver.sys =
            sys.stream R bus (pkts.map .packet) := by
        intro pkts
        rw [Session.inputs, Session.events, Receiver.run, Receiver.next, Sys.stream, reset]
        rfl
      by_cases gone : Gone sys
      · refine ⟨_, forall₂_packetOf _, (start _).mpr ?_⟩
        rw [run_gone gone, stream_gone gone]
        rfl
      · obtain ⟨astate, mode⟩ := not_forall_not.mp gone
        obtain ⟨mem, _⟩ := sys
        obtain rfl := mode
        have delivers : Delivers R bus ⟨.initial, astate, mem⟩
            (demodBits R bus ⟨.initial, astate, mem⟩ session.chunks)
            (session.sent.map Prod.snd) := by
          rw [demodBits_chunks session.short rfl, session.stream]
          exact delivers_broken session.packets session.unfinished rfl rfl
        obtain ⟨pkts, holds, run⟩ := loop_stream _ delivers
        exact ⟨pkts, holds, (start pkts).mpr run⟩

/-- The receiver on bits is the bootloader on packets. Over sessions that are each
broken off at any point, with the button held or released at their resets, the state
the chunks lead to is the one that the bootloader reaches on the packets sent whole:
each of them once, in order, and nothing else. -/
theorem sessions_stream (R : Ram) (bus : Nat → Option UInt8) (r : Receiver)
    (sessions : List Session) :
    ∃ pkts : List (List Packet),
      List.Forall₂ (fun p session => List.Forall₂ Demod.Holds p (session.sent.map Prod.snd))
        pkts sessions ∧
      (r.run R bus (sessions.flatMap Session.inputs)).map Receiver.sys =
        r.sys.stream R bus (List.zipWith Session.events sessions pkts).flatten := by
  induction sessions generalizing r with
  | nil => exact ⟨[], .nil, rfl⟩
  | cons session sessions ih =>
      obtain ⟨p, holds, first⟩ := session_stream R bus r session
      cases run : r.run R bus session.inputs with
      | none =>
          rw [run] at first
          refine ⟨p :: sessions.map fun s => (s.sent.map Prod.snd).map packetOf, .cons holds ?_, ?_⟩
          · rw [List.forall₂_map_left_iff, List.forall₂_same]
            exact fun s _ => forall₂_packetOf _
          · rw [List.flatMap_cons, run_append, run, List.zipWith_cons_cons, List.flatten_cons,
              stream_append, ← first]
            rfl
      | some r' =>
          rw [run] at first
          obtain ⟨pkts, holds', rest⟩ := ih r'
          refine ⟨p :: pkts, .cons holds holds', ?_⟩
          rw [List.flatMap_cons, run_append, run, List.zipWith_cons_cons, List.flatten_cons,
            stream_append, ← first]
          exact rest

end Bits

/-! ### What has been heard -/

/-- How far an upload is: whether a control packet was heard since the last reset, and
the blocks of the image in storage, `none` before its first control packet. -/
structure Progress where
  listening : Bool
  blocks : Option (Set Nat)

namespace Progress

def start : Progress := ⟨false, none⟩

def hear (p : Progress) (pkt : Packet) : Progress :=
  if pkt.type = PKTTYPE_CTRL ∧ pkt.ctrlHashOk then ⟨true, some (p.blocks.getD ∅)⟩
  else if pkt.type = PKTTYPE_DATA ∧ pkt.dataHashOk ∧ p.listening = true then
    { p with blocks := p.blocks.map (insert pkt.block.toNat) }
  else p

section

variable {pkt : Packet} (p : Progress)

theorem hear_ctrl (accepted : pkt.type = PKTTYPE_CTRL ∧ pkt.ctrlHashOk) :
    p.hear pkt = ⟨true, some (p.blocks.getD ∅)⟩ := if_pos accepted

theorem hear_data (data : pkt.type = PKTTYPE_DATA ∧ pkt.dataHashOk)
    (listening : p.listening = true) :
    p.hear pkt = { p with blocks := p.blocks.map (insert pkt.block.toNat) } := by
  have type : ¬ (pkt.type = PKTTYPE_CTRL ∧ pkt.ctrlHashOk) := fun ctrl =>
    absurd (ctrl.1.symm.trans data.1) (by decide)
  rw [hear, if_neg type, if_pos ⟨data.1, data.2, listening⟩]

theorem hear_other (ctrl : ¬ (pkt.type = PKTTYPE_CTRL ∧ pkt.ctrlHashOk))
    (data : p.listening = true → ¬ (pkt.type = PKTTYPE_DATA ∧ pkt.dataHashOk)) :
    p.hear pkt = p := by
  rw [hear, if_neg ctrl, if_neg fun h => data h.2.2 ⟨h.1, h.2.1⟩]

end

/-- After a session of these packets. -/
def session (p : Progress) (pkts : List Packet) : Progress :=
  pkts.foldl hear { p with listening := false }

/-- After sessions. -/
def upload (sessions : List Session) : Progress :=
  sessions.foldl (fun p s => p.session (s.sent.map fun q => packetOf q.2)) start

end Progress

/-! ### Packets that agree on their bytes -/

section Agree

variable {im : Image} {pkt pkt' : Packet}

/-- The packets agree on as many bytes as their type has. -/
structure Agree (pkt pkt' : Packet) : Prop where
  header : ∀ i, i < CTRL_LEN → pkt i = pkt' i
  data : pkt.type = PKTTYPE_DATA → ∀ i, i < DATA_LEN → pkt i = pkt' i

theorem Agree.type (agree : Agree pkt pkt') : pkt.type = pkt'.type :=
  agree.header 1 (by decide)

theorem Agree.ctrlHashOk (agree : Agree pkt pkt') : pkt.ctrlHashOk ↔ pkt'.ctrlHashOk := by
  have hash : murmur pkt 28 MURMUR_SEED_BLOCK = murmur pkt' 28 MURMUR_SEED_BLOCK := by
    refine murmur_congr (by decide) fun j hj => agree.header j ?_
    have : (28 : UInt32).toNat = 28 := rfl
    unfold CTRL_LEN
    omega
  have field : word pkt 28 = word pkt' 28 := word_congr fun j hj => agree.header _ (by
    unfold CTRL_LEN
    omega)
  rw [Packet.ctrlHashOk, Packet.ctrlHashOk, hash, field]

theorem Agree.dataHashOk (agree : Agree pkt pkt') (type : pkt.type = PKTTYPE_DATA) :
    pkt.dataHashOk ↔ pkt'.dataHashOk := by
  have hash : murmur pkt 260 MURMUR_SEED_BLOCK = murmur pkt' 260 MURMUR_SEED_BLOCK := by
    refine murmur_congr (by decide) fun j hj => agree.data type j ?_
    have : (260 : UInt32).toNat = 260 := rfl
    unfold DATA_LEN
    omega
  have field : word pkt 260 = word pkt' 260 := word_congr fun j hj => agree.data type _ (by
    unfold DATA_LEN
    omega)
  rw [Packet.dataHashOk, Packet.dataHashOk, hash, field]

theorem Agree.block (agree : Agree pkt pkt') : pkt.block = pkt'.block := by
  rw [Packet.block, Packet.block, halfword, halfword, agree.header 2 (by decide),
    agree.header 3 (by decide)]

/-- What was heard does not depend on what else is in the buffer. -/
theorem Agree.hear (agree : Agree pkt pkt') (p : Progress) : p.hear pkt = p.hear pkt' := by
  unfold Progress.hear
  by_cases type : pkt.type = PKTTYPE_DATA
  · simp only [← agree.type, agree.ctrlHashOk, agree.dataHashOk type, agree.block]
  · have type' : ¬ pkt'.type = PKTTYPE_DATA := by rwa [← agree.type]
    simp only [← agree.type, agree.ctrlHashOk, type, false_and, if_false]

theorem Agree.admits (agree : Agree pkt pkt') (admits : im.Admits (.packet pkt')) :
    im.Admits (.packet pkt) := by
  rintro (⟨type, hash⟩ | ⟨type, hash⟩)
  · have type' := agree.type.symm.trans type
    refine (admits (.inl ⟨type', agree.ctrlHashOk.mp hash⟩)).imp ?_ ?_
    · exact fun ctrl j hj => (agree.header j hj).trans (ctrl j hj)
    · exact fun block => absurd (block.1.symm.trans type') (by decide)
  · have type' := agree.type.symm.trans type
    refine (admits (.inr ⟨type', (agree.dataHashOk type).mp hash⟩)).imp ?_ ?_
    · exact fun ctrl => absurd (ctrl.type_eq.symm.trans type') (by decide)
    · rintro ⟨-, -, small, payload⟩
      refine ⟨type, hash, by rwa [agree.block], fun j hj inside => ?_⟩
      rw [agree.block] at inside ⊢
      refine (agree.data type (4 + j) ?_).trans (payload j hj inside)
      unfold DATA_LEN
      omega

end Agree

theorem agree_of_holds {bytes : List UInt8} {pkt : Packet} (packet : IsPacket bytes)
    (holds : Demod.Holds pkt bytes) : Agree pkt (packetOf bytes) := by
  have same : ∀ i, i < bytes.length → pkt i = packetOf bytes i := fun i hi =>
    Option.some.inj ((holds i hi).symm.trans (holds_packetOf bytes i hi))
  rcases packet.length with ⟨type, length⟩ | ⟨type, length⟩
  · constructor
    · exact fun i hi => same i (by omega)
    · intro data
      have here := (holds 1 (by rw [length]; decide)).symm.trans type
      exact absurd (data.symm.trans (Option.some.inj here)) (by decide)
  · constructor
    · exact fun i hi => same i (by rw [length]; unfold CTRL_LEN at hi; unfold DATA_LEN; omega)
    · exact fun _ i hi => same i (by omega)

/-! ### One packet -/

section Hear

variable {R : Ram} {bus : Nat → Option UInt8} {im : Image} {m₀ : Mem} {p : Progress} {s : Sys}
  {S : Set Nat} {pkt : Packet}

/-- Storage holds what was heard; nothing is changed before the first control packet. -/
def Kept (im : Image) (m₀ : Mem) (p : Progress) (m : Mem) : Prop :=
  match p.blocks with
  | none => m = m₀
  | some S => Stored im S m

/-- Within a session, where the bootloader is too. -/
def Following (im : Image) (m₀ : Mem) (p : Progress) (s : Sys) : Prop :=
  match p.blocks with
  | none => s = ⟨m₀, .waiting .idle⟩ ∧ p.listening = false
  | some S => Delivered im S s ∧
      (¬ im.All S → s.mode = .waiting (if p.listening then .updating else .idle))

theorem Following.kept (h : Following im m₀ p s) : Kept im m₀ p s.mem := by
  unfold Following at h
  unfold Kept
  cases blocks : p.blocks with
  | none =>
      rw [blocks] at h
      rw [h.1]
  | some S =>
      rw [blocks] at h
      exact h.1.1

theorem agree_ctl (ctrl : im.IsCtrl pkt) : Agree pkt im.ctl where
  header := ctrl
  data := fun data => absurd (ctrl.type_eq.symm.trans data) (by decide)

theorem length_of_ctrl (ctrl : im.IsCtrl pkt) : pkt.length = im.ctl.length :=
  word_congr fun j hj => ctrl _ (by unfold CTRL_LEN; omega)

theorem fullhash_of_ctrl (ctrl : im.IsCtrl pkt) : pkt.fullhash = im.ctl.fullhash :=
  word_congr fun j hj => ctrl _ (by unfold CTRL_LEN; omega)

theorem guid_of_ctrl (ctrl : im.IsCtrl pkt) {j : Nat} (hj : j < 16) : pkt.guid j = im.ctl.guid j :=
  ctrl _ (by unfold CTRL_LEN; omega)

/-- Another copy of the control packet is one of the same image. -/
theorem exists_withCtl (ctrl : im.IsCtrl pkt) :
    ∃ im' : Image, im'.ctl = pkt ∧ im'.bytes = im.bytes :=
  ⟨{  bytes := im.bytes
      ctl := pkt
      ctrl := ctrl.type_eq
      hash_ok := (agree_ctl ctrl).ctrlHashOk.mpr im.hash_ok
      length_pos := by
        rw [length_of_ctrl ctrl]
        exact im.length_pos
      length_le := by
        rw [length_of_ctrl ctrl]
        exact im.length_le
      fullhash := by rw [length_of_ctrl ctrl, fullhash_of_ctrl ctrl, im.fullhash] }, rfl, rfl⟩

theorem stored_of_copy {im im' : Image} {m : Mem} (ctrl : im.IsCtrl im'.ctl)
    (bytes : im'.bytes = im.bytes) (stored : Stored im' S m) : Stored im S m := by
  have length : im'.length = im.length := congrArg UInt32.toNat (length_of_ctrl ctrl)
  have blocks : im'.blocks = im.blocks := by rw [Image.blocks, Image.blocks, length]
  have all : im'.All S ↔ im.All S := by rw [Image.All, Image.All, blocks]
  exact
    { magic := stored.magic
      fullhash := stored.fullhash.trans (fullhash_of_ctrl ctrl)
      length := stored.length.trans (length_of_ctrl ctrl)
      guid := fun j hj => (stored.guid j hj).trans (guid_of_ctrl ctrl hj)
      entry := by
        rw [← blocks]
        exact stored.entry
      taken := by
        rw [← blocks, ← length, ← bytes]
        exact stored.taken
      free := by
        rw [← blocks]
        exact stored.free
      complete := fun h => stored.complete (all.mpr h)
      incomplete := fun h => stored.incomplete fun h' => h (all.mp h') }

/-- The first control packet that is heard. -/
theorem following_first (fresh : ∃ j, j < 16 ∧ hdrGuid m₀ j ≠ im.ctl.guid j)
    (ctrl : im.IsCtrl pkt) :
    ∃ s', (Sys.mk m₀ (.waiting .idle)).next R bus (.packet pkt) = some s' ∧
      Following im m₀ ⟨true, some ∅⟩ s' := by
  obtain ⟨im', rfl, bytes⟩ := exists_withCtl ctrl
  obtain ⟨j, hj, differs⟩ := fresh
  rw [← guid_of_ctrl ctrl hj] at differs
  obtain ⟨s', next, mode, stored, -⟩ := delivered_first R bus im' ⟨j, hj, differs⟩
  have none : ¬ im.All ∅ := fun all => all 0 im.blocks_pos
  refine ⟨s', next, ⟨stored_of_copy ctrl bytes stored, ?_⟩, fun _ => mode⟩
  simp only [mode, Image.ModeOk]
  exact none

/-- A packet that is neither the control packet nor heard. -/
theorem next_idle {m : Mem} (ignored : ¬ (pkt.type = PKTTYPE_CTRL ∧ pkt.ctrlHashOk)) :
    (Sys.mk m (.waiting .idle)).next R bus (.packet pkt) = some ⟨m, .waiting .idle⟩ := by
  have call : updaterPacketProcess R .idle pkt = .ret (.returned .idle 0) := by
    rw [updaterPacketProcess, if_neg ignored]
  change ((updaterPacketProcess R .idle pkt).run (device bus) m).map _ = _
  rw [call]
  rfl

/-- The control packet again, with blocks missing. -/
theorem next_ctrl {m : Mem} (stored : Stored im S m) (missing : ¬ im.All S)
    (ctrl : im.IsCtrl pkt) (hash : pkt.ctrlHashOk) :
    (Sys.mk m (.waiting .idle)).next R bus (.packet pkt) = some ⟨m, .waiting .updating⟩ := by
  have safe : (processCtrl R pkt).Safe (device bus) _ _ _ m := safe_ctrl_again stored ctrl
  have accepted : updaterPacketProcess R .idle pkt = processCtrl R pkt := by
    rw [updaterPacketProcess, if_pos ⟨ctrl.type_eq, hash⟩]
  have runs : (Sys.mk m (.waiting .idle)).program R (.packet pkt) = some (processCtrl R pkt) :=
    congrArg some accepted
  obtain ⟨e, m', ⟨-, updating, rfl⟩, call⟩ := quietCall_of_safe runs safe
  rw [call.next, updating missing]

/-- A packet in `APP_UPDATING` that is no data packet. -/
theorem next_other {m : Mem} (stored : Stored im S m)
    (other : ¬ (pkt.type = PKTTYPE_DATA ∧ pkt.dataHashOk)) :
    (Sys.mk m (.waiting .updating)).next R bus (.packet pkt) = some ⟨m, .waiting .updating⟩ := by
  have safe : (updaterPacketProcess R .updating pkt).Safe (device bus) (fun _ => True) (Quiet bus)
      (fun e m' => e.mode = .waiting .updating ∧ m = m') m := by
    refine safe_load32 (l := .header 4) (by decide) (quiet_load32 (by decide)) trivial ?_
    rw [if_pos (show word m (Lval.header 4).addr = STORAGE_MAGIC from stored.magic), if_neg other]
    exact ⟨rfl, rfl⟩
  have runs : (Sys.mk m (.waiting .updating)).program R (.packet pkt) = some _ := rfl
  obtain ⟨e, m', ⟨mode, rfl⟩, call⟩ := quietCall_of_safe runs safe
  rw [call.next, mode]

/-- A data packet in `APP_UPDATING`. -/
theorem following_block {m : Mem} (stored : Stored im S m) (missing : ¬ im.All S)
    (block : im.IsBlock pkt) :
    ∃ s', (Sys.mk m (.waiting .updating)).next R bus (.packet pkt) = some s' ∧
      Following im m₀ ⟨true, some (insert pkt.block.toNat S)⟩ s' := by
  obtain ⟨e, m', ⟨after, stored'⟩, call⟩ := quietCall_block stored missing block
  exact ⟨_, call.next, ⟨stored', after.modeOk⟩, after.2⟩

/-- With every block stored, nothing changes whatever is heard. -/
theorem following_all (delivered : Delivered im S s) (all : im.All S)
    (admits : im.Admits (.packet pkt)) {listening : Bool} :
    ∃ s', s.next R bus (.packet pkt) = some s' ∧
      Following im m₀ ⟨listening, some S⟩ s' := by
  obtain ⟨s', call, ⟨stored, mode⟩, same⟩ := delivered_next R bus delivered admits
  have all' : im.All (S ∪ {b | s.sees (.packet pkt) b}) := fun b hb => .inl (all b hb)
  refine ⟨s', call.next, ⟨by rw [same all]; exact delivered.1, ?_⟩, fun h => absurd all h⟩
  cases at_ : s'.mode with
  | waiting astate =>
      rw [at_] at mode
      cases astate with
      | idle => exact trivial
      | gotId => exact mode
      | updating => exact absurd all' mode
      | updated => exact all
      | fail => exact all
  | busy cur prog =>
      rw [at_] at mode
      exact mode
  | handedOver => exact trivial
  | hung => exact all

theorem isCtrl_of_admits (admits : im.Admits (.packet pkt))
    (accepted : pkt.type = PKTTYPE_CTRL ∧ pkt.ctrlHashOk) : im.IsCtrl pkt := by
  refine (admits (.inl accepted)).resolve_right fun block => ?_
  exact absurd (accepted.1.symm.trans block.1) (by decide)

theorem isBlock_of_admits (admits : im.Admits (.packet pkt))
    (data : pkt.type = PKTTYPE_DATA ∧ pkt.dataHashOk) : im.IsBlock pkt := by
  refine (admits (.inr data)).resolve_left fun ctrl => ?_
  exact absurd (data.1.symm.trans ctrl.type_eq) (by decide)

/-- One packet, with blocks missing. -/
theorem following_missing {m : Mem} {listening : Bool} (stored : Stored im S m)
    (missing : ¬ im.All S) (admits : im.Admits (.packet pkt)) :
    ∃ s', (Sys.mk m (.waiting (if listening then .updating else .idle))).next R bus (.packet pkt) =
      some s' ∧ Following im m₀ (Progress.hear ⟨listening, some S⟩ pkt) s' := by
  by_cases accepted : pkt.type = PKTTYPE_CTRL ∧ pkt.ctrlHashOk
  · rw [Progress.hear_ctrl _ accepted]
    refine ⟨⟨m, .waiting .updating⟩, ?_, ⟨stored, missing⟩, fun _ => rfl⟩
    cases listening with
    | false => exact next_ctrl stored missing (isCtrl_of_admits admits accepted) accepted.2
    | true =>
        refine next_other stored fun data => ?_
        exact absurd (accepted.1.symm.trans data.1) (by decide)
  · cases listening with
    | false =>
        rw [Progress.hear_other _ accepted (by simp)]
        exact ⟨_, next_idle accepted, ⟨stored, trivial⟩, fun _ => rfl⟩
    | true =>
        by_cases data : pkt.type = PKTTYPE_DATA ∧ pkt.dataHashOk
        · rw [Progress.hear_data _ data rfl]
          exact following_block stored missing (isBlock_of_admits admits data)
        · rw [Progress.hear_other _ accepted fun _ => data]
          exact ⟨_, next_other stored data, ⟨stored, missing⟩, fun _ => rfl⟩

/-- One packet, with every block stored. -/
theorem following_complete {listening : Bool} (delivered : Delivered im S s) (all : im.All S)
    (admits : im.Admits (.packet pkt)) :
    ∃ s', s.next R bus (.packet pkt) = some s' ∧
      Following im m₀ (Progress.hear ⟨listening, some S⟩ pkt) s' := by
  by_cases accepted : pkt.type = PKTTYPE_CTRL ∧ pkt.ctrlHashOk
  · rw [Progress.hear_ctrl _ accepted]
    exact following_all delivered all admits
  · by_cases data : listening = true ∧ pkt.type = PKTTYPE_DATA ∧ pkt.dataHashOk
    · have there : insert pkt.block.toNat S = S :=
        Set.insert_eq_of_mem (all _ (isBlock_of_admits admits data.2).2.2.1)
      rw [Progress.hear_data _ data.2 data.1, Option.map_some, there]
      exact following_all delivered all admits
    · rw [Progress.hear_other _ accepted fun h h' => data ⟨h, h'⟩]
      exact following_all delivered all admits

/-- One packet. -/
theorem following_hear (R : Ram) (bus : Nat → Option UInt8)
    (fresh : ∃ j, j < 16 ∧ hdrGuid m₀ j ≠ im.ctl.guid j)
    (h : Following im m₀ p s) (admits : im.Admits (.packet pkt)) :
    ∃ s', s.next R bus (.packet pkt) = some s' ∧ Following im m₀ (p.hear pkt) s' := by
  obtain ⟨listening, blocks⟩ := p
  cases blocks with
  | none =>
      obtain ⟨rfl, rfl : listening = false⟩ := h
      by_cases accepted : pkt.type = PKTTYPE_CTRL ∧ pkt.ctrlHashOk
      · rw [Progress.hear_ctrl _ accepted]
        exact following_first fresh (isCtrl_of_admits admits accepted)
      · rw [Progress.hear_other _ accepted (by simp)]
        exact ⟨_, next_idle accepted, rfl, rfl⟩
  | some S =>
      obtain ⟨delivered, mode⟩ := h
      by_cases all : im.All S
      · exact following_complete delivered all admits
      · obtain ⟨m, _⟩ := s
        obtain rfl := mode all
        exact following_missing delivered.1 all admits

/-- The packets of a session. -/
theorem following_packets (R : Ram) (bus : Nat → Option UInt8)
    (fresh : ∃ j, j < 16 ∧ hdrGuid m₀ j ≠ im.ctl.guid j)
    {pkts : List Packet} (h : Following im m₀ p s)
    (admits : ∀ pkt ∈ pkts, im.Admits (.packet pkt)) :
    ∃ s', s.stream R bus (pkts.map .packet) = some s' ∧
      Following im m₀ (pkts.foldl Progress.hear p) s' := by
  induction pkts generalizing p s with
  | nil => exact ⟨s, rfl, h⟩
  | cons pkt pkts ih =>
      obtain ⟨s₁, next, following⟩ := following_hear R bus fresh h
        (admits pkt List.mem_cons_self)
      obtain ⟨s', rest, final⟩ := ih following fun q hq => admits q (List.mem_cons_of_mem _ hq)
      refine ⟨s', ?_, final⟩
      rw [List.map_cons, Sys.stream, next]
      exact rest

/-- A reset with the button held: nothing has been heard since. -/
theorem following_reset (h : Kept im m₀ p s.mem) :
    Following im m₀ { p with listening := false } ⟨s.mem, .waiting .idle⟩ := by
  unfold Kept at h
  unfold Following
  cases blocks : p.blocks with
  | none =>
      rw [blocks] at h
      exact ⟨congrArg (Sys.mk · _) h, rfl⟩
  | some S =>
      rw [blocks] at h
      exact ⟨⟨h, trivial⟩, fun _ => rfl⟩

/-- A session with the button held at its reset. -/
theorem kept_session (R : Ram) (bus : Nat → Option UInt8)
    (fresh : ∃ j, j < 16 ∧ hdrGuid m₀ j ≠ im.ctl.guid j) {pkts : List Packet}
    (h : Kept im m₀ p s.mem) (admits : ∀ pkt ∈ pkts, im.Admits (.packet pkt)) :
    ∃ s', s.stream R bus (.reset false :: pkts.map .packet) = some s' ∧
      Kept im m₀ (p.session pkts) s'.mem := by
  obtain ⟨s', run, following⟩ := following_packets R bus fresh
    (following_reset h) admits
  exact ⟨s', run, following.kept⟩

/-- What else is in the buffer does not matter. -/
theorem agree_sent {sent : List (Nat × List UInt8)} {pkts : List Packet}
    (packets : ∀ q ∈ sent, IsPacket q.2)
    (holds : List.Forall₂ Demod.Holds pkts (sent.map Prod.snd)) :
    List.Forall₂ (fun pkt q => Agree pkt (packetOf q.2)) pkts sent := by
  induction sent generalizing pkts with
  | nil =>
      cases holds with
      | nil => exact .nil
  | cons q sent ih =>
      cases holds with
      | cons first rest =>
          exact .cons (agree_of_holds (packets q List.mem_cons_self) first)
            (ih (fun q' hq => packets q' (List.mem_cons_of_mem _ hq)) rest)

theorem session_agree {sent : List (Nat × List UInt8)} {pkts : List Packet}
    (agree : List.Forall₂ (fun pkt q => Agree pkt (packetOf q.2)) pkts sent) :
    p.session pkts = p.session (sent.map fun q => packetOf q.2) := by
  unfold Progress.session
  generalize ({ p with listening := false } : Progress) = p
  induction agree generalizing p with
  | nil => rfl
  | cons first _ ih =>
      rw [List.foldl_cons, List.map_cons, List.foldl_cons, first.hear]
      exact ih _

theorem admits_agree {sent : List (Nat × List UInt8)} {pkts : List Packet}
    (agree : List.Forall₂ (fun pkt q => Agree pkt (packetOf q.2)) pkts sent)
    (admits : ∀ q ∈ sent, im.Admits (.packet (packetOf q.2))) :
    ∀ pkt ∈ pkts, im.Admits (.packet pkt) := by
  induction agree with
  | nil => exact fun pkt h => absurd h (by simp)
  | cons first _ ih =>
      rw [List.forall_mem_cons] at admits ⊢
      exact ⟨first.admits admits.1, ih admits.2⟩

/-- All sessions, at packet boundaries. -/
theorem kept_sessions (R : Ram) (bus : Nat → Option UInt8)
    (fresh : ∃ j, j < 16 ∧ hdrGuid m₀ j ≠ im.ctl.guid j)
    {sessions : List Session} {pkts : List (List Packet)}
    (holds : List.Forall₂
      (fun p session => List.Forall₂ Demod.Holds p (session.sent.map Prod.snd)) pkts sessions)
    (held : ∀ session ∈ sessions, session.released = false)
    (admits : ∀ session ∈ sessions, ∀ q ∈ session.sent, im.Admits (.packet (packetOf q.2)))
    (h : Kept im m₀ p s.mem) :
    ∃ s', s.stream R bus (List.zipWith Session.events sessions pkts).flatten = some s' ∧
      Kept im m₀ (sessions.foldl (fun p s => p.session (s.sent.map fun q => packetOf q.2)) p)
        s'.mem := by
  induction holds generalizing p s with
  | nil => exact ⟨s, rfl, h⟩
  | @cons q session _ _ first _ ih =>
      rw [List.forall_mem_cons] at held admits
      have agree := agree_sent session.packets first
      obtain ⟨s₁, run, kept⟩ := kept_session R bus fresh h
        (admits_agree agree admits.1)
      rw [session_agree agree] at kept
      obtain ⟨s', rest, final⟩ := ih held.2 admits.2 kept
      refine ⟨s', ?_, final⟩
      rw [List.zipWith_cons_cons, List.flatten_cons, Session.events, held.1, stream_append, run]
      exact rest

/-- A reset with the button released runs what is in place, if it starts with a valid
header. -/
theorem boots_iff (holds : Updater.Holds im S s.mem) (all : im.All S) (long : 32 ≤ im.length) :
    (s.next R bus (.reset true)).map Sys.mode = some .handedOver ↔
      word im.bytes 24 = APP_MAGIC ∧ word im.bytes 28 = APP_VERSION := by
  have image := holds.image all
  have at_ : ∀ a, a + 4 ≤ 32 → word s.mem (programOffset + a) = word im.bytes a := by
    intro a ha
    have shift : word s.mem (programOffset + a) = word (programArea s.mem) a := by
      simp only [word, programArea, Nat.add_assoc]
    exact shift.trans (word_congr fun j hj => image (a + j) (by omega))
  have valid : AppValid s.mem ↔ word im.bytes 24 = APP_MAGIC ∧ word im.bytes 28 = APP_VERSION := by
    rw [AppValid, at_ 24 (by omega), at_ 28 (by omega)]
  have runs : s.program R (.reset true) = some (demod_thread true) := rfl
  have safe : (demod_thread true).Safe (device bus) (fun _ => True) (Quiet bus) _ s.mem :=
    safe_demod_thread trivial fun o ho => quiet_appHeader ho
  obtain ⟨e, m', ⟨rfl, -⟩, call⟩ := quietCall_of_safe runs safe
  rw [call.next, Option.map_some, ← valid]
  by_cases app : AppValid s.mem
  · rw [if_pos ⟨rfl, app⟩]
    exact iff_of_true rfl app
  · rw [if_neg fun h => app h.2]
    exact iff_of_false (fun h => absurd (Option.some.inj h) (by simp [Exit.mode])) app

end Hear

/-! ### Uploads -/

/-- An upload off the air. The sessions go over bits, in chunks, with duplicates, packets
in any order, packets that fail their hash check, and with the transmission broken off
and the board reset at any point between two chunks. Until a control packet is heard
nothing changes. From then on the image is marked incomplete as long as a block of it
was not heard, after a control packet, in any of the sessions; once all were, it is in
place, is marked complete, and a reset with the button released runs it exactly if it
starts with a valid header. -/
theorem upload_delivers (R : Ram) (bus : Nat → Option UInt8) (im : Image) (r : Receiver)
    (fresh : ∃ j, j < 16 ∧ hdrGuid r.sys.mem j ≠ im.ctl.guid j) (sessions : List Session)
    (held : ∀ session ∈ sessions, session.released = false)
    (admits : ∀ session ∈ sessions, ∀ p ∈ session.sent, im.Admits (.packet (packetOf p.2))) :
    ∃ r', r.run R bus (sessions.flatMap Session.inputs) = some r' ∧
      ((Progress.upload sessions).blocks = none → r'.sys.mem = r.sys.mem) ∧
      ∀ S, (Progress.upload sessions).blocks = some S →
        (¬ im.All S → hdrComplete r'.sys.mem = 0xFFFFFFFF) ∧
        (im.All S → (∀ i, i < im.length → programArea r'.sys.mem i = im.bytes i) ∧
          hdrComplete r'.sys.mem = 0 ∧
          (32 ≤ im.length → ((r'.sys.next R bus (.reset true)).map Sys.mode = some .handedOver ↔
            word im.bytes 24 = APP_MAGIC ∧ word im.bytes 28 = APP_VERSION))) := by
  obtain ⟨pkts, holds, bits⟩ := sessions_stream R bus r sessions
  have start : Kept im r.sys.mem .start r.sys.mem := rfl
  obtain ⟨s, run, kept⟩ := kept_sessions R bus fresh holds held admits start
  rw [run] at bits
  obtain ⟨r', ran, rfl⟩ := Option.map_eq_some_iff.mp bits
  change Kept im r.sys.mem (Progress.upload sessions) r'.sys.mem at kept
  unfold Kept at kept
  refine ⟨r', ran, fun none => ?_, fun S some => ?_⟩
  · rw [none] at kept
    exact kept
  · rw [some] at kept
    refine ⟨kept.incomplete, fun all => ⟨kept.toHolds.image all, kept.complete all, fun long => ?_⟩⟩
    exact boots_iff kept.toHolds all long

section Sample

/-- The first bytes of a packet. -/
def bytesOf (pkt : Packet) (n : Nat) : List UInt8 := (List.range n).map pkt

theorem packetOf_bytesOf {pkt : Packet} {n i : Nat} (hi : i < n) :
    packetOf (bytesOf pkt n) i = pkt i := by
  rw [packetOf, bytesOf, List.getD_eq_getElem?_getD, List.getElem?_map, List.getElem?_range hi]
  rfl

theorem getElem?_bytesOf {pkt : Packet} {n i : Nat} (hi : i < n) :
    (bytesOf pkt n)[i]? = some (pkt i) := by
  rw [bytesOf, List.getElem?_map, List.getElem?_range hi]
  rfl

theorem length_bytesOf (pkt : Packet) (n : Nat) : (bytesOf pkt n).length = n := by
  rw [bytesOf, List.length_map, List.length_range]

theorem isPacket_bytesOf {pkt : Packet} {n : Nat} (version : pkt.version = PKT_VER_1)
    (length : (pkt.type = PKTTYPE_CTRL ∧ n = CTRL_LEN) ∨ (pkt.type = PKTTYPE_DATA ∧ n = DATA_LEN)) :
    IsPacket (bytesOf pkt n) := by
  have long : 2 ≤ n := by
    rcases length with ⟨-, rfl⟩ | ⟨-, rfl⟩
    · decide
    · decide
  constructor
  · exact .inl ((getElem?_bytesOf (by omega)).trans (congrArg some version))
  · rw [getElem?_bytesOf (by omega), length_bytesOf]
    exact length.imp (fun h => ⟨congrArg some h.1, h.2⟩) fun h => ⟨congrArg some h.1, h.2⟩

theorem unfinished_take {bytes : List UInt8} (packet : IsPacket bytes) {n : Nat}
    (short : n < (encode bytes).length) : Unfinished ((encode bytes).take n) := by
  refine ⟨0, bytes, (encode bytes).drop n, packet, fun none => ?_, List.take_append_drop _ _⟩
  have := List.drop_eq_nil_iff.mp none
  omega

theorem flatten_singles (bits : List Bool) : (singles bits).flatten = bits := by
  induction bits with
  | nil => rfl
  | cons bit bits ih => exact congrArg (bit :: ·) ih

theorem length_singles {bits chunk : List Bool} (h : chunk ∈ singles bits) : chunk.length ≤ 35 := by
  obtain ⟨bit, -, rfl⟩ := List.mem_map.mp h
  exact Nat.le_add_left 1 34

theorem ctrlPacket_version {bytes guid : Mem} {length : UInt32} :
    (ctrlPacket bytes length guid).version = PKT_VER_1 :=
  (addHash_of_lt (n := 28) (x := 0) (by decide)).trans rfl

theorem dataPacket_version {bytes : Mem} {b : UInt16} :
    (dataPacket bytes b).version = PKT_VER_1 :=
  (addHash_of_lt (n := 260) (x := 0) (by decide)).trans rfl

/-- Bits that arrive one at a time. -/
def Session.ofBits (sent : List (Nat × List UInt8)) (part : List Bool)
    (packets : ∀ p ∈ sent, IsPacket p.2) (unfinished : Unfinished part) : Session where
  released := false
  sent := sent
  part := part
  chunks := singles (transmission 0 sent ++ part)
  packets := packets
  unfinished := unfinished
  short := fun _ h => length_singles h
  stream := flatten_singles _

/-- The packets of the sessions are all that counts. -/
theorem upload_ofBits {sent sent' : List (Nat × List UInt8)} {part part' : List Bool}
    (packets : ∀ p ∈ sent, IsPacket p.2) (packets' : ∀ p ∈ sent', IsPacket p.2)
    (unfinished : Unfinished part) (unfinished' : Unfinished part') :
    Progress.upload [.ofBits sent part packets unfinished,
      .ofBits sent' part' packets' unfinished'] =
      (Progress.start.session (sent.map fun p => packetOf p.2)).session
        (sent'.map fun p => packetOf p.2) := rfl

def sampleCtrl : List UInt8 := bytesOf sampleBlock.ctl 32

def sampleData : List UInt8 := bytesOf (dataPacket sampleBytes 0) 264

theorem ofBytes_ctl {bytes guid : Mem} {length : UInt32} {pos : 1 ≤ length.toNat}
    {le : length.toNat ≤ 9984} :
    (Image.ofBytes bytes guid length pos le).ctl = ctrlPacket bytes length guid := rfl

theorem sampleCtrl_version : sampleBlock.ctl.version = PKT_VER_1 := by
  rw [sampleBlock, sampleImage, ofBytes_ctl]
  exact ctrlPacket_version

theorem isPacket_sampleCtrl : IsPacket sampleCtrl :=
  isPacket_bytesOf sampleCtrl_version (.inl ⟨sampleBlock.ctrl, rfl⟩)

theorem isPacket_sampleData : IsPacket sampleData :=
  isPacket_bytesOf dataPacket_version (.inr ⟨dataPacket_type, rfl⟩)

theorem agree_sampleCtrl : Agree (packetOf sampleCtrl) sampleBlock.ctl :=
  @agree_ctl sampleBlock _ fun _ hj => packetOf_bytesOf hj

theorem agree_sampleData : Agree (packetOf sampleData) (dataPacket sampleBytes 0) where
  header := fun _ hi => packetOf_bytesOf (Nat.lt_of_lt_of_le hi (by decide))
  data := fun _ _ hi => packetOf_bytesOf hi

theorem length_sampleData : 100 < (encode sampleData).length := by
  rw [length_encode, sampleData, length_bytesOf]
  decide

/-- The second session ends with a packet. -/
theorem unfinished_nil : Unfinished [] := by
  refine ⟨0, sampleCtrl, encode sampleCtrl, isPacket_sampleCtrl, fun none => ?_, rfl⟩
  have length := length_encode sampleCtrl
  rw [none, List.length_nil] at length
  omega

/-- Broken off in the middle of the data packet, and sent again after a reset. -/
def sampleSessions : List Session :=
  [.ofBits [(0, sampleCtrl)] ((encode sampleData).take 100)
      (List.forall_mem_singleton.mpr isPacket_sampleCtrl)
      (unfinished_take isPacket_sampleData length_sampleData),
    .ofBits [(0, sampleCtrl), (5, sampleData)] []
      (List.forall_mem_cons.mpr ⟨isPacket_sampleCtrl,
        List.forall_mem_singleton.mpr isPacket_sampleData⟩)
      unfinished_nil]

theorem sampleSessions_blocks : (Progress.upload sampleSessions).blocks = some {0} := by
  have ctrl : ∀ p : Progress,
      p.hear (packetOf sampleCtrl) = ⟨true, some (p.blocks.getD ∅)⟩ := fun p =>
    (agree_sampleCtrl.hear p).trans (Progress.hear_ctrl p ⟨sampleBlock.ctrl, sampleBlock.hash_ok⟩)
  have data : ∀ S : Set Nat, Progress.hear ⟨true, some S⟩ (packetOf sampleData) =
      ⟨true, some (insert 0 S)⟩ := by
    intro S
    rw [agree_sampleData.hear, Progress.hear_data _ ⟨dataPacket_type, dataPacket_hashOk⟩ rfl,
      dataPacket_block]
    rfl
  have first : Progress.start.session [packetOf sampleCtrl] = ⟨true, some ∅⟩ := by
    rw [Progress.session, List.foldl_cons, ctrl]
    rfl
  have second : Progress.session ⟨true, some ∅⟩ [packetOf sampleCtrl, packetOf sampleData] =
      ⟨true, some {0}⟩ := by
    rw [Progress.session, List.foldl_cons, List.foldl_cons, ctrl, Option.getD_some, data,
      insert_empty_eq]
    rfl
  rw [sampleSessions, upload_ofBits, List.map_singleton, first, List.map_cons, List.map_singleton,
    second]

theorem sampleSessions_admits : ∀ session ∈ sampleSessions, ∀ p ∈ session.sent,
    sampleBlock.Admits (.packet (packetOf p.2)) := by
  have ctrl : sampleBlock.Admits (.packet (packetOf sampleCtrl)) :=
    agree_sampleCtrl.admits fun _ => .inl fun _ _ => rfl
  have data : sampleBlock.Admits (.packet (packetOf sampleData)) :=
    agree_sampleData.admits (sampleImage_admits (by decide))
  refine List.forall_mem_cons.mpr ⟨List.forall_mem_singleton.mpr ctrl, ?_⟩
  refine List.forall_mem_singleton.mpr (List.forall_mem_cons.mpr ⟨ctrl, ?_⟩)
  exact List.forall_mem_singleton.mpr data

end Sample

/-- The one-block program, over two sessions. -/
theorem sampleSessions_delivers :
    ∃ r', (Receiver.mk .initial ⟨fun _ => 0xFF, .hung⟩).run sampleRam (fun _ => none)
        (sampleSessions.flatMap Session.inputs) = some r' ∧
      (∀ i, i < 256 → programArea r'.sys.mem i = sampleBytes i) ∧ hdrComplete r'.sys.mem = 0 ∧
      (r'.sys.next sampleRam (fun _ => none) (.reset true)).map Sys.mode = some .handedOver := by
  obtain ⟨r', run, -, heard⟩ := upload_delivers sampleRam (fun _ => none) sampleBlock
    ⟨.initial, fun _ => 0xFF, .hung⟩ sampleImage_fresh sampleSessions
    (List.forall_mem_cons.mpr ⟨rfl, List.forall_mem_singleton.mpr rfl⟩) sampleSessions_admits
  have all : sampleBlock.All {0} := by
    intro b hb
    rw [sampleImage_blocks] at hb
    exact Nat.lt_one_iff.mp hb
  obtain ⟨image, complete, boots⟩ := (heard _ sampleSessions_blocks).2 all
  rw [sampleImage_length] at image boots
  refine ⟨r', run, image, complete, (boots (by decide)).mpr ⟨?_, ?_⟩⟩
  · exact (word_setWord_of_disjoint (by omega)).trans (word_setWord_self _ _ _)
  · exact word_setWord_self _ _ _

end LtcOs.Upload
