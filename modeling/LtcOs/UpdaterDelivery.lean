import LtcOs.UpdaterSpec

/-!
Delivery of an image, seen at packet boundaries.

The abstract view of a transmission is the set of block numbers received so far
(`Stored`): storage holds the header of the accepted control packet, exactly
these blocks, and the complete flag is cleared when none is missing. Every event
of a stream for one image, whatever its order, moves this set up or leaves it,
so the final contents depend only on which blocks were seen.
-/

namespace LtcOs.Updater

open LtcOs.Memory LtcOs.Request LtcOs.Flash LtcOs.Murmur3

/-! ### Streams -/

/-- An event at a packet boundary. -/
inductive Event where
  | packet (pkt : Packet)
  | reset (released : Bool)

/-- What the bootloader runs on an event, if anyone is there to run it. -/
def Sys.program (R : Ram) (s : Sys) : Event → Option (FlashM Exit)
  | .packet pkt =>
      match s.mode with
      | .waiting astate => some (updaterPacketProcess R astate pkt)
      | _ => none
  | .reset released => some (demod_thread released)

/-- The state after an event, `none` if the call does not return. -/
def Sys.next (R : Ram) (bus : Nat → Option UInt8) (s : Sys) (ev : Event) : Option Sys :=
  match s.program R ev with
  | none => some s
  | some p => (p.run (device bus) s.mem).map fun r => ⟨r.2, r.1.mode⟩

def Sys.stream (R : Ram) (bus : Nat → Option UInt8) (s : Sys) : List Event → Option Sys
  | [] => some s
  | ev :: evs => (s.next R bus ev).bind fun s' => s'.stream R bus evs

def Req.isErase : Req → Prop
  | .cmd c => c.code = FTFx_CMD_SECTERASE
  | _ => False

/-- Some event of the stream has a sector erased. -/
def Sys.erases (R : Ram) (bus : Nat → Option UInt8) (s : Sys) : List Event → Prop
  | [] => False
  | ev :: evs =>
      (∃ p, s.program R ev = some p ∧ ∃ e ∈ p.trace (device bus) s.mem, Req.isErase e.1) ∨
        ∃ s', s.next R bus ev = some s' ∧ s'.erases R bus evs

/-- The block number of a hash-valid data packet that arrives in `APP_UPDATING`. -/
def Sys.sees (s : Sys) (ev : Event) (b : Nat) : Prop :=
  ∃ pkt, ev = .packet pkt ∧ s.mode = .waiting .updating ∧ pkt.type = PKTTYPE_DATA ∧
    pkt.dataHashOk ∧ pkt.block.toNat = b

/-- The blocks seen so along a stream. -/
def Sys.seen (R : Ram) (bus : Nat → Option UInt8) (s : Sys) : List Event → Set Nat
  | [] => ∅
  | ev :: evs => {b | s.sees ev b} ∪ {b | ∃ s', s.next R bus ev = some s' ∧ b ∈ s'.seen R bus evs}

/-! ### Images -/

/-- An image that fits the program area, with its hash-valid control packet. -/
structure Image where
  bytes : Mem
  ctl : Packet
  ctrl : ctl.type = PKTTYPE_CTRL
  hash_ok : ctl.ctrlHashOk
  length_pos : 1 ≤ ctl.length.toNat
  length_le : ctl.length.toNat ≤ 9984
  fullhash : ctl.fullhash = murmur bytes ctl.length MURMUR_SEED_TOTAL

namespace Image

def length (im : Image) : Nat := im.ctl.length.toNat

/-- `ceil(len / 256)`. -/
def blocks (im : Image) : Nat := (im.length + 255) / 256

/-- One of the image's data packets. The padding of the last one is free. -/
def IsBlock (im : Image) (pkt : Packet) : Prop :=
  pkt.type = PKTTYPE_DATA ∧ pkt.dataHashOk ∧ pkt.block.toNat < im.blocks ∧
    ∀ j, j < 256 → 256 * pkt.block.toNat + j < im.length →
      pkt.payload j = im.bytes (256 * pkt.block.toNat + j)

/-- The image's control packet again. -/
def IsCtrl (im : Image) (pkt : Packet) : Prop := ∀ j, j < CTRL_LEN → pkt j = im.ctl j

/-- What may occur in the stream: a reset, a packet that fails its hash check,
the control packet, a data packet. -/
def Admits (im : Image) : Event → Prop
  | .packet pkt => pkt.HashValid → im.IsCtrl pkt ∨ im.IsBlock pkt
  | .reset _ => True

theorem blockCount_eq (im : Image) : blockCount im.ctl.length = im.blocks := by
  have pos := im.length_pos
  rw [toNat_blockCount pos]
  unfold blocks length
  omega

theorem blocks_le (im : Image) : im.blocks ≤ 39 := by
  have le := im.length_le
  unfold blocks length
  omega

theorem blocks_pos (im : Image) : 0 < im.blocks := by
  have pos := im.length_pos
  unfold blocks length
  omega

/-- All blocks of the image are in `S`. -/
def All (im : Image) (S : Set Nat) : Prop := ∀ b, b < im.blocks → b ∈ S

end Image

/-- Storage holds the header of the image and exactly its blocks in `S`. -/
structure Holds (im : Image) (S : Set Nat) (m : Mem) : Prop where
  magic : hdrMagic m = STORAGE_MAGIC
  fullhash : hdrFullhash m = im.ctl.fullhash
  length : hdrLength m = im.ctl.length
  guid : ∀ j, j < 16 → hdrGuid m j = im.ctl.guid j
  entry : ∀ b, b < im.blocks → (hdrBlockmap m b = 0xFFFFFFFF ↔ b ∉ S)
  taken : ∀ b, b < im.blocks → b ∈ S → ∀ j, j < 256 → 256 * b + j < im.length →
    programArea m (256 * b + j) = im.bytes (256 * b + j)
  free : ∀ b, b < im.blocks → b ∉ S → Blank m (programOffset + 256 * b) 256

/-- The state of a transmission between two packets: the complete flag is
cleared exactly when no block is missing. -/
structure Stored (im : Image) (S : Set Nat) (m : Mem) : Prop extends Holds im S m where
  complete : im.All S → hdrComplete m = 0
  incomplete : ¬ im.All S → hdrComplete m = 0xFFFFFFFF

theorem Holds.image {im : Image} {S : Set Nat} {m : Mem} (h : Holds im S m) (all : im.All S) :
    ∀ i, i < im.length → programArea m i = im.bytes i := by
  intro i hi
  have hb : i / 256 < im.blocks := by unfold Image.blocks; omega
  have := h.taken (i / 256) hb (all _ hb) (i % 256) (by omega) (by omega)
  rwa [show 256 * (i / 256) + i % 256 = i by omega] at this

/-! ### One event -/

section Calls

variable {R : Ram} {bus : Nat → Option UInt8} {m : Mem} {im : Image} {S : Set Nat} {pkt : Packet}

/-- The request is answered. -/
def Answered (bus : Nat → Option UInt8) (i : Req) (m : Mem) : Prop := (device bus i m).isSome

/-- The request is answered and erases nothing. -/
def Quiet (bus : Nat → Option UInt8) (i : Req) (m : Mem) : Prop :=
  Answered bus i m ∧ ¬ Req.isErase i

theorem answered_cmd (c : Cmd) (m : Mem) : Answered bus (.cmd c) m := rfl

theorem quiet_load8 {l : Lval} (h : l.addr < flashEnd) : Quiet bus (.load8 l) m :=
  ⟨by rw [Answered, device_load8 h]; rfl, fun e => e⟩

theorem quiet_load32 {l : Lval} (h : l.addr + 4 ≤ flashEnd) : Quiet bus (.load32 l) m :=
  ⟨by rw [Answered, device_load32 h]; rfl, fun e => e⟩

theorem quiet_appHeader {o : Nat} (h : o ≤ 28) : Quiet bus (.load32 (.appHeader o)) m := by
  refine quiet_load32 ?_
  change programOffset + o + 4 ≤ flashEnd
  unfold programOffset flashEnd
  omega

theorem quiet_word {c : Cmd} (h : c.code = FTFx_CMD_LWORDPROG ∨ c.code = FTFx_CMD_PROGCHECK) :
    Quiet bus (.cmd c) m := by
  refine ⟨answered_cmd c m, fun e => ?_⟩
  have erase : c.code = FTFx_CMD_SECTERASE := e
  rw [erase] at h
  exact absurd h (by decide)

/-- The abstract state of a fresh transmission. -/
theorem stored_fresh (im : Image) (m : Mem) :
    Stored im ∅ (copyTo (fill m storage 10240) storage (headerProto im.ctl) 32) := by
  have start : storage = 0x5800 := rfl
  have area : programOffset = 0x5900 := rfl
  have le := im.blocks_le
  have erased := blank_fill m storage 10240
  have above : ∀ a n, storage + 32 ≤ a → a + n ≤ storage + 10240 →
      Blank (copyTo (fill m storage 10240) storage (headerProto im.ctl) 32) a n := by
    intro a n lo hi j hj
    rw [copyTo_of_lt (by omega)]
    exact erased.mono (b := a) (k := n) (by omega) (by omega) j hj
  have none : ¬ im.All ∅ := fun all => all 0 im.blocks_pos
  exact
    { magic := (word_copyTo (by omega)).trans (headerProto_magic _)
      fullhash := (word_copyTo (by omega)).trans (headerProto_fullhash _)
      length := (word_copyTo (by omega)).trans (headerProto_length _)
      guid := fun j hj => by
        rw [hdrGuid, copyTo_of_mem (by omega) (by omega),
          show storage + 16 + j - storage = 16 + j by omega, headerProto_guid]
      entry := fun b hb => iff_of_true
        (hdrBlockmap_eq_blank_iff.mpr (above _ _ (by omega) (by omega))) (by simp)
      taken := fun b hb hS => absurd hS (by simp)
      free := fun b hb _ => above _ _ (by omega) (by omega)
      complete := fun all => absurd all none
      incomplete := fun _ =>
        (above (storage + 32) 4 (by omega) (by omega)).word (by omega) (by omega) }

/-- A control packet with a new guid starts over on erased storage. -/
theorem safe_first_ctrl (R : Ram) (bus : Nat → Option UInt8)
    (fresh : ∃ j, j < 16 ∧ hdrGuid m j ≠ im.ctl.guid j) :
    (updaterPacketProcess R .idle im.ctl).Safe (device bus) (fun _ => True) (Answered bus)
      (fun e m' => e.mode = .waiting .updating ∧ Stored im ∅ m') m := by
  obtain ⟨j, hj, differs⟩ := fresh
  rw [updaterPacketProcess, if_pos ⟨im.ctrl, im.hash_ok⟩]
  refine (safe_guidMatches (by omega) trivial fun i hi => (quiet_load8 ?_).1).bind ?_
  · change storage + 16 + i < flashEnd
    unfold storage flashEnd
    omega
  rintro same _ ⟨hsame, rfl⟩
  rw [if_neg fun h => differs (hsame.mp h j (by omega) (by omega))]
  refine (safe_eraseStorage (fun c m _ => answered_cmd c m) fun _ _ _ => trivial).bind ?_
  rintro _ _ ⟨rfl, rfl⟩
  refine (safe_init_storage_header ((blank_fill _ _ _).mono (by omega) (by omega))
    (fun j hj => (quiet_load8 ?_).1) (fun _ c _ _ _ _ => answered_cmd c _)
    (fun c _ => answered_cmd c _) fun _ _ => trivial).bind ?_
  · change storage + j < flashEnd
    unfold storage flashEnd
    omega
  rintro _ _ rfl
  exact ⟨rfl, stored_fresh im m⟩

/-- The control packet again: its guid is the stored one. -/
theorem safe_ctrl_again (stored : Stored im S m) (ctrl : im.IsCtrl pkt) :
    (processCtrl R pkt).Safe (device bus) (fun _ => True) (Quiet bus)
      (fun e m' => (im.All S → e.mode = .waiting .updated) ∧
        (¬ im.All S → e.mode = .waiting .updating) ∧ m = m') m := by
  refine (safe_guidMatches (by omega) trivial fun i hi => quiet_load8 ?_).bind ?_
  · change storage + 16 + i < flashEnd
    unfold storage flashEnd
    omega
  rintro same _ ⟨hsame, rfl⟩
  have guid : ∀ i, 0 ≤ i → i < 0 + 16 → hdrGuid m i = pkt.guid i := by
    intro i _ hi
    rw [stored.guid i (by omega), Packet.guid, Packet.guid,
      ctrl (12 + i) (by unfold CTRL_LEN; omega)]
  rw [if_pos (hsame.mpr guid)]
  refine safe_load32 (l := .header 32) (by decide) (quiet_load32 (by decide)) trivial ?_
  change Prog.Safe _ _ _ _ (if hdrComplete m = 0xFFFFFFFF then _ else _) m
  by_cases all : im.All S
  · rw [stored.complete all, if_neg (by decide)]
    exact ⟨fun _ => rfl, fun h => absurd all h, rfl⟩
  · rw [stored.incomplete all, if_pos rfl]
    exact ⟨fun h => absurd h all, fun _ => rfl, rfl⟩

/-- Taking in a missing block adds it to the set. -/
theorem Holds.takeBlock {b : Nat} {src : Mem} (holds : Holds im S m) (hb : b < im.blocks)
    (missing : b ∉ S)
    (data : ∀ j, j < 256 → 256 * b + j < im.length → src j = im.bytes (256 * b + j)) :
    Holds im (insert b S) (takeBlock m b src) := by
  have le := im.blocks_le
  have start : storage = 0x5800 := rfl
  have area : programOffset = 0x5900 := rfl
  have header : ∀ {k : Nat}, k + 4 ≤ 36 →
      word (Updater.takeBlock m b src) (storage + k) = word m (storage + k) :=
    fun hk => (sameHeader_takeBlock (by omega)).word (by omega)
  exact
    { magic := (header (by omega)).trans holds.magic
      fullhash := (header (by omega)).trans holds.fullhash
      length := (header (by omega)).trans holds.length
      guid := fun j hj => (takeBlock_below (by omega) (by omega)).trans (holds.guid j hj)
      entry := fun c hc => by
        rw [hdrBlockmap_takeBlock (by omega) (by omega), Set.mem_insert_iff, not_or]
        split_ifs with here
        · exact iff_of_false (by decide) fun h => h.1 here
        · rw [holds.entry c hc]
          exact ⟨fun h => ⟨here, h⟩, fun h => h.2⟩
      taken := fun c hc hS j hj hlen => by
        rw [programArea, ← Nat.add_assoc]
        by_cases here : c = b
        · subst here
          rw [takeBlock_slot (by omega) (holds.free c hc missing) hj]
          exact data j hj hlen
        · rw [takeBlock_other (by omega) (by omega) (by omega), Nat.add_assoc]
          exact holds.taken c hc (Set.mem_of_mem_insert_of_ne hS here) j hj hlen
      free := fun c hc hS j hj => by
        rw [Set.mem_insert_iff, not_or] at hS
        rw [takeBlock_other (by omega) (by omega) (by omega)]
        exact holds.free c hc hS.2 j hj }

/-- Clearing the flag changes nothing else. -/
theorem Holds.mark (holds : Holds im S m) : Holds im S (mark m) := by
  have start : storage = 0x5800 := rfl
  have area : programOffset = 0x5900 := rfl
  have le := im.blocks_le
  exact
    { magic := (word_mark (by omega)).trans holds.magic
      fullhash := (word_mark (by omega)).trans holds.fullhash
      length := (word_mark (by omega)).trans holds.length
      guid := fun j hj => (mark_of_disjoint (by omega)).trans (holds.guid j hj)
      entry := fun b hb => by
        rw [← holds.entry b hb, hdrBlockmap, word_mark (by omega)]
        rfl
      taken := fun b hb hS j hj hlen =>
        (mark_of_disjoint (by omega)).trans (holds.taken b hb hS j hj hlen)
      free := fun b hb hS j hj => (mark_of_disjoint (by omega)).trans (holds.free b hb hS j hj) }

/-- With every block present the full-program hash matches, and the flag is
cleared. -/
theorem safe_finish (holds : Holds im S m) (all : im.All S) (erased : hdrComplete m = 0xFFFFFFFF) :
    (finish R im.ctl.length).Safe (device bus) (fun _ => True) (Quiet bus)
      (fun e m' => (e.mode = .handedOver ∨ e.mode = .waiting .fail) ∧ Stored im S m') m := by
  have le := im.length_le
  refine (safe_programHash (.inl le) trivial (fun a _ hi => quiet_load32 hi)
    fun a _ hi => quiet_load8 hi).bind ?_
  rintro _ _ ⟨rfl, rfl⟩
  refine safe_load32 (l := .header 8) (by decide) (quiet_load32 (by decide)) trivial ?_
  have matched : murmur (programArea m) im.ctl.length MURMUR_SEED_TOTAL =
      word m (Lval.header 8).addr := by
    rw [show word m (Lval.header 8).addr = im.ctl.fullhash from holds.fullhash, im.fullhash]
    exact murmur_congr (by omega) (holds.image all)
  rw [if_pos matched]
  refine (safe_mark (fun j hj => quiet_load8 ?_) (fun c _ hc _ => quiet_word hc) trivial
    trivial).bind ?_
  · change storage + 32 + j < flashEnd
    unfold storage flashEnd
    omega
  rintro err _ (⟨-, rfl⟩ | ⟨notErased, -⟩)
  swap
  · exact absurd erased notErased
  have stored : Stored im S (mark m) :=
    { holds.mark with
      complete := fun _ => hdrComplete_mark m
      incomplete := fun h => absurd all h }
  refine (safe_bootToUserApp trivial fun o ho => quiet_appHeader ho).post ?_
  rintro _ _ ⟨rfl, rfl⟩
  refine ⟨?_, stored⟩
  split_ifs
  · exact .inl rfl
  · exact .inr rfl

/-- The mode after a call on a data packet, by what is stored then. -/
def AfterData (im : Image) (S : Set Nat) (e : Exit) : Prop :=
  (im.All S → e.mode = .handedOver ∨ e.mode = .waiting .fail) ∧
    (¬ im.All S → e.mode = .waiting .updating)

/-- The completion scan finds a block missing exactly when one is. -/
theorem Holds.scan (holds : Holds im S m) :
    (∀ i, i < blockCount im.ctl.length → hdrBlockmap m i ≠ 0xFFFFFFFF) ↔ im.All S := by
  rw [im.blockCount_eq]
  refine forall₂_congr fun i hi => ?_
  rw [ne_eq, holds.entry i hi, not_not]

/-- What follows the blockmap and the block itself. -/
theorem safe_after_block {err : Int} (holds : Holds im S m) (erased : hdrComplete m = 0xFFFFFFFF) :
    (do
      let length ← load32 (.header 12)
      let alldone ← allDone length
      if alldone then finish R length else .ret (.returned .updating err) : FlashM Exit).Safe
      (device bus) (fun _ => True) (Quiet bus)
        (fun e m' => AfterData im S e ∧ Stored im S m') m := by
  have le := im.blocks_le
  have start : storage = 0x5800 := rfl
  have top : flashEnd = 0x8000 := rfl
  refine safe_load32 (l := .header 12) (by decide) (quiet_load32 (by decide)) trivial ?_
  rw [show word m (Lval.header 12).addr = im.ctl.length from holds.length]
  refine (safe_allDone (by rw [im.blockCount_eq]; omega) trivial fun i hi =>
    quiet_load32 ?_).bind ?_
  · rw [im.blockCount_eq] at hi
    change storage + 36 + 4 * i + 4 ≤ flashEnd
    omega
  rintro alldone _ ⟨hdone, rfl⟩
  rw [holds.scan] at hdone
  by_cases all : im.All S
  · rw [if_pos (hdone.mpr all)]
    refine (safe_finish holds all erased).post ?_
    rintro e m' ⟨mode, stored⟩
    exact ⟨⟨fun _ => mode, fun h => absurd all h⟩, stored⟩
  · rw [if_neg fun h => all (hdone.mp h)]
    exact ⟨⟨fun h => absurd h all, fun _ => rfl⟩,
      { holds with complete := fun h => absurd h all, incomplete := fun _ => erased }⟩

/-- A data packet of the image adds its block, whether it was there or not. -/
theorem safe_block (stored : Stored im S m) (missing : ¬ im.All S) (block : im.IsBlock pkt) :
    (processData R pkt).Safe (device bus) (fun _ => True) (Quiet bus)
      (fun e m' => AfterData im (insert pkt.block.toNat S) e ∧
        Stored im (insert pkt.block.toNat S) m') m := by
  obtain ⟨_, _, hb, data⟩ := block
  have le := im.blocks_le
  have start : storage = 0x5800 := rfl
  have top : flashEnd = 0x8000 := rfl
  have erased := stored.incomplete missing
  refine safe_load32 (l := .blockmap pkt.block.toNat) ?_ (quiet_load32 ?_) trivial ?_
  · change storage + 36 + 4 * pkt.block.toNat + 4 ≤ flashEnd
    omega
  · change storage + 36 + 4 * pkt.block.toNat + 4 ≤ flashEnd
    omega
  change Prog.Safe _ _ _ _
    ((if hdrBlockmap m pkt.block.toNat = 0xFFFFFFFF then programBlock R pkt else .ret 0) >>= _) m
  by_cases new : pkt.block.toNat ∈ S
  · -- a duplicate: nothing is programmed
    rw [if_neg fun h => (stored.entry _ hb).mp h new, Set.insert_eq_of_mem new]
    exact safe_after_block stored.toHolds erased
  · rw [if_pos ((stored.entry _ hb).mpr new)]
    refine (safe_takeBlock (by omega) ((stored.entry _ hb).mpr new) (fun a m ha _ => quiet_load8 ha)
      (fun c m hc => quiet_word hc.1) fun _ => trivial).bind ?_
    rintro err _ rfl
    refine safe_after_block (stored.toHolds.takeBlock hb new data) ?_
    exact ((sameHeader_takeBlock (by omega)).word (by omega)).trans erased

end Calls

/-! ### Whole streams -/

/-- Where the bootloader can be between two packets of the stream. Only
`APP_IDLE` and the user program say nothing about what is stored. -/
def Image.ModeOk (im : Image) (S : Set Nat) : Mode → Prop
  | .waiting .idle => True
  | .waiting .updating => ¬ im.All S
  | .waiting .updated => im.All S
  | .waiting .fail => im.All S
  | .waiting .gotId => False
  | .handedOver => True
  | .hung => im.All S
  | .busy _ _ => False

theorem AfterData.modeOk {im : Image} {S : Set Nat} {e : Exit} (after : AfterData im S e) :
    im.ModeOk S e.mode := by
  by_cases all : im.All S
  · rcases after.1 all with mode | mode
    · simp only [mode, Image.ModeOk]
    · simp only [mode, Image.ModeOk, all]
  · simp only [after.2 all, Image.ModeOk, all, not_false_iff]

/-- The invariant at packet boundaries. -/
def Delivered (im : Image) (S : Set Nat) (s : Sys) : Prop := Stored im S s.mem ∧ im.ModeOk S s.mode

/-- A call that answers `Quiet` requests only returns, and erases nothing. -/
structure QuietCall (R : Ram) (bus : Nat → Option UInt8) (s s' : Sys) (ev : Event) : Prop where
  next : s.next R bus ev = some s'
  quiet : ∀ p, s.program R ev = some p → ∀ e ∈ p.trace (device bus) s.mem, ¬ Req.isErase e.1

section Streams

variable {R : Ram} {bus : Nat → Option UInt8} {im : Image} {S : Set Nat} {s : Sys} {ev : Event}

theorem quietCall_of_safe {p : FlashM Exit} {Q : Exit → Mem → Prop}
    (runs : s.program R ev = some p)
    (safe : p.Safe (device bus) (fun _ => True) (Quiet bus) Q s.mem) :
    ∃ e m', Q e m' ∧ QuietCall R bus s ⟨m', e.mode⟩ ev := by
  obtain ⟨e, m', ran, post⟩ := safe.total fun _ _ h => h.1
  refine ⟨e, m', post, ?_, fun p' hp e he => ?_⟩
  · rw [Sys.next, runs]
    simp only [ran, Option.map_some]
  · obtain rfl := Option.some.inj (runs.symm.trans hp)
    exact (safe.trace e he).2

theorem Image.IsCtrl.type_eq {pkt : Packet} (h : im.IsCtrl pkt) : pkt.type = PKTTYPE_CTRL :=
  (h 1 (by decide)).trans im.ctrl

/-- Nobody is there to see a block outside `APP_UPDATING`. -/
theorem sees_of_ne (h : s.mode ≠ .waiting .updating) : {b | s.sees ev b} = ∅ := by
  ext b
  refine iff_of_false ?_ (by simp)
  rintro ⟨_, _, mode, _⟩
  exact h mode

theorem sees_updating {m : Mem} {pkt : Packet} :
    {b | (Sys.mk m (.waiting .updating)).sees (.packet pkt) b} =
      {b | pkt.type = PKTTYPE_DATA ∧ pkt.dataHashOk ∧ pkt.block.toNat = b} := by
  ext b
  constructor
  · rintro ⟨_, same, _, h⟩
    obtain rfl := Event.packet.inj same
    exact h
  · exact fun h => ⟨pkt, rfl, rfl, h⟩

/-- A call that leaves storage alone. -/
theorem delivered_still {p : FlashM Exit} (stored : Stored im S s.mem)
    (runs : s.program R ev = some p) (unseen : {b | s.sees ev b} = ∅)
    (safe : p.Safe (device bus) (fun _ => True) (Quiet bus)
      (fun e m' => im.ModeOk S e.mode ∧ s.mem = m') s.mem) :
    ∃ s', QuietCall R bus s s' ev ∧ Delivered im (S ∪ {b | s.sees ev b}) s' ∧
      (im.All S → s'.mem = s.mem) := by
  obtain ⟨e, m', ⟨mode, same⟩, call⟩ := quietCall_of_safe runs safe
  subst same
  rw [unseen, Set.union_empty]
  exact ⟨_, call, ⟨stored, mode⟩, fun _ => rfl⟩

/-- A data packet of the image in `APP_UPDATING` is stored. -/
theorem quietCall_block {m : Mem} {pkt : Packet} (stored : Stored im S m) (missing : ¬ im.All S)
    (block : im.IsBlock pkt) :
    ∃ e m', (AfterData im (insert pkt.block.toNat S) e ∧
        Stored im (insert pkt.block.toNat S) m') ∧
      QuietCall R bus ⟨m, .waiting .updating⟩ ⟨m', e.mode⟩ (.packet pkt) := by
  apply quietCall_of_safe (s := ⟨m, .waiting .updating⟩) rfl
  refine safe_load32 (l := .header 4) (by decide) (quiet_load32 (by decide)) trivial ?_
  rw [if_pos (show word m (Lval.header 4).addr = STORAGE_MAGIC from stored.magic),
    if_pos ⟨block.1, block.2.1⟩]
  exact safe_block stored missing block

/-- A packet in `APP_UPDATING`: a data packet of the image, or none that counts. -/
theorem delivered_updating {m : Mem} {pkt : Packet} (stored : Stored im S m)
    (missing : ¬ im.All S) (admits : im.Admits (.packet pkt)) :
    ∃ s', QuietCall R bus ⟨m, .waiting .updating⟩ s' (.packet pkt) ∧
      Delivered im (S ∪ {b | (Sys.mk m (.waiting .updating)).sees (.packet pkt) b}) s' ∧
      (im.All S → s'.mem = m) := by
  have runs : (Sys.mk m (.waiting .updating)).program R (.packet pkt) =
    some (updaterPacketProcess R .updating pkt) := rfl
  by_cases data : pkt.type = PKTTYPE_DATA ∧ pkt.dataHashOk
  · have block : im.IsBlock pkt := by
      refine (admits (.inr data)).resolve_left fun ctrl => ?_
      exact absurd (data.1.symm.trans ctrl.type_eq) (by decide)
    have seen : {b | (Sys.mk m (.waiting .updating)).sees (.packet pkt) b} =
        {pkt.block.toNat} := by
      rw [sees_updating]
      ext b
      exact ⟨fun h => h.2.2.symm, fun h => ⟨data.1, data.2, h.symm⟩⟩
    obtain ⟨e, m', ⟨after, stored'⟩, call⟩ := quietCall_block stored missing block
    rw [seen, Set.union_singleton]
    exact ⟨_, call, ⟨stored', after.modeOk⟩, fun all => absurd all missing⟩
  · refine delivered_still stored runs ?_ ?_
    · rw [sees_updating]
      ext b
      exact iff_of_false (fun h => data ⟨h.1, h.2.1⟩) (by simp)
    refine safe_load32 (l := .header 4) (by decide) (quiet_load32 (by decide)) trivial ?_
    rw [if_pos (show word m (Lval.header 4).addr = STORAGE_MAGIC from stored.magic), if_neg data]
    exact ⟨missing, rfl⟩

/-- A packet in `APP_IDLE`: the control packet of the image resumes where its
blocks left off. -/
theorem safe_idle {m : Mem} {pkt : Packet} (stored : Stored im S m)
    (admits : im.Admits (.packet pkt)) :
    (updaterPacketProcess R .idle pkt).Safe (device bus) (fun _ => True) (Quiet bus)
      (fun e m' => im.ModeOk S e.mode ∧ m = m') m := by
  by_cases accepted : pkt.type = PKTTYPE_CTRL ∧ pkt.ctrlHashOk
  · have ctrl : im.IsCtrl pkt := by
      refine (admits (.inl accepted)).resolve_right fun block => ?_
      exact absurd (accepted.1.symm.trans block.1) (by decide)
    rw [updaterPacketProcess, if_pos accepted]
    refine (safe_ctrl_again stored ctrl).post ?_
    rintro e _ ⟨complete, incomplete, rfl⟩
    refine ⟨?_, rfl⟩
    by_cases all : im.All S
    · simp only [complete all, Image.ModeOk, all]
    · simp only [incomplete all, Image.ModeOk, all, not_false_iff]
  · rw [updaterPacketProcess, if_neg accepted]
    exact ⟨trivial, rfl⟩

/-- One event of the stream: the set of stored blocks grows by what was seen. -/
theorem delivered_next (R : Ram) (bus : Nat → Option UInt8) (h : Delivered im S s)
    (admits : im.Admits ev) :
    ∃ s', QuietCall R bus s s' ev ∧ Delivered im (S ∪ {b | s.sees ev b}) s' ∧
      (im.All S → s'.mem = s.mem) := by
  obtain ⟨m, mode⟩ := s
  obtain ⟨stored, modeOk⟩ := h
  cases ev with
  | reset released =>
      refine delivered_still stored rfl ?_ ?_
      · ext b
        exact iff_of_false (by rintro ⟨_, h, _⟩; exact Event.noConfusion h) (by simp)
      refine (safe_demod_thread trivial fun o ho => quiet_appHeader ho).post ?_
      rintro _ _ ⟨rfl, rfl⟩
      split_ifs
      · exact ⟨trivial, rfl⟩
      · exact ⟨trivial, rfl⟩
  | packet pkt =>
      -- without a bootloader waiting, the packet is lost
      have lost : (Sys.mk m mode).program R (.packet pkt) = none →
          mode ≠ .waiting .updating → ∃ s', QuietCall R bus ⟨m, mode⟩ s' (.packet pkt) ∧
            Delivered im (S ∪ {b | (Sys.mk m mode).sees (.packet pkt) b}) s' ∧
            (im.All S → s'.mem = m) := by
        intro idle notUpdating
        rw [sees_of_ne notUpdating, Set.union_empty]
        refine ⟨_, ⟨by rw [Sys.next, idle], fun p hp => ?_⟩, ⟨stored, modeOk⟩, fun _ => rfl⟩
        rw [idle] at hp
        exact absurd hp (by simp)
      cases mode with
      | waiting astate =>
          cases astate with
          | idle =>
              exact delivered_still stored rfl (sees_of_ne (by simp)) (safe_idle stored admits)
          | updating => exact delivered_updating stored modeOk admits
          | updated =>
              refine delivered_still stored rfl (sees_of_ne (by simp)) ?_
              refine (safe_bootToUserApp trivial fun o ho => quiet_appHeader ho).post ?_
              rintro _ _ ⟨rfl, rfl⟩
              split_ifs
              · exact ⟨trivial, rfl⟩
              · exact ⟨modeOk, rfl⟩
          | fail => exact delivered_still stored rfl (sees_of_ne (by simp)) ⟨modeOk, rfl⟩
          | gotId => exact absurd modeOk id
      | handedOver => exact lost rfl (by simp)
      | hung => exact lost rfl (by simp)
      | busy cur p => exact absurd modeOk id

theorem seen_cons {evs : List Event} {s' : Sys} (next : s.next R bus ev = some s') :
    s.seen R bus (ev :: evs) = {b | s.sees ev b} ∪ s'.seen R bus evs := by
  simp only [Sys.seen, next, Option.some.injEq, exists_eq_left', Set.ofPred_mem_eq]

/-- Any stream of admitted events: it is processed to its end without an erase,
and what is stored is what was seen. -/
theorem delivered_stream (R : Ram) (bus : Nat → Option UInt8) {evs : List Event}
    (h : Delivered im S s) (admits : ∀ ev ∈ evs, im.Admits ev) :
    ∃ s', s.stream R bus evs = some s' ∧ ¬ s.erases R bus evs ∧
      Delivered im (S ∪ s.seen R bus evs) s' ∧ (im.All S → s'.mem = s.mem) := by
  induction evs generalizing S s with
  | nil => exact ⟨s, rfl, id, by rwa [Sys.seen, Set.union_empty], fun _ => rfl⟩
  | cons ev evs ih =>
      obtain ⟨s₁, call, delivered, still⟩ := delivered_next R bus h (admits ev (by simp))
      obtain ⟨s', ran, noErase, final, still'⟩ :=
        ih delivered fun ev' h' => admits ev' (List.mem_cons_of_mem _ h')
      have rest : ∀ {P : Sys → Prop}, (∃ t, s.next R bus ev = some t ∧ P t) ↔ P s₁ := by
        intro P
        simp [call.next]
      refine ⟨s', by rw [Sys.stream, call.next]; exact ran, ?_, ?_, fun all => ?_⟩
      · rw [Sys.erases, rest]
        rintro (⟨p, hp, e, he, erase⟩ | later)
        · exact call.quiet p hp e he erase
        · exact noErase later
      · rwa [seen_cons call.next, ← Set.union_assoc]
      · exact (still' fun b hb => .inl (all b hb)).trans (still all)

/-- After the first control packet nothing is stored yet. -/
theorem delivered_first (R : Ram) (bus : Nat → Option UInt8) (im : Image) {m : Mem}
    (fresh : ∃ j, j < 16 ∧ hdrGuid m j ≠ im.ctl.guid j) :
    ∃ s, (Sys.mk m (.waiting .idle)).next R bus (.packet im.ctl) = some s ∧
      s.mode = .waiting .updating ∧ Delivered im ∅ s := by
  obtain ⟨e, m', ran, mode, stored⟩ := (safe_first_ctrl R bus fresh).total fun _ _ h => h
  refine ⟨⟨m', e.mode⟩, ?_, mode, stored, ?_⟩
  · simp only [Sys.next, Sys.program, ran, Option.map_some]
  · simp only [mode, Image.ModeOk]
    exact fun all => all 0 im.blocks_pos

end Streams

/-! ### The sender -/

/-- Fill in the hash field at `n`, which covers the bytes before it. -/
def addHash (pkt : Packet) (n : UInt32) : Packet :=
  setWord pkt n.toNat (murmur pkt n MURMUR_SEED_BLOCK)

theorem murmur_addHash {pkt : Packet} {n : UInt32} (small : n.toNat < 2147483648) :
    murmur (addHash pkt n) n MURMUR_SEED_BLOCK = word (addHash pkt n) n.toNat := by
  rw [addHash, word_setWord_self]
  exact murmur_congr small fun j hj => setWord_of_disjoint (.inl hj)

theorem addHash_of_lt {pkt : Packet} {n : UInt32} {x : Nat} (h : x < n.toNat) :
    addHash pkt n x = pkt x := setWord_of_disjoint (.inl h)

theorem word_addHash {pkt : Packet} {n : UInt32} {x : Nat} (h : x + 4 ≤ n.toNat) :
    word (addHash pkt n) x = word pkt x := word_setWord_of_disjoint (by omega)

/-- The control packet that announces `bytes`. -/
def ctrlPacket (bytes : Mem) (length : UInt32) (guid : Mem) : Packet :=
  let header : Mem := fun x => if x < 2 then 1 else guid (x - 12)
  addHash (setWord (setWord header 4 length) 8 (murmur bytes length MURMUR_SEED_TOTAL)) 28

/-- The data packet with block `b` of `bytes`. -/
def dataPacket (bytes : Mem) (b : UInt16) : Packet :=
  let head : Mem := fun x =>
    if x = 0 then 1
    else if x = 1 then PKTTYPE_DATA
    else if x = 2 then b.toUInt8
    else if x = 3 then (b >>> 8).toUInt8
    else bytes (256 * b.toNat + (x - 4))
  addHash head 260

section Sender

variable {bytes guid : Mem} {length : UInt32} {b : UInt16}

theorem ctrlPacket_type : (ctrlPacket bytes length guid).type = PKTTYPE_CTRL :=
  (addHash_of_lt (n := 28) (x := 1) (by decide)).trans rfl

theorem ctrlPacket_length : (ctrlPacket bytes length guid).length = length := by
  refine (word_addHash (by decide)).trans ?_
  rw [word_setWord_of_disjoint (by omega), word_setWord_self]

theorem ctrlPacket_fullhash :
    (ctrlPacket bytes length guid).fullhash = murmur bytes length MURMUR_SEED_TOTAL :=
  (word_addHash (by decide)).trans (word_setWord_self _ _ _)

theorem ctrlPacket_guid {j : Nat} (hj : j < 16) :
    (ctrlPacket bytes length guid).guid j = guid j := by
  refine (addHash_of_lt (n := 28) (x := 12 + j) (by change 12 + j < 28; omega)).trans ?_
  rw [setWord_of_disjoint (by omega), setWord_of_disjoint (by omega), if_neg (by omega),
    Nat.add_sub_cancel_left]

theorem ctrlPacket_hashOk : (ctrlPacket bytes length guid).ctrlHashOk := murmur_addHash (by decide)

theorem dataPacket_type : (dataPacket bytes b).type = PKTTYPE_DATA :=
  (addHash_of_lt (n := 260) (x := 1) (by decide)).trans rfl

theorem dataPacket_hashOk : (dataPacket bytes b).dataHashOk := murmur_addHash (by decide)

theorem dataPacket_payload {j : Nat} (hj : j < 256) :
    (dataPacket bytes b).payload j = bytes (256 * b.toNat + j) := by
  have inside : 4 + j < (260 : UInt32).toNat := by change 4 + j < 260; omega
  rw [Packet.payload, dataPacket, addHash_of_lt inside, if_neg (by omega), if_neg (by omega),
    if_neg (by omega), if_neg (by omega),
    Nat.add_sub_cancel_left]

theorem dataPacket_block : (dataPacket bytes b).block = b := by
  have low : dataPacket bytes b 2 = b.toUInt8 := (addHash_of_lt (by decide)).trans rfl
  have high : dataPacket bytes b 3 = (b >>> 8).toUInt8 := (addHash_of_lt (by decide)).trans rfl
  rw [Packet.block, halfword, low, high]
  apply UInt16.toNat_inj.mp
  have h := b.toNat_lt
  have shift : (b >>> 8).toNat = b.toNat / 256 := by
    rw [UInt16.toNat_shiftRight]
    exact Nat.shiftRight_eq_div_pow _ _
  rw [UInt16.toNat_ofNat', UInt16.toNat_toUInt8, UInt16.toNat_toUInt8, shift]
  omega

/-- The transmission of `bytes`. -/
def Image.ofBytes (bytes guid : Mem) (length : UInt32) (pos : 1 ≤ length.toNat)
    (le : length.toNat ≤ 9984) : Image where
  bytes := bytes
  ctl := ctrlPacket bytes length guid
  ctrl := ctrlPacket_type
  hash_ok := ctrlPacket_hashOk
  length_pos := by rwa [ctrlPacket_length]
  length_le := by rwa [ctrlPacket_length]
  fullhash := by rw [ctrlPacket_fullhash, ctrlPacket_length]

theorem Image.ofBytes_length {pos : 1 ≤ length.toNat} {le : length.toNat ≤ 9984} :
    (Image.ofBytes bytes guid length pos le).length = length.toNat :=
  congrArg UInt32.toNat ctrlPacket_length

theorem Image.ofBytes_guid {pos : 1 ≤ length.toNat} {le : length.toNat ≤ 9984} {j : Nat}
    (hj : j < 16) : (Image.ofBytes bytes guid length pos le).ctl.guid j = guid j :=
  ctrlPacket_guid hj

theorem Image.isBlock_dataPacket (im : Image) (hb : b.toNat < im.blocks) :
    im.IsBlock (dataPacket im.bytes b) := by
  refine ⟨dataPacket_type, dataPacket_hashOk, by rwa [dataPacket_block], fun j hj _ => ?_⟩
  rw [dataPacket_payload hj, dataPacket_block]

end Sender

/-! ### Delivery -/

/-- A transmission delivers its image in any order of packets, duplicates, hash
failures and resets. The stream `evs` after the first control packet is processed
without an erase. Once it has shown every block to the bootloader in
`APP_UPDATING`, the image is in place and marked complete, and whatever follows
changes nothing; until then it is not marked. -/
theorem image_delivered (R : Ram) (bus : Nat → Option UInt8) (im : Image) (m : Mem)
    (fresh : ∃ j, j < 16 ∧ hdrGuid m j ≠ im.ctl.guid j) (evs : List Event)
    (admits : ∀ ev ∈ evs, im.Admits ev) :
    ∃ s₀ s, (Sys.mk m (.waiting .idle)).next R bus (.packet im.ctl) = some s₀ ∧
      s₀.mode = .waiting .updating ∧ s₀.stream R bus evs = some s ∧ ¬ s₀.erases R bus evs ∧
      (¬ im.All (s₀.seen R bus evs) → hdrComplete s.mem = 0xFFFFFFFF) ∧
      (im.All (s₀.seen R bus evs) →
        (∀ i, i < im.length → programArea s.mem i = im.bytes i) ∧ hdrComplete s.mem = 0 ∧
        ∀ later, (∀ ev ∈ later, im.Admits ev) →
          ∃ s', s.stream R bus later = some s' ∧ ¬ s.erases R bus later ∧ s'.mem = s.mem) := by
  obtain ⟨s₀, first, mode, start⟩ := delivered_first R bus im fresh
  obtain ⟨s, ran, noErase, delivered, _⟩ := delivered_stream R bus start admits
  rw [Set.empty_union] at delivered
  refine ⟨s₀, s, first, mode, ran, noErase, delivered.1.incomplete, fun all => ?_⟩
  refine ⟨delivered.1.image all, delivered.1.complete all, fun later admits' => ?_⟩
  obtain ⟨s', ran', noErase', _, still⟩ := delivered_stream R bus delivered admits'
  exact ⟨s', ran', noErase', still all⟩

/-- A user program that starts with a valid application header. -/
def sampleBytes : Mem := setWord (setWord (fun _ => 0) 24 APP_MAGIC) 28 APP_VERSION

/-- Its transmission as `n` blocks. -/
def sampleImage (n : Nat) (pos : 1 ≤ n) (le : n ≤ 39) : Image :=
  .ofBytes sampleBytes (fun _ => 1) (UInt32.ofNat (256 * n))
    (by rw [UInt32.toNat_ofNat_of_lt' (by change 256 * n < 4294967296; omega)]; omega)
    (by rw [UInt32.toNat_ofNat_of_lt' (by change 256 * n < 4294967296; omega)]; omega)

def sampleRam : Ram := ⟨0x20000400, 0x20000420, 0x20000600, by decide, by decide, by decide⟩

section Sample

variable {n : Nat} {pos : 1 ≤ n} {le : n ≤ 39}

theorem sampleImage_length : (sampleImage n pos le).length = 256 * n := by
  rw [sampleImage, Image.ofBytes_length,
    UInt32.toNat_ofNat_of_lt' (by change 256 * n < 4294967296; omega)]

theorem sampleImage_blocks : (sampleImage n pos le).blocks = n := by
  rw [Image.blocks, sampleImage_length]
  omega

theorem sampleImage_fresh :
    ∃ j, j < 16 ∧ hdrGuid (fun _ => 0xFF) j ≠ (sampleImage n pos le).ctl.guid j := by
  refine ⟨0, by omega, ?_⟩
  rw [sampleImage, Image.ofBytes_guid (by omega)]
  decide

theorem sampleImage_admits {b : UInt16} (hb : b.toNat < n) :
    (sampleImage n pos le).Admits (.packet (dataPacket sampleBytes b)) :=
  fun _ => .inr ((sampleImage n pos le).isBlock_dataPacket (by rwa [sampleImage_blocks]))

end Sample

/-- The one-block program. -/
abbrev sampleBlock : Image := sampleImage 1 (by omega) (by omega)

theorem sampleImage_sees {s : Sys} (mode : s.mode = .waiting .updating) :
    (sampleImage 1 (by omega) (by omega)).All
      {b | s.sees (.packet (dataPacket sampleBytes 0)) b} := by
  intro b hb
  rw [sampleImage_blocks] at hb
  obtain rfl : b = 0 := by omega
  refine ⟨_, rfl, mode, dataPacket_type, dataPacket_hashOk, ?_⟩
  rw [dataPacket_block]
  rfl

/-- A program of three blocks, the last one of 88 bytes. -/
def sampleProgram : Image := .ofBytes sampleBytes (fun _ => 1) 600 (by decide) (by decide)

theorem sampleProgram_length : sampleProgram.length = 600 := Image.ofBytes_length

theorem sampleProgram_fresh :
    ∃ j, j < 16 ∧ hdrGuid (fun _ => 0xFF) j ≠ sampleProgram.ctl.guid j := by
  refine ⟨0, by omega, ?_⟩
  rw [sampleProgram, Image.ofBytes_guid (by omega)]
  decide

theorem sampleProgram_block {b : UInt16} (hb : b.toNat < 3) :
    sampleProgram.IsBlock (dataPacket sampleBytes b) := by
  apply sampleProgram.isBlock_dataPacket
  rw [Image.blocks, sampleProgram_length]
  exact hb

/-- A block that is missing. -/
theorem sampleProgram_missing {S : Set Nat} (b : Nat) (hb : b < 3) (missing : b ∉ S) :
    ¬ sampleProgram.All S := by
  intro all
  apply missing
  apply all b
  rw [Image.blocks, sampleProgram_length]
  exact hb

section Resume

variable (R : Ram) (bus : Nat → Option UInt8) {im : Image} {S : Set Nat} {m : Mem} {b : UInt16}

/-- The bootloader waits for the next block until it has them all. -/
theorem next_block {bytes : Mem} (stored : Stored im S m)
    (block : im.IsBlock (dataPacket bytes b)) (missing : ¬ im.All (insert b.toNat S)) :
    ∃ m', Stored im (insert b.toNat S) m' ∧
      (Sys.mk m (.waiting .updating)).next R bus (.packet (dataPacket bytes b)) =
        some ⟨m', .waiting .updating⟩ := by
  have earlier : ¬ im.All S := fun all => missing fun c hc => .inr (all c hc)
  obtain ⟨e, m', ⟨after, stored'⟩, call⟩ := @quietCall_block R bus _ _ _ _ stored earlier
    block
  rw [dataPacket_block] at after stored'
  have next := call.next
  rw [after.2 missing] at next
  exact ⟨m', stored', next⟩

/-- After a reset the control packet is recognized. -/
theorem next_updating (stored : Stored im S m) (missing : ¬ im.All S) :
    (Sys.mk m (.waiting .updating)).next R bus (.reset false) = some ⟨m, .waiting .idle⟩ ∧
      (Sys.mk m (.waiting .idle)).next R bus (.packet im.ctl) = some ⟨m, .waiting .updating⟩ := by
  constructor
  · obtain ⟨e, m', same, call⟩ := @quietCall_of_safe R bus ⟨m, .waiting .updating⟩ (.reset false) _ _ rfl
      (safe_demod_thread trivial fun o ho => quiet_appHeader ho)
    obtain ⟨rfl, rfl⟩ := same
    exact call.next
  · obtain ⟨e, m', same, call⟩ := @quietCall_of_safe R bus ⟨m, .waiting .idle⟩ (.packet im.ctl) _ _ rfl
      (by
        change Prog.Safe _ _ _ _ (updaterPacketProcess R .idle im.ctl) m
        rw [updaterPacketProcess, if_pos ⟨im.ctrl, im.hash_ok⟩]
        exact safe_ctrl_again stored fun _ _ => rfl)
    obtain ⟨-, incomplete, rfl⟩ := same
    have next := call.next
    rw [incomplete missing] at next
    exact next

end Resume

theorem sees_block {m : Mem} {bytes : Mem} {b : UInt16} :
    (Sys.mk m (.waiting .updating)).sees (.packet (dataPacket bytes b)) b.toNat :=
  ⟨_, rfl, rfl, dataPacket_type, dataPacket_hashOk, congrArg UInt16.toNat dataPacket_block⟩

/-- The last block comes first; after two blocks the board is reset, and the second block comes
last. -/
def sampleStream : List Event :=
  [.packet (dataPacket sampleBytes 2), .packet (dataPacket sampleBytes 0), .reset false,
    .packet sampleProgram.ctl, .packet (dataPacket sampleBytes 0),
    .packet (dataPacket sampleBytes 1)]

theorem sampleStream_admits : ∀ ev ∈ sampleStream, sampleProgram.Admits ev := by
  have block : ∀ b : UInt16, b.toNat < 3 →
      sampleProgram.Admits (.packet (dataPacket sampleBytes b)) :=
    fun b hb _ => .inr (sampleProgram_block hb)
  simp only [sampleStream, List.mem_cons, List.not_mem_nil, or_false, forall_eq_or_imp, forall_eq]
  exact ⟨block 2 (by decide), block 0 (by decide), trivial, fun _ => .inl fun _ _ => rfl,
    block 0 (by decide), block 1 (by decide)⟩

theorem sampleStream_seen {m : Mem} (stored : Stored sampleProgram ∅ m) :
    sampleProgram.All
      ((Sys.mk m (.waiting .updating)).seen sampleRam (fun _ => none) sampleStream) := by
  have block := fun (b : UInt16) (hb : b.toNat < 3) => sampleProgram_block hb
  obtain ⟨m₁, stored₁, next₁⟩ := next_block sampleRam (fun _ => none) stored
    (block 2 (by decide)) (sampleProgram_missing 1 (by decide) (by simp))
  obtain ⟨m₂, stored₂, next₂⟩ := next_block sampleRam (fun _ => none) stored₁
    (block 0 (by decide)) (sampleProgram_missing 1 (by decide) (by simp))
  obtain ⟨reset, again⟩ := next_updating sampleRam (fun _ => none) stored₂
    (sampleProgram_missing 1 (by decide) (by simp))
  obtain ⟨m₃, stored₃, next₃⟩ := next_block sampleRam (fun _ => none) stored₂
    (block 0 (by decide)) (sampleProgram_missing 1 (by decide) (by simp))
  intro b hb
  rw [Image.blocks, sampleProgram_length] at hb
  rw [sampleStream, seen_cons next₁, seen_cons next₂, seen_cons reset, seen_cons again,
    seen_cons next₃, Sys.seen]
  obtain rfl | rfl | rfl : b = 0 ∨ b = 1 ∨ b = 2 := by omega
  · exact .inr (.inl sees_block)
  · exact .inr (.inr (.inr (.inr (.inr (.inl sees_block)))))
  · exact .inl sees_block

/-- The program of three blocks is delivered. -/
theorem sample_delivered :
    ∃ s₀ s, (Sys.mk (fun _ => 0xFF) (.waiting .idle)).next sampleRam (fun _ => none)
        (.packet sampleProgram.ctl) = some s₀ ∧
      s₀.stream sampleRam (fun _ => none) sampleStream = some s ∧
      (∀ i, i < 600 → programArea s.mem i = sampleBytes i) ∧ hdrComplete s.mem = 0 := by
  obtain ⟨s₁, first₁, mode, stored⟩ :=
    delivered_first sampleRam (fun _ => none) sampleProgram sampleProgram_fresh
  obtain ⟨s₀, s, first, -, ran, -, -, done⟩ := image_delivered sampleRam (fun _ => none)
    sampleProgram (fun _ => 0xFF) sampleProgram_fresh sampleStream sampleStream_admits
  obtain rfl : s₁ = s₀ := Option.some.inj (first₁.symm.trans first)
  obtain ⟨m, mode'⟩ := s₁
  subst mode
  obtain ⟨image, complete, -⟩ := done (sampleStream_seen stored.1)
  rw [sampleProgram_length] at image
  exact ⟨_, s, first, ran, image, complete⟩

end LtcOs.Updater
