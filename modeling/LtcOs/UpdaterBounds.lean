import LtcOs.UpdaterSafety

/-!
Which memory a call of `updaterPacketProcess` touches.

Block numbers and lengths come from packets and are used as indices unchecked.
`WithinBounds` says for which contents and packets every access stays inside the
arrays it is meant for. That it suffices is read off the specifications of the
parts; that it is needed is read off the code, by following the run up to the
first access outside.
-/

namespace LtcOs.Updater

open LtcOs.Memory LtcOs.Request LtcOs.Flash LtcOs.Murmur3

variable {R : Ram} {bus : Nat → Option UInt8} {I : Mem → Prop} {E : Req → Mem → Prop} {m : Mem}
  {pkt : Packet}

/-! ### Accesses -/

/-- What a data packet for block `b` may read and program: its entry of the
blockmap of 40, its slot, and the complete word. -/
def DataByte (b a : Nat) : Prop :=
  (BlockByte b a ∧ b < 40) ∨ (storage + 32 ≤ a ∧ a < storage + 36)

/-- The accesses allowed while `pkt` is processed. -/
def Bounded (pkt : Packet) : Req → Prop
  | .load32 (.blockmap i) => i < 40
  | .load32 (.program a) => programOffset ≤ a ∧ a + 4 ≤ flashEnd
  | .load8 (.program a) => programOffset ≤ a ∧ a < flashEnd
  | .load8 (.dest a) => pkt.type = PKTTYPE_DATA → DataByte pkt.block.toNat a
  | .cmd c => pkt.type = PKTTYPE_DATA → c.code = FTFx_CMD_LWORDPROG →
      ∀ a, c.addr.toNat ≤ a → a < c.addr.toNat + 4 → DataByte pkt.block.toNat a
  | _ => True

/-- The contents and the packet that keep the code inside its arrays: the block
number is below 40, the stored length is that of 1 to 40 blocks, and it is not
the length of a 40th block, which has no slot, unless another block is missing. -/
def WithinBounds (m : Mem) (astate : AppState) (pkt : Packet) : Prop :=
  astate = .updating → hdrMagic m = STORAGE_MAGIC → pkt.type = PKTTYPE_DATA → pkt.dataHashOk →
    pkt.block.toNat < 40 ∧ 1 ≤ (hdrLength m).toNat ∧ (hdrLength m).toNat ≤ 10240 ∧
      ((hdrLength m).toNat ≤ 9984 ∨
        ∃ i, i < 40 ∧ i ≠ pkt.block.toNat ∧ hdrBlockmap m i = 0xFFFFFFFF)

/-- In unsigned arithmetic the length zero counts as the largest one. -/
theorem blockCount_le_iff {length : UInt32} :
    blockCount length ≤ 40 ↔ 1 ≤ length.toNat ∧ length.toNat ≤ 10240 := by
  by_cases pos : 1 ≤ length.toNat
  · rw [toNat_blockCount pos]
    omega
  · obtain rfl : length = 0 := UInt32.toNat_inj.mp (by change length.toNat = 0; omega)
    decide

/-- Taking in a block, or finding it there, clears its entry and no other. -/
theorem safe_recordBlock (small : pkt.block.toNat < 40)
    (reads : ∀ a m, a < flashEnd → BlockByte pkt.block.toNat a → E (.load8 (.dest a)) m)
    (words : ∀ c m, BlockWord pkt.block.toNat c → E (.cmd c) m) (kept : ∀ m, I m) :
    (if hdrBlockmap m pkt.block.toNat = 0xFFFFFFFF then programBlock R pkt else .ret 0).Safe
      (device bus) I E (fun _ m' => SameHeader m m' ∧ ∀ i, i < 40 →
        (hdrBlockmap m' i = 0xFFFFFFFF ↔ i ≠ pkt.block.toNat ∧ hdrBlockmap m i = 0xFFFFFFFF))
          m := by
  split_ifs with erased
  · refine (safe_takeBlock small erased reads words kept).post ?_
    rintro _ _ rfl
    refine ⟨sameHeader_takeBlock small, fun i hi => ?_⟩
    rw [hdrBlockmap_takeBlock small hi]
    split_ifs with here
    · exact iff_of_false (by decide) fun h => h.1 here
    · exact ⟨fun h => ⟨here, h⟩, fun h => h.2⟩
  · refine ⟨.refl m, fun i hi => ⟨fun h => ⟨?_, h⟩, fun h => h.2⟩⟩
    rintro rfl
    exact erased h

/-! ### The condition suffices -/

/-- A call in which every access is allowed. -/
abbrev StaysWithin (bus : Nat → Option UInt8) (pkt : Packet) {α : Type} (p : FlashM α) (m : Mem) :
    Prop :=
  p.Safe (device bus) (fun _ => True) (fun i _ => Bounded pkt i) (fun _ _ => True) m

theorem bounded_sector {c : Cmd} (h : c.size = 1024) : Bounded pkt (.cmd c) := by
  intro _ code
  rw [Cmd.size, code] at h
  exact absurd h (by decide)

theorem staysWithin_eraseStorage {e : Int → Exit} :
    StaysWithin bus pkt (eraseStorage >>= fun err => .ret (e err)) m :=
  (safe_eraseStorage (fun _ _ h => bounded_sector h) fun _ _ _ => trivial).bind
    fun _ _ _ => trivial

theorem staysWithin_boot {err : Int} : StaysWithin bus pkt (bootToUserApp err) m :=
  (safe_bootToUserApp trivial fun _ _ => trivial).post fun _ _ _ => trivial

theorem staysWithin_processCtrl (ctrl : pkt.type ≠ PKTTYPE_DATA) :
    StaysWithin bus pkt (processCtrl R pkt) m := by
  refine (safe_guidMatches (by omega) trivial fun _ _ => trivial).bind ?_
  rintro same _ ⟨-, rfl⟩
  split_ifs
  · refine safe_load32 (l := .header 32) (by decide) trivial trivial ?_
    split_ifs <;> trivial
  · refine (safe_eraseStorage (fun _ _ h => bounded_sector h) fun _ _ _ => trivial).bind ?_
    rintro _ _ ⟨-, rfl⟩
    exact (safe_init_storage_header ((blank_fill _ _ _).mono (by omega) (by omega))
      (fun _ _ h => absurd h ctrl) (fun _ _ _ _ _ _ h => absurd h ctrl)
      (fun _ _ h => absurd h ctrl) fun _ _ => trivial).bind fun _ _ _ => trivial

theorem staysWithin_finish {length : UInt32} (fits : length.toNat ≤ 9984) :
    StaysWithin bus pkt (finish R length) m := by
  refine (safe_programHash (.inl fits) trivial (fun a lo hi => ⟨lo, hi⟩)
    fun a lo hi => ⟨lo, hi⟩).bind ?_
  rintro _ _ ⟨-, rfl⟩
  refine safe_load32 (l := .header 8) (by decide) trivial trivial ?_
  split_ifs
  · exact (safe_mark (fun j hj _ => .inr (by omega))
      (fun c _ _ hc _ _ a lo hi => .inr (by omega)) trivial trivial).bind
      fun _ _ _ => staysWithin_boot
  · exact staysWithin_eraseStorage

theorem staysWithin_processData (small : pkt.block.toNat < 40) (pos : 1 ≤ (hdrLength m).toNat)
    (le : (hdrLength m).toNat ≤ 10240)
    (slots : (hdrLength m).toNat ≤ 9984 ∨
      ∃ i, i < 40 ∧ i ≠ pkt.block.toNat ∧ hdrBlockmap m i = 0xFFFFFFFF) :
    StaysWithin bus pkt (processData R pkt) m := by
  have start : storage = 0x5800 := rfl
  have top : flashEnd = 0x8000 := rfl
  refine safe_load32 (l := .blockmap pkt.block.toNat) ?_ small trivial ?_
  · change storage + 36 + 4 * pkt.block.toNat + 4 ≤ flashEnd
    omega
  refine (safe_recordBlock small (fun a _ _ h _ => .inl ⟨h, small⟩)
    (fun c _ h _ _ a lo hi => .inl ⟨h.byte lo hi, small⟩) fun _ => trivial).bind ?_
  rintro err m₁ ⟨same, entries⟩
  refine safe_load32 (l := .header 12) (by decide) trivial trivial ?_
  rw [show word m₁ (Lval.header 12).addr = hdrLength m from
    same.word (a := storage + 12) (by omega)]
  have count : blockCount (hdrLength m) ≤ 40 := blockCount_le_iff.mpr ⟨pos, le⟩
  refine (safe_allDone count trivial fun i hi => ?_).bind ?_
  · change i < 40
    omega
  rintro alldone _ ⟨done, rfl⟩
  split_ifs with all
  · by_cases fits : (hdrLength m).toNat ≤ 9984
    · exact staysWithin_finish fits
    · obtain ⟨i, hi, other, missing⟩ := slots.resolve_left fits
      have inside : i < blockCount (hdrLength m) := by
        rw [toNat_blockCount pos]
        omega
      exact absurd ((entries i hi).mpr ⟨other, missing⟩) (done.mp all i inside)
  · trivial

/-! ### The condition is needed -/

/-- The hash of 40 blocks leaves the program area. -/
theorem not_staysWithin_programHash {length : UInt32} (lo : 9984 < length.toNat)
    (hi : length.toNat ≤ 10240) : ¬ StaysWithin bus pkt (programHash length) m := by
  intro h
  have area : programOffset = 0x5900 := rfl
  have top : flashEnd = 0x8000 := rfl
  have words : (UInt32.ofInt ((toInt length).tdiv 4)).toNat = length.toNat / 4 := by
    rw [toInt_of_lt (by omega), toNat_nblocks (by omega)]
  have inFlash : ∀ k, k < 2496 →
      (Lval.program ((programOffset + 4 * k) % 4294967296)).addr + 4 ≤ flashEnd := by
    intro k hk
    change (programOffset + 4 * k) % 4294967296 + 4 ≤ flashEnd
    omega
  by_cases more : 2496 < length.toNat / 4
  · have read := h.left.read_of_fold (j := 2496) (fun k _ hk => run_load32 (inFlash k hk))
      (by omega) (by omega)
    have bounded : programOffset ≤ (programOffset + 4 * 2496) % 4294967296 ∧
      (programOffset + 4 * 2496) % 4294967296 + 4 ≤ flashEnd := read.1
    omega
  · -- the last word is the last of the area, so a tail follows it
    have blocks : ((toInt length).tdiv 4 * 4 + ((toInt length % 4).toNat - 1 : Nat)) =
        (length.toNat - 1 : Nat) := by
      rw [toInt_of_lt (by omega), nblocks_eq]
      omega
    have rem : (toInt length % 4).toNat = length.toNat % 4 := by
      rw [toInt_of_lt (by omega)]
      omega
    have fold : (Prog.fold (fun k => load32 (.program ((programOffset + 4 * k) % 4294967296)))
        mixBlock (UInt32.ofInt ((toInt length).tdiv 4)).toNat 0 MURMUR_SEED_TOTAL).Safe
        (device bus) (fun _ => True) (Answered bus) _ m :=
      Prog.safe_fold fun k _ hk => safe_load32_value (inFlash k (by omega))
        (quiet_load32 (inFlash k (by omega))).1 trivial
    obtain ⟨v, _, ran, -, rfl⟩ := fold.total fun _ _ h => h
    have last := safe_last_of_tail (by omega) (by omega) (h.right ran).left
    rw [blocks] at last
    have bounded : programOffset ≤ ((programOffset + (length.toNat - 1 : Nat) : Int) %
        4294967296).toNat ∧
      ((programOffset + (length.toNat - 1 : Nat) : Int) % 4294967296).toNat < flashEnd := last.1
    omega

/-- A data packet that stays within bounds meets the condition: each bound is the
one of the first access that would break it. -/
theorem withinBounds_of_processData (h : StaysWithin bus pkt (processData R pkt) m) :
    pkt.block.toNat < 40 ∧ 1 ≤ (hdrLength m).toNat ∧ (hdrLength m).toNat ≤ 10240 ∧
      ((hdrLength m).toNat ≤ 9984 ∨
        ∃ i, i < 40 ∧ i ≠ pkt.block.toNat ∧ hdrBlockmap m i = 0xFFFFFFFF) := by
  have start : storage = 0x5800 := rfl
  have top : flashEnd = 0x8000 := rfl
  have entryIn : ∀ i, i < 40 → (Lval.blockmap i).addr + 4 ≤ flashEnd := by
    intro i hi
    change storage + 36 + 4 * i + 4 ≤ flashEnd
    omega
  have small : pkt.block.toNat < 40 := h.left.1
  have afterEntry := h.right (run_load32 (entryIn _ small))
  have record : (if hdrBlockmap m pkt.block.toNat = 0xFFFFFFFF then programBlock R pkt
      else .ret 0).Safe (device bus) (fun _ => True) (Answered bus) _ m :=
    safe_recordBlock small (fun a m ha _ => (quiet_load8 (l := .dest a) ha).1)
      (fun c m _ => answered_cmd c m) fun _ => trivial
  obtain ⟨err, m₁, recorded, same, entries⟩ := record.total fun _ _ h => h
  have scan := (afterEntry.right recorded).right (run_load32 (l := .header 12) (by decide))
  rw [show word m₁ (Lval.header 12).addr = hdrLength m from
    same.word (a := storage + 12) (by omega)] at scan
  have count : blockCount (hdrLength m) ≤ 40 := by
    by_contra more
    have read := scan.left.read_of_fold (j := 40)
      (fun k _ hk => run_load32 (entryIn k hk)) (by omega) (by omega)
    have bounded : 40 < 40 := read.1
    omega
  obtain ⟨pos, le⟩ := blockCount_le_iff.mp count
  refine ⟨small, pos, le, ?_⟩
  by_contra bad
  rw [not_or] at bad
  have allDone : (allDone (hdrLength m)).Safe (device bus) (fun _ => True) (Answered bus) _ m₁ :=
    safe_allDone count trivial fun i hi => (quiet_load32 (entryIn i (by omega))).1
  obtain ⟨alldone, _, scanned, done, rfl⟩ := allDone.total fun _ _ h => h
  have all : alldone = true := by
    refine done.mpr fun i hi missing => bad.2 ⟨i, by omega, ?_⟩
    exact (entries i (by omega)).mp missing
  have finish := scan.right scanned
  rw [if_pos all] at finish
  exact not_staysWithin_programHash (by omega) le finish.left

/-! ### The condition is exact -/

theorem staysWithin_iff {astate : AppState} :
    StaysWithin bus pkt (updaterPacketProcess R astate pkt) m ↔ WithinBounds m astate pkt := by
  constructor
  · rintro h rfl magic type hash
    have rest := h.right (run_load32 (l := .header 4) (by decide))
    rw [if_pos (show word m (Lval.header 4).addr = STORAGE_MAGIC from magic),
      if_pos ⟨type, hash⟩] at rest
    exact withinBounds_of_processData rest
  · intro within
    cases astate with
    | idle =>
        simp only [updaterPacketProcess]
        split_ifs with ctrl
        · refine staysWithin_processCtrl ?_
          rw [ctrl.1]
          decide
        · trivial
    | updating =>
        refine safe_load32 (l := .header 4) (by decide) trivial trivial ?_
        split_ifs with magic data
        · obtain ⟨small, pos, le, slots⟩ := within rfl magic data.1 data.2
          exact staysWithin_processData small pos le slots
        · trivial
        · exact staysWithin_eraseStorage
    | updated => exact staysWithin_boot
    | fail => trivial
    | gotId => trivial

/-- Runs in which every packet meets the condition where it arrives. -/
def PacketsWithinBounds (s : Sys) (l : Label) : Prop :=
  ∀ pkt astate, l = .packet pkt → s.mode = .waiting astate → WithinBounds s.mem astate pkt

/-- A call keeps to its arrays exactly when the contents and the packet are within
bounds, whatever state it is made in; so in a run in which they always are, no
request leaves them. -/
theorem updater_bounded (R : Ram) (bus : Nat → Option UInt8) :
    (∀ m astate pkt, (∀ e ∈ (updaterPacketProcess R astate pkt).trace (device bus) m,
      Bounded pkt e.1) ↔ WithinBounds m astate pkt) ∧
    ∀ s, Reachable R bus PacketsWithinBounds s →
      ∀ pkt i k, s.mode = .busy (some pkt) (.req i k) → Bounded pkt i := by
  refine ⟨fun m astate pkt => ?_, fun s reachable pkt i k busy => ?_⟩
  · constructor
    · intro inside
      exact staysWithin_iff.mp (Prog.safe_of_trace inside)
    · intro within
      have safe : StaysWithin bus pkt (updaterPacketProcess R astate pkt) m :=
        staysWithin_iff.mpr within
      exact safe.trace
  · have inv : ∀ pkt p, s.mode = .busy (some pkt) p → StaysWithin bus pkt p s.mem := by
      refine reachable.invariant (P := fun s => ∀ pkt p, s.mode = .busy (some pkt) p →
        StaysWithin bus pkt p s.mem) (fun m released _ pkt p h => ?_) ?_
      · cases h
      intro l s s' inv allowed step pkt p h
      cases step with
      | packet pkt' =>
          cases h
          exact staysWithin_iff.mpr (allowed _ _ rfl rfl)
      | exec answer =>
          cases h
          exact ((inv pkt _ rfl).exec answer).2
      | @finish m cur e => cases e <;> cases h
      | reset released => cases h
    exact (inv pkt _ busy).1

/-- After a control packet for one block, a data packet with block number 40 reads
past the blockmap. -/
theorem blockmap_exceeded :
    ∃ s pkt, Reachable sampleRam (fun _ => none) (fun _ _ => True) s ∧
      s.mode = .waiting .updating ∧ pkt.HashValid ∧
      ∃ e ∈ (updaterPacketProcess sampleRam .updating pkt).trace (device fun _ => none) s.mem,
        ¬ Bounded pkt e.1 := by
  have start : Reachable sampleRam (fun _ => none) (fun _ _ => True)
      ⟨fun _ => 0xFF, .waiting .idle⟩ := reachable_idle (fun _ _ => rfl) fun _ => trivial
  obtain ⟨s, first, mode, stored⟩ :=
    delivered_first sampleRam (fun _ => none)
      (sampleImage 1 (by omega) (by omega)) sampleImage_fresh
  refine ⟨s, dataPacket sampleBytes 40,
    start.next _ trivial (fun _ => trivial) (fun _ => trivial) first,
    mode, .inr ⟨dataPacket_type, dataPacket_hashOk⟩, ?_⟩
  by_contra none
  push Not at none
  have within := staysWithin_iff.mp (Prog.safe_of_trace none)
  have small := (within rfl stored.1.magic dataPacket_type dataPacket_hashOk).1
  rw [dataPacket_block] at small
  exact absurd small (by decide)

end LtcOs.Updater
