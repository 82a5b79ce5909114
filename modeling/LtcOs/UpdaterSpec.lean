import LtcOs.Updater

/-!
One specification per part of the updater, on the error-free device: what it
returns and the exact contents it leaves, for an arbitrary invariant on the
contents in between and an arbitrary restriction on requests. The proofs about
whole calls and runs use these and never unfold a part again.
-/

namespace LtcOs.Updater

open LtcOs.Memory LtcOs.Request LtcOs.Flash LtcOs.Murmur3

variable {R : Ram} {bus : Nat → Option UInt8} {I : Mem → Prop} {E : Req → Mem → Prop} {m : Mem}

/-! ### Specifications of the parts -/

theorem payload_aligned (R : Ram) : (R.pkt + 4) % 4 = 0 := by
  have h : R.pkt.toNat % 4 = 0 := by simpa using congrArg UInt32.toNat R.pkt_aligned
  apply UInt32.toNat_inj.mp
  rw [UInt32.toNat_mod, UInt32.toNat_add]
  change (R.pkt.toNat + 4) % 4294967296 % 4 = 0
  omega

theorem safe_eraseStorage (allowed : ∀ c m, c.size = 1024 → E (.cmd c) m)
    (kept : ∀ j, 1 ≤ j → j ≤ 10 → I (fill m storage (j * 1024))) :
    eraseStorage.Safe (device bus) I E
      (fun r m' => r = F_ERR_OK ∧ m' = fill m storage 10240) m :=
  safe_flashEraseSectors allowed kept

theorem toNat_blockmap (b : UInt16) : (0x5824 + 4 * b.toUInt32 : UInt32).toNat =
    0x5824 + 4 * b.toNat := by
  have h := b.toNat_lt
  rw [UInt32.toNat_add, UInt32.toNat_mul, UInt16.toNat_toUInt32]
  change (0x5824 + 4 * b.toNat % 4294967296) % 4294967296 = _
  omega

theorem toNat_slot (b : UInt16) : (0x5900 + b.toUInt32 * BLOCK_SIZE : UInt32).toNat =
    0x5900 + 256 * b.toNat := by
  have h := b.toNat_lt
  rw [UInt32.toNat_add, UInt32.toNat_mul, UInt16.toNat_toUInt32]
  change (0x5900 + b.toNat * 256 % 4294967296) % 4294967296 = _
  omega

theorem toNat_blockCount {length : UInt32} (pos : 1 ≤ length.toNat) :
    blockCount length = (length.toNat - 1) / 256 + 1 := by
  have lt := length.toNat_lt
  have minus : (length - 1).toNat = length.toNat - 1 := by
    rw [UInt32.toNat_sub]
    change (4294967296 - 1 + length.toNat) % 4294967296 = _
    omega
  unfold blockCount
  rw [UInt32.toNat_add, UInt32.toNat_div, minus]
  change ((length.toNat - 1) / 256 + 1) % 4294967296 = _
  omega

/-- The hash reads in flash the bytes of the program area, also for the length
of an erased header, which the C `int` takes for minus one. -/
theorem safe_programHash {length : UInt32}
    (bounded : length.toNat ≤ 9984 ∨ length = 0xFFFFFFFF) (kept : I m)
    (words : ∀ a, programOffset ≤ a → a + 4 ≤ flashEnd → E (.load32 (.program a)) m)
    (bytes : ∀ a, programOffset ≤ a → a < flashEnd → E (.load8 (.program a)) m) :
    (programHash length).Safe (device bus) I E
      (fun v m' => v = murmur (programArea m) length MURMUR_SEED_TOTAL ∧ m = m') m := by
  have range : ∀ k, k < (UInt32.ofInt ((toInt length).tdiv 4)).toNat → 4 * k + 4 ≤ 9984 := by
    rcases bounded with h | rfl
    · rw [toInt_of_lt (by omega), toNat_nblocks (by omega)]
      omega
    · intro k hk
      exact absurd hk (by decide +revert)
  have rest : ∀ j : Nat, j < (toInt length % 4).toNat →
      0 ≤ (toInt length).tdiv 4 * 4 + j ∧ (toInt length).tdiv 4 * 4 + j < 9984 := by
    rcases bounded with h | rfl
    · rw [toInt_of_lt (by omega), nblocks_eq]
      omega
    · intro j hj
      have : (toInt 0xFFFFFFFF).tdiv 4 = 0 := by decide
      have : (toInt 0xFFFFFFFF % 4).toNat = 3 := by decide
      omega
  refine safe_murmur (fun k hk => ?_) (fun j hj => ?_)
  · have hk := range k hk
    have addr : (programOffset + 4 * k) % 4294967296 = programOffset + 4 * k := by
      unfold programOffset
      omega
    have inFlash : programOffset + 4 * k + 4 ≤ flashEnd := by
      unfold programOffset flashEnd
      omega
    rw [addr]
    refine (safe_load32_value (l := .program (programOffset + 4 * k)) inFlash
      (words _ (by omega) inFlash) kept).post ?_
    · rintro _ _ ⟨rfl, rfl⟩
      simp [word, programArea, Lval.addr, Nat.add_assoc]
  · obtain ⟨ge, lt⟩ := rest j hj
    obtain ⟨n, hn⟩ := Int.eq_ofNat_of_zero_le ge
    rw [hn] at lt ⊢
    have addr : ((programOffset : Int) + n) % 4294967296 = (programOffset + n : Nat) := by
      unfold programOffset
      omega
    have inFlash : programOffset + n < flashEnd := by
      unfold programOffset flashEnd
      omega
    rw [addr]
    refine (safe_load8_value (l := .program (programOffset + n)) inFlash
      (bytes _ (by omega) inFlash) kept).post ?_
    · rintro _ _ ⟨rfl, rfl⟩
      simp [programArea, Lval.addr]

/-- The hash changes nothing, wherever the stored length leads it. -/
theorem safe_programHash_any {length : UInt32} (kept : I m) :
    (programHash length).Safe (device bus) I (fun _ _ => True) (fun _ m' => m = m') m := by
  refine (safe_murmur (f := fun k => (busWord bus m ((programOffset + 4 * k) % 4294967296)).getD 0)
    (g := fun j => (busByte bus m ((programOffset + j) % 4294967296).toNat).getD 0)
    (fun k _ => ?_) fun j _ => ?_).post fun _ _ h => h.2
  · exact safe_load32_det (E := fun _ _ => True) trivial kept
  · exact safe_load8_det (E := fun _ _ => True) trivial kept

theorem headerProto_magic (pkt : Packet) : word (headerProto pkt) 4 = STORAGE_MAGIC := by
  simp only [headerProto]
  rw [word_setWord_of_disjoint (by omega), word_setWord_of_disjoint (by omega), word_setWord_self]

theorem headerProto_fullhash (pkt : Packet) : word (headerProto pkt) 8 = pkt.fullhash := by
  simp only [headerProto]
  rw [word_setWord_of_disjoint (by omega), word_setWord_self]

theorem headerProto_length (pkt : Packet) : word (headerProto pkt) 12 = pkt.length :=
  word_setWord_self _ _ _

theorem headerProto_guid (pkt : Packet) (j : Nat) : headerProto pkt (16 + j) = pkt.guid j := by
  simp only [headerProto]
  rw [setWord_of_disjoint (by omega), setWord_of_disjoint (by omega),
    setWord_of_disjoint (by omega), setWord_of_disjoint (by omega), Nat.add_sub_cancel_left]

/-- The header is written word by word over an erased header. -/
theorem safe_init_storage_header {pkt : Packet} (erased : Blank m storage 32)
    (reads : ∀ j, j < 32 → E (.load8 (.dest (storage + j))) m)
    (programs : ∀ j c, j < 8 → c.code = FTFx_CMD_LWORDPROG → c.addr.toNat = storage + 4 * j →
      c.data1 = word (headerProto pkt) (4 * j) →
      E (.cmd c) (copyTo m storage (headerProto pkt) (4 * j)))
    (checks : ∀ c, c.code = FTFx_CMD_PROGCHECK → E (.cmd c) (copyTo m storage (headerProto pkt) 32))
    (kept : ∀ j, j ≤ 8 → I (copyTo m storage (headerProto pkt) (4 * j))) :
    (init_storage_header R pkt).Safe (device bus) I E
      (fun _ m' => m' = copyTo m storage (headerProto pkt) 32) m := by
  refine (safe_flashProgram 0x5800 32 (by decide) (by decide) (by decide)
    (by decide) (by decide) R.proto_aligned (fun j hj => reads j hj)
    (fun _ j c hj hc ha hd => programs j c hj hc ha hd) (fun _ _ c _ hc _ => checks c hc)
    (fun j hj _ => kept j hj)).post ?_
  rintro _ _ (⟨_, _, rfl⟩ | ⟨notBlank, _⟩)
  · rfl
  · exact absurd erased notBlank

/-- `m'` has the header of `m` up to the blockmap. -/
def SameHeader (m m' : Mem) : Prop := ∀ x, x < storage + 36 → m' x = m x

theorem SameHeader.refl (m : Mem) : SameHeader m m := fun _ _ => rfl

theorem SameHeader.trans {m₁ m₂ m₃ : Mem} (h : SameHeader m₁ m₂) (h' : SameHeader m₂ m₃) :
    SameHeader m₁ m₃ := fun x hx => (h' x hx).trans (h x hx)

theorem SameHeader.word {m m' : Mem} (h : SameHeader m m') {a : Nat} (ha : a + 4 ≤ storage + 36) :
    word m' a = word m a := word_congr fun j hj => h _ (by omega)

/-- Programming above the flag leaves the header alone, in range or not. -/
theorem safe_program_above {src : Mem} {ram dest count : UInt32} (positive : 0 < count.toNat)
    (words : count.toNat % 4 = 0) (aligned : dest.toNat % 4 = 0) (source : ram % 4 = 0)
    (above : storage + 36 ≤ dest.toNat) (noWrap : dest.toNat + count.toNat < 4294967296)
    (kept : ∀ m', SameHeader m m' → I m') :
    (flashProgram (.ram ram src) dest count).Safe (device bus) I (fun _ _ => True)
      (fun _ m' => SameHeader m m') m := by
  by_cases fits : dest.toNat + count.toNat ≤ flashEnd
  · have copy : ∀ n, SameHeader m (copyTo m dest.toNat src n) :=
      fun n x hx => copyTo_of_lt (.inl (by omega))
    refine (safe_flashProgram _ _ positive (by omega) fits aligned words source (fun _ _ => trivial)
      (fun _ _ _ _ _ _ _ => trivial) (fun _ _ _ _ _ _ => trivial)
      fun j _ _ => kept _ (copy _)).post ?_
    rintro r m' (⟨-, -, rfl⟩ | ⟨-, -, rfl⟩)
    · exact copy _
    · exact .refl _
  · rw [flashProgram_out_of_range positive]
    · exact .refl m
    · rw [UInt32.toNat_add]
      omega

theorem safe_programBlock {pkt : Packet} (kept : ∀ m', SameHeader m m' → I m') :
    (programBlock R pkt).Safe (device bus) I (fun _ _ => True) (fun _ m' => SameHeader m m') m := by
  have hb := pkt.block.toNat_lt
  have entry := toNat_blockmap pkt.block
  have slot := toNat_slot pkt.block
  unfold programBlock
  refine (safe_program_above (by decide) (by decide) (by omega) R.dummy_aligned
    (by unfold storage; omega) ?_ kept).bind fun _ m₁ h₁ => ?_
  · change _ + 4 < _
    omega
  refine (safe_program_above (by decide) (by decide) (by omega) (payload_aligned R)
    (by unfold storage; omega) ?_ fun m₂ h₂ => kept m₂ (h₁.trans h₂)).post fun _ m₂ h₂ =>
      h₁.trans h₂
  change _ + 256 < _
  omega

/-- The scan changes nothing, wherever the stored length leads it. -/
theorem safe_allDone_any {length : UInt32} (kept : I m) :
    (allDone length).Safe (device bus) I (fun _ _ => True) (fun _ m' => m = m') m := by
  unfold allDone
  generalize blockCount length = n
  generalize 0 = i
  generalize true = alldone
  induction n generalizing i alldone with
  | zero => exact rfl
  | succ n ih => exact safe_load32_any trivial kept fun w => ih (i + 1) _

/-- The stored image starts with a valid application header. -/
def AppValid (m : Mem) : Prop :=
  word m (programOffset + 24) = APP_MAGIC ∧ word m (programOffset + 28) = APP_VERSION

instance (m : Mem) : Decidable (AppValid m) := inferInstanceAs (Decidable (_ ∧ _))

theorem safe_appIsValid (kept : I m) (allowed : ∀ o, o ≤ 28 → E (.load32 (.appHeader o)) m) :
    appIsValid.Safe (device bus) I E (fun b m' => (b = true ↔ AppValid m) ∧ m = m') m := by
  refine safe_load32 (l := .appHeader 24) (by decide) (allowed 24 (by omega)) kept ?_
  split_ifs with magic
  · refine safe_load32 (l := .appHeader 28) (by decide) (allowed 28 (by omega)) kept ⟨?_, rfl⟩
    rw [decide_eq_true_iff]
    exact ⟨fun version => ⟨magic, version⟩, fun h => h.2⟩
  · exact ⟨⟨fun h => by simp at h, fun h => absurd h.1 magic⟩, rfl⟩

theorem safe_bootToUserApp {err : Int} (kept : I m)
    (allowed : ∀ o, o ≤ 28 → E (.load32 (.appHeader o)) m) :
    (bootToUserApp err).Safe (device bus) I E
      (fun e m' => e = (if AppValid m then .threadExit else .returned .fail err) ∧ m = m') m := by
  refine (safe_appIsValid kept allowed).bind ?_
  rintro valid _ ⟨hv, rfl⟩
  by_cases h : AppValid m
  · rw [if_pos (hv.mpr h), if_pos h]
    exact ⟨rfl, rfl⟩
  · rw [if_neg fun b => h (hv.mp b), if_neg h]
    exact ⟨rfl, rfl⟩

theorem safe_demod_thread {released : Bool} (kept : I m)
    (allowed : ∀ o, o ≤ 28 → E (.load32 (.appHeader o)) m) :
    (demod_thread released).Safe (device bus) I E
      (fun e m' => e = (if released = true ∧ AppValid m then .threadExit else .returned .idle 0) ∧
        m = m') m := by
  unfold demod_thread
  cases released with
  | false => exact ⟨by simp, rfl⟩
  | true =>
      refine (safe_appIsValid kept allowed).bind ?_
      rintro valid _ ⟨hv, rfl⟩
      by_cases h : AppValid m
      · rw [if_pos (hv.mpr h), if_pos ⟨rfl, h⟩]
        exact ⟨rfl, rfl⟩
      · rw [if_neg fun b => h (hv.mp b), if_neg fun b => h b.2]
        exact ⟨rfl, rfl⟩

theorem safe_guidMatches {pkt : Packet} {k j : Nat} (fits : j + k ≤ 16) (kept : I m)
    (allowed : ∀ i, i < 16 → E (.load8 (.guid i)) m) :
    (guidMatches pkt k j).Safe (device bus) I E (fun b m' =>
      (b = true ↔ ∀ i, j ≤ i → i < j + k → hdrGuid m i = pkt.guid i) ∧ m = m') m := by
  induction k generalizing j with
  | zero =>
      refine ⟨iff_of_true rfl fun i lo hi => ?_, rfl⟩
      omega
  | succ k ih =>
      refine safe_load8 (l := .guid j) ?_ (allowed j (by omega)) kept ?_
      · change storage + 16 + j < flashEnd
        unfold storage flashEnd
        omega
      have here : m (Lval.guid j).addr = hdrGuid m j := rfl
      rw [here]
      split_ifs with first
      · refine (ih (by omega)).post ?_
        rintro b _ ⟨hb, rfl⟩
        refine ⟨hb.trans ⟨fun h i lo hi => ?_, fun h i lo hi => h i (by omega) (by omega)⟩, rfl⟩
        rcases Nat.eq_or_lt_of_le lo with rfl | lt
        · exact first
        · exact h i (by omega) (by omega)
      · exact ⟨iff_of_false (by simp) fun h => first (h j (Nat.le_refl _) (by omega)), rfl⟩

/-- The completion scan on the blockmap of an image that fits in storage. -/
theorem safe_allDone {length : UInt32} (fits : blockCount length ≤ 40) (kept : I m)
    (allowed : ∀ i, i < blockCount length → E (.load32 (.blockmap i)) m) :
    (allDone length).Safe (device bus) I E (fun b m' =>
      (b = true ↔ ∀ i, i < blockCount length → hdrBlockmap m i ≠ 0xFFFFFFFF) ∧ m = m') m := by
  refine (Prog.safe_fold (f := hdrBlockmap m) fun i _ hi =>
    safe_load32_value (l := .blockmap i) ?_ (allowed i (by omega)) kept).post ?_
  · change storage + 36 + 4 * i + 4 ≤ flashEnd
    unfold storage flashEnd
    omega
  rintro _ _ ⟨rfl, rfl⟩
  refine ⟨?_, rfl⟩
  -- the accumulator is sticky: once false it stays false
  have scan : ∀ n i alldone, (List.range' i n).foldl
      (fun b k => if hdrBlockmap m k = 0xFFFFFFFF then false else b) alldone = true ↔
      alldone = true ∧ ∀ k, i ≤ k → k < i + n → hdrBlockmap m k ≠ 0xFFFFFFFF := by
    intro n
    induction n with
    | zero =>
        intro i alldone
        simp only [List.range'_zero, List.foldl_nil]
        exact ⟨fun h => ⟨h, fun k lo hi => by omega⟩, fun h => h.1⟩
    | succ n ih =>
        intro i alldone
        rw [List.range'_succ, List.foldl_cons, ih]
        split_ifs with missing
        · simp only [false_and, false_iff, not_and]
          exact fun _ h => h i (Nat.le_refl _) (by omega) missing
        · refine and_congr_right fun _ => ⟨fun h k lo hi => ?_, fun h k lo hi => ?_⟩
          · rcases Nat.eq_or_lt_of_le lo with rfl | lt
            · exact missing
            · exact h k (by omega) (by omega)
          · exact h k (by omega) (by omega)
  rw [scan]
  simp

/-- The contents after the complete flag was cleared. -/
def mark (m : Mem) : Mem := copyTo m (storage + 32) (fun _ => 0) 4

theorem hdrComplete_mark (m : Mem) : hdrComplete (mark m) = 0 := word_copyTo (j := 0) (by omega)

theorem mark_of_disjoint {x : Nat} (h : x < storage + 32 ∨ storage + 36 ≤ x) : mark m x = m x :=
  copyTo_of_lt (by omega)

theorem word_mark {a : Nat} (h : a + 4 ≤ storage + 32 ∨ storage + 36 ≤ a) :
    word (mark m) a = word m a := word_copyTo_of_disjoint (by omega)

/-- Clearing the flag fails exactly when it is not erased. -/
theorem safe_mark (reads : ∀ j, j < 4 → E (.load8 (.dest (storage + 32 + j))) m)
    (words : ∀ c m, c.code = FTFx_CMD_LWORDPROG ∨ c.code = FTFx_CMD_PROGCHECK →
      c.addr.toNat = storage + 32 → E (.cmd c) m)
    (kept : I m) (marked : I (mark m)) :
    (flashProgram (.ram R.dummy fun _ => 0) 0x5820 4).Safe (device bus) I E
      (fun _ m' => (hdrComplete m = 0xFFFFFFFF ∧ m' = mark m) ∨
        (hdrComplete m ≠ 0xFFFFFFFF ∧ m = m')) m := by
  have one : (4 : UInt32).toNat / 4 = 1 := rfl
  refine (safe_flashProgram 0x5820 4 (by decide) (by decide) (by decide) (by decide) (by decide)
    R.dummy_aligned (fun j hj => reads j hj)
    (fun _ j c hj hc ha _ => words c _ (.inl hc) ?_) (fun _ j c hj hc ha => words c _ (.inr hc) ?_)
    fun j hj _ => ?_).post ?_
  · obtain rfl : j = 0 := by omega
    exact ha
  · obtain rfl : j = 0 := by omega
    exact ha
  · obtain rfl | rfl : j = 0 ∨ j = 1 := by omega
    · rw [Nat.mul_zero, copyTo_zero]
      exact kept
    · exact marked
  · rintro _ _ (⟨erased, _, rfl⟩ | ⟨notErased, _, rfl⟩)
    · exact .inl ⟨word_eq_blank_iff.mpr erased, rfl⟩
    · exact .inr ⟨fun erased => notErased (word_eq_blank_iff.mp erased), rfl⟩

/-! ### Receiving one block -/

/-- The contents after a block with an erased blockmap entry was taken in: the
entry is cleared, and the slot is programmed if there is one and it is erased. -/
def takeBlock (m : Mem) (b : Nat) (src : Mem) : Mem :=
  let m₁ := copyTo m (storage + 36 + 4 * b) (fun _ => 0) 4
  if b < 39 ∧ Blank m₁ (programOffset + 256 * b) 256 then copyTo m₁ (programOffset + 256 * b) src 256
  else m₁

/-- A word programmed or checked for block `b`: its blockmap entry or its slot. -/
def BlockWord (b : Nat) (c : Cmd) : Prop :=
  (c.code = FTFx_CMD_LWORDPROG ∨ c.code = FTFx_CMD_PROGCHECK) ∧
    (c.addr.toNat = storage + 36 + 4 * b ∨
      (programOffset + 256 * b ≤ c.addr.toNat ∧ c.addr.toNat + 4 ≤ programOffset + 256 * b + 256))

/-- A byte of the blockmap entry or of the slot of block `b`. -/
def BlockByte (b a : Nat) : Prop :=
  (storage + 36 + 4 * b ≤ a ∧ a < storage + 36 + 4 * b + 4) ∨
    (programOffset + 256 * b ≤ a ∧ a < programOffset + 256 * b + 256)

theorem BlockWord.byte {b : Nat} {c : Cmd} (h : BlockWord b c) {a : Nat} (lo : c.addr.toNat ≤ a)
    (hi : a < c.addr.toNat + 4) : BlockByte b a := by
  rcases h.2 with h | h
  · exact .inl (by omega)
  · exact .inr (by omega)

theorem hdrBlockmap_eq_blank_iff {m : Mem} {b : Nat} :
    hdrBlockmap m b = 0xFFFFFFFF ↔ Blank m (storage + 36 + 4 * b) 4 := word_eq_blank_iff

theorem safe_takeBlock {pkt : Packet} (small : pkt.block.toNat < 40)
    (erased : hdrBlockmap m pkt.block.toNat = 0xFFFFFFFF)
    (reads : ∀ a m, a < flashEnd → BlockByte pkt.block.toNat a → E (.load8 (.dest a)) m)
    (words : ∀ c m, BlockWord pkt.block.toNat c → E (.cmd c) m) (kept : ∀ m, I m) :
    (programBlock R pkt).Safe (device bus) I E
      (fun _ m' => m' = takeBlock m pkt.block.toNat pkt.payload) m := by
  have entry := toNat_blockmap pkt.block
  have slot := toNat_slot pkt.block
  have entryAt : (0x5824 + 4 * pkt.block.toUInt32 : UInt32).toNat =
      storage + 36 + 4 * pkt.block.toNat := entry
  have slotAt : (0x5900 + pkt.block.toUInt32 * BLOCK_SIZE : UInt32).toNat =
      programOffset + 256 * pkt.block.toNat := slot
  have four : (4 : UInt32).toNat = 4 := rfl
  have size : (256 : UInt32).toNat = 256 := rfl
  have start : storage = 0x5800 := rfl
  have area : programOffset = 0x5900 := rfl
  have top : flashEnd = 0x8000 := rfl
  unfold programBlock
  refine (safe_flashProgram _ _ (by decide) (by omega) (by omega) (by omega) (by decide)
    R.dummy_aligned (fun j hj => reads _ _ (by omega) (.inl (by omega)))
    (fun _ j c hj hc ha _ => words c _ ⟨.inl hc, .inl (by omega)⟩)
    (fun _ j c hj hc ha => words c _ ⟨.inr hc, .inl (by omega)⟩) fun _ _ _ => kept _).bind ?_
  intro _ m₁ h₁
  obtain rfl : m₁ = copyTo m (storage + 36 + 4 * pkt.block.toNat) (fun _ => 0) 4 := by
    rw [entryAt, four] at h₁
    rcases h₁ with ⟨_, _, h⟩ | ⟨h, _⟩
    · exact h
    · exact absurd (hdrBlockmap_eq_blank_iff.mp erased) h
  clear h₁
  by_cases inside : pkt.block.toNat < 39
  · refine (safe_flashProgram _ _ (by decide) (by omega) (by omega) (by omega) (by decide)
      (payload_aligned R) (fun j hj => reads _ _ (by omega) (.inr (by omega)))
      (fun _ j c hj hc ha _ => words c _ ⟨.inl hc, .inr (by omega)⟩)
      (fun _ j c hj hc ha => words c _ ⟨.inr hc, .inr (by omega)⟩) fun _ _ _ => kept _).post ?_
    intro _ m₂ h₂
    rw [slotAt, size] at h₂
    rcases h₂ with ⟨h, _, rfl⟩ | ⟨h, _, rfl⟩
    · rw [takeBlock, if_pos ⟨inside, h⟩]
    · rw [takeBlock, if_neg fun b => h b.2]
  · rw [flashProgram_out_of_range (by decide), takeBlock, if_neg fun b => inside b.1]
    · exact rfl
    · rw [UInt32.toNat_add]
      omega

section TakeBlock

variable {b : Nat} {src : Mem}

/-- Neither the entry nor the slot of the block changes anything else. -/
theorem takeBlock_apart {x : Nat}
    (entry : x < storage + 36 + 4 * b ∨ storage + 36 + 4 * b + 4 ≤ x)
    (slot : x < programOffset + 256 * b ∨ programOffset + 256 * b + 256 ≤ x) :
    takeBlock m b src x = m x := by
  simp only [takeBlock]
  split_ifs
  · rw [copyTo_of_lt slot, copyTo_of_lt entry]
  · rw [copyTo_of_lt entry]

theorem takeBlock_below (hb : b < 40) {x : Nat} (hx : x < storage + 36) :
    takeBlock m b src x = m x := by
  have start : storage = 0x5800 := rfl
  have area : programOffset = 0x5900 := rfl
  exact takeBlock_apart (by omega) (by omega)

theorem sameHeader_takeBlock (hb : b < 40) : SameHeader m (takeBlock m b src) :=
  fun _ hx => takeBlock_below hb hx

/-- Exactly the entry of the block leaves the erased state. -/
theorem hdrBlockmap_takeBlock (hb : b < 40) {i : Nat} (hi : i < 40) :
    hdrBlockmap (takeBlock m b src) i = if i = b then 0 else hdrBlockmap m i := by
  have start : storage = 0x5800 := rfl
  have area : programOffset = 0x5900 := rfl
  have entry : ∀ n : Mem, (∀ x, x < programOffset → n x =
      copyTo m (storage + 36 + 4 * b) (fun _ => 0) 4 x) →
      hdrBlockmap n i = if i = b then 0 else hdrBlockmap m i := by
    intro n hn
    have same : hdrBlockmap n i = hdrBlockmap (copyTo m (storage + 36 + 4 * b) (fun _ => 0) 4) i :=
      word_congr fun j hj => hn _ (by omega)
    rw [same]
    split_ifs with here
    · subst here
      exact word_copyTo (j := 0) (by omega)
    · exact word_copyTo_of_disjoint (by omega)
  refine entry _ fun x hx => ?_
  simp only [takeBlock]
  split_ifs
  · rw [copyTo_of_lt (by omega)]
  · rfl

/-- The slot receives the payload. -/
theorem takeBlock_slot (hb : b < 39) (erased : Blank m (programOffset + 256 * b) 256) {j : Nat}
    (hj : j < 256) : takeBlock m b src (programOffset + 256 * b + j) = src j := by
  have start : storage = 0x5800 := rfl
  have area : programOffset = 0x5900 := rfl
  have still : Blank (copyTo m (storage + 36 + 4 * b) (fun _ => 0) 4)
      (programOffset + 256 * b) 256 := by
    intro k hk
    rw [copyTo_of_lt (by omega)]
    exact erased k hk
  simp only [takeBlock]
  rw [if_pos ⟨hb, still⟩, copyTo_of_mem (by omega) (by omega)]
  congr 1
  omega

theorem takeBlock_other (hb : b < 40) {x : Nat} (hx : programOffset ≤ x)
    (apart : x < programOffset + 256 * b ∨ programOffset + 256 * b + 256 ≤ x) :
    takeBlock m b src x = m x := by
  have start : storage = 0x5800 := rfl
  have area : programOffset = 0x5900 := rfl
  exact takeBlock_apart (by omega) apart

end TakeBlock

/-! ### All that the updater does with the flash -/

/-- Loads, the erasing of storage, and programming above the program ID section of the
header keep an invariant. -/
structure Driver {σ : Type} (H : Handler Req Resp σ) (I : σ → Prop) (E : Req → σ → Prop) :
    Prop where
  load8 : ∀ l, (load8 l).Preserves H I E
  load32 : ∀ l, (load32 l).Preserves H I E
  erase : eraseStorage.Preserves H I E
  program : ∀ {addr : UInt32} {bytes : Mem} {dest count : UInt32}, storage + 32 ≤ dest.toNat →
    dest.toNat + count.toNat < 2 ^ 32 → (flashProgram (.ram addr bytes) dest count).Preserves H I E

namespace Driver

variable {σ : Type} {H : Handler Req Resp σ} {I : σ → Prop} {E : Req → σ → Prop}
  {pkt : Packet}

theorem appIsValid (driver : Driver H I E) : appIsValid.Preserves H I E := by
  refine (driver.load32 _).bind fun magic => Prog.Preserves.ite ?_ (Prog.preserves_ret _)
  exact (driver.load32 _).bind fun version => Prog.preserves_ret _

theorem bootToUserApp (driver : Driver H I E) (err : Int) :
    (bootToUserApp err).Preserves H I E :=
  driver.appIsValid.bind fun _ => (Prog.preserves_ret _).ite (Prog.preserves_ret _)

theorem demod_thread (driver : Driver H I E) (released : Bool) :
    (demod_thread released).Preserves H I E :=
  (driver.appIsValid.ite (Prog.preserves_ret _)).bind fun _ =>
    (Prog.preserves_ret _).ite (Prog.preserves_ret _)

theorem guidMatches (driver : Driver H I E) (k j : Nat) :
    (guidMatches pkt k j).Preserves H I E := by
  induction k generalizing j with
  | zero => exact Prog.preserves_ret true
  | succ k ih =>
      exact (driver.load8 _).bind fun b => (ih (j + 1)).ite (Prog.preserves_ret false)

theorem programBlock (driver : Driver H I E) : (programBlock R pkt).Preserves H I E := by
  have hb := pkt.block.toNat_lt
  have start : storage = 0x5800 := rfl
  have entry := toNat_blockmap pkt.block
  have slot := toNat_slot pkt.block
  refine (driver.program ?_ ?_).bind fun _ => driver.program ?_ ?_
  · omega
  · rw [entry]
    simp only [UInt32.reduceToNat]
    omega
  · omega
  · rw [slot]
    simp only [UInt32.reduceToNat]
    omega

theorem finish (driver : Driver H I E) (length : UInt32) :
    (finish R length).Preserves H I E := by
  refine Prog.Preserves.bind ?_ fun hash => (driver.load32 _).bind fun fullhash =>
    Prog.Preserves.ite ?_ ?_
  · exact preserves_MurmurHash3 (fun _ => driver.load32 _) (fun _ => driver.load8 _) _ _
  · exact (driver.program (by decide) (by decide)).bind fun err => driver.bootToUserApp err
  · exact driver.erase.bind fun err => Prog.preserves_ret _

theorem processData (driver : Driver H I E) : (processData R pkt).Preserves H I E := by
  refine (driver.load32 _).bind fun entry => Prog.Preserves.bind
    (driver.programBlock.ite (Prog.preserves_ret _)) fun err => (driver.load32 _).bind
    fun length => Prog.Preserves.bind ?_ fun alldone =>
      (driver.finish length).ite (Prog.preserves_ret _)
  exact Prog.preserves_fold (fun _ => driver.load32 _) _ _ _

theorem processCtrl (driver : Driver H I E)
    (header : (init_storage_header R pkt).Preserves H I E) :
    (processCtrl R pkt).Preserves H I E := by
  refine (driver.guidMatches _ _).bind fun same => Prog.Preserves.ite ?_ ?_
  · exact (driver.load32 _).bind fun complete => (Prog.preserves_ret _).ite (Prog.preserves_ret _)
  · exact driver.erase.bind fun err => header.bind fun _ => Prog.preserves_ret _

/-- In `APP_UPDATING` the program ID section is not programmed. -/
theorem updating (driver : Driver H I E) :
    (updaterPacketProcess R .updating pkt).Preserves H I E := by
  refine (driver.load32 _).bind fun magic => Prog.Preserves.ite ?_ ?_
  · exact driver.processData.ite (Prog.preserves_ret _)
  · exact driver.erase.bind fun err => Prog.preserves_ret _

theorem updaterPacketProcess (driver : Driver H I E)
    (header : (init_storage_header R pkt).Preserves H I E) (astate : AppState) :
    (updaterPacketProcess R astate pkt).Preserves H I E := by
  cases astate with
  | idle => exact (driver.processCtrl header).ite (Prog.preserves_ret _)
  | updating => exact driver.updating
  | updated => exact driver.bootToUserApp 0
  | fail => exact Prog.preserves_ret _
  | gotId => exact Prog.preserves_ret _

end Driver

end LtcOs.Updater
