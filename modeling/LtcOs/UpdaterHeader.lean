import LtcOs.UpdaterSafety
import LtcOs.FlashFaults

/-!
Which transmission the header in storage belongs to.

`APP_UPDATING` is entered after the header was written, or because the guid of a control
packet is the one in storage. The second way trusts the sixteen bytes it compares, and
these may be erased, or cut off by a power loss and followed by erased ones. With every
such packet coming to a header that was written to its end, the header is in every run
that of an accepted control packet.
-/

namespace LtcOs.Updater

open LtcOs.Memory LtcOs.Request LtcOs.Flash LtcOs.Murmur3

/-! ### The history of a run -/

/-- The control packets accepted since the header was last erased, the one that the call
in progress has accepted, and the number of words up to which the program ID section has
been programmed since. -/
structure History where
  accepted : List Packet
  current : Option Packet
  programmed : Nat

/-- The history after a request was answered. -/
def History.after (h : History) : Req → History
  | .cmd c =>
      if c.code = FTFx_CMD_SECTERASE ∧ c.addr.toNat / 1024 = storage / 1024 then
        { h with
          accepted := h.current.toList
          programmed := 0 }
      else if c.code = FTFx_CMD_LWORDPROG ∧ storage ≤ c.addr.toNat ∧
          c.addr.toNat < storage + 32 then
        { h with programmed := (c.addr.toNat - storage) / 4 + 1 }
      else h
  | _ => h

/-- The history after a step from `s`. -/
def History.next (h : History) (s : Sys) : Label → History
  | .packet pkt =>
      match s.mode with
      | .waiting .idle =>
          if pkt.type = PKTTYPE_CTRL ∧ pkt.ctrlHashOk then
            { h with
              accepted := pkt :: h.accepted
              current := some pkt }
          else h
      | _ => h
  | .exec =>
      match s.mode with
      | .busy _ (.req i _) => h.after i
      | _ => h
  | .finish => { h with current := none }
  | .reset _ => { h with current := none }

structure Tracked where
  sys : Sys
  history : History

/-- A hash-valid control packet with the stored guid comes in `APP_IDLE` only when the
program ID section was programmed to its end since the last erase. -/
def ResumesWritten (t : Tracked) (l : Label) : Prop :=
  ∀ pkt, l = .packet pkt → t.sys.mode = .waiting .idle → pkt.type = PKTTYPE_CTRL →
    pkt.ctrlHashOk → (∀ j, j < 16 → hdrGuid t.sys.mem j = pkt.guid j) →
    t.history.programmed = 8

/-- A step of the bootloader that is admitted by `ok`, with its history. -/
def TrackedStep (R : Ram) (bus : Nat → Option UInt8) (ok : Tracked → Label → Prop)
    (t t' : Tracked) : Prop :=
  ∃ l, ok t l ∧ Step R bus l t.sys t'.sys ∧ t'.history = t.history.next t.sys l

/-- The states of a run from erased storage and the first reset. -/
def TrackedReachable (R : Ram) (bus : Nat → Option UInt8) (ok : Tracked → Label → Prop)
    (t : Tracked) : Prop :=
  ∃ m released, Erased m ∧ Relation.ReflTransGen (TrackedStep R bus ok)
    ⟨⟨m, .busy none (demod_thread released)⟩, ⟨[], none, 0⟩⟩ t

/-- The header in storage is initialised, and is that of the control packet. -/
structure HeaderOf (m : Mem) (pkt : Packet) : Prop where
  magic : hdrMagic m = STORAGE_MAGIC
  guid : ∀ j, j < 16 → hdrGuid m j = pkt.guid j
  length : hdrLength m = pkt.length
  fullhash : hdrFullhash m = pkt.fullhash

/-- The header in storage is that of a hash-valid control packet accepted since the last
erase. -/
def Accounted (m : Mem) (h : History) : Prop :=
  ∃ pkt ∈ h.accepted, pkt.type = PKTTYPE_CTRL ∧ pkt.ctrlHashOk ∧ HeaderOf m pkt

/-! ### Commands and the header -/

section Header

variable {bus : Nat → Option UInt8} {m m' : Mem} {h : History} {c : Cmd} {pkt : Packet}

/-- The two contents have the same program ID section. -/
def SameId (m m' : Mem) : Prop := ∀ x, x < 32 → m' (storage + x) = m (storage + x)

theorem SameId.word (same : SameId m m') {k : Nat} (hk : k + 4 ≤ 32) :
    word m' (storage + k) = word m (storage + k) := by
  apply word_congr
  intro j hj
  have := same (k + j) (by omega)
  rwa [← Nat.add_assoc] at this

theorem HeaderOf.congr (header : HeaderOf m pkt) (same : SameId m m') : HeaderOf m' pkt := by
  constructor
  · exact (same.word (by omega)).trans header.magic
  · intro j hj
    have := same (16 + j) (by omega)
    rw [← Nat.add_assoc] at this
    exact this.trans (header.guid j hj)
  · exact (same.word (by omega)).trans header.length
  · exact (same.word (by omega)).trans header.fullhash

theorem Accounted.congr (accounted : Accounted m h) (same : SameId m m') : Accounted m' h := by
  obtain ⟨pkt, mem, ctrl, ok, header⟩ := accounted
  exact ⟨pkt, mem, ctrl, ok, header.congr same⟩

theorem headerOf_copy (m : Mem) (pkt : Packet) :
    HeaderOf (copyTo m storage (headerProto pkt) 32) pkt := by
  constructor
  · exact (word_copyTo (by omega)).trans (headerProto_magic pkt)
  · intro j hj
    rw [hdrGuid, copyTo_of_mem (by omega) (by omega),
      show storage + 16 + j - storage = 16 + j by omega, headerProto_guid]
  · exact (word_copyTo (by omega)).trans (headerProto_length pkt)
  · exact (word_copyTo (by omega)).trans (headerProto_fullhash pkt)

/-- The command leaves the program ID section and the history alone. -/
theorem after_elsewhere (erase : ¬ (c.code = FTFx_CMD_SECTERASE ∧
      c.addr.toNat / 1024 = storage / 1024))
    (program : c.code = FTFx_CMD_LWORDPROG → storage + 32 ≤ c.addr.toNat) :
    SameId m (execCmd c m).2 ∧ h.after (.cmd c) = h := by
  constructor
  · intro x hx
    apply execCmd_confined
    rintro (⟨code, sector⟩ | ⟨code, -, lo, -⟩)
    · apply erase ⟨code, ?_⟩
      rw [← sector]
      unfold storage
      omega
    · have := program code
      omega
  · unfold History.after
    dsimp only
    rw [if_neg erase, if_neg]
    rintro ⟨code, -, hi⟩
    have := program code
    omega

/-- Erasing the header's sector. -/
theorem after_erase (erase : c.code = FTFx_CMD_SECTERASE)
    (sector : c.addr.toNat / 1024 = storage / 1024) :
    hdrMagic (execCmd c m).2 = blank ∧
      h.after (.cmd c) = { h with accepted := h.current.toList, programmed := 0 } := by
  constructor
  · have inFlash : ¬ flashEnd ≤ c.addr.toNat := by
      unfold flashEnd
      unfold storage at sector
      omega
    have effect : (execCmd c m).2 = fill m (c.addr.toNat / 1024 * 1024) 1024 := by
      unfold execCmd
      dsimp only
      rw [if_neg inFlash, if_pos erase]
    rw [effect, sector]
    exact (blank_fill m (storage / 1024 * 1024) 1024).word (by decide) (by decide)
  · unfold History.after
    dsimp only
    rw [if_pos ⟨erase, sector⟩]

/-- A load changes nothing. -/
theorem load_same {i : Req} {o : Resp i} (load : ∀ c, i ≠ .cmd c)
    (answer : device bus i m = some (o, m')) : m' = m ∧ h.after i = h := by
  cases i with
  | load8 l =>
      obtain ⟨b, -, same⟩ := Option.map_eq_some_iff.mp
        (show (busByte bus m l.addr).map _ = _ from answer)
      exact ⟨(Prod.mk.inj same).2.symm, rfl⟩
  | load32 l => exact ⟨device_load32_mem answer, rfl⟩
  | cmd c => exact absurd rfl (load c)

end Header

/-! ### What a request does to the header -/

/-- A header that was programmed to its end is accounted for. -/
def Written (m : Mem) (h : History) : Prop := h.programmed = 8 → Accounted m h

/-- In `APP_UPDATING` the header is accounted for. -/
def Settled (mode : Mode) (m : Mem) (h : History) : Prop :=
  mode = .waiting .updating → Accounted m h

/-- The call can be interrupted anywhere, and ends with a header that is accounted for. -/
abbrev Traces (bus : Nat → Option UInt8) (p : FlashM Exit) (m : Mem) (h : History) : Prop :=
  p.Safe (Prog.ghost (device bus) History.after) (fun t => Written t.1 t.2) (fun _ _ => True)
    (fun e t => Settled e.mode t.1 t.2) (m, h)

section Calls

variable {R : Ram} {bus : Nat → Option UInt8} {m m' : Mem} {h : History} {pkt : Packet}
  {p : FlashM Exit}

/-- Not a command of the flash controller. -/
def Load (i : Req) (_ : Mem) : Prop := ∀ c, i ≠ .cmd c

/-- A call that only loads. -/
theorem traces_loads (written : Written m h)
    (safe : p.Safe (device bus) (fun _ => True) Load (fun e _ => Settled e.mode m h) m) :
    Traces bus p m h := by
  refine (safe.ghost (J := fun m' h' => m' = m ∧ h' = h) ⟨rfl, rfl⟩ ?_).imp ?_ ?_ ?_
  · rintro i _ _ o m' load ⟨rfl, rfl⟩ answer
    exact load_same load answer
  · rintro ⟨_, _⟩ ⟨rfl, rfl⟩
    exact written
  · exact fun _ _ _ => trivial
  · rintro e ⟨_, _⟩ ⟨settled, rfl, rfl⟩
    exact settled

theorem settled_returned {astate : AppState} {err : Int} (other : astate ≠ .updating) :
    Settled (Exit.returned astate err).mode m h := by
  intro updating
  exact absurd (Mode.waiting.inj updating) other

theorem traces_demod_thread (written : Written m h) (released : Bool) :
    Traces bus (demod_thread released) m h := by
  apply traces_loads written
  refine (safe_demod_thread trivial fun _ _ c => by simp).post ?_
  rintro _ _ ⟨rfl, -⟩
  split_ifs
  · exact fun updating => absurd updating (by simp [Exit.mode])
  · exact settled_returned (by simp)

theorem safe_boot_settled {err : Int} :
    (bootToUserApp err).Safe (device bus) (fun _ => True) Load (fun e _ => Settled e.mode m' h)
      m := by
  refine (safe_bootToUserApp trivial fun _ _ c => by simp).post ?_
  rintro _ _ ⟨rfl, -⟩
  split_ifs
  · exact fun updating => absurd updating (by simp [Exit.mode])
  · exact settled_returned (by simp)

/-! ### A control packet -/

/-- The guid is the stored one: nothing is written. -/
theorem traces_resume (accounted : Accounted m h)
    (guid : ∀ j, j < 16 → hdrGuid m j = pkt.guid j) : Traces bus (processCtrl R pkt) m h := by
  apply traces_loads fun _ => accounted
  refine (safe_guidMatches (by omega) trivial fun _ _ c => by simp).bind ?_
  rintro same _ ⟨hsame, rfl⟩
  rw [if_pos (hsame.mpr fun i _ hi => guid i (by omega))]
  refine safe_load32_any (fun c => by simp) trivial fun complete => ?_
  split_ifs
  · exact fun _ => accounted
  · exact settled_returned (by simp)

/-- The next word of the header of `pkt` is programmed. -/
def WritesHeader (pkt : Packet) (i : Req) (m : Mem) : Prop :=
  ∀ c, i = .cmd c → c.code = FTFx_CMD_LWORDPROG → ∃ base j, j < 8 ∧
    c.addr.toNat = storage + 4 * j ∧
    (execCmd c m).2 = copyTo base storage (headerProto pkt) (4 * (j + 1))

theorem writesHeader_word {base : Mem} {j : Nat} {c : Cmd} (erased : Blank base storage 32)
    (hj : j < 8) (code : c.code = FTFx_CMD_LWORDPROG) (addr : c.addr.toNat = storage + 4 * j)
    (data : c.data1 = word (headerProto pkt) (4 * j)) :
    WritesHeader pkt (.cmd c) (copyTo base storage (headerProto pkt) (4 * j)) := by
  rintro _ ⟨⟩ -
  have start : storage = 0x5800 := rfl
  have top : flashEnd = 0x8000 := rfl
  have target : word (copyTo base storage (headerProto pkt) (4 * j)) (storage + 4 * j) = blank := by
    rw [word_copyTo_of_disjoint (by omega)]
    exact erased.word (by omega) (by omega)
  refine ⟨base, j, hj, addr, ?_⟩
  rw [← setWord_copyTo]
  unfold execCmd
  dsimp only
  rw [if_neg (by omega), if_neg (by rw [code]; decide), if_pos ⟨code, by omega⟩, addr, target, data]
  rw [blank_and]

/-- The packet is in the history as the one that the call has accepted. -/
structure Taking (pkt : Packet) (m : Mem) (h : History) : Prop where
  mem : pkt ∈ h.accepted
  current : h.current = some pkt
  written : Written m h

theorem Taking.step {i : Req} {o : Resp i} (taking : Taking pkt m h)
    (accepts : pkt.type = PKTTYPE_CTRL ∧ pkt.ctrlHashOk) (writes : WritesHeader pkt i m)
    (answer : device bus i m = some (o, m')) : Taking pkt m' (h.after i) := by
  obtain ⟨mem, current, written⟩ := taking
  cases i with
  | load8 l =>
      obtain ⟨rfl, same⟩ := load_same (h := h) (fun c => by simp) answer
      exact ⟨mem, current, written⟩
  | load32 l =>
      obtain ⟨rfl, same⟩ := load_same (h := h) (fun c => by simp) answer
      exact ⟨mem, current, written⟩
  | cmd c =>
      obtain rfl : (execCmd c m).2 = m' := congrArg Prod.snd (Option.some.inj answer)
      by_cases erase : c.code = FTFx_CMD_SECTERASE ∧ c.addr.toNat / 1024 = storage / 1024
      · rw [(after_erase (m := m) erase.1 erase.2).2]
        refine ⟨?_, current, fun full => absurd full (by simp)⟩
        rw [current]
        exact List.mem_singleton_self pkt
      · by_cases program : c.code = FTFx_CMD_LWORDPROG
        · obtain ⟨base, j, hj, addr, effect⟩ := writes c rfl program
          have count : h.after (.cmd c) = { h with programmed := j + 1 } := by
            unfold History.after
            dsimp only
            rw [if_neg erase, if_pos ⟨program, by omega, by omega⟩, addr]
            congr 1
            omega
          rw [count, effect]
          refine ⟨mem, current, fun full => ?_⟩
          -- the eighth word completes the program ID section
          obtain rfl : j = 7 := Nat.succ.inj full
          exact ⟨pkt, mem, accepts.1, accepts.2, headerOf_copy base pkt⟩
        · obtain ⟨same, kept⟩ := after_elsewhere (m := m) (h := h) erase
            fun code => absurd code program
          rw [kept]
          exact ⟨mem, current, fun full => (written full).congr same⟩

/-- The guid is new: storage is erased and the header written. -/
theorem traces_restart (taking : Taking pkt m h)
    (accepts : pkt.type = PKTTYPE_CTRL ∧ pkt.ctrlHashOk)
    (guid : ¬ ∀ j, j < 16 → hdrGuid m j = pkt.guid j) : Traces bus (processCtrl R pkt) m h := by
  have safe : (processCtrl R pkt).Safe (device bus) (fun _ => True) (WritesHeader pkt)
      (fun _ m' => HeaderOf m' pkt) m := by
    refine (safe_guidMatches (by omega) trivial fun _ _ c hc => by cases hc).bind ?_
    rintro same _ ⟨hsame, rfl⟩
    rw [if_neg fun h => guid fun j hj => hsame.mp h j (by omega) (by omega)]
    refine (safe_eraseStorage ?_ fun _ _ _ => trivial).bind ?_
    · rintro c m size _ ⟨⟩ code
      rw [Cmd.size, if_neg (by rw [code]; decide)] at size
      exact absurd size (by decide)
    rintro _ _ ⟨-, rfl⟩
    have erased : Blank (fill m storage 10240) storage 32 :=
      (blank_fill _ _ _).mono (by omega) (by omega)
    refine (safe_init_storage_header erased (fun _ _ c hc => by cases hc)
      (fun j c hj code addr data => writesHeader_word erased hj code addr data) ?_
      fun _ _ => trivial).bind ?_
    · rintro c code _ ⟨⟩ code'
      exact absurd (code.symm.trans code') (by decide)
    · rintro _ _ rfl
      exact headerOf_copy _ pkt
  refine (safe.ghost taking ?_).imp ?_ ?_ ?_
  · exact fun i m h o m' writes taking answer => taking.step accepts writes answer
  · exact fun t taking => taking.written
  · exact fun _ _ _ => trivial
  · exact fun e t post _ => ⟨pkt, post.2.mem, accepts.1, accepts.2, post.1⟩

/-! ### A packet in `APP_UPDATING` -/

/-- No word of the program ID section is programmed. -/
def SparesId (i : Req) (_ : Mem) : Prop :=
  ∀ c, i = .cmd c → c.code = FTFx_CMD_LWORDPROG → storage + 32 ≤ c.addr.toNat

theorem sparesId_load {i : Req} (load : ∀ c, i ≠ .cmd c) : SparesId i m :=
  fun c hc => absurd hc (load c)

theorem sparesId_driver : Driver (device bus) (fun _ => True) SparesId where
  load8 l := Prog.preserves_ask (fun _ _ => sparesId_load (by simp)) fun _ _ _ _ _ => trivial
  load32 l := Prog.preserves_ask (fun _ _ => sparesId_load (by simp)) fun _ _ _ _ _ => trivial
  erase := by
    intro m _
    refine (safe_eraseStorage ?_ fun _ _ _ => trivial).post fun _ _ _ => trivial
    rintro c m size _ ⟨⟩ code
    rw [Cmd.size, if_neg (by rw [code]; decide)] at size
    exact absurd size (by decide)
  program := by
    intro ram bytes dest count above fits m _
    by_cases checked : Checked (.ram ram bytes) dest count
    · obtain ⟨positive, lo, hi, aligned, words, source⟩ := checked
      refine (safe_flashProgram dest count positive lo hi aligned words source
        (fun _ _ => sparesId_load (by simp)) ?_ ?_ fun _ _ _ => trivial).post fun _ _ _ => trivial
      · rintro - j c hj - addr - _ ⟨⟩ -
        omega
      · rintro - j c hj code - _ ⟨⟩ code'
        exact absurd (code.symm.trans code') (by decide)
    · rcases flashProgram_refused checked fits with ⟨-, h⟩ | h | h <;> rw [h] <;> trivial

theorem safe_finish_leaves {length : UInt32} :
    (finish R length).Safe (device bus) (fun _ => True) (fun _ _ => True)
      (fun e _ => e.mode ≠ .waiting .updating) m := by
  refine (safe_programHash_any trivial).bind ?_
  rintro hash _ rfl
  refine safe_load32_any trivial trivial fun fullhash => ?_
  split_ifs
  · refine (Prog.safe_trivial _ _).bind fun err m' _ => ?_
    refine (safe_bootToUserApp trivial fun _ _ => trivial).post ?_
    rintro _ _ ⟨rfl, -⟩
    split_ifs <;> simp [Exit.mode]
  · exact (Prog.safe_trivial _ _).bind fun err m' _ => by simp [Exit.mode]

/-- A call that stays in `APP_UPDATING` has found and left an initialised header. -/
theorem safe_updating_same :
    (updaterPacketProcess R .updating pkt).Safe (device bus) (fun _ => True) (fun _ _ => True)
      (fun e m' => e.mode = .waiting .updating → hdrMagic m' = STORAGE_MAGIC) m := by
  refine safe_load32 (l := .header 4) (by decide) trivial trivial ?_
  change Prog.Safe _ _ _ _ (if hdrMagic m = STORAGE_MAGIC then _ else _) m
  split_ifs with magic
  · refine safe_load32_any trivial trivial fun entry => ?_
    refine Prog.Safe.bind (Q := fun _ m' => SameHeader m m') ?_ fun err m₁ same => ?_
    · split_ifs
      · exact safe_programBlock fun _ _ => trivial
      · exact .refl m
    refine safe_load32_any trivial trivial fun length => ?_
    refine (safe_allDone_any trivial).bind ?_
    rintro alldone _ rfl
    split_ifs
    · exact safe_finish_leaves.post fun _ _ other updating => absurd updating other
    · exact fun _ => (same.word (by omega)).trans magic
  · exact fun _ => magic
  · exact (Prog.safe_trivial _ _).bind fun err m' _ => by simp [Exit.mode]

/-- The header is accounted for, or erased since. -/
structure Kept (m : Mem) (h : History) : Prop where
  written : Written m h
  held : Accounted m h ∨ hdrMagic m = blank

theorem Kept.step {i : Req} {o : Resp i} (kept : Kept m h) (spares : SparesId i m)
    (answer : device bus i m = some (o, m')) : Kept m' (h.after i) := by
  obtain ⟨written, held⟩ := kept
  cases i with
  | load8 l =>
      obtain ⟨rfl, same⟩ := load_same (h := h) (fun c => by simp) answer
      exact ⟨written, held⟩
  | load32 l =>
      obtain ⟨rfl, same⟩ := load_same (h := h) (fun c => by simp) answer
      exact ⟨written, held⟩
  | cmd c =>
      obtain rfl : (execCmd c m).2 = m' := congrArg Prod.snd (Option.some.inj answer)
      by_cases erase : c.code = FTFx_CMD_SECTERASE ∧ c.addr.toNat / 1024 = storage / 1024
      · obtain ⟨magic, after⟩ := after_erase (m := m) (h := h) erase.1 erase.2
        rw [after]
        exact ⟨fun full => absurd full (by simp), .inr magic⟩
      · obtain ⟨same, kept⟩ := after_elsewhere (m := m) (h := h) erase (spares c rfl)
        rw [kept]
        refine ⟨fun full => (written full).congr same, ?_⟩
        rcases held with accounted | magic
        · exact .inl (accounted.congr same)
        · exact .inr ((same.word (by omega)).trans magic)

theorem traces_updating (accounted : Accounted m h) :
    Traces bus (updaterPacketProcess R .updating pkt) m h := by
  have spares : (updaterPacketProcess R .updating pkt).Safe (device bus) (fun _ => True) SparesId
      (fun _ _ => True) m := sparesId_driver.updating m trivial
  have start : Kept m h := ⟨fun _ => accounted, .inl accounted⟩
  refine ((spares.and safe_updating_same).ghost start ?_).imp ?_ ?_ ?_
  · exact fun i m h o m' allowed kept answer => kept.step allowed.1 answer
  · exact fun t kept => kept.written
  · exact fun _ _ _ => trivial
  · rintro e t ⟨⟨-, magic⟩, kept⟩ updating
    rcases kept.held with accounted | erased
    · exact accounted
    · exact absurd (erased.symm.trans (magic updating)) (by decide)

end Calls

/-! ### Runs -/

section Runs

variable {R : Ram} {bus : Nat → Option UInt8} {t t' : Tracked} {m : Mem} {h : History}
  {pkt : Packet}

/-- What every state of a run has: a header programmed to its end is accounted for, as it
is in `APP_UPDATING`, and the call in progress will keep to that. -/
def Trusted (bus : Nat → Option UInt8) (t : Tracked) : Prop :=
  Written t.sys.mem t.history ∧
    match t.sys.mode with
    | .busy _ p => Traces bus p t.sys.mem t.history
    | mode => Settled mode t.sys.mem t.history

/-- A hash-valid control packet in `APP_IDLE`. -/
theorem trusted_accept (accepts : pkt.type = PKTTYPE_CTRL ∧ pkt.ctrlHashOk) (written : Written m h)
    (resumes : (∀ j, j < 16 → hdrGuid m j = pkt.guid j) → h.programmed = 8) :
    Trusted bus ⟨⟨m, .busy (some pkt) (processCtrl R pkt)⟩,
      { h with accepted := pkt :: h.accepted, current := some pkt }⟩ := by
  have extended : Written m { h with accepted := pkt :: h.accepted, current := some pkt } := by
    intro full
    obtain ⟨other, mem, known⟩ := written full
    exact ⟨other, List.mem_cons_of_mem _ mem, known⟩
  refine ⟨extended, ?_⟩
  by_cases guid : ∀ j, j < 16 → hdrGuid m j = pkt.guid j
  · exact traces_resume (extended (resumes guid)) guid
  · exact traces_restart ⟨List.mem_cons_self, rfl, extended⟩ accepts guid

theorem trusted_packet {astate : AppState} (trusted : Trusted bus ⟨⟨m, .waiting astate⟩, h⟩)
    (resumes : ResumesWritten ⟨⟨m, .waiting astate⟩, h⟩ (.packet pkt)) :
    Trusted bus ⟨⟨m, .busy (some pkt) (updaterPacketProcess R astate pkt)⟩,
      h.next ⟨m, .waiting astate⟩ (.packet pkt)⟩ := by
  obtain ⟨written, settled⟩ := trusted
  cases astate with
  | idle =>
      unfold History.next updaterPacketProcess
      dsimp only
      split_ifs with accepts
      · exact trusted_accept accepts written (resumes pkt rfl rfl accepts.1 accepts.2)
      · exact ⟨written, settled_returned (by simp)⟩
  | gotId => exact ⟨written, settled_returned (by simp)⟩
  | updating => exact ⟨written, traces_updating (settled rfl)⟩
  | updated => exact ⟨written, traces_loads written safe_boot_settled⟩
  | fail => exact ⟨written, fun updating => absurd updating (by simp [Exit.mode])⟩

theorem trusted_mode {e : Exit} (written : Written m h) (settled : Settled e.mode m h) :
    Trusted bus ⟨⟨m, e.mode⟩, { h with current := none }⟩ := by
  cases e with
  | returned astate err => exact ⟨written, settled⟩
  | threadExit => exact ⟨written, settled⟩
  | hang => exact ⟨written, settled⟩

theorem trusted_step (trusted : Trusted bus t) (step : TrackedStep R bus ResumesWritten t t') :
    Trusted bus t' := by
  obtain ⟨⟨m, mode⟩, h⟩ := t
  obtain ⟨s', _⟩ := t'
  obtain ⟨l, resumes, step, rfl⟩ := step
  cases step with
  | packet pkt => exact trusted_packet trusted resumes
  | exec answer =>
      cases answer with
      | answer answer => exact trusted.2.2 _ _ (Option.map_eq_some_iff.mpr ⟨_, answer, rfl⟩)
  | finish => exact trusted_mode trusted.1 trusted.2
  | reset released =>
      have written : Written m { h with current := none } := trusted.1
      exact ⟨written, traces_demod_thread written released⟩

theorem TrackedReachable.trusted (reachable : TrackedReachable R bus ResumesWritten t) :
    Trusted bus t := by
  obtain ⟨m, released, erased, run⟩ := reachable
  induction run with
  | refl =>
      have fresh : Written m ⟨[], none, 0⟩ := fun full => absurd full (by simp)
      exact ⟨fresh, traces_demod_thread fresh released⟩
  | tail _ step ih => exact trusted_step ih step

/-- If control packets with the stored guid come only to a header that was written to its
end, then in every run the header in `APP_UPDATING` is initialised and that of a control
packet accepted since the last erase, and no packet takes the branch for a corrupt one. -/
theorem header_of_accepted {R : Ram} {bus : Nat → Option UInt8} {t : Tracked}
    (reachable : TrackedReachable R bus ResumesWritten t)
    (updating : t.sys.mode = .waiting .updating) :
    hdrMagic t.sys.mem = STORAGE_MAGIC ∧
    (∃ pkt ∈ t.history.accepted, pkt.type = PKTTYPE_CTRL ∧ pkt.ctrlHashOk ∧
      (∀ j, j < 16 → hdrGuid t.sys.mem j = pkt.guid j) ∧ hdrLength t.sys.mem = pkt.length ∧
      hdrFullhash t.sys.mem = pkt.fullhash) ∧
    ∀ pkt, (updaterPacketProcess R .updating pkt).run (device bus) t.sys.mem =
      (if pkt.type = PKTTYPE_DATA ∧ pkt.dataHashOk then processData R pkt
        else .ret (.returned .updating 0)).run (device bus) t.sys.mem := by
  obtain ⟨⟨m, mode⟩, h⟩ := t
  subst updating
  obtain ⟨pkt, mem, ctrl, hash, header⟩ := reachable.trusted.2 rfl
  refine ⟨header.magic, ⟨pkt, mem, ctrl, hash, header.guid, header.length, header.fullhash⟩,
    fun pkt => ?_⟩
  have magic : word m (Lval.header 4).addr = STORAGE_MAGIC := header.magic
  simp only [updaterPacketProcess, Prog.run_bind]
  rw [run_load32 (by decide), Option.bind_some, magic, if_pos rfl]

/-- A run has a history. -/
theorem Reachable.tracked {ok : Sys → Label → Prop} {ok' : Tracked → Label → Prop} {s : Sys}
    (reachable : Reachable R bus ok s) (admits : ∀ s h l, ok s l → ok' ⟨s, h⟩ l) :
    ∃ h, TrackedReachable R bus ok' ⟨s, h⟩ := by
  obtain ⟨m, released, erased, run⟩ := reachable
  suffices tracked : ∃ h, Relation.ReflTransGen (TrackedStep R bus ok')
      ⟨⟨m, .busy none (demod_thread released)⟩, ⟨[], none, 0⟩⟩ ⟨s, h⟩ by
    obtain ⟨h, run⟩ := tracked
    exact ⟨h, m, released, erased, run⟩
  induction run with
  | refl => exact ⟨_, .refl⟩
  | tail _ step ih =>
      obtain ⟨h, run⟩ := ih
      obtain ⟨l, allowed, step⟩ := step
      exact ⟨_, run.tail ⟨l, admits _ h l allowed, step, rfl⟩⟩

end Runs

/-! ### The guid of erased storage -/

/-- Runs in which no control packet has the stored guid. -/
def NeverResumes (s : Sys) (l : Label) : Prop :=
  ∀ pkt, l = .packet pkt → ¬ ∀ j, j < 16 → hdrGuid s.mem j = pkt.guid j

theorem NeverResumes.resumesWritten {s : Sys} {h : History} {l : Label} (never : NeverResumes s l) :
    ResumesWritten ⟨s, h⟩ l :=
  fun pkt label _ _ _ guid => absurd guid (never pkt label)

/-- The header of the one-block program is written when its control packet arrives. -/
theorem sampleImage_header :
    ∃ t, TrackedReachable sampleRam (fun _ => none) ResumesWritten t ∧
      t.sys.mode = .waiting .updating ∧ hdrMagic t.sys.mem = STORAGE_MAGIC := by
  have start : Reachable sampleRam (fun _ => none) NeverResumes ⟨fun _ => 0xFF, .waiting .idle⟩ :=
    reachable_idle (fun _ _ => rfl) fun _ pkt h => by cases h
  obtain ⟨s, first, mode, -⟩ := delivered_first sampleRam (fun _ => none)
    (sampleImage 1 (by omega) (by omega)) sampleImage_fresh
  have fresh : NeverResumes ⟨fun _ => 0xFF, .waiting .idle⟩
      (.packet (sampleImage 1 (by omega) (by omega)).ctl) := by
    rintro _ ⟨⟩ guid
    obtain ⟨j, hj, differs⟩ := @sampleImage_fresh 1 (by omega) (by omega)
    exact differs (guid j hj)
  have reachable := start.next (.packet _) fresh (fun _ pkt h => by cases h)
    (fun _ pkt h => by cases h) first
  obtain ⟨h, tracked⟩ := reachable.tracked fun _ _ _ never => never.resumesWritten
  exact ⟨⟨s, h⟩, tracked, mode, (header_of_accepted tracked mode).1⟩

/-- A control packet with the stored guid is taken for a resumed transmission, whatever the
rest of the header is. -/
theorem next_resume {R : Ram} {bus : Nat → Option UInt8} {m : Mem} {pkt : Packet}
    (accepts : pkt.type = PKTTYPE_CTRL ∧ pkt.ctrlHashOk)
    (guid : ∀ j, j < 16 → hdrGuid m j = pkt.guid j) (incomplete : hdrComplete m = 0xFFFFFFFF) :
    (Sys.mk m (.waiting .idle)).next R bus (.packet pkt) = some ⟨m, .waiting .updating⟩ := by
  have safe : (updaterPacketProcess R .idle pkt).Safe (device bus) (fun _ => True) (Answered bus)
      (fun e m' => e = .returned .updating 0 ∧ m' = m) m := by
    rw [updaterPacketProcess, if_pos accepts]
    refine (safe_guidMatches (by omega) trivial fun i hi => (quiet_load8 ?_).1).bind ?_
    · change storage + 16 + i < flashEnd
      unfold storage flashEnd
      omega
    rintro same _ ⟨hsame, rfl⟩
    rw [if_pos (hsame.mpr fun i _ hi => guid i (by omega))]
    refine safe_load32 (l := .header 32) (by decide) (quiet_load32 (by decide)).1 trivial ?_
    change Prog.Safe _ _ _ _ (if hdrComplete m = 0xFFFFFFFF then _ else _) m
    rw [if_pos incomplete]
    exact ⟨rfl, rfl⟩
  obtain ⟨e, m', ran, rfl, rfl⟩ := safe.total fun _ _ h => h
  simp only [Sys.next, Sys.program, ran, Option.map_some, Exit.mode]

/-- On erased storage a guid of sixteen bytes `0xFF` leads to `APP_UPDATING` with no header
at all. -/
theorem erasedGuid_resumes :
    ∃ t, TrackedReachable sampleRam (fun _ => none) (fun _ _ => True) t ∧
      t.sys.mode = .waiting .updating ∧ hdrMagic t.sys.mem ≠ STORAGE_MAGIC := by
  have start : Reachable sampleRam (fun _ => none) (fun _ _ => True)
      ⟨fun _ => 0xFF, .waiting .idle⟩ := reachable_idle (fun _ _ => rfl) fun _ => trivial
  have reachable := start.next (.packet (ctrlPacket sampleBytes 256 fun _ => 0xFF)) trivial
    (fun _ => trivial) (fun _ => trivial) (next_resume ⟨ctrlPacket_type, ctrlPacket_hashOk⟩
      (fun j hj => (ctrlPacket_guid hj).symm) (by decide))
  obtain ⟨h, tracked⟩ : ∃ h, TrackedReachable sampleRam (fun _ => none) (fun _ _ => True)
      ⟨⟨fun _ => 0xFF, .waiting .updating⟩, h⟩ := reachable.tracked fun _ _ _ _ => trivial
  have magic : hdrMagic (fun _ => 0xFF) ≠ STORAGE_MAGIC := by decide
  exact ⟨_, tracked, rfl, magic⟩

end LtcOs.Updater
