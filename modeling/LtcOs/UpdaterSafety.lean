import LtcOs.UpdaterDelivery

/-!
What the complete flag certifies, over whole runs of the bootloader.

A run may be cut by a reset between any two bus requests, so the invariants are
carried by `Prog.Safe`: a call in progress is safe from where it stands.
-/

namespace LtcOs.Updater

open LtcOs.Memory LtcOs.Request LtcOs.Flash LtcOs.Murmur3

variable {R : Ram} {bus : Nat → Option UInt8} {I : Mem → Prop} {E : Req → Mem → Prop} {m : Mem}

/-! ### Invariants of runs -/

/-- `I` holds of the contents and `Q` of the mode with the contents; a call in
progress keeps `I` and ends in `Q`. -/
def Carried (bus : Nat → Option UInt8) (I : Mem → Prop) (Q : Mode → Mem → Prop) (s : Sys) : Prop :=
  I s.mem ∧
    match s.mode with
    | .busy _ p => p.Safe (device bus) I (fun _ _ => True) (fun e m => Q e.mode m) s.mem
    | mode => Q mode s.mem

theorem carried_mode {Q : Mode → Mem → Prop} {e : Exit} (kept : I m) (post : Q e.mode m) :
    Carried bus I Q ⟨m, e.mode⟩ := by
  cases e with
  | returned astate err => exact ⟨kept, post⟩
  | threadExit => exact ⟨kept, post⟩
  | hang => exact ⟨kept, post⟩

/-- The rule for runs: every call and every boot decision is safe when it starts. -/
theorem Reachable.carried {Q : Mode → Mem → Prop} {ok : Sys → Label → Prop} {s : Sys}
    (reachable : Reachable R bus ok s) (start : ∀ m, Erased m → I m)
    (first : ∀ m released, Erased m → (demod_thread released).Safe (device bus) I (fun _ _ => True)
      (fun e m => Q e.mode m) m)
    (boots : ∀ m mode released, I m → ok ⟨m, mode⟩ (.reset released) →
      (demod_thread released).Safe (device bus) I (fun _ _ => True) (fun e m => Q e.mode m) m)
    (calls : ∀ m astate pkt, I m → Q (.waiting astate) m → ok ⟨m, .waiting astate⟩ (.packet pkt) →
      (updaterPacketProcess R astate pkt).Safe (device bus) I (fun _ _ => True)
        (fun e m => Q e.mode m) m) :
    Carried bus I Q s := by
  refine reachable.invariant (fun m released erased => ⟨start m erased, first m released erased⟩) ?_
  intro l s s' carried allowed step
  cases step with
  | packet pkt => exact ⟨carried.1, calls _ _ pkt carried.1 carried.2 allowed⟩
  | exec answer => exact Prog.Safe.exec carried.2 answer
  | finish => exact carried_mode carried.1 carried.2
  | reset released => exact ⟨carried.1, boots _ _ released carried.1 allowed⟩

/-! ### Runs from event to event -/

section Events

variable {ok : Sys → Label → Prop} {s s' : Sys}

theorem steps_of_run {cur : Option Packet} {p : FlashM Exit} {m' : Mem} {e : Exit}
    (exec : ∀ s, ok s .exec) (finish : ∀ s, ok s .finish)
    (ran : p.run (device bus) m = some (e, m')) :
    Steps R bus ok ⟨m, .busy cur p⟩ ⟨m', e.mode⟩ := by
  have answered := Prog.exec_of_run ran
  have lift : Steps R bus ok ⟨m, .busy cur p⟩ ⟨m', .busy cur (.ret e)⟩ :=
    answered.lift (fun c => (⟨c.2, .busy cur c.1⟩ : Sys)) fun _ _ step =>
      ⟨.exec, exec _, .exec step⟩
  exact lift.tail ⟨.finish, finish _, .finish⟩

/-- What the label of an event is. -/
def Event.label : Event → Label
  | .packet pkt => .packet pkt
  | .reset released => .reset released

theorem steps_of_next {ev : Event} (allowed : ok s ev.label) (exec : ∀ s, ok s .exec)
    (finish : ∀ s, ok s .finish) (next : s.next R bus ev = some s') : Steps R bus ok s s' := by
  obtain ⟨m, mode⟩ := s
  cases ev with
  | reset released =>
      obtain ⟨r, ran, rfl⟩ := Option.map_eq_some_iff.mp next
      exact .head ⟨_, allowed, .reset released⟩ (steps_of_run exec finish ran)
  | packet pkt =>
      cases mode with
      | waiting astate =>
          obtain ⟨r, ran, rfl⟩ := Option.map_eq_some_iff.mp next
          exact .head ⟨_, allowed, .packet pkt⟩ (steps_of_run exec finish ran)
      | busy cur p => obtain rfl := Option.some.inj next; exact .refl
      | handedOver => obtain rfl := Option.some.inj next; exact .refl
      | hung => obtain rfl := Option.some.inj next; exact .refl

/-- With the button held, erased storage leads to `APP_IDLE`. -/
theorem reachable_idle (erased : Erased m) (finish : ∀ s, ok s .finish) :
    Reachable R bus ok ⟨m, .waiting .idle⟩ :=
  ⟨m, false, erased, .single ⟨_, finish _, .finish⟩⟩

theorem Reachable.next (ev : Event) (reachable : Reachable R bus ok s) (allowed : ok s ev.label)
    (exec : ∀ s, ok s .exec) (finish : ∀ s, ok s .finish) (next : s.next R bus ev = some s') :
    Reachable R bus ok s' := by
  obtain ⟨m, released, erased, run⟩ := reachable
  exact ⟨m, released, erased, run.trans (steps_of_next allowed exec finish next)⟩

end Events

/-! ### The invariant of the complete flag -/

/-- The stored length is erased or that of an accepted control packet. -/
def LengthOk (m : Mem) : Prop :=
  hdrLength m = 0xFFFFFFFF ∨ (1 ≤ (hdrLength m).toNat ∧ (hdrLength m).toNat ≤ 9984)

/-- Once the complete flag is cleared, the program has the announced hash. -/
def CompleteSound (m : Mem) : Prop :=
  hdrComplete m ≠ 0xFFFFFFFF →
    murmur (programArea m) (hdrLength m) MURMUR_SEED_TOTAL = hdrFullhash m

def FlagInv (m : Mem) : Prop := LengthOk m ∧ CompleteSound m

/-- In `APP_UPDATING` the complete flag is still erased. -/
def FlagErased (mode : Mode) (m : Mem) : Prop :=
  mode = .waiting .updating → hdrComplete m = 0xFFFFFFFF

theorem flagErased_boot {err : Int} :
    FlagErased (if AppValid m then Exit.threadExit else .returned .fail err).mode m := by
  intro updating
  split_ifs at updating <;> exact absurd updating (by simp [Exit.mode])

/-- A control packet that passes its hash check announces 1 to 9984 bytes, what the program
area holds. -/
def LengthAnnounced (pkt : Packet) : Prop :=
  pkt.type = PKTTYPE_CTRL → pkt.ctrlHashOk → 1 ≤ pkt.length.toNat ∧ pkt.length.toNat ≤ 9984

theorem flagInv_of_erased {m : Mem} (hl : LengthOk m) (hc : hdrComplete m = 0xFFFFFFFF) :
    FlagInv m := ⟨hl, fun h => absurd hc h⟩

theorem SameHeader.flagInv {m m' : Mem} (h : SameHeader m m') (hl : LengthOk m)
    (hc : hdrComplete m = 0xFFFFFFFF) : FlagInv m' := by
  have length : hdrLength m' = hdrLength m := h.word (by unfold storage; omega)
  have complete : hdrComplete m' = hdrComplete m := h.word (by unfold storage; omega)
  exact flagInv_of_erased (by rwa [LengthOk, length]) (complete.trans hc)

theorem hdr_fill {m : Mem} {j k : Nat} (hj : 1 ≤ j) (hk : k + 4 ≤ 1024) :
    word (fill m storage (j * 1024)) (storage + k) = 0xFFFFFFFF :=
  (blank_fill m storage (j * 1024)).word (by omega) (by omega)

theorem flagInv_fill {m : Mem} {j : Nat} (hj : 1 ≤ j) : FlagInv (fill m storage (j * 1024)) :=
  flagInv_of_erased (.inl (hdr_fill hj (by omega))) (hdr_fill hj (by omega))

theorem safe_eraseStorage_flag :
    eraseStorage.Safe (device bus) FlagInv (fun _ _ => True)
      (fun _ m' => m' = fill m storage 10240) m :=
  (safe_eraseStorage (fun _ _ _ => trivial) fun _ lo _ => flagInv_fill lo).post fun _ _ h => h.2

theorem hdrComplete_copy_proto {pkt : Packet} {n : Nat} (hn : n ≤ 32) :
    hdrComplete (copyTo m storage (headerProto pkt) n) = hdrComplete m :=
  word_copyTo_of_disjoint (by omega)

theorem flagInv_copy_proto {pkt : Packet} {j : Nat} (hj : j ≤ 8)
    (announced : 1 ≤ pkt.length.toNat ∧ pkt.length.toNat ≤ 9984)
    (hl : hdrLength m = 0xFFFFFFFF) (hc : hdrComplete m = 0xFFFFFFFF) :
    FlagInv (copyTo m storage (headerProto pkt) (4 * j)) := by
  refine flagInv_of_erased ?_ ((hdrComplete_copy_proto (by omega)).trans hc)
  -- the length word is the fourth of the header: erased before, announced after
  by_cases written : 4 ≤ j
  · right
    rw [hdrLength, word_copyTo (by omega), headerProto_length]
    exact announced
  · left
    rw [hdrLength, word_copyTo_of_disjoint (by omega)]
    exact hl

theorem safe_processCtrl_flag {pkt : Packet} (inv : FlagInv m)
    (announced : 1 ≤ pkt.length.toNat ∧ pkt.length.toNat ≤ 9984) :
    (processCtrl R pkt).Safe (device bus) FlagInv (fun _ _ => True)
      (fun e m => FlagErased e.mode m) m := by
  refine (safe_guidMatches (by omega) inv fun _ _ => trivial).bind ?_
  rintro same _ ⟨-, rfl⟩
  split_ifs
  · refine safe_load32 (l := .header 32) (by decide) trivial inv ?_
    split_ifs with erased
    · exact fun _ => erased
    · exact fun h => absurd h (by simp [Exit.mode])
  · refine safe_eraseStorage_flag.bind ?_
    rintro _ _ rfl
    have blankHeader : Blank (fill m storage 10240) storage 10240 := blank_fill _ _ _
    have hl : hdrLength (fill m storage 10240) = 0xFFFFFFFF :=
      hdr_fill (j := 10) (by omega) (by omega)
    have hc : hdrComplete (fill m storage 10240) = 0xFFFFFFFF :=
      hdr_fill (j := 10) (by omega) (by omega)
    refine (safe_init_storage_header (blankHeader.mono (by omega) (by omega)) (fun _ _ => trivial)
      (fun _ _ _ _ _ _ => trivial) (fun _ _ => trivial)
      fun j hj => flagInv_copy_proto hj announced hl hc).bind ?_
    rintro _ _ rfl
    exact fun _ => (hdrComplete_copy_proto (by omega)).trans hc

/-- The flag is programmed only when the hash over the present contents matches,
and that write touches neither the program nor the header fields. -/
theorem safe_finish_flag (inv : FlagInv m) :
    (finish R (hdrLength m)).Safe (device bus) FlagInv (fun _ _ => True)
      (fun e m => FlagErased e.mode m) m := by
  have bounded : (hdrLength m).toNat ≤ 9984 ∨ hdrLength m = 0xFFFFFFFF := inv.1.symm.imp (·.2) id
  refine (safe_programHash bounded inv (fun _ _ _ => trivial) fun _ _ _ => trivial).bind ?_
  rintro _ _ ⟨rfl, rfl⟩
  refine safe_load32 (l := .header 8) (by decide) trivial inv ?_
  split_ifs with matched
  · have marked : FlagInv (mark m) := by
      have length : hdrLength (mark m) = hdrLength m := word_mark (by omega)
      have fullhash : hdrFullhash (mark m) = hdrFullhash m := word_mark (by omega)
      have area : programArea (mark m) = programArea m := by
        funext i
        exact mark_of_disjoint (.inr (by unfold storage programOffset; omega))
      refine ⟨by rw [LengthOk, length]; exact inv.1, fun _ => ?_⟩
      rw [area, length, fullhash]
      exact matched
    refine (safe_mark (fun _ _ => trivial) (fun _ _ _ _ => trivial) inv marked).bind ?_
    intro err m' h
    have inv' : FlagInv m' := by
      rcases h with ⟨-, rfl⟩ | ⟨-, rfl⟩
      · exact marked
      · exact inv
    refine (safe_bootToUserApp inv' fun _ _ => trivial).post ?_
    rintro _ _ ⟨rfl, rfl⟩
    exact flagErased_boot
  · refine safe_eraseStorage_flag.bind ?_
    rintro _ _ rfl
    exact fun h => absurd h (by simp [Exit.mode])

theorem safe_processData_flag {pkt : Packet} (inv : FlagInv m)
    (erased : hdrComplete m = 0xFFFFFFFF) :
    (processData R pkt).Safe (device bus) FlagInv (fun _ _ => True)
      (fun e m => FlagErased e.mode m) m := by
  refine safe_load32_any trivial inv fun entry => ?_
  refine Prog.Safe.bind (Q := fun _ m' => SameHeader m m') ?_ fun err m₁ same => ?_
  · split_ifs
    · exact safe_programBlock fun m' h => h.flagInv inv.1 erased
    · exact .refl m
  have inv₁ := same.flagInv inv.1 erased
  have erased₁ : hdrComplete m₁ = 0xFFFFFFFF :=
    (same.word (by unfold storage; omega)).trans erased
  refine safe_load32 (l := .header 12) (by decide) trivial inv₁ ?_
  refine (safe_allDone_any inv₁).bind ?_
  rintro alldone _ rfl
  split_ifs
  · exact safe_finish_flag inv₁
  · exact fun _ => erased₁

/-- One call keeps the invariant at every point, whatever the packet. -/
theorem safe_updaterPacketProcess_flag {astate : AppState} {pkt : Packet} (inv : FlagInv m)
    (erased : astate = .updating → hdrComplete m = 0xFFFFFFFF)
    (announced : astate = .idle → LengthAnnounced pkt) :
    (updaterPacketProcess R astate pkt).Safe (device bus) FlagInv (fun _ _ => True)
      (fun e m => FlagErased e.mode m) m := by
  cases astate with
  | idle =>
      simp only [updaterPacketProcess]
      split_ifs with accepted
      · exact safe_processCtrl_flag inv (announced rfl accepted.1 accepted.2)
      · exact fun h => absurd h (by simp [Exit.mode])
  | updating =>
      have erased := erased rfl
      refine safe_load32 (l := .header 4) (by decide) trivial inv ?_
      split_ifs
      · exact safe_processData_flag inv erased
      · exact fun _ => erased
      · refine safe_eraseStorage_flag.bind ?_
        rintro _ _ rfl
        exact fun h => absurd h (by simp [Exit.mode])
  | updated =>
      refine (safe_bootToUserApp inv fun _ _ => trivial).post ?_
      rintro _ _ ⟨rfl, rfl⟩
      exact flagErased_boot
  | fail => exact fun h => absurd h (by simp [Exit.mode])
  | gotId => exact fun h => absurd h (by simp [Exit.mode])

/-! ### Runs -/

theorem safe_demod_thread_flag {released : Bool} (inv : FlagInv m) :
    (demod_thread released).Safe (device bus) FlagInv (fun _ _ => True)
      (fun e m => FlagErased e.mode m) m := by
  refine (safe_demod_thread inv fun _ _ => trivial).post ?_
  rintro _ _ ⟨rfl, rfl⟩ updating
  split_ifs at updating <;> exact absurd updating (by simp [Exit.mode])

theorem flagInv_erased (erased : Erased m) : FlagInv m :=
  flagInv_of_erased (.inl (Blank.word erased (by omega) (by omega)))
    (Blank.word erased (by omega) (by omega))

/-- Runs with arbitrary packets and resets, in which the control packets accepted in
`APP_IDLE` announce a length that fits. -/
def Announced (s : Sys) (l : Label) : Prop :=
  s.mode = .waiting .idle → ∀ pkt, l = .packet pkt → LengthAnnounced pkt

/-- In every state of every run from erased storage, a cleared complete flag
certifies the stored program: its hash is the announced one. -/
theorem complete_flag_sound {R : Ram} {bus : Nat → Option UInt8} {s : Sys}
    (reachable : Reachable R bus Announced s) (complete : hdrComplete s.mem ≠ 0xFFFFFFFF) :
    murmur (programArea s.mem) (hdrLength s.mem) MURMUR_SEED_TOTAL = hdrFullhash s.mem := by
  have inv : Carried bus FlagInv FlagErased s :=
    reachable.carried (fun m erased => flagInv_erased erased)
      (fun m released erased => safe_demod_thread_flag (flagInv_erased erased))
      (fun m mode released inv _ => safe_demod_thread_flag inv)
      fun m astate pkt inv erased announced => safe_updaterPacketProcess_flag inv
        (fun updating => erased (congrArg Mode.waiting updating))
        fun idle => announced (congrArg Mode.waiting idle) pkt rfl
  exact inv.1.2 complete

/-- The one-block program can be received in every kind of run that admits packets
with a fitting length. -/
theorem sample_received (ok : Sys → Label → Prop) (exec : ∀ s, ok s .exec)
    (finish : ∀ s, ok s .finish) (packets : ∀ s pkt, LengthAnnounced pkt → ok s (.packet pkt)) :
    ∃ s S, Reachable sampleRam (fun _ => none) ok s ∧
      Stored sampleBlock S s.mem ∧ sampleBlock.All S := by
  have start : Reachable sampleRam (fun _ => none) ok ⟨fun _ => 0xFF, .waiting .idle⟩ :=
    reachable_idle (fun _ _ => rfl) finish
  obtain ⟨s₀, first, mode, stored⟩ :=
    delivered_first sampleRam (fun _ => none) sampleBlock sampleImage_fresh
  have afterCtrl : Reachable sampleRam (fun _ => none) ok s₀ :=
    start.next _ (packets _ _ fun _ _ =>
      ⟨sampleBlock.length_pos, sampleBlock.length_le⟩) exec finish first
  obtain ⟨s₁, call, delivered, _⟩ := delivered_next sampleRam (fun _ => none) stored
    (sampleImage_admits (b := 0) (by decide))
  have afterBlock : Reachable sampleRam (fun _ => none) ok s₁ :=
    afterCtrl.next _ (packets _ _ fun ctrl =>
      absurd (dataPacket_type.symm.trans ctrl) (by decide)) exec finish call.next
  exact ⟨s₁, _, afterBlock, delivered.1, fun b hb => .inr (sampleImage_sees mode b hb)⟩

/-- The one-block program is received and certified. -/
theorem complete_flag_sound_sample :
    ∃ s, Reachable sampleRam (fun _ => none) Announced s ∧ hdrComplete s.mem ≠ 0xFFFFFFFF ∧
      murmur (programArea s.mem) (hdrLength s.mem) MURMUR_SEED_TOTAL = hdrFullhash s.mem := by
  obtain ⟨s, S, reachable, stored, all⟩ := sample_received Announced
    (fun _ _ pkt h => by cases h) (fun _ _ pkt h => by cases h)
    fun _ pkt announced _ _ h => Label.packet.inj h ▸ announced
  have complete : hdrComplete s.mem ≠ 0xFFFFFFFF := by
    rw [stored.complete all]
    decide
  exact ⟨s, reachable, complete, complete_flag_sound reachable complete⟩

/-! ### Handing over to the user program -/

/-- The modes that lead to the user program, or are it, want a complete image. -/
def HandsOverComplete (mode : Mode) (m : Mem) : Prop :=
  mode = .handedOver ∨ mode = .waiting .updated → hdrComplete m ≠ 0xFFFFFFFF

theorem handsOverComplete_of_complete {mode : Mode} (h : hdrComplete m ≠ 0xFFFFFFFF) :
    HandsOverComplete mode m := fun _ => h

theorem handsOverComplete_returned {astate : AppState} {err : Int} (h : astate ≠ .updated) :
    HandsOverComplete (Exit.returned astate err).mode m := by
  rintro (hm | hm)
  · exact absurd hm (by simp [Exit.mode])
  · exact absurd (Mode.waiting.inj hm) h

section HandOver

variable {pkt : Packet}

abbrev Completes (bus : Nat → Option UInt8) (p : FlashM Exit) (m : Mem) : Prop :=
  p.Safe (device bus) (fun _ => True) (fun _ _ => True) (fun e m => HandsOverComplete e.mode m) m

theorem completes_boot {err : Int} (complete : hdrComplete m ≠ 0xFFFFFFFF) :
    Completes bus (bootToUserApp err) m := by
  refine (safe_bootToUserApp trivial fun _ _ => trivial).post ?_
  rintro _ _ ⟨-, rfl⟩
  exact handsOverComplete_of_complete complete

theorem completes_eraseStorage {astate : AppState} (h : astate ≠ .updated) :
    Completes bus (eraseStorage >>= fun err => .ret (.returned astate err)) m :=
  (safe_eraseStorage (fun _ _ _ => trivial) fun _ _ _ => trivial).bind
    fun _ _ _ => handsOverComplete_returned h

theorem completes_processCtrl : Completes bus (processCtrl R pkt) m := by
  refine (safe_guidMatches (by omega) trivial fun _ _ => trivial).bind ?_
  rintro same _ ⟨-, rfl⟩
  split_ifs
  · refine safe_load32 (l := .header 32) (by decide) trivial trivial ?_
    split_ifs with erased
    · exact handsOverComplete_returned (by simp)
    · exact handsOverComplete_of_complete erased
  · refine (safe_eraseStorage (fun _ _ _ => trivial) fun _ _ _ => trivial).bind ?_
    rintro _ _ ⟨-, rfl⟩
    refine (safe_init_storage_header ((blank_fill _ _ _).mono (by omega) (by omega))
      (fun _ _ => trivial) (fun _ _ _ _ _ _ => trivial) (fun _ _ => trivial)
      fun _ _ => trivial).bind ?_
    rintro _ _ -
    exact handsOverComplete_returned (by simp)

/-- Whether the flag was erased or not, after the attempt to clear it is not. -/
theorem completes_finish {length : UInt32} : Completes bus (finish R length) m := by
  refine (safe_programHash_any trivial).bind ?_
  rintro _ _ rfl
  refine safe_load32 (l := .header 8) (by decide) trivial trivial ?_
  split_ifs
  · refine (safe_mark (fun _ _ => trivial) (fun _ _ _ _ => trivial) trivial trivial).bind ?_
    rintro err m' (⟨-, rfl⟩ | ⟨complete, rfl⟩)
    · exact completes_boot fun erased => absurd ((hdrComplete_mark m).symm.trans erased) (by decide)
    · exact completes_boot complete
  · exact completes_eraseStorage (by simp)

theorem completes_processData : Completes bus (processData R pkt) m := by
  refine safe_load32_any trivial trivial fun entry => ?_
  refine Prog.Safe.bind (Q := fun _ _ => True) ?_ fun err m₁ _ => ?_
  · split_ifs
    · exact (safe_programBlock fun _ _ => trivial).post fun _ _ _ => trivial
    · exact trivial
  refine safe_load32 (l := .header 12) (by decide) trivial trivial ?_
  refine (safe_allDone_any trivial).bind ?_
  rintro alldone _ rfl
  split_ifs
  · exact completes_finish
  · exact handsOverComplete_returned (by simp)

/-- A call hands over, or reaches `APP_UPDATED`, only with a complete image. -/
theorem completes_updaterPacketProcess {astate : AppState}
    (updated : HandsOverComplete (.waiting astate) m) :
    Completes bus (updaterPacketProcess R astate pkt) m := by
  cases astate with
  | idle =>
      simp only [updaterPacketProcess]
      split_ifs
      · exact completes_processCtrl
      · exact handsOverComplete_returned (by simp)
  | updating =>
      refine safe_load32 (l := .header 4) (by decide) trivial trivial ?_
      split_ifs
      · exact completes_processData
      · exact handsOverComplete_returned (by simp)
      · exact completes_eraseStorage (by simp)
  | updated => exact completes_boot (updated (.inr rfl))
  | fail => exact fun h => absurd h (by simp [Exit.mode])
  | gotId => exact handsOverComplete_returned (by simp)

/-- After a reset `appIsValid` decides alone: it does not look at the flag. -/
theorem completes_demod_thread {released : Bool}
    (guard : released = true → AppValid m → hdrComplete m ≠ 0xFFFFFFFF) :
    Completes bus (demod_thread released) m := by
  refine (safe_demod_thread trivial fun _ _ => trivial).post ?_
  rintro _ _ ⟨rfl, rfl⟩
  split_ifs with boots
  · exact handsOverComplete_of_complete (guard boots.1 boots.2)
  · exact handsOverComplete_returned (by simp)

end HandOver

/-- Runs in which no reset with the button released finds a valid application
header in storage while the image is incomplete. -/
def NoPartialBoot (s : Sys) (l : Label) : Prop :=
  l = .reset true → ¬ (AppValid s.mem ∧ hdrComplete s.mem = 0xFFFFFFFF)

theorem not_appValid_of_erased (erased : Erased m) : ¬ AppValid m := by
  intro valid
  have magic : word m (programOffset + 24) = blank :=
    Blank.word erased (by unfold storage programOffset; omega)
      (by unfold storage programOffset; omega)
  exact absurd (magic.symm.trans valid.1) (by decide)

/-- A valid application header is all a reset with the button released asks for. -/
theorem next_reset_valid {s : Sys} (valid : AppValid s.mem) :
    s.next R bus (.reset true) = some ⟨s.mem, .handedOver⟩ := by
  have safe : (demod_thread true).Safe (device bus) (fun _ => True) (Quiet bus)
      (fun e m' => e = .threadExit ∧ s.mem = m') s.mem := by
    refine (safe_demod_thread trivial fun o ho => quiet_appHeader ho).post ?_
    rintro _ _ ⟨rfl, rfl⟩
    exact ⟨if_pos ⟨rfl, valid⟩, rfl⟩
  obtain ⟨e, m', ran, rfl, rfl⟩ := safe.total fun _ _ h => h.1
  exact Option.map_eq_some_iff.mpr ⟨_, ran, rfl⟩

/-- In runs without such a reset only complete images are started; and each such
reset starts an incomplete one. -/
theorem handover_complete (R : Ram) (bus : Nat → Option UInt8) :
    (∀ s, Reachable R bus NoPartialBoot s → s.mode = .handedOver →
      hdrComplete s.mem ≠ 0xFFFFFFFF) ∧
    ∀ s, ¬ NoPartialBoot s (.reset true) →
      ∃ s', s.next R bus (.reset true) = some s' ∧ s'.mode = .handedOver ∧
        hdrComplete s'.mem = 0xFFFFFFFF := by
  refine ⟨fun s reachable handed => ?_, fun s partialBoot => ?_⟩
  · have inv : Carried bus (fun _ => True) HandsOverComplete s :=
      reachable.carried (fun _ _ => trivial)
        (fun m released erased => completes_demod_thread fun _ valid =>
          absurd valid (not_appValid_of_erased erased))
        (fun m mode released _ allowed => completes_demod_thread fun hr valid complete =>
          allowed (by rw [hr]) ⟨valid, complete⟩)
        fun m astate pkt _ updated _ => completes_updaterPacketProcess updated
    obtain ⟨m, mode⟩ := s
    subst handed
    exact inv.2 (.inl rfl)
  · obtain ⟨valid, incomplete⟩ : AppValid s.mem ∧ hdrComplete s.mem = 0xFFFFFFFF := by
      by_contra h
      exact partialBoot fun _ => h
    exact ⟨_, next_reset_valid valid, rfl, incomplete⟩

theorem appValid_of_sample (image : ∀ j, j < 256 → programArea m j = sampleBytes j) :
    AppValid m := by
  have header : ∀ a, a + 4 ≤ 256 → word (programArea m) a = word sampleBytes a :=
    fun a ha => word_congr fun j hj => image _ (by omega)
  refine ⟨(header 24 (by omega)).trans ?_, (header 28 (by omega)).trans (word_setWord_self _ _ _)⟩
  rw [sampleBytes, word_setWord_of_disjoint (by omega), word_setWord_self]

/-- The one-block program is received and started by the next reset. -/
theorem handover_complete_sample :
    ∃ s, Reachable sampleRam (fun _ => none) NoPartialBoot s ∧ s.mode = .handedOver ∧
      hdrComplete s.mem ≠ 0xFFFFFFFF := by
  obtain ⟨s, S, reachable, stored, all⟩ := sample_received NoPartialBoot
    (fun _ h => by cases h) (fun _ h => by cases h) fun _ pkt _ h => by cases h
  have valid : AppValid s.mem := appValid_of_sample fun j hj =>
    stored.image all j (by rw [sampleImage_length]; omega)
  have complete : hdrComplete s.mem ≠ 0xFFFFFFFF := by
    rw [stored.complete all]
    decide
  have started : Reachable sampleRam (fun _ => none) NoPartialBoot ⟨s.mem, .handedOver⟩ :=
    reachable.next (.reset true) (fun _ h => complete h.2) (fun _ h => by cases h)
      (fun _ h => by cases h) (next_reset_valid valid)
  exact ⟨_, started, rfl, (handover_complete sampleRam fun _ => none).1 _ started rfl⟩

/-- Block 0 of the two-block program brings a valid application header; the next
reset starts it without block 1. -/
theorem partial_image_started :
    ∃ s, Reachable sampleRam (fun _ => none) (fun _ _ => True) s ∧ s.mode = .handedOver ∧
      hdrComplete s.mem = 0xFFFFFFFF := by
  have start : Reachable sampleRam (fun _ => none) (fun _ _ => True)
      ⟨fun _ => 0xFF, .waiting .idle⟩ := reachable_idle (fun _ _ => rfl) fun _ => trivial
  obtain ⟨s₀, first, mode, stored⟩ :=
    delivered_first sampleRam (fun _ => none)
      (sampleImage 2 (by omega) (by omega)) sampleImage_fresh
  obtain ⟨s₁, call, delivered, _⟩ := delivered_next sampleRam (fun _ => none) stored
    (sampleImage_admits (b := 0) (by decide))
  have afterBlock :=
    (start.next _ trivial (fun _ => trivial) (fun _ => trivial) first).next _ trivial
    (fun _ => trivial) (fun _ => trivial) call.next
  have seen : ∀ b, s₀.sees (.packet (dataPacket sampleBytes 0)) b ↔ b = 0 := by
    intro b
    constructor
    · rintro ⟨_, same, _, _, _, rfl⟩
      obtain rfl := Event.packet.inj same
      rw [dataPacket_block]
      rfl
    · rintro rfl
      exact ⟨_, rfl, mode, dataPacket_type, dataPacket_hashOk, by rw [dataPacket_block]; rfl⟩
  have incomplete : hdrComplete s₁.mem = 0xFFFFFFFF := by
    refine delivered.1.incomplete fun all => ?_
    rcases all 1 (by rw [sampleImage_blocks]; omega) with h | h
    · exact h
    · exact absurd ((seen 1).mp h) (by omega)
  have image : ∀ j, j < 256 → programArea s₁.mem j = sampleBytes j := by
    intro j hj
    have := delivered.1.taken 0 (by rw [sampleImage_blocks]; omega) (.inr ((seen 0).mpr rfl)) j hj
      (by rw [sampleImage_length]; omega)
    rwa [Nat.mul_zero, Nat.zero_add] at this
  have valid : AppValid s₁.mem := appValid_of_sample image
  exact ⟨⟨s₁.mem, .handedOver⟩, afterBlock.next (.reset true) trivial (fun _ => trivial)
    (fun _ => trivial) (next_reset_valid valid), rfl, incomplete⟩

end LtcOs.Updater
