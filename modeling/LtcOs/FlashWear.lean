import LtcOs.FlashFaults
import LtcOs.UpdaterSpec

/-!
No word of flash is programmed twice between two erases.

The system here is all of the firmware that issues flash commands: calls of the driver
by user programs, packets handled by the updater, and resets between any two requests.
The controller may fail in any way it can (`Controller`). `Intact` is the invariant: a
word that was changed does not read erased, so that the blank check refuses it.
-/

namespace LtcOs.Flash

open LtcOs.Memory LtcOs.Request LtcOs.Updater LtcOs.Murmur3

/-! ### The invariant -/

/-- A word that was changed since the last erase of its sector does not read erased. -/
def Chip.Intact (s : Chip) : Prop :=
  ∀ a ∈ s.changed, a % 4 = 0 ∧ word s.mem a ≠ blank

/-- A word is programmed only if it reads erased. -/
def Fresh : Req → Chip → Prop
  | .cmd c, s => c.code = FTFx_CMD_LWORDPROG → word s.mem c.addr.toNat = blank
  | _, _ => True

section Invariant

variable {C : Controller} {s : Chip} {c : Cmd}

/-- What a command does to a word other than its own. -/
theorem word_effect {a : Nat} (other : ∀ j, j < 4 → ¬ c.Changes (a + j)) :
    word (C.effect s.n c s.mem) a = word s.mem a :=
  word_congr fun j hj => C.confined _ _ _ _ (other j hj)

theorem not_changes {x : Nat} (erase : c.code ≠ FTFx_CMD_SECTERASE)
    (program : c.code ≠ FTFx_CMD_LWORDPROG) : ¬ c.Changes x := by
  rintro (⟨h, -⟩ | ⟨h, -⟩)
  · exact erase h
  · exact program h

theorem Chip.Intact.erase (intact : s.Intact) (erase : c.code = FTFx_CMD_SECTERASE) :
    (s.issue C c).Intact := by
  intro a mem
  have mem : a ∈ s.changedBy c (C.effect s.n c s.mem) := mem
  rw [Chip.changedBy, if_pos erase] at mem
  obtain ⟨mem, other⟩ := mem
  obtain ⟨aligned, notBlank⟩ := intact a mem
  refine ⟨aligned, ?_⟩
  change word (C.effect s.n c s.mem) a ≠ blank
  rw [word_effect]
  · exact notBlank
  · rintro j hj (⟨-, sector⟩ | ⟨program, -⟩)
    · omega
    · exact absurd (erase.symm.trans program) (by decide)

theorem Chip.Intact.program (intact : s.Intact) (program : c.code = FTFx_CMD_LWORDPROG)
    (erased : word s.mem c.addr.toNat = blank) : (s.issue C c).Intact := by
  have notErase : c.code ≠ FTFx_CMD_SECTERASE := by
    rw [program]
    decide
  -- a word changed earlier is another one
  have earlier : ∀ a ∈ s.changed, a % 4 = 0 ∧ word (C.effect s.n c s.mem) a ≠ blank := by
    intro a mem
    obtain ⟨aligned, notBlank⟩ := intact a mem
    refine ⟨aligned, ?_⟩
    rw [word_effect]
    · exact notBlank
    · rintro j hj (⟨erase, -⟩ | ⟨-, own, lo, hi⟩)
      · exact notErase erase
      · have same : a = c.addr.toNat := by omega
        exact notBlank (same ▸ erased)
  intro a mem
  have mem : a ∈ s.changedBy c (C.effect s.n c s.mem) := mem
  rw [Chip.changedBy, if_neg notErase] at mem
  split_ifs at mem with change
  · rcases Set.mem_insert_iff.mp mem with rfl | mem
    · refine ⟨?_, fun h => change.2 (h.trans erased.symm)⟩
      by_contra unaligned
      apply change.2
      apply word_effect
      rintro j hj (⟨erase, -⟩ | ⟨-, own, -⟩)
      · exact notErase erase
      · exact unaligned own
    · exact earlier a mem
  · exact earlier a mem

theorem Chip.Intact.check (intact : s.Intact) (erase : c.code ≠ FTFx_CMD_SECTERASE)
    (program : c.code ≠ FTFx_CMD_LWORDPROG) : (s.issue C c).Intact := by
  intro a mem
  have mem : a ∈ s.changedBy c (C.effect s.n c s.mem) := mem
  rw [Chip.changedBy, if_neg erase, if_neg fun h => program h.1] at mem
  obtain ⟨aligned, notBlank⟩ := intact a mem
  refine ⟨aligned, ?_⟩
  change word (C.effect s.n c s.mem) a ≠ blank
  rwa [word_effect fun _ _ => not_changes erase program]

/-- Every command that is allowed keeps the invariant. -/
theorem Chip.Intact.issue (intact : s.Intact) (fresh : Fresh (.cmd c) s) :
    (s.issue C c).Intact := by
  by_cases program : c.code = FTFx_CMD_LWORDPROG
  · exact intact.program program (fresh program)
  · by_cases erase : c.code = FTFx_CMD_SECTERASE
    · exact intact.erase erase
    · exact intact.check erase program

end Invariant

/-! ### The driver -/

section Driver

variable {C : Controller} {s : Chip} {α : Type}

/-- The program issues only commands that are allowed, from every state on. -/
abbrev Spares (C : Controller) (p : FlashM α) : Prop := p.Preserves (faulty C) Chip.Intact Fresh

theorem spares_load8 (l : Lval) : Spares C (load8 l) := by
  apply Prog.preserves_ask
  · intro s _
    trivial
  · intro s b s' intact answer
    obtain rfl := faulty_load8_chip answer
    exact intact

theorem spares_load32 (l : Lval) : Spares C (load32 l) := by
  apply Prog.preserves_ask
  · intro s _
    trivial
  · intro s w s' intact answer
    obtain rfl := faulty_load32_chip answer
    exact intact

theorem spares_cmd {cmd : UInt8} (other : cmd ≠ FTFx_CMD_LWORDPROG) (addr data1 data2 : UInt32) :
    Spares C (kinetis_flash_cmd cmd addr data1 data2) := by
  intro s intact
  have fresh : Fresh (.cmd ⟨cmd, addr &&& 0xffffff, data1, data2⟩) s := fun h => absurd h other
  exact safe_faulty_cmd fresh (intact.issue fresh) (intact.issue fresh)

theorem spares_eraseLoop (k : Nat) (d : UInt32) (retval : Int) :
    Spares C (eraseLoop k d retval) := by
  induction k generalizing d retval with
  | zero => exact Prog.preserves_ret retval
  | succ k ih =>
      refine (spares_cmd (by decide) _ _ _).bind fun r => Prog.Preserves.ite ?_ ?_
      · exact (Prog.preserves_loop (fun _ _ => spares_cmd (by decide) _ _ _) _ _ _).bind fun r' =>
          ih (d + 1) r'
      · exact Prog.preserves_ret r

theorem spares_flashEraseSectors (offset : UInt32) (sectorCount : UInt16) :
    Spares C (flashEraseSectors offset sectorCount) := by
  unfold flashEraseSectors
  exact (Prog.preserves_ret _).ite ((Prog.preserves_ret _).ite (spares_eraseLoop _ _ _))

/-- Reading the source leaves the chip alone. -/
def Source.Quiet (C : Controller) (src : Source) : Prop :=
  ∀ i s, s.Intact → (src.word i).Safe (faulty C) Chip.Intact Fresh (fun _ t => s = t) s

theorem quiet_bus (src : UInt32) : (Source.bus src).Quiet C := by
  intro i s intact
  refine ⟨trivial, fun w t answer => ?_⟩
  obtain rfl := faulty_load32_chip answer
  exact ⟨intact, rfl⟩

theorem quiet_ram (addr : UInt32) (bytes : Mem) : (Source.ram addr bytes).Quiet C :=
  fun _ _ _ => rfl

/-- The codes of a call that issued commands. -/
def CommandCode (r : Int) : Prop := r ∈ [F_ERR_OK, F_ERR_LOWLEVEL, F_ERR_U_MARGIN]

theorem commandCode_code (n : Nat) : CommandCode (C.code n) := by
  unfold Controller.code
  split_ifs <;> simp [CommandCode]

/-- The words that are still to be programmed stay erased while the earlier ones are. -/
theorem safe_programLoop {src : Source} (quiet : src.Quiet C) {dest : UInt32} {n : Nat}
    (hi : dest.toNat + 4 * n ≤ flashEnd) (aligned : dest.toNat % 4 = 0) (intact : s.Intact)
    (erased : Blank s.mem dest.toNat (4 * n)) :
    (programLoop src dest n).Safe (faulty C) Chip.Intact Fresh
      (fun r t => CommandCode r ∧ t.Intact) s := by
  refine (Prog.safe_loop (n := n) (L := fun j r t => CommandCode r ∧ t.Intact ∧
    Blank t.mem (dest.toNat + 4 * j) (4 * (n - j)))
    ⟨by simp [CommandCode], intact, by simpa using erased⟩ ?_).post fun r t h => ⟨h.1, h.2.1⟩
  rintro j r t - hj ⟨-, intact, rest⟩
  refine (quiet _ t intact).bind ?_
  rintro w _ rfl
  have addr : ((dest + UInt32.ofNat (4 * j)) &&& 0xffffff).toNat = dest.toNat + 4 * j :=
    word_addr (by omega)
  have fresh : Fresh (.cmd ⟨FTFx_CMD_LWORDPROG, (dest + UInt32.ofNat (4 * j)) &&& 0xffffff, w, 0⟩)
      t := by
    intro _
    dsimp only
    rw [addr]
    exact rest.word le_rfl (by omega)
  refine safe_faulty_cmd fresh (intact.issue fresh)
    ⟨commandCode_code t.n, intact.issue fresh, ?_⟩
  intro i hi
  change C.effect t.n _ t.mem _ = 0xFF
  rw [C.confined]
  · have := rest (4 + i) (by omega)
    rwa [show dest.toNat + 4 * j + (4 + i) = dest.toNat + 4 * (j + 1) + i by omega] at this
  · rintro (⟨erase, -⟩ | ⟨-, -, -, above⟩)
    · exact absurd (show FTFx_CMD_LWORDPROG = FTFx_CMD_SECTERASE from erase) (by decide)
    · dsimp only at above
      omega

/-- A call on an erased destination. -/
theorem safe_flashProgram_blank {src : Source} (quiet : src.Quiet C) {dest count : UInt32}
    (checked : Checked src dest count) (intact : s.Intact)
    (erased : Blank s.mem dest.toNat count.toNat) :
    (flashProgram src dest count).Safe (faulty C) Chip.Intact Fresh
      (fun r t => CommandCode r ∧ t.Intact) s := by
  have hi := checked.hi
  have words : 4 * (count.toNat / 4) = count.toNat := by
    have := checked.count_aligned
    omega
  rw [flashProgram_checked checked]
  refine Prog.Safe.bind (safe_destBlank Chip.mem (i := 0) (fun l => faulty_load8)
    (Q := fun b t => s = t ∧ b = true) (by omega) (fun _ _ => trivial) intact
    fun b hb => ⟨rfl, hb.mpr erased⟩) ?_
  rintro _ _ ⟨rfl, rfl⟩
  rw [if_pos rfl]
  refine (safe_programLoop quiet (by omega) checked.dest_aligned intact
    (by rwa [words])).bind fun r t h => ?_
  split_ifs
  · refine Prog.Safe.bind (Q := fun _ t => t.Intact) ?_ fun r' t' intact' => ?_
    · refine Prog.preserves_loop (fun j r t intact => ?_) _ _ _ t h.2
      refine (quiet _ t intact).bind ?_
      rintro w _ rfl
      exact spares_cmd (by decide) _ _ _ t intact
    · split_ifs with ok
      · exact ⟨by simp [ok, CommandCode], intact'⟩
      · exact ⟨by simp [CommandCode], intact'⟩
  · exact h

theorem spares_flashProgram {src : Source} (quiet : src.Quiet C) {dest count : UInt32}
    (fits : dest.toNat + count.toNat < 2 ^ 32) : Spares C (flashProgram src dest count) := by
  intro s intact
  by_cases checked : Checked src dest count
  · by_cases erased : Blank s.mem dest.toNat count.toNat
    · exact (safe_flashProgram_blank quiet checked intact erased).post fun _ _ h => h.2
    · refine (safe_flashProgram_notBlank checked erased (fun _ _ => trivial) intact).post ?_
      rintro _ _ ⟨-, rfl⟩
      exact intact
  · rcases flashProgram_refused checked fits with ⟨-, eq⟩ | eq | eq
    all_goals
      rw [eq]
      exact intact

/-- Past the checks the codes are those of the commands. -/
theorem safe_flashProgram_code {src dest count : UInt32} (checked : Checked (.bus src) dest count)
    (erased : Blank s.mem dest.toNat count.toNat) :
    (flashProgram (.bus src) dest count).Safe (faulty C) (fun _ => True) (fun _ _ => True)
      (fun r _ => CommandCode r) s := by
  have hi := checked.hi
  have loop : ∀ (cmd : Nat → UInt32 → FlashM Int) (n : Nat) (t : Chip),
      (∀ j w t, (cmd j w).Safe (faulty C) (fun _ => True) (fun _ _ => True)
        (fun r _ => CommandCode r) t) →
      (Prog.loop (fun j _ => (Source.bus src).word (UInt32.ofNat (4 * j)) >>= cmd j) n 0
        F_ERR_OK).Safe (faulty C) (fun _ => True) (fun _ _ => True) (fun r _ => CommandCode r) t := by
    intro cmd n t round
    refine Prog.safe_loop (L := fun _ r _ => CommandCode r) (by simp [CommandCode]) ?_
    intro j r t _ _ _
    exact Prog.safe_ask.mpr ⟨trivial, fun w t' _ => ⟨trivial, round j w t'⟩⟩
  rw [flashProgram_checked checked]
  refine Prog.Safe.bind (safe_destBlank Chip.mem (i := 0) (fun l => faulty_load8)
    (Q := fun b _ => b = true) (by omega) (fun _ _ => trivial) trivial
    fun b hb => hb.mpr erased) ?_
  rintro _ t rfl
  rw [if_pos rfl]
  refine (loop (fun j w => kinetis_flash_cmd FTFx_CMD_LWORDPROG (dest + UInt32.ofNat (4 * j)) w 0)
    _ t fun j w t => safe_faulty_cmd trivial trivial (commandCode_code _)).bind fun r t' code => ?_
  split_ifs
  · refine (loop (fun j w => kinetis_flash_cmd FTFx_CMD_PROGCHECK (dest + UInt32.ofNat (4 * j))
      (MAKE_FCCOB READ_USER_MARGIN 0 0 0) w) _ t' fun j w t =>
        safe_faulty_cmd trivial trivial (commandCode_code _)).bind fun r' t'' code' => ?_
    split_ifs
    · exact code'
    · simp [CommandCode]
  · exact code

/-- A call that is refused changes nothing and issues no command. -/
theorem flashProgram_rejected {src dest count : UInt32} {r : Int} {t : Chip}
    (fits : dest.toNat + count.toNat < 2 ^ 32)
    (ran : (flashProgram (.bus src) dest count).run (faulty C) s = some (r, t))
    (rejected : r ∈ [F_ERR_RANGE, F_ERR_NOTALIGN, F_ERR_NOTBLANK]) :
    t = s ∧ ∀ e ∈ (flashProgram (.bus src) dest count).trace (faulty C) s, ∀ c, e.1 ≠ .cmd c := by
  by_cases checked : Checked (.bus src) dest count
  · by_cases erased : Blank s.mem dest.toNat count.toNat
    · have code := (safe_flashProgram_code checked erased).run ran
      have disjoint : ∀ r : Int, CommandCode r →
          r ∉ [F_ERR_RANGE, F_ERR_NOTALIGN, F_ERR_NOTBLANK] := by
        unfold CommandCode
        decide
      exact absurd rejected (disjoint r code)
    · have safe := safe_flashProgram_notBlank (C := C) (I := fun _ => True)
        (E := fun i _ => ∀ c, i ≠ .cmd c) checked erased (fun _ _ _ => by simp) trivial
      exact ⟨(safe.run ran).2.symm, safe.trace⟩
  · have ret : ∀ r', flashProgram (.bus src) dest count = .ret r' → t = s ∧
        ∀ e ∈ (flashProgram (.bus src) dest count).trace (faulty C) s, ∀ c, e.1 ≠ .cmd c := by
      intro r' eq
      rw [eq] at ran ⊢
      exact ⟨(Prod.mk.inj (Option.some.inj ran)).2.symm, by simp⟩
    rcases flashProgram_refused checked fits with ⟨-, eq⟩ | eq | eq
    all_goals exact ret _ eq

end Driver

/-- The updater uses the driver with sums that do not wrap. -/
theorem spares_driver {C : Controller} : Driver (faulty C) Chip.Intact Fresh where
  load8 := spares_load8
  load32 := spares_load32
  erase := spares_flashEraseSectors _ _
  program _ fits := spares_flashProgram (quiet_ram _ _) fits

theorem spares_updaterPacketProcess {C : Controller} (R : Ram) (pkt : Packet)
    (astate : AppState) : Spares C (updaterPacketProcess R astate pkt) :=
  spares_driver.updaterPacketProcess
    (spares_flashProgram (quiet_ram _ _) (show 0x5800 + 32 < 2 ^ 32 by decide)) astate

/-! ### Effective commands -/

section Effective

variable {bus : Nat → Option UInt8} {m bytes : Mem} {src dest count : UInt32}

theorem addr_add {j i : Nat} (aligned : src.toNat % 4 = 0) (offset : j % 4 = 0) (small : i < 4) :
    (src + UInt32.ofNat (j + i)).toNat = (src + UInt32.ofNat j).toNat + i := by
  have := src.toNat_lt
  rw [UInt32.toNat_add, UInt32.toNat_add, UInt32.toNat_ofNat', UInt32.toNat_ofNat']
  omega

/-- A word of the source, which the call does not change. -/
theorem busWord_source (aligned : src.toNat % 4 = 0)
    (readable : ∀ j, j < count.toNat →
      busByte bus m (src + UInt32.ofNat j).toNat = some (bytes j))
    (disjoint : ∀ j, j < count.toNat → (src + UInt32.ofNat j).toNat < dest.toNat ∨
      dest.toNat + count.toNat ≤ (src + UInt32.ofNat j).toNat)
    {i n : Nat} (hi : 4 * i + 4 ≤ count.toNat) (hn : n ≤ count.toNat) :
    busWord bus (copyTo m dest.toNat bytes n) (src + UInt32.ofNat (4 * i)).toNat =
      some (word bytes (4 * i)) := by
  have small := count.toNat_lt
  have byte : ∀ b, b < 4 → busByte bus (copyTo m dest.toNat bytes n)
      ((src + UInt32.ofNat (4 * i)).toNat + b) = some (bytes (4 * i + b)) := by
    intro b hb
    have here := readable (4 * i + b) (by omega)
    have apart := disjoint (4 * i + b) (by omega)
    rw [addr_add aligned (by omega) hb] at here apart
    unfold busByte at here ⊢
    rwa [copyTo_of_lt (by omega)]
  unfold busWord
  rw [show busByte bus (copyTo m dest.toNat bytes n) (src + UInt32.ofNat (4 * i)).toNat =
    some (bytes (4 * i)) from byte 0 (by omega), byte 1 (by omega), byte 2 (by omega),
    byte 3 (by omega)]
  rfl

/-- On a controller whose commands have their effect, a call that passes the checks copies
a source that it can read and does not overwrite. -/
theorem flashProgram_copies (checked : Checked (.bus src) dest count)
    (erased : Blank m dest.toNat count.toNat)
    (readable : ∀ j, j < count.toNat →
      busByte bus m (src + UInt32.ofNat j).toNat = some (bytes j))
    (disjoint : ∀ j, j < count.toNat → (src + UInt32.ofNat j).toNat < dest.toNat ∨
      dest.toNat + count.toNat ≤ (src + UInt32.ofNat j).toNat) :
    (flashProgram (.bus src) dest count).run (device bus) m =
      some (F_ERR_OK, copyTo m dest.toNat bytes count.toNat) := by
  have hi := checked.hi
  have aligned : src.toNat % 4 = 0 := toNat_mod_four.mp checked.src_aligned
  have loads : ∀ i n, 4 * i + 4 ≤ count.toNat → n ≤ count.toNat →
      device bus (.load32 (.src (src + UInt32.ofNat (4 * i)).toNat))
        (copyTo m dest.toNat bytes n) =
          some (word bytes (4 * i), copyTo m dest.toNat bytes n) := by
    intro i n hi hn
    change (busWord bus _ _).map _ = _
    rw [show (Lval.src (src + UInt32.ofNat (4 * i)).toNat).addr =
      (src + UInt32.ofNat (4 * i)).toNat from rfl,
      busWord_source aligned readable disjoint hi hn]
    rfl
  have safe : (flashProgram (.bus src) dest count).Safe (device bus) (fun _ => True)
      (fun i m => (device bus i m).isSome)
      (fun r m' => (Blank m dest.toNat count.toNat ∧ r = F_ERR_OK ∧
          m' = copyTo m dest.toNat bytes count.toNat) ∨
        (¬ Blank m dest.toNat count.toNat ∧ r = F_ERR_NOTBLANK ∧ m' = m)) m := by
    refine safe_flashProgram_source dest count checked ?_ ?_ (fun _ _ _ _ _ _ _ => rfl)
      (fun _ _ _ _ _ _ => rfl) fun _ _ _ => trivial
    · intro i j hi hj _
      have load := loads i (4 * j) (by omega) (by omega)
      refine ⟨Option.isSome_iff_exists.mpr ⟨_, load⟩, fun w m' answer => ⟨trivial, ?_⟩⟩
      rw [load] at answer
      obtain ⟨rfl, rfl⟩ := Prod.mk.inj (Option.some.inj answer)
      exact ⟨rfl, rfl⟩
    · intro j hj
      rw [device_load8 (l := .dest (dest.toNat + j)) (show dest.toNat + j < flashEnd by omega)]
      rfl
  obtain ⟨r, m', ran, ⟨-, rfl, rfl⟩ | ⟨notBlank, -⟩⟩ := safe.total fun _ _ h => h
  · exact ran
  · exact absurd erased notBlank

end Effective

/-! ### Runs -/

/-- What the firmware does with the flash: a user program calls the driver, the updater
gets a packet in one of its states, or the bootloader starts. -/
inductive Call where
  | program (src dest count : UInt32)
  | erase (offset : UInt32) (sectorCount : UInt16)
  | packet (astate : AppState) (pkt : Packet)
  | boot (released : Bool)

/-- The sums of the arguments do not wrap. -/
def Call.Fits : Call → Prop
  | .program _ dest count => dest.toNat + count.toNat < 2 ^ 32
  | .erase offset sectorCount => offset.toNat + sectorCount.toNat < 2 ^ 32
  | .packet _ _ => True
  | .boot _ => True

def Call.code (R : Ram) : Call → FlashM Unit
  | .program src dest count => flashProgram (.bus src) dest count >>= fun _ => .ret ()
  | .erase offset sectorCount => flashEraseSectors offset sectorCount >>= fun _ => .ret ()
  | .packet astate pkt => updaterPacketProcess R astate pkt >>= fun _ => .ret ()
  | .boot released => demod_thread released >>= fun _ => .ret ()

/-- The chip, and what is left of the call under way. -/
structure Firmware where
  chip : Chip
  rest : Option (FlashM Unit)

/-- A call begins, with any contents of the rest of the memory, one of its requests is
answered, it ends, or there is a reset. -/
inductive Use (R : Ram) (C : Controller) : Firmware → Firmware → Prop where
  | call {s : Chip} (call : Call) (fits : call.Fits) (bus : Nat → Option UInt8) :
      Use R C ⟨s, none⟩ ⟨{ s with bus := bus }, some (call.code R)⟩
  | exec {s s' : Chip} {p p' : FlashM Unit} (answer : Prog.Exec (faulty C) (p, s) (p', s')) :
      Use R C ⟨s, some p⟩ ⟨s', some p'⟩
  | done {s : Chip} : Use R C ⟨s, some (.ret ())⟩ ⟨s, none⟩
  | reset {s : Chip} {rest : Option (FlashM Unit)} : Use R C ⟨s, rest⟩ ⟨s, none⟩

/-- The states of a run from any contents of the flash. -/
def Used (R : Ram) (C : Controller) (f : Firmware) : Prop :=
  ∃ s, s.changed = ∅ ∧ Relation.ReflTransGen (Use R C) ⟨s, none⟩ f

/-- The chip is intact and the call under way spares it. -/
def Firmware.Careful (C : Controller) (f : Firmware) : Prop :=
  f.chip.Intact ∧ ∀ p, f.rest = some p →
    p.Safe (faulty C) Chip.Intact Fresh (fun _ t => t.Intact) f.chip

section Runs

variable {R : Ram} {C : Controller} {f f' : Firmware}

theorem spares_call (call : Call) (fits : call.Fits) : Spares C (call.code R) := by
  cases call with
  | program src dest count =>
      exact (spares_flashProgram (quiet_bus src) fits).bind fun _ => Prog.preserves_ret ()
  | erase offset sectorCount =>
      exact (spares_flashEraseSectors offset sectorCount).bind fun _ => Prog.preserves_ret ()
  | packet astate pkt =>
      exact (spares_updaterPacketProcess R pkt astate).bind fun _ => Prog.preserves_ret ()
  | boot released =>
      exact (spares_driver.demod_thread released).bind fun _ => Prog.preserves_ret ()

theorem careful_step (careful : f.Careful C) (step : Use R C f f') : f'.Careful C := by
  obtain ⟨intact, safe⟩ := careful
  cases step with
  | call call fits bus =>
      refine ⟨intact, ?_⟩
      rintro _ ⟨⟩
      exact spares_call call fits _ intact
  | exec answer =>
      obtain ⟨kept, rest⟩ := (safe _ rfl).exec answer
      refine ⟨kept, ?_⟩
      rintro _ ⟨⟩
      exact rest
  | done => exact ⟨intact, fun _ h => absurd h (by simp)⟩
  | reset => exact ⟨intact, fun _ h => absurd h (by simp)⟩

theorem Used.careful (used : Used R C f) : f.Careful C := by
  obtain ⟨s, fresh, run⟩ := used
  induction run with
  | refl =>
      refine ⟨?_, fun _ h => absurd h (by simp)⟩
      intro a mem
      have mem : a ∈ s.changed := mem
      rw [fresh] at mem
      exact absurd mem (Set.notMem_empty a)
  | tail _ step ih => exact careful_step ih step

/-- In every run a program command goes to a word that reads erased and was not changed
since the last erase of its sector, whatever the commands do. A refused call issues no
command and leaves the flash as it is. If the commands have their effect, a call that
passes the checks copies its source and changes nothing else. -/
theorem no_word_overstressed (R : Ram) (C : Controller) :
    (∀ f, Used R C f → ∀ c k, f.rest = some (.req (.cmd c) k) → c.code = FTFx_CMD_LWORDPROG →
      word f.chip.mem c.addr.toNat = blank ∧ c.addr.toNat ∉ f.chip.changed) ∧
    (∀ (s t : Chip) (src dest count : UInt32) (r : Int),
      dest.toNat + count.toNat < 2 ^ 32 →
      (flashProgram (.bus src) dest count).run (faulty C) s = some (r, t) →
      r ∈ [F_ERR_RANGE, F_ERR_NOTALIGN, F_ERR_NOTBLANK] →
      t = s ∧
        ∀ e ∈ (flashProgram (.bus src) dest count).trace (faulty C) s, ∀ c, e.1 ≠ .cmd c) ∧
    (∀ (bus : Nat → Option UInt8) (m bytes : Mem) (src dest count : UInt32),
      (count ≠ 0 → Checked (.bus src) dest count ∧ Blank m dest.toNat count.toNat) →
      (∀ j, j < count.toNat → busByte bus m (src + UInt32.ofNat j).toNat = some (bytes j)) →
      (∀ j, j < count.toNat → (src + UInt32.ofNat j).toNat < dest.toNat ∨
        dest.toNat + count.toNat ≤ (src + UInt32.ofNat j).toNat) →
      ∃ m', (flashProgram (.bus src) dest count).run (device bus) m = some (F_ERR_OK, m') ∧
        (∀ j, j < count.toNat → m' (dest.toNat + j) = bytes j) ∧
        ∀ x, x < dest.toNat ∨ dest.toNat + count.toNat ≤ x → m' x = m x) := by
  refine ⟨?_, ?_, ?_⟩
  · intro f used c k next program
    obtain ⟨intact, safe⟩ := used.careful
    have erased := (safe _ next).1 program
    exact ⟨erased, fun mem => (intact _ mem).2 erased⟩
  · intro s t src dest count r fits ran rejected
    exact flashProgram_rejected fits ran rejected
  · intro bus m bytes src dest count passes readable disjoint
    by_cases zero : count = 0
    · subst zero
      exact ⟨m, rfl, fun j hj => absurd hj (Nat.not_lt_zero j), fun _ _ => rfl⟩
    · obtain ⟨checked, erased⟩ := passes zero
      refine ⟨_, flashProgram_copies checked erased readable disjoint, ?_, ?_⟩
      · intro j hj
        rw [copyTo_of_mem (by omega) (by omega), Nat.add_sub_cancel_left]
      · intro x outside
        exact copyTo_of_lt outside

end Runs

/-- Some places for the buffers. -/
def someRam : Ram := ⟨0x20000000, 0x20000040, 0x20000080, by decide, by decide, by decide⟩

/-- A run up to the program command of a call for one word: four bytes are checked and
the word of the source is read. -/
theorem sampleChip_spared :
    ∃ f c k, Used someRam sampleController f ∧ f.rest = some (.req (.cmd c) k) ∧
      c.code = FTFx_CMD_LWORDPROG ∧ word f.chip.mem c.addr.toNat = blank := by
  have run := Relation.ReflTransGen.single (Use.call (R := someRam) (C := sampleController)
    (s := sampleChip) (.program 0x20000000 0x5900 4)
    (show 0x5900 + 4 < 2 ^ 32 by decide) fun _ => some 0)
  have run := run.tail (.exec (.answer rfl))
  have run := run.tail (.exec (.answer rfl))
  have run := run.tail (.exec (.answer rfl))
  have run := run.tail (.exec (.answer rfl))
  have run := run.tail (.exec (.answer rfl))
  have used : Used someRam sampleController _ := ⟨sampleChip, rfl, run⟩
  refine ⟨_, ⟨FTFx_CMD_LWORDPROG, 0x5900, 0, 0⟩, _, used, rfl, rfl, ?_⟩
  exact ((no_word_overstressed someRam sampleController).1 _ used _ _ rfl rfl).1

end LtcOs.Flash
