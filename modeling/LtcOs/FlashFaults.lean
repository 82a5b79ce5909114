import LtcOs.FlashDevice

/-!
The driver on a flash controller whose commands may fail.

A `Controller` fixes, for the commands in the order of their issue, the status each one
leaves and what it makes of the contents. It may do anything within the sector or the
word that the command names.

`errors_reported_iff` says which failures the driver reports. Its loops go on after a
failed command and keep the last status only, so that a failure is lost unless it is
that of an erase or the last one of its loop.
-/

namespace LtcOs.Flash

open LtcOs.Memory LtcOs.Request

/-! ### The controller -/

/-- The bytes that a command may change. -/
def Cmd.Changes (c : Cmd) (x : Nat) : Prop :=
  (c.code = FTFx_CMD_SECTERASE ∧ x / 1024 = c.addr.toNat / 1024) ∨
    (c.code = FTFx_CMD_LWORDPROG ∧ c.addr.toNat % 4 = 0 ∧
      c.addr.toNat ≤ x ∧ x < c.addr.toNat + 4)

/-- The status that the `n`-th command leaves, and the contents after it. -/
structure Controller where
  status : Nat → UInt8
  effect : Nat → Cmd → Mem → Mem
  confined : ∀ n c m x, ¬ c.Changes x → effect n c m x = m x

/-- The command succeeds as far as the driver can see. -/
def Controller.Ok (C : Controller) (n : Nat) : Prop := C.status n &&& FTFx_FSTAT_ERRORS = 0

instance (C : Controller) (n : Nat) : Decidable (C.Ok n) := inferInstanceAs (Decidable (_ = _))

/-- The number of commands so far, the contents of the flash and what is elsewhere on
the bus; and the words that a program command has changed since the last erase command
for their sector. -/
structure Chip where
  n : Nat
  mem : Mem
  bus : Nat → Option UInt8
  changed : Set Nat

/-- The words changed after a command that leaves the contents `m'`. -/
def Chip.changedBy (s : Chip) (c : Cmd) (m' : Mem) : Set Nat :=
  if c.code = FTFx_CMD_SECTERASE then {a ∈ s.changed | a / 1024 ≠ c.addr.toNat / 1024}
  else if c.code = FTFx_CMD_LWORDPROG ∧ word m' c.addr.toNat ≠ word s.mem c.addr.toNat then
    insert c.addr.toNat s.changed
  else s.changed

/-- The chip after a command. -/
def Chip.issue (C : Controller) (c : Cmd) (s : Chip) : Chip :=
  let m' := C.effect s.n c s.mem
  { s with
    n := s.n + 1
    mem := m'
    changed := s.changedBy c m' }

/-- The chip as an environment of the firmware. -/
def faulty (C : Controller) : Handler Req Resp Chip
  | .load8 l, s => (busByte s.bus s.mem l.addr).map (·, s)
  | .load32 l, s => (busWord s.bus s.mem l.addr).map (·, s)
  | .cmd c, s => some (C.status s.n, s.issue C c)

/-- The call returns `F_ERR_OK` only if every command it issued succeeded. -/
def Reported (C : Controller) (p : FlashM Int) (s : Chip) : Prop :=
  ∀ s', p.run (faulty C) s = some (F_ERR_OK, s') →
    ∀ e ∈ p.trace (faulty C) s, ∀ c, e.1 = .cmd c → C.Ok e.2.n

section Requests

variable {C : Controller} {I : Chip → Prop} {E : Req → Chip → Prop} {s s' : Chip} {α : Type}

theorem faulty_load8 {l : Lval} (h : l.addr < flashEnd) :
    faulty C (.load8 l) s = some (s.mem l.addr, s) := by
  change (busByte s.bus s.mem l.addr).map (fun b => (b, s)) = some (s.mem l.addr, s)
  simp [busByte, h]

theorem isSome_load8 {a : Nat} (h : a < flashEnd) : (faulty C (.load8 (.dest a)) s).isSome := by
  rw [faulty_load8 (l := .dest a) h]
  rfl

theorem faulty_load8_chip {l : Lval} {b : UInt8} (h : faulty C (.load8 l) s = some (b, s')) :
    s' = s := by
  obtain ⟨_, _, h⟩ := Option.map_eq_some_iff.mp (show (busByte s.bus s.mem l.addr).map _ = _ from h)
  exact (Prod.mk.inj h).2.symm

theorem faulty_load32_chip {l : Lval} {w : UInt32} (h : faulty C (.load32 l) s = some (w, s')) :
    s' = s := by
  obtain ⟨_, _, h⟩ := Option.map_eq_some_iff.mp (show (busWord s.bus s.mem l.addr).map _ = _ from h)
  exact (Prod.mk.inj h).2.symm

theorem faulty_load32_isSome {l : Lval} (answers : ∀ a, (s.bus a).isSome) :
    (faulty C (.load32 l) s).isSome := by
  have byte : ∀ a, ∃ b, busByte s.bus s.mem a = some b := by
    intro a
    apply Option.isSome_iff_exists.mp
    unfold busByte
    split
    · rfl
    · exact answers a
  obtain ⟨b₀, h₀⟩ := byte l.addr
  obtain ⟨b₁, h₁⟩ := byte (l.addr + 1)
  obtain ⟨b₂, h₂⟩ := byte (l.addr + 2)
  obtain ⟨b₃, h₃⟩ := byte (l.addr + 3)
  change ((busWord s.bus s.mem l.addr).map _).isSome
  simp only [busWord, h₀, h₁, h₂, h₃]
  rfl

/-- The code that the driver makes of a status. -/
def Controller.code (C : Controller) (n : Nat) : Int :=
  if C.status n &&& FTFx_FSTAT_ERRORS = 0 then F_ERR_OK else F_ERR_LOWLEVEL

theorem code_eq_ok {n : Nat} : C.code n = F_ERR_OK ↔ C.Ok n := by
  unfold Controller.code Controller.Ok
  split_ifs with h <;> simp [h, F_ERR_OK, F_ERR_LOWLEVEL]

theorem safe_faulty_cmd {cmd : UInt8} {addr data1 data2 : UInt32} {Q : Int → Chip → Prop}
    (allowed : E (.cmd ⟨cmd, addr &&& 0xffffff, data1, data2⟩) s)
    (kept : I (s.issue C ⟨cmd, addr &&& 0xffffff, data1, data2⟩))
    (post : Q (C.code s.n) (s.issue C ⟨cmd, addr &&& 0xffffff, data1, data2⟩)) :
    (kinetis_flash_cmd cmd addr data1 data2).Safe (faulty C) I E Q s := by
  refine Prog.safe_ask.mpr ⟨allowed, fun fstat s' answer => ?_⟩
  obtain ⟨rfl, rfl⟩ := Prod.mk.inj (Option.some.inj answer)
  exact ⟨kept, post⟩

/-- The commands of a call that returns are those from the first to the last number. -/
theorem command_numbers {p : FlashM α} {a : α} (ran : p.run (faulty C) s = some (a, s')) :
    s.n ≤ s'.n ∧ ∀ k, s.n ≤ k ∧ k < s'.n ↔
      ∃ e ∈ p.trace (faulty C) s, (∃ c, e.1 = .cmd c) ∧ e.2.n = k := by
  induction p generalizing s with
  | ret b =>
      obtain ⟨-, rfl⟩ := Prod.mk.inj (Option.some.inj ran)
      simp
  | req i f ih =>
      simp only [Prog.run] at ran
      cases answer : faulty C i s with
      | none => simp [answer] at ran
      | some r =>
          obtain ⟨o, t⟩ := r
          rw [answer] at ran
          obtain ⟨le, numbers⟩ := ih o ran
          simp only [Prog.trace, answer, List.mem_cons, exists_eq_or_imp]
          cases i with
          | load8 l =>
              obtain rfl := faulty_load8_chip answer
              exact ⟨le, fun k => by simp [numbers]⟩
          | load32 l =>
              obtain rfl := faulty_load32_chip answer
              exact ⟨le, fun k => by simp [numbers]⟩
          | cmd c =>
              obtain ⟨-, rfl⟩ := Prod.mk.inj (Option.some.inj answer)
              have next : (s.issue C c).n = s.n + 1 := rfl
              rw [next] at le
              simp only [next] at numbers
              refine ⟨by omega, fun k => ?_⟩
              rw [← numbers k]
              simp only [Req.cmd.injEq, exists_eq', true_and]
              omega

theorem reported_iff {p : FlashM Int} {r : Int} (ran : p.run (faulty C) s = some (r, s')) :
    Reported C p s ↔ (r = F_ERR_OK → ∀ k, s.n ≤ k → k < s'.n → C.Ok k) := by
  unfold Reported
  simp only [ran, Option.some.injEq, Prod.mk.injEq, and_imp]
  obtain ⟨-, numbers⟩ := command_numbers ran
  constructor
  · intro h ok k lo hi
    obtain ⟨e, mem, ⟨c, cmd⟩, rfl⟩ := (numbers k).mp ⟨lo, hi⟩
    exact h s' ok rfl e mem c cmd
  · intro h _ ok _ e mem c cmd
    have bounds := (numbers e.2.n).mpr ⟨e, mem, ⟨c, cmd⟩, rfl⟩
    exact h ok e.2.n bounds.1 bounds.2

/-- A call that returns at once issues nothing. -/
theorem reported_ret (r : Int) : Reported C (.ret r) s :=
  (reported_iff (Prog.run_ret r s)).mpr fun _ _ lo hi => absurd lo hi.not_ge

end Requests

/-! ### The loops -/

section Loops

variable {C : Controller} {s : Chip}

/-- The call goes on: each request is answered. -/
abbrev Answered (C : Controller) (p : FlashM Int) (Q : Int → Chip → Prop) (s : Chip) : Prop :=
  p.Safe (faulty C) (fun _ => True) (fun i t => (faulty C i t).isSome) Q s

/-- One command, and its status. -/
theorem answered_cmd {cmd : UInt8} {addr data1 data2 : UInt32} :
    Answered C (kinetis_flash_cmd cmd addr data1 data2)
      (fun r t => r = C.code s.n ∧ t.n = s.n + 1 ∧ t.bus = s.bus) s :=
  safe_faulty_cmd rfl trivial ⟨rfl, rfl, rfl⟩

/-- One command with a word of the source. -/
theorem answered_word {src : UInt32} {i : UInt32} {cmd : UInt32 → FlashM Int}
    (answers : ∀ a, (s.bus a).isSome)
    (one : ∀ w, Answered C (cmd w) (fun r t => r = C.code s.n ∧ t.n = s.n + 1 ∧ t.bus = s.bus) s) :
    Answered C ((Source.bus src).word i >>= cmd)
      (fun r t => r = C.code s.n ∧ t.n = s.n + 1 ∧ t.bus = s.bus) s := by
  refine Prog.safe_ask.mpr ⟨faulty_load32_isSome answers, fun w t answer => ⟨trivial, ?_⟩⟩
  obtain rfl := faulty_load32_chip answer
  exact one w

/-- A loop of one command each round keeps the last status. -/
theorem answered_loop {body : Nat → Int → FlashM Int} (n : Nat)
    (round : ∀ j r t, t.bus = s.bus →
      Answered C (body j r) (fun r' t' => r' = C.code t.n ∧ t'.n = t.n + 1 ∧ t'.bus = t.bus) t) :
    Answered C (Prog.loop body n 0 F_ERR_OK)
      (fun r t => t.bus = s.bus ∧ t.n = s.n + n ∧
        (r = F_ERR_OK ↔ (0 < n → C.Ok (s.n + n - 1)))) s := by
  have run : Answered C (Prog.loop body n 0 F_ERR_OK)
      (fun r t => t.bus = s.bus ∧ t.n = s.n + (0 + n) ∧
        (r = F_ERR_OK ↔ (0 < 0 + n → C.Ok (s.n + (0 + n) - 1)))) s := by
    refine Prog.safe_loop (L := fun j r (t : Chip) => t.bus = s.bus ∧ t.n = s.n + j ∧
      (r = F_ERR_OK ↔ (0 < j → C.Ok (s.n + j - 1)))) ⟨rfl, rfl, by simp⟩ ?_
    rintro j r t - - ⟨bus, number, -⟩
    refine (round j r t bus).post ?_
    rintro r' t' ⟨rfl, next, same⟩
    refine ⟨same.trans bus, by omega, ?_⟩
    rw [code_eq_ok, number]
    simp
  simpa using run

/-- The erase loop stops at a failed erase, and otherwise keeps the last status of all. -/
theorem answered_eraseLoop (k : Nat) (d : UInt32) (retval : Int) :
    Answered C (eraseLoop k d retval)
      (fun r t => (r = F_ERR_OK ↔ (∀ i, i < k → C.Ok (s.n + 4 * i)) ∧
          if k = 0 then retval = F_ERR_OK else C.Ok (s.n + 4 * k - 1)) ∧
        (r = F_ERR_OK → t.n = s.n + 4 * k)) s := by
  induction k generalizing d retval s with
  | zero => exact ⟨by simp, fun _ => rfl⟩
  | succ k ih =>
      refine answered_cmd.bind ?_
      rintro r t ⟨rfl, number, -⟩
      by_cases success : C.code s.n = F_ERR_OK
      · have ok := code_eq_ok.mp success
        rw [if_pos success, success]
        refine (answered_loop 3 fun j r t _ => answered_cmd).bind ?_
        rintro r' t' ⟨-, number', last⟩
        refine (ih (d + 1) r').post ?_
        rintro r'' t'' ⟨result, count⟩
        have start : t'.n = s.n + 4 := by omega
        have rest : (∀ i, i < k → C.Ok (t'.n + 4 * i)) ↔ ∀ i, i < k + 1 → C.Ok (s.n + 4 * i) := by
          rw [start]
          constructor
          · intro h i hi
            cases i with
            | zero => exact ok
            | succ i => exact (by omega : s.n + 4 + 4 * i = s.n + 4 * (i + 1)) ▸ h i (by omega)
          · intro h i hi
            exact (by omega : s.n + 4 * (i + 1) = s.n + 4 + 4 * i) ▸ h (i + 1) (by omega)
        have final : (if k = 0 then r' = F_ERR_OK else C.Ok (t'.n + 4 * k - 1)) ↔
            C.Ok (s.n + 4 * (k + 1) - 1) := by
          split_ifs with zero
          · rw [last, number, zero]
            simp [Nat.add_assoc]
          · rw [start, show s.n + 4 + 4 * k - 1 = s.n + 4 * (k + 1) - 1 by omega]
        rw [result, rest, final]
        simp only [Nat.add_eq_zero_iff, one_ne_zero, and_false, if_false, true_and]
        exact fun h => (count (result.mpr ⟨rest.mpr h.1, final.mpr h.2⟩)).trans (by omega)
      · rw [if_neg success]
        refine ⟨?_, fun h => absurd h success⟩
        simp only [success, false_iff, not_and]
        intro h
        exact absurd (code_eq_ok.mpr (h 0 (by omega))) success

end Loops

/-! ### Which failures are reported -/

/-- The call passes the checks of `flashProgram`, so that it issues commands. -/
structure Programs (s : Chip) (src dest count : UInt32) : Prop extends
    Checked (.bus src) dest count where
  erased : Blank s.mem dest.toNat count.toNat

/-- The number of sectors that a call of `flashEraseSectors` goes through. -/
def sectors (offset : UInt32) (sectorCount : UInt16) : Nat :=
  if 22 ≤ offset.toNat ∧ offset.toNat + sectorCount.toNat ≤ 32 then sectorCount.toNat else 0

/-- From command `n` on, with `w` words to program and then to check, the last one of
either loop succeeds and another one fails. -/
def ProgramMasks (C : Controller) (n w : Nat) : Prop :=
  C.Ok (n + w - 1) ∧ C.Ok (n + 2 * w - 1) ∧ ∃ k, k < 2 * w ∧ ¬ C.Ok (n + k)

/-- From command `n` on, with `k` sectors of four commands each, all erases and the very
last command succeed and another one fails. -/
def EraseMasks (C : Controller) (n k : Nat) : Prop :=
  (∀ i, i < k → C.Ok (n + 4 * i)) ∧ C.Ok (n + 4 * k - 1) ∧ ∃ j, j < 4 * k ∧ ¬ C.Ok (n + j)

section Reports

variable {C : Controller} {s : Chip}

theorem answered_flashProgram {src dest count : UInt32} (answers : ∀ a, (s.bus a).isSome)
    (programs : Programs s src dest count) :
    Answered C (flashProgram (.bus src) dest count)
      (fun r t => (r = F_ERR_OK ↔ C.Ok (s.n + count.toNat / 4 - 1) ∧
          C.Ok (s.n + 2 * (count.toNat / 4) - 1)) ∧
        (r = F_ERR_OK → t.n = s.n + 2 * (count.toNat / 4))) s := by
  have hi := programs.hi
  have some_word : 0 < count.toNat / 4 := by
    have := programs.positive
    have := programs.count_aligned
    omega
  rw [flashProgram_checked programs.toChecked]
  refine Prog.Safe.bind (safe_destBlank Chip.mem (i := 0) (fun l => faulty_load8)
    (Q := fun b t => s = t ∧ b = true) (by omega) ?_ trivial fun b hb => ?_) ?_
  · intro j hj
    exact isSome_load8 (by omega)
  · exact ⟨rfl, hb.mpr programs.erased⟩
  rintro _ _ ⟨rfl, rfl⟩
  rw [if_pos rfl]
  refine (answered_loop (count.toNat / 4) fun j r t bus =>
    answered_word (bus ▸ answers) fun w => answered_cmd).bind ?_
  rintro r t ⟨bus, number, last⟩
  by_cases success : r = F_ERR_OK
  · have first := last.mp success some_word
    rw [if_pos success]
    refine (answered_loop (count.toNat / 4) fun j r t' bus' =>
      answered_word ((bus'.trans bus) ▸ answers) fun w => answered_cmd).bind ?_
    rintro r' t' ⟨-, number', last'⟩
    have place : t.n + count.toNat / 4 - 1 = s.n + 2 * (count.toNat / 4) - 1 := by omega
    rw [place] at last'
    by_cases success' : r' = F_ERR_OK
    · rw [if_pos success']
      refine ⟨?_, fun _ => by omega⟩
      simp [success', first, last'.mp success' some_word]
    · rw [if_neg success']
      refine ⟨?_, fun h => absurd h (by decide)⟩
      have margin : F_ERR_U_MARGIN ≠ F_ERR_OK := by decide
      simp only [margin, false_iff, not_and]
      exact fun _ h => success' (last'.mpr fun _ => h)
  · rw [if_neg success]
    refine ⟨?_, fun h => absurd h success⟩
    simp only [success, false_iff, not_and]
    exact fun h _ => success (last.mpr fun _ => h)

/-- A call that programs something reports all failures or masks one. -/
theorem flashProgram_reported_iff {src dest count : UInt32} (answers : ∀ a, (s.bus a).isSome)
    (programs : Programs s src dest count) :
    Reported C (flashProgram (.bus src) dest count) s ↔
      ¬ ProgramMasks C s.n (count.toNat / 4) := by
  obtain ⟨r, t, ran, result, number⟩ :=
    (answered_flashProgram answers programs).total fun _ _ h => h
  rw [reported_iff ran]
  unfold ProgramMasks
  constructor
  · rintro all ⟨first, last, k, hk, failed⟩
    have ok := result.mpr ⟨first, last⟩
    exact failed (all ok (s.n + k) (by omega) (by have := number ok; omega))
  · intro none ok k lo hi
    by_contra failed
    obtain ⟨first, last⟩ := result.mp ok
    have count := number ok
    exact none ⟨first, last, k - s.n, by omega, by rwa [Nat.add_sub_cancel' lo]⟩

/-- A destination that is not erased is refused after the check of its bytes. -/
theorem safe_flashProgram_notBlank {I : Chip → Prop} {E : Req → Chip → Prop} {src : Source}
    {dest count : UInt32} (checked : Checked src dest count)
    (notBlank : ¬ Blank s.mem dest.toNat count.toNat)
    (reads : ∀ j, j < count.toNat → E (.load8 (.dest (dest.toNat + j))) s) (kept : I s) :
    (flashProgram src dest count).Safe (faulty C) I E
      (fun r t => r = F_ERR_NOTBLANK ∧ s = t) s := by
  have hi := checked.hi
  rw [flashProgram_checked checked]
  refine Prog.Safe.bind (safe_destBlank Chip.mem (i := 0) (fun l => faulty_load8)
    (Q := fun b t => s = t ∧ b = false) (by omega) (fun j hj => reads j (by omega)) kept
    fun b hb => ⟨rfl, Bool.eq_false_iff.mpr fun h => notBlank (hb.mp h)⟩) ?_
  rintro _ _ ⟨rfl, rfl⟩
  exact ⟨rfl, rfl⟩

/-- A call that is refused issues no command. -/
theorem flashProgram_reported_of_not {src dest count : UInt32}
    (fits : dest.toNat + count.toNat < 2 ^ 32) (refused : ¬ Programs s src dest count) :
    Reported C (flashProgram (.bus src) dest count) s := by
  by_cases checked : Checked (.bus src) dest count
  · have hi := checked.hi
    have notBlank : ¬ Blank s.mem dest.toNat count.toNat := fun h => refused ⟨checked, h⟩
    have safe : Answered C (flashProgram (.bus src) dest count)
        (fun r t => r = F_ERR_NOTBLANK ∧ s = t) s :=
      safe_flashProgram_notBlank checked notBlank (fun j hj => isSome_load8 (by omega)) trivial
    obtain ⟨r, t, ran, rfl, rfl⟩ := safe.total fun _ _ h => h
    rw [reported_iff ran]
    exact fun h => absurd h (by decide)
  · rcases flashProgram_refused checked fits with ⟨-, eq⟩ | eq | eq
    all_goals
      rw [eq]
      exact reported_ret _

theorem flashEraseSectors_reported_iff (offset : UInt32) (sectorCount : UInt16) :
    Reported C (flashEraseSectors offset sectorCount) s ↔
      ¬ EraseMasks C s.n (sectors offset sectorCount) := by
  have ho := offset.toNat_lt
  have hc := sectorCount.toNat_lt
  have last : (offset + sectorCount.toUInt32).toNat =
      (offset.toNat + sectorCount.toNat) % 2 ^ 32 := by
    rw [UInt32.toNat_add, UInt16.toNat_toUInt32]
  have nothing : ∀ r, sectors offset sectorCount = 0 →
      (Reported C (.ret r) s ↔ ¬ EraseMasks C s.n (sectors offset sectorCount)) := by
    intro r none
    refine iff_of_true (reported_ret r) ?_
    rintro ⟨-, -, j, hj, -⟩
    omega
  unfold flashEraseSectors
  dsimp only
  split_ifs with low past
  · have low : offset.toNat < 22 := low
    exact nothing _ (if_neg (by omega))
  · have past : 32 < (offset + sectorCount.toUInt32).toNat := past
    exact nothing _ (if_neg (by omega))
  · have low : ¬ offset.toNat < 22 := low
    have past : ¬ 32 < (offset + sectorCount.toUInt32).toNat := past
    have rounds : (offset + sectorCount.toUInt32).toNat - offset.toNat =
        sectors offset sectorCount := by
      unfold sectors
      split_ifs <;> omega
    rw [rounds]
    obtain ⟨r, t, ran, result, number⟩ :=
      (answered_eraseLoop (C := C) (s := s) (sectors offset sectorCount) offset F_ERR_OK).total
        fun _ _ h => h
    rw [reported_iff ran]
    unfold EraseMasks
    constructor
    · rintro all ⟨erases, final, k, hk, failed⟩
      have some_sector : sectors offset sectorCount ≠ 0 := by omega
      have ok := result.mpr ⟨erases, by rwa [if_neg some_sector]⟩
      exact failed (all ok (s.n + k) (by omega) (by have := number ok; omega))
    · intro none ok k lo hi
      by_contra failed
      have count := number ok
      obtain ⟨erases, final⟩ := result.mp ok
      rw [if_neg (by omega)] at final
      exact none ⟨erases, final, k - s.n, by omega, by rwa [Nat.add_sub_cancel' lo]⟩

/-- With a bus that answers, a call whose sum does not wrap reports the failures of its
commands for exactly those sequences of statuses that mask none. -/
theorem errors_reported_iff (C : Controller) (s : Chip) (answers : ∀ a, (s.bus a).isSome) :
    (∀ src dest count : UInt32, dest.toNat + count.toNat < 2 ^ 32 →
      (Reported C (flashProgram (.bus src) dest count) s ↔
        ¬ (Programs s src dest count ∧ ProgramMasks C s.n (count.toNat / 4)))) ∧
    ∀ (offset : UInt32) (sectorCount : UInt16),
      (Reported C (flashEraseSectors offset sectorCount) s ↔
        ¬ EraseMasks C s.n (sectors offset sectorCount)) := by
  refine ⟨fun src dest count fits => ?_, flashEraseSectors_reported_iff⟩
  by_cases programs : Programs s src dest count
  · rw [flashProgram_reported_iff answers programs]
    simp [programs]
  · simp [programs, flashProgram_reported_of_not fits programs]

end Reports

theorem execCmd_confined {c : Cmd} {m : Mem} {x : Nat} (other : ¬ c.Changes x) :
    (execCmd c m).2 x = m x := by
  unfold Cmd.Changes at other
  unfold execCmd
  dsimp only
  split_ifs with past erase program check blank
  · rfl
  · have sector : ¬ x / 1024 = c.addr.toNat / 1024 := fun h => other (.inl ⟨erase, h⟩)
    exact if_neg (by omega)
  · have word : ¬ (c.addr.toNat ≤ x ∧ x < c.addr.toNat + 4) :=
      fun h => other (.inr ⟨program.1, program.2, h⟩)
    exact setWord_of_disjoint (by omega)
  all_goals rfl

/-- A controller that flags the command with number 1 and does what it should otherwise. -/
def sampleController : Controller where
  status n := if n = 1 then statusCheck else statusOk
  effect _ c m := (execCmd c m).2
  confined _ _ _ _ := execCmd_confined

/-- Erased flash and zeros elsewhere. -/
def sampleChip : Chip where
  n := 0
  mem := fun _ => 0xFF
  bus := fun _ => some 0
  changed := ∅

theorem sampleChip_programs : Programs sampleChip 0x20000000 0x5900 12 := by
  refine ⟨⟨by decide, by decide, by decide, by decide, by decide, by decide⟩, ?_⟩
  intro j _
  rfl

/-- A controller that flags the command with number 4, the second erase of a call. -/
def eraseController : Controller where
  status n := if n = 4 then statusCheck else statusOk
  effect _ c m := (execCmd c m).2
  confined _ _ _ _ := execCmd_confined

theorem sampleChip_reports :
    Reported sampleController (flashProgram (.bus 0x20000000) 0x5900 8) sampleChip ∧
      Reported eraseController (flashEraseSectors 30 2) sampleChip := by
  obtain ⟨program, -⟩ := errors_reported_iff sampleController sampleChip fun _ => rfl
  obtain ⟨-, erase⟩ := errors_reported_iff eraseController sampleChip fun _ => rfl
  refine ⟨(program 0x20000000 0x5900 8 (by decide)).mpr ?_, (erase 30 2).mpr ?_⟩
  · rintro ⟨-, last, -⟩
    exact absurd last (by decide)
  · rintro ⟨erases, -⟩
    exact absurd (erases 1 (by decide)) (by decide)

/-- The second of three words is not programmed well, or the sector is not erased well,
and the driver returns `F_ERR_OK`. -/
theorem sampleChip_masks :
    Programs sampleChip 0x20000000 0x5900 12 ∧
      ¬ Reported sampleController (flashProgram (.bus 0x20000000) 0x5900 12) sampleChip ∧
      ¬ Reported sampleController (flashEraseSectors 30 1) sampleChip := by
  have masked : ∀ p : FlashM Int, (p.run (faulty sampleController) sampleChip).map
      (fun r => (r.1, decide (2 ≤ r.2.n))) = some (F_ERR_OK, true) →
      ¬ Reported sampleController p sampleChip := by
    intro p ran reported
    obtain ⟨⟨r, t⟩, ran, eq⟩ := Option.map_eq_some_iff.mp ran
    obtain ⟨ok, long⟩ := Prod.mk.inj eq
    have all := (reported_iff ran).mp reported ok 1 (by decide)
      (of_decide_eq_true long)
    exact absurd all (by decide)
  refine ⟨sampleChip_programs, masked _ ?_, masked _ ?_⟩
  · decide
  · decide

end LtcOs.Flash
