import LtcOs.Lib.Memory
import LtcOs.Lib.Request

/-!
The flash driver `flash.c` and the syscalls of `arduino-flash.c` that expose it
to user programs.

A driver routine is a program over bus requests: loads, each labelled with the
C expression it comes from, and commands to the flash controller. The
controller's status byte is an answer like any other, so the results below hold
for every memory content and every sequence of statuses.

`flash_calls_protected_iff` settles which calls keep a user program out of the
bootloader: the range checks are exact except at the wrap-around of their
32-bit sums.
-/

namespace LtcOs.Flash

open LtcOs.Memory LtcOs.Request

/-! ### Memory map (`KL02P20.ld`, `flash.h`) -/

def P_FLASH_BASE : UInt32 := 0

def P_FLASH_SIZE : UInt32 := 32768

def FTFx_PSECTOR_SIZE : UInt32 := 1024

/-- `__storage_start__`: the 10k above the bootloader. -/
def storageStart : UInt32 := 0x5800

def F_USER_SECTOR_START : UInt32 := storageStart / FTFx_PSECTOR_SIZE

/-! ### Error codes -/

def F_ERR_OK : Int := 0

def F_ERR_NOTBLANK : Int := -1

def F_ERR_NOTALIGN : Int := -2

def F_ERR_LOWLEVEL : Int := -3

def F_ERR_RANGE : Int := -4

def F_ERR_U_MARGIN : Int := -6

/-! ### Bus requests -/

/-- The lvalue a load reads: a byte of `dest` or a word of `src` in the driver,
a word of the storage header, an entry of its blockmap, a guid byte, or a part
of the program image under the full-program hash. -/
inductive Lval where
  | src (a : Nat)
  | dest (a : Nat)
  | header (offset : Nat)
  | guid (j : Nat)
  | blockmap (i : Nat)
  | program (a : Nat)
  | appHeader (offset : Nat)
deriving DecidableEq, Repr

/-- A command as written to the `FCCOB` registers: the address has 24 bits. -/
structure Cmd where
  code : UInt8
  addr : UInt32
  data1 : UInt32
  data2 : UInt32
deriving DecidableEq, Repr

inductive Req where
  | load8 (l : Lval)
  | load32 (l : Lval)
  | cmd (c : Cmd)
deriving DecidableEq, Repr

/-- A load is answered by its value, a command by the status register. -/
def Resp : Req → Type
  | .load8 _ => UInt8
  | .load32 _ => UInt32
  | .cmd _ => UInt8

abbrev FlashM (α : Type) := Prog Req Resp α

def load8 (l : Lval) : FlashM UInt8 := Prog.ask (Req.load8 l)

def load32 (l : Lval) : FlashM UInt32 := Prog.ask (Req.load32 l)

/-! ### Controller commands -/

def FTFx_CMD_SECTSTAT : UInt8 := 0x01

def FTFx_CMD_PROGCHECK : UInt8 := 0x02

def FTFx_CMD_LWORDPROG : UInt8 := 0x06

def FTFx_CMD_SECTERASE : UInt8 := 0x09

/-- `ACCERR | FPVIOL | MGSTAT0`. -/
def FTFx_FSTAT_ERRORS : UInt8 := 0x31

def READ_USER_MARGIN : UInt32 := 0x01

def MAKE_FCCOB (a b c d : UInt32) : UInt32 :=
  ((a <<< 24) &&& (0xff000000 : UInt32)) ||| ((b <<< 16) &&& (0x00ff0000 : UInt32)) |||
    ((c <<< 8) &&& (0x0000ff00 : UInt32)) ||| (d &&& (0x000000ff : UInt32))

/-- The two waits for `CCIF` are part of the request: it is answered when the
command has completed. -/
def kinetis_flash_cmd (cmd : UInt8) (addr data1 data2 : UInt32) : FlashM Int := do
  let fstat : UInt8 ← Prog.ask (Req.cmd ⟨cmd, addr &&& 0xffffff, data1, data2⟩)
  return if fstat &&& FTFx_FSTAT_ERRORS = 0 then F_ERR_OK else F_ERR_LOWLEVEL

/-! ### `flashEraseSectors` -/

/-- The three `SECTSTAT` checks of one sector; the last status is kept. -/
def sectorStatus (destination : UInt32) (retval : Int) : FlashM Int :=
  Prog.loop (fun margin _ =>
    kinetis_flash_cmd FTFx_CMD_SECTSTAT (destination * FTFx_PSECTOR_SIZE)
      (MAKE_FCCOB ((FTFx_PSECTOR_SIZE / 4) >>> 8) (FTFx_PSECTOR_SIZE / 4)
        (UInt32.ofNat margin) 0) 0) 3 0 retval

/-- `while (destination < end)`, with `k` sectors left. -/
def eraseLoop : (k : Nat) → (destination : UInt32) → (retval : Int) → FlashM Int
  | 0, _, retval => .ret retval
  | k + 1, destination, _ => do
      let retval ← kinetis_flash_cmd FTFx_CMD_SECTERASE (destination * FTFx_PSECTOR_SIZE) 0 0
      if retval = F_ERR_OK then do
        let retval ← sectorStatus destination retval
        eraseLoop k (destination + 1) retval
      else .ret retval

def flashEraseSectors (offset : UInt32) (sectorCount : UInt16) : FlashM Int :=
  let last := offset + sectorCount.toUInt32
  if offset < F_USER_SECTOR_START then .ret F_ERR_RANGE
  else if last > (P_FLASH_BASE + P_FLASH_SIZE) / FTFx_PSECTOR_SIZE then .ret F_ERR_RANGE
  else eraseLoop (last.toNat - offset.toNat) offset F_ERR_OK

/-! ### `flashProgram` -/

/-- The source buffer: its address, and how the word at an offset is read. -/
structure Source where
  addr : UInt32
  word : UInt32 → FlashM UInt32

/-- A buffer anywhere on the bus, read again for every command. -/
def Source.bus (src : UInt32) : Source :=
  ⟨src, fun i => load32 (.src (src + i).toNat)⟩

/-- A buffer in the caller's RAM, whose contents are known. -/
def Source.ram (addr : UInt32) (bytes : Mem) : Source :=
  ⟨addr, fun i => .ret (Memory.word bytes i.toNat)⟩

/-- `for (i = 0; i < count; i++) if (dest[i] != 0xFF)`, from byte `i` on. -/
def destBlank (dest : UInt32) : (k i : Nat) → FlashM Bool
  | 0, _ => .ret true
  | k + 1, i => do
      let b ← load8 (.dest (dest + UInt32.ofNat i).toNat)
      if b = 0xFF then destBlank dest k (i + 1) else .ret false

/-- The `LWORDPROG` loop over `n` words. Only the last status is returned. -/
def programLoop (src : Source) (dest : UInt32) (n : Nat) : FlashM Int :=
  Prog.loop (fun j _ => do
    let w ← src.word (UInt32.ofNat (4 * j))
    kinetis_flash_cmd FTFx_CMD_LWORDPROG (dest + UInt32.ofNat (4 * j)) w 0) n 0 F_ERR_OK

/-- The `PROGCHECK` loop over `n` words. Only the last status is returned. -/
def checkLoop (src : Source) (dest : UInt32) (n : Nat) : FlashM Int :=
  Prog.loop (fun j _ => do
    let w ← src.word (UInt32.ofNat (4 * j))
    kinetis_flash_cmd FTFx_CMD_PROGCHECK (dest + UInt32.ofNat (4 * j))
      (MAKE_FCCOB READ_USER_MARGIN 0 0 0) w) n 0 F_ERR_OK

def flashProgram (src : Source) (dest count : UInt32) : FlashM Int :=
  if count = 0 then .ret F_ERR_OK
  else if dest < F_USER_SECTOR_START * FTFx_PSECTOR_SIZE ∨
      dest + count > P_FLASH_BASE + P_FLASH_SIZE then .ret F_ERR_RANGE
  else if count % 4 ≠ 0 ∨ dest % 4 ≠ 0 ∨ src.addr % 4 ≠ 0 then .ret F_ERR_NOTALIGN
  else do
    let erased ← destBlank dest count.toNat 0
    if erased then do
      let ret ← programLoop src dest (count.toNat / 4)
      if ret = F_ERR_OK then do
        let ret ← checkLoop src dest (count.toNat / 4)
        if ret = F_ERR_OK then .ret ret else .ret F_ERR_U_MARGIN
      else .ret ret
    else .ret F_ERR_NOTBLANK

/-! ### Syscalls (`arduino-flash.c`) -/

/-- `uint8_t ret` returned as `int8_t`. -/
def int8OfUint8 (r : Int) : Int := Int.bmod (r % 256) 256

def flashErase (sectorOffset : UInt32) (sectorCount : UInt16) : FlashM Int := do
  let ret ← flashEraseSectors sectorOffset sectorCount
  return int8OfUint8 ret

def flashWrite (src dst count : UInt32) : FlashM Int := do
  let ret ← flashProgram (.bus src) dst count
  return int8OfUint8 ret

/-! ### What a call may touch -/

/-- The codes a call returns once it has passed its range check. -/
def PastRangeCheck (r : Int) : Prop :=
  r ∈ [F_ERR_OK, F_ERR_NOTBLANK, F_ERR_NOTALIGN, F_ERR_LOWLEVEL, F_ERR_U_MARGIN]

instance (r : Int) : Decidable (PastRangeCheck r) :=
  inferInstanceAs (Decidable (r ∈ _))

theorem PastRangeCheck.ne_range {r : Int} (h : PastRangeCheck r) : r ≠ F_ERR_RANGE := by
  rintro rfl
  exact absurd h (by decide)

theorem PastRangeCheck.int8 {r : Int} (h : PastRangeCheck r) : int8OfUint8 r = r := by
  revert r
  unfold PastRangeCheck
  decide

/-- A byte of the user area, from the first user sector to the end of flash. -/
def UserByte (a : Nat) : Prop := F_USER_SECTOR_START.toNat * 1024 ≤ a ∧ a < 32768

/-- The bytes a command works on: a sector or a word. -/
def Cmd.size (c : Cmd) : Nat :=
  if c.code = FTFx_CMD_SECTERASE ∨ c.code = FTFx_CMD_SECTSTAT then 1024 else 4

/-- Commands and reads through `dest` stay inside the user area. -/
def Req.Confined : Req → Prop
  | .cmd c => ∀ a, c.addr.toNat ≤ a → a < c.addr.toNat + c.size → UserByte a
  | .load8 (.dest a) => UserByte a
  | _ => True

/-- The call `p` on the bytes `[lo, hi)` respects the user area: it touches
nothing else, and a range that leaves the area is refused with `F_ERR_RANGE`
before any command is issued. -/
def Protected {σ : Type} (H : Handler Req Resp σ) (s : σ) (p : FlashM Int) (lo hi : Nat) : Prop :=
  (∀ e ∈ p.trace H s, e.1.Confined) ∧
    (¬ (∀ a, lo ≤ a → a < hi → UserByte a) →
      p.run H s = some (F_ERR_RANGE, s) ∧ ∀ e ∈ p.trace H s, ∀ c, e.1 ≠ .cmd c)

/-- `offset + sectorCount` wraps to a value that passes the end check. -/
def EraseWraps (offset : UInt32) (sectorCount : UInt16) : Prop :=
  2 ^ 32 ≤ offset.toNat + sectorCount.toNat ∧ offset.toNat + sectorCount.toNat ≤ 2 ^ 32 + 32

/-- `dest + count` wraps to a value that passes the end check. -/
def ProgramWraps (dest count : UInt32) : Prop :=
  0x5800 ≤ dest.toNat ∧ 2 ^ 32 ≤ dest.toNat + count.toNat ∧
    dest.toNat + count.toNat ≤ 2 ^ 32 + 32768

section AnyController

variable {σ : Type} {H : Handler Req Resp σ} {A : Req → Prop} {s : σ}

/-- Requests allowed by `A` only, and a result other than `F_ERR_RANGE`. -/
abbrev Keeps (H : Handler Req Resp σ) (A : Req → Prop) (p : FlashM Int) (s : σ) : Prop :=
  p.Safe H (fun _ => True) (fun i _ => A i) (fun r _ => PastRangeCheck r) s

theorem keeps_cmd {cmd : UInt8} {addr data1 data2 : UInt32}
    (allowed : A (.cmd ⟨cmd, addr &&& 0xffffff, data1, data2⟩)) :
    Keeps H A (kinetis_flash_cmd cmd addr data1 data2) s := by
  refine Prog.safe_ask.mpr ⟨allowed, fun fstat s' _ => ⟨trivial, ?_⟩⟩
  change PastRangeCheck (if _ then F_ERR_OK else F_ERR_LOWLEVEL)
  split <;> decide

theorem keeps_loop {body : Nat → Int → FlashM Int} {n : Nat} {r : Int} (start : PastRangeCheck r)
    (step : ∀ j r s, j < n → Keeps H A (body j r) s) : Keeps H A (Prog.loop body n 0 r) s :=
  Prog.safe_loop (L := fun _ r _ => PastRangeCheck r) start
    fun j r s _ hj _ => step j r s (by omega)

theorem keeps_eraseLoop {k : Nat} {destination : UInt32} {retval : Int}
    (allowed : ∀ j c, j < k →
      c.addr = ((destination + UInt32.ofNat j) * FTFx_PSECTOR_SIZE) &&& 0xffffff →
      c.size = 1024 → A (.cmd c)) (ok : PastRangeCheck retval) :
    Keeps H A (eraseLoop k destination retval) s := by
  induction k generalizing destination retval s with
  | zero => exact ok
  | succ k ih =>
      have here : ∀ c : Cmd, c.addr = (destination * FTFx_PSECTOR_SIZE) &&& 0xffffff →
          c.size = 1024 → A (.cmd c) := fun c ha hs => allowed 0 c (by omega) (by simpa using ha) hs
      refine (keeps_cmd (here _ rfl rfl)).bind fun r s' hr => ?_
      split
      · refine (keeps_loop hr fun j r s _ => keeps_cmd (here _ rfl rfl)).bind fun r' s'' hr' => ?_
        refine ih (fun j c hj ha => allowed (j + 1) c (by omega) ?_) hr'
        rw [ha, UInt32.add_assoc, UInt32.ofNat_add, UInt32.add_comm 1]
        rfl
      · exact hr

theorem keeps_destBlank {Q : Bool → σ → Prop} {dest : UInt32} {k i : Nat}
    (allowed : ∀ j, i ≤ j → j < i + k → A (.load8 (.dest (dest + UInt32.ofNat j).toNat)))
    (post : ∀ b s, Q b s) :
    (destBlank dest k i).Safe H (fun _ => True) (fun i _ => A i) Q s := by
  induction k generalizing i s with
  | zero => exact post true s
  | succ k ih =>
      refine Prog.safe_ask.mpr ⟨allowed i (Nat.le_refl _) (by omega), fun b s' _ => ⟨trivial, ?_⟩⟩
      split
      · exact ih fun j lo hi => allowed j (by omega) (by omega)
      · exact post false s'

/-- Past its range check, `flashProgram` issues only what its loops issue. -/
theorem keeps_flashProgram {src dest count : UInt32} (nonzero : count ≠ 0)
    (inRange : ¬ (dest < F_USER_SECTOR_START * FTFx_PSECTOR_SIZE ∨
      dest + count > P_FLASH_BASE + P_FLASH_SIZE))
    (source : ∀ a, A (.load32 (.src a)))
    (reads : dest % 4 = 0 → count % 4 = 0 →
      ∀ j, j < count.toNat → A (.load8 (.dest (dest + UInt32.ofNat j).toNat)))
    (words : dest % 4 = 0 → count % 4 = 0 → ∀ j c, j < count.toNat / 4 →
      c.addr = (dest + UInt32.ofNat (4 * j)) &&& 0xffffff → c.size = 4 → A (.cmd c)) :
    Keeps H A (flashProgram (.bus src) dest count) s := by
  unfold flashProgram
  rw [if_neg nonzero, if_neg inRange]
  split
  · exact (by decide : PastRangeCheck F_ERR_NOTALIGN)
  rename_i aligned
  obtain ⟨hcount, hdest⟩ : count % 4 = 0 ∧ dest % 4 = 0 := by
    simp only [not_or, not_not] at aligned
    exact ⟨aligned.1, aligned.2.1⟩
  have word : ∀ (f : Nat → UInt32 → FlashM Int) (j : Nat) (s : σ),
      (∀ w s, Keeps H A (f j w) s) →
      Keeps H A ((Source.bus src).word (UInt32.ofNat (4 * j)) >>= f j) s := by
    intro f j s hf
    exact Prog.safe_ask.mpr ⟨source _, fun w s' _ => ⟨trivial, hf w s'⟩⟩
  refine (keeps_destBlank (Q := fun _ _ => True)
    (fun j _ hj => reads hdest hcount j (by omega)) fun _ _ => trivial).bind fun erased s₁ _ => ?_
  split
  · refine (keeps_loop (by decide) fun j r s hj => word
      (fun j w => kinetis_flash_cmd FTFx_CMD_LWORDPROG (dest + UInt32.ofNat (4 * j)) w 0) j s
      fun w s => keeps_cmd (words hdest hcount j _ hj rfl rfl)).bind fun r s₂ hr => ?_
    split
    · refine (keeps_loop (by decide) fun j r s hj => word
        (fun j w => kinetis_flash_cmd FTFx_CMD_PROGCHECK (dest + UInt32.ofNat (4 * j))
          (MAKE_FCCOB READ_USER_MARGIN 0 0 0) w) j s
        fun w s => keeps_cmd (words hdest hcount j _ hj rfl rfl)).bind fun r₂ s₃ hr₂ => ?_
      split
      · exact hr₂
      · exact (by decide : PastRangeCheck F_ERR_U_MARGIN)
    · exact hr
  · exact (by decide : PastRangeCheck F_ERR_NOTBLANK)

end AnyController

/-! ### Exactness of the range checks -/

theorem toNat_and_24 (x : UInt32) : (x &&& 0xffffff).toNat = x.toNat % 16777216 := by
  rw [UInt32.toNat_and]
  exact Nat.and_two_pow_sub_one_eq_mod x.toNat 24

theorem userByte_iff {a : Nat} : UserByte a ↔ 0x5800 ≤ a ∧ a < 32768 := by
  simp [UserByte, F_USER_SECTOR_START, storageStart, FTFx_PSECTOR_SIZE]

theorem confined_cmd {c : Cmd} {size : Nat} (lo : Nat) (addr : c.addr.toNat = lo)
    (hs : c.size = size) (h : 0x5800 ≤ lo ∧ lo + size ≤ 32768) : (Req.cmd c).Confined := by
  intro a ge lt
  rw [userByte_iff]
  omega

section Protection

variable {σ : Type} {H : Handler Req Resp σ} {s : σ} {lo hi : Nat}

/-- A call that returns at once is protected if it is refused or its range is
inside the user area. -/
theorem protected_ret {r : Int}
    (h : r = F_ERR_RANGE ∨ ∀ a, lo ≤ a → a < hi → UserByte a) :
    Protected H s (.ret r) lo hi := by
  refine ⟨by simp, fun outside => ⟨?_, by simp⟩⟩
  rw [h.resolve_right outside]
  rfl

/-- A call past its range check is protected if its requests are confined and its
range is inside the user area. -/
theorem protected_of_keeps {p : FlashM Int} (safe : Keeps H Req.Confined p s)
    (inside : ∀ a, lo ≤ a → a < hi → UserByte a) : Protected H s p lo hi :=
  ⟨safe.trace, fun outside => absurd inside outside⟩

/-- A call past its range check is not protected if its range leaves the user
area, whatever it then does. -/
theorem not_protected_of_keeps {p : FlashM Int} (safe : Keeps H (fun _ => True) p s)
    (outside : ∃ a, lo ≤ a ∧ a < hi ∧ ¬ UserByte a) : ¬ Protected H s p lo hi := by
  obtain ⟨a, ge, lt, out⟩ := outside
  intro h
  obtain ⟨ran, _⟩ := h.2 fun inside => out (inside a ge lt)
  exact (safe.run ran).ne_range rfl

theorem flashEraseSectors_protected_iff {offset : UInt32} {sectorCount : UInt16} :
    Protected H s (flashEraseSectors offset sectorCount) (offset.toNat * 1024)
      ((offset.toNat + sectorCount.toNat) * 1024) ↔ ¬ EraseWraps offset sectorCount := by
  have ho := offset.toNat_lt
  have hc := sectorCount.toNat_lt
  have last : (offset + sectorCount.toUInt32).toNat =
      (offset.toNat + sectorCount.toNat) % 2 ^ 32 := by
    rw [UInt32.toNat_add, UInt16.toNat_toUInt32]
  simp only [flashEraseSectors, EraseWraps]
  split
  · rename_i low
    have low : offset.toNat < 22 := low
    refine iff_of_true (protected_ret (.inl rfl)) ?_
    omega
  rename_i high
  have high : 22 ≤ offset.toNat := Nat.le_of_not_lt high
  split
  · rename_i past
    have past : 32 < (offset + sectorCount.toUInt32).toNat := past
    refine iff_of_true (protected_ret (.inl rfl)) ?_
    omega
  rename_i fits
  have fits : (offset + sectorCount.toUInt32).toNat ≤ 32 := Nat.le_of_not_lt fits
  by_cases wraps : 2 ^ 32 ≤ offset.toNat + sectorCount.toNat
  · refine iff_of_false (not_protected_of_keeps
      (keeps_eraseLoop (fun _ _ _ _ _ => trivial) (by decide))
      ⟨offset.toNat * 1024, by omega, by omega, ?_⟩) (by omega)
    rw [userByte_iff]
    omega
  · refine iff_of_true (protected_of_keeps (keeps_eraseLoop (fun j c hj ha hs => ?_) (by decide))
      fun a ge lt => ?_) (by omega)
    · refine confined_cmd ((offset.toNat + j) * 1024) ?_ hs (by omega)
      have sector : FTFx_PSECTOR_SIZE.toNat = 1024 := rfl
      rw [ha, toNat_and_24, UInt32.toNat_mul, UInt32.toNat_add, UInt32.toNat_ofNat', sector]
      omega
    · rw [userByte_iff]
      omega

theorem flashProgram_protected_iff {src dest count : UInt32} :
    Protected H s (flashProgram (.bus src) dest count) dest.toNat (dest.toNat + count.toNat) ↔
      ¬ ProgramWraps dest count := by
  have hd := dest.toNat_lt
  have hc := count.toNat_lt
  have last : (dest + count).toNat = (dest.toNat + count.toNat) % 2 ^ 32 := UInt32.toNat_add ..
  by_cases zero : count = 0
  · subst zero
    have none : (0 : UInt32).toNat = 0 := rfl
    refine iff_of_true ?_ (by unfold ProgramWraps; omega)
    rw [flashProgram, if_pos rfl]
    exact protected_ret (.inr fun a ge lt => by omega)
  by_cases range : dest < F_USER_SECTOR_START * FTFx_PSECTOR_SIZE ∨
      dest + count > P_FLASH_BASE + P_FLASH_SIZE
  · refine iff_of_true ?_ ?_
    · rw [flashProgram, if_neg zero, if_pos range]
      exact protected_ret (.inl rfl)
    · have range : dest.toNat < 0x5800 ∨ 32768 < (dest + count).toNat := range
      unfold ProgramWraps
      omega
  have bounds : 0x5800 ≤ dest.toNat ∧ (dest + count).toNat ≤ 32768 := by
    have range : ¬ (dest.toNat < 0x5800 ∨ 32768 < (dest + count).toNat) := range
    omega
  have positive : 0 < count.toNat := by
    rcases Nat.eq_zero_or_pos count.toNat with h | h
    · exact absurd (UInt32.toNat_inj.mp (by simpa using h)) zero
    · exact h
  by_cases wraps : 2 ^ 32 ≤ dest.toNat + count.toNat
  · -- the last byte before the wrap is past the end of flash
    refine iff_of_false (not_protected_of_keeps (keeps_flashProgram zero range (fun _ => trivial)
      (fun _ _ _ _ => trivial) fun _ _ _ _ _ _ _ => trivial)
      ⟨2 ^ 32 - 1, by omega, by omega, ?_⟩) (by unfold ProgramWraps; omega)
    rw [userByte_iff]
    omega
  · refine iff_of_true (protected_of_keeps (keeps_flashProgram zero range (fun _ => trivial)
      (fun _ _ j hj => ?_) (fun _ haligned j c hj ha hs => ?_)) fun a ge lt => ?_)
      (by unfold ProgramWraps; omega)
    · change UserByte _
      rw [userByte_iff, UInt32.toNat_add, UInt32.toNat_ofNat']
      omega
    · refine confined_cmd (dest.toNat + 4 * j) ?_ hs (by omega)
      rw [ha, toNat_and_24, UInt32.toNat_add, UInt32.toNat_ofNat']
      omega
    · rw [userByte_iff]
      omega

/-- The result conversion of the syscalls changes nothing, since it is the
identity on the driver's codes. -/
theorem protected_int8_iff {p : FlashM Int}
    (code : ∀ r s', p.run H s = some (r, s') → int8OfUint8 r = r) :
    Protected H s (p >>= fun ret => pure (int8OfUint8 ret)) lo hi ↔ Protected H s p lo hi := by
  have run : (p >>= fun ret => pure (int8OfUint8 ret)).run H s = p.run H s := by
    rw [Prog.run_bind]
    cases ran : p.run H s with
    | none => rfl
    | some r => simp [code r.1 r.2 ran]
  have trace : (p >>= fun ret => pure (int8OfUint8 ret)).trace H s = p.trace H s := by
    rw [Prog.trace_bind]
    cases p.run H s <;> simp
  rw [Protected, Protected, run, trace]

theorem flashEraseSectors_code {offset : UInt32} {sectorCount : UInt16} {r : Int} {s' : σ}
    (ran : (flashEraseSectors offset sectorCount).run H s = some (r, s')) : int8OfUint8 r = r := by
  simp only [flashEraseSectors] at ran
  split at ran
  · cases ran
    decide
  split at ran
  · cases ran
    decide
  exact ((keeps_eraseLoop (A := fun _ => True) (fun _ _ _ _ _ => trivial) (by decide)).run ran).int8

theorem flashProgram_code {src dest count : UInt32} {r : Int} {s' : σ}
    (ran : (flashProgram (.bus src) dest count).run H s = some (r, s')) : int8OfUint8 r = r := by
  by_cases zero : count = 0
  · rw [flashProgram, if_pos zero] at ran
    cases ran
    decide
  by_cases range : dest < F_USER_SECTOR_START * FTFx_PSECTOR_SIZE ∨
      dest + count > P_FLASH_BASE + P_FLASH_SIZE
  · rw [flashProgram, if_neg zero, if_pos range] at ran
    cases ran
    decide
  exact ((keeps_flashProgram (A := fun _ => True) zero range (fun _ => trivial)
    (fun _ _ _ _ => trivial) fun _ _ _ _ _ _ _ => trivial).run ran).int8

end Protection

/-- For every argument, memory content and controller behaviour, an erase or
program call respects the user area exactly when its 32-bit end address does
not wrap to a value that passes the check. -/
theorem flash_calls_protected_iff {σ : Type} (H : Handler Req Resp σ) (s : σ) (offset : UInt32)
    (sectorCount : UInt16) (src dest count : UInt32) :
    ((Protected H s (flashEraseSectors offset sectorCount) (offset.toNat * 1024)
        ((offset.toNat + sectorCount.toNat) * 1024) ↔ ¬ EraseWraps offset sectorCount) ∧
      (Protected H s (flashErase offset sectorCount) (offset.toNat * 1024)
        ((offset.toNat + sectorCount.toNat) * 1024) ↔ ¬ EraseWraps offset sectorCount)) ∧
    ((Protected H s (flashProgram (.bus src) dest count) dest.toNat (dest.toNat + count.toNat) ↔
        ¬ ProgramWraps dest count) ∧
      (Protected H s (flashWrite src dest count) dest.toNat (dest.toNat + count.toNat) ↔
        ¬ ProgramWraps dest count)) := by
  refine ⟨⟨flashEraseSectors_protected_iff, ?_⟩, flashProgram_protected_iff, ?_⟩
  · exact (protected_int8_iff fun r s' => flashEraseSectors_code).trans
      flashEraseSectors_protected_iff
  · exact (protected_int8_iff fun r s' => flashProgram_code).trans flashProgram_protected_iff

/-- A bus that reads erased everywhere and completes every command. -/
def blankBus : Handler Req Resp Unit
  | .load8 _, s => some ((0xFF : UInt8), s)
  | .load32 _, s => some ((0xFFFFFFFF : UInt32), s)
  | .cmd _, s => some ((0x80 : UInt8), s)

/-- One sector from the last sector number on, and one word at the last word of
the address space: the erase call reports success instead of `F_ERR_RANGE`, and
the write call reads and programs outside the user area. -/
theorem flash_calls_unprotected_at_wrap :
    ¬ Protected blankBus () (flashErase 0xFFFFFFFF 1) (4294967295 * 1024) (4294967296 * 1024) ∧
    ¬ Protected blankBus () (flashWrite 0x1FFFFC00 0xFFFFFFFC 4) 4294967292 4294967296 := by
  constructor
  · intro h
    have outside : ¬ ∀ a, 4294967295 * 1024 ≤ a → a < 4294967296 * 1024 → UserByte a :=
      fun inside => absurd (inside _ (Nat.le_refl _) (by decide)) (by rw [userByte_iff]; decide)
    have ran := (h.2 outside).1
    exact absurd (congrArg (Option.map Prod.fst) ran) (by decide)
  · intro h
    have read := h.1 (.load8 (.dest 4294967292), ()) (by decide)
    exact absurd (userByte_iff.mp read).2 (by decide)

end LtcOs.Flash
