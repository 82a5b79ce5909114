import LtcOs.Flash

/-!
The driver on an error-free flash.

`device` answers bus requests from the flash contents; what lies outside the
32k of flash is left open (`bus`: a value, or no answer, which is a bus fault).
Commands have their full effect. The two specifications `safe_flashEraseSectors`
and `safe_flashProgram` give the exact contents at every point of a call, so an
invariant or a restriction on requests has to be checked only there.
-/

namespace LtcOs.Flash

open LtcOs.Memory LtcOs.Request

/-! ### Storage layout (`esplanade_updater.h`) -/

/-- `STORAGE_START`, where the storage header lies. -/
def storage : Nat := 0x5800

/-- `STORAGE_PROGRAM_OFFSET`, also the linker's `_app_header`. -/
def programOffset : Nat := 0x5900

/-- End of flash and of the storage area. -/
def flashEnd : Nat := 0x8000

def Lval.addr : Lval → Nat
  | .src a => a
  | .dest a => a
  | .header offset => storage + offset
  | .guid j => storage + 16 + j
  | .blockmap i => storage + 36 + 4 * i
  | .program a => a
  | .appHeader offset => programOffset + offset

/-! ### The device -/

/-- One byte on the bus: flash, or whatever else answers. -/
def busByte (bus : Nat → Option UInt8) (m : Mem) (a : Nat) : Option UInt8 :=
  if a < flashEnd then some (m a) else bus a

def busWord (bus : Nat → Option UInt8) (m : Mem) (a : Nat) : Option UInt32 := do
  let b₀ ← busByte bus m a
  let b₁ ← busByte bus m (a + 1)
  let b₂ ← busByte bus m (a + 2)
  let b₃ ← busByte bus m (a + 3)
  return ofBytes b₀ b₁ b₂ b₃

/-- `CCIF` alone: completed without error. -/
def statusOk : UInt8 := 0x80

/-- `CCIF | MGSTAT0`: a check failed. -/
def statusCheck : UInt8 := 0x81

/-- `CCIF | ACCERR`: the command was refused. -/
def statusAccess : UInt8 := 0xA0

def fill (m : Mem) (a n : Nat) : Mem := fun x => if a ≤ x ∧ x < a + n then 0xFF else m x

/-- Every byte of `[a, a + n)` reads erased. -/
def Blank (m : Mem) (a n : Nat) : Prop := ∀ j, j < n → m (a + j) = 0xFF

instance (m : Mem) (a n : Nat) : Decidable (Blank m a n) :=
  inferInstanceAs (Decidable (∀ j, j < n → m (a + j) = 0xFF))

/-- The effect of a command on the contents, with the status it leaves.
Programming can only clear bits. -/
def execCmd (c : Cmd) (m : Mem) : UInt8 × Mem :=
  let a := c.addr.toNat
  if flashEnd ≤ a then (statusAccess, m)
  else if c.code = FTFx_CMD_SECTERASE then (statusOk, fill m (a / 1024 * 1024) 1024)
  else if c.code = FTFx_CMD_LWORDPROG ∧ a % 4 = 0 then
    (statusOk, setWord m a (word m a &&& c.data1))
  else if c.code = FTFx_CMD_PROGCHECK ∧ a % 4 = 0 then
    (if word m a = c.data2 then statusOk else statusCheck, m)
  else if c.code = FTFx_CMD_SECTSTAT then
    (if Blank m a (4 * (c.data1 >>> 16).toNat) then statusOk else statusCheck, m)
  else (statusAccess, m)

/-- The error-free device as an environment of the firmware. -/
def device (bus : Nat → Option UInt8) : Handler Req Resp Mem
  | .load8 l, m => (busByte bus m l.addr).map (·, m)
  | .load32 l, m => (busWord bus m l.addr).map (·, m)
  | .cmd c, m => some (execCmd c m)

section Loads

variable {bus : Nat → Option UInt8} {I : Mem → Prop} {E : Req → Mem → Prop} {m : Mem}
  {β : Type} {Q : β → Mem → Prop}

theorem device_load8 {l : Lval} (h : l.addr < flashEnd) :
    device bus (.load8 l) m = some (m l.addr, m) := by
  change (busByte bus m l.addr).map (fun b => (b, m)) = some (m l.addr, m)
  simp [busByte, h]

theorem device_load32 {l : Lval} (h : l.addr + 4 ≤ flashEnd) :
    device bus (.load32 l) m = some (word m l.addr, m) := by
  have h₀ : l.addr < flashEnd := by omega
  have h₁ : l.addr + 1 < flashEnd := by omega
  have h₂ : l.addr + 2 < flashEnd := by omega
  have h₃ : l.addr + 3 < flashEnd := by omega
  change (busWord bus m l.addr).map (fun w => (w, m)) = some (word m l.addr, m)
  simp [busWord, busByte, word, h₀, h₁, h₂, h₃]

theorem run_load32 {l : Lval} (h : l.addr + 4 ≤ flashEnd) :
    (load32 l).run (device bus) m = some (word m l.addr, m) :=
  (Prog.run_ask _ _).trans (device_load32 h)

/-- A load never changes the contents. -/
theorem device_load32_mem {l : Lval} {w : UInt32} {m' : Mem}
    (h : device bus (.load32 l) m = some (w, m')) : m' = m := by
  obtain ⟨_, _, h⟩ := Option.map_eq_some_iff.mp (show (busWord bus m l.addr).map _ = _ from h)
  exact (Prod.mk.inj h).2.symm

theorem safe_load8 {l : Lval} {k : UInt8 → FlashM β} (inFlash : l.addr < flashEnd)
    (allowed : E (.load8 l) m) (kept : I m) (rest : (k (m l.addr)).Safe (device bus) I E Q m) :
    (load8 l >>= k).Safe (device bus) I E Q m := by
  refine Prog.safe_ask.mpr ⟨allowed, fun b m' answer => ?_⟩
  rw [device_load8 inFlash] at answer
  obtain ⟨rfl, rfl⟩ := Prod.mk.inj (Option.some.inj answer)
  exact ⟨kept, rest⟩

theorem safe_load32 {l : Lval} {k : UInt32 → FlashM β} (inFlash : l.addr + 4 ≤ flashEnd)
    (allowed : E (.load32 l) m) (kept : I m) (rest : (k (word m l.addr)).Safe (device bus) I E Q m) :
    (load32 l >>= k).Safe (device bus) I E Q m := by
  refine Prog.safe_ask.mpr ⟨allowed, fun w m' answer => ?_⟩
  rw [device_load32 inFlash] at answer
  obtain ⟨rfl, rfl⟩ := Prod.mk.inj (Option.some.inj answer)
  exact ⟨kept, rest⟩

theorem safe_load8_value {l : Lval} (inFlash : l.addr < flashEnd) (allowed : E (.load8 l) m)
    (kept : I m) : (load8 l).Safe (device bus) I E (fun b m' => b = m l.addr ∧ m = m') m := by
  refine ⟨allowed, fun b m' answer => ?_⟩
  rw [device_load8 inFlash] at answer
  obtain ⟨rfl, rfl⟩ := Prod.mk.inj (Option.some.inj answer)
  exact ⟨kept, rfl, rfl⟩

theorem safe_load32_value {l : Lval} (inFlash : l.addr + 4 ≤ flashEnd) (allowed : E (.load32 l) m)
    (kept : I m) : (load32 l).Safe (device bus) I E (fun w m' => w = word m l.addr ∧ m = m') m := by
  refine ⟨allowed, fun w m' answer => ?_⟩
  rw [device_load32 inFlash] at answer
  obtain ⟨rfl, rfl⟩ := Prod.mk.inj (Option.some.inj answer)
  exact ⟨kept, rfl, rfl⟩

/-- A load from anywhere: if it is answered, the contents are what they were. -/
theorem safe_load32_any {l : Lval} {k : UInt32 → FlashM β} (allowed : E (.load32 l) m) (kept : I m)
    (rest : ∀ w, (k w).Safe (device bus) I E Q m) : (load32 l >>= k).Safe (device bus) I E Q m := by
  refine Prog.safe_ask.mpr ⟨allowed, fun w m' answer => ?_⟩
  obtain rfl := device_load32_mem answer
  exact ⟨kept, rest w⟩

theorem safe_load32_det {l : Lval} (allowed : E (.load32 l) m) (kept : I m) :
    (load32 l).Safe (device bus) I E
      (fun w m' => w = (busWord bus m l.addr).getD 0 ∧ m = m') m := by
  refine ⟨allowed, fun w m' answer => ?_⟩
  obtain ⟨v, read, same⟩ :=
    Option.map_eq_some_iff.mp (show (busWord bus m l.addr).map (·, m) = some (w, m') from answer)
  obtain ⟨rfl, rfl⟩ := Prod.mk.inj same
  exact ⟨kept, by rw [read]; rfl, rfl⟩

theorem safe_load8_det {l : Lval} (allowed : E (.load8 l) m) (kept : I m) :
    (load8 l).Safe (device bus) I E
      (fun w m' => w = (busByte bus m l.addr).getD 0 ∧ m = m') m := by
  refine ⟨allowed, fun w m' answer => ?_⟩
  obtain ⟨v, read, same⟩ :=
    Option.map_eq_some_iff.mp (show (busByte bus m l.addr).map (·, m) = some (w, m') from answer)
  obtain ⟨rfl, rfl⟩ := Prod.mk.inj same
  exact ⟨kept, by rw [read]; rfl, rfl⟩

end Loads

/-! ### Commands -/

section Commands

variable {bus : Nat → Option UInt8} {I : Mem → Prop} {E : Req → Mem → Prop} {m : Mem}
  {Q : Int → Mem → Prop}

theorem safe_cmd {cmd : UInt8} {addr data1 data2 : UInt32} {m' : Mem}
    (effect : execCmd ⟨cmd, addr &&& 0xffffff, data1, data2⟩ m = (statusOk, m'))
    (allowed : E (.cmd ⟨cmd, addr &&& 0xffffff, data1, data2⟩) m) (kept : I m')
    (post : Q F_ERR_OK m') :
    (kinetis_flash_cmd cmd addr data1 data2).Safe (device bus) I E Q m := by
  refine Prog.safe_ask.mpr ⟨allowed, fun fstat m₁ answer => ?_⟩
  have answer : some (execCmd ⟨cmd, addr &&& 0xffffff, data1, data2⟩ m) = some (fstat, m₁) := answer
  rw [effect] at answer
  obtain ⟨rfl, rfl⟩ := Prod.mk.inj (Option.some.inj answer)
  exact ⟨kept, post⟩

theorem fill_fill (m : Mem) (a n k : Nat) : fill (fill m a n) (a + n) k = fill m a (n + k) := by
  funext x
  simp only [fill]
  split_ifs <;> first | rfl | omega

theorem blank_fill (m : Mem) (a n : Nat) : Blank (fill m a n) a n := by
  intro j hj
  rw [fill, if_pos (by omega)]

theorem Blank.mono {a n b k : Nat} (h : Blank m a n) (lo : a ≤ b) (hi : b + k ≤ a + n) :
    Blank m b k := by
  intro j hj
  have := h (b - a + j) (by omega)
  rwa [show a + (b - a + j) = b + j by omega] at this

theorem Blank.word {a n b : Nat} (h : Blank m a n) (lo : a ≤ b) (hi : b + 4 ≤ a + n) :
    word m b = blank :=
  word_eq_blank_iff.mpr (h.mono (k := 4) lo hi)

/-! ### `flashEraseSectors` -/

theorem sector_addr {d : UInt32} (h : d.toNat < 32) :
    ((d * FTFx_PSECTOR_SIZE) &&& 0xffffff).toNat = d.toNat * 1024 := by
  have sector : FTFx_PSECTOR_SIZE.toNat = 1024 := rfl
  rw [toNat_and_24, UInt32.toNat_mul, sector]
  omega

theorem execCmd_erase {d : UInt32} {data1 data2 : UInt32} (h : d.toNat < 32) :
    execCmd ⟨FTFx_CMD_SECTERASE, (d * FTFx_PSECTOR_SIZE) &&& 0xffffff, data1, data2⟩ m =
      (statusOk, fill m (d.toNat * 1024) 1024) := by
  have inFlash : ¬ flashEnd ≤ d.toNat * 1024 := by unfold flashEnd; omega
  simp only [execCmd, sector_addr h, if_neg inFlash, if_true]
  rw [Nat.mul_div_cancel _ (by omega)]

theorem execCmd_sectstat {d : UInt32} {margin : Nat} (h : d.toNat < 32) (hm : margin < 3)
    (erased : Blank m (d.toNat * 1024) 1024) :
    execCmd ⟨FTFx_CMD_SECTSTAT, (d * FTFx_PSECTOR_SIZE) &&& 0xffffff,
      MAKE_FCCOB ((FTFx_PSECTOR_SIZE / 4) >>> 8) (FTFx_PSECTOR_SIZE / 4) (UInt32.ofNat margin) 0,
      0⟩ m = (statusOk, m) := by
  have inFlash : ¬ flashEnd ≤ d.toNat * 1024 := by unfold flashEnd; omega
  have longwords : (MAKE_FCCOB ((FTFx_PSECTOR_SIZE / 4) >>> 8) (FTFx_PSECTOR_SIZE / 4)
      (UInt32.ofNat margin) 0 >>> 16).toNat = 256 := by
    interval_cases margin <;> rfl
  simp only [execCmd, sector_addr h, if_neg inFlash, longwords, if_pos erased]
  rfl

theorem safe_eraseLoop {k : Nat} {d : UInt32} (fits : d.toNat + k ≤ 32)
    (allowed : ∀ c m, c.size = 1024 → E (.cmd c) m)
    (kept : ∀ j, 1 ≤ j → j ≤ k → I (fill m (d.toNat * 1024) (j * 1024))) :
    (eraseLoop k d F_ERR_OK).Safe (device bus) I E
      (fun r m' => r = F_ERR_OK ∧ m' = fill m (d.toNat * 1024) (k * 1024)) m := by
  induction k generalizing d m with
  | zero =>
      refine ⟨rfl, ?_⟩
      funext x
      rw [fill, if_neg (by omega)]
  | succ k ih =>
      have next : (d + 1).toNat = d.toNat + 1 := by
        rw [UInt32.toNat_add]
        exact Nat.mod_eq_of_lt (by change d.toNat + 1 < _; omega)
      have step : ∀ j, fill (fill m (d.toNat * 1024) 1024) ((d + 1).toNat * 1024) (j * 1024) =
          fill m (d.toNat * 1024) ((j + 1) * 1024) := by
        intro j
        rw [next, show (d.toNat + 1) * 1024 = d.toNat * 1024 + 1024 by omega, fill_fill,
          show 1024 + j * 1024 = (j + 1) * 1024 by omega]
      have first : I (fill m (d.toNat * 1024) 1024) := by
        simpa using kept 1 (Nat.le_refl _) (by omega)
      refine Prog.Safe.bind (Q := fun r m' => r = F_ERR_OK ∧ m' = fill m (d.toNat * 1024) 1024)
        (safe_cmd (execCmd_erase (by omega)) (allowed _ _ rfl) first ⟨rfl, rfl⟩) ?_
      rintro _ _ ⟨rfl, rfl⟩
      rw [if_pos rfl]
      -- the margin checks see the sector that was just erased
      refine Prog.Safe.bind (Prog.safe_loop
        (L := fun _ r m' => r = F_ERR_OK ∧ m' = fill m (d.toNat * 1024) 1024) ⟨rfl, rfl⟩ ?_) ?_
      · rintro j _ _ _ hj ⟨rfl, rfl⟩
        exact safe_cmd (execCmd_sectstat (by omega) (by omega) (blank_fill _ _ _))
          (allowed _ _ rfl) first ⟨rfl, rfl⟩
      · rintro _ _ ⟨rfl, rfl⟩
        rw [← step k]
        refine ih (by omega) fun j lo hi => ?_
        rw [step j]
        exact kept (j + 1) (by omega) (by omega)

/-- Erasing the storage area, sector by sector from the header up. -/
theorem safe_flashEraseSectors
    (allowed : ∀ c m, c.size = 1024 → E (.cmd c) m)
    (kept : ∀ j, 1 ≤ j → j ≤ 10 → I (fill m storage (j * 1024))) :
    (flashEraseSectors 22 10).Safe (device bus) I E
      (fun r m' => r = F_ERR_OK ∧ m' = fill m storage 10240) m :=
  safe_eraseLoop (k := 10) (d := 22) (by decide) allowed kept

/-! ### `flashProgram` -/

/-- The first `n` bytes of `src` copied to `dest`. -/
def copyTo (m : Mem) (dest : Nat) (src : Mem) (n : Nat) : Mem :=
  fun x => if dest ≤ x ∧ x < dest + n then src (x - dest) else m x

theorem copyTo_zero (m : Mem) (dest : Nat) (src : Mem) : copyTo m dest src 0 = m := by
  funext x
  rw [copyTo, if_neg (by omega)]

theorem copyTo_of_lt {dest n x : Nat} {src : Mem} (h : x < dest ∨ dest + n ≤ x) :
    copyTo m dest src n x = m x := by
  rw [copyTo, if_neg (by omega)]

theorem copyTo_of_mem {dest n x : Nat} {src : Mem} (lo : dest ≤ x) (hi : x < dest + n) :
    copyTo m dest src n x = src (x - dest) := by
  rw [copyTo, if_pos ⟨lo, hi⟩]

theorem word_copyTo_of_disjoint {dest n a : Nat} {src : Mem} (h : a + 4 ≤ dest ∨ dest + n ≤ a) :
    word (copyTo m dest src n) a = word m a :=
  word_congr fun j hj => copyTo_of_lt (by omega)

theorem word_copyTo {dest n j : Nat} {src : Mem} (h : j + 4 ≤ n) :
    word (copyTo m dest src n) (dest + j) = word src j := by
  have byte : ∀ i, i < 4 → copyTo m dest src n (dest + j + i) = src (j + i) := by
    intro i hi
    rw [copyTo_of_mem (by omega) (by omega), show dest + j + i - dest = j + i by omega]
  simp only [word]
  rw [show copyTo m dest src n (dest + j) = src j from byte 0 (by omega), byte 1 (by omega),
    byte 2 (by omega), byte 3 (by omega)]

/-- The next word of the copy. -/
theorem setWord_copyTo (m : Mem) (dest : Nat) (src : Mem) (j : Nat) :
    setWord (copyTo m dest src (4 * j)) (dest + 4 * j) (word src (4 * j)) =
      copyTo m dest src (4 * (j + 1)) := by
  funext x
  by_cases here : dest + 4 * j ≤ x ∧ x < dest + 4 * j + 4
  · obtain ⟨i, rfl⟩ := Nat.exists_eq_add_of_le here.1
    rw [setWord_word (by omega), copyTo_of_mem (by omega) (by omega)]
    congr 1
    omega
  · rw [setWord_of_disjoint (by omega)]
    simp only [copyTo]
    split_ifs <;> first | rfl | omega

theorem word_addr {dest : UInt32} {j : Nat} (h : dest.toNat + 4 * j < flashEnd) :
    ((dest + UInt32.ofNat (4 * j)) &&& 0xffffff).toNat = dest.toNat + 4 * j := by
  unfold flashEnd at h
  rw [toNat_and_24, UInt32.toNat_add, UInt32.toNat_ofNat']
  omega

theorem toNat_ofNat_of_lt {n : Nat} (h : n < 4294967296) : (UInt32.ofNat n).toNat = n := by
  rw [UInt32.toNat_ofNat']
  omega

theorem execCmd_lwordprog {dest : UInt32} {j : Nat} {w : UInt32}
    (inFlash : dest.toNat + 4 * j + 4 ≤ flashEnd) (aligned : dest.toNat % 4 = 0)
    (erased : word m (dest.toNat + 4 * j) = blank) :
    execCmd ⟨FTFx_CMD_LWORDPROG, (dest + UInt32.ofNat (4 * j)) &&& 0xffffff, w, 0⟩ m =
      (statusOk, setWord m (dest.toNat + 4 * j) w) := by
  have notPast : ¬ flashEnd ≤ dest.toNat + 4 * j := by omega
  have offset : (dest.toNat + 4 * j) % 4 = 0 := by omega
  simp only [execCmd, word_addr (by omega : dest.toNat + 4 * j < flashEnd), if_neg notPast, offset,
    erased, blank_and, and_true, if_true]
  rfl

theorem execCmd_progcheck {dest : UInt32} {j : Nat} {w data1 : UInt32}
    (inFlash : dest.toNat + 4 * j + 4 ≤ flashEnd) (aligned : dest.toNat % 4 = 0)
    (same : word m (dest.toNat + 4 * j) = w) :
    execCmd ⟨FTFx_CMD_PROGCHECK, (dest + UInt32.ofNat (4 * j)) &&& 0xffffff, data1, w⟩ m =
      (statusOk, m) := by
  have notPast : ¬ flashEnd ≤ dest.toNat + 4 * j := by omega
  have offset : (dest.toNat + 4 * j) % 4 = 0 := by omega
  simp only [execCmd, word_addr (by omega : dest.toNat + 4 * j < flashEnd), if_neg notPast, offset,
    same, and_true, if_true]
  rfl

/-- A call of `flashProgram` has something to do, in the user area and word by word. -/
structure Checked (src : Source) (dest count : UInt32) : Prop where
  positive : 0 < count.toNat
  lo : storage ≤ dest.toNat
  hi : dest.toNat + count.toNat ≤ flashEnd
  dest_aligned : dest.toNat % 4 = 0
  count_aligned : count.toNat % 4 = 0
  src_aligned : src.addr % 4 = 0

theorem toNat_mod_four {x : UInt32} : x % 4 = 0 ↔ x.toNat % 4 = 0 := by
  rw [← UInt32.toNat_inj, UInt32.toNat_mod]
  rfl

theorem flashProgram_checked {src : Source} {dest count : UInt32} (h : Checked src dest count) :
    flashProgram src dest count = (do
      let erased ← destBlank dest count.toNat 0
      if erased then do
        let ret ← programLoop src dest (count.toNat / 4)
        if ret = F_ERR_OK then do
          let ret ← checkLoop src dest (count.toNat / 4)
          if ret = F_ERR_OK then .ret ret else .ret F_ERR_U_MARGIN
        else .ret ret
      else .ret F_ERR_NOTBLANK) := by
  obtain ⟨positive, lo, hi, dest_aligned, count_aligned, src_aligned⟩ := h
  have nonzero : count ≠ 0 := by
    rintro rfl
    exact absurd positive (by decide)
  have inRange : ¬ (dest < F_USER_SECTOR_START * FTFx_PSECTOR_SIZE ∨
      dest + count > P_FLASH_BASE + P_FLASH_SIZE) := by
    change ¬ (dest.toNat < 0x5800 ∨ 32768 < (dest + count).toNat)
    rw [UInt32.toNat_add]
    unfold storage flashEnd at *
    omega
  have isAligned : ¬ (count % 4 ≠ 0 ∨ dest % 4 ≠ 0 ∨ src.addr % 4 ≠ 0) := by
    simp [toNat_mod_four.mpr count_aligned, toNat_mod_four.mpr dest_aligned, src_aligned]
  unfold flashProgram
  rw [if_neg nonzero, if_neg inRange, if_neg isAligned]

/-- A call that fails one of the checks, and whose sum does not wrap, returns at once. -/
theorem flashProgram_refused {src : Source} {dest count : UInt32} (h : ¬ Checked src dest count)
    (fits : dest.toNat + count.toNat < 2 ^ 32) :
    (count = 0 ∧ flashProgram src dest count = .ret F_ERR_OK) ∨
      flashProgram src dest count = .ret F_ERR_RANGE ∨
      flashProgram src dest count = .ret F_ERR_NOTALIGN := by
  unfold flashProgram
  split_ifs with zero range aligned
  · exact .inl ⟨zero, rfl⟩
  · exact .inr (.inl rfl)
  · exact .inr (.inr rfl)
  · have range : ¬ (dest.toNat < 0x5800 ∨ 32768 < (dest + count).toNat) := range
    rw [UInt32.toNat_add] at range
    simp only [not_or, not_not] at aligned
    refine absurd ⟨?_, ?_, ?_, toNat_mod_four.mp aligned.2.1, toNat_mod_four.mp aligned.1,
      aligned.2.2⟩ h
    · exact Nat.pos_of_ne_zero fun none => zero (UInt32.toNat_inj.mp none)
    · unfold storage
      omega
    · unfold flashEnd
      omega

/-- The blank check, on any environment that reads the flash without changing its state. -/
theorem safe_destBlank {σ : Type} {H : Handler Req Resp σ} {I : σ → Prop} {E : Req → σ → Prop}
    (mem : σ → Mem) {s : σ}
    (loads : ∀ l : Lval, l.addr < flashEnd → H (.load8 l) s = some (mem s l.addr, s))
    {Q : Bool → σ → Prop} {dest : UInt32} {k i : Nat}
    (inFlash : dest.toNat + i + k ≤ flashEnd)
    (allowed : ∀ j, j < i + k → E (.load8 (.dest (dest.toNat + j))) s) (kept : I s)
    (post : ∀ b, (b = true ↔ Blank (mem s) (dest.toNat + i) k) → Q b s) :
    (destBlank dest k i).Safe H I E Q s := by
  induction k generalizing i with
  | zero => exact post true (by simp [Blank])
  | succ k ih =>
      have addr : (dest + UInt32.ofNat i).toNat = dest.toNat + i := by
        unfold flashEnd at inFlash
        rw [UInt32.toNat_add, UInt32.toNat_ofNat']
        omega
      have split : Blank (mem s) (dest.toNat + i) (k + 1) ↔
          mem s (dest.toNat + i) = 0xFF ∧ Blank (mem s) (dest.toNat + (i + 1)) k := by
        constructor
        · exact fun h => ⟨h 0 (by omega), h.mono (by omega) (by omega)⟩
        · rintro ⟨h₀, h⟩ j hj
          cases j with
          | zero => exact h₀
          | succ j => simpa [Nat.add_assoc, Nat.add_comm 1 j] using h j (by omega)
      rw [destBlank, addr]
      refine Prog.safe_ask.mpr ⟨allowed i (by omega), fun b s' answer => ?_⟩
      rw [loads (.dest (dest.toNat + i)) (show dest.toNat + i < flashEnd by omega)] at answer
      obtain ⟨rfl, rfl⟩ := Prod.mk.inj (Option.some.inj answer)
      refine ⟨kept, ?_⟩
      change Prog.Safe _ _ _ _ (if mem s (dest.toNat + i) = 0xFF then _ else _) s
      split_ifs with first
      · refine ih (by omega) (fun j hj => allowed j (by omega)) fun b hb => post b ?_
        rw [hb, split]
        exact ⟨fun h => ⟨first, h⟩, fun h => h.2⟩
      · refine post false ?_
        rw [split]
        simp [first]

/-- Programming from a source with the contents `bytes`: refused if the destination is
not erased, a copy otherwise, one word at a time from the lowest address. -/
theorem safe_flashProgram_source {src : Source} {bytes : Mem} (dest count : UInt32)
    (checked : Checked src dest count)
    (loads : ∀ i j, i < count.toNat / 4 → j ≤ count.toNat / 4 →
      I (copyTo m dest.toNat bytes (4 * j)) →
      (src.word (UInt32.ofNat (4 * i))).Safe (device bus) I E
        (fun w m' => w = word bytes (4 * i) ∧ m' = copyTo m dest.toNat bytes (4 * j))
        (copyTo m dest.toNat bytes (4 * j)))
    (reads : ∀ j, j < count.toNat → E (.load8 (.dest (dest.toNat + j))) m)
    (programs : Blank m dest.toNat count.toNat → ∀ j c, j < count.toNat / 4 →
      c.code = FTFx_CMD_LWORDPROG → c.addr.toNat = dest.toNat + 4 * j →
      c.data1 = word bytes (4 * j) → E (.cmd c) (copyTo m dest.toNat bytes (4 * j)))
    (checks : Blank m dest.toNat count.toNat → ∀ j c, j < count.toNat / 4 →
      c.code = FTFx_CMD_PROGCHECK → c.addr.toNat = dest.toNat + 4 * j →
      E (.cmd c) (copyTo m dest.toNat bytes count.toNat))
    (kept : ∀ j, j ≤ count.toNat / 4 → (0 < j → Blank m dest.toNat count.toNat) →
      I (copyTo m dest.toNat bytes (4 * j))) :
    (flashProgram src dest count).Safe (device bus) I E
      (fun r m' => (Blank m dest.toNat count.toNat ∧ r = F_ERR_OK ∧
          m' = copyTo m dest.toNat bytes count.toNat) ∨
        (¬ Blank m dest.toNat count.toNat ∧ r = F_ERR_NOTBLANK ∧ m' = m)) m := by
  have words := checked.count_aligned
  have aligned := checked.dest_aligned
  have hi := checked.hi
  have total : 4 * (count.toNat / 4) = count.toNat := by omega
  have initial : I m := by simpa [copyTo_zero] using kept 0 (by omega) (by omega)
  rw [flashProgram_checked checked]
  refine Prog.Safe.bind (safe_destBlank id (i := 0) (fun l => device_load8)
    (Q := fun b m' => m = m' ∧ (b = true ↔ Blank m dest.toNat count.toNat)) (by omega)
    (fun j hj => reads j (by omega)) initial fun b hb => ⟨rfl, hb⟩) ?_
  rintro erased _ ⟨rfl, hblank⟩
  split_ifs with h
  swap
  · exact .inr ⟨fun b => h (hblank.mpr b), rfl, rfl⟩
  have hb := hblank.mp h
  refine Prog.Safe.bind (Prog.safe_loop (n := count.toNat / 4)
    (L := fun j r m' => r = F_ERR_OK ∧ m' = copyTo m dest.toNat bytes (4 * j))
    ⟨rfl, (copyTo_zero _ _ _).symm⟩ ?_) ?_
  · rintro j _ _ _ hj ⟨rfl, rfl⟩
    have hj : j < count.toNat / 4 := by omega
    have target : word (copyTo m dest.toNat bytes (4 * j)) (dest.toNat + 4 * j) = blank := by
      rw [word_copyTo_of_disjoint (by omega)]
      exact hb.word (by omega) (by omega)
    refine (loads j j hj hj.le (kept j hj.le fun _ => hb)).bind ?_
    rintro _ _ ⟨rfl, rfl⟩
    refine safe_cmd (execCmd_lwordprog (by omega) aligned target)
      (programs hb j _ hj rfl (word_addr (by omega)) rfl) ?_ ⟨rfl, setWord_copyTo _ _ _ _⟩
    rw [setWord_copyTo]
    exact kept (j + 1) (by omega) fun _ => hb
  rintro _ _ ⟨rfl, rfl⟩
  rw [if_pos rfl, Nat.zero_add, total]
  have full : I (copyTo m dest.toNat bytes count.toNat) := by
    simpa [total] using kept (count.toNat / 4) (Nat.le_refl _) fun _ => hb
  refine Prog.Safe.bind (Prog.safe_loop (n := count.toNat / 4)
    (L := fun _ r m' => r = F_ERR_OK ∧ m' = copyTo m dest.toNat bytes count.toNat)
    ⟨rfl, rfl⟩ ?_) ?_
  · rintro j _ _ _ hj ⟨rfl, rfl⟩
    have hj : j < count.toNat / 4 := by omega
    have load := loads j (count.toNat / 4) hj le_rfl
    rw [total] at load
    refine (load full).bind ?_
    rintro _ _ ⟨rfl, rfl⟩
    exact safe_cmd (execCmd_progcheck (by omega) aligned (word_copyTo (by omega)))
      (checks hb j _ hj rfl (word_addr (by omega))) full ⟨rfl, rfl⟩
  rintro _ _ ⟨rfl, rfl⟩
  rw [if_pos rfl]
  exact .inl ⟨hb, rfl, rfl⟩

/-- Programming a buffer in RAM. -/
theorem safe_flashProgram {src : Mem} {ram : UInt32} (dest count : UInt32)
    (positive : 0 < count.toNat) (lo : storage ≤ dest.toNat)
    (hi : dest.toNat + count.toNat ≤ flashEnd) (aligned : dest.toNat % 4 = 0)
    (words : count.toNat % 4 = 0) (source : ram % 4 = 0)
    (reads : ∀ j, j < count.toNat → E (.load8 (.dest (dest.toNat + j))) m)
    (programs : Blank m dest.toNat count.toNat → ∀ j c, j < count.toNat / 4 →
      c.code = FTFx_CMD_LWORDPROG → c.addr.toNat = dest.toNat + 4 * j →
      c.data1 = word src (4 * j) → E (.cmd c) (copyTo m dest.toNat src (4 * j)))
    (checks : Blank m dest.toNat count.toNat → ∀ j c, j < count.toNat / 4 →
      c.code = FTFx_CMD_PROGCHECK → c.addr.toNat = dest.toNat + 4 * j →
      E (.cmd c) (copyTo m dest.toNat src count.toNat))
    (kept : ∀ j, j ≤ count.toNat / 4 → (0 < j → Blank m dest.toNat count.toNat) →
      I (copyTo m dest.toNat src (4 * j))) :
    (flashProgram (.ram ram src) dest count).Safe (device bus) I E
      (fun r m' => (Blank m dest.toNat count.toNat ∧ r = F_ERR_OK ∧
          m' = copyTo m dest.toNat src count.toNat) ∨
        (¬ Blank m dest.toNat count.toNat ∧ r = F_ERR_NOTBLANK ∧ m' = m)) m := by
  refine safe_flashProgram_source dest count ⟨positive, lo, hi, aligned, words, source⟩
    (fun i j hi _ _ => ?_) reads programs checks kept
  have small := count.toNat_lt
  have offset : (UInt32.ofNat (4 * i)).toNat = 4 * i := toNat_ofNat_of_lt (by omega)
  exact ⟨congrArg (word src) offset, rfl⟩

/-- A destination that ends past the flash is refused at once. -/
theorem flashProgram_out_of_range {src : Source} {dest count : UInt32} (positive : 0 < count.toNat)
    (past : flashEnd < (dest + count).toNat) : flashProgram src dest count = .ret F_ERR_RANGE := by
  have nonzero : count ≠ 0 := by
    rintro rfl
    exact absurd positive (by decide)
  have range : dest < F_USER_SECTOR_START * FTFx_PSECTOR_SIZE ∨
      dest + count > P_FLASH_BASE + P_FLASH_SIZE := .inr past
  rw [flashProgram, if_neg nonzero, if_pos range]

end Commands

end LtcOs.Flash
