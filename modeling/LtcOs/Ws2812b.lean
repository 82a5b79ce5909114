import LtcOs.Lib.Thumb
import LtcOs.ArduinoProtection

/-!
The LED strip driver of `ws2812b.c` and `ws2812b_ll.s`: the instructions of `ledUpdate`, what they
do to the pin, and when.
-/

namespace LtcOs.Ws2812b

open LtcOs.Memory LtcOs.Thumb

/-! ### The program -/

def load_next_pixel : UInt32 := 10
def send_next_bit : UInt32 := 22
def pixloop_fromtop : UInt32 := 30
def oneBranch : UInt32 := 38
def exit : UInt32 := 62
def wait_14_cycles : UInt32 := 64
def wait_11_cycles : UInt32 := 66
def wait_8_cycles : UInt32 := 68
def wait_5_cycles : UInt32 := 70

section Program

variable (base : UInt32)

def eclr : Reg := .r4
def eset : Reg := .r3
def bitmask : Reg := .r2
def curpix : Reg := .r5
def stop : Reg := .r0
def bit : Reg := .r6
def fbptr : Reg := .r1

def ledUpdate : Code where
  base := base
  instrs := [
    .push [.r4, .r5, .r6, .r7, .lr],
    .ldr eclr .sp 20,
    .movs bit 3,
    .muls stop bit,
    .addsReg stop fbptr,
    -- load_next_pixel
    .str bitmask eset 0,
    .movs bit 8,
    .ldrb curpix fbptr,
    .lsls curpix 24,
    .adds fbptr 1,
    .b (base + pixloop_fromtop),
    -- send_next_bit
    .str bitmask eset 0,
    .bl (base + wait_5_cycles),
    .ldr eclr .sp 20,
    -- pixloop_fromtop
    .ldr eclr .sp 20,
    .lsls curpix 1,
    .bCond .cs (base + oneBranch),
    -- zeroBranch
    .str bitmask eclr 0,
    -- oneBranch
    .bl (base + wait_14_cycles),
    .bl (base + wait_14_cycles),
    .str bitmask eclr 0,
    .bl (base + wait_11_cycles),
    .subs bit 1,
    .bCond .ne (base + send_next_bit),
    .cmp fbptr stop,
    .bCond .ne (base + load_next_pixel),
    .b (base + exit),
    -- exit
    .popPc [.r4, .r5, .r6, .r7],
    -- wait_14_cycles
    .b (base + wait_11_cycles),
    -- wait_11_cycles
    .b (base + wait_8_cycles),
    -- wait_8_cycles
    .b (base + wait_5_cycles),
    -- wait_5_cycles
    .bx .lr]

end Program

/-! ### Waiting -/

section Wait

variable {M : Machine} {base : UInt32} {s : State}

/-- The return address is that of the `bl` before. -/
structure Waiting (base k : UInt32) (s : State) : Prop where
  pc : s.pc = base + k
  thumb : hasBit (s.regs .lr) 0 = true

theorem Waiting.jump {k l : UInt32} {cycles : Nat} (waiting : Waiting base k s) :
    Waiting base l (s.jump (base + l) cycles) := ⟨rfl, waiting.thumb⟩

theorem wait_5 (waiting : Waiting base wait_5_cycles s) :
    Steps M (ledUpdate base) s (s.jump (s.regs .lr - 1) M.costs.ret) := by
  apply Relation.ReflTransGen.single
  apply step_at (i := .bx .lr) waiting.pc rfl
  rw [exec, branchTo, if_pos waiting.thumb]

/-- A branch of the chain adds its cycles. -/
theorem wait_chain {k l : UInt32} {cycles : Nat} (waiting : Waiting base k s)
    (here : fetch (ledUpdate base).instrs k.toNat = some (.b (base + l)))
    (rest : ∀ t, Waiting base l t →
      Steps M (ledUpdate base) t (t.jump (t.regs .lr - 1) cycles)) :
    Steps M (ledUpdate base) s (s.jump (s.regs .lr - 1) (M.costs.taken + cycles)) := by
  have first : Step M (ledUpdate base) s (s.jump (base + l) M.costs.taken) :=
    step_at waiting.pc here rfl
  have others := rest (s.jump (base + l) M.costs.taken) waiting.jump
  simp only [State.jump, Nat.add_assoc] at others
  exact .head first others

theorem wait_8 (waiting : Waiting base wait_8_cycles s) :
    Steps M (ledUpdate base) s (s.jump (s.regs .lr - 1) (M.costs.taken + M.costs.ret)) :=
  wait_chain waiting rfl fun _ waiting => wait_5 waiting

theorem wait_11 (waiting : Waiting base wait_11_cycles s) :
    Steps M (ledUpdate base) s
      (s.jump (s.regs .lr - 1) (M.costs.taken + (M.costs.taken + M.costs.ret))) :=
  wait_chain waiting rfl fun _ waiting => wait_8 waiting

theorem wait_14 (waiting : Waiting base wait_14_cycles s) :
    Steps M (ledUpdate base) s
      (s.jump (s.regs .lr - 1)
        (M.costs.taken + (M.costs.taken + (M.costs.taken + M.costs.ret)))) :=
  wait_chain waiting rfl fun _ waiting => wait_11 waiting

/-- A call of one of them changes the link register and takes its time. -/
theorem call_wait {k l : UInt32} {cycles : Nat} (pc : s.pc = base + k)
    (even : (base + k + 4).toNat % 2 = 0)
    (here : fetch (ledUpdate base).instrs k.toNat = some (.bl (base + l)))
    (wait : ∀ t, Waiting base l t →
      Steps M (ledUpdate base) t (t.jump (t.regs .lr - 1) cycles)) :
    Steps M (ledUpdate base) s
      ((s.set .lr (s.pc + 4 ||| 1)).next 4 (M.costs.call + cycles)) := by
  have first : Step M (ledUpdate base) s
      ((s.set .lr (s.pc + 4 ||| 1)).jump (base + l) M.costs.call) := step_at pc here rfl
  have waiting : Waiting base l ((s.set .lr (s.pc + 4 ||| 1)).jump (base + l) M.costs.call) := by
    refine ⟨rfl, ?_⟩
    simp [hasBit_or_one]
  have others := wait _ waiting
  have back : ((s.set .lr (s.pc + 4 ||| 1)).jump (base + l) M.costs.call).regs .lr - 1 =
      s.pc + 4 := by
    rw [pc]
    simpa using or_one_sub_one even
  rw [back] at others
  simp only [State.jump, Nat.add_assoc] at others
  exact .head first others

end Wait

/-! ### The waveform -/

section Signal

variable (c : Costs)

def cycles_5 : Nat := c.call + c.ret

def cycles_11 : Nat := c.call + (c.taken + (c.taken + c.ret))

def cycles_14 : Nat := c.call + (c.taken + (c.taken + (c.taken + c.ret)))

/-- A bit with its place in a byte. -/
structure Slot where
  first : Bool
  last : Bool
  value : Bool
deriving DecidableEq, Repr

/-- From the store that sets the pin to `pixloop_fromtop`. -/
def lead (first : Bool) : Nat :=
  if first then c.alu + c.load + c.alu + c.alu + c.taken else cycles_5 c + c.load

/-- How long the pin is set. -/
def high (x : Slot) : Nat :=
  lead c x.first + c.load + c.alu +
    (if x.value then c.taken + cycles_14 c + cycles_14 c else c.notTaken) + c.port

/-- From the store that clears the pin to the end of the last wait. -/
def tail (x : Slot) : Nat :=
  (if x.value then 0 else cycles_14 c + cycles_14 c + c.port) + cycles_11 c

/-- How long it is clear until it is set for the next bit. -/
def low (x : Slot) : Nat :=
  tail c x + c.alu + (if x.last then c.notTaken + c.alu + c.taken else c.taken) + c.port

variable (set_addr clr_addr mask : UInt32)

/-- The stores for a bit after the one that sets the pin. A zero bit clears the pin early, and once
more where a one bit does. -/
def falls (rise : Nat) (x : Slot) : List Event :=
  if x.value then [⟨rise + high c x, clr_addr, mask⟩]
  else [⟨rise + high c x, clr_addr, mask⟩,
    ⟨rise + high c x + cycles_14 c + cycles_14 c + c.port, clr_addr, mask⟩]

def signal : (rise : Nat) → List Slot → List Event
  | _, [] => []
  | rise, x :: xs =>
      ⟨rise, set_addr, mask⟩ :: falls c clr_addr mask rise x ++
        signal (rise + high c x + low c x) xs

/-- The bits of a word from the highest one down. -/
def slots : (first : Bool) → (v : UInt32) → (n : Nat) → List Slot
  | _, _, 0 => []
  | first, v, n + 1 => ⟨first, n == 0, hasBit v 31⟩ :: slots false (v <<< 1) n

/-- The bits of a byte, the highest one first. -/
def byteSlots (byte : UInt8) : List Slot :=
  (List.range 8).map fun j => ⟨j == 0, j + 1 == 8, byte.toNat.testBit (7 - j)⟩

def duration : List Slot → Nat
  | [] => 0
  | x :: xs => high c x + low c x + duration xs

theorem duration_append (xs ys : List Slot) :
    duration c (xs ++ ys) = duration c xs + duration c ys := by
  induction xs with
  | nil => rw [List.nil_append, duration, Nat.zero_add]
  | cons x xs ih =>
      rw [List.cons_append, duration, duration, ih]
      omega

theorem signal_append (rise : Nat) (xs ys : List Slot) :
    signal c set_addr clr_addr mask rise (xs ++ ys) =
      signal c set_addr clr_addr mask rise xs ++
        signal c set_addr clr_addr mask (rise + duration c xs) ys := by
  induction xs generalizing rise with
  | nil => rw [List.nil_append, signal, duration, Nat.add_zero, List.nil_append]
  | cons x xs ih =>
      rw [List.cons_append, signal, signal, ih, duration, List.append_assoc, ← Nat.add_assoc,
        ← Nat.add_assoc]

end Signal

theorem hasBit_shiftLeft {v : UInt32} {i k : Nat} (lt : i < 32) (le : k ≤ i) :
    hasBit (v <<< UInt32.ofNat k) i = hasBit v (i - k) := by
  have small : (UInt32.ofNat k).toNat % 32 = k := by
    rw [UInt32.toNat_ofNat', Nat.mod_eq_of_lt (by omega)]
    exact Nat.mod_eq_of_lt (by omega)
  simp only [hasBit, UInt32.toNat_shiftLeft, small, Nat.testBit_mod_two_pow, Nat.testBit_shiftLeft,
    lt, le, decide_true, Bool.true_and]

theorem slots_eq {f : Bool} {v : UInt32} {n : Nat} (small : n ≤ 32) :
    slots f v n =
      (List.range n).map fun j => ⟨f && j == 0, j + 1 == n, hasBit v (31 - j)⟩ := by
  induction n generalizing f v with
  | zero => rfl
  | succ n ih =>
      rw [slots, ih (by omega), List.range_succ_eq_map, List.map_cons, List.map_map]
      congr 1
      · simp
      · apply List.map_congr_left
        intro j lt
        have bound := List.mem_range.mp lt
        have shifted : hasBit (v <<< 1) (31 - j) = hasBit v (31 - j - 1) :=
          hasBit_shiftLeft (k := 1) (by omega) (by omega)
        simp [shifted, Nat.sub_sub]

theorem slots_byte (byte : UInt8) : slots true (byte.toUInt32 <<< 24) 8 = byteSlots byte := by
  rw [slots_eq (by decide), byteSlots]
  apply List.map_congr_left
  intro j lt
  have bound := List.mem_range.mp lt
  have shifted :
      hasBit (byte.toUInt32 <<< 24) (31 - j) = byte.toUInt32.toNat.testBit (31 - j - 24) :=
    hasBit_shiftLeft (k := 24) (by omega) (by omega)
  rw [shifted, UInt8.toNat_toUInt32, show 31 - j - 24 = 7 - j by omega, Bool.true_and]

theorem add_one_add_ofNat (p : UInt32) (k : Nat) :
    p + 1 + UInt32.ofNat k = p + UInt32.ofNat (k + 1) := by
  have succ : UInt32.ofNat (k + 1) = UInt32.ofNat k + 1 := UInt32.ofNat_add k 1
  rw [succ, UInt32.add_assoc, UInt32.add_comm 1]

/-- The bytes from an address on. -/
def bytesFrom (m : Mem) (p : UInt32) : (k : Nat) → List UInt8
  | 0 => []
  | k + 1 => m p.toNat :: bytesFrom m (p + 1) k

/-- The slots of the bits of bytes, in the order they are sent. -/
def pixelSlots (bytes : List UInt8) : List Slot := bytes.flatMap byteSlots

theorem bytesFrom_succ (m : Mem) (p : UInt32) (k : Nat) :
    bytesFrom m p (k + 1) = bytesFrom m p k ++ [m (p + UInt32.ofNat k).toNat] := by
  induction k generalizing p with
  | zero =>
      rw [bytesFrom, show p + UInt32.ofNat 0 = p from UInt32.add_zero p]
      rfl
  | succ k ih =>
      rw [bytesFrom, ih (p + 1), bytesFrom, add_one_add_ofNat]
      rfl

theorem pixelSlots_last (m : Mem) (p : UInt32) (k : Nat) :
    pixelSlots (bytesFrom m p (k + 1)) =
      pixelSlots (bytesFrom m p k) ++ byteSlots (m (p + UInt32.ofNat k).toNat) := by
  rw [bytesFrom_succ, pixelSlots, List.flatMap_append]
  simp [pixelSlots]

theorem pixelSlots_succ (m : Mem) (p : UInt32) (k : Nat) :
    pixelSlots (bytesFrom m p (k + 1)) =
      byteSlots (m p.toNat) ++ pixelSlots (bytesFrom m (p + 1) k) := by
  rw [bytesFrom, pixelSlots, List.flatMap_cons]
  rfl

/-! ### The bits of a byte -/

/-- What does not change while the pixels are sent. -/
structure Setup (M : Machine) (base mask set_addr clr_addr : UInt32) (e : State) : Prop where
  even : base.toNat % 2 = 0
  bitmask_eq : e.regs .r2 = mask
  eset_eq : e.regs .r3 = set_addr
  eclr_eq : e.regs .r4 = clr_addr
  set_aligned : set_addr.toNat % 4 = 0
  set_device : M.device set_addr = true
  clr_aligned : clr_addr.toNat % 4 = 0
  clr_device : M.device clr_addr = true
  argument : load32 M e (e.regs .sp + 20) = some clr_addr

/-- A place in the program, and what changes from place to place. -/
structure Point where
  place : UInt32
  fbptr : UInt32
  curpix : UInt32
  bit : UInt32
  time : Nat
  log : List Event

structure At (base : UInt32) (e : State) (x : Point) (s : State) : Prop where
  pc : s.pc = base + x.place
  fbptr_eq : s.regs .r1 = x.fbptr
  curpix_eq : s.regs .r5 = x.curpix
  bit_eq : s.regs .r6 = x.bit
  time : s.time = x.time
  log : s.log = x.log
  regs : ∀ r, r ≠ .r1 → r ≠ .r5 → r ≠ .r6 → r ≠ .lr → s.regs r = e.regs r
  mem : s.mem = e.mem

/-- From one place the program comes to the other. -/
def Goes (M : Machine) (base : UInt32) (e : State) (x y : Point) : Prop :=
  ∀ s, At base e x s → ∃ t, Steps M (ledUpdate base) s t ∧ At base e y t

section Loop

variable {M : Machine} {base mask set_addr clr_addr : UInt32} {e s : State} {x y z : Point}
  {k p v n w : UInt32} {t cycles : Nat} {l : List Event}

theorem Goes.trans (first : Goes M base e x y) (second : Goes M base e y z) :
    Goes M base e x z := by
  intro s at_x
  obtain ⟨t, steps, at_y⟩ := first s at_x
  obtain ⟨u, steps', at_z⟩ := second t at_y
  exact ⟨u, steps.trans steps', at_z⟩

/-- One instruction. -/
theorem Goes.step {i : Instr} (here : fetch (ledUpdate base).instrs k.toNat = some i)
    (run : ∀ s, At base e ⟨k, p, v, n, t, l⟩ s → ∃ u, exec M s i = some u ∧ At base e y u) :
    Goes M base e ⟨k, p, v, n, t, l⟩ y := by
  intro s at_x
  obtain ⟨u, done, at_y⟩ := run s at_x
  exact ⟨u, .single (step_at at_x.pc here done), at_y⟩

theorem At.next (at_x : At base e ⟨k, p, v, n, t, l⟩ s) :
    At base e ⟨k + 2, p, v, n, t + cycles, l⟩ (s.next 2 cycles) where
  __ := at_x
  pc := add_two at_x.pc
  time := by rw [State.next_time, at_x.time]

theorem At.jump (at_x : At base e ⟨k, p, v, n, t, l⟩ s) :
    At base e ⟨w, p, v, n, t + cycles, l⟩ (s.jump (base + w) cycles) where
  __ := at_x
  pc := rfl
  time := by rw [State.jump_time, at_x.time]

theorem At.setFlags (at_x : At base e x s) {f : Flags} : At base e x (s.setFlags f) where
  __ := at_x

theorem At.set_fbptr (at_x : At base e ⟨k, p, v, n, t, l⟩ s) :
    At base e ⟨k, w, v, n, t, l⟩ (s.set .r1 w) where
  __ := at_x
  fbptr_eq := by simp
  curpix_eq := by simpa using at_x.curpix_eq
  bit_eq := by simpa using at_x.bit_eq
  regs := by
    intro r ne₁ ne₅ ne₆ ne
    simpa [ne₁] using at_x.regs r ne₁ ne₅ ne₆ ne

theorem At.set_curpix (at_x : At base e ⟨k, p, v, n, t, l⟩ s) :
    At base e ⟨k, p, w, n, t, l⟩ (s.set .r5 w) where
  __ := at_x
  fbptr_eq := by simpa using at_x.fbptr_eq
  curpix_eq := by simp
  bit_eq := by simpa using at_x.bit_eq
  regs := by
    intro r ne₁ ne₅ ne₆ ne
    simpa [ne₅] using at_x.regs r ne₁ ne₅ ne₆ ne

theorem At.set_bit (at_x : At base e ⟨k, p, v, n, t, l⟩ s) :
    At base e ⟨k, p, v, w, t, l⟩ (s.set .r6 w) where
  __ := at_x
  fbptr_eq := by simpa using at_x.fbptr_eq
  curpix_eq := by simpa using at_x.curpix_eq
  bit_eq := by simp
  regs := by
    intro r ne₁ ne₅ ne₆ ne
    simpa [ne₆] using at_x.regs r ne₁ ne₅ ne₆ ne

theorem At.set_lr (at_x : At base e x s) : At base e x (s.set .lr w) where
  __ := at_x
  fbptr_eq := by simpa using at_x.fbptr_eq
  curpix_eq := by simpa using at_x.curpix_eq
  bit_eq := by simpa using at_x.bit_eq
  regs := by
    intro r ne₁ ne₅ ne₆ ne
    simpa [ne] using at_x.regs r ne₁ ne₅ ne₆ ne

/-- `eclr` gets the value it has. -/
theorem At.set_eclr (at_x : At base e x s) (same : w = e.regs .r4) :
    At base e x (s.set .r4 w) where
  __ := at_x
  fbptr_eq := by simpa using at_x.fbptr_eq
  curpix_eq := by simpa using at_x.curpix_eq
  bit_eq := by simpa using at_x.bit_eq
  regs := by
    intro r ne₁ ne₅ ne₆ ne
    by_cases eq : r = .r4
    · subst eq
      simp [same]
    · simpa [eq] using at_x.regs r ne₁ ne₅ ne₆ ne

theorem At.store (at_x : At base e ⟨k, p, v, n, t, l⟩ s) {a w : UInt32} :
    At base e ⟨k + 2, p, v, n, t + cycles, l ++ [⟨t + cycles, a, w⟩]⟩
      { s.next 2 cycles with log := s.log ++ [⟨s.time + cycles, a, w⟩] } where
  __ := at_x.next
  log := by rw [at_x.log, at_x.time]

/-! Instructions of the loop that only take the registers they are about. -/

theorem goes_movs_bit {imm : UInt8}
    (here : fetch (ledUpdate base).instrs k.toNat = some (.movs .r6 imm)) :
    Goes M base e ⟨k, p, v, n, t, l⟩ ⟨k + 2, p, v, imm.toUInt32, t + M.costs.alu, l⟩ :=
  .step here fun _ at_x => ⟨_, rfl, at_x.set_bit.setFlags.next⟩

theorem goes_ldrb {byte : UInt8} (read : load8 M e p = some byte)
    (here : fetch (ledUpdate base).instrs k.toNat = some (.ldrb .r5 .r1)) :
    Goes M base e ⟨k, p, v, n, t, l⟩ ⟨k + 2, p, byte.toUInt32, n, t + M.costs.load, l⟩ := by
  apply Goes.step here
  intro s at_x
  have same : load8 M s (s.regs .r1) = some byte := by
    rw [at_x.fbptr_eq]
    rw [load8] at read ⊢
    rwa [at_x.mem]
  refine ⟨_, ?_, at_x.set_curpix.next⟩
  rw [exec, same]
  rfl

theorem goes_lsls {imm : Nat}
    (here : fetch (ledUpdate base).instrs k.toNat = some (.lsls .r5 imm)) :
    Goes M base e ⟨k, p, v, n, t, l⟩
      ⟨k + 2, p, v <<< UInt32.ofNat imm, n, t + M.costs.alu, l⟩ := by
  apply Goes.step here
  intro s at_x
  refine ⟨_, rfl, ?_⟩
  rw [at_x.curpix_eq]
  exact at_x.set_curpix.setFlags.next

theorem goes_adds {imm : UInt8}
    (here : fetch (ledUpdate base).instrs k.toNat = some (.adds .r1 imm)) :
    Goes M base e ⟨k, p, v, n, t, l⟩
      ⟨k + 2, p + imm.toUInt32, v, n, t + M.costs.alu, l⟩ := by
  apply Goes.step here
  intro s at_x
  refine ⟨_, rfl, ?_⟩
  rw [at_x.fbptr_eq]
  exact at_x.set_fbptr.setFlags.next

theorem goes_b (here : fetch (ledUpdate base).instrs k.toNat = some (.b (base + w))) :
    Goes M base e ⟨k, p, v, n, t, l⟩ ⟨w, p, v, n, t + M.costs.taken, l⟩ :=
  .step here fun _ at_x => ⟨_, rfl, at_x.jump⟩

/-- An instruction that sets the flags, and the branch behind it. -/
theorem goes_branch {p' v' n' : UInt32} {i : Instr} {cond : Cond} (taken : Bool)
    (here : fetch (ledUpdate base).instrs k.toNat = some i)
    (here' : fetch (ledUpdate base).instrs (k + 2).toNat = some (.bCond cond (base + w)))
    (run : ∀ s, At base e ⟨k, p, v, n, t, l⟩ s → ∃ u, exec M s i = some u ∧
      At base e ⟨k + 2, p', v', n', t + M.costs.alu, l⟩ u ∧ cond.holds u.flags = taken) :
    Goes M base e ⟨k, p, v, n, t, l⟩
      ⟨if taken then w else k + 2 + 2, p', v', n',
        t + M.costs.alu + (if taken then M.costs.taken else M.costs.notTaken), l⟩ := by
  intro s at_x
  obtain ⟨u, done, at_u, holds⟩ := run s at_x
  refine ⟨_, .tail (.single (step_at at_x.pc here done)) (step_at at_u.pc here' rfl), ?_⟩
  cases taken
  · simp only [holds, Bool.false_eq_true, if_false]
    exact at_u.next
  · simp only [holds, if_true]
    exact at_u.jump

/-- `lsl curpix, #1` and the branch on the bit that comes out -/
theorem goes_bcs :
    Goes M base e ⟨pixloop_fromtop + 2, p, v, n, t, l⟩
      ⟨if hasBit v 31 then oneBranch else pixloop_fromtop + 2 + 2 + 2, p, v <<< 1, n,
        t + M.costs.alu + (if hasBit v 31 then M.costs.taken else M.costs.notTaken), l⟩ := by
  apply goes_branch (i := .lsls .r5 1) (hasBit v 31) rfl rfl
  intro s at_x
  refine ⟨_, rfl, ?_⟩
  rw [at_x.curpix_eq]
  exact ⟨at_x.set_curpix.setFlags.next, rfl⟩

/-- `sub bit, #1` and the branch back -/
theorem goes_bne_bit :
    Goes M base e ⟨52, p, v, n, t, l⟩
      ⟨if n - 1 != 0 then send_next_bit else 52 + 2 + 2, p, v, n - 1,
        t + M.costs.alu + (if n - 1 != 0 then M.costs.taken else M.costs.notTaken), l⟩ := by
  apply goes_branch (i := .subs .r6 1) (n - 1 != 0) rfl rfl
  intro s at_x
  refine ⟨_, rfl, ?_⟩
  rw [at_x.bit_eq]
  exact ⟨at_x.set_bit.setFlags.next, rfl⟩

/-- `cmp fbptr, stop` and the branch back -/
theorem goes_bne_stop :
    Goes M base e ⟨56, p, v, n, t, l⟩
      ⟨if p - e.regs .r0 != 0 then load_next_pixel else 56 + 2 + 2, p, v, n,
        t + M.costs.alu + (if p - e.regs .r0 != 0 then M.costs.taken else M.costs.notTaken),
        l⟩ := by
  apply goes_branch (i := .cmp .r1 .r0) (p - e.regs .r0 != 0) rfl rfl
  intro s at_x
  refine ⟨_, rfl, at_x.setFlags.next, ?_⟩
  rw [State.next_flags, State.setFlags_flags, at_x.fbptr_eq,
    at_x.regs .r0 (by decide) (by decide) (by decide) (by decide)]
  rfl

theorem ofNat_succ_sub_one (n : Nat) : UInt32.ofNat (n + 1) - 1 = UInt32.ofNat n := by
  have succ : UInt32.ofNat (n + 1) = UInt32.ofNat n + 1 := UInt32.ofNat_add n 1
  rw [succ, UInt32.add_sub_cancel]

theorem ofNat_succ_ne_zero {n : Nat} (small : n < 255) : (UInt32.ofNat (n + 1) != 0) = true := by
  apply bne_iff_ne.mpr
  intro eq
  have zero := congrArg UInt32.toNat eq
  rw [UInt32.toNat_ofNat', UInt32.toNat_zero, Nat.mod_eq_of_lt (by omega)] at zero
  omega

theorem sub_ne_zero {i k : Nat} (lt : i < k) (small : k + 1 < 4294967296) :
    (p + UInt32.ofNat (i + 1) - (p + UInt32.ofNat (k + 1)) != 0) = true := by
  apply bne_iff_ne.mpr
  intro zero
  have eq : p + UInt32.ofNat (i + 1) = p + UInt32.ofNat (k + 1) := by
    rw [← UInt32.sub_add_cancel (p + UInt32.ofNat (i + 1)) (p + UInt32.ofNat (k + 1)), zero,
      UInt32.zero_add]
  have toNat := congrArg UInt32.toNat eq
  rw [UInt32.toNat_add, UInt32.toNat_add, UInt32.toNat_ofNat', UInt32.toNat_ofNat'] at toNat
  omega

theorem load_at (readable : M.device p = false) : load8 M e p = some (e.mem p.toNat) := by
  rw [load8, if_pos readable]

theorem load_first {k : Nat}
    (readable : ∀ i, i < k + 1 → M.device (p + UInt32.ofNat i) = false) :
    load8 M e p = some (e.mem p.toNat) := by
  have first := readable 0 (Nat.zero_lt_succ k)
  rw [show p + UInt32.ofNat 0 = p from UInt32.add_zero p] at first
  exact load_at first

section Setup

variable (setup : Setup M base mask set_addr clr_addr e)

include setup

/-- `str bitmask` to one of the two registers of the port -/
theorem goes_store {rn : Reg} {a : UInt32}
    (rn_eq : rn = .r3 ∧ a = set_addr ∨ rn = .r4 ∧ a = clr_addr)
    (here : fetch (ledUpdate base).instrs k.toNat = some (.str .r2 rn 0)) :
    Goes M base e ⟨k, p, v, n, t, l⟩
      ⟨k + 2, p, v, n, t + M.costs.port, l ++ [⟨t + M.costs.port, a, mask⟩]⟩ := by
  apply Goes.step here
  intro s at_x
  have value : s.regs .r2 = mask := by
    rw [at_x.regs .r2 (by decide) (by decide) (by decide) (by decide), setup.bitmask_eq]
  have addr : s.regs rn + 0 = a ∧ a.toNat % 4 = 0 ∧ M.device a = true := by
    rcases rn_eq with ⟨rfl, rfl⟩ | ⟨rfl, rfl⟩
    · rw [UInt32.add_zero, at_x.regs .r3 (by decide) (by decide) (by decide) (by decide)]
      exact ⟨setup.eset_eq, setup.set_aligned, setup.set_device⟩
    · rw [UInt32.add_zero, at_x.regs .r4 (by decide) (by decide) (by decide) (by decide)]
      exact ⟨setup.eclr_eq, setup.clr_aligned, setup.clr_device⟩
  obtain ⟨addr, aligned, device⟩ := addr
  refine ⟨_, ?_, at_x.store⟩
  rw [exec, addr, value, store32, if_neg (not_not.mpr aligned), if_pos device]

/-- `ldr eclr, [sp, #20]`, which only takes time -/
theorem goes_reload (here : fetch (ledUpdate base).instrs k.toNat = some (.ldr .r4 .sp 20)) :
    Goes M base e ⟨k, p, v, n, t, l⟩ ⟨k + 2, p, v, n, t + M.costs.load, l⟩ := by
  apply Goes.step here
  intro s at_x
  have loads : load32 M s (s.regs .sp + 20) = some clr_addr := by
    rw [at_x.regs .sp (by decide) (by decide) (by decide) (by decide)]
    have read := setup.argument
    rw [load32] at read ⊢
    rwa [at_x.mem]
  refine ⟨_, ?_, (at_x.set_eclr setup.eclr_eq.symm).next⟩
  rw [exec, loads]
  rfl

/-- `bl` to one of the waits -/
theorem goes_wait (placed : k.toNat % 2 = 0)
    (here : fetch (ledUpdate base).instrs k.toNat = some (.bl (base + w)))
    (wait : ∀ s, Waiting base w s →
      Steps M (ledUpdate base) s (s.jump (s.regs .lr - 1) cycles)) :
    Goes M base e ⟨k, p, v, n, t, l⟩
      ⟨k + 4, p, v, n, t + (M.costs.call + cycles), l⟩ := by
  intro s at_x
  have even : (base + k + 4).toNat % 2 = 0 := by
    have := setup.even
    rw [UInt32.toNat_add, UInt32.toNat_add]
    simp only [UInt32.reduceToNat]
    omega
  refine ⟨_, call_wait at_x.pc even here wait, ?_⟩
  exact {
    at_x.set_lr with
    pc := by rw [State.next_pc, State.set_pc, at_x.pc, UInt32.add_assoc]
    time := by rw [State.next_time, State.set_time, at_x.time] }

/-- From `load_next_pixel` with the next byte -/
theorem goes_load {byte : UInt8} (read : load8 M e p = some byte) :
    Goes M base e ⟨load_next_pixel, p, v, n, t, l⟩
      ⟨pixloop_fromtop, p + 1, byte.toUInt32 <<< 24, 8, t + M.costs.port + lead M.costs true,
        l ++ [⟨t + M.costs.port, set_addr, mask⟩]⟩ := by
  have set : Goes M base e ⟨load_next_pixel, p, v, n, t, l⟩
      ⟨load_next_pixel + 2, p, v, n, _, _⟩ :=
    goes_store setup (.inl ⟨rfl, rfl⟩) rfl
  have chain := set.trans <| (goes_movs_bit rfl).trans <| (goes_ldrb read rfl).trans <|
    (goes_lsls rfl).trans <| (goes_adds rfl).trans <| goes_b (w := pixloop_fromtop) rfl
  simp only [lead, if_true, ← Nat.add_assoc]
  exact chain

/-- From `send_next_bit` with the next bit of the same byte -/
theorem goes_next :
    Goes M base e ⟨send_next_bit, p, v, n, t, l⟩
      ⟨pixloop_fromtop, p, v, n, t + M.costs.port + lead M.costs false,
        l ++ [⟨t + M.costs.port, set_addr, mask⟩]⟩ := by
  have set : Goes M base e ⟨send_next_bit, p, v, n, t, l⟩
      ⟨send_next_bit + 2, p, v, n, _, _⟩ :=
    goes_store setup (.inl ⟨rfl, rfl⟩) rfl
  have chain := set.trans <| (goes_wait setup rfl (w := wait_5_cycles) rfl fun _ => wait_5).trans <|
    goes_reload setup rfl
  simp only [lead, cycles_5, Bool.false_eq_true, if_false, ← Nat.add_assoc]
  simp only [← Nat.add_assoc] at chain
  exact chain

/-- The two waits and the store that clears the pin, and the wait behind it -/
theorem goes_oneBranch :
    Goes M base e ⟨oneBranch, p, v, n, t, l⟩
      ⟨52, p, v, n,
        t + cycles_14 M.costs + cycles_14 M.costs + M.costs.port + cycles_11 M.costs,
        l ++ [⟨t + cycles_14 M.costs + cycles_14 M.costs + M.costs.port, clr_addr, mask⟩]⟩ :=
  (goes_wait setup rfl (w := wait_14_cycles) rfl fun _ => wait_14).trans <|
  (goes_wait setup rfl (w := wait_14_cycles) rfl fun _ => wait_14).trans <|
  (goes_store setup (.inr ⟨rfl, rfl⟩) rfl).trans <|
  goes_wait setup rfl (w := wait_11_cycles) rfl fun _ => wait_11

/-- One bit, from where the pin has been set -/
theorem goes_pixloop {r : Nat} {x : Slot} (value : x.value = hasBit v 31) :
    Goes M base e ⟨pixloop_fromtop, p, v, n, r + lead M.costs x.first, l⟩
      ⟨52, p, v <<< 1, n, r + high M.costs x + tail M.costs x,
        l ++ falls M.costs clr_addr mask r x⟩ := by
  have start : Goes M base e ⟨pixloop_fromtop, p, v, n, r + lead M.costs x.first, l⟩
      ⟨pixloop_fromtop + 2, p, v, n, r + lead M.costs x.first + M.costs.load, l⟩ :=
    goes_reload setup rfl
  have branch := start.trans goes_bcs
  rw [← value] at branch
  cases one : x.value
  · rw [one] at branch
    have zeroBranch := branch.trans (goes_store setup (.inr ⟨rfl, rfl⟩) rfl)
    have chain := zeroBranch.trans (goes_oneBranch setup)
    simp only [falls, high, tail, one, ← Nat.add_assoc, List.append_assoc, Bool.false_eq_true,
      if_false] at chain ⊢
    exact chain
  · rw [one] at branch
    have chain := branch.trans (goes_oneBranch setup)
    simp only [falls, high, tail, one, ← Nat.add_assoc, if_true, Nat.add_zero] at chain ⊢
    exact chain

/-- One bit and the store that sets the pin for the next one -/
theorem goes_next_bit {r : Nat} {x : Slot} (value : x.value = hasBit v 31) (last : x.last = false)
    (more : (n - 1 != 0) = true) :
    Goes M base e ⟨pixloop_fromtop, p, v, n, r + lead M.costs x.first, l⟩
      ⟨pixloop_fromtop, p, v <<< 1, n - 1,
        r + high M.costs x + low M.costs x + lead M.costs false,
        l ++ falls M.costs clr_addr mask r x ++
          [⟨r + high M.costs x + low M.costs x, set_addr, mask⟩]⟩ := by
  have bit := (goes_pixloop setup (p := p) (n := n) (l := l) value (r := r)).trans goes_bne_bit
  rw [more] at bit
  have chain := bit.trans (goes_next setup)
  simp only [low, last, Bool.false_eq_true, if_false, if_true, ← Nat.add_assoc] at chain ⊢
  exact chain

/-- The last bit of a byte -/
theorem goes_last_bit {r : Nat} {x : Slot} (value : x.value = hasBit v 31)
    (done : (n - 1 != 0) = false) :
    Goes M base e ⟨pixloop_fromtop, p, v, n, r + lead M.costs x.first, l⟩
      ⟨56, p, v <<< 1, n - 1,
        r + high M.costs x + tail M.costs x + M.costs.alu + M.costs.notTaken,
        l ++ falls M.costs clr_addr mask r x⟩ := by
  have bit := (goes_pixloop setup (p := p) (n := n) (l := l) value (r := r)).trans goes_bne_bit
  rw [done] at bit
  exact bit

/-- From where the pin has been set for a bit to the end of its byte -/
theorem goes_bits {n r : Nat} {f : Bool} (small : n < 255) :
    ∃ v' n' T, T + (M.costs.alu + M.costs.taken + M.costs.port) =
        r + duration M.costs (slots f v (n + 1)) ∧
      Goes M base e ⟨pixloop_fromtop, p, v, UInt32.ofNat (n + 1), r + lead M.costs f,
          l ++ [⟨r, set_addr, mask⟩]⟩
        ⟨56, p, v', n', T,
          l ++ signal M.costs set_addr clr_addr mask r (slots f v (n + 1))⟩ := by
  induction n generalizing v r f l with
  | zero =>
      let x : Slot := ⟨f, true, hasBit v 31⟩
      have bit : Goes M base e ⟨pixloop_fromtop, p, v, 1, r + lead M.costs x.first,
          l ++ [⟨r, set_addr, mask⟩]⟩ _ := goes_last_bit setup rfl rfl
      refine ⟨v <<< 1, 1 - 1, r + high M.costs x + tail M.costs x + M.costs.alu + M.costs.notTaken,
        ?_, ?_⟩
      · simp only [slots, duration, low, x, BEq.rfl, if_true]
        omega
      · rw [List.append_assoc] at bit
        simp only [slots, signal, BEq.rfl, List.append_nil]
        exact bit
  | succ n ih =>
      let x : Slot := ⟨f, false, hasBit v 31⟩
      have nonzero := ofNat_succ_ne_zero (n := n) (by omega)
      have bit : Goes M base e ⟨pixloop_fromtop, p, v, UInt32.ofNat (n + 1 + 1),
          r + lead M.costs x.first, l ++ [⟨r, set_addr, mask⟩]⟩ _ :=
        goes_next_bit setup rfl rfl (by rw [ofNat_succ_sub_one]; exact nonzero)
      rw [ofNat_succ_sub_one] at bit
      obtain ⟨v', n', T, time, rest⟩ :=
        ih (v := v <<< 1) (r := r + high M.costs x + low M.costs x) (by omega)
      have split : slots f v (n + 1 + 1) = x :: slots false (v <<< 1) (n + 1) := rfl
      rw [split, duration, signal]
      refine ⟨v', n', T, ?_, ?_⟩
      rotate_left
      · have chain := bit.trans rest
        rw [List.append_assoc, List.append_assoc] at chain
        exact chain
      · rw [time]
        omega

/-- One byte -/
theorem goes_byte {byte : UInt8} (read : load8 M e p = some byte) :
    ∃ v' n' T, T + (M.costs.alu + M.costs.taken + M.costs.port) =
        t + M.costs.port + duration M.costs (byteSlots byte) ∧
      Goes M base e ⟨load_next_pixel, p, v, n, t, l⟩
        ⟨56, p + 1, v', n', T,
          l ++ signal M.costs set_addr clr_addr mask (t + M.costs.port) (byteSlots byte)⟩ := by
  obtain ⟨v', n', T, time, bits⟩ := goes_bits setup (n := 7) (p := p + 1)
    (v := byte.toUInt32 <<< 24) (r := t + M.costs.port) (f := true) (l := l) (by decide)
  rw [slots_byte] at time bits
  exact ⟨v', n', T, time, (goes_load setup read).trans bits⟩

/-- Bytes before `stop` -/
theorem goes_on {k : Nat}
    (more : ∀ i, i < k → (p + UInt32.ofNat (i + 1) - e.regs .r0 != 0) = true)
    (readable : ∀ i, i < k → M.device (p + UInt32.ofNat i) = false) :
    ∃ v' n', Goes M base e ⟨load_next_pixel, p, v, n, t, l⟩
      ⟨load_next_pixel, p + UInt32.ofNat k, v', n',
        t + duration M.costs (pixelSlots (bytesFrom e.mem p k)), l ++ signal M.costs set_addr
          clr_addr mask (t + M.costs.port) (pixelSlots (bytesFrom e.mem p k))⟩ := by
  induction k generalizing p v n t l with
  | zero =>
      refine ⟨v, n, fun s at_s => ⟨s, .refl, ?_⟩⟩
      rw [show p + UInt32.ofNat 0 = p from UInt32.add_zero p]
      simpa [bytesFrom, pixelSlots, signal, duration] using at_s
  | succ k ih =>
      obtain ⟨v', n', T, time, byte⟩ :=
        goes_byte setup (v := v) (n := n) (t := t) (l := l) (load_first readable)
      have first := byte.trans goes_bne_stop
      have next : (p + 1 - e.regs .r0 != 0) = true := more 0 (Nat.zero_lt_succ k)
      rw [next] at first
      obtain ⟨v'', n'', rest⟩ := ih (p := p + 1) (v := v') (n := n')
        (t := T + M.costs.alu + M.costs.taken) (l := l ++ signal M.costs set_addr clr_addr mask
          (t + M.costs.port) (byteSlots (e.mem p.toNat)))
        (fun i lt => by rw [add_one_add_ofNat]; exact more (i + 1) (by omega))
        (fun i lt => by rw [add_one_add_ofNat]; exact readable (i + 1) (by omega))
      refine ⟨v'', n'', ?_⟩
      have chain := first.trans rest
      have rise : t + M.costs.port + duration M.costs (byteSlots (e.mem p.toNat)) =
          T + M.costs.alu + M.costs.taken + M.costs.port := by omega
      have later : t + duration M.costs (byteSlots (e.mem p.toNat)) =
          T + M.costs.alu + M.costs.taken := by omega
      rw [pixelSlots_succ, signal_append, duration_append, rise, ← Nat.add_assoc, later,
        ← List.append_assoc, ← add_one_add_ofNat]
      exact chain

/-- All bytes up to `stop` -/
theorem goes_bytes {k : Nat} (small : k + 1 < 4294967296)
    (stop : e.regs .r0 = p + UInt32.ofNat (k + 1))
    (readable : ∀ i, i < k + 1 → M.device (p + UInt32.ofNat i) = false) :
    ∃ v' n' T, Goes M base e ⟨load_next_pixel, p, v, n, t, l⟩
      ⟨60, e.regs .r0, v', n', T, l ++ signal M.costs set_addr clr_addr mask
        (t + M.costs.port) (pixelSlots (bytesFrom e.mem p (k + 1)))⟩ := by
  have more : ∀ i, i < k → (p + UInt32.ofNat (i + 1) - e.regs .r0 != 0) = true := by
    intro i lt
    rw [stop]
    exact sub_ne_zero lt small
  obtain ⟨v', n', before⟩ := goes_on setup (v := v) (n := n) (t := t) (l := l) more
    fun i lt => readable i (by omega)
  obtain ⟨v'', n'', T, time, byte⟩ := goes_byte setup (v := v') (n := n')
    (t := t + duration M.costs (pixelSlots (bytesFrom e.mem p k)))
    (l := l ++ signal M.costs set_addr clr_addr mask (t + M.costs.port)
      (pixelSlots (bytesFrom e.mem p k))) (load_at (readable k (Nat.lt_succ_self k)))
  have last : p + UInt32.ofNat k + 1 = e.regs .r0 := by
    rw [stop, UInt32.add_assoc]
    congr 1
    exact (UInt32.ofNat_add k 1).symm
  have chain := (before.trans byte).trans goes_bne_stop
  rw [last, UInt32.sub_self] at chain
  refine ⟨v'', n'', T + M.costs.alu + M.costs.notTaken, ?_⟩
  rw [pixelSlots_last, signal_append, ← List.append_assoc, Nat.add_right_comm t]
  exact chain

end Setup

end Loop

/-! ### The call -/

/-- A call of `ledUpdate`: the stack has room for five words, and the two addresses are aligned
registers of a port. -/
structure Called (M : Machine) (base num_leds pixels mask set_addr clr_addr : UInt32)
    (s : State) : Prop where
  even : base.toNat % 2 = 0
  pc : s.pc = base
  num_leds_eq : s.regs .r0 = num_leds
  pixels_eq : s.regs .r1 = pixels
  mask_eq : s.regs .r2 = mask
  set_addr_eq : s.regs .r3 = set_addr
  clr_addr_eq : word s.mem (s.regs .sp).toNat = clr_addr
  thumb : hasBit (s.regs .lr) 0 = true
  aligned : (s.regs .sp).toNat % 4 = 0
  room : 20 ≤ (s.regs .sp).toNat
  stack : M.device (s.regs .sp) = false
  set_aligned : set_addr.toNat % 4 = 0
  set_device : M.device set_addr = true
  clr_aligned : clr_addr.toNat % 4 = 0
  clr_device : M.device clr_addr = true

/-- The first bytes of the pixels can be read, and are not where the stack goes. -/
structure Readable (M : Machine) (pixels : UInt32) (s : State) (k : Nat) : Prop where
  device : ∀ i, i < k → M.device (pixels + UInt32.ofNat i) = false
  apart : ∀ i, i < k → (pixels + UInt32.ofNat i).toNat < (s.regs .sp).toNat - 20 ∨
    (s.regs .sp).toNat ≤ (pixels + UInt32.ofNat i).toNat

section Call

variable {M : Machine} {base num_leds pixels mask set_addr clr_addr : UInt32} {s : State}

/-- The memory with the saved registers. -/
def saved (s : State) : Mem :=
  setWords s.mem ((s.regs .sp).toNat - 20)
    [s.regs .r4, s.regs .r5, s.regs .r6, s.regs .r7, s.regs .lr]

theorem saved_outside {a : Nat} (room : 20 ≤ (s.regs .sp).toNat)
    (outside : a < (s.regs .sp).toNat - 20 ∨ (s.regs .sp).toNat ≤ a) : saved s a = s.mem a := by
  apply setWords_outside
  simp only [List.length_cons, List.length_nil]
  omega

/-- At `load_next_pixel` for the first time -/
structure Started (M : Machine) (base num_leds pixels mask set_addr clr_addr : UInt32)
    (s e : State) : Prop where
  steps : Steps M (ledUpdate base) s e
  pc : e.pc = base + load_next_pixel
  stop : e.regs .r0 = num_leds * 3 + pixels
  fbptr : e.regs .r1 = pixels
  bitmask : e.regs .r2 = mask
  eset : e.regs .r3 = set_addr
  eclr : e.regs .r4 = clr_addr
  sp : e.regs .sp = s.regs .sp - 20
  regs : ∀ r ∈ [Reg.r7, .r8, .r9, .r10, .r11], e.regs r = s.regs r
  mem : e.mem = saved s
  time : e.time = s.time + M.costs.stack 5 + M.costs.load + 3 * M.costs.alu
  log : e.log = s.log

theorem toNat_sp (room : 20 ≤ (s.regs .sp).toNat) :
    (s.regs .sp - 20).toNat = (s.regs .sp).toNat - 20 :=
  toNat_sub_ofNat (n := 20) room

theorem started (called : Called M base num_leds pixels mask set_addr clr_addr s) :
    ∃ e, Started M base num_leds pixels mask set_addr clr_addr s e := by
  let s₁ : State := { (s.set .sp (s.regs .sp - 20)).next 2 (M.costs.stack 5) with mem := saved s }
  have push : exec M s (.push [.r4, .r5, .r6, .r7, .lr]) = some s₁ :=
    exec_push called.aligned called.room
  have sp₁ : s₁.regs .sp + 20 = s.regs .sp := by
    simp [s₁]
  have loads : load32 M s₁ (s₁.regs .sp + 20) = some clr_addr := by
    rw [sp₁, load32, if_pos ⟨called.aligned, called.stack⟩]
    have kept : word (saved s) (s.regs .sp).toNat = word s.mem (s.regs .sp).toNat :=
      word_congr fun j lt => saved_outside called.room (.inr (Nat.le_add_right _ _))
    exact congrArg some (kept.trans called.clr_addr_eq)
  let s₂ := loaded M s₁ .r4 clr_addr
  let s₃ := ((s₂.set .r6 3).setFlags (s₂.flags.ofResult 3)).next 2 M.costs.alu
  let s₄ := ((s₃.set .r0 (s₃.regs .r0 * s₃.regs .r6)).setFlags
    (s₃.flags.ofResult (s₃.regs .r0 * s₃.regs .r6))).next 2 M.costs.alu
  let s₅ := ((s₄.set .r0 (s₄.regs .r0 + s₄.regs .r1)).setFlags
    (addFlags (s₄.regs .r0) (s₄.regs .r1))).next 2 M.costs.alu
  have ldr : exec M s₁ (.ldr .r4 .sp 20) = some s₂ := by
    rw [exec, loads]
    rfl
  have pc : s.pc = base + 0 := by rw [called.pc, UInt32.add_zero]
  have pc₁ : s₁.pc = base + 2 := by simp [s₁, called.pc]
  have pc₂ : s₂.pc = base + 4 := add_two pc₁
  have pc₃ : s₃.pc = base + 6 := add_two pc₂
  have pc₄ : s₄.pc = base + 8 := add_two pc₃
  have pc₅ : s₅.pc = base + 10 := add_two pc₄
  have steps : Steps M (ledUpdate base) s s₅ :=
    .head (step_at pc rfl push) <| .head (step_at pc₁ rfl ldr) <| .head (step_at pc₂ rfl rfl) <|
      .head (step_at pc₃ rfl rfl) <| .single (step_at pc₄ rfl rfl)
  refine ⟨s₅, {
    steps := steps
    pc := pc₅
    stop := ?_
    fbptr := ?_
    bitmask := ?_
    eset := ?_
    eclr := ?_
    sp := ?_
    regs := ?_
    mem := rfl
    time := ?_
    log := rfl }⟩
  · simp [s₅, s₄, s₃, s₂, s₁, loaded, called.num_leds_eq, called.pixels_eq]
  · simp [s₅, s₄, s₃, s₂, s₁, loaded, called.pixels_eq]
  · simp [s₅, s₄, s₃, s₂, s₁, loaded, called.mask_eq]
  · simp [s₅, s₄, s₃, s₂, s₁, loaded, called.set_addr_eq]
  · simp [s₅, s₄, s₃, s₂, loaded]
  · simp [s₅, s₄, s₃, s₂, s₁, loaded]
  · intro r mem
    simp only [List.mem_cons, List.not_mem_nil, or_false] at mem
    rcases mem with rfl | rfl | rfl | rfl | rfl <;> simp [s₅, s₄, s₃, s₂, s₁, loaded]
  · simp only [s₅, s₄, s₃, s₂, s₁, loaded, State.next_time, State.setFlags_time, State.set_time]
    omega

/-- The call is over: the registers of the caller and its stack are as they were. -/
structure Returned (s t : State) : Prop where
  pc : t.pc = s.regs .lr - 1
  regs : ∀ r ∈ [Reg.r4, .r5, .r6, .r7, .r8, .r9, .r10, .r11, .sp], t.regs r = s.regs r
  mem : ∀ a, a < (s.regs .sp).toNat - 20 ∨ (s.regs .sp).toNat ≤ a → t.mem a = s.mem a

/-- The words that were pushed -/
theorem words_saved (s : State) :
    words (saved s) ((s.regs .sp).toNat - 20) 4 =
      [s.regs .r4, s.regs .r5, s.regs .r6, s.regs .r7] ∧
    word (saved s) ((s.regs .sp).toNat - 20 + 16) = s.regs .lr := by
  have all := words_setWords s.mem ((s.regs .sp).toNat - 20)
    [s.regs .r4, s.regs .r5, s.regs .r6, s.regs .r7, s.regs .lr]
  simp only [List.length_cons, List.length_nil, Nat.zero_add, Nat.reduceAdd, words, Nat.add_assoc,
    List.cons.injEq, and_true] at all
  obtain ⟨w₄, w₅, w₆, w₇, lr⟩ := all
  refine ⟨?_, lr⟩
  simp only [words, Nat.add_assoc, Nat.reduceAdd]
  rw [saved, w₄, w₅, w₆, w₇]

/-- The branch to `exit` and the return -/
theorem returns {e u : State} {p v n : UInt32} {T : Nat} {l : List Event}
    (called : Called M base num_leds pixels mask set_addr clr_addr s)
    (started : Started M base num_leds pixels mask set_addr clr_addr s e)
    (at_u : At base e ⟨60, p, v, n, T, l⟩ u) :
    ∃ t, Steps M (ledUpdate base) u t ∧ Returned s t ∧ t.log = l := by
  obtain ⟨u', steps, at_u'⟩ := goes_b (M := M) (w := exit) rfl u at_u
  have sp : u'.regs .sp = s.regs .sp - 20 := by
    rw [at_u'.regs .sp (by decide) (by decide) (by decide) (by decide), started.sp]
  have mem : u'.mem = saved s := at_u'.mem.trans started.mem
  have toNat : (u'.regs .sp).toNat = (s.regs .sp).toNat - 20 := by rw [sp, toNat_sp called.room]
  have aligned : (u'.regs .sp).toNat % 4 = 0 := by
    have := called.aligned
    have := called.room
    omega
  have pop : exec M u' (.popPc [.r4, .r5, .r6, .r7]) =
      some ((setRegs (u'.set .sp (s.regs .sp)) [.r4, .r5, .r6, .r7]
        [s.regs .r4, s.regs .r5, s.regs .r6, s.regs .r7]).jump (s.regs .lr - 1)
          (M.costs.stack 5)) := by
    have back : u'.regs .sp + UInt32.ofNat (4 * (4 + 1)) = s.regs .sp := by
      rw [sp]
      exact UInt32.sub_add_cancel _ _
    rw [exec, poppedPc, if_pos aligned]
    simp only [List.length_cons, List.length_nil, Nat.zero_add, Nat.reduceAdd] at back ⊢
    rw [back, mem, toNat, (words_saved s).1, (words_saved s).2, branchTo, if_pos called.thumb]
  have here : fetch (ledUpdate base).instrs exit.toNat = some (.popPc [.r4, .r5, .r6, .r7]) := rfl
  refine ⟨_, .tail steps (step_at at_u'.pc here pop), ?_, at_u'.log⟩
  constructor
  · rfl
  · intro r listed
    have kept : ∀ r ∈ [Reg.r8, .r9, .r10, .r11], u'.regs r = s.regs r := by
      intro r here
      have : r ≠ .r1 ∧ r ≠ .r5 ∧ r ≠ .r6 ∧ r ≠ .lr := by
        revert here
        cases r <;> decide
      rw [at_u'.regs r this.1 this.2.1 this.2.2.1 this.2.2.2]
      exact started.regs r (List.mem_cons_of_mem _ here)
    simp only [List.mem_cons, List.not_mem_nil, or_false] at listed kept
    rcases listed with rfl | rfl | rfl | rfl | rfl | rfl | rfl | rfl | rfl <;>
      simp [setRegs, kept]
  · intro a outside
    change u'.mem a = s.mem a
    rw [mem]
    exact saved_outside called.room outside

theorem bytesFrom_congr {m m' : Mem} {p : UInt32} {k : Nat}
    (same : ∀ i, i < k → m (p + UInt32.ofNat i).toNat = m' (p + UInt32.ofNat i).toNat) :
    bytesFrom m p k = bytesFrom m' p k := by
  induction k generalizing p with
  | zero => rfl
  | succ k ih =>
      have first := same 0 (Nat.zero_lt_succ k)
      rw [show p + UInt32.ofNat 0 = p from UInt32.add_zero p] at first
      rw [bytesFrom, bytesFrom, first, ih]
      intro i lt
      rw [add_one_add_ofNat]
      exact same (i + 1) (by omega)

theorem times_three (num_leds pixels : UInt32) :
    num_leds * 3 + pixels = pixels + UInt32.ofNat (3 * num_leds.toNat) := by
  rw [UInt32.add_comm]
  congr 1
  apply UInt32.toNat_inj.mp
  rw [UInt32.toNat_mul, UInt32.toNat_ofNat', Nat.mul_comm]
  rfl

theorem Started.setup {e : State}
    (called : Called M base num_leds pixels mask set_addr clr_addr s)
    (started : Started M base num_leds pixels mask set_addr clr_addr s e) :
    Setup M base mask set_addr clr_addr e where
  even := called.even
  bitmask_eq := started.bitmask
  eset_eq := started.eset
  eclr_eq := started.eclr
  set_aligned := called.set_aligned
  set_device := called.set_device
  clr_aligned := called.clr_aligned
  clr_device := called.clr_device
  argument := by
    have kept : word (saved s) (s.regs .sp).toNat = word s.mem (s.regs .sp).toNat :=
      word_congr fun j lt => saved_outside called.room (.inr (Nat.le_add_right _ _))
    rw [started.sp, UInt32.sub_add_cancel, load32, if_pos ⟨called.aligned, called.stack⟩,
      started.mem, kept, called.clr_addr_eq]

/-- When the pin is set for the first bit. -/
def firstRise (c : Costs) (time : Nat) : Nat :=
  time + c.stack 5 + c.load + 3 * c.alu + c.port

theorem Started.bytes {e : State} {k : Nat}
    (called : Called M base num_leds pixels mask set_addr clr_addr s)
    (started : Started M base num_leds pixels mask set_addr clr_addr s e)
    (readable : Readable M pixels s k) : bytesFrom e.mem pixels k = bytesFrom s.mem pixels k := by
  apply bytesFrom_congr
  intro i lt
  rw [started.mem]
  exact saved_outside called.room (readable.apart i lt)

theorem Started.at {e : State}
    (started : Started M base num_leds pixels mask set_addr clr_addr s e) :
    At base e ⟨load_next_pixel, pixels, e.regs .r5, e.regs .r6, e.time, e.log⟩ e :=
  ⟨started.pc, started.fbptr, rfl, rfl, rfl, rfl, fun _ _ _ _ _ => rfl, rfl⟩

/-- With one LED or more the program returns, and has made the stores for all bits of all pixels
in their order. -/
theorem ledUpdate_returns (called : Called M base num_leds pixels mask set_addr clr_addr s)
    (some_leds : 0 < num_leds.toNat) (bounded : 3 * num_leds.toNat < 4294967296)
    (readable : Readable M pixels s (3 * num_leds.toNat)) :
    ∃ t, Steps M (ledUpdate base) s t ∧ Returned s t ∧
      t.log = s.log ++ signal M.costs set_addr clr_addr mask (firstRise M.costs s.time)
        (pixelSlots (bytesFrom s.mem pixels (3 * num_leds.toNat))) := by
  obtain ⟨e, started⟩ := started called
  obtain ⟨k, count⟩ : ∃ k, 3 * num_leds.toNat = k + 1 := ⟨3 * num_leds.toNat - 1, by omega⟩
  have stop : e.regs .r0 = pixels + UInt32.ofNat (k + 1) := by
    rw [started.stop, times_three, count]
  rw [count] at readable bounded
  obtain ⟨v', n', T, sends⟩ := goes_bytes (started.setup called) (v := e.regs .r5)
    (n := e.regs .r6) (t := e.time) (l := e.log) bounded stop readable.device
  obtain ⟨u, sent, at_u⟩ := sends e started.at
  obtain ⟨t, steps, returned, log⟩ := returns called started at_u
  refine ⟨t, (started.steps.trans sent).trans steps, returned, ?_⟩
  rw [log, started.log, started.time, started.bytes called readable, count]
  rfl

/-- Without any LED the program sends bytes nevertheless, and goes on as long as there are bytes it
can read. -/
theorem ledUpdate_zero (called : Called M base 0 pixels mask set_addr clr_addr s) {k : Nat}
    (small : k < 4294967296) (readable : Readable M pixels s k) :
    ∃ t, Steps M (ledUpdate base) s t ∧ t.pc = base + load_next_pixel ∧
      t.log = s.log ++ signal M.costs set_addr clr_addr mask (firstRise M.costs s.time)
        (pixelSlots (bytesFrom s.mem pixels k)) := by
  obtain ⟨e, started⟩ := started called
  have more : ∀ i, i < k → (pixels + UInt32.ofNat (i + 1) - e.regs .r0 != 0) = true := by
    intro i lt
    apply bne_iff_ne.mpr
    intro zero
    rw [started.stop, UInt32.zero_mul, UInt32.zero_add, UInt32.add_comm, UInt32.add_sub_cancel]
      at zero
    have toNat := congrArg UInt32.toNat zero
    rw [UInt32.toNat_ofNat', UInt32.toNat_zero, Nat.mod_eq_of_lt (by omega)] at toNat
    omega
  obtain ⟨v', n', sends⟩ := goes_on (started.setup called) (v := e.regs .r5)
    (n := e.regs .r6) (t := e.time) (l := e.log) more readable.device
  obtain ⟨u, sent, at_u⟩ := sends e started.at
  refine ⟨u, started.steps.trans sent, at_u.pc, ?_⟩
  rw [at_u.log, started.log, started.time, started.bytes called readable]
  rfl

end Call

/-! ### The pin -/

/-- When the pin is set and when it is cleared again, by the stores to the registers of its
port. -/
def pulses (set_addr clr_addr : UInt32) (pin : Nat) : (since : Option Nat) → List Event →
    List (Nat × Nat)
  | _, [] => []
  | none, x :: l =>
      if x.addr = set_addr ∧ hasBit x.value pin then pulses set_addr clr_addr pin (some x.time) l
      else pulses set_addr clr_addr pin none l
  | some rise, x :: l =>
      if x.addr = clr_addr ∧ hasBit x.value pin then
        (rise, x.time) :: pulses set_addr clr_addr pin none l
      else pulses set_addr clr_addr pin (some rise) l

/-- One pulse for each bit, of the length that its value asks for. -/
def waveform (c : Costs) : (rise : Nat) → List Slot → List (Nat × Nat)
  | _, [] => []
  | rise, x :: xs => (rise, rise + high c x) :: waveform c (rise + high c x + low c x) xs

section Pulses

variable {c : Costs} {set_addr clr_addr mask : UInt32} {pin rise : Nat} {xs : List Slot}

theorem pulses_signal (ne : set_addr ≠ clr_addr) (mine : hasBit mask pin = true) :
    pulses set_addr clr_addr pin none (signal c set_addr clr_addr mask rise xs) =
      waveform c rise xs := by
  induction xs generalizing rise with
  | nil => rfl
  | cons x xs ih =>
      have rest := @ih (rise + high c x + low c x)
      cases one : x.value <;>
        simp [signal, falls, pulses, waveform, one, mine, ne.symm, rest]

/-- The other pins of the port stay as they are. -/
theorem pulses_other (other : hasBit mask pin = false) :
    pulses set_addr clr_addr pin none (signal c set_addr clr_addr mask rise xs) = [] := by
  induction xs generalizing rise with
  | nil => rfl
  | cons x xs ih =>
      have rest := @ih (rise + high c x + low c x)
      cases one : x.value <;> simp [signal, falls, pulses, one, other, rest]

end Pulses

/-! ### The time -/

/-- Cycles at 47972352 Hz that take between `least` and `most` nanoseconds. -/
def Takes (least most cycles : Nat) : Prop :=
  least * 47972352 ≤ cycles * 1000000000 ∧ cycles * 1000000000 ≤ most * 47972352

instance (least most cycles : Nat) : Decidable (Takes least most cycles) :=
  inferInstanceAs (Decidable (_ ∧ _))

/-- The timing requirements of the strip. -/
structure InTime (c : Costs) (x : Slot) : Prop where
  zero : x.value = false → Takes 220 380 (high c x) ∧ Takes 580 1600 (low c x)
  one : x.value = true → Takes 580 1600 (high c x) ∧ Takes 220 420 (low c x)

/-- The processor of the board, where a store to the port takes one cycle or two. -/
def cortexM0Plus (port : Nat) : Costs where
  alu := 1
  load := 2
  store := 2
  port := port
  taken := 2
  notTaken := 1
  call := 3
  ret := 2
  stack n := n + 1

theorem inTime {port : Nat} (least : 1 ≤ port) (most : port ≤ 2) (x : Slot) :
    InTime (cortexM0Plus port) x := by
  obtain ⟨first, last, value⟩ := x
  obtain rfl | rfl : port = 1 ∨ port = 2 := by omega
  · constructor <;> intro eq <;> cases eq <;> cases first <;> cases last <;> decide
  · constructor <;> intro eq <;> cases eq <;> cases first <;> cases last <;> decide

/-! ### `ledShow` -/

open Arduino

def FGPIO_BASE : Port → UInt32
  | .IOPORT1 => 0xF8000000
  | .IOPORT2 => 0xF8000040

def GPIO_PSOR : UInt32 := 0x04

def GPIO_PCOR : UInt32 := 0x08

/-- The call of `ledUpdate` for a pad. -/
structure Update where
  pad : Pad
  mask : UInt32
  set_addr : UInt32
  clr_addr : UInt32

/-- None if the pin is not for the program. -/
def ledShow (board : Board) (s : Pins) (pin : BitVec 32) : Option Update :=
  let pin := Pins.canonicalizePin board pin
  if pin ≠ Pins.LED_BUILTIN_RGB ∧ s.canUsePin board pin = false then none
  else
    (Pins.pinToPort board pin).map fun pad => {
      pad := pad
      mask := 1 <<< UInt32.ofNat pad.2
      set_addr := FGPIO_BASE pad.1 + GPIO_PSOR
      clr_addr := FGPIO_BASE pad.1 + GPIO_PCOR }

theorem hasBit_mask (pad pin : Fin 32) :
    hasBit (1 <<< UInt32.ofNat pad) pin = decide (pad = pin) := by
  revert pad pin
  decide

theorem ledShow_pad {board : Board} {pins : Pins} {pin : BitVec 32} {u : Update}
    (shows : ledShow board pins pin = some u) :
    u.mask = 1 <<< UInt32.ofNat u.pad.2 ∧ u.set_addr ≠ u.clr_addr := by
  have cases : ∃ pad : Pad, u = {
      pad := pad
      mask := 1 <<< UInt32.ofNat pad.2
      set_addr := FGPIO_BASE pad.1 + GPIO_PSOR
      clr_addr := FGPIO_BASE pad.1 + GPIO_PCOR } := by
    simp only [ledShow] at shows
    split_ifs at shows
    obtain ⟨pad, -, eq⟩ := Option.map_eq_some_iff.mp shows
    exact ⟨pad, eq.symm⟩
  have apart : ∀ port, FGPIO_BASE port + GPIO_PSOR ≠ FGPIO_BASE port + GPIO_PCOR := by
    intro port
    cases port <;> decide
  obtain ⟨pad, rfl⟩ := cases
  exact ⟨rfl, apart pad.1⟩

/-- A call for a pin that the program may use returns with the registers and the stack of the
caller. Meanwhile the pad of the pin has had one pulse for each bit of the pixels, byte by byte
and from the highest bit down, and no other pad of the port has had any; on the processor of the
board the pulses and the times between them are those that the strip requires. -/
theorem ledShow_sends {board : Board} {pins : Pins} {pin : BitVec 32} {u : Update}
    (shows : ledShow board pins pin = some u) {M : Machine} {base num_leds pixels : UInt32}
    {s : State} (called : Called M base num_leds pixels u.mask u.set_addr u.clr_addr s)
    (some_leds : 0 < num_leds.toNat) (bounded : 3 * num_leds.toNat < 4294967296)
    (readable : Readable M pixels s (3 * num_leds.toNat)) :
    (∃ t sent, Steps M (ledUpdate base) s t ∧ Returned s t ∧ t.log = s.log ++ sent ∧
      pulses u.set_addr u.clr_addr u.pad.2 none sent =
        waveform M.costs (firstRise M.costs s.time)
          (pixelSlots (bytesFrom s.mem pixels (3 * num_leds.toNat))) ∧
      ∀ pad : Fin 32, pad ≠ u.pad.2 → pulses u.set_addr u.clr_addr pad none sent = []) ∧
    ∀ port, 1 ≤ port → port ≤ 2 → M.costs = cortexM0Plus port → ∀ x, InTime M.costs x := by
  obtain ⟨mask, ne⟩ := ledShow_pad shows
  constructor
  · obtain ⟨t, steps, returned, log⟩ := ledUpdate_returns called some_leds bounded readable
    refine ⟨t, _, steps, returned, log, ?_, ?_⟩
    · apply pulses_signal ne
      rw [mask, hasBit_mask, decide_eq_true rfl]
    · intro pad other
      apply pulses_other
      rw [mask, hasBit_mask, decide_eq_false other.symm]
  · intro port least most costs x
    rw [costs]
    exact inTime least most x

/-- One pixel, green, for the strip at the pin of the built-in LED. -/
def sampleCall : State where
  regs
    | .r0 => 1
    | .r1 => 0x20000000
    | .r2 => 0x40
    | .r3 => 0xF8000004
    | .sp => 0x20000400
    | .lr => 0x1001
    | _ => 0
  pc := 0x2000
  flags := ⟨false, false, false, false⟩
  mem a :=
    if a = 0x20000400 then 0x08
    else if a = 0x20000403 then 0xF8
    else if a = 0x20000000 then 0xFF
    else 0
  time := 0
  log := []

/-- The upper addresses are those of devices. -/
def sampleMachine : Machine where
  costs := cortexM0Plus 1
  device a := decide (0xE0000000 ≤ a)

theorem sampleCall_called :
    Called sampleMachine 0x2000 1 0x20000000 0x40 0xF8000004 0xF8000008 sampleCall := by
  constructor <;> decide

theorem sampleCall_readable : Readable sampleMachine 0x20000000 sampleCall 3 := by
  constructor <;> decide

theorem sampleCall_sends :
    (∃ t sent, Steps sampleMachine (ledUpdate 0x2000) sampleCall t ∧ Returned sampleCall t ∧
      t.log = sampleCall.log ++ sent ∧
      pulses 0xF8000004 0xF8000008 6 none sent =
        waveform (cortexM0Plus 1) (firstRise (cortexM0Plus 1) 0)
          (pixelSlots (bytesFrom sampleCall.mem 0x20000000 3)) ∧
      ∀ pad : Fin 32, pad ≠ 6 → pulses 0xF8000004 0xF8000008 pad none sent = []) ∧
    ∀ port, 1 ≤ port → port ≤ 2 → sampleMachine.costs = cortexM0Plus port →
      ∀ x, InTime sampleMachine.costs x :=
  ledShow_sends (show ledShow .PVT1C Pins.sampleUnconnected Pins.LED_BUILTIN_RGB =
    some ⟨(.IOPORT1, 6), 0x40, 0xF8000004, 0xF8000008⟩ from rfl) sampleCall_called (by decide)
    (by decide) sampleCall_readable

end LtcOs.Ws2812b
