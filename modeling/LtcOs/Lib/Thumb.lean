import LtcOs.Lib.Memory
import Mathlib.Logic.Relation
import Mathlib.Tactic.Simps.Basic

/-!
Instructions of the ARMv6-M architecture, over a memory with device registers in it, with the
cycles they take.

A store to a device register is recorded with the time at which it is done. There is no step from
a state in which the processor would take a fault, and no exception is taken.
-/

namespace LtcOs.Thumb

open LtcOs.Memory

/-! ### Words in memory -/

/-- Store words one behind the other. -/
def setWords (m : Mem) (a : Nat) : List UInt32 → Mem
  | [] => m
  | w :: ws => setWords (setWord m a w) (a + 4) ws

/-- The words from `a` on. -/
def words (m : Mem) (a : Nat) : (n : Nat) → List UInt32
  | 0 => []
  | n + 1 => word m a :: words m (a + 4) n

theorem setWords_outside {m : Mem} {a x : Nat} {ws : List UInt32}
    (outside : x < a ∨ a + 4 * ws.length ≤ x) : setWords m a ws x = m x := by
  induction ws generalizing m a with
  | nil => rfl
  | cons w ws ih =>
      rw [List.length_cons] at outside
      rw [setWords, ih (by omega), setWord_of_disjoint (by omega)]

theorem word_setWords {m : Mem} {a b : Nat} {ws : List UInt32}
    (outside : b + 4 ≤ a ∨ a + 4 * ws.length ≤ b) : word (setWords m a ws) b = word m b :=
  word_congr fun j lt => setWords_outside (by omega)

/-- What was stored is read. -/
theorem words_setWords (m : Mem) (a : Nat) (ws : List UInt32) :
    words (setWords m a ws) a ws.length = ws := by
  induction ws generalizing m a with
  | nil => rfl
  | cons w ws ih =>
      rw [setWords, List.length_cons, words, word_setWords (by omega), word_setWord_self, ih]

theorem words_add (m : Mem) (a n k : Nat) :
    words m a (n + k) = words m a n ++ words m (a + 4 * n) k := by
  induction n generalizing a with
  | zero => rw [Nat.zero_add, Nat.mul_zero, Nat.add_zero, words, List.nil_append]
  | succ n ih =>
      rw [Nat.add_right_comm, words, words, ih, List.cons_append]
      congr 3
      omega

theorem words_congr {m m' : Mem} {a n : Nat}
    (same : ∀ x, a ≤ x → x < a + 4 * n → m x = m' x) : words m a n = words m' a n := by
  induction n generalizing a with
  | zero => rfl
  | succ n ih =>
      have first : word m a = word m' a := word_congr fun j lt => same _ (by omega) (by omega)
      rw [words, words, first, ih fun x le lt => same x (by omega) (by omega)]

/-! ### States -/

inductive Reg where
  | r0 | r1 | r2 | r3 | r4 | r5 | r6 | r7 | r8 | r9 | r10 | r11 | r12 | sp | lr
deriving DecidableEq, Repr

/-- The flags of the program status register. -/
structure Flags where
  n : Bool
  z : Bool
  c : Bool
  v : Bool
deriving DecidableEq, Repr

/-- A store to a device register. -/
structure Event where
  time : Nat
  addr : UInt32
  value : UInt32
deriving DecidableEq, Repr

structure State where
  regs : Reg → UInt32
  pc : UInt32
  flags : Flags
  mem : Mem
  time : Nat
  log : List Event

/-- Cycles by the kind of an instruction. -/
structure Costs where
  alu : Nat
  load : Nat
  store : Nat
  /-- A store to a device register. -/
  port : Nat
  taken : Nat
  notTaken : Nat
  call : Nat
  ret : Nat
  /-- A transfer of so many words from or to the stack. -/
  stack : Nat → Nat

/-- The cycles, and the addresses that belong to devices. -/
structure Machine where
  costs : Costs
  device : UInt32 → Bool

namespace State

variable (s : State) (r : Reg) (v bytes a : UInt32) (cycles : Nat) (f : Flags)

@[simps] def set : State := { s with regs := Function.update s.regs r v }

@[simps] def setFlags : State := { s with flags := f }

/-- On to the next instruction. -/
@[simps] def next : State := { s with pc := s.pc + bytes, time := s.time + cycles }

@[simps] def jump : State := { s with pc := a, time := s.time + cycles }

end State

/-! ### Instructions -/

/-- The conditions of the branches. -/
inductive Cond where
  | ne
  | cs
deriving DecidableEq, Repr

def Cond.holds (f : Flags) : Cond → Bool
  | .ne => !f.z
  | .cs => f.c

/-- Targets of branches are addresses. -/
inductive Instr where
  | movs (rd : Reg) (imm : UInt8)
  | mov (rd rm : Reg)
  | adds (rd : Reg) (imm : UInt8)
  | addsReg (rd rm : Reg)
  | subs (rd : Reg) (imm : UInt8)
  | muls (rd rm : Reg)
  | lsls (rd : Reg) (imm : Nat)
  | cmp (rn rm : Reg)
  | ldr (rt rn : Reg) (imm : UInt32)
  | ldrb (rt rn : Reg)
  | str (rt rn : Reg) (imm : UInt32)
  | push (list : List Reg)
  | pop (list : List Reg)
  | popPc (list : List Reg)
  | b (target : UInt32)
  | bCond (cond : Cond) (target : UInt32)
  | bl (target : UInt32)
  | bx (rm : Reg)
deriving DecidableEq, Repr

/-- The length in bytes. -/
def Instr.size : Instr → Nat
  | .bl _ => 4
  | _ => 2

def hasBit (v : UInt32) (i : Nat) : Bool := v.toNat.testBit i

def negative (v : UInt32) : Bool := hasBit v 31

def addFlags (x y : UInt32) : Flags where
  n := negative (x + y)
  z := x + y == 0
  c := decide (2 ^ 32 ≤ x.toNat + y.toNat)
  v := negative x == negative y && negative (x + y) != negative x

/-- The carry of a subtraction is set if there is no borrow. -/
def subFlags (x y : UInt32) : Flags where
  n := negative (x - y)
  z := x - y == 0
  c := decide (y.toNat ≤ x.toNat)
  v := negative x != negative y && negative (x - y) != negative x

/-- What a register gets when it is written: the stack pointer is always aligned. -/
def written : Reg → UInt32 → UInt32
  | .sp, v => UInt32.ofNat (v.toNat / 4 * 4)
  | _, v => v

theorem written_sp {v : UInt32} (aligned : v.toNat % 4 = 0) : written .sp v = v := by
  rw [written, Nat.div_mul_cancel (Nat.dvd_of_mod_eq_zero aligned), UInt32.ofNat_toNat]

/-- The flags of a result that leaves carry and overflow alone. -/
def Flags.ofResult (f : Flags) (v : UInt32) : Flags := { f with n := negative v, z := v == 0 }

/-- The flags of a shift, with the last bit shifted out. -/
def Flags.ofShift (f : Flags) (v : UInt32) (out : Bool) : Flags :=
  { f.ofResult v with c := out }

section Access

variable (M : Machine) (s : State) (a : UInt32)

/-- Words are read at aligned addresses only, and no device is read. -/
def load32 : Option UInt32 :=
  if a.toNat % 4 = 0 ∧ M.device a = false then some (word s.mem a.toNat) else none

def load8 : Option UInt8 := if M.device a = false then some (s.mem a.toNat) else none

/-- The store and the cycles it takes. -/
def store32 (v : UInt32) : Option State :=
  if a.toNat % 4 ≠ 0 then none
  else if M.device a then
    some { s.next 2 M.costs.port with log := s.log ++ [⟨s.time + M.costs.port, a, v⟩] }
  else some { s.next 2 M.costs.store with mem := setWord s.mem a.toNat v }

/-- A register is loaded. -/
def loaded (rt : Reg) (v : UInt32) : State := (s.set rt v).next 2 M.costs.load

def setRegs (s : State) : List Reg → List UInt32 → State
  | r :: list, w :: ws => setRegs (s.set r w) list ws
  | _, _ => s

/-- Registers go below the stack pointer, the first one lowest. -/
def pushed (list : List Reg) : Option State :=
  if (s.regs .sp).toNat % 4 = 0 ∧ 4 * list.length ≤ (s.regs .sp).toNat then
    let base := s.regs .sp - UInt32.ofNat (4 * list.length)
    some { (s.set .sp base).next 2 (M.costs.stack list.length) with
      mem := setWords s.mem base.toNat (list.map s.regs) }
  else none

/-- Registers get the words at the stack pointer, which goes up. -/
def popped (list : List Reg) : Option State :=
  let sp := s.regs .sp
  if sp.toNat % 4 = 0 then
    some ((setRegs (s.set .sp (sp + UInt32.ofNat (4 * list.length))) list
      (words s.mem sp.toNat list.length)).next 2 (M.costs.stack list.length))
  else none

/-- A branch to an address from a register or the stack, which has its lowest bit set. -/
def branchTo (cycles : Nat) : Option State :=
  if hasBit a 0 then some (s.jump (a - 1) cycles) else none

/-- Registers and the program counter get the words at the stack pointer, which goes up. -/
def poppedPc (list : List Reg) : Option State :=
  let sp := s.regs .sp
  let n := list.length + 1
  if sp.toNat % 4 = 0 then
    branchTo
      (setRegs (s.set .sp (sp + UInt32.ofNat (4 * n))) list (words s.mem sp.toNat list.length))
      (word s.mem (sp.toNat + 4 * list.length)) (M.costs.stack n)
  else none

end Access

def exec (M : Machine) (s : State) : Instr → Option State
  | .movs rd imm =>
      some (((s.set rd imm.toUInt32).setFlags (s.flags.ofResult imm.toUInt32)).next 2 M.costs.alu)
  | .mov rd rm => some ((s.set rd (written rd (s.regs rm))).next 2 M.costs.alu)
  | .adds rd imm =>
      some (((s.set rd (s.regs rd + imm.toUInt32)).setFlags
        (addFlags (s.regs rd) imm.toUInt32)).next 2 M.costs.alu)
  | .addsReg rd rm =>
      some (((s.set rd (s.regs rd + s.regs rm)).setFlags
        (addFlags (s.regs rd) (s.regs rm))).next 2 M.costs.alu)
  | .subs rd imm =>
      some (((s.set rd (s.regs rd - imm.toUInt32)).setFlags
        (subFlags (s.regs rd) imm.toUInt32)).next 2 M.costs.alu)
  | .muls rd rm =>
      some (((s.set rd (s.regs rd * s.regs rm)).setFlags
        (s.flags.ofResult (s.regs rd * s.regs rm))).next 2 M.costs.alu)
  | .lsls rd imm =>
      let v := s.regs rd <<< UInt32.ofNat imm
      some (((s.set rd v).setFlags
        (s.flags.ofShift v (hasBit (s.regs rd) (32 - imm)))).next 2 M.costs.alu)
  | .cmp rn rm => some ((s.setFlags (subFlags (s.regs rn) (s.regs rm))).next 2 M.costs.alu)
  | .ldr rt rn imm => (load32 M s (s.regs rn + imm)).map (loaded M s rt)
  | .ldrb rt rn => (load8 M s (s.regs rn)).map fun b => loaded M s rt b.toUInt32
  | .str rt rn imm => store32 M s (s.regs rn + imm) (s.regs rt)
  | .push list => pushed M s list
  | .pop list => popped M s list
  | .popPc list => poppedPc M s list
  | .b target => some (s.jump target M.costs.taken)
  | .bCond cond target =>
      some (if cond.holds s.flags then s.jump target M.costs.taken else s.next 2 M.costs.notTaken)
  | .bl target => some ((s.set .lr (s.pc + 4 ||| 1)).jump target M.costs.call)
  | .bx rm => branchTo s (s.regs rm) M.costs.ret

/-! ### Programs -/

/-- The instruction at a distance from the first one. -/
def fetch : List Instr → Nat → Option Instr
  | [], _ => none
  | i :: code, k => if k = 0 then some i else if k < i.size then none else fetch code (k - i.size)

/-- Instructions at an address in memory. -/
structure Code where
  base : UInt32
  instrs : List Instr

/-- The instruction at `pc` is executed. -/
def Step (M : Machine) (C : Code) (s t : State) : Prop :=
  ∃ i, fetch C.instrs (s.pc - C.base).toNat = some i ∧ exec M s i = some t

/-- Any number of instructions. -/
abbrev Steps (M : Machine) (C : Code) : State → State → Prop := Relation.ReflTransGen (Step M C)

/-- The instruction at a distance from the base is executed. -/
theorem step_at {M : Machine} {C : Code} {s t : State} {k : UInt32} {i : Instr}
    (pc : s.pc = C.base + k) (here : fetch C.instrs k.toNat = some i)
    (run : exec M s i = some t) : Step M C s t := by
  refine ⟨i, ?_, run⟩
  rw [pc, UInt32.add_comm, UInt32.add_sub_cancel]
  exact here

/-- Two bytes on, the distance from the base is two more. -/
theorem add_two {a base k : UInt32} (eq : a = base + k) : a + 2 = base + (k + 2) := by
  rw [eq, UInt32.add_assoc]

/-- So many instructions, one after the other. -/
def run (M : Machine) (C : Code) : Nat → State → Option State
  | 0, s => some s
  | n + 1, s => ((fetch C.instrs (s.pc - C.base).toNat).bind (exec M s)).bind (run M C n)

theorem run_at {M : Machine} {C : Code} {s t : State} {k : UInt32} {i : Instr} {n : Nat}
    (pc : s.pc = C.base + k) (here : fetch C.instrs k.toNat = some i)
    (step : exec M s i = some t) : run M C (n + 1) s = run M C n t := by
  have at_k : (s.pc - C.base).toNat = k.toNat := by
    rw [pc, UInt32.add_comm, UInt32.add_sub_cancel]
  rw [run, at_k, here, Option.bind_some, step, Option.bind_some]

theorem run_steps {M : Machine} {C : Code} {s t : State} {n : Nat}
    (ran : run M C n s = some t) : Steps M C s t := by
  induction n generalizing s with
  | zero =>
      cases ran
      exact .refl
  | succ n ih =>
      obtain ⟨u, step, rest⟩ := Option.bind_eq_some_iff.mp ran
      exact .head (Option.bind_eq_some_iff.mp step) (ih rest)

theorem toNat_sub_ofNat {a : UInt32} {n : Nat} (le : n ≤ a.toNat) :
    (a - UInt32.ofNat n).toNat = a.toNat - n := by
  have small : (UInt32.ofNat n).toNat = n :=
    UInt32.toNat_ofNat_of_lt' (Nat.lt_of_le_of_lt le a.toNat_lt)
  rw [UInt32.toNat_sub_of_le, small]
  rw [UInt32.le_iff_toNat_le, small]
  exact le

/-- The registers are pushed where there is room for them. -/
theorem exec_push {M : Machine} {s : State} {list : List Reg}
    (aligned : (s.regs .sp).toNat % 4 = 0) (room : 4 * list.length ≤ (s.regs .sp).toNat) :
    exec M s (.push list) =
      some { (s.set .sp (s.regs .sp - UInt32.ofNat (4 * list.length))).next 2
          (M.costs.stack list.length) with
        mem := setWords s.mem ((s.regs .sp).toNat - 4 * list.length) (list.map s.regs) } := by
  rw [exec, pushed, if_pos ⟨aligned, room⟩]
  simp only [toNat_sub_ofNat room]

/-- A return address is marked and unmarked as one of Thumb code. -/
theorem or_one_sub_one {a : UInt32} (even : a.toNat % 2 = 0) : (a ||| 1) - 1 = a := by
  have marked : (a ||| 1).toNat = a.toNat + 1 := by
    have split := Nat.two_pow_add_eq_or_of_lt (show 1 < 2 ^ 1 by decide) (a.toNat / 2)
    rw [show 2 ^ 1 * (a.toNat / 2) = a.toNat by omega] at split
    rw [UInt32.toNat_or]
    exact split.symm
  apply UInt32.toNat_inj.mp
  have le : (1 : UInt32) ≤ a ||| 1 := UInt32.le_iff_toNat_le.mpr (by rw [marked]; simp)
  rw [UInt32.toNat_sub_of_le _ _ le, marked]
  rfl

theorem hasBit_or_one {a : UInt32} : hasBit (a ||| 1) 0 = true := by
  simp [hasBit]

end LtcOs.Thumb
