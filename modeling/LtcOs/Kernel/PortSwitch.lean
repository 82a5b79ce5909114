import LtcOs.Lib.Thumb

/-!
The switch between threads, from the ARMv6-M port of the kernel.

The registers that a thread keeps over a call go to its stack and the stack pointer to its thread
structure; then the thread that comes in gets its own back and returns from the call with which
it went out.
-/

namespace LtcOs.PortSwitch

open LtcOs.Memory LtcOs.Thumb

/-! ### The code -/

def CONTEXT_OFFSET : UInt32 := 12

def _port_switch (base : UInt32) : Code where
  base := base
  instrs := [
    .push [.r4, .r5, .r6, .r7, .lr],
    .mov .r4 .r8,
    .mov .r5 .r9,
    .mov .r6 .r10,
    .mov .r7 .r11,
    .push [.r4, .r5, .r6, .r7],
    .mov .r3 .sp,
    .str .r3 .r1 CONTEXT_OFFSET,
    .ldr .r3 .r0 CONTEXT_OFFSET,
    .mov .sp .r3,
    .pop [.r4, .r5, .r6, .r7],
    .mov .r8 .r4,
    .mov .r9 .r5,
    .mov .r10 .r6,
    .mov .r11 .r7,
    .popPc [.r4, .r5, .r6, .r7]]

/-- The frame on the stack of a thread that is switched out. -/
structure PortIntctx where
  r8 : UInt32
  r9 : UInt32
  r10 : UInt32
  r11 : UInt32
  r4 : UInt32
  r5 : UInt32
  r6 : UInt32
  r7 : UInt32
  lr : UInt32

namespace PortIntctx

def words (c : PortIntctx) : List UInt32 :=
  [c.r8, c.r9, c.r10, c.r11, c.r4, c.r5, c.r6, c.r7, c.lr]

/-- The registers of a thread that calls the switch. -/
def ofState (s : State) : PortIntctx where
  r8 := s.regs .r8
  r9 := s.regs .r9
  r10 := s.regs .r10
  r11 := s.regs .r11
  r4 := s.regs .r4
  r5 := s.regs .r5
  r6 := s.regs .r6
  r7 := s.regs .r7
  lr := s.regs .lr

/-- The words of a frame in memory. -/
def read (m : Mem) (a : Nat) : PortIntctx where
  r8 := word m a
  r9 := word m (a + 4)
  r10 := word m (a + 8)
  r11 := word m (a + 12)
  r4 := word m (a + 16)
  r5 := word m (a + 20)
  r6 := word m (a + 24)
  r7 := word m (a + 28)
  lr := word m (a + 32)

theorem words_read (m : Mem) (a : Nat) : (read m a).words = Thumb.words m a 9 := rfl

theorem words_inj {c d : PortIntctx} (same : c.words = d.words) : c = d := by
  cases c
  cases d
  simp only [words, List.cons.injEq, and_true] at same
  simp only [mk.injEq]
  exact same

theorem read_congr {m m' : Mem} {a : Nat} (same : ∀ x, a ≤ x → x < a + 36 → m x = m' x) :
    read m a = read m' a :=
  words_inj (Thumb.words_congr (n := 9) same)

end PortIntctx

/-- The field of a thread structure with the stack pointer of a thread that is out. -/
def p_ctx (tp : UInt32) : UInt32 := tp + CONTEXT_OFFSET

/-- A call of `_port_switch` for the thread at `ntp` by the one at `otp`. -/
structure Called (M : Machine) (base ntp otp : UInt32) (s : State) : Prop where
  pc : s.pc = base
  ntp_eq : s.regs .r0 = ntp
  otp_eq : s.regs .r1 = otp
  thumb : hasBit (s.regs .lr) 0 = true
  aligned : (s.regs .sp).toNat % 4 = 0
  room : 36 ≤ (s.regs .sp).toNat
  ntp_aligned : (p_ctx ntp).toNat % 4 = 0
  otp_aligned : (p_ctx otp).toNat % 4 = 0
  ntp_memory : M.device (p_ctx ntp) = false
  otp_memory : M.device (p_ctx otp) = false

section Code

variable {M : Machine} {base ntp otp p : UInt32} {s e : State}

/-- The memory with the frame on the stack. -/
def framed (s : State) : Mem :=
  setWords (setWords s.mem ((s.regs .sp).toNat - 20)
      [s.regs .r4, s.regs .r5, s.regs .r6, s.regs .r7, s.regs .lr])
    ((s.regs .sp).toNat - 36) [s.regs .r8, s.regs .r9, s.regs .r10, s.regs .r11]

theorem framed_outside {a : Nat} (room : 36 ≤ (s.regs .sp).toNat)
    (outside : a < (s.regs .sp).toNat - 36 ∨ (s.regs .sp).toNat ≤ a) : framed s a = s.mem a := by
  rw [framed, setWords_outside, setWords_outside]
  · simp only [List.length_cons, List.length_nil]
    omega
  · simp only [List.length_cons, List.length_nil]
    omega

theorem read_framed (room : 36 ≤ (s.regs .sp).toNat) :
    PortIntctx.read (framed s) ((s.regs .sp).toNat - 36) = PortIntctx.ofState s := by
  apply PortIntctx.words_inj
  rw [PortIntctx.words_read, words_add _ _ 4 5]
  have low := words_setWords (setWords s.mem ((s.regs .sp).toNat - 20)
      [s.regs .r4, s.regs .r5, s.regs .r6, s.regs .r7, s.regs .lr])
    ((s.regs .sp).toNat - 36) [s.regs .r8, s.regs .r9, s.regs .r10, s.regs .r11]
  have high := words_setWords s.mem ((s.regs .sp).toNat - 20)
    [s.regs .r4, s.regs .r5, s.regs .r6, s.regs .r7, s.regs .lr]
  have above : words (framed s) ((s.regs .sp).toNat - 36 + 4 * 4) 5 =
      words (setWords s.mem ((s.regs .sp).toNat - 20)
        [s.regs .r4, s.regs .r5, s.regs .r6, s.regs .r7, s.regs .lr])
        ((s.regs .sp).toNat - 20) 5 := by
    rw [show (s.regs .sp).toNat - 36 + 4 * 4 = (s.regs .sp).toNat - 20 by omega]
    apply words_congr
    intro x le lt
    apply setWords_outside
    simp only [List.length_cons, List.length_nil]
    omega
  rw [above]
  exact congrArg₂ (· ++ ·) low high

/-- The thread is out. -/
structure Left (M : Machine) (base ntp otp : UInt32) (s e : State) : Prop where
  run : ∀ n, run M (_port_switch base) (8 + n) s = run M (_port_switch base) n e
  pc : e.pc = base + 16
  ntp_eq : e.regs .r0 = ntp
  mem : e.mem = setWord (framed s) (p_ctx otp).toNat (s.regs .sp - 36)

theorem leaves (called : Called M base ntp otp s) : ∃ e, Left M base ntp otp s e := by
  let s₁ : State := { (s.set .sp (s.regs .sp - 20)).next 2 (M.costs.stack 5) with
    mem := setWords s.mem ((s.regs .sp).toNat - 20)
      [s.regs .r4, s.regs .r5, s.regs .r6, s.regs .r7, s.regs .lr] }
  have push₁ : exec M s (.push [.r4, .r5, .r6, .r7, .lr]) = some s₁ :=
    exec_push called.aligned (Nat.le_trans (by decide) called.room)
  let s₂ := (s₁.set .r4 (s.regs .r8)).next 2 M.costs.alu
  let s₃ := (s₂.set .r5 (s.regs .r9)).next 2 M.costs.alu
  let s₄ := (s₃.set .r6 (s.regs .r10)).next 2 M.costs.alu
  let s₅ := (s₄.set .r7 (s.regs .r11)).next 2 M.costs.alu
  have sp₅ : s₅.regs .sp = s.regs .sp - 20 := by simp [s₅, s₄, s₃, s₂, s₁]
  have sp_toNat : (s.regs .sp - 20).toNat = (s.regs .sp).toNat - 20 :=
    toNat_sub_ofNat (n := 20) (Nat.le_trans (by decide) called.room)
  let s₆ : State := { (s₅.set .sp (s.regs .sp - 36)).next 2 (M.costs.stack 4) with
    mem := framed s }
  have push₂ : exec M s₅ (.push [.r4, .r5, .r6, .r7]) = some s₆ := by
    have aligned : (s₅.regs .sp).toNat % 4 = 0 := by
      have := called.aligned
      have := called.room
      rw [sp₅, sp_toNat]
      omega
    have room : 4 * [Reg.r4, .r5, .r6, .r7].length ≤ (s₅.regs .sp).toNat := by
      rw [sp₅, sp_toNat]
      exact Nat.le_sub_of_add_le called.room
    have lower : s.regs .sp - 20 - UInt32.ofNat 16 = s.regs .sp - 36 := by grind
    rw [exec_push aligned room, sp₅, sp_toNat]
    simp only [List.length_cons, List.length_nil, Nat.zero_add, Nat.reduceAdd, Nat.reduceMul,
      lower, Nat.sub_sub]
    rfl
  let s₇ := (s₆.set .r3 (s.regs .sp - 36)).next 2 M.costs.alu
  let s₈ : State := { s₇.next 2 M.costs.store with
    mem := setWord (framed s) (p_ctx otp).toNat (s.regs .sp - 36) }
  have store : exec M s₇ (.str .r3 .r1 CONTEXT_OFFSET) = some s₈ := by
    have addr : s₇.regs .r1 + CONTEXT_OFFSET = p_ctx otp := by
      simp [s₇, s₆, s₅, s₄, s₃, s₂, s₁, called.otp_eq, p_ctx]
    rw [exec, addr, store32, if_neg (not_not.mpr called.otp_aligned), called.otp_memory]
    rfl
  have pc : s.pc = base + 0 := by rw [called.pc, UInt32.add_zero]
  have pc₁ : s₁.pc = base + 2 := by simp [s₁, called.pc]
  have pc₂ : s₂.pc = base + 4 := add_two pc₁
  have pc₃ : s₃.pc = base + 6 := add_two pc₂
  have pc₄ : s₄.pc = base + 8 := add_two pc₃
  have pc₅ : s₅.pc = base + 10 := add_two pc₄
  have pc₆ : s₆.pc = base + 12 := add_two pc₅
  have pc₇ : s₇.pc = base + 14 := add_two pc₆
  refine ⟨s₈, ?_, ?_, ?_, rfl⟩
  · intro n
    rw [Nat.add_comm, run_at pc rfl push₁, run_at (t := s₂) pc₁ rfl rfl, run_at (t := s₃) pc₂ rfl rfl,
      run_at (t := s₄) pc₃ rfl rfl, run_at (t := s₅) pc₄ rfl rfl, run_at pc₅ rfl push₂,
      run_at (t := s₇) pc₆ rfl rfl, run_at pc₇ rfl store]
  · exact add_two pc₇
  · simp [s₈, s₇, s₆, s₅, s₄, s₃, s₂, s₁, called.ntp_eq]

/-- A thread goes on behind its call, with the registers of its frame. -/
structure Resumed (sp : UInt32) (c : PortIntctx) (t : State) : Prop where
  pc : t.pc = c.lr - 1
  sp : t.regs .sp = sp
  r4 : t.regs .r4 = c.r4
  r5 : t.regs .r5 = c.r5
  r6 : t.regs .r6 = c.r6
  r7 : t.regs .r7 = c.r7
  r8 : t.regs .r8 = c.r8
  r9 : t.regs .r9 = c.r9
  r10 : t.regs .r10 = c.r10
  r11 : t.regs .r11 = c.r11

theorem enters (pc : e.pc = base + 16) (ntp_eq : e.regs .r0 = ntp)
    (ntp_aligned : (p_ctx ntp).toNat % 4 = 0) (ntp_memory : M.device (p_ctx ntp) = false)
    (saved : word e.mem (p_ctx ntp).toNat = p) (aligned : p.toNat % 4 = 0)
    (room : p.toNat + 36 < 4294967296)
    (thumb : hasBit (PortIntctx.read e.mem p.toNat).lr 0 = true) :
    ∃ t, run M (_port_switch base) 8 e = some t ∧
      Resumed (p + 36) (PortIntctx.read e.mem p.toNat) t ∧ t.mem = e.mem := by
  let e₁ := loaded M e .r3 p
  have load : exec M e (.ldr .r3 .r0 CONTEXT_OFFSET) = some e₁ := by
    have addr : e.regs .r0 + CONTEXT_OFFSET = p_ctx ntp := by rw [ntp_eq, p_ctx]
    rw [exec, addr, load32, if_pos ⟨ntp_aligned, ntp_memory⟩, saved]
    rfl
  let e₂ := (e₁.set .sp p).next 2 M.costs.alu
  have move : exec M e₁ (.mov .sp .r3) = some e₂ := by
    have r3 : e₁.regs .r3 = p := by simp [e₁, loaded]
    rw [exec, r3, written_sp aligned]
  let c := PortIntctx.read e.mem p.toNat
  let e₃ := (setRegs (e₂.set .sp (p + 16)) [.r4, .r5, .r6, .r7] [c.r8, c.r9, c.r10, c.r11]).next 2
    (M.costs.stack 4)
  have pop : exec M e₂ (.pop [.r4, .r5, .r6, .r7]) = some e₃ := by
    have sp : e₂.regs .sp = p := by simp [e₂]
    rw [exec, popped]
    simp only [sp]
    rw [if_pos aligned]
    rfl
  let e₄ := (e₃.set .r8 c.r8).next 2 M.costs.alu
  let e₅ := (e₄.set .r9 c.r9).next 2 M.costs.alu
  let e₆ := (e₅.set .r10 c.r10).next 2 M.costs.alu
  let e₇ := (e₆.set .r11 c.r11).next 2 M.costs.alu
  let t := (setRegs (e₇.set .sp (p + 36)) [.r4, .r5, .r6, .r7] [c.r4, c.r5, c.r6, c.r7]).jump
    (c.lr - 1) (M.costs.stack 5)
  have ret : exec M e₇ (.popPc [.r4, .r5, .r6, .r7]) = some t := by
    have sp : e₇.regs .sp = p + 16 := by simp [e₇, e₆, e₅, e₄, e₃, setRegs]
    have toNat : (p + 16).toNat = p.toNat + 16 := by
      rw [UInt32.toNat_add]
      exact Nat.mod_eq_of_lt (Nat.lt_trans (by simp) room)
    have above : p + 16 + UInt32.ofNat (4 * (4 + 1)) = p + 36 := UInt32.add_assoc _ _ _
    rw [exec, poppedPc]
    simp only [sp, List.length_cons, List.length_nil, Nat.zero_add, Nat.reduceAdd]
    simp only [Nat.reduceAdd] at above
    rw [above, toNat, if_pos (by omega)]
    have lr : word e₇.mem (p.toNat + 16 + 4 * 4) = c.lr := rfl
    rw [lr, branchTo, if_pos thumb]
    rfl
  have pc₁ : e₁.pc = base + 18 := add_two pc
  have pc₂ : e₂.pc = base + 20 := add_two pc₁
  have pc₃ : e₃.pc = base + 22 := add_two pc₂
  have pc₄ : e₄.pc = base + 24 := add_two pc₃
  have pc₅ : e₅.pc = base + 26 := add_two pc₄
  have pc₆ : e₆.pc = base + 28 := add_two pc₅
  have pc₇ : e₇.pc = base + 30 := add_two pc₆
  refine ⟨t, ?_, ?_, rfl⟩
  · rw [run_at pc rfl load, run_at pc₁ rfl move, run_at pc₂ rfl pop, run_at (t := e₄) pc₃ rfl rfl,
      run_at (t := e₅) pc₄ rfl rfl, run_at (t := e₆) pc₅ rfl rfl, run_at (t := e₇) pc₆ rfl rfl,
      run_at pc₇ rfl ret]
    rfl
  · constructor <;> simp [t, e₇, e₆, e₅, e₄, e₃, setRegs, c]

end Code

/-! ### The threads -/

/-- The addresses of the port's code and of the thread structures. -/
structure Port (T : Type*) where
  machine : Machine
  _port_switch_addr : UInt32
  _port_thread_start : UInt32
  thumb : hasBit _port_thread_start 0 = true
  tp : T → UInt32

/-- What a thread that is not running goes on with. -/
structure Out where
  sp : UInt32
  ctx : PortIntctx

structure Sys (T : Type*) where
  cpu : State
  current : T
  /-- The threads that are out, by what they went out with. -/
  out : T → Option Out

inductive Act (T : Type*) where
  | run
  | create (t : T) (workspace wsize pf arg : UInt32)
  | switch (ntp : T)
  | exit (t : T)

/-- The thread that comes, goes or enters. -/
def Act.thread {T : Type*} : Act T → Option T
  | run => none
  | create t _ _ _ _ => some t
  | switch ntp => some ntp
  | exit t => some t

variable {T : Type*} (P : Port T)

/-- The frame below a stack pointer, and the field that leads to it. -/
def Port.Keeps (t : T) (sp : UInt32) (a : Nat) : Prop :=
  (sp.toNat - 36 ≤ a ∧ a < sp.toNat) ∨
    ((p_ctx (P.tp t)).toNat ≤ a ∧ a < (p_ctx (P.tp t)).toNat + 4)

/-- A new thread begins at `_port_thread_start` with its function and the argument. -/
def Port.PORT_SETUP_CONTEXT (t : T) (workspace wsize pf arg : UInt32) (m : Mem) : Mem :=
  let r13 := workspace + wsize - 36
  let m := setWord m (p_ctx (P.tp t)).toNat r13
  let m := setWord m (r13.toNat + 16) pf
  let m := setWord m (r13.toNat + 20) arg
  setWord m (r13.toNat + 32) P._port_thread_start

/-- There is room for a frame below the stack pointer, away from its thread structure and from
what the threads that are out need. -/
structure Port.Room (out : T → Option Out) (t : T) (sp : UInt32) : Prop where
  aligned : sp.toNat % 4 = 0
  room : 36 ≤ sp.toNat
  own : (p_ctx (P.tp t)).toNat + 4 ≤ sp.toNat - 36 ∨ sp.toNat ≤ (p_ctx (P.tp t)).toNat
  others : ∀ u o, u ≠ t → out u = some o → ∀ a, P.Keeps u o.sp a → ¬ P.Keeps t sp a

/-- The memory has what a thread goes on with. -/
structure Port.Stored (m : Mem) (t : T) (o : Out) : Prop where
  field : word m (p_ctx (P.tp t)).toNat = o.sp - 36
  frame : PortIntctx.read m (o.sp.toNat - 36) = o.ctx
  aligned : o.sp.toNat % 4 = 0
  room : 36 ≤ o.sp.toNat
  thumb : hasBit o.ctx.lr 0 = true

section Stored

variable {P} {u : T} {o : Out}

theorem stored_congr {m m' : Mem} (stored : P.Stored m u o)
    (same : ∀ a, P.Keeps u o.sp a → m' a = m a) : P.Stored m' u o where
  field := by
    rw [← stored.field]
    exact word_congr fun j lt => same _ (.inr ⟨Nat.le_add_right _ _, Nat.add_lt_add_left lt _⟩)
  frame := by
    rw [← stored.frame]
    have room := stored.room
    exact PortIntctx.read_congr fun a le lt => same a (.inl ⟨le, by omega⟩)
  aligned := stored.aligned
  room := stored.room
  thumb := stored.thumb

/-- The memory after a thread went out -/
def Port.left (P : Port T) (t : T) (s : State) : Mem :=
  setWord (framed s) (p_ctx (P.tp t)).toNat (s.regs .sp - 36)

theorem left_outside {s : State} {a : Nat} (room : 36 ≤ (s.regs .sp).toNat)
    (outside : ¬ P.Keeps u (s.regs .sp) a) : P.left u s a = s.mem a := by
  have ⟨frame, field⟩ := not_or.mp outside
  rw [Port.left, setWord_of_disjoint (by omega), framed_outside room (by omega)]

theorem stored_left {s : State} {out : T → Option Out} (room : P.Room out u (s.regs .sp))
    (thumb : hasBit (s.regs .lr) 0 = true) :
    P.Stored (P.left u s) u ⟨s.regs .sp, PortIntctx.ofState s⟩ where
  field := word_setWord_self _ _ _
  frame := by
    have own := room.own
    have := room.room
    rw [← read_framed room.room]
    apply PortIntctx.read_congr
    intro a le lt
    dsimp only at le lt
    exact setWord_of_disjoint (by omega)
  aligned := room.aligned
  room := room.room
  thumb := thumb

theorem toNat_frame {sp : UInt32} (room : 36 ≤ sp.toNat) : (sp - 36).toNat = sp.toNat - 36 :=
  toNat_sub_ofNat (n := 36) room

section Create

variable {out : T → Option Out} {workspace wsize pf arg : UInt32} {m : Mem}

theorem setup_outside (room : P.Room out u (workspace + wsize)) {a : Nat}
    (outside : ¬ P.Keeps u (workspace + wsize) a) :
    P.PORT_SETUP_CONTEXT u workspace wsize pf arg m a = m a := by
  have ⟨frame, field⟩ := not_or.mp outside
  have fits := room.room
  rw [Port.PORT_SETUP_CONTEXT]
  simp only [toNat_frame room.room]
  rw [setWord_of_disjoint (by omega), setWord_of_disjoint (by omega),
    setWord_of_disjoint (by omega), setWord_of_disjoint (by omega)]

variable (pf arg m) in
/-- The words that a new thread finds -/
theorem setup_words (room : P.Room out u (workspace + wsize)) :
    word (P.PORT_SETUP_CONTEXT u workspace wsize pf arg m) (p_ctx (P.tp u)).toNat =
        workspace + wsize - 36 ∧
      let c := PortIntctx.read (P.PORT_SETUP_CONTEXT u workspace wsize pf arg m)
        (workspace + wsize - 36).toNat
      c.r4 = pf ∧ c.r5 = arg ∧ c.lr = P._port_thread_start := by
  have own := room.own
  have fits := room.room
  simp only [PortIntctx.read, Port.PORT_SETUP_CONTEXT, toNat_frame room.room]
  refine ⟨?_, ?_, ?_, ?_⟩
  · rw [word_setWord_of_disjoint (by omega), word_setWord_of_disjoint (by omega),
      word_setWord_of_disjoint (by omega), word_setWord_self]
  · rw [word_setWord_of_disjoint (by omega), word_setWord_of_disjoint (by omega),
      word_setWord_self]
  · rw [word_setWord_of_disjoint (by omega), word_setWord_self]
  · rw [word_setWord_self]

theorem stored_setup (room : P.Room out u (workspace + wsize)) :
    P.Stored (P.PORT_SETUP_CONTEXT u workspace wsize pf arg m) u ⟨workspace + wsize,
      PortIntctx.read (P.PORT_SETUP_CONTEXT u workspace wsize pf arg m)
        (workspace + wsize - 36).toNat⟩ := by
  obtain ⟨field, -, -, lr⟩ := setup_words pf arg m room
  refine ⟨field, ?_, room.aligned, room.room, ?_⟩
  · rw [toNat_frame room.room]
  · simp only [lr]
    exact P.thumb

end Create

end Stored

/-! ### Runs -/

section Runs

variable [DecidableEq T]

/-- The running thread does anything but write where a thread that is out is kept, makes a new
thread, or calls the switch, which has sixteen instructions. A thread that has come to its end
needs nothing any more. -/
inductive Port.Step : Sys T → Act T → Sys T → Prop
  | run {s : Sys T} (cpu : State)
      (kept : ∀ t o, s.out t = some o → ∀ a, P.Keeps t o.sp a → cpu.mem a = s.cpu.mem a) :
      Step s .run { s with cpu := cpu }
  | create {s : Sys T} {t : T} {workspace wsize : UInt32} (pf arg : UInt32)
      (other : t ≠ s.current) (new : s.out t = none)
      (room : P.Room s.out t (workspace + wsize)) :
      Step s (.create t workspace wsize pf arg)
        { s with
          cpu := { s.cpu with
            mem := P.PORT_SETUP_CONTEXT t workspace wsize pf arg s.cpu.mem }
          out := Function.update s.out t (some ⟨workspace + wsize, PortIntctx.read
            (P.PORT_SETUP_CONTEXT t workspace wsize pf arg s.cpu.mem)
            (workspace + wsize - 36).toNat⟩) }
  | switch {s : Sys T} {ntp : T} {cpu : State} (ready : s.out ntp ≠ none)
      (called : Called P.machine P._port_switch_addr (P.tp ntp) (P.tp s.current) s.cpu)
      (room : P.Room s.out s.current (s.cpu.regs .sp))
      (ran : Thumb.run P.machine (_port_switch P._port_switch_addr) 16 s.cpu = some cpu) :
      Step s (.switch ntp)
        { cpu := cpu
          current := ntp
          out := Function.update (Function.update s.out s.current
            (some ⟨s.cpu.regs .sp, PortIntctx.ofState s.cpu⟩)) ntp none }
  | exit {s : Sys T} (t : T) : Step s (.exit t) { s with out := Function.update s.out t none }

/-- No thread is out at the start. -/
inductive Port.Reachable : Sys T → Prop
  | start (cpu : State) (current : T) : Reachable ⟨cpu, current, fun _ => none⟩
  | step {s t : Sys T} {act : Act T} (reachable : Reachable s) (step : P.Step s act t) :
      Reachable t

structure Port.Inv (s : Sys T) : Prop where
  running : s.out s.current = none
  stored : ∀ t o, s.out t = some o → P.Stored s.cpu.mem t o

variable {P} {s t x y : Sys T} {act : Act T} {u ntp : T} {o : Out}

omit [DecidableEq T] in
/-- The instructions of the switch, for a thread that is out -/
theorem switches (inv : P.Inv s) (ready : s.out ntp = some o)
    (called : Called P.machine P._port_switch_addr (P.tp ntp) (P.tp s.current) s.cpu)
    (room : P.Room s.out s.current (s.cpu.regs .sp)) :
    ∃ cpu, Thumb.run P.machine (_port_switch P._port_switch_addr) 16 s.cpu = some cpu ∧
      Resumed o.sp o.ctx cpu ∧ cpu.mem = P.left s.current s.cpu := by
  have other : ntp ≠ s.current := by
    rintro rfl
    rw [inv.running] at ready
    cases ready
  have stored : P.Stored (P.left s.current s.cpu) ntp o :=
    stored_congr (inv.stored ntp o ready) fun a keeps =>
      left_outside room.room (room.others ntp o other ready a keeps)
  obtain ⟨e, left⟩ := leaves called
  have mem : e.mem = P.left s.current s.cpu := left.mem
  have toNat := toNat_frame stored.room
  have frame : PortIntctx.read e.mem (o.sp - 36).toNat = o.ctx := by
    rw [mem, toNat, stored.frame]
  have field : word e.mem (p_ctx (P.tp ntp)).toNat = o.sp - 36 := by rw [mem, stored.field]
  have aligned : (o.sp - 36).toNat % 4 = 0 := by
    have := stored.aligned
    have := stored.room
    omega
  have small : (o.sp - 36).toNat + 36 < 4294967296 := by
    have := stored.room
    have := o.sp.toNat_lt
    omega
  obtain ⟨cpu, ran, resumed, same⟩ := enters left.pc left.ntp_eq called.ntp_aligned
    called.ntp_memory field aligned small (by rw [frame]; exact stored.thumb)
  rw [frame, UInt32.sub_add_cancel] at resumed
  exact ⟨cpu, (left.run 8).trans ran, resumed, same.trans mem⟩

/-- A call of the switch is over with the thread that it is for. -/
theorem switched (inv : P.Inv s) (step : P.Step s (.switch ntp) t) :
    ∃ o, s.out ntp = some o ∧ Resumed o.sp o.ctx t.cpu ∧ t.cpu.mem = P.left s.current s.cpu := by
  cases step with
  | switch ready called room ran =>
      obtain ⟨o, ready⟩ := Option.ne_none_iff_exists'.mp ready
      obtain ⟨cpu, ran', resumed, mem⟩ := switches inv ready called room
      rw [ran] at ran'
      cases ran'
      exact ⟨o, ready, resumed, mem⟩

theorem Port.Inv.step (inv : P.Inv s) (step : P.Step s act t) : P.Inv t := by
  cases step with
  | run cpu kept =>
      exact ⟨inv.running, fun t o out => stored_congr (inv.stored t o out) (kept t o out)⟩
  | @create u workspace wsize pf arg other new room =>
      constructor
      · change Function.update s.out u _ s.current = none
        rw [Function.update_of_ne other.symm]
        exact inv.running
      · intro v o out
        dsimp only at out
        by_cases same : v = u
        · subst same
          rw [Function.update_self] at out
          cases out
          exact stored_setup room
        · rw [Function.update_of_ne same] at out
          exact stored_congr (inv.stored v o out) fun a keeps =>
            setup_outside room (room.others v o same out a keeps)
  | @switch ntp cpu ready called room ran =>
      obtain ⟨-, -, -, mem⟩ := switched inv (.switch ready called room ran)
      constructor
      · exact Function.update_self _ _ _
      · intro v o out
        dsimp only at out
        change P.Stored cpu.mem v o
        change cpu.mem = _ at mem
        rw [mem]
        have other : v ≠ ntp := by
          rintro rfl
          rw [Function.update_self] at out
          cases out
        rw [Function.update_of_ne other] at out
        by_cases same : v = s.current
        · subst same
          rw [Function.update_self] at out
          cases out
          exact stored_left room called.thumb
        · rw [Function.update_of_ne same] at out
          exact stored_congr (inv.stored v o out) fun a keeps =>
            left_outside room.room (room.others v o same out a keeps)
  | exit u =>
      constructor
      · change Function.update s.out u none s.current = none
        by_cases same : s.current = u
        · rw [same, Function.update_self]
        · rw [Function.update_of_ne same]
          exact inv.running
      · intro v o out
        dsimp only at out
        by_cases same : v = u
        · rw [same, Function.update_self] at out
          cases out
        · rw [Function.update_of_ne same] at out
          exact inv.stored v o out

theorem Port.Reachable.inv (reachable : P.Reachable s) : P.Inv s := by
  induction reachable with
  | start cpu current => exact ⟨rfl, fun t o out => nomatch out⟩
  | step _ step inv => exact inv.step step

/-- What the others do. -/
def Port.Away (P : Port T) (u : T) (x y : Sys T) : Prop :=
  ∃ act : Act T, act.thread ≠ some u ∧ P.Step x act y

theorem out_step (inv : P.Inv x) (away : P.Away u x y) (out : x.out u = some o) :
    y.out u = some o := by
  obtain ⟨act, other, step⟩ := away
  cases step with
  | run => exact out
  | create => exact (Function.update_of_ne (fun eq => other (congrArg some eq.symm)) _ _).trans out
  | switch =>
      have running : u ≠ x.current := by
        rintro rfl
        rw [inv.running] at out
        cases out
      rw [← out, ← Function.update_of_ne running (some _) x.out]
      exact Function.update_of_ne (fun eq => other (congrArg some eq.symm)) _ _
  | exit => exact (Function.update_of_ne (fun eq => other (congrArg some eq.symm)) _ _).trans out

/-- A thread that is out stays as it is until it comes in again. -/
theorem out_away (inv : P.Inv x) (away : Relation.ReflTransGen (P.Away u) x y)
    (out : x.out u = some o) : P.Inv y ∧ y.out u = some o := by
  induction away with
  | refl => exact ⟨inv, out⟩
  | tail _ step ih =>
      obtain ⟨act, -, next⟩ := id step
      exact ⟨ih.1.step next, out_step ih.1 step ih.2⟩

theorem resumed_away (inv : P.Inv x) (out : x.out u = some o)
    (away : Relation.ReflTransGen (P.Away u) x y) (step : P.Step y (.switch u) t) :
    Resumed o.sp o.ctx t.cpu := by
  obtain ⟨inv', out'⟩ := out_away inv away out
  obtain ⟨o', ready, resumed, -⟩ := switched inv' step
  rw [out'] at ready
  cases ready
  exact resumed

/-- Where a call of the switch brings a thread in, and what it leaves alone. -/
structure Port.Resumes (P : Port T) (s : Sys T) : Prop where
  returns : ∀ ntp, s.out ntp ≠ none →
    Called P.machine P._port_switch_addr (P.tp ntp) (P.tp s.current) s.cpu →
    P.Room s.out s.current (s.cpu.regs .sp) → ∃ t, P.Step s (.switch ntp) t ∧
      Steps P.machine (_port_switch P._port_switch_addr) s.cpu t.cpu
  memory : ∀ ntp t, P.Step s (.switch ntp) t → ∀ a, ¬ P.Keeps s.current (s.cpu.regs .sp) a →
    t.cpu.mem a = s.cpu.mem a
  back : ∀ ntp x y t, P.Step s (.switch ntp) x → Relation.ReflTransGen (P.Away s.current) x y →
    P.Step y (.switch s.current) t → t.cpu.pc = s.cpu.regs .lr - 1 ∧
      ∀ r ∈ [Reg.r4, .r5, .r6, .r7, .r8, .r9, .r10, .r11, .sp], t.cpu.regs r = s.cpu.regs r
  first : ∀ u workspace wsize pf arg x y t, P.Step s (.create u workspace wsize pf arg) x →
    Relation.ReflTransGen (P.Away u) x y → P.Step y (.switch u) t →
      t.cpu.pc = P._port_thread_start - 1 ∧ t.cpu.regs .r4 = pf ∧ t.cpu.regs .r5 = arg ∧
        t.cpu.regs .sp = workspace + wsize

/-- In every state of a run, a call of the switch for a thread that is out returns, and writes
nothing but the frame of the thread that goes out and its field. When that thread comes in
again, whatever the others have done, it is behind its call with the registers that a call
keeps; and a new thread begins with its function and argument. -/
theorem threads_resume (reachable : P.Reachable s) : P.Resumes s where
  returns ntp ready called room := by
    obtain ⟨o, out⟩ := Option.ne_none_iff_exists'.mp ready
    obtain ⟨cpu, ran, -, -⟩ := switches reachable.inv out called room
    exact ⟨_, .switch ready called room ran, run_steps ran⟩
  memory ntp t step a outside := by
    obtain ⟨-, -, -, mem⟩ := switched reachable.inv step
    rw [mem]
    cases step with
    | switch _ called _ _ => exact left_outside called.room outside
  back ntp x y t step away again := by
    have inv := reachable.inv.step step
    obtain ⟨o, ready, -, -⟩ := switched reachable.inv step
    have other : s.current ≠ ntp := by
      rintro rfl
      rw [reachable.inv.running] at ready
      cases ready
    have out : x.out s.current = some ⟨s.cpu.regs .sp, PortIntctx.ofState s.cpu⟩ := by
      cases step with
      | switch => exact (Function.update_of_ne other _ _).trans (Function.update_self _ _ _)
    have resumed := resumed_away inv out away again
    refine ⟨resumed.pc, ?_⟩
    intro r listed
    simp only [List.mem_cons, List.not_mem_nil, or_false] at listed
    obtain rfl | rfl | rfl | rfl | rfl | rfl | rfl | rfl | rfl := listed
    · exact resumed.r4
    · exact resumed.r5
    · exact resumed.r6
    · exact resumed.r7
    · exact resumed.r8
    · exact resumed.r9
    · exact resumed.r10
    · exact resumed.r11
    · exact resumed.sp
  first u workspace wsize pf arg x y t step away again := by
    have inv := reachable.inv.step step
    cases step with
    | create _ _ other new room =>
        have resumed := resumed_away inv (Function.update_self _ _ _) away again
        obtain ⟨-, r4, r5, lr⟩ := setup_words pf arg s.cpu.mem room
        refine ⟨?_, resumed.r4.trans r4, resumed.r5.trans r5, resumed.sp⟩
        rw [resumed.pc]
        exact congrArg (· - 1) lr

end Runs

/-- The running thread calls the switch for another one. -/
def sampleCpu : State where
  regs
    | .r0 => 0x20000800
    | .r1 => 0x20000000
    | .sp => 0x20000400
    | .lr => 0x1001
    | _ => 0
  pc := 0x2000
  flags := ⟨false, false, false, false⟩
  mem _ := 0
  time := 0
  log := []

def samplePort : Port Bool where
  machine := {
    costs := ⟨1, 2, 2, 1, 2, 1, 3, 2, fun n => n + 1⟩
    device a := decide (0xE0000000 ≤ a) }
  _port_switch_addr := 0x2000
  _port_thread_start := 0x3001
  thumb := by decide
  tp
    | false => 0x20000000
    | true => 0x20000800

/-- A function at 0x4000, with the argument 7 -/
theorem sample_create : ∃ s, samplePort.Step ⟨sampleCpu, false, fun _ => none⟩
    (.create true 0x20000800 0x800 0x4001 7) s ∧ s.current = false ∧ s.cpu.regs = sampleCpu.regs ∧
      s.cpu.pc = 0x2000 ∧ ∀ u o, s.out u = some o → u = true ∧ o.sp = 0x20001000 := by
  have room : samplePort.Room (fun _ => none) true (0x20000800 + 0x800) := by
    constructor
    · decide
    · decide
    · decide
    · intro u o other out
      cases out
  refine ⟨_, .create 0x4001 7 (by decide) rfl room, rfl, rfl, rfl, ?_⟩
  intro u o out
  dsimp only at out
  cases u with
  | false =>
      rw [Function.update_of_ne (by decide)] at out
      cases out
  | true =>
      rw [Function.update_self] at out
      cases out
      exact ⟨rfl, rfl⟩

theorem sample_resumes : ∃ s t, samplePort.Reachable s ∧ samplePort.Step s (.switch true) t ∧
    t.cpu.pc = 0x3000 ∧ t.cpu.regs .r4 = 0x4001 ∧ t.cpu.regs .r5 = 7 ∧
      t.cpu.regs .sp = 0x20001000 := by
  have start := Port.Reachable.start (P := samplePort) sampleCpu false
  obtain ⟨s, create, current, regs, pc, outs⟩ := sample_create
  have reachable := start.step create
  have called : Called samplePort.machine samplePort._port_switch_addr (samplePort.tp true)
      (samplePort.tp s.current) s.cpu := by
    rw [current]
    constructor <;> first | rw [regs]; decide | rw [pc]; rfl | decide
  have room : samplePort.Room s.out s.current (s.cpu.regs .sp) := by
    rw [current, regs]
    constructor
    · decide
    · decide
    · decide
    · intro u o other out a keeps
      obtain ⟨rfl, sp⟩ := outs u o out
      rw [sp] at keeps
      change (536875008 - 36 ≤ a ∧ a < 536875008) ∨ (536872972 ≤ a ∧ a < 536872972 + 4) at keeps
      change ¬ ((536871936 - 36 ≤ a ∧ a < 536871936) ∨ (536870924 ≤ a ∧ a < 536870924 + 4))
      omega
  have ready : s.out true ≠ none := by
    cases create with
    | create => simp
  obtain ⟨t, step, -⟩ := (threads_resume reachable).returns true ready called room
  have first := (threads_resume start).first true 0x20000800 0x800 0x4001 7 s s t create .refl step
  exact ⟨s, t, reachable, step, first⟩

end LtcOs.PortSwitch
