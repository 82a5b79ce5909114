import LtcOs.Kernel.StrictPriority

/-!
What the code of a call consists of.

A call, the rest of a call and an interrupt handler make moves of a few kinds while the running
thread stays the same. At the end they may ask the scheduler once: the thread sleeps, wakes
another one that may run at once, or lets the scheduler choose. What holds of every run follows
from the moves and the choices, without another look at the calls.

The queues of threads that wait for the end of a thread or for an answer of one are cleared when
an area is used again; the other queues last.
-/

namespace LtcOs.Kernel

open LtcOs.Prio

/-- The queues no call clears. -/
def RtQueue.lasting {T O : Type} : RtQueue T O → Bool
  | .exit _ => false
  | .msg _ => false
  | _ => true

theorem Core.tick_currp {T W : Type} [DecidableEq T] (c : Core T W) : c.tick.currp = c.currp := by
  unfold Core.tick
  split <;> rfl

namespace Rt

variable {T O : Type}

section Moves

variable [DecidableEq T] [DecidableEq O]

/-- What happens with the running thread staying the same. -/
inductive Move (idle : T) : Rt T O → Rt T O → Prop where
  | aside {s s' : Rt T O} (core : s'.core = s.core) (queue : s'.queue = s.queue)
      (real : ∀ t, NOPRIO < s'.p_realprio t) (timer : s'.timer = s.timer) (pc : s'.pc = s.pc) :
      Move idle s s'
  | leave (s : Rt T O) : Move idle s s.leave
  | disarm (s : Rt T O) (tp : T) :
      Move idle s { s with timer := Function.update s.timer tp false }
  | tick (s : Rt T O) : Move idle s { s with core := s.core.tick }
  | wake {s : Rt T O} {tp : T} (msg : Int) (asleep : s.core.waiting tp ≠ none)
      (off : (s.core.waiting tp).bind RtWait.queue = none) :
      Move idle s { s with core := msgReady msg s.core tp }
  | wakeOff {s : Rt T O} {q : RtQueue T O} {tp : T} (msg : Int) (mem : tp ∈ s.queue q) :
      Move idle s { s with
        queue := Function.update s.queue q ((s.queue q).erase tp)
        core := msgReady msg s.core tp }
  | raise {s : Rt T O} {tp : T} (less : s.prio tp < s.prio s.core.currp) :
      Move idle s (s.raise s.core.currp tp)
  | create {s : Rt T O} {tp : T} {prio : Nat} (unused : s.Unused tp) (pos : NOPRIO < prio) :
      Move idle s (s.chThdCreateI tp prio)
  | receive (s : Rt T O) : Move idle s s.receive

/-- A run of moves, in which the running thread gets another priority at most `n` times. -/
inductive Moves (idle : T) : Nat → Rt T O → Rt T O → Prop where
  | refl (n : Nat) (s : Rt T O) : Moves idle n s s
  | tail {n : Nat} {s s' s'' : Rt T O} (moves : Moves idle n s s') (move : Move idle s' s'') :
      Moves idle n s s''
  | own {n : Nat} {s s' : Rt T O} (moves : Moves idle n s s') {p : Nat} (pos : NOPRIO < p) :
      Moves idle (n + 1) s { s' with core := s'.core.setPrio s'.core.currp p }

/-- What may come last. Whoever wakes a thread that may run at once has not made one ready
before, so if nobody above the running thread was ready at the start, nobody is. -/
inductive Choice (idle : T) (start : Prop) : Rt T O → Rt T O → Prop where
  | sleep {s : Rt T O} {w : RtWait T O} {timed : Bool} {pc : RtPc O} (other : s.core.currp ≠ idle)
      (off : w.queue = none) (armed : timed = true → w.timed = true) (inside : pc ≠ .outside) :
      Choice idle start s (s.goSleep s.queue w timed pc)
  | sleepOn {s : Rt T O} {w : RtWait T O} {q : RtQueue T O} {l : List T} {timed : Bool}
      {pc : RtPc O} (other : s.core.currp ≠ idle) (place : w.queue = some q)
      (perm : l.Perm (s.core.currp :: s.queue q)) (free : ∀ trp, q = .ref trp → s.queue q = [])
      (armed : timed = true → w.timed = true) (inside : pc ≠ .outside) :
      Choice idle start s (s.goSleep (Function.update s.queue q l) w timed pc)
  | reschedule (s : Rt T O) : Choice idle start s s.reschedule
  | yield (s : Rt T O) : Choice idle start s s.chThdYield
  | epilogue (s : Rt T O) : Choice idle start s { s with core := s.core.epilogue }
  | wakeup {s : Rt T O} {tp : T} (msg : Int) (ordered : start → s.core.Ordered)
      (asleep : s.core.waiting tp ≠ none) (off : (s.core.waiting tp).bind RtWait.queue = none) :
      Choice idle start s { s with core := s.core.chSchWakeupS tp msg }
  | wakeupOff {s : Rt T O} {q : RtQueue T O} {tp : T} (msg : Int) (ordered : start → s.core.Ordered)
      (mem : tp ∈ s.queue q) :
      Choice idle start s { s with
        queue := Function.update s.queue q ((s.queue q).erase tp)
        core := s.core.chSchWakeupS tp msg }

/-- Moves, and at most one choice behind them. -/
def Chain (idle : T) (n : Nat) (s s' : Rt T O) : Prop :=
  ∃ s₁, Moves idle n s s₁ ∧ (s' = s₁ ∨ Choice idle s.core.Ordered s₁ s')

/-! ### Threads and queues -/

/-- Every thread that waits for an object that lasts is on the queue of the object, and a thread
reference is one of at most one thread. -/
structure Whole (idle : T) (s : Rt T O) : Prop where
  inv : Inv idle s
  placed : ∀ t q, (s.core.waiting t).bind RtWait.queue = some q → q.lasting = true → t ∈ s.queue q
  single : ∀ trp, (s.queue (.ref trp)).length ≤ 1

variable {idle tp tp' : T} {s s' s'' : Rt T O} {q : RtQueue T O} {n m : Nat} {c : Core T (RtWait T O)}

omit [DecidableEq O] in
theorem Whole.congr (whole : Whole idle s) (inv : Inv idle s')
    (waiting : s'.core.waiting = s.core.waiting) (queue : s'.queue = s.queue) :
    Whole idle s' := by
  refine ⟨inv, ?_, ?_⟩
  · rw [waiting, queue]
    exact whole.placed
  · rw [queue]
    exact whole.single

omit [DecidableEq O] in
/-- A thread wakes that is on no list. -/
theorem Whole.wakes (whole : Whole idle s) (inv : Inv idle { s with core := c })
    (rouses : Rouses idle tp s.core c) : Whole idle { s with core := c } := by
  refine ⟨inv, fun t q place lasting => ?_, whole.single⟩
  change (c.waiting t).bind _ = _ at place
  by_cases same : t = tp
  · rw [rouses.waiting, same, Function.update_self] at place
    cases place
  · rw [rouses.other same] at place
    exact whole.placed t q place lasting

theorem length_update_le {queue : RtQueue T O → List T} {l : List T}
    (single : ∀ trp, (queue (.ref trp)).length ≤ 1) (short : ∀ trp, q = .ref trp → l.length ≤ 1)
    (trp : O) : (Function.update queue q l (.ref trp)).length ≤ 1 := by
  by_cases here : q = .ref trp
  · subst here
    rw [Function.update_self]
    exact short trp rfl
  · rw [Function.update_of_ne (Ne.symm here)]
    exact single trp

/-- A thread is taken off its list and wakes. -/
theorem Whole.wakesOff (whole : Whole idle s)
    (inv : Inv idle { s with
      queue := Function.update s.queue q ((s.queue q).erase tp), core := c })
    (rouses : Rouses idle tp s.core c) :
    Whole idle { s with queue := Function.update s.queue q ((s.queue q).erase tp), core := c } := by
  refine ⟨inv, fun t q' place lasting => ?_, length_update_le whole.single fun trp here => ?_⟩
  · change (c.waiting t).bind _ = _ at place
    change t ∈ Function.update s.queue q _ q'
    by_cases same : t = tp
    · rw [rouses.waiting, same, Function.update_self] at place
      cases place
    · rw [rouses.other same] at place
      have mem := whole.placed t q' place lasting
      by_cases here : q' = q
      · subst here
        rw [Function.update_self]
        exact (List.mem_erase_of_ne same).mpr mem
      · rw [Function.update_of_ne here]
        exact mem
  · subst here
    exact le_trans List.erase_sublist.length_le (whole.single trp)

/-- A queue gets another order. -/
theorem Whole.permute (whole : Whole idle s) (inv : Inv idle s') {l : List T}
    (waiting : s'.core.waiting = s.core.waiting) (queue : s'.queue = Function.update s.queue q l)
    (perm : l.Perm (s.queue q)) : Whole idle s' := by
  refine ⟨inv, fun t q' place lasting => ?_, fun trp => ?_⟩
  · rw [waiting] at place
    have mem := whole.placed t q' place lasting
    rw [queue]
    by_cases here : q' = q
    · subst here
      rw [Function.update_self]
      exact perm.mem_iff.mpr mem
    · rw [Function.update_of_ne here]
      exact mem
  · rw [queue]
    refine length_update_le whole.single (fun trp' here => ?_) trp
    rw [perm.length_eq, here]
    exact whole.single trp'

omit [DecidableEq T] [DecidableEq O] in
theorem perm_reorder [DecidableEq T] (prio : T → Nat) {l : List T} (mem : tp ∈ l) :
    (insertBehind prio tp (l.erase tp)).Perm l :=
  (List.perm_orderedInsert _ tp _).trans (List.perm_cons_erase mem).symm

theorem Whole.raise (whole : Whole idle s) (ctp tp : T) : Whole idle (s.raise ctp tp) := by
  have inv := (Calm.raise whole.inv ctp tp).inv
  have mem : ∀ {w : RtWait T O} {q : RtQueue T O}, s.core.p_state tp = .WAIT w →
      w.queue = some q → q.lasting = true → tp ∈ s.queue q := by
    intro w q state queued lasting
    refine whole.placed tp q ?_ lasting
    rw [Core.waiting_eq_some.mpr state]
    exact queued
  unfold Rt.raise Rt.requeue at inv ⊢
  dsimp only at inv ⊢
  split at inv
  · rename_i mp state
    exact whole.permute inv rfl rfl (perm_reorder _ (mem state rfl rfl))
  · rename_i cp state
    exact whole.permute inv rfl rfl (perm_reorder _ (mem state rfl rfl))
  · rename_i state
    change s.core.p_state tp = _ at state
    refine whole.congr inv ?_ rfl
    refine (Core.waiting_chSchReadyI _ tp).trans (Function.update_eq_self_iff.mpr ?_)
    exact (Core.waiting_eq_none.mpr (.inl state)).symm
  · exact whole.congr inv rfl rfl

theorem Whole.create (whole : Whole idle s) (unused : s.Unused tp) {prio : Nat}
    (pos : NOPRIO < prio) : Whole idle (s.chThdCreateI tp prio) := by
  have inv := (Calm.create whole.inv unused pos).inv
  obtain ⟨-, waiting⟩ :=
    whole.inv.core.init unused.asleep.1 pos (RtWait.WTSTART (T := T) (O := O)) CH_CFG_TIME_QUANTUM
  have keeps : ∀ q : RtQueue T O, q.lasting = true → (s.chThdCreateI tp prio).queue q = s.queue q := by
    intro q lasting
    change Function.update (Function.update s.queue (.exit tp) []) (.msg tp) [] q = _
    rw [Function.update_of_ne, Function.update_of_ne]
    · rintro rfl
      cases lasting
    · rintro rfl
      cases lasting
  refine ⟨inv, fun t q place lasting => ?_, fun trp => ?_⟩
  · rw [keeps q lasting]
    refine whole.placed t q ?_ lasting
    have moved : (s.chThdCreateI tp prio).core.waiting t =
        Function.update s.core.waiting tp (some .WTSTART) t := congrFun waiting t
    rw [moved] at place
    by_cases same : t = tp
    · rw [same, Function.update_self] at place
      cases place
    · rwa [Function.update_of_ne same] at place
  · rw [keeps (.ref trp) rfl]
    exact whole.single trp

theorem Whole.receive (whole : Whole idle s) : Whole idle s.receive := by
  have inv := whole.inv.receive
  unfold Rt.receive at inv ⊢
  split at inv
  · exact whole
  · rename_i tp rest eq
    have keeps : ∀ q : RtQueue T O, q.lasting = true →
        Function.update s.queue (.msg s.core.currp) rest q = s.queue q := by
      intro q lasting
      rw [Function.update_of_ne]
      rintro rfl
      cases lasting
    refine ⟨inv, fun t q place lasting => ?_, fun trp => ?_⟩
    · change t ∈ Function.update s.queue (.msg s.core.currp) rest q
      change ((s.core.setState tp (.WAIT .SNDMSG)).waiting t).bind _ = _ at place
      rw [keeps q lasting]
      refine whole.placed t q ?_ lasting
      rw [Core.waiting_setState] at place
      by_cases same : t = tp
      · rw [same, Function.update_self] at place
        cases place
      · rwa [Function.update_of_ne same] at place
    · change (Function.update s.queue (.msg s.core.currp) rest (.ref trp)).length ≤ 1
      rw [keeps (.ref trp) rfl]
      exact whole.single trp

/-! ### What every move and every choice keeps -/

theorem Move.whole (move : Move idle s s') (whole : Whole idle s) : Whole idle s' := by
  have inv := whole.inv
  cases move with
  | aside core queue real timer pc =>
      refine whole.congr ⟨?_, ?_, real, ?_, ?_⟩ (by rw [core]) queue
      · rw [core]
        exact inv.core
      · rw [core, queue]
        exact inv.held
      · rw [core, timer, pc]
        exact inv.timer
      · rw [pc]
        exact inv.idle
  | leave => exact whole.congr inv.leave rfl rfl
  | disarm tp => exact whole.congr (inv.disarm tp) rfl rfl
  | tick => exact whole.congr (inv.quiet inv.core.tick) inv.core.tick.waiting rfl
  | wake msg asleep off =>
      exact whole.wakes (inv.wakes (rousing_msgReady msg) asleep off)
        (rousing_msgReady msg _ _ inv.core asleep)
  | wakeOff msg mem =>
      exact whole.wakesOff
        (inv.wakeOff (rousing_msgReady msg) mem List.erase_sublist (inv.held.nodup _).not_mem_erase)
        (rousing_msgReady msg _ _ inv.core (inv.asleep mem))
  | raise less => exact whole.raise _ _
  | create unused pos => exact whole.create unused pos
  | receive => exact whole.receive

theorem Moves.whole (moves : Moves idle n s s') (whole : Whole idle s) : Whole idle s' := by
  induction moves with
  | refl => exact whole
  | tail _ move ih => exact move.whole (ih whole)
  | own _ pos ih =>
      have whole := ih whole
      exact whole.congr (whole.inv.setPrio whole.inv.core.inv.currp_not_ready pos) rfl rfl

omit [DecidableEq O] in
theorem Whole.goSleep (whole : Whole idle s) {queue : RtQueue T O → List T} {w : RtWait T O}
    {timed : Bool} {pc : RtPc O} (inv : Inv idle (s.goSleep queue w timed pc))
    (stay : ∀ t q, t ∈ s.queue q → t ∈ queue q)
    (goes : ∀ q, w.queue = some q → s.core.currp ∈ queue q)
    (single : ∀ trp, (queue (.ref trp)).length ≤ 1) : Whole idle (s.goSleep queue w timed pc) := by
  refine ⟨inv, fun t q place lasting => ?_, single⟩
  change ((s.core.chSchGoSleepS w).waiting t).bind _ = _ at place
  rw [whole.inv.core.inv.waiting_chSchGoSleepS] at place
  by_cases same : t = s.core.currp
  · rw [same, Function.update_self] at place
    rw [same]
    exact goes q place
  · rw [Function.update_of_ne same] at place
    exact stay t q (whole.placed t q place lasting)

theorem Choice.whole {start : Prop} (choice : Choice idle start s s') (whole : Whole idle s) :
    Whole idle s' := by
  have inv := whole.inv
  cases choice with
  | sleep other off armed inside =>
      refine whole.goSleep (inv.sleepOff other armed inside).1 (fun _ _ mem => mem) ?_ whole.single
      intro q place
      rw [off] at place
      cases place
  | @sleepOn w q l timed pc other place perm free armed inside =>
      have absent := inv.held.not_mem inv.currp_off q
      have nodup : l.Nodup := perm.nodup_iff.mpr (List.nodup_cons.mpr ⟨absent, inv.held.nodup q⟩)
      refine whole.goSleep (inv.sleepOn other place ?_ nodup armed inside).1 ?_ ?_ ?_
      · intro t mem
        exact List.mem_cons.mp (perm.mem_iff.mp mem)
      · intro t q' mem
        by_cases here : q' = q
        · subst here
          rw [Function.update_self]
          exact perm.mem_iff.mpr (List.mem_cons_of_mem _ mem)
        · rwa [Function.update_of_ne here]
      · intro q' place'
        obtain rfl : q = q' := Option.some.inj (place.symm.trans place')
        rw [Function.update_self]
        exact perm.mem_iff.mpr List.mem_cons_self
      · refine length_update_le whole.single fun trp here => ?_
        rw [perm.length_eq, List.length_cons, free trp here]
        rfl
  | reschedule =>
      exact whole.congr inv.reschedule.1 inv.core.inv.waiting_chSchRescheduleS rfl
  | yield => exact whole.congr (inv.quiet inv.core.yield) inv.core.yield.waiting rfl
  | epilogue => exact whole.congr (inv.quiet inv.core.epilogue) inv.core.epilogue.waiting rfl
  | wakeup msg ordered asleep off =>
      exact whole.wakes (inv.wakes (rousing_wakeupS msg) asleep off)
        (rousing_wakeupS msg _ _ inv.core asleep)
  | wakeupOff msg ordered mem =>
      exact whole.wakesOff
        (inv.wakeOff (rousing_wakeupS msg) mem List.erase_sublist (inv.held.nodup _).not_mem_erase)
        (rousing_wakeupS msg _ _ inv.core (inv.asleep mem))

theorem Chain.whole (chain : Chain idle n s s') (whole : Whole idle s) : Whole idle s' := by
  obtain ⟨s₁, moves, rfl | choice⟩ := chain
  · exact moves.whole whole
  · exact choice.whole (moves.whole whole)

theorem Move.currp (move : Move idle s s') : s'.core.currp = s.core.currp := by
  cases move with
  | aside core queue real timer pc => rw [core]
  | leave => rfl
  | disarm tp => rfl
  | tick => exact s.core.tick_currp
  | wake msg asleep off => rfl
  | wakeOff msg mem => rfl
  | @raise tp less =>
      unfold Rt.raise Rt.requeue
      dsimp only
      split <;> rfl
  | create unused pos => rfl
  | receive =>
      unfold Rt.receive
      split <;> rfl

theorem Moves.currp (moves : Moves idle n s s') : s'.core.currp = s.core.currp := by
  induction moves with
  | refl => rfl
  | tail _ move ih => exact move.currp.trans ih
  | own _ pos ih => exact ih

theorem Moves.mono (moves : Moves idle n s s') (le : n ≤ m) : Moves idle m s s' := by
  induction moves generalizing m with
  | refl n s => exact .refl m s
  | tail _ move ih => exact .tail (ih le) move
  | @own n s s' _ p pos ih =>
      obtain ⟨m, rfl⟩ : ∃ k, m = k + 1 := ⟨m - 1, by omega⟩
      exact .own (ih (by omega)) pos

theorem Moves.trans (first : Moves idle n s s') (second : Moves idle m s' s'') :
    Moves idle (n + m) s s'' := by
  induction second with
  | refl m s => exact first.mono (Nat.le_add_right n m)
  | tail _ move ih => exact .tail (ih first) move
  | own _ pos ih => exact .own (ih first) pos

theorem Move.one (move : Move idle s s') : Moves idle 0 s s' := .tail (.refl 0 s) move

theorem Moves.chain (moves : Moves idle n s s') : Chain idle n s s' := ⟨s', moves, .inl rfl⟩

theorem Choice.chain (choice : Choice idle s.core.Ordered s s') : Chain idle 0 s s' :=
  ⟨s, .refl 0 s, .inr choice⟩

theorem Moves.choose (moves : Moves idle n s s') (choice : Choice idle s.core.Ordered s' s'') :
    Chain idle n s s'' :=
  ⟨s', moves, .inr choice⟩

/-! ### Waking -/

/-- The thread is made ready, with a message, and no more. -/
def Readies (wake : Wake T O) : Prop := ∀ c tp, ∃ msg, wake c tp = msgReady msg c tp

omit [DecidableEq O] in
theorem readies_msgReady (msg : Int) : Readies (O := O) (T := T) (msgReady msg) :=
  fun _ _ => ⟨msg, rfl⟩

omit [DecidableEq O] in
theorem readies_readyMsg (msg : Int) : Readies (O := O) (T := T) (readyMsg msg) :=
  fun _ _ => ⟨msg, rfl⟩

omit [DecidableEq O] in
theorem readies_readyI : Readies (O := O) (T := T) readyI := by
  intro c tp
  refine ⟨c.rdymsg tp, ?_⟩
  unfold readyI msgReady Core.setMsg
  rw [Function.update_eq_self]

/-- Only fields change that the scheduler does not see. -/
theorem Whole.set (whole : Whole idle s) (core : s'.core = s.core) (queue : s'.queue = s.queue)
    (real : s'.p_realprio = s.p_realprio) (timer : s'.timer = s.timer) (pc : s'.pc = s.pc) :
    Moves idle 0 s s' := by
  refine (Move.aside core queue (fun t => ?_) timer pc).one
  rw [real]
  exact whole.inv.real t

theorem Whole.same (whole : Whole idle s) (core : s'.core = s.core) (queue : s'.queue = s.queue)
    (real : s'.p_realprio = s.p_realprio) (timer : s'.timer = s.timer) (pc : s'.pc = s.pc) :
    Chain idle 0 s s' :=
  (whole.set core queue real timer pc).chain

theorem moves_wakeFirst {wake : Wake T O} (readies : Readies wake) (s : Rt T O) (q : RtQueue T O) :
    Moves idle 0 s (s.wakeFirst wake q) := by
  unfold Rt.wakeFirst
  split
  · exact .refl 0 s
  · rename_i tp rest eq
    have erased : (s.queue q).erase tp = rest := by rw [eq, List.erase_cons_head]
    obtain ⟨msg, same⟩ := readies s.core tp
    rw [same, ← erased]
    refine (Move.wakeOff msg ?_).one
    rw [eq]
    exact List.mem_cons_self

theorem moves_wakeAll {wake : Wake T O} (readies : Readies wake) (q : RtQueue T O) (rounds : Nat)
    (s : Rt T O) : Moves idle 0 s (wakeAll wake q rounds s) := by
  induction rounds generalizing s with
  | zero => exact .refl 0 s
  | succ rounds ih => exact (moves_wakeFirst readies s q).trans (ih _)

/-- A thread that is on no list is made ready. -/
theorem moves_wake {w : RtWait T O} (msg : Int) (waits : s.core.waiting tp = some w)
    (off : w.queue = none) : Moves idle 0 s { s with core := msgReady msg s.core tp } := by
  refine (Move.wake msg ?_ ?_).one
  · rw [waits]
    simp
  · rw [waits]
    exact off

theorem moves_readyI {w : RtWait T O} (waits : s.core.waiting tp = some w) (off : w.queue = none) :
    Moves idle 0 s { s with core := s.core.chSchReadyI tp } := by
  obtain ⟨msg, same⟩ := readies_readyI (O := O) s.core tp
  have moves : Moves idle 0 s { s with core := msgReady msg s.core tp } := moves_wake msg waits off
  rwa [← same] at moves

theorem choice_wakeupFirst {start : Prop} (ordered : start → s.core.Ordered) (q : RtQueue T O)
    (msg : Int) :
    s.wakeFirst (wakeupS msg) q = s ∨ Choice idle start s (s.wakeFirst (wakeupS msg) q) := by
  unfold Rt.wakeFirst
  split
  · exact .inl rfl
  · rename_i tp rest eq
    have erased : (s.queue q).erase tp = rest := by rw [eq, List.erase_cons_head]
    rw [← erased]
    refine .inr (.wakeupOff msg ordered ?_)
    rw [eq]
    exact List.mem_cons_self

theorem unarmed {p : Prop} (armed : false = true) : p := absurd armed Bool.false_ne_true

theorem Moves.wakeupFirst (moves : Moves idle n s s') (ordered : s.core.Ordered → s'.core.Ordered)
    (q : RtQueue T O) (msg : Int) : Chain idle n s (s'.wakeFirst (wakeupS msg) q) := by
  refine ⟨s', moves, ?_⟩
  exact choice_wakeupFirst ordered q msg

theorem Moves.reschedule (moves : Moves idle n s s') : Chain idle n s s'.reschedule :=
  moves.choose (.reschedule s')

/-- The running thread sleeps on a queue. -/
theorem Moves.sleepBehind (moves : Moves idle n s s') (other : s.core.currp ≠ idle)
    {q : RtQueue T O} {w : RtWait T O} {timed : Bool} {pc : RtPc O} (place : w.queue = some q)
    (free : ∀ trp, q ≠ .ref trp) (armed : timed = true → w.timed = true) (inside : pc ≠ .outside) :
    Chain idle n s (s'.sleepBehind q w timed pc) := by
  refine moves.choose (.sleepOn ?_ place ?_ (fun trp here => absurd here (free trp)) armed inside)
  · rw [moves.currp]
    exact other
  · exact List.perm_append_comm

theorem Moves.sleepByPrio (moves : Moves idle n s s') (other : s.core.currp ≠ idle)
    {q : RtQueue T O} {w : RtWait T O} {timed : Bool} {pc : RtPc O} (place : w.queue = some q)
    (free : ∀ trp, q ≠ .ref trp) (armed : timed = true → w.timed = true) (inside : pc ≠ .outside) :
    Chain idle n s (s'.sleepByPrio q w timed pc) := by
  refine moves.choose (.sleepOn ?_ place ?_ (fun trp here => absurd here (free trp)) armed inside)
  · rw [moves.currp]
    exact other
  · exact List.perm_orderedInsert _ _ _

theorem Moves.sleep (moves : Moves idle n s s') (other : s.core.currp ≠ idle) {w : RtWait T O}
    {timed : Bool} {pc : RtPc O} (off : w.queue = none) (armed : timed = true → w.timed = true)
    (inside : pc ≠ .outside) : Chain idle n s (s'.goSleep s'.queue w timed pc) := by
  refine moves.choose (.sleep ?_ off armed inside)
  rw [moves.currp]
  exact other

/-! ### Threads -/

theorem ordered_create (inv : Inv idle s) (unused : s.Unused tp) {prio : Nat} (pos : NOPRIO < prio)
    (ordered : s.core.Ordered) : (s.chThdCreateI tp prio).core.Ordered :=
  (Fine.create ⟨inv, ordered⟩ unused pos).2

theorem Whole.chThdCreateStatic (whole : Whole idle s) (unused : s.Unused tp) {prio : Nat}
    (pos : NOPRIO < prio) : Chain idle 0 s (s.chThdCreateStatic tp prio) := by
  have waits : (s.chThdCreateI tp prio).core.waiting tp = some .WTSTART :=
    Core.waiting_eq_some.mpr (Function.update_self _ _ _)
  refine (Move.create unused pos).one.choose
    (.wakeup MSG_OK (ordered_create whole.inv unused pos) ?_ ?_)
  · rw [waits]
    simp
  · rw [waits]
    rfl

omit [DecidableEq T] [DecidableEq O] in
theorem waits_of_state {w : RtWait T O} (state : s.core.p_state tp = .WAIT w) :
    s.core.waiting tp = some w :=
  Core.waiting_eq_some.mpr state

theorem Whole.chThdSetPriority (whole : Whole idle s) {newprio : Nat} (pos : NOPRIO < newprio) :
    Chain idle 1 s (s.chThdSetPriority newprio) := by
  have real : ∀ {s' : Rt T O}, Moves idle 1 s s' → Moves idle 1 s
      { s' with p_realprio := Function.update s'.p_realprio s.core.currp newprio } := by
    intro s' moves
    exact .tail moves (.aside rfl rfl (pos_update (moves.whole whole).inv.real pos) rfl rfl)
  unfold Rt.chThdSetPriority
  dsimp only
  split
  · exact (real (.own (.refl 0 s) pos)).reschedule
  · exact (real (.refl 1 s)).reschedule

theorem chain_chThdSleep (other : s.core.currp ≠ idle) (time : Timeout) :
    Chain idle 0 s (s.chThdSleep time) :=
  (Moves.refl 0 s).sleep other rfl (fun _ => rfl) (by simp)

theorem chain_chThdSuspendTimeoutS (other : s.core.currp ≠ idle) {trp : O}
    (free : s.queue (.ref trp) = []) (time : Timeout) :
    Chain idle 0 s (s.chThdSuspendTimeoutS trp time) := by
  unfold Rt.chThdSuspendTimeoutS
  split
  · exact (Moves.refl 0 s).chain
  · refine (Moves.refl 0 s).choose (.sleepOn other rfl ?_ ?_ (fun _ => rfl) (by simp))
    · rw [free]
    · rintro trp' ⟨⟩
      exact free

theorem chain_chThdExit (other : s.core.currp ≠ idle) : Chain idle 0 s s.chThdExit :=
  (moves_wakeAll readies_readyI _ _ s).sleep other rfl unarmed (by simp)

theorem chain_chThdWait (other : s.core.currp ≠ idle) (tp : T) :
    Chain idle 0 s (s.chThdWait tp) := by
  unfold Rt.chThdWait
  split
  · exact (Moves.refl 0 s).chain
  · exact (Moves.refl 0 s).choose (.sleepOn other rfl (.refl _) (by simp) unarmed (by simp))

/-! ### Semaphores -/

theorem Whole.addCnt (whole : Whole idle s) (sp : Sem O) (k : Int) :
    Moves idle 0 s (s.addCnt sp k) :=
  whole.set rfl rfl rfl rfl rfl

theorem Whole.signalWith {wake : Wake T O} (whole : Whole idle s) (readies : Readies wake)
    (sp : Sem O) : Moves idle 0 s (Rt.signalWith wake s sp) := by
  have given := whole.addCnt sp 1
  unfold Rt.signalWith
  dsimp only
  split
  · exact given.trans (moves_wakeFirst readies _ _)
  · exact given

theorem Whole.chSemSignal (whole : Whole idle s) (sp : Sem O) :
    Chain idle 0 s (s.chSemSignal sp) := by
  have given := whole.addCnt sp 1
  unfold Rt.chSemSignal Rt.signalWith
  dsimp only
  split
  · exact given.wakeupFirst (fun ordered => ordered) _ _
  · exact given.chain

theorem Whole.chSemSignalI (whole : Whole idle s) (sp : Sem O) :
    Moves idle 0 s (s.chSemSignalI sp) :=
  whole.signalWith (readies_msgReady MSG_OK) sp

theorem Whole.chSemAddCounterI (whole : Whole idle s) (sp : Sem O) (k : Nat) :
    Moves idle 0 s (s.chSemAddCounterI sp k) := by
  induction k with
  | zero => exact .refl 0 s
  | succ k ih => exact ih.trans ((ih.whole whole).signalWith (readies_readyMsg MSG_OK) sp)

theorem Whole.chSemWait (whole : Whole idle s) (other : s.core.currp ≠ idle) (sp : Sem O) :
    Chain idle 0 s (s.chSemWait sp) := by
  have taken := whole.addCnt sp (-1)
  unfold Rt.chSemWait
  dsimp only
  split
  · exact taken.sleepBehind other rfl (by simp) unarmed (by simp)
  · exact taken.chain

/-- The first part says what is needed where the call goes on. -/
theorem Whole.chSemWaitTimeoutS (whole : Whole idle s) (other : s.core.currp ≠ idle) (sp : Sem O)
    (time : Timeout) {pc : RtPc O} (inside : pc ≠ .outside) :
    ((s.chSemWaitTimeoutS sp time pc).1 = true → Moves idle 0 s (s.chSemWaitTimeoutS sp time pc).2) ∧
      Chain idle 0 s (s.chSemWaitTimeoutS sp time pc).2 := by
  have taken := whole.addCnt sp (-1)
  unfold Rt.chSemWaitTimeoutS
  dsimp only
  split
  · split
    · refine ⟨unarmed, ?_⟩
      exact (taken.trans ((taken.whole whole).addCnt sp 1)).chain
    · exact ⟨unarmed, taken.sleepBehind other rfl (by simp) (fun _ => rfl) inside⟩
  · exact ⟨fun _ => taken, taken.chain⟩

theorem Whole.chSemSignalWait (whole : Whole idle s) (other : s.core.currp ≠ idle)
    (sps spw : Sem O) : Chain idle 0 s (s.chSemSignalWait sps spw) := by
  have given := whole.signalWith (readies_readyMsg MSG_OK) sps
  have taken := given.trans ((given.whole whole).addCnt spw (-1))
  unfold Rt.chSemSignalWait
  dsimp only
  split
  · exact taken.sleepBehind other rfl (by simp) unarmed (by simp)
  · exact taken.reschedule

theorem Whole.resetLoop (whole : Whole idle s) (sp : Sem O) (rounds : Nat) :
    Moves idle 0 s (Rt.resetLoop sp rounds s) := by
  induction rounds generalizing s with
  | zero => exact .refl 0 s
  | succ rounds ih =>
      unfold Rt.resetLoop
      split
      · exact .refl 0 s
      · rename_i tp last
        obtain ⟨rest, eq⟩ := List.getLast?_eq_some_iff.mp last
        have nodup := whole.inv.held.nodup (.sem sp)
        rw [eq] at nodup
        have fresh : tp ∉ rest := fun mem =>
          (List.nodup_append.mp nodup).2.2 tp mem tp List.mem_cons_self rfl
        have erased : (s.queue (.sem sp)).erase tp = (s.queue (.sem sp)).dropLast := by
          rw [eq, List.dropLast_concat, List.erase_append_right _ fresh, List.erase_cons_head,
            List.append_nil]
        have mem : tp ∈ s.queue (.sem sp) := by
          rw [eq]
          exact List.mem_append_right _ List.mem_cons_self
        have woken : Moves idle 0 s _ := (Move.wakeOff MSG_RESET mem).one
        rw [erased] at woken
        exact woken.trans (ih (woken.whole whole))

theorem Whole.chSemResetI (whole : Whole idle s) (sp : Sem O) (k : Int) :
    Moves idle 0 s (s.chSemResetI sp k) := by
  have set : Moves idle 0 s { s with s_cnt := Function.update s.s_cnt sp k } :=
    whole.set rfl rfl rfl rfl rfl
  exact set.trans ((set.whole whole).resetLoop sp _)

theorem Whole.chBSemSignalI (whole : Whole idle s) (sp : Sem O) :
    Moves idle 0 s (s.chBSemSignalI sp) := by
  unfold Rt.chBSemSignalI
  split
  · exact whole.chSemSignalI sp
  · exact .refl 0 s

/-! ### Mutexes and condition variables -/

theorem moves_boost [Fintype T] (s : Rt T O) (tp : T) :
    Moves idle 0 s (s.boost s.core.currp tp) := by
  generalize here : s.core.currp = ctp
  fun_induction Rt.boost s ctp tp with
  | case1 s tp less mp waits owner owned ih =>
      subst here
      have raised : Moves idle 0 s (s.raise s.core.currp tp) := (Move.raise less).one
      exact raised.trans (ih raised.currp)
  | case2 s tp less mp waits free =>
      subst here
      exact (Move.raise less).one
  | case3 s tp less waits =>
      subst here
      exact (Move.raise less).one
  | case4 s tp high => exact .refl 0 s

theorem Whole.chMtxLock [Fintype T] (whole : Whole idle s) (other : s.core.currp ≠ idle) (mp : O) :
    Chain idle 0 s (s.chMtxLock mp) := by
  unfold Rt.chMtxLock
  split
  · rename_i tp owned
    exact (moves_boost s tp).sleepByPrio other rfl (by simp) unarmed (by simp)
  · exact whole.same rfl rfl rfl rfl rfl

theorem Whole.handOff (whole : Whole idle s) (mp : O) : Moves idle 0 s (s.handOff mp) := by
  unfold Rt.handOff
  split
  · exact whole.set rfl rfl rfl rfl rfl
  · rename_i tp rest eq
    have owned : Moves idle 0 s (s.own mp tp) := whole.set rfl rfl rfl rfl rfl
    exact owned.trans (moves_wakeFirst readies_readyI _ _)

theorem Whole.chMtxUnlockS (whole : Whole idle s) (mp : O) :
    Moves idle 1 s (s.chMtxUnlockS mp) := by
  have popped : Moves idle 0 s (s.pop s.core.currp) := whole.set rfl rfl rfl rfl rfl
  unfold Rt.chMtxUnlockS
  dsimp only
  split
  · have pos : NOPRIO <
        (s.pop s.core.currp).newprio s.core.currp ((s.pop s.core.currp).p_mtxlist s.core.currp) :=
      lt_of_lt_of_le (whole.inv.real s.core.currp) (le_newprio _ _ _)
    have set := Moves.own popped pos
    exact set.trans ((set.whole whole).handOff mp)
  · exact (popped.trans ((popped.whole whole).handOff mp)).mono (Nat.le_succ 0)

theorem Whole.chMtxUnlock (whole : Whole idle s) (mp : O) : Chain idle 1 s (s.chMtxUnlock mp) := by
  have unlocked := whole.chMtxUnlockS mp
  unfold Rt.chMtxUnlock
  split
  · exact unlocked.reschedule
  · exact unlocked.chain

theorem Whole.unlockLoop (whole : Whole idle s) (ctp : T) (rounds : Nat) :
    Moves idle 0 s (Rt.unlockLoop ctp rounds s) := by
  induction rounds generalizing s with
  | zero => exact .refl 0 s
  | succ rounds ih =>
      unfold Rt.unlockLoop
      split
      · exact .refl 0 s
      · rename_i mp rest eq
        have popped : Moves idle 0 s (s.pop ctp) := whole.set rfl rfl rfl rfl rfl
        have handed := popped.trans ((popped.whole whole).handOff mp)
        exact handed.trans (ih (handed.whole whole))

theorem Whole.chMtxUnlockAll (whole : Whole idle s) : Chain idle 1 s s.chMtxUnlockAll := by
  unfold Rt.chMtxUnlockAll
  dsimp only
  split
  · have unlocked := whole.unlockLoop s.core.currp (s.p_mtxlist s.core.currp).length
    have set := Moves.own unlocked ((unlocked.whole whole).inv.real s.core.currp)
    rw [unlocked.currp] at set
    exact set.reschedule
  · exact (Moves.refl 1 s).chain

theorem Whole.condWait (whole : Whole idle s) (other : s.core.currp ≠ idle) (cp : O)
    (timed armed : Bool) : Chain idle 1 s (s.condWait cp timed armed) := by
  unfold Rt.condWait
  split
  · exact (Moves.refl 1 s).chain
  · rename_i mp rest eq
    exact (whole.chMtxUnlockS mp).sleepByPrio other rfl (by simp) (fun _ => rfl) (by simp)

/-! ### Events, mailboxes and messages -/

theorem Whole.chEvtSignalI (whole : Whole idle s) (tp : T) (events : BitVec 32) :
    Moves idle 0 s (s.chEvtSignalI tp events) := by
  have added : Moves idle 0 s
      { s with p_epending := Function.update s.p_epending tp (s.p_epending tp ||| events) } :=
    whole.set rfl rfl rfl rfl rfl
  unfold Rt.chEvtSignalI
  dsimp only
  split
  · rename_i met
    unfold awaited at met
    split at met
    · rename_i ewmask state
      exact added.trans (moves_wake MSG_OK (waits_of_state state) rfl)
    · rename_i ewmask state
      exact added.trans (moves_wake MSG_OK (waits_of_state state) rfl)
    · cases met
  · exact added

theorem Whole.notify (whole : Whole idle s) (flags : BitVec 32) (elp : O) :
    Moves idle 0 s (s.notify flags elp) := by
  have noted : Moves idle 0 s { s with
      el := Function.update s.el elp { s.el elp with el_flags := (s.el elp).el_flags ||| flags } } :=
    whole.set rfl rfl rfl rfl rfl
  unfold Rt.notify
  dsimp only
  split
  · exact noted.trans ((noted.whole whole).chEvtSignalI _ _)
  · exact noted

theorem Whole.chEvtBroadcastFlagsI (whole : Whole idle s) (esp : O) (flags : BitVec 32) :
    Moves idle 0 s (s.chEvtBroadcastFlagsI esp flags) := by
  unfold Rt.chEvtBroadcastFlagsI
  generalize s.es_next esp = listeners
  induction listeners generalizing s with
  | nil => exact .refl 0 s
  | cons elp rest ih =>
      have noted := whole.notify flags elp
      exact noted.trans (ih (noted.whole whole))

theorem Whole.chEvtWait (whole : Whole idle s) (other : s.core.currp ≠ idle) (kind : EvKind)
    (events : BitVec 32) : Chain idle 0 s (s.chEvtWait kind events) := by
  unfold Rt.chEvtWait
  split
  · exact whole.same rfl rfl rfl rfl rfl
  · exact (Moves.refl 0 s).sleep other (by cases kind <;> rfl) unarmed (by simp)

theorem Whole.chEvtWaitTimeout (whole : Whole idle s) (other : s.core.currp ≠ idle) (kind : EvKind)
    (events : BitVec 32) (time : Timeout) :
    Chain idle 0 s (s.chEvtWaitTimeout kind events time) := by
  unfold Rt.chEvtWaitTimeout
  split
  · exact whole.same rfl rfl rfl rfl rfl
  · split
    · exact (Moves.refl 0 s).chain
    · exact (Moves.refl 0 s).sleep other (by cases kind <;> rfl)
        (fun _ => timed_waitState kind events) (by simp)

theorem Whole.transfer (whole : Whole idle s) (other : s.core.currp ≠ idle) (needs gives : Sem O)
    (timeout : Timeout) : Chain idle 0 s (s.transfer needs gives timeout) := by
  have inside : RtPc.transfer gives ≠ .outside := by simp
  have waited := whole.chSemWaitTimeoutS other needs timeout inside
  unfold Rt.transfer
  split
  · rename_i s' eq
    rw [eq] at waited
    have taken := waited.1 rfl
    exact (taken.trans ((taken.whole whole).chSemSignalI gives)).reschedule
  · rename_i s' eq
    rw [eq] at waited
    exact waited.2

theorem Whole.transferI (whole : Whole idle s) (needs gives : Sem O) :
    Moves idle 0 s (s.transferI needs gives) := by
  unfold Rt.transferI
  split
  · exact .refl 0 s
  · have taken := whole.addCnt needs (-1)
    exact taken.trans ((taken.whole whole).chSemSignalI gives)

theorem Whole.chMBResetI (whole : Whole idle s) (mbp : O) : Moves idle 0 s (s.chMBResetI mbp) := by
  have first := whole.chSemResetI (.emptysem mbp) (s.mb_size mbp)
  exact first.trans ((first.whole whole).chSemResetI (.fullsem mbp) 0)

theorem chain_chMsgSend (other : s.core.currp ≠ idle) (tp : T) :
    Chain idle 0 s (s.chMsgSend tp) := by
  unfold Rt.chMsgSend
  dsimp only
  split
  · rename_i state
    exact (moves_readyI (waits_of_state state) rfl).sleepBehind other rfl (by simp) unarmed (by simp)
  · exact (Moves.refl 0 s).sleepBehind other rfl (by simp) unarmed (by simp)

theorem chain_chMsgWait (other : s.core.currp ≠ idle) : Chain idle 0 s s.chMsgWait := by
  unfold Rt.chMsgWait
  split
  · exact (Moves.refl 0 s).sleep other rfl unarmed (by simp)
  · exact (Move.receive s).one.chain

/-! ### Calls -/

/-- The calls that may change the priority of their caller, each once. -/
def Call.own : Call T O → Nat
  | .chThdSetPriority _ => 1
  | .chMtxUnlock _ => 1
  | .chMtxUnlockAll => 1
  | .chCondWait _ => 1
  | .chCondWaitTimeout _ _ => 1
  | _ => 0

theorem Whole.call [Fintype T] (whole : Whole idle s) {c : Call T O} (able : s.Able c)
    (other : c.sleeps = true → s.core.currp ≠ idle) : Chain idle c.own s (s.call c) := by
  cases c with
  | chThdCreateI tp prio => exact (Move.create able.1 able.2).one.chain
  | chThdCreateStatic tp prio => exact whole.chThdCreateStatic able.1 able.2
  | chThdStart tp => exact (moves_readyI (waits_of_state able) rfl).chain
  | chThdSetPriority newprio => exact whole.chThdSetPriority able
  | chThdSleep time => exact chain_chThdSleep (other rfl) time
  | chThdSleepUntil now time =>
      change Chain idle 0 s (s.chThdSleepUntil now time)
      unfold Rt.chThdSleepUntil
      split
      · exact chain_chThdSleep (other rfl) _
      · exact (Moves.refl 0 s).chain
  | chThdSleepUntilWindowed now prev next =>
      change Chain idle 0 s (s.chThdSleepUntilWindowed now prev next)
      unfold Rt.chThdSleepUntilWindowed
      split
      · exact chain_chThdSleep (other rfl) _
      · exact (Moves.refl 0 s).chain
  | chThdYield => exact (Choice.yield s).chain
  | chThdSuspendTimeoutS trp time => exact chain_chThdSuspendTimeoutS (other rfl) able time
  | chThdResume trp msg => exact (Moves.refl 0 s).wakeupFirst (fun ordered => ordered) _ msg
  | chThdExit => exact chain_chThdExit (other rfl)
  | chThdWait tp => exact chain_chThdWait (other rfl) tp
  | chSemReset sp n => exact (whole.chSemResetI sp n).reschedule
  | chSemWait sp => exact whole.chSemWait (other rfl) sp
  | chSemWaitTimeout sp time => exact (whole.chSemWaitTimeoutS (other rfl) sp time (by simp)).2
  | chSemSignal sp => exact whole.chSemSignal sp
  | chSemSignalWait sps spw => exact whole.chSemSignalWait (other rfl) sps spw
  | chBSemReset sp taken => exact (whole.chSemResetI sp _).reschedule
  | chBSemSignal sp => exact (whole.chBSemSignalI sp).reschedule
  | chMtxLock mp => exact whole.chMtxLock (other rfl) mp
  | chMtxTryLock mp =>
      change Chain idle 0 s (s.chMtxTryLock mp)
      unfold Rt.chMtxTryLock
      split
      · exact (Moves.refl 0 s).chain
      · exact whole.same rfl rfl rfl rfl rfl
  | chMtxUnlock mp => exact whole.chMtxUnlock mp
  | chMtxUnlockAll => exact whole.chMtxUnlockAll
  | chCondSignal cp => exact (Moves.refl 0 s).wakeupFirst (fun ordered => ordered) _ MSG_OK
  | chCondBroadcast cp => exact (moves_wakeAll (readies_readyMsg MSG_RESET) _ _ s).reschedule
  | chCondWait cp => exact whole.condWait (other rfl) cp _ _
  | chCondWaitTimeout cp time => exact whole.condWait (other rfl) cp _ _
  | chEvtRegisterMaskWithFlags esp elp events wflags =>
      exact whole.same rfl rfl rfl rfl rfl
  | chEvtUnregister esp elp => exact whole.same rfl rfl rfl rfl rfl
  | chEvtGetAndClearFlags elp => exact whole.same rfl rfl rfl rfl rfl
  | chEvtGetAndClearEvents events => exact whole.same rfl rfl rfl rfl rfl
  | chEvtAddEvents events => exact whole.same rfl rfl rfl rfl rfl
  | chEvtSignal tp events => exact (whole.chEvtSignalI tp events).reschedule
  | chEvtBroadcastFlags esp flags => exact (whole.chEvtBroadcastFlagsI esp flags).reschedule
  | chEvtWait kind events => exact whole.chEvtWait (other rfl) kind events
  | chEvtWaitTimeout kind events time => exact whole.chEvtWaitTimeout (other rfl) kind events time
  | chMBReset mbp => exact (whole.chMBResetI mbp).reschedule
  | chMBPost mbp timeout => exact whole.transfer (other rfl) _ _ timeout
  | chMBPostAhead mbp timeout => exact whole.transfer (other rfl) _ _ timeout
  | chMBFetch mbp timeout => exact whole.transfer (other rfl) _ _ timeout
  | chMsgSend tp => exact chain_chMsgSend (other rfl) tp
  | chMsgWait => exact chain_chMsgWait (other rfl)
  | chMsgRelease tp msg =>
      have waits : s.core.waiting tp = some .SNDMSG := waits_of_state able
      refine (Moves.refl 0 s).choose (.wakeup msg (fun ordered => ordered) ?_ ?_)
      · rw [waits]
        simp
      · rw [waits]
        rfl

/-- The rest of a call is moves and a choice as well. -/
theorem Moves.then (moves : Moves idle 0 s s') (ordered : s.core.Ordered → s'.core.Ordered)
    (rest : Chain idle n s' s'') : Chain idle n s s'' := by
  obtain ⟨s₁, more, last⟩ := rest
  refine ⟨s₁, (moves.trans more).mono (Nat.zero_add n).le, last.imp_right fun choice => ?_⟩
  cases choice with
  | sleep other off armed inside => exact .sleep other off armed inside
  | sleepOn other place perm free armed inside => exact .sleepOn other place perm free armed inside
  | reschedule => exact .reschedule _
  | yield => exact .yield _
  | epilogue => exact .epilogue _
  | wakeup msg ordered' asleep off =>
      exact .wakeup msg (fun start => ordered' (ordered start)) asleep off
  | wakeupOff msg ordered' mem => exact .wakeupOff msg (fun start => ordered' (ordered start)) mem

theorem Whole.resume [Fintype T] (whole : Whole idle s) (inside : s.pc s.core.currp ≠ .outside) :
    Chain idle 0 s s.resume := by
  have other : s.core.currp ≠ idle := by
    intro eq
    rw [eq] at inside
    exact inside whole.inv.idle
  have left : Moves idle 0 s s.leave := (Move.leave s).one
  have whole' := left.whole whole
  unfold Rt.resume
  dsimp only
  split
  · exact (Moves.refl 0 s).chain
  · exact left.chain
  · split
    · exact (left.trans (whole'.chSemSignalI _)).reschedule
    · exact left.chain
  · split
    · exact left.chain
    · exact left.then (fun ordered => ordered) (whole'.chMtxLock other _)
  · split
    · exact left.chain
    · exact left.then (fun ordered => ordered) (whole'.same rfl rfl rfl rfl rfl)
  · exact (left.trans (Move.receive _).one).chain

/-! ### Interrupt handlers -/

theorem Whole.wakeup (whole : Whole idle s) (current : tp ≠ s.core.currp)
    (timed : ∀ w, s.core.waiting tp = some w → w.timed = true) :
    Moves idle 0 s (s.wakeup tp) := by
  have mem : ∀ {w : RtWait T O} {q : RtQueue T O}, s.core.p_state tp = .WAIT w →
      w.queue = some q → q.lasting = true → tp ∈ s.queue q := by
    intro w q state queued lasting
    refine whole.placed tp q ?_ lasting
    rw [waits_of_state state]
    exact queued
  unfold Rt.wakeup
  dsimp only
  split
  · exact .refl 0 s
  · rename_i trp state
    have here := mem state rfl rfl
    have only : s.queue (.ref trp) = [tp] := by
      obtain ⟨t, eq⟩ := List.length_eq_one_iff.mp
        (le_antisymm (whole.single trp) (List.length_pos_of_mem here))
      rw [eq] at here ⊢
      rw [List.mem_singleton.mp here]
    have woken : Moves idle 0 s _ := (Move.wakeOff MSG_TIMEOUT here).one
    rw [only, List.erase_cons_head] at woken
    exact woken
  · rename_i sp state
    exact .tail (Move.wakeOff MSG_TIMEOUT (mem state rfl rfl)).one
      (.aside rfl rfl whole.inv.real rfl rfl)
  · rename_i cp state
    exact (Move.wakeOff MSG_TIMEOUT (mem state rfl rfl)).one
  · rename_i ready suspended sem cond
    obtain ⟨w, waiting, off⟩ := whole.inv.off_queue current timed ready suspended sem cond
    exact moves_wake MSG_TIMEOUT waiting off

theorem Whole.isr (whole : Whole idle s) (out : s.pc s.core.currp = .outside) {op : Isr T O}
    (meets : s.Meets op) : Moves idle 0 s (s.isr op) := by
  cases op with
  | chThdCreateI tp prio => exact (Move.create meets.1 meets.2).one
  | chThdStartI tp => exact moves_readyI (waits_of_state meets) rfl
  | chThdResumeI trp msg => exact moves_wakeFirst (readies_msgReady msg) s _
  | chSemResetI sp n => exact whole.chSemResetI sp n
  | chSemSignalI sp => exact whole.chSemSignalI sp
  | chSemAddCounterI sp n => exact whole.chSemAddCounterI sp n
  | chBSemSignalI sp => exact whole.chBSemSignalI sp
  | chCondSignalI cp => exact moves_wakeFirst (readies_msgReady MSG_OK) s _
  | chCondBroadcastI cp => exact moves_wakeAll (readies_readyMsg MSG_RESET) _ _ s
  | chEvtSignalI tp events => exact whole.chEvtSignalI tp events
  | chEvtBroadcastFlagsI esp flags => exact whole.chEvtBroadcastFlagsI esp flags
  | chMBResetI mbp => exact whole.chMBResetI mbp
  | chMBPostI mbp => exact whole.transferI _ _
  | chMBFetchI mbp => exact whole.transferI _ _
  | tick => exact (Move.tick s).one
  | timeout tp =>
      have armed := whole.inv.timer tp meets
      have current : tp ≠ s.core.currp := by
        rintro rfl
        exact armed.1 out
      have disarmed : Moves idle 0 s _ := (Move.disarm s tp).one
      exact disarmed.trans ((disarmed.whole whole).wakeup current armed.2)

theorem Move.outside (move : Move idle s s') {t : T} (out : s.pc t = .outside) :
    s'.pc t = .outside := by
  cases move with
  | aside core queue real timer pc => rwa [pc]
  | leave =>
      change Function.update s.pc s.core.currp .outside t = .outside
      by_cases same : t = s.core.currp
      · rw [same, Function.update_self]
      · rwa [Function.update_of_ne same]
  | disarm tp => exact out
  | tick => exact out
  | wake msg asleep off => exact out
  | wakeOff msg mem => exact out
  | @raise tp less =>
      unfold Rt.raise Rt.requeue
      dsimp only
      split <;> exact out
  | @create tp prio unused pos =>
      change Function.update s.pc tp .outside t = .outside
      by_cases same : t = tp
      · rw [same, Function.update_self]
      · rwa [Function.update_of_ne same]
  | receive =>
      unfold Rt.receive
      split <;> exact out

theorem Moves.outside (moves : Moves idle n s s') {t : T} (out : s.pc t = .outside) :
    s'.pc t = .outside := by
  induction moves with
  | refl => exact out
  | tail _ move ih => exact move.outside (ih out)
  | own _ pos ih => exact ih out

theorem Whole.handles (whole : Whole idle s) (out : s.pc s.core.currp = .outside)
    (handles : s.Handles s') : Moves idle 0 s s' := by
  induction handles with
  | refl => exact .refl 0 s
  | tail _ step ih =>
      obtain ⟨op, meets, rfl⟩ := step
      refine ih.trans ((ih.whole whole).isr ?_ meets)
      rw [ih.currp]
      exact ih.outside out

/-! ### Runs -/

/-- How often a step may change the priority of the running thread. -/
def changes (c : Option (Call T O)) : Nat := c.elim 0 Call.own

theorem Whole.step [Fintype T] {c : Option (Call T O)} (whole : Whole idle s)
    (step : Step idle c s s') : Chain idle (changes c) s s' := by
  cases step with
  | call c out other able => exact whole.call able other
  | resume inside => exact whole.resume inside
  | interrupt out handles => exact (whole.handles out handles).choose (.epilogue _)

omit [DecidableEq O] in
theorem Start.whole (start : Start idle s) : Whole idle s := by
  refine ⟨start.fine.1, fun t q place _ => ?_, fun trp => ?_⟩
  · obtain ⟨w, waits, queued⟩ := Option.bind_eq_some_iff.mp place
    rw [start.asleep t w waits] at queued
    cases queued
  · rw [start.queue]
    exact Nat.zero_le 1

theorem Reach.whole [Fintype T] {ok : Option (Call T O) → Rt T O → Prop} (reach : Reach ok idle s) :
    Whole idle s := by
  obtain ⟨s₀, start, run⟩ := reach
  induction run with
  | refl => exact start.whole
  | tail _ step ih =>
      obtain ⟨c, -, step⟩ := step
      exact (ih.step step).whole ih

/-- Where the threads are. -/
structure Placed (s : Rt T O) : Prop where
  running : ∀ t, s.core.p_state t = .CURRENT ↔ t = s.core.currp
  ready : ∀ t, s.core.p_state t = .READY ↔ t ∈ s.core.ready
  waiting : ∀ q t, q.lasting = true →
    ((∃ w, s.core.p_state t = .WAIT w ∧ w.queue = some q) ↔ t ∈ s.queue q)
  cleared : ∀ q t, t ∈ s.queue q → ∃ w, s.core.p_state t = .WAIT w ∧ w.queue = some q
  once : s.core.ready.Nodup ∧ ∀ q, (s.queue q).Nodup
  reference : ∀ trp, (s.queue (.ref trp)).length ≤ 1

/-- No thread is lost. In every reachable state a thread runs, is on the ready list once, or is
once on the queue of the semaphore, mutex, condition variable or reference it waits for, each
exactly if its state says so, and a thread on any other queue waits for that. -/
theorem threads_placed [Fintype T] (ok : Option (Call T O) → Rt T O → Prop) (idle : T) (s : Rt T O)
    (reach : Reach ok idle s) : Placed s := by
  have whole := reach.whole
  have inv := whole.inv
  have cleared : ∀ q t, t ∈ s.queue q → ∃ w, s.core.p_state t = .WAIT w ∧ w.queue = some q := by
    intro q t mem
    obtain ⟨w, waits, queued⟩ := Option.bind_eq_some_iff.mp (inv.held.mem q t mem)
    exact ⟨w, Core.waiting_eq_some.mp waits, queued⟩
  refine ⟨inv.core.inv.current, fun t => (inv.core.inv.mem_ready t).symm, ?_, cleared,
    ⟨inv.core.inv.nodup, inv.held.nodup⟩, whole.single⟩
  intro q t lasting
  constructor
  · rintro ⟨w, state, queued⟩
    refine whole.placed t q ?_ lasting
    rw [waits_of_state state]
    exact queued
  · exact cleared q t

/-- The main thread waits for a semaphore without units. -/
def sampleWaiting : Rt (Fin 3) Unit := sampleStart.chSemWait (.sem ())

theorem sampleWaiting_placed :
    Reach (fun _ _ => True) 0 sampleWaiting ∧ Placed sampleWaiting ∧
      sampleWaiting.queue (.sem (.sem ())) = [1] := by
  have reach : Reach (fun _ _ => True) 0 sampleWaiting := by
    refine ⟨sampleStart, sampleStart_start, .single ⟨some (.chSemWait (.sem ())), trivial, ?_⟩⟩
    exact .call _ rfl (fun _ => by decide) trivial
  exact ⟨reach, threads_placed _ 0 _ reach, rfl⟩

end Moves

end Rt

end LtcOs.Kernel
