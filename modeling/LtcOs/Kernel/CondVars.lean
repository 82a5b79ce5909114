import LtcOs.Kernel.PriorityInheritance

/-!
Condition variables over whole runs.

`Moved` is what a step does to a thread that does not run: nothing, or it is handed the
mutex it waits for, or it is woken from a condition variable. `CondWait` follows one call
of `chCondWaitS` or `chCondWaitTimeoutS` from the sleep to the return and counts how often
the thread is woken, and `CondWait.phase` says where the thread is on the way.
-/

namespace LtcOs.Kernel

open LtcOs.Prio LtcOs.Waiting

variable {T M C : Type} [DecidableEq T]

namespace Mtx

/-! ### What a step does to another thread -/

/-- Nothing happens to a thread. -/
structure Kept (s s' : Mtx T M C) (t : T) : Prop where
  pc : s'.pc t = s.pc t
  waiting : s'.core.waiting t = s.core.waiting t
  rdymsg : s'.core.rdymsg t = s.core.rdymsg t
  held : s'.p_mtxlist t = s.p_mtxlist t

/-- The messages of a thread that is woken from a condition variable. Only a call with a
timeout ends with `MSG_TIMEOUT`. -/
def Woken (timed : Prop) (msg : Int) : Prop :=
  msg = MSG_OK ∨ msg = MSG_RESET ∨ msg = MSG_TIMEOUT ∧ timed

/-- What happens to a thread that does not run. -/
inductive Moved (s s' : Mtx T M C) (t : T) : Prop where
  | kept (kept : Kept s s' t)
  | handed (m : M) (waits : s.core.waiting t = some (.WTMTX m)) (awake : s'.core.waiting t = none)
      (pc : s'.pc t = s.pc t) (held : s'.p_mtxlist t = m :: s.p_mtxlist t)
  | woken (cp : C) (waits : s.core.waiting t = some (.WTCOND cp))
      (awake : s'.core.waiting t = none) (pc : s'.pc t = s.pc t)
      (held : s'.p_mtxlist t = s.p_mtxlist t)
      (msg : Woken (∃ mp, s.pc t = .relock mp true) (s'.core.rdymsg t))

section Moved

variable {idle t tp : T} {s s' s'' : Mtx T M C} {mp : M} {cp : C}

omit [DecidableEq T] in
theorem Kept.refl (s : Mtx T M C) (t : T) : Kept s s t := ⟨rfl, rfl, rfl, rfl⟩

omit [DecidableEq T] in
theorem Kept.trans (h : Kept s s' t) (h' : Kept s' s'' t) : Kept s s'' t :=
  ⟨h'.pc.trans h.pc, h'.waiting.trans h.waiting, h'.rdymsg.trans h.rdymsg, h'.held.trans h.held⟩

omit [DecidableEq T] in
theorem Moved.trans_kept (h : Moved s s' t) (h' : Kept s' s'' t) : Moved s s'' t := by
  cases h with
  | kept kept => exact .kept (kept.trans h')
  | handed m waits awake pc held =>
      exact .handed m waits (h'.waiting.trans awake) (h'.pc.trans pc) (h'.held.trans held)
  | woken cp waits awake pc held msg =>
      exact .woken cp waits (h'.waiting.trans awake) (h'.pc.trans pc) (h'.held.trans held)
        (h'.rdymsg ▸ msg)

omit [DecidableEq T] in
/-- A thread that is awake is left alone. -/
theorem Moved.kept_of_awake (h : Moved s s' t) (awake : s.core.waiting t = none) :
    Kept s s' t := by
  cases h with
  | kept kept => exact kept
  | handed m waits => exact absurd (awake.symm.trans waits) (by simp)
  | woken cp waits => exact absurd (awake.symm.trans waits) (by simp)

omit [DecidableEq T] in
theorem Moved.trans (h : Moved s s' t) (h' : Moved s' s'' t) : Moved s s'' t := by
  cases h with
  | kept kept =>
      cases h' with
      | kept kept' => exact .kept (kept.trans kept')
      | handed m waits awake pc held =>
          exact .handed m (kept.waiting ▸ waits) awake (pc.trans kept.pc)
            (by rw [held, kept.held])
      | woken cp waits awake pc held msg =>
          exact .woken cp (kept.waiting ▸ waits) awake (pc.trans kept.pc)
            (held.trans kept.held) (kept.pc ▸ msg)
  | handed m waits awake pc held =>
      exact (Moved.handed m waits awake pc held).trans_kept (h'.kept_of_awake awake)
  | woken cp waits awake pc held msg =>
      exact (Moved.woken cp waits awake pc held msg).trans_kept (h'.kept_of_awake awake)

/-! ### Locks -/

section Lock

variable [DecidableEq M] [DecidableEq C]

theorem kept_chMtxLockS [Fintype T] (inv : Inv idle s) (other : t ≠ s.core.currp) (mp : M) :
    Kept s (s.chMtxLockS mp) t := by
  cases owner : s.m_owner mp with
  | none =>
      rw [chMtxLockS_free owner]
      exact ⟨Function.update_of_ne other _ _, rfl, rfl, Function.update_of_ne other _ _⟩
  | some o =>
      obtain ⟨waiting, pc, held, rdymsg⟩ := chMtxLockS_owned inv owner
      constructor
      · rw [pc, Function.update_of_ne other]
      · rw [waiting, Function.update_of_ne other]
      · rw [rdymsg]
      · rw [held]

omit [DecidableEq C] in
theorem kept_chMtxTryLockS (other : t ≠ s.core.currp) (mp : M) :
    Kept s (s.chMtxTryLockS mp).2 t := by
  unfold chMtxTryLockS
  dsimp only
  split
  · exact .refl s t
  · exact ⟨rfl, rfl, rfl, Function.update_of_ne other _ _⟩

end Lock

/-! ### Unlocks -/

section Unlock

variable [DecidableEq M]

/-- One mutex goes to the first thread on its queue. -/
theorem moved_release (wf : Wf idle s) (other : t ≠ s.core.currp) (mp : M) :
    Moved s ((s.pop s.core.currp).handOff mp) t := by
  have held : (s.pop s.core.currp).p_mtxlist t = s.p_mtxlist t := Function.update_of_ne other _ _
  cases eq : s.m_queue mp with
  | nil =>
      rw [handOff_nil (by exact eq)]
      exact .kept ⟨rfl, rfl, rfl, held⟩
  | cons tp q =>
      rw [handOff_cons (by exact eq)]
      by_cases same : t = tp
      · subst same
        apply Moved.handed mp (wf.mem_queue.mp (by simp [eq]))
        · exact (congrFun (Core.waiting_chSchReadyI s.core t) t).trans (Function.update_self _ _ _)
        · rfl
        · exact (Function.update_self _ _ _).trans (by rw [held])
      · apply Moved.kept
        constructor
        · rfl
        · exact (congrFun (Core.waiting_chSchReadyI s.core tp) t).trans
            (Function.update_of_ne same _ _)
        · rfl
        · exact (Function.update_of_ne same _ _).trans held

omit [DecidableEq M] in
theorem kept_setPrio (s : Mtx T M C) (tp t : T) (p : Nat) : Kept s (s.setPrio tp p) t :=
  ⟨rfl, rfl, rfl, rfl⟩

theorem moved_chMtxUnlockS (inv : Inv idle s) (other : t ≠ s.core.currp) (mp : M) :
    Moved s (s.chMtxUnlockS mp) t := by
  unfold chMtxUnlockS
  dsimp only
  split_ifs
  · have wf := inv.toWf.setPrio
      (newprio_spec inv.toWf s.core.currp ((s.pop s.core.currp).p_mtxlist s.core.currp)).1
    exact (Moved.kept (kept_setPrio s _ t _)).trans (moved_release wf other mp)
  · exact moved_release inv.toWf other mp

omit [DecidableEq M] in
theorem kept_reschedule (core : s.core.Inv idle) (t : T) : Kept s s.reschedule t := by
  constructor
  · rfl
  · exact congrFun core.waiting_chSchRescheduleS t
  · exact congrFun (Core.chSchRescheduleS_rdymsg s.core) t
  · rfl

theorem moved_chMtxUnlock {rest : List M} (inv : Inv idle s)
    (top : s.p_mtxlist s.core.currp = mp :: rest) (user : s.pc s.core.currp = .user)
    (other : t ≠ s.core.currp) : Moved s (s.chMtxUnlock mp) t := by
  have moved := moved_chMtxUnlockS inv other mp
  unfold chMtxUnlock
  split_ifs
  · exact moved.trans_kept (kept_reschedule (inv_chMtxUnlockS inv top user).1.core t)
  · exact moved

/-- By induction on the rounds: whoever got a mutex in one round is awake in the others. -/
theorem moved_unlockLoop (wf : Wf idle s) (user : s.pc s.core.currp = .user)
    (other : t ≠ s.core.currp) (n : Nat) :
    Moved s (unlockLoop s.core.currp n s) t := by
  induction n generalizing s with
  | zero => exact .kept (.refl s t)
  | succ n ih =>
      rw [unlockLoop]
      split
      · exact .kept (.refl s t)
      · next mp rest top =>
          have moved := moved_release wf other mp
          obtain ⟨wf', released⟩ := wf.release top user
          generalize (s.pop s.core.currp).handOff mp = s₁ at moved wf' released ⊢
          rw [← released.currp] at user other ⊢
          exact moved.trans (ih wf' (released.pc ▸ user) other)

theorem moved_chMtxUnlockAll (inv : Inv idle s) (user : s.pc s.core.currp = .user)
    (other : t ≠ s.core.currp) : Moved s s.chMtxUnlockAll t := by
  unfold chMtxUnlockAll
  dsimp only
  split_ifs
  · have moved := moved_unlockLoop inv.toWf user other (s.p_mtxlist s.core.currp).length
    obtain ⟨unlocked, -⟩ := unlocked_unlockLoop inv.toWf (fun t _ => inv.inherits t) user rfl
    generalize unlockLoop s.core.currp (s.p_mtxlist s.core.currp).length s = s₁ at moved unlocked ⊢
    rw [← unlocked.currp]
    have wf : Wf idle (s₁.setPrio s₁.core.currp (s₁.realprio s₁.core.currp)) :=
      unlocked.wf.setPrio le_rfl
    exact moved.trans_kept ((kept_setPrio s₁ _ t _).trans (kept_reschedule wf.core t))
  · exact .kept (.refl s t)

end Unlock

/-! ### Condition variables -/

section Cond

variable [DecidableEq C]

theorem moved_chCondWaitS [DecidableEq M] {rest : List M} (inv : Inv idle s)
    (user : s.pc s.core.currp = .user) (top : s.p_mtxlist s.core.currp = mp :: rest) (cp : C)
    (timed : Bool) (other : t ≠ s.core.currp) : Moved s (s.chCondWaitS cp timed) t := by
  have moved := moved_chMtxUnlockS inv other mp
  obtain ⟨inv', -, pc, currp, -⟩ := inv_chMtxUnlockS inv top user
  have waiting := inv'.core.waiting_chSchGoSleepS (.WTCOND cp)
  have rdymsg := Core.chSchGoSleepS_rdymsg (s.chMtxUnlockS mp).core (Wait.WTCOND cp)
  rw [currp] at waiting
  unfold chCondWaitS
  dsimp only
  rw [top]
  apply moved.trans_kept
  constructor
  · exact Function.update_of_ne other _ _
  · exact (congrFun waiting t).trans (Function.update_of_ne other _ _)
  · exact congrFun rdymsg t
  · rfl

omit [DecidableEq C] in
/-- Only one thread wakes up, and it waited for a condition variable. -/
theorem moved_of_update {c : Core T (Wait M C)} {cq : C → List T} {msg : Int}
    (waits : s.core.waiting tp = some (.WTCOND cp))
    (waiting : c.waiting = Function.update s.core.waiting tp none)
    (rdymsg : c.rdymsg = Function.update s.core.rdymsg tp msg)
    (fits : Woken (∃ mp, s.pc tp = .relock mp true) msg) :
    Moved s { s with core := c, c_queue := cq } t := by
  by_cases same : t = tp
  · subst same
    apply Moved.woken cp waits
    · exact (congrFun waiting t).trans (Function.update_self _ _ _)
    · rfl
    · rfl
    · have read : c.rdymsg t = msg := (congrFun rdymsg t).trans (Function.update_self _ _ _)
      exact read ▸ fits
  · apply Moved.kept
    constructor
    · rfl
    · exact (congrFun waiting t).trans (Function.update_of_ne same _ _)
    · exact (congrFun rdymsg t).trans (Function.update_of_ne same _ _)
    · rfl

theorem moved_chCondSignal (inv : Inv idle s) (cp : C) : Moved s (s.chCondSignal cp) t := by
  unfold chCondSignal
  split
  · exact .kept (.refl s t)
  · next tp rest first =>
      exact moved_of_update (inv.waits_first first) (inv.core.waiting_chSchWakeupS tp MSG_OK)
        (Core.chSchWakeupS_rdymsg _ _ _) (.inl rfl)

theorem moved_chCondSignalI (inv : Inv idle s) (cp : C) : Moved s (s.chCondSignalI cp) t := by
  unfold chCondSignalI
  split
  · exact .kept (.refl s t)
  · next tp rest first =>
      exact moved_of_update (inv.waits_first first)
        (by rw [Core.waiting_chSchReadyI, Core.waiting_setMsg]) rfl (.inl rfl)

/-- By induction on the rounds: whoever wakes up in one round is awake in the others. -/
theorem moved_broadcastLoop (inv : Inv idle s) (cp : C) (n : Nat) :
    Moved s (broadcastLoop cp n s) t := by
  induction n generalizing s with
  | zero => exact .kept (.refl s t)
  | succ n ih =>
      rw [broadcastLoop]
      split
      · exact .kept (.refl s t)
      · next tp rest first =>
          obtain ⟨inv', waiting⟩ := inv.reset_first first
          exact (moved_of_update (inv.waits_first first) waiting rfl (.inr (.inl rfl))).trans
            (ih inv')

theorem moved_timeout (waits : s.core.waiting tp = some (.WTCOND cp))
    (timed : s.pc tp = .relock mp true) : Moved s (s.timeout tp cp) t := by
  have waiting : ((s.core.setMsg tp MSG_TIMEOUT).chSchReadyI tp).waiting =
      Function.update s.core.waiting tp none := by
    rw [Core.waiting_chSchReadyI, Core.waiting_setMsg]
  exact moved_of_update waits waiting rfl (.inr (.inr ⟨rfl, mp, timed⟩))

end Cond

end Moved

/-! ### One step -/

section Step

variable {idle t tp : T} {s s' : Mtx T M C}

omit [DecidableEq T] in
theorem kept_of_core {c : Core T (Wait M C)} (waiting : c.waiting t = s.core.waiting t)
    (rdymsg : c.rdymsg t = s.core.rdymsg t) : Kept s { s with core := c } t :=
  ⟨rfl, waiting, rdymsg, rfl⟩

/-- A thread asleep for another reason wakes up. -/
theorem kept_wake {c : Core T (Wait M C)} {msg : Int} (waits : s.core.waiting tp = some .OTHER)
    (off : s.core.waiting t ≠ some .OTHER)
    (waiting : c.waiting = Function.update s.core.waiting tp none)
    (rdymsg : c.rdymsg = Function.update s.core.rdymsg tp msg) :
    Kept s { s with core := c } t := by
  have other : t ≠ tp := by
    rintro rfl
    exact off waits
  apply kept_of_core
  · rw [waiting, Function.update_of_ne other]
  · rw [rdymsg, Function.update_of_ne other]

variable [DecidableEq M] [DecidableEq C] [Fintype T]

theorem moved_step (inv : Inv idle s) (step : Step idle s s') (other : t ≠ s.core.currp)
    (off : s.core.waiting t ≠ some .OTHER) : Moved s s' t := by
  cases step with
  | lock mp user _ => exact .kept (kept_chMtxLockS inv other mp)
  | tryLock mp user => exact .kept (kept_chMtxTryLockS other mp)
  | unlock mp rest user top => exact moved_chMtxUnlock inv top user other
  | unlockS mp rest user top => exact moved_chMtxUnlockS inv other mp
  | unlockAll user => exact moved_chMtxUnlockAll inv user other
  | condWait cp timed user _ owns =>
      obtain ⟨mp, rest, top⟩ := List.exists_cons_of_ne_nil owns
      exact moved_chCondWaitS inv user top cp timed other
  | condSignal cp user => exact moved_chCondSignal inv cp
  | condSignalI cp user => exact moved_chCondSignalI inv cp
  | condBroadcast cp user =>
      have inv' := inv_broadcastLoop inv cp (s.c_queue cp).length
      exact (moved_broadcastLoop inv cp _).trans_kept (kept_reschedule inv'.core t)
  | condBroadcastI cp user => exact moved_broadcastLoop inv cp _
  | timeout tp cp mp user waits timed => exact moved_timeout waits timed
  | sleep user _ =>
      apply Moved.kept
      apply kept_of_core
      · rw [inv.core.waiting_chSchGoSleepS, Function.update_of_ne other]
      · rw [Core.chSchGoSleepS_rdymsg]
  | ready tp msg user waits =>
      apply Moved.kept
      apply kept_wake waits off
      · rw [Core.waiting_chSchReadyI, Core.waiting_setMsg]
      · rfl
  | wakeup tp msg user waits =>
      exact .kept (kept_wake waits off (inv.core.waiting_chSchWakeupS tp msg)
        (Core.chSchWakeupS_rdymsg _ _ _))
  | reschedule user => exact .kept (kept_reschedule inv.core t)
  | yield user =>
      exact .kept (kept_of_core (congrFun inv.core.waiting_chSchDoYieldS t)
        (congrFun (Core.chSchDoYieldS_rdymsg _) t))
  | tick user =>
      exact .kept (kept_of_core (congrFun (Core.waiting_tick _) t)
        (congrFun (Core.tick_rdymsg _) t))
  | epilogue user =>
      exact .kept (kept_of_core (congrFun inv.core.waiting_epilogue t)
        (congrFun (Core.epilogue_rdymsg _) t))
  | locked mp inside => exact .kept ⟨Function.update_of_ne other _ _, rfl, rfl, rfl⟩
  | relock mp timed inside signalled => exact .kept (kept_chMtxLockS inv other mp)
  | timedOut mp inside late => exact .kept ⟨Function.update_of_ne other _ _, rfl, rfl, rfl⟩

/-- What the current thread does when it runs again inside a call. -/
theorem inside_step (step : Step idle s s') (inside : s.pc s.core.currp ≠ .user) :
    (∃ mp, s.pc s.core.currp = .locking mp ∧
        s' = { s with pc := Function.update s.pc s.core.currp .user }) ∨
      (∃ mp timed, s.pc s.core.currp = .relock mp timed ∧
        (timed = false ∨ s.core.rdymsg s.core.currp ≠ MSG_TIMEOUT) ∧ s' = s.chMtxLockS mp) ∨
      ∃ mp, s.pc s.core.currp = .relock mp true ∧ s.core.rdymsg s.core.currp = MSG_TIMEOUT ∧
        s' = { s with pc := Function.update s.pc s.core.currp .user } := by
  cases step with
  | locked mp h => exact .inl ⟨mp, h, rfl⟩
  | relock mp timed h signalled => exact .inr (.inl ⟨mp, timed, h, signalled, rfl⟩)
  | timedOut mp h late => exact .inr (.inr ⟨mp, h, late, rfl⟩)
  | _ => exact absurd (by assumption) inside

end Step

/-! ### One wait -/

section Wait

/-- Whether a thread is woken from a condition variable in a step. -/
def wakeCount (s s' : Mtx T M C) (t : T) : Nat :=
  if (condOf (s.core.waiting t)).isSome ∧ s'.core.waiting t = none then 1 else 0

/-- The local variable `msg` of a thread in `chCondWaitS` after a step: it is read when the
thread runs again. -/
def reads [DecidableEq M] (s s' : Mtx T M C) (t : T) (msg : Option Int) : Option Int :=
  match s.pc t with
  | .relock _ _ => if s'.pc t = s.pc t then msg else some (s.core.rdymsg t)
  | _ => msg

variable [DecidableEq M] [DecidableEq C] [Fintype T]

/-- A run from the call of `chCondWaitS` or `chCondWaitTimeoutS` by the thread `t`, which
owns `mp` and below it `rest`, until the call returns and `t` is in no call. The thread was
woken `n` times since, and `msg` is what it read. -/
inductive CondWait (idle t : T) (cp : C) (timed : Bool) (mp : M) (rest : List M) :
    (n : Nat) → (msg : Option Int) → Mtx T M C → Prop where
  | wait {s : Mtx T M C} (reachable : Reachable idle s) (user : s.pc s.core.currp = .user)
      (other : s.core.currp ≠ idle) (current : s.core.currp = t)
      (top : s.p_mtxlist s.core.currp = mp :: rest) :
      CondWait idle t cp timed mp rest 0 none (s.chCondWaitS cp timed)
  | step {n : Nat} {msg : Option Int} {s s' : Mtx T M C}
      (run : CondWait idle t cp timed mp rest n msg s) (inside : s.pc t ≠ .user)
      (step : Step idle s s') :
      CondWait idle t cp timed mp rest (n + s.wakeCount s' t) (s.reads s' t msg) s'

/-- Where a thread is in a wait. -/
inductive Phase (t : T) (cp : C) (timed : Bool) (mp : M) (rest : List M) (n : Nat)
    (msg : Option Int) (s : Mtx T M C) : Prop where
  | asleep (pc : s.pc t = .relock mp timed) (waits : s.core.waiting t = some (.WTCOND cp))
      (held : s.p_mtxlist t = rest) (count : n = 0) (unread : msg = none)
  | woken (pc : s.pc t = .relock mp timed) (awake : s.core.waiting t = none)
      (held : s.p_mtxlist t = rest) (count : n = 1) (unread : msg = none)
      (fits : Woken (timed = true) (s.core.rdymsg t))
  | blocked (pc : s.pc t = .locking mp) (waits : s.core.waiting t = some (.WTMTX mp))
      (held : s.p_mtxlist t = rest) (count : n = 1)
      (read : msg = some MSG_OK ∨ msg = some MSG_RESET)
  | granted (pc : s.pc t = .locking mp) (awake : s.core.waiting t = none)
      (held : s.p_mtxlist t = mp :: rest) (count : n = 1)
      (read : msg = some MSG_OK ∨ msg = some MSG_RESET)
  | owner (pc : s.pc t = .user) (current : s.core.currp = t)
      (held : s.p_mtxlist t = mp :: rest) (count : n = 1)
      (read : msg = some MSG_OK ∨ msg = some MSG_RESET)
  | late (pc : s.pc t = .user) (current : s.core.currp = t)
      (held : s.p_mtxlist t = rest) (count : n = 1) (read : msg = some MSG_TIMEOUT)
      (limited : timed = true)

variable {idle t : T} {cp : C} {timed : Bool} {mp : M} {rest : List M} {n : Nat}
  {msg : Option Int} {s s' : Mtx T M C}

theorem CondWait.reachable (run : CondWait idle t cp timed mp rest n msg s) : Reachable idle s := by
  induction run with
  | wait reachable user other current top =>
      obtain ⟨s₀, start, run⟩ := reachable
      exact ⟨s₀, start, run.tail (.condWait cp timed user other (by simp [top]))⟩
  | step _ _ step ih =>
      obtain ⟨s₀, start, run⟩ := ih
      exact ⟨s₀, start, run.tail step⟩

omit [DecidableEq M] [DecidableEq C] [Fintype T] [DecidableEq T] in
theorem wakeCount_eq_zero (same : s'.core.waiting t = s.core.waiting t ∨ s.core.waiting t = none ∨
    ∃ m, s.core.waiting t = some (.WTMTX m)) : s.wakeCount s' t = 0 := by
  apply if_neg
  rintro ⟨cond, awake⟩
  rcases same with same | asleep | ⟨m, waits⟩
  · rw [← same, awake] at cond
    cases cond
  · rw [asleep] at cond
    cases cond
  · rw [waits] at cond
    cases cond

omit [DecidableEq M] [DecidableEq C] [Fintype T] [DecidableEq T] in
theorem wakeCount_eq_one (waits : s.core.waiting t = some (.WTCOND cp))
    (awake : s'.core.waiting t = none) : s.wakeCount s' t = 1 := by
  apply if_pos
  rw [waits]
  exact ⟨rfl, awake⟩

omit [DecidableEq C] [Fintype T] [DecidableEq T] in
theorem reads_same (same : s'.pc t = s.pc t) (msg : Option Int) : s.reads s' t msg = msg := by
  unfold reads
  split
  · exact if_pos same
  · rfl

omit [DecidableEq C] [Fintype T] [DecidableEq T] in
theorem reads_locking {m : M} (inside : s.pc t = .locking m) (msg : Option Int) :
    s.reads s' t msg = msg := by
  unfold reads
  rw [inside]

omit [DecidableEq C] [Fintype T] [DecidableEq T] in
theorem reads_relock {m : M} {b : Bool} (inside : s.pc t = .relock m b)
    (leaves : s'.pc t ≠ .relock m b) (msg : Option Int) :
    s.reads s' t msg = some (s.core.rdymsg t) := by
  unfold reads
  rw [inside]
  exact if_neg leaves

omit [DecidableEq C] [Fintype T] [DecidableEq T] in
/-- Other threads and interrupt handlers run. -/
theorem Phase.moved (phase : Phase t cp timed mp rest n msg s) (inside : s.pc t ≠ .user)
    (moved : Moved s s' t) :
    Phase t cp timed mp rest (n + s.wakeCount s' t) (s.reads s' t msg) s' := by
  cases moved with
  | kept kept =>
      rw [wakeCount_eq_zero (.inl kept.waiting), reads_same kept.pc, Nat.add_zero]
      cases phase with
      | asleep pc waits held count unread =>
          exact .asleep (kept.pc.trans pc) (kept.waiting.trans waits) (kept.held.trans held) count
            unread
      | woken pc awake held count unread fits =>
          exact .woken (kept.pc.trans pc) (kept.waiting.trans awake) (kept.held.trans held) count
            unread (kept.rdymsg ▸ fits)
      | blocked pc waits held count read =>
          exact .blocked (kept.pc.trans pc) (kept.waiting.trans waits) (kept.held.trans held) count
            read
      | granted pc awake held count read =>
          exact .granted (kept.pc.trans pc) (kept.waiting.trans awake) (kept.held.trans held) count
            read
      | owner pc => exact absurd pc inside
      | late pc => exact absurd pc inside
  | handed m waits awake pc' held' =>
      rw [wakeCount_eq_zero (.inr (.inr ⟨m, waits⟩)), reads_same pc', Nat.add_zero]
      cases phase with
      | asleep pc waits' => exact absurd (waits.symm.trans waits') (by simp)
      | woken pc awake' => exact absurd (waits.symm.trans awake') (by simp)
      | blocked pc waits' held count read =>
          rw [waits', Option.some.injEq, Wait.WTMTX.injEq] at waits
          exact .granted (pc'.trans pc) awake (by rw [held', held, waits]) count read
      | granted pc awake' => exact absurd (waits.symm.trans awake') (by simp)
      | owner pc => exact absurd pc inside
      | late pc => exact absurd pc inside
  | woken c waits awake pc' held' fits =>
      rw [wakeCount_eq_one waits awake, reads_same pc']
      cases phase with
      | asleep pc waits' held count unread =>
          refine .woken (pc'.trans pc) awake (held'.trans held) (by rw [count]) unread ?_
          rcases fits with h | h | ⟨h, m, limited⟩
          · exact .inl h
          · exact .inr (.inl h)
          · rw [pc, Pc.relock.injEq] at limited
            exact .inr (.inr ⟨h, limited.2⟩)
      | woken pc awake' => exact absurd (waits.symm.trans awake') (by simp)
      | blocked pc waits' => exact absurd (waits.symm.trans waits') (by simp)
      | granted pc awake' => exact absurd (waits.symm.trans awake') (by simp)
      | owner pc => exact absurd pc inside
      | late pc => exact absurd pc inside

/-- The thread runs again and takes the mutex, or waits for it. -/
theorem Phase.relock (inv : Inv idle s) (current : s.core.currp = t)
    (pc : s.pc t = .relock mp timed) (held : s.p_mtxlist t = rest)
    (read : s.core.rdymsg t = MSG_OK ∨ s.core.rdymsg t = MSG_RESET) :
    Phase t cp timed mp rest 1 (s.reads (s.chMtxLockS mp) t none) (s.chMtxLockS mp) := by
  subst current
  have got : ∀ {p : Pc M}, p ≠ .relock mp timed → (s.chMtxLockS mp).pc s.core.currp = p →
      s.reads (s.chMtxLockS mp) s.core.currp none = some MSG_OK ∨
        s.reads (s.chMtxLockS mp) s.core.currp none = some MSG_RESET := by
    intro p leaves eq
    rw [reads_relock pc (eq ▸ leaves), Option.some.injEq, Option.some.injEq]
    exact read
  cases owner : s.m_owner mp with
  | none =>
      have pc' : (s.chMtxLockS mp).pc s.core.currp = .user := by
        rw [chMtxLockS_free owner]
        exact Function.update_self _ _ _
      refine .owner pc' ?_ ?_ rfl (got (by simp) pc')
      · rw [chMtxLockS_free owner]
      · rw [chMtxLockS_free owner]
        exact (Function.update_self _ _ _).trans (by rw [held])
  | some o =>
      obtain ⟨waiting, pcs, helds, -⟩ := chMtxLockS_owned inv owner
      have pc' : (s.chMtxLockS mp).pc s.core.currp = .locking mp := by
        rw [pcs, Function.update_self]
      refine .blocked pc' ?_ ?_ rfl (got (by simp) pc')
      · rw [waiting, Function.update_self]
      · rw [helds, held]

/-- The thread itself runs again. -/
theorem Phase.inside (inv : Inv idle s) (phase : Phase t cp timed mp rest n msg s)
    (inside : s.pc t ≠ .user) (current : s.core.currp = t) (step : Step idle s s') :
    Phase t cp timed mp rest (n + s.wakeCount s' t) (s.reads s' t msg) s' := by
  have awake' : s.core.waiting t = none := current ▸ inv.waiting_currp
  rw [wakeCount_eq_zero (.inr (.inl awake')), Nat.add_zero]
  have here := inside_step step (current.symm ▸ inside)
  rw [current] at here
  cases phase with
  | asleep pc waits => exact absurd (awake'.symm.trans waits) (by simp)
  | blocked pc waits => exact absurd (awake'.symm.trans waits) (by simp)
  | owner pc => exact absurd pc inside
  | late pc => exact absurd pc inside
  | woken pc awake held count unread fits =>
      subst unread count
      rcases here with ⟨m, h, -⟩ | ⟨m, b, h, signalled, rfl⟩ | ⟨m, h, late, rfl⟩
      · exact absurd (pc.symm.trans h) (by simp)
      · rw [pc, Pc.relock.injEq] at h
        obtain ⟨rfl, rfl⟩ := h
        apply Phase.relock inv current pc held
        rcases fits with ok | reset | ⟨late, limited⟩
        · exact .inl ok
        · exact .inr reset
        · rcases signalled with h | h
          · exact absurd (h.symm.trans limited) (by simp)
          · exact absurd late h
      · rw [pc, Pc.relock.injEq] at h
        refine .late (Function.update_self _ _ _) current held rfl ?_ h.2
        rw [reads_relock pc, late]
        exact (Function.update_self _ _ _).trans_ne (by simp)
  | granted pc awake held count read =>
      rw [reads_locking pc]
      rcases here with ⟨m, -, rfl⟩ | ⟨m, b, h, -, -⟩ | ⟨m, h, -, -⟩
      · exact .owner (Function.update_self _ _ _) current held count read
      · exact absurd (pc.symm.trans h) (by simp)
      · exact absurd (pc.symm.trans h) (by simp)

theorem Phase.step (inv : Inv idle s) (phase : Phase t cp timed mp rest n msg s)
    (inside : s.pc t ≠ .user) (step : Step idle s s') :
    Phase t cp timed mp rest (n + s.wakeCount s' t) (s.reads s' t msg) s' := by
  by_cases current : s.core.currp = t
  · exact phase.inside inv inside current step
  · apply phase.moved inside
    apply moved_step inv step (Ne.symm current)
    cases phase with
    | asleep pc waits => simp [waits]
    | woken pc awake => simp [awake]
    | blocked pc waits => simp [waits]
    | granted pc awake => simp [awake]
    | owner pc => exact absurd pc inside
    | late pc => exact absurd pc inside

omit [DecidableEq C] [Fintype T] in
theorem held_chMtxUnlockS (inv : Inv idle s) (user : s.pc s.core.currp = .user)
    (top : s.p_mtxlist s.core.currp = mp :: rest) :
    (s.chMtxUnlockS mp).p_mtxlist s.core.currp = rest := by
  unfold chMtxUnlockS
  dsimp only
  split_ifs
  · have wf := inv.toWf.setPrio
      (newprio_spec inv.toWf s.core.currp ((s.pop s.core.currp).p_mtxlist s.core.currp)).1
    exact (wf.release top user).2.held
  · exact (inv.toWf.release top user).2.held

omit [Fintype T] in
theorem phase_chCondWaitS (inv : Inv idle s) (user : s.pc s.core.currp = .user)
    (top : s.p_mtxlist s.core.currp = mp :: rest) (cp : C) (timed : Bool) :
    Phase s.core.currp cp timed mp rest 0 none (s.chCondWaitS cp timed) := by
  obtain ⟨inv', -, pc, currp, -⟩ := inv_chMtxUnlockS inv top user
  have waiting := inv'.core.waiting_chSchGoSleepS (.WTCOND cp)
  have held := held_chMtxUnlockS inv user top
  rw [currp] at waiting
  rw [chCondWaitS_eq top]
  refine .asleep (Function.update_self _ _ _) ?_ held rfl rfl
  exact (congrFun waiting _).trans (Function.update_self _ _ _)

theorem CondWait.phase (run : CondWait idle t cp timed mp rest n msg s) :
    Phase t cp timed mp rest n msg s := by
  induction run with
  | wait reachable user other current top =>
      subst current
      exact phase_chCondWaitS reachable.inv user top cp timed
  | step run inside step ih => exact ih.step run.reachable.inv inside step

theorem CondWait.fresh (run : CondWait idle t cp timed mp rest n msg s) : mp ∉ rest := by
  induction run with
  | wait reachable user other current top =>
      have nodup := reachable.inv.owners.nodup
      exact (List.nodup_cons.mp (top ▸ nodup _)).1
  | step _ _ _ ih => exact ih

end Wait

/-! ### Signals -/

section Signals

/-- The threads `woken`, the first on the queue of `cp`, leave it and go on with a message;
for no other thread anything changes. -/
structure Wakes [DecidableEq C] (s : Mtx T M C) (cp : C) (woken left : List T) (msg : Int)
    (s' : Mtx T M C) : Prop where
  front : s.c_queue cp = woken ++ left
  queue : s'.c_queue = Function.update s.c_queue cp left
  awake : ∀ t ∈ woken, s.core.waiting t = some (.WTCOND cp) ∧ s'.core.waiting t = none ∧
    s'.core.rdymsg t = msg
  others : ∀ t, t ∉ woken → s'.core.waiting t = s.core.waiting t ∧
    s'.core.rdymsg t = s.core.rdymsg t

variable [DecidableEq C] {idle tp : T} {s s' s'' : Mtx T M C} {cp : C} {rest : List T} {msg : Int}

omit [DecidableEq T] in
theorem wakes_nil (msg : Int) (empty : s.c_queue cp = []) : Wakes s cp [] [] msg s := by
  refine ⟨empty, ?_, by simp, fun _ _ => ⟨rfl, rfl⟩⟩
  rw [← empty, Function.update_eq_self]

theorem wakes_first {c : Core T (Wait M C)} (inv : Inv idle s) (first : s.c_queue cp = tp :: rest)
    (waiting : c.waiting = Function.update s.core.waiting tp none)
    (rdymsg : c.rdymsg = Function.update s.core.rdymsg tp msg) :
    Wakes s cp [tp] rest msg
      { s with core := c, c_queue := Function.update s.c_queue cp rest } := by
  constructor
  · exact first
  · rfl
  · intro t mem
    rw [List.mem_singleton] at mem
    subst mem
    refine ⟨inv.waits_first first, ?_, ?_⟩
    · exact (congrFun waiting t).trans (Function.update_self _ _ _)
    · exact (congrFun rdymsg t).trans (Function.update_self _ _ _)
  · intro t other
    rw [List.mem_singleton] at other
    constructor
    · exact (congrFun waiting t).trans (Function.update_of_ne other _ _)
    · exact (congrFun rdymsg t).trans (Function.update_of_ne other _ _)

omit [DecidableEq T] in
/-- The first thread, and then the others. -/
theorem Wakes.cons {left : List T} (nodup : (tp :: rest).Nodup)
    (first : Wakes s cp [tp] (rest ++ left) msg s')
    (others : Wakes s' cp rest left msg s'') : Wakes s cp (tp :: rest) left msg s'' := by
  obtain ⟨fresh, -⟩ := List.nodup_cons.mp nodup
  constructor
  · exact first.front
  · rw [others.queue, first.queue, Function.update_idem]
  · intro t mem
    rcases List.mem_cons.mp mem with rfl | mem
    · obtain ⟨waits, awake, read⟩ := first.awake t (List.mem_singleton_self t)
      obtain ⟨waiting, rdymsg⟩ := others.others t fresh
      exact ⟨waits, waiting.trans awake, rdymsg.trans read⟩
    · have other : t ∉ [tp] := by
        rw [List.mem_singleton]
        intro same
        exact fresh (same ▸ mem)
      obtain ⟨waits, awake, read⟩ := others.awake t mem
      exact ⟨(first.others t other).1 ▸ waits, awake, read⟩
  · intro t other
    rw [List.mem_cons, not_or] at other
    obtain ⟨waiting, rdymsg⟩ := others.others t other.2
    obtain ⟨waiting', rdymsg'⟩ := first.others t (by simpa using other.1)
    exact ⟨waiting.trans waiting', rdymsg.trans rdymsg'⟩

theorem wakes_chCondSignal (inv : Inv idle s) (cp : C) :
    Wakes s cp ((s.c_queue cp).take 1) ((s.c_queue cp).drop 1) MSG_OK (s.chCondSignal cp) := by
  unfold chCondSignal
  split
  · next empty =>
      rw [empty]
      exact wakes_nil MSG_OK empty
  · next tp rest first =>
      rw [first]
      exact wakes_first inv first (inv.core.waiting_chSchWakeupS tp MSG_OK)
        (Core.chSchWakeupS_rdymsg _ _ _)

theorem wakes_chCondSignalI (inv : Inv idle s) (cp : C) :
    Wakes s cp ((s.c_queue cp).take 1) ((s.c_queue cp).drop 1) MSG_OK (s.chCondSignalI cp) := by
  unfold chCondSignalI
  split
  · next empty =>
      rw [empty]
      exact wakes_nil MSG_OK empty
  · next tp rest first =>
      rw [first]
      exact wakes_first inv first (by rw [Core.waiting_chSchReadyI, Core.waiting_setMsg]) rfl

/-- By induction on the queue, one round for each thread. -/
theorem wakes_broadcastLoop (inv : Inv idle s) {cp : C} {l : List T} (queue : s.c_queue cp = l) :
    Wakes s cp l [] MSG_RESET (broadcastLoop cp l.length s) ∧
      (broadcastLoop cp l.length s).core.log = s.core.log ++ l.map .readied := by
  induction l generalizing s with
  | nil => exact ⟨wakes_nil MSG_RESET queue, by simp [broadcastLoop]⟩
  | cons tp rest ih =>
      have nodup := inv.queues.onC.nodup cp
      rw [queue] at nodup
      obtain ⟨inv', waiting⟩ := inv.reset_first queue
      have first : Wakes s cp [tp] rest MSG_RESET { s with
          core := (s.core.chSchReadyI tp).setMsg tp MSG_RESET
          c_queue := Function.update s.c_queue cp rest } := wakes_first inv queue waiting rfl
      obtain ⟨others, log⟩ := ih inv' (by exact Function.update_self _ _ _)
      rw [List.length_cons, broadcastLoop, queue]
      constructor
      · exact Wakes.cons nodup (by rw [List.append_nil]; exact first) others
      · rw [log]
        change (s.core.log ++ [.readied tp]) ++ _ = _
        rw [List.append_assoc]
        rfl

omit [DecidableEq T] in
theorem Wakes.kept {woken left : List T} (wakes : Wakes s cp woken left msg s')
    (queue : s''.c_queue = s'.c_queue) (kept : ∀ t, Kept s' s'' t) :
    Wakes s cp woken left msg s'' := by
  constructor
  · exact wakes.front
  · rw [queue, wakes.queue]
  · intro t mem
    rw [(kept t).waiting, (kept t).rdymsg]
    exact wakes.awake t mem
  · intro t other
    rw [(kept t).waiting, (kept t).rdymsg]
    exact wakes.others t other

end Signals

/-! ### Whole runs -/

section Runs

variable [DecidableEq M] {idle t : T} {s : Mtx T M C} {mp : M} {rest : List M}

theorem log_handOff (s : Mtx T M C) (mp : M) :
    (s.handOff mp).core.log = s.core.log ++ (s.m_queue mp).head?.toList.map .readied := by
  cases eq : s.m_queue mp with
  | nil =>
      rw [handOff_nil eq]
      simp
  | cons tp q =>
      rw [handOff_cons eq]
      rfl

/-- An unlock makes the first waiting thread ready and dispatches nobody. -/
theorem log_chMtxUnlockS (s : Mtx T M C) (mp : M) :
    (s.chMtxUnlockS mp).core.log = s.core.log ++ (s.m_queue mp).head?.toList.map .readied := by
  unfold chMtxUnlockS
  dsimp only
  split_ifs
  · exact log_handOff _ mp
  · exact log_handOff _ mp

variable [DecidableEq C]

/-- From the release of the mutex `mp` until it is on the queue of `cp` the thread that
calls `chCondWaitS` keeps the processor. -/
def Undisturbed (s : Mtx T M C) (mp : M) (cp : C) (timed : Bool) : Prop :=
  let queued := (s.chMtxUnlockS mp).queueC s.core.currp cp
  (s.chMtxUnlockS mp).m_owner mp ≠ some s.core.currp ∧
    (s.chMtxUnlockS mp).core.currp = s.core.currp ∧
    queued.core.currp = s.core.currp ∧
    queued.core.log = s.core.log ++ (s.m_queue mp).head?.toList.map .readied ∧
    s.core.currp ∈ queued.c_queue cp ∧
    (s.chCondWaitS cp timed).core = queued.core.chSchGoSleepS (.WTCOND cp) ∧
    (s.chCondWaitS cp timed).c_queue = queued.c_queue

theorem undisturbed (inv : Inv idle s) (user : s.pc s.core.currp = .user)
    (top : s.p_mtxlist s.core.currp = mp :: rest) (cp : C) (timed : Bool) :
    s.Undisturbed mp cp timed := by
  obtain ⟨inv', -, -, currp, -⟩ := inv_chMtxUnlockS inv top user
  obtain ⟨fresh, -⟩ := List.nodup_cons.mp (top ▸ inv.owners.nodup s.core.currp)
  refine ⟨?_, currp, currp, log_chMtxUnlockS s mp, ?_, ?_, ?_⟩
  · intro owner
    rw [← inv'.owners.own, held_chMtxUnlockS inv user top] at owner
    exact fresh owner
  · have here : ((s.chMtxUnlockS mp).queueC s.core.currp cp).c_queue cp =
        insertBehind (s.chMtxUnlockS mp).prio s.core.currp ((s.chMtxUnlockS mp).c_queue cp) :=
      Function.update_self _ _ _
    rw [here]
    exact mem_insertBehind.mpr (.inl rfl)
  · rw [chCondWaitS_eq top]
    rfl
  · rw [chCondWaitS_eq top]

omit [DecidableEq M] [DecidableEq C] in
theorem Inv.mem_cond (inv : Inv idle s) {c : C} :
    t ∈ s.c_queue c ↔ s.core.waiting t = some (.WTCOND c) := by
  rw [inv.queues.onC.mem_iff, condOf_eq_some]

variable [Fintype T]

/-- A thread that waits for a condition variable keeps the processor until it is on its
queue. A signal wakes the waiting thread of highest priority and a broadcast all of them.
Every thread that waits is woken once until it returns, and it returns as the owner of the
mutex it gave up, on top of its list, unless it was late: then it is on no queue. -/
theorem condition_variables (idle : T) :
    (∀ s : Mtx T M C, Reachable idle s →
      (∀ mp rest, s.pc s.core.currp = .user → s.p_mtxlist s.core.currp = mp :: rest →
        ∀ cp timed, s.Undisturbed mp cp timed) ∧
      ∀ cp, (∀ t, t ∈ s.c_queue cp ↔ s.core.waiting t = some (.WTCOND cp)) ∧
        (s.c_queue cp).Nodup ∧
        (∀ t ∈ (s.c_queue cp).head?, ∀ u ∈ s.c_queue cp, s.prio u ≤ s.prio t) ∧
        Wakes s cp ((s.c_queue cp).take 1) ((s.c_queue cp).drop 1) MSG_OK (s.chCondSignal cp) ∧
        Wakes s cp ((s.c_queue cp).take 1) ((s.c_queue cp).drop 1) MSG_OK (s.chCondSignalI cp) ∧
        Wakes s cp (s.c_queue cp) [] MSG_RESET (s.chCondBroadcastI cp) ∧
        (s.chCondBroadcastI cp).core.log = s.core.log ++ (s.c_queue cp).map .readied ∧
        Wakes s cp (s.c_queue cp) [] MSG_RESET (s.chCondBroadcast cp)) ∧
    ∀ (t : T) (cp : C) timed (mp : M) rest n msg s, CondWait idle t cp timed mp rest n msg s →
      (s.pc t ≠ .user → n = 0 ∧ t ∈ s.c_queue cp ∨ n = 1 ∧ ∀ c, t ∉ s.c_queue c) ∧
      (s.pc t = .user → n = 1 ∧
        ((msg = some MSG_OK ∨ msg = some MSG_RESET) ∧ s.m_owner mp = some t ∧
            s.p_mtxlist t = mp :: rest ∨
          msg = some MSG_TIMEOUT ∧ timed = true ∧ s.m_owner mp ≠ some t ∧ s.p_mtxlist t = rest ∧
            (∀ m, t ∉ s.m_queue m) ∧ (∀ c, t ∉ s.c_queue c) ∧ t ∉ s.core.ready)) := by
  constructor
  · intro s reachable
    have inv := reachable.inv
    constructor
    · intro mp rest user top cp timed
      exact undisturbed inv user top cp timed
    · intro cp
      obtain ⟨wakes, log⟩ := wakes_broadcastLoop inv (rfl : s.c_queue cp = s.c_queue cp)
      have inv' := inv_broadcastLoop inv cp (s.c_queue cp).length
      refine ⟨fun t => inv.mem_cond, inv.queues.onC.nodup cp, ?_, wakes_chCondSignal inv cp,
        wakes_chCondSignalI inv cp, wakes, log, wakes.kept rfl (kept_reschedule inv'.core)⟩
      intro t head u mem
      obtain ⟨others, eq⟩ := List.head?_eq_some_iff.mp head
      have sorted := inv.queues.order cp
      rw [eq] at sorted mem
      exact sorted.first mem
  · intro t cp timed mp rest n msg s run
    have inv := run.reachable.inv
    have off : s.core.waiting t = none → ∀ c, t ∉ s.c_queue c := by
      intro awake c mem
      rw [inv.mem_cond, awake] at mem
      cases mem
    constructor
    · intro inside
      cases run.phase with
      | asleep pc waits held count => exact .inl ⟨count, inv.mem_cond.mpr waits⟩
      | woken pc awake held count => exact .inr ⟨count, off awake⟩
      | blocked pc waits held count =>
          refine .inr ⟨count, ?_⟩
          intro c mem
          rw [inv.mem_cond, waits] at mem
          cases mem
      | granted pc awake held count => exact .inr ⟨count, off awake⟩
      | owner pc => exact absurd pc inside
      | late pc => exact absurd pc inside
    · intro user
      cases run.phase with
      | asleep pc => exact absurd (user.symm.trans pc) (by simp)
      | woken pc => exact absurd (user.symm.trans pc) (by simp)
      | blocked pc => exact absurd (user.symm.trans pc) (by simp)
      | granted pc => exact absurd (user.symm.trans pc) (by simp)
      | owner pc current held count read =>
          exact ⟨count, .inl ⟨read, (inv.owners.own mp t).mp (by simp [held]), held⟩⟩
      | late pc current held count read limited =>
          have awake : s.core.waiting t = none := current ▸ inv.waiting_currp
          refine ⟨count, .inr ⟨read, limited, ?_, held, ?_, off awake, ?_⟩⟩
          · intro owner
            rw [← inv.owners.own, held] at owner
            exact run.fresh owner
          · intro m mem
            rw [inv.mem_queue, awake] at mem
            cases mem
          · rw [← current]
            exact inv.core.currp_not_ready

end Runs

/-! ### An example -/

/-- Thread 1 of `sampleMtx` has the mutex and waits, so that the idle thread runs. -/
def sampleWaiting : Mtx (Fin 3) Unit Unit := (sampleMtx.chMtxLockS ()).chCondWaitS () true

/-- The idle thread signals, thread 1 runs and takes the mutex again. -/
theorem sampleWaiting_wait :
    CondWait 0 1 () true () [] 1 (some MSG_OK) ((sampleWaiting.chCondSignal ()).chMtxLockS ()) := by
  have lock : Step 0 sampleMtx (sampleMtx.chMtxLockS ()) := .lock () rfl (by decide)
  have reachable : Reachable 0 (sampleMtx.chMtxLockS ()) :=
    ⟨sampleMtx, sampleMtx_start, .single lock⟩
  have asleep : CondWait 0 1 () true () [] 0 none sampleWaiting :=
    .wait reachable rfl (by decide) rfl rfl
  have woken : CondWait 0 1 () true () [] 1 none (sampleWaiting.chCondSignal ()) :=
    .step asleep (by decide) (.condSignal () rfl)
  exact .step woken (by decide) (.relock () true rfl (.inr (by decide)))

theorem sampleWaiting_owns :
    CondWait 0 1 () true () [] 1 (some MSG_OK) ((sampleWaiting.chCondSignal ()).chMtxLockS ()) ∧
      ((sampleWaiting.chCondSignal ()).chMtxLockS ()).m_owner () = some 1 := by
  refine ⟨sampleWaiting_wait, ?_⟩
  obtain ⟨-, returns⟩ := (condition_variables 0).2 1 () true () [] 1 (some MSG_OK) _
    sampleWaiting_wait
  rcases (returns rfl).2 with ⟨-, owner, -⟩ | ⟨late, -⟩
  · exact owner
  · exact absurd late (by decide)

end Mtx

end LtcOs.Kernel
