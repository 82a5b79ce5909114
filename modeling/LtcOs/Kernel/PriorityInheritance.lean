import LtcOs.Kernel.MutexInv

/-!
Mutexes and condition variables over whole runs: the priorities that threads inherit,
who owns a mutex, and who gets it next.
-/

namespace LtcOs.Kernel

open LtcOs.Prio LtcOs.Waiting

variable {T M C : Type} [DecidableEq T]

namespace Mtx

section Step

variable {idle tp : T} {s s' : Mtx T M C} {c : Core T (Wait M C)}

/-- Only a thread that did not wait for a mutex starts or stops to wait. -/
theorem handed_of_update {w : Option (Wait M C)} (off : ∀ m, s.core.waiting tp ≠ some (.WTMTX m))
    (waiting : s'.core.waiting = Function.update s.core.waiting tp w) : Handed s s' := by
  apply handed_of_waiting
  intro t m waits
  rw [waiting, Function.update_of_ne, waits]
  rintro rfl
  exact off m waits

omit [DecidableEq T] in
theorem handed_of_eq (waiting : s'.core.waiting = s.core.waiting) : Handed s s' :=
  handed_of_waiting fun t m waits => by rw [waiting, waits]

theorem Inv.currp_off (inv : Inv idle s) (m : M) :
    s.core.waiting s.core.currp ≠ some (.WTMTX m) := by
  rw [inv.core.waiting_currp]
  simp

theorem handed_chMtxLockS [DecidableEq M] [DecidableEq C] [Fintype T] (inv : Inv idle s) (mp : M) :
    Handed s (s.chMtxLockS mp) := by
  cases owner : s.m_owner mp with
  | none =>
      rw [chMtxLockS_free owner]
      exact handed_of_eq rfl
  | some o => exact handed_of_update inv.currp_off (chMtxLockS_owned inv owner).1

theorem inv_chMtxUnlock [DecidableEq M] {mp : M} {rest : List M} (inv : Inv idle s)
    (top : s.p_mtxlist s.core.currp = mp :: rest) (user : s.pc s.core.currp = .user) :
    Inv idle (s.chMtxUnlock mp) ∧ Handed s (s.chMtxUnlock mp) ∧
      (s.chMtxUnlock mp).m_owner mp = (s.m_queue mp).head? := by
  obtain ⟨inv', handed, -, -, gave⟩ := inv_chMtxUnlockS inv top user
  unfold chMtxUnlock
  split_ifs
  · refine ⟨inv'.reschedule, ?_, gave⟩
    intro t m waits
    have waiting : (s.chMtxUnlockS mp).reschedule.core.waiting t =
        (s.chMtxUnlockS mp).core.waiting t :=
      congrFun inv'.core.waiting_chSchRescheduleS t
    rw [waiting]
    exact handed t m waits
  · exact ⟨inv', handed, gave⟩

theorem handed_broadcastLoop [DecidableEq C] (inv : Inv idle s) (cp : C) (n : Nat) :
    Handed s (broadcastLoop cp n s) := by
  apply handed_of_waiting
  induction n generalizing s with
  | zero =>
      intro t m waits
      exact waits
  | succ n ih =>
      intro t m waits
      rw [broadcastLoop]
      split
      · exact waits
      · next tp rest first =>
          have waits' := inv.waits_first first
          obtain ⟨inv', waiting⟩ := inv.reset_first first
          apply ih inv'
          change ((s.core.chSchReadyI tp).setMsg tp MSG_RESET).waiting t = _
          rw [waiting, Function.update_of_ne, waits]
          rintro rfl
          exact absurd (waits'.symm.trans waits) (by simp)

/-- A thread asleep for another reason wakes up. -/
theorem inv_wake (inv : Inv idle s) (waits : s.core.waiting tp = some .OTHER) (core : c.Inv idle)
    (prio : c.p_prio = s.core.p_prio) (waiting : c.waiting = Function.update s.core.waiting tp none) :
    Inv idle { s with core := c } ∧ Handed s { s with core := c } := by
  constructor
  · apply inv.withCore core prio
    intro t
    by_cases same : t = tp
    · right
      subst same
      refine ⟨?_, ?_, ?_⟩
      · intro m inside
        rcases inv.owners.pc_lock t m inside with h | ⟨h, -⟩
        · exact absurd (waits.symm.trans h) (by simp)
        · exact absurd (waits.symm.trans h) (by simp)
      · rw [waiting, Function.update_self]
        exact off_none
      · rw [waits]
        exact off_other
    · left
      rw [waiting, Function.update_of_ne same]
  · exact handed_of_update (by simp [waits]) waiting

/-- The current thread changes, or not. -/
theorem inv_switch (inv : Inv idle s) (core : c.Inv idle) (prio : c.p_prio = s.core.p_prio)
    (waiting : c.waiting = s.core.waiting) :
    Inv idle { s with core := c } ∧ Handed s { s with core := c } :=
  ⟨inv.withCore core prio fun t => .inl (congrFun waiting t), handed_of_eq waiting⟩

theorem Inv.pos_currp (inv : Inv idle s) : NOPRIO < s.core.p_prio s.core.currp :=
  lt_of_lt_of_le (inv.pos _) (inv.real _)

/-- A thread returns from a call. -/
theorem inv_return (inv : Inv idle s) :
    Inv idle { s with pc := Function.update s.pc s.core.currp .user } ∧
      Handed s { s with pc := Function.update s.pc s.core.currp .user } :=
  ⟨inv.setPc inv.currp_off (by simp) fun _ => rfl, handed_of_eq rfl⟩

variable [DecidableEq M] [DecidableEq C] [Fintype T]

theorem inv_step (inv : Inv idle s) (step : Step idle s s') : Inv idle s' ∧ Handed s s' := by
  cases step with
  | lock mp user other => exact ⟨inv_chMtxLockS inv other mp, handed_chMtxLockS inv mp⟩
  | tryLock mp user =>
      refine ⟨inv_chMtxTryLockS inv user mp, handed_of_eq ?_⟩
      unfold chMtxTryLockS
      dsimp only
      split
      · rfl
      · rfl
  | unlock mp rest user top =>
      obtain ⟨inv', handed, -⟩ := inv_chMtxUnlock inv top user
      exact ⟨inv', handed⟩
  | unlockS mp rest user top =>
      obtain ⟨inv', handed, -⟩ := inv_chMtxUnlockS inv top user
      exact ⟨inv', handed⟩
  | unlockAll user =>
      obtain ⟨inv', handed, -⟩ := inv_chMtxUnlockAll inv user
      exact ⟨inv', handed⟩
  | condWait cp timed user other owns =>
      obtain ⟨mp, rest, top⟩ := List.exists_cons_of_ne_nil owns
      obtain ⟨inv', handed, -⟩ := inv_chCondWaitS inv user other top cp timed
      exact ⟨inv', handed⟩
  | condSignal cp user =>
      refine ⟨inv_chCondSignal inv cp, ?_⟩
      unfold chCondSignal
      split
      · exact handed_of_eq rfl
      · next tp rest first =>
          exact handed_of_update (by simp [inv.waits_first first])
            (inv.core.waiting_chSchWakeupS tp MSG_OK)
  | condSignalI cp user =>
      refine ⟨inv_chCondSignalI inv cp, ?_⟩
      unfold chCondSignalI
      split
      · exact handed_of_eq rfl
      · next tp rest first =>
          have waiting : ((s.core.setMsg tp MSG_OK).chSchReadyI tp).waiting =
              Function.update s.core.waiting tp none := by
            rw [Core.waiting_chSchReadyI, Core.waiting_setMsg]
          exact handed_of_update (by simp [inv.waits_first first]) waiting
  | condBroadcast cp user =>
      have inv' := inv_broadcastLoop inv cp (s.c_queue cp).length
      refine ⟨inv'.reschedule, ?_⟩
      intro t m waits
      have waiting : (s.chCondBroadcastI cp).reschedule.core.waiting t =
          (s.chCondBroadcastI cp).core.waiting t :=
        congrFun inv'.core.waiting_chSchRescheduleS t
      rw [chCondBroadcast, waiting]
      exact handed_broadcastLoop inv cp _ t m waits
  | condBroadcastI cp user =>
      exact ⟨inv_broadcastLoop inv cp _, handed_broadcastLoop inv cp _⟩
  | timeout tp cp mp user waits timed =>
      have waiting : (s.timeout tp cp).core.waiting = Function.update s.core.waiting tp none :=
        Core.waiting_chSchReadyI _ _
      exact ⟨inv_timeout inv waits, handed_of_update (by simp [waits]) waiting⟩
  | sleep user other =>
      have waiting := inv.core.waiting_chSchGoSleepS .OTHER
      constructor
      · apply inv.withCore (inv.core.chSchGoSleepS other _) (Core.chSchGoSleepS_p_prio _ _)
        intro t
        rw [waiting]
        by_cases same : t = s.core.currp
        · right
          subst same
          rw [Function.update_self, inv.core.waiting_currp, user]
          exact ⟨by simp, off_other, off_none⟩
        · left
          rw [Function.update_of_ne same]
      · exact handed_of_update inv.currp_off waiting
  | ready tp msg user waits =>
      apply inv_wake inv waits
      · exact (inv.core.setMsg tp msg).chSchReadyI (by simp [waits])
      · rfl
      · rw [Core.waiting_chSchReadyI, Core.waiting_setMsg]
  | wakeup tp msg user waits =>
      apply inv_wake inv waits
      · exact inv.core.chSchWakeupS (by simp [waits]) msg
      · exact Core.chSchWakeupS_p_prio _ _ _
      · exact inv.core.waiting_chSchWakeupS tp msg
  | reschedule user =>
      exact inv_switch inv inv.core.chSchRescheduleS (Core.chSchRescheduleS_p_prio _)
        inv.core.waiting_chSchRescheduleS
  | yield user =>
      exact inv_switch inv (inv.core.chSchDoYieldS inv.pos_currp) (Core.chSchDoYieldS_p_prio _)
        inv.core.waiting_chSchDoYieldS
  | tick user =>
      exact inv_switch inv inv.core.tick (Core.tick_p_prio _) (Core.waiting_tick _)
  | epilogue user =>
      exact inv_switch inv (inv.core.epilogue inv.pos_currp)
        (Core.epilogue_p_prio _) inv.core.waiting_epilogue
  | locked mp inside => exact inv_return inv
  | relock mp timed inside signalled =>
      have other : s.core.currp ≠ idle := by
        intro eq
        rw [eq, inv.owners.pc_idle] at inside
        cases inside
      exact ⟨inv_chMtxLockS inv other mp, handed_chMtxLockS inv mp⟩
  | timedOut mp inside late => exact inv_return inv

omit [DecidableEq M] [DecidableEq C] [Fintype T] in
theorem Start.inv (start : Start idle s) : Inv idle s := by
  have off : ∀ t, Off (s.core.waiting t) := by
    intro t
    rcases start.asleep t with h | h
    · rw [h]
      exact off_none
    · rw [h]
      exact off_other
  have none : ∀ t m, s.core.waiting t ≠ some (.WTMTX m) := by
    intro t m h
    rw [← mtxOf_eq_some, (off t).1] at h
    cases h
  constructor
  · refine ⟨start.core, ?_, ?_, fun t => (start.prio t).ge, start.pos⟩
    · refine ⟨⟨?_, ?_⟩, ⟨?_, ?_⟩, ?_, ?_, ?_⟩
      · intro m t
        simp [start.queue, (off t).1]
      · simp [start.queue]
      · intro c t
        simp [start.cond, (off t).2]
      · simp [start.cond]
      · simp [start.queue, Served]
      · simp [start.cond, Descending]
      · simp [start.queue]
    · refine ⟨?_, ?_, ?_, start.pc idle, ?_, ?_⟩
      · simp [start.owner, start.mtxlist]
      · simp [start.mtxlist]
      · intro m t h
        exact absurd h (none t m)
      · intro t m h
        exact absurd h (none t m)
      · simp [start.pc]
  · intro t
    exact ⟨fun u ⟨m, owner, _⟩ => absurd owner (by simp [start.owner]), .inl (start.prio t)⟩

theorem Reachable.inv (reachable : Reachable idle s) : Inv idle s := by
  obtain ⟨s₀, start, run⟩ := reachable
  induction run with
  | refl => exact start.inv
  | tail _ step ih => exact (inv_step ih step).1

/-- In every state of a run the priority of a thread is the highest of its own and of
those that wait for a mutex it owns, and the queues are in the order of priorities. -/
theorem priority_inheritance (reachable : Reachable idle s) :
    (∀ t, IsGreatest (insert (s.realprio t)
        {p | ∃ m u, s.m_owner m = some t ∧ u ∈ s.m_queue m ∧ s.prio u = p}) (s.prio t)) ∧
      (∀ m, Descending s.prio (s.m_queue m)) ∧
      (∀ c, Descending s.prio (s.c_queue c)) ∧
      Descending s.prio s.core.ready := by
  have inv := reachable.inv
  refine ⟨?_, fun m => (inv.queues.served m).descending, inv.queues.order, inv.core.sorted⟩
  intro t
  constructor
  · rcases (inv.inherits t).tight with h | ⟨u, ⟨m, owner, waits⟩, eq⟩
    · exact .inl h
    · exact .inr ⟨m, u, owner, inv.mem_queue.mpr waits, eq⟩
  · rintro p (rfl | ⟨m, u, owner, mem, rfl⟩)
    · exact inv.real t
    · exact (inv.inherits t).bound u ⟨m, owner, inv.mem_queue.mp mem⟩

end Step

/-! ### An example -/

/-- The idle thread 0 is ready, thread 1 runs, and thread 2 sleeps; the priorities are
1, 2 and 3. -/
def sampleMtx : Mtx (Fin 3) Unit Unit where
  core := {
    p_prio := fun t => t + 1
    p_state := fun | 0 => .READY | 1 => .CURRENT | 2 => .WAIT .OTHER
    p_preempt := fun _ => 20
    rdymsg := fun _ => 0
    ready := [0]
    currp := 1
    log := [] }
  realprio := fun t => t + 1
  m_owner := fun _ => none
  m_queue := fun _ => []
  p_mtxlist := fun _ => []
  c_queue := fun _ => []
  pc := fun _ => .user
  stamp := fun _ => 0
  clock := 0

/-- Thread 1 has the mutex, then thread 2 wakes up and runs. -/
def sampleOwned : Mtx (Fin 3) Unit Unit :=
  { sampleMtx.chMtxLockS () with core := (sampleMtx.chMtxLockS ()).core.chSchWakeupS 2 MSG_OK }

theorem sampleMtx_start : Start 0 sampleMtx := by
  refine ⟨⟨?_, ?_, ?_, ?_, rfl⟩, ?_, ?_, ?_, ?_, ?_, ?_, ?_, ?_⟩
  · exact List.pairwise_singleton _ _
  · exact List.nodup_singleton _
  all_goals decide

theorem sampleOwned_reachable : Reachable 0 sampleOwned := by
  have lock : Step 0 sampleMtx (sampleMtx.chMtxLockS ()) := .lock () rfl (by decide)
  have wakeup : Step 0 (sampleMtx.chMtxLockS ()) sampleOwned := .wakeup 2 MSG_OK rfl rfl
  exact ⟨sampleMtx, sampleMtx_start, (Relation.ReflTransGen.single lock).tail wakeup⟩

theorem sampleOwned_priority_inheritance :
    Reachable 0 (sampleOwned.chMtxLockS ()) ∧
      (sampleOwned.chMtxLockS ()).realprio 1 ≤ (sampleOwned.chMtxLockS ()).prio 1 ∧
      Descending (sampleOwned.chMtxLockS ()).prio ((sampleOwned.chMtxLockS ()).m_queue ()) := by
  obtain ⟨start, first, run⟩ := sampleOwned_reachable
  have reachable : Reachable 0 (sampleOwned.chMtxLockS ()) :=
    ⟨start, first, run.tail (.lock () rfl (by decide))⟩
  obtain ⟨greatest, order, -⟩ := priority_inheritance reachable
  exact ⟨reachable, (greatest 1).2 (.inl rfl), order ()⟩

end Mtx

end LtcOs.Kernel
