import LtcOs.Kernel.PriorityInheritance

/-!
`chThdSetPriority` (`chthreads.c`) in the presence of mutexes.

The function takes a thread for boosted when its priority is not its own one, and then
keeps what was lent to it. A thread with its own priority may still have threads of the
same or a lower priority waiting for its mutexes; what they lend is lost when the new
priority is below theirs.
-/

namespace LtcOs.Kernel

variable {T M C : Type}

def LOWPRIO : Nat := 2

def HIGHPRIO : Nat := 127

namespace Mtx

/-- The priority of a thread is the highest of its own and those of the threads that wait
for its mutexes. -/
def Inherited (s : Mtx T M C) (t : T) : Prop :=
  IsGreatest (insert (s.realprio t) {p | ∃ u, s.Lends u t ∧ s.prio u = p}) (s.prio t)

section Code

variable [DecidableEq T]

/-- `chThdSetPriority` up to its call of `chSchRescheduleS`. -/
def setPriority (s : Mtx T M C) (newprio : Nat) : Mtx T M C :=
  let ctp := s.core.currp
  let s := if s.prio ctp = s.realprio ctp ∨ s.prio ctp < newprio then s.setPrio ctp newprio else s
  { s with realprio := Function.update s.realprio ctp newprio }

/-- The old priority is returned. -/
def chThdSetPriority (s : Mtx T M C) (newprio : Nat) : Nat × Mtx T M C :=
  (s.realprio s.core.currp, (s.setPriority newprio).reschedule)

end Code

section Inherited

variable {s : Mtx T M C} {t u : T} {newprio : Nat}

theorem Inherited.real_le (inherited : s.Inherited t) : s.realprio t ≤ s.prio t :=
  inherited.2 (.inl rfl)

theorem Inherited.lent_le (inherited : s.Inherited t) (lends : s.Lends u t) :
    s.prio u ≤ s.prio t :=
  inherited.2 (.inr ⟨u, lends, rfl⟩)

/-- Only the priorities of the thread and of those that wait for it matter. -/
theorem Inherited.congr {s' : Mtx T M C} (inherited : s.Inherited t)
    (lends : ∀ u, s'.Lends u t ↔ s.Lends u t) (real : s'.realprio t = s.realprio t)
    (prio : s'.prio t = s.prio t) (lent : ∀ u, s.Lends u t → s'.prio u = s.prio u) :
    s'.Inherited t := by
  have same : {p | ∃ u, s'.Lends u t ∧ s'.prio u = p} = {p | ∃ u, s.Lends u t ∧ s.prio u = p} := by
    ext p
    constructor
    · rintro ⟨u, h, rfl⟩
      exact ⟨u, (lends u).mp h, (lent u ((lends u).mp h)).symm⟩
    · rintro ⟨u, h, rfl⟩
      exact ⟨u, (lends u).mpr h, lent u h⟩
  unfold Inherited
  rw [real, prio, same]
  exact inherited

variable [DecidableEq T]

@[simp] theorem setPriority_realprio :
    (s.setPriority newprio).realprio = Function.update s.realprio s.core.currp newprio := by
  unfold setPriority
  dsimp only
  split_ifs <;> rfl

theorem setPriority_prio :
    (s.setPriority newprio).prio = Function.update s.prio s.core.currp
      (if s.prio s.core.currp = s.realprio s.core.currp ∨ s.prio s.core.currp < newprio then newprio
        else s.prio s.core.currp) := by
  unfold setPriority
  dsimp only
  split_ifs
  · rfl
  · exact (Function.update_eq_self _ _).symm

@[simp] theorem setPriority_lends : (s.setPriority newprio).Lends u t ↔ s.Lends u t := by
  unfold setPriority
  dsimp only
  split_ifs <;> rfl

omit [DecidableEq T] in
/-- The thread that runs lends to nobody. -/
theorem Lends.ne_running (running : s.core.p_state s.core.currp = .CURRENT)
    (lends : s.Lends u t) : u ≠ s.core.currp := by
  rintro rfl
  obtain ⟨m, -, waits⟩ := lends
  rw [Core.waiting_eq_some, running] at waits
  cases waits

/-- The other threads are not concerned. -/
theorem Inherited.setPriority (inherited : s.Inherited t)
    (running : s.core.p_state s.core.currp = .CURRENT) (other : t ≠ s.core.currp) :
    (s.setPriority newprio).Inherited t := by
  apply inherited.congr
  · intro u
    exact setPriority_lends
  · rw [setPriority_realprio, Function.update_of_ne other]
  · rw [setPriority_prio, Function.update_of_ne other]
  · intro u lends
    rw [setPriority_prio, Function.update_of_ne (lends.ne_running running)]

/-- For the thread that runs the new priorities have to cover what is lent to it. -/
theorem inherited_setPriority_iff (running : s.core.p_state s.core.currp = .CURRENT) {p : Nat}
    (prio : (s.setPriority newprio).prio s.core.currp = p) :
    (s.setPriority newprio).Inherited s.core.currp ↔
      newprio ≤ p ∧ (∀ u, s.Lends u s.core.currp → s.prio u ≤ p) ∧
        (p = newprio ∨ ∃ u, s.Lends u s.core.currp ∧ s.prio u = p) := by
  have lent : ∀ u, s.Lends u s.core.currp → (s.setPriority newprio).prio u = s.prio u := by
    intro u lends
    rw [setPriority_prio, Function.update_of_ne (lends.ne_running running)]
  unfold Inherited
  rw [setPriority_realprio, Function.update_self, prio]
  constructor
  · rintro ⟨mem, bound⟩
    refine ⟨bound (.inl rfl), ?_, ?_⟩
    · intro u lends
      exact bound (.inr ⟨u, setPriority_lends.mpr lends, lent u lends⟩)
    · rcases mem with h | ⟨u, lends, eq⟩
      · exact .inl h
      · have lends := setPriority_lends.mp lends
        exact .inr ⟨u, lends, (lent u lends).symm.trans eq⟩
  · rintro ⟨real, bound, tight⟩
    constructor
    · rcases tight with h | ⟨u, lends, eq⟩
      · exact .inl h
      · exact .inr ⟨u, setPriority_lends.mpr lends, (lent u lends).trans eq⟩
    · rintro q (rfl | ⟨u, lends, rfl⟩)
      · exact real
      · have lends := setPriority_lends.mp lends
        rw [lent u lends]
        exact bound u lends

/-- With its own priority, the thread gets the new one. -/
theorem inherited_of_own (running : s.core.p_state s.core.currp = .CURRENT)
    (own : s.prio s.core.currp = s.realprio s.core.currp) :
    (s.setPriority newprio).Inherited s.core.currp ↔
      ∀ u, s.Lends u s.core.currp → s.prio u ≤ newprio := by
  have prio : (s.setPriority newprio).prio s.core.currp = newprio := by
    rw [setPriority_prio, Function.update_self, if_pos (.inl own)]
  rw [inherited_setPriority_iff running prio]
  simp

/-- With a priority lent to it, the thread gets the higher of that and the new one. -/
theorem inherited_of_boosted (inherited : s.Inherited s.core.currp)
    (running : s.core.p_state s.core.currp = .CURRENT)
    (boosted : s.realprio s.core.currp < s.prio s.core.currp) :
    (s.setPriority newprio).Inherited s.core.currp := by
  obtain ⟨u, lends, eq⟩ : ∃ u, s.Lends u s.core.currp ∧ s.prio u = s.prio s.core.currp := by
    rcases inherited.1 with h | h
    · exact absurd h boosted.ne'
    · exact h
  rcases lt_or_ge (s.prio s.core.currp) newprio with lt | ge
  · have prio : (s.setPriority newprio).prio s.core.currp = newprio := by
      rw [setPriority_prio, Function.update_self, if_pos (.inr lt)]
    rw [inherited_setPriority_iff running prio]
    exact ⟨le_rfl, fun v h => (inherited.lent_le h).trans lt.le, .inl rfl⟩
  · have prio : (s.setPriority newprio).prio s.core.currp = s.prio s.core.currp := by
      rw [setPriority_prio, Function.update_self, if_neg]
      rintro (h | h)
      · exact boosted.ne' h
      · exact ge.not_gt h
    rw [inherited_setPriority_iff running prio]
    exact ⟨ge, fun v h => inherited.lent_le h, .inr ⟨u, lends, eq⟩⟩

/-- From a state where all priorities are inherited as they should be, the new one of the
running thread is set so, too, exactly when the thread has a higher priority lent to it
or nobody that waits for it is above the new one. -/
theorem set_priority_inherits_iff (inherited : ∀ t, s.Inherited t)
    (running : s.core.p_state s.core.currp = .CURRENT) (newprio : Nat) :
    ((s.setPriority newprio).realprio s.core.currp = newprio ∧
        ∀ t, (s.setPriority newprio).Inherited t) ↔
      s.realprio s.core.currp < s.prio s.core.currp ∨
        ∀ u, s.Lends u s.core.currp → s.prio u ≤ newprio := by
  have real : (s.setPriority newprio).realprio s.core.currp = newprio := by
    rw [setPriority_realprio, Function.update_self]
  have others : (∀ t, (s.setPriority newprio).Inherited t) ↔
      (s.setPriority newprio).Inherited s.core.currp := by
    constructor
    · intro h
      exact h s.core.currp
    · intro h t
      by_cases same : t = s.core.currp
      · rw [same]
        exact h
      · exact (inherited t).setPriority running same
  rw [others]
  rcases (inherited s.core.currp).real_le.lt_or_eq with boosted | own
  · simp [real, boosted, inherited_of_boosted (inherited s.core.currp) running boosted]
  · rw [inherited_of_own running own.symm]
    simp [real, own]

end Inherited

/-- Every state of a run of the mutexes is one of these. -/
theorem Reachable.inherited [DecidableEq T] [DecidableEq M] [DecidableEq C] [Fintype T] {idle : T}
    {s : Mtx T M C} (reachable : Reachable idle s) :
    (∀ t, s.Inherited t) ∧ s.core.p_state s.core.currp = .CURRENT := by
  have inv := reachable.inv
  refine ⟨?_, (inv.core.current _).mpr rfl⟩
  intro t
  constructor
  · exact (inv.inherits t).tight
  · rintro p (rfl | ⟨u, lends, rfl⟩)
    · exact inv.real t
    · exact (inv.inherits t).bound u lends

/-- Thread 1 runs with its own priority 5 and has the mutex that thread 2 of priority 3
waits for; the idle thread 0 is ready. -/
def sampleOwner : Mtx (Fin 3) Unit Unit where
  core := {
    p_prio := ![1, 5, 3]
    p_state := ![.READY, .CURRENT, .WAIT (.WTMTX ())]
    p_preempt := fun _ => 20
    rdymsg := fun _ => 0
    ready := [0]
    currp := 1
    log := [] }
  realprio := ![1, 5, 3]
  m_owner := fun _ => some 1
  m_queue := fun _ => [2]
  p_mtxlist := ![[], [()], []]
  c_queue := fun _ => []
  pc := ![.user, .user, .locking ()]
  stamp := fun _ => 0
  clock := 1

theorem sampleOwner_lends {u t : Fin 3} : sampleOwner.Lends u t ↔ u = 2 ∧ t = 1 := by
  have waits : ∀ u, sampleOwner.core.waiting u = some (.WTMTX ()) ↔ u = 2 := by decide
  constructor
  · rintro ⟨m, owner, h⟩
    exact ⟨(waits u).mp h, (Option.some.inj owner).symm⟩
  · rintro ⟨rfl, rfl⟩
    exact ⟨(), rfl, rfl⟩

theorem sampleOwner_inherited (t : Fin 3) : sampleOwner.Inherited t := by
  constructor
  · exact .inl rfl
  · rintro p (rfl | ⟨u, lends, rfl⟩)
    · exact le_rfl
    · obtain ⟨rfl, rfl⟩ := sampleOwner_lends.mp lends
      decide

theorem sampleOwner_keeps :
    (∀ t, sampleOwner.Inherited t) ∧ ∀ t, (sampleOwner.setPriority 4).Inherited t := by
  refine ⟨sampleOwner_inherited, ?_⟩
  apply ((set_priority_inherits_iff sampleOwner_inherited rfl 4).mpr (.inr ?_)).2
  intro u lends
  obtain ⟨rfl, -⟩ := sampleOwner_lends.mp lends
  decide

/-- A new priority below that of the waiting thread. -/
theorem sampleOwner_loses :
    (∀ t, sampleOwner.Inherited t) ∧
      sampleOwner.core.p_state sampleOwner.core.currp = .CURRENT ∧
      LOWPRIO ≤ 2 ∧ 2 ≤ HIGHPRIO ∧
      ¬ (sampleOwner.setPriority 2).Inherited 1 := by
  refine ⟨sampleOwner_inherited, rfl, by decide, by decide, ?_⟩
  intro inherited
  have lent := inherited.lent_le (setPriority_lends.mpr (sampleOwner_lends.mpr ⟨rfl, rfl⟩))
  exact absurd lent (by decide)

end Mtx

end LtcOs.Kernel
