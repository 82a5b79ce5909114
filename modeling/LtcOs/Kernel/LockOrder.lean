import LtcOs.Kernel.PriorityInheritance
import LtcOs.Lib.WaitFor

/-!
Mutexes that are locked in an order.

The kernel lets threads block each other for good. It does not if the mutexes are ranked and a
call leaves its caller waiting for a mutex only above those it owns: then no circle of threads
wait for each other, and whoever a thread is waiting for in the end has inherited its priority
and does not wait for a mutex itself.
-/

namespace LtcOs.Kernel

open LtcOs.Prio LtcOs.Waiting

variable {T M C : Type} [DecidableEq T]

namespace Mtx

/-- A call leaves its caller waiting for a mutex, or asleep with a mutex to be locked again, only
above the mutexes that it owns then. -/
def Climbs (rank : M → Nat) (s s' : Mtx T M C) : Prop :=
  s.pc s.core.currp = .user → ∀ m m',
    s'.core.waiting s.core.currp = some (.WTMTX m) ∨
      (∃ timed, s'.pc s.core.currp = .relock m timed) →
    s'.m_owner m' = some s.core.currp → rank m' < rank m

/-- What a step of the thread `ctp` does to the others: they go on waiting, or are woken, and get
a mutex only when they have waited for one. -/
structure Keeps (ctp : T) (s s' : Mtx T M C) : Prop where
  pc : ∀ t, t ≠ ctp → s'.pc t = s.pc t
  awake : ∀ t, t ≠ ctp → s.core.waiting t = none → s'.core.waiting t = none
  waits : ∀ t m, t ≠ ctp → s'.core.waiting t = some (.WTMTX m) → s.core.waiting t = some (.WTMTX m)
  owner : ∀ t m, t ≠ ctp → s'.m_owner m = some t → s.m_owner m = some t ∨
    (∃ m', s.core.waiting t = some (.WTMTX m')) ∧ s'.core.waiting t = none

variable {idle ctp tp : T} {s s' s'' : Mtx T M C} {mp : M} {cp : C}

omit [DecidableEq T] in
theorem Keeps.trans (first : Keeps ctp s s') (second : Keeps ctp s' s'') : Keeps ctp s s'' := by
  refine ⟨fun t other => (second.pc t other).trans (first.pc t other),
    fun t other h => second.awake t other (first.awake t other h),
    fun t m other h => first.waits t m other (second.waits t m other h), ?_⟩
  intro t m other own
  rcases second.owner t m other own with own | ⟨⟨m', waits⟩, woken⟩
  · rcases first.owner t m other own with own | ⟨waited, woken⟩
    · exact .inl own
    · exact .inr ⟨waited, second.awake t other woken⟩
  · exact .inr ⟨⟨m', first.waits t m' other waits⟩, woken⟩

omit [DecidableEq T] in
/-- The owners stay the same, and only the running thread falls asleep. -/
theorem keeps_of_owner (pc : ∀ t, t ≠ ctp → s'.pc t = s.pc t) (owner : s'.m_owner = s.m_owner)
    (waiting : ∀ t, t ≠ ctp →
      s'.core.waiting t = s.core.waiting t ∨ s'.core.waiting t = none) :
    Keeps ctp s s' := by
  refine ⟨pc, fun t other h => ?_, fun t m other h => ?_, fun t m _ own => .inl (owner ▸ own)⟩
  · rcases waiting t other with same | woken
    · exact same.trans h
    · exact woken
  · rcases waiting t other with same | woken
    · exact same.symm.trans h
    · exact absurd (woken.symm.trans h) (by simp)

omit [DecidableEq T] in
theorem keeps_same (pc : s'.pc = s.pc) (owner : s'.m_owner = s.m_owner)
    (waiting : s'.core.waiting = s.core.waiting) : Keeps ctp s s' :=
  keeps_of_owner (fun t _ => congrFun pc t) owner fun t _ => .inl (congrFun waiting t)

/-- A thread is woken. -/
theorem keeps_wake (pc : s'.pc = s.pc) (owner : s'.m_owner = s.m_owner)
    (waiting : s'.core.waiting = Function.update s.core.waiting tp none) : Keeps ctp s s' := by
  refine keeps_of_owner (fun t _ => congrFun pc t) owner fun t _ => ?_
  rw [waiting]
  by_cases same : t = tp
  · rw [same, Function.update_self]
    exact .inr rfl
  · rw [Function.update_of_ne same]
    exact .inl rfl

/-- The running thread falls asleep. -/
theorem keeps_sleep {w : Option (Wait M C)} {p : Pc M} (pc : s'.pc = Function.update s.pc ctp p)
    (owner : s'.m_owner = s.m_owner)
    (waiting : s'.core.waiting = Function.update s.core.waiting ctp w) : Keeps ctp s s' := by
  refine keeps_of_owner (fun t other => ?_) owner fun t other => .inl ?_
  · rw [pc, Function.update_of_ne other]
  · rw [waiting, Function.update_of_ne other]

/-! ### Locking and unlocking -/

section Locks

variable [DecidableEq M]

theorem keeps_handOff (queued : ∀ t ∈ s.m_queue mp, s.core.waiting t = some (.WTMTX mp)) :
    Keeps ctp s (s.handOff mp) := by
  cases eq : s.m_queue mp with
  | nil =>
      rw [handOff_nil eq]
      refine ⟨fun _ _ => rfl, fun _ _ h => h, fun _ _ _ h => h, fun t m _ own => .inl ?_⟩
      change Function.update s.m_owner mp none m = some t at own
      by_cases same : m = mp
      · rw [same, Function.update_self] at own
        cases own
      · rwa [Function.update_of_ne same] at own
  | cons tp rest =>
      have waits := queued tp (by rw [eq]; exact List.mem_cons_self)
      rw [handOff_cons eq]
      have waiting : ∀ t, (s.core.chSchReadyI tp).waiting t =
          Function.update s.core.waiting tp none t := congrFun (Core.waiting_chSchReadyI _ _)
      refine ⟨fun _ _ => rfl, fun t _ h => ?_, fun t m _ h => ?_, fun t m _ own => ?_⟩
      · change (s.core.chSchReadyI tp).waiting t = none
        rw [waiting, Function.update_apply]
        split
        · rfl
        · exact h
      · change (s.core.chSchReadyI tp).waiting t = _ at h
        rw [waiting, Function.update_apply] at h
        split at h
        · cases h
        · exact h
      · change Function.update s.m_owner mp (some tp) m = some t at own
        by_cases same : m = mp
        · rw [same, Function.update_self] at own
          obtain rfl : tp = t := Option.some.inj own
          refine .inr ⟨⟨mp, waits⟩, ?_⟩
          exact (waiting tp).trans (Function.update_self _ _ _)
        · rw [Function.update_of_ne same] at own
          exact .inl own

theorem keeps_chMtxUnlockS (wf : Wf idle s) (mp : M) :
    Keeps ctp s (s.chMtxUnlockS mp) := by
  have queued : ∀ t ∈ s.m_queue mp, s.core.waiting t = some (.WTMTX mp) :=
    fun t mem => wf.mem_queue.mp mem
  unfold chMtxUnlockS
  dsimp only
  split
  · have set : Keeps ctp s ((s.pop s.core.currp).setPrio s.core.currp
        ((s.pop s.core.currp).newprio s.core.currp ((s.pop s.core.currp).p_mtxlist s.core.currp))) :=
      keeps_same rfl rfl rfl
    exact set.trans (keeps_handOff queued)
  · have popped : Keeps ctp s (s.pop s.core.currp) := keeps_same rfl rfl rfl
    exact popped.trans (keeps_handOff queued)

theorem keeps_unlockLoop (wf : Wf idle s) (user : s.pc s.core.currp = .user) (rounds : Nat) :
    Keeps s.core.currp s (unlockLoop s.core.currp rounds s) := by
  induction rounds generalizing s with
  | zero => exact keeps_same rfl rfl rfl
  | succ rounds ih =>
      unfold unlockLoop
      cases top : s.p_mtxlist s.core.currp with
      | nil => exact keeps_same rfl rfl rfl
      | cons mp rest =>
          obtain ⟨wf', released⟩ := wf.release top user
          have popped : Keeps s.core.currp s (s.pop s.core.currp) := keeps_same rfl rfl rfl
          have handed : Keeps s.core.currp s ((s.pop s.core.currp).handOff mp) :=
            popped.trans (keeps_handOff fun t mem => wf.mem_queue.mp mem)
          have rest := ih wf' (by rw [released.pc, released.currp]; exact user)
          rw [released.currp] at rest
          exact handed.trans rest

omit [DecidableEq M] in
theorem keeps_reschedule (core : s'.core.Inv idle) (keeps : Keeps ctp s s') :
    Keeps ctp s s'.reschedule :=
  keeps.trans (keeps_same rfl rfl core.waiting_chSchRescheduleS)

theorem keeps_chMtxUnlock (inv : Inv idle s) {rest : List M}
    (top : s.p_mtxlist s.core.currp = mp :: rest) (user : s.pc s.core.currp = .user) :
    Keeps s.core.currp s (s.chMtxUnlock mp) := by
  have unlocked : Keeps s.core.currp s (s.chMtxUnlockS mp) := keeps_chMtxUnlockS inv.toWf mp
  unfold chMtxUnlock
  split
  · exact keeps_reschedule (inv_chMtxUnlockS inv top user).1.core unlocked
  · exact unlocked

theorem keeps_chMtxUnlockAll (inv : Inv idle s) (user : s.pc s.core.currp = .user) :
    Keeps s.core.currp s s.chMtxUnlockAll := by
  unfold chMtxUnlockAll
  dsimp only
  split
  · have loop := keeps_unlockLoop inv.toWf user (s.p_mtxlist s.core.currp).length
    obtain ⟨unlocked, -⟩ := unlocked_unlockLoop inv.toWf (fun t _ => inv.inherits t) user rfl
    generalize unlockLoop s.core.currp (s.p_mtxlist s.core.currp).length s = s₁ at loop unlocked ⊢
    have off := unlocked.wf.core.currp_not_ready
    rw [unlocked.currp] at off
    have set : Keeps s.core.currp s₁ (s₁.setPrio s.core.currp (s₁.realprio s.core.currp)) :=
      keeps_same rfl rfl rfl
    exact keeps_reschedule (unlocked.wf.core.setPrio off _) (loop.trans set)
  · exact keeps_same rfl rfl rfl

omit [DecidableEq T] in
/-- A mutex that the running thread takes becomes no one else's. -/
theorem owner_of_update {mp m : M} {t : T} (differs : t ≠ s.core.currp)
    (own : Function.update s.m_owner mp (some s.core.currp) m = some t) :
    s.m_owner m = some t := by
  by_cases same : m = mp
  · rw [same, Function.update_self] at own
    exact absurd (Option.some.inj own).symm differs
  · rwa [Function.update_of_ne same] at own

theorem keeps_chMtxLockS [DecidableEq C] [Fintype T] (inv : Inv idle s)
    (other : s.core.currp ≠ idle) (mp : M) : Keeps s.core.currp s (s.chMtxLockS mp) := by
  cases owned : s.m_owner mp with
  | none =>
      rw [chMtxLockS_free owned]
      exact ⟨fun t differs => Function.update_of_ne differs _ _, fun _ _ h => h, fun _ _ _ h => h,
        fun _ _ differs own => .inl (owner_of_update differs own)⟩
  | some o =>
      obtain ⟨waiting, pc, held, -⟩ := chMtxLockS_owned inv owned
      have owner : (s.chMtxLockS mp).m_owner = s.m_owner := by
        funext m
        refine Option.ext fun t => ?_
        have after := (inv_chMtxLockS inv other mp).owners.own m t
        rw [held] at after
        exact after.symm.trans (inv.owners.own m t)
      exact keeps_sleep pc owner waiting

theorem keeps_chMtxTryLockS (mp : M) : Keeps s.core.currp s (s.chMtxTryLockS mp).2 := by
  unfold chMtxTryLockS
  dsimp only
  split
  · exact keeps_same rfl rfl rfl
  · exact ⟨fun _ _ => rfl, fun _ _ h => h, fun _ _ _ h => h,
      fun _ _ differs own => .inl (owner_of_update differs own)⟩

end Locks

/-! ### Condition variables and the rest -/

section Conds

variable [DecidableEq C]

theorem keeps_broadcastLoop (inv : Inv idle s) (cp : C) (rounds : Nat) :
    Keeps ctp s (broadcastLoop cp rounds s) := by
  induction rounds generalizing s with
  | zero => exact keeps_same rfl rfl rfl
  | succ rounds ih =>
      unfold broadcastLoop
      cases first : s.c_queue cp with
      | nil => exact keeps_same rfl rfl rfl
      | cons tp rest =>
          obtain ⟨inv', waiting⟩ := inv.reset_first first
          have woken : Keeps ctp s { s with
              c_queue := Function.update s.c_queue cp rest
              core := (s.core.chSchReadyI tp).setMsg tp MSG_RESET } := keeps_wake rfl rfl waiting
          exact woken.trans (ih inv')

theorem keeps_chCondWaitS [DecidableEq M] (inv : Inv idle s) (user : s.pc s.core.currp = .user)
    {rest : List M} (top : s.p_mtxlist s.core.currp = mp :: rest) (cp : C) (timed : Bool) :
    Keeps s.core.currp s (s.chCondWaitS cp timed) := by
  have unlocked : Keeps s.core.currp s (s.chMtxUnlockS mp) := keeps_chMtxUnlockS inv.toWf mp
  obtain ⟨inv', -, pc, currp, -⟩ := inv_chMtxUnlockS inv top user
  have waiting := inv'.core.waiting_chSchGoSleepS (.WTCOND cp)
  rw [currp] at waiting
  rw [chCondWaitS_eq top]
  have sleeps : Keeps s.core.currp (s.chMtxUnlockS mp)
      { (s.chMtxUnlockS mp).queueC s.core.currp cp with
        core := (s.chMtxUnlockS mp).core.chSchGoSleepS (.WTCOND cp)
        pc := Function.update (s.chMtxUnlockS mp).pc s.core.currp (.relock mp timed) } :=
    keeps_sleep rfl rfl waiting
  exact unlocked.trans sleeps

theorem keeps_step [DecidableEq M] [Fintype T] (inv : Inv idle s) (step : Step idle s s') :
    Keeps s.core.currp s s' := by
  have ready : ∀ (tp : T) (msg : Int), ((s.core.setMsg tp msg).chSchReadyI tp).waiting =
      Function.update s.core.waiting tp none := by
    intro tp msg
    rw [Core.waiting_chSchReadyI, Core.waiting_setMsg]
  have returns : Keeps s.core.currp s
      { s with pc := Function.update s.pc s.core.currp .user } :=
    keeps_of_owner (fun t other => Function.update_of_ne other _ _) rfl fun _ _ => .inl rfl
  cases step with
  | lock mp user other => exact keeps_chMtxLockS inv other mp
  | tryLock mp user => exact keeps_chMtxTryLockS mp
  | unlock mp rest user top => exact keeps_chMtxUnlock inv top user
  | unlockS mp rest user top => exact keeps_chMtxUnlockS inv.toWf mp
  | unlockAll user => exact keeps_chMtxUnlockAll inv user
  | condWait cp timed user other owns =>
      obtain ⟨mp, rest, top⟩ := List.exists_cons_of_ne_nil owns
      exact keeps_chCondWaitS inv user top cp timed
  | condSignal cp user =>
      unfold chCondSignal
      split
      · exact keeps_same rfl rfl rfl
      · exact keeps_wake rfl rfl (inv.core.waiting_chSchWakeupS _ MSG_OK)
  | condSignalI cp user =>
      unfold chCondSignalI
      split
      · exact keeps_same rfl rfl rfl
      · exact keeps_wake rfl rfl (ready _ MSG_OK)
  | condBroadcast cp user =>
      exact keeps_reschedule (inv_broadcastLoop inv cp _).core (keeps_broadcastLoop inv cp _)
  | condBroadcastI cp user => exact keeps_broadcastLoop inv cp _
  | timeout tp cp mp user waits timed => exact keeps_wake rfl rfl (ready tp MSG_TIMEOUT)
  | sleep user other =>
      have same : s.pc = Function.update s.pc s.core.currp .user :=
        (Function.update_eq_self_iff.mpr user.symm).symm
      exact keeps_sleep same rfl (inv.core.waiting_chSchGoSleepS .OTHER)
  | ready tp msg user waits => exact keeps_wake rfl rfl (ready tp msg)
  | wakeup tp msg user waits => exact keeps_wake rfl rfl (inv.core.waiting_chSchWakeupS tp msg)
  | reschedule user => exact keeps_same rfl rfl inv.core.waiting_chSchRescheduleS
  | yield user => exact keeps_same rfl rfl inv.core.waiting_chSchDoYieldS
  | tick user => exact keeps_same rfl rfl (Core.waiting_tick _)
  | epilogue user => exact keeps_same rfl rfl inv.core.waiting_epilogue
  | locked mp inside => exact returns
  | relock mp timed inside signalled =>
      have other : s.core.currp ≠ idle := by
        intro eq
        rw [eq, inv.owners.pc_idle] at inside
        cases inside
      exact keeps_chMtxLockS inv other mp
  | timedOut mp inside late => exact returns

/-! ### Ranks -/

/-- The mutex a thread waits for, or is going to lock, is above those it owns. -/
structure Ranked (rank : M → Nat) (s : Mtx T M C) : Prop where
  waits : ∀ t m m', s.core.waiting t = some (.WTMTX m) → s.m_owner m' = some t → rank m' < rank m
  again : ∀ t m m' timed, s.pc t = .relock m timed → s.m_owner m' = some t → rank m' < rank m

variable [DecidableEq M] [Fintype T] {rank : M → Nat}

/-- The thread that was running, after its step. -/
theorem Ranked.self (ranked : Ranked rank s) (inv : Inv idle s) (step : Step idle s s')
    (climbs : Climbs rank s s') (m m' : M)
    (next : s'.core.waiting s.core.currp = some (.WTMTX m) ∨
      ∃ timed, s'.pc s.core.currp = .relock m timed)
    (own : s'.m_owner m' = some s.core.currp) : rank m' < rank m := by
  have awake := inv.core.waiting_currp
  have outside : ∀ s₁ : Mtx T M C, s₁.core.waiting = s.core.waiting →
      s₁.pc = Function.update s.pc s.core.currp .user →
      ¬ (s₁.core.waiting s.core.currp = some (.WTMTX m) ∨
        ∃ timed, s₁.pc s.core.currp = .relock m timed) := by
    rintro s₁ waiting pc (here | ⟨timed, here⟩)
    · rw [waiting, awake] at here
      cases here
    · rw [pc, Function.update_self] at here
      cases here
  by_cases user : s.pc s.core.currp = .user
  · exact climbs user m m' next own
  · cases step with
    | locked mp inside => exact absurd next (outside _ rfl rfl)
    | timedOut mp inside late => exact absurd next (outside _ rfl rfl)
    | relock mp timed inside signalled =>
        cases owned : s.m_owner mp with
        | none =>
            rw [chMtxLockS_free owned] at next
            exact absurd next (outside _ rfl rfl)
        | some o =>
            have other : s.core.currp ≠ idle := by
              intro eq
              rw [eq, inv.owners.pc_idle] at user
              exact user rfl
            obtain ⟨waiting, pc, held, -⟩ := chMtxLockS_owned inv owned
            have held' := ((inv_chMtxLockS inv other mp).owners.own m' _).mpr own
            rw [held] at held'
            have own' := (inv.owners.own m' _).mp held'
            rcases next with here | ⟨timed', here⟩
            · rw [waiting, Function.update_self] at here
              cases here
              exact ranked.again _ _ _ timed inside own'
            · rw [pc, Function.update_self] at here
              cases here
    | _ => exact absurd (by assumption) user

theorem Ranked.step (ranked : Ranked rank s) (inv : Inv idle s) (step : Step idle s s')
    (climbs : Climbs rank s s') : Ranked rank s' := by
  have keeps := keeps_step inv step
  have self := ranked.self inv step climbs
  constructor
  · intro t m m' waits own
    by_cases same : t = s.core.currp
    · subst same
      exact self m m' (.inl waits) own
    · rcases keeps.owner t m' same own with own' | ⟨-, woken⟩
      · exact ranked.waits t m m' (keeps.waits t m same waits) own'
      · exact absurd (woken.symm.trans waits) (by simp)
  · intro t m m' timed inside own
    by_cases same : t = s.core.currp
    · subst same
      exact self m m' (.inr ⟨timed, inside⟩) own
    · rw [keeps.pc t same] at inside
      rcases keeps.owner t m' same own with own' | ⟨⟨m'', waits⟩, -⟩
      · exact ranked.again t m m' timed inside own'
      · rw [inv.owners.pc_mtx t m'' waits] at inside
        cases inside

/-- The rank of the mutex that a thread waits for. -/
def height (rank : M → Nat) (s : Mtx T M C) (t : T) : Nat :=
  match s.core.waiting t with
  | some (.WTMTX m) => rank m
  | _ => 0

omit [DecidableEq T] [DecidableEq C] [DecidableEq M] [Fintype T] in
/-- A thread that waits for a mutex of one that waits for a mutex waits for a lower one. -/
theorem Ranked.climbing (ranked : Ranked rank s) : WaitFor.Climbing s.Lends (height rank s) := by
  rintro a b c ⟨m, own, waits⟩ ⟨m', own', waits'⟩
  unfold height
  rw [waits, waits']
  exact ranked.waits b m' m waits' own

/-- Mutexes locked in an order do not deadlock. In every state of a run in which calls leave
their callers waiting only for mutexes above those they own, no circle of threads wait for each
other's mutexes; and every thread that waits is kept waiting, directly or not, by one that does
not wait for a mutex and has at least its priority. -/
theorem no_deadlock (rank : M → Nat) (idle : T) (s₀ s : Mtx T M C) (start : Start idle s₀)
    (run : Relation.ReflTransGen (fun s s' => Step idle s s' ∧ Climbs rank s s') s₀ s) :
    (∀ t, ¬ Relation.TransGen s.Lends t t) ∧
      ∀ t, ∃ u, Relation.ReflTransGen s.Lends t u ∧ (∀ m, s.core.p_state u ≠ .WAIT (.WTMTX m)) ∧
        s.prio t ≤ s.prio u := by
  have good : Inv idle s ∧ Ranked rank s := by
    induction run with
    | refl =>
        refine ⟨start.inv, fun t m m' _ own => ?_, fun t m m' timed inside _ => ?_⟩
        · rw [start.owner] at own
          cases own
        · rw [start.pc] at inside
          cases inside
    | tail _ step ih => exact ⟨(inv_step ih.1 step.1).1, ih.2.step ih.1 step.1 step.2⟩
  obtain ⟨inv, ranked⟩ := good
  refine ⟨ranked.climbing.acyclic, fun t => ?_⟩
  obtain ⟨u, chain, stops⟩ := ranked.climbing.ends t
  refine ⟨u, chain, fun m state => ?_, WaitFor.le_of_chain (fun a b lends => ?_) chain⟩
  · have waits := Core.waiting_eq_some.mpr state
    obtain ⟨o, owned⟩ := Option.ne_none_iff_exists'.mp (inv.owners.owned m u waits)
    exact stops o ⟨m, owned, waits⟩
  · exact (inv.inherits b).bound a lends

end Conds

/-! ### An example -/

/-- The idle thread 0 is ready, thread 1 runs, and thread 2, which has a higher priority, sleeps.
There are two mutexes. -/
def sampleOrder : Mtx (Fin 3) Bool Unit where
  core := {
    p_prio := fun t => t + 1
    p_state := fun | 0 => .READY | 1 => .CURRENT | 2 => .WAIT .OTHER
    p_preempt := fun _ => 20
    rdymsg := fun _ => 0
    ready := [0]
    currp := 1
    log := [] }
  realprio := fun t => t + 1
  m_owner := fun _ => none
  m_queue := fun _ => []
  p_mtxlist := fun _ => []
  c_queue := fun _ => []
  pc := fun _ => .user
  stamp := fun _ => 0
  clock := 0

/-- Thread 1 has the upper mutex, then thread 2 wakes up. -/
def sampleUpper : Mtx (Fin 3) Bool Unit :=
  { sampleOrder.chMtxLockS true with
    core := (sampleOrder.chMtxLockS true).core.chSchWakeupS 2 MSG_OK }

/-- Thread 2 takes the lower mutex. -/
def sampleClimbed : Mtx (Fin 3) Bool Unit :=
  sampleUpper.chMtxLockS false

theorem sampleOrder_start : Start 0 sampleOrder := by
  refine ⟨⟨?_, ?_, ?_, ?_, rfl⟩, ?_, ?_, ?_, ?_, ?_, ?_, ?_, ?_⟩
  · exact List.pairwise_singleton _ _
  · exact List.nodup_singleton _
  all_goals decide

theorem sampleClimbed_run :
    Relation.ReflTransGen (fun s s' => Step 0 s s' ∧ Climbs Bool.toNat s s') sampleOrder
      (sampleClimbed.chMtxLockS true) := by
  have lock : Step 0 sampleOrder (sampleOrder.chMtxLockS true) := .lock true rfl (by decide)
  have wakeup : Step 0 (sampleOrder.chMtxLockS true) sampleUpper := .wakeup 2 MSG_OK rfl rfl
  have lower : Step 0 sampleUpper sampleClimbed := .lock false rfl (by decide)
  have upper : Step 0 sampleClimbed (sampleClimbed.chMtxLockS true) := .lock true rfl (by decide)
  have awake : ∀ {s s' : Mtx (Fin 3) Bool Unit}, s'.core.waiting s.core.currp = none →
      s'.pc s.core.currp = .user → Climbs Bool.toNat s s' := by
    rintro s s' waiting pc - m m' (waits | ⟨timed, again⟩) -
    · exact absurd (waiting.symm.trans waits) (by simp)
    · exact absurd (pc.symm.trans again) (by simp)
  have inv : Inv 0 sampleClimbed :=
    (inv_step (inv_step (inv_step sampleOrder_start.inv lock).1 wakeup).1 lower).1
  have climbs : Climbs Bool.toNat sampleClimbed (sampleClimbed.chMtxLockS true) := by
    have owned : sampleClimbed.m_owner true = some 1 := rfl
    obtain ⟨waiting, pc, held, -⟩ := chMtxLockS_owned inv owned
    rintro - m m' (waits | ⟨timed, again⟩) own
    · rw [waiting, Function.update_self] at waits
      cases waits
      have own := ((inv_step inv upper).1.owners.own m' _).mpr own
      rw [held] at own
      cases m' with
      | false => exact Nat.zero_lt_one
      | true => exact absurd own (by decide)
    · rw [pc, Function.update_self] at again
      cases again
  exact (((Relation.ReflTransGen.single ⟨lock, awake rfl rfl⟩).tail
    ⟨wakeup, awake rfl rfl⟩).tail ⟨lower, awake rfl rfl⟩).tail ⟨upper, climbs⟩

theorem sampleClimbed_no_deadlock :
    ¬ Relation.TransGen (sampleClimbed.chMtxLockS true).Lends 2 2 ∧
      ∃ u, Relation.ReflTransGen (sampleClimbed.chMtxLockS true).Lends 2 u ∧
        (∀ m, (sampleClimbed.chMtxLockS true).core.p_state u ≠ .WAIT (.WTMTX m)) ∧
        (sampleClimbed.chMtxLockS true).prio 2 ≤ (sampleClimbed.chMtxLockS true).prio u := by
  obtain ⟨acyclic, ends⟩ :=
    no_deadlock Bool.toNat 0 sampleOrder _ sampleOrder_start sampleClimbed_run
  exact ⟨acyclic 2, ends 2⟩

end Mtx

end LtcOs.Kernel
