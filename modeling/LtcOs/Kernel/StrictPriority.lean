import LtcOs.Kernel.Rt

/-!
Strict priority scheduling.

When a call returns, no ready thread has a higher priority than the one that runs. A call that
sleeps or asks the scheduler leaves the choice to it, and `chSchWakeupS` compares with the
thread it wakes; this is right as long as the order held before. `chThdStart` makes a thread
ready and does neither.
-/

namespace LtcOs.Kernel

open LtcOs.Prio

/-! ### The scheduler -/

namespace Core

variable {T W : Type} {c c' : Core T W} {tp : T} {idle : T}

/-- The running thread has at least the priority of the first ready thread. -/
def Ordered (c : Core T W) : Prop := c.firstprio ≤ c.p_prio c.currp

theorem ordered_of_ready (top : ∀ t ∈ c.ready, c.p_prio t ≤ c.p_prio c.currp) : c.Ordered := by
  unfold Ordered firstprio
  cases eq : c.ready with
  | nil => exact Nat.zero_le _
  | cons tp rest =>
      apply top
      rw [eq]
      exact List.mem_cons_self

/-- The first ready thread has the highest priority. -/
theorem le_firstprio (sorted : Descending c.p_prio c.ready) {t : T} (mem : t ∈ c.ready) :
    c.p_prio t ≤ c.firstprio := by
  unfold firstprio
  cases eq : c.ready with
  | nil =>
      rw [eq] at mem
      cases mem
  | cons tp rest =>
      rw [eq] at mem sorted
      exact sorted.first mem

variable [DecidableEq T]

theorem dispatch_spec (sorted : Descending c.p_prio c.ready) :
    ∀ t ∈ c.dispatch.ready, c.p_prio t ≤ c.p_prio c.dispatch.currp := by
  unfold dispatch
  cases eq : c.ready with
  | nil =>
      intro t mem
      rw [eq] at mem
      cases mem
  | cons tp rest =>
      rw [eq] at sorted
      intro t mem
      exact sorted.first (List.mem_cons_of_mem _ mem)

theorem ordered_chSchGoSleepS (sorted : Descending c.p_prio c.ready) (w : W) :
    (c.chSchGoSleepS w).Ordered := by
  apply ordered_of_ready
  rw [chSchGoSleepS_p_prio]
  exact dispatch_spec sorted

/-- The thread that was running goes on the ready list, with a priority not above that of the
first thread there. -/
theorem ready_after_dispatch (sorted : Descending c.p_prio c.ready)
    (le : c.p_prio c.currp ≤ c.firstprio) {t : T} (mem : t = c.currp ∨ t ∈ c.dispatch.ready) :
    c.p_prio t ≤ c.p_prio c.dispatch.currp := by
  rcases mem with rfl | mem
  · unfold dispatch
    unfold firstprio at le
    split
    · exact le_rfl
    · rename_i tp rest eq
      rw [eq] at le
      exact le
  · exact dispatch_spec sorted t mem

theorem ordered_behind (sorted : Descending c.p_prio c.ready) (le : c.p_prio c.currp ≤ c.firstprio) :
    c.chSchDoRescheduleBehind.Ordered := by
  apply ordered_of_ready
  rw [chSchDoRescheduleBehind_p_prio]
  intro t mem
  exact ready_after_dispatch sorted le (mem_insertBehind.mp mem)

theorem ordered_ahead (sorted : Descending c.p_prio c.ready) (le : c.p_prio c.currp ≤ c.firstprio) :
    c.chSchDoRescheduleAhead.Ordered := by
  apply ordered_of_ready
  rw [chSchDoRescheduleAhead_p_prio]
  intro t mem
  exact ready_after_dispatch sorted le (mem_insertAhead.mp mem)

theorem ordered_chSchRescheduleS (sorted : Descending c.p_prio c.ready) :
    c.chSchRescheduleS.Ordered := by
  unfold chSchRescheduleS
  split
  · rename_i higher
    exact ordered_ahead sorted (le_of_lt (of_decide_eq_true higher))
  · rename_i higher
    exact not_lt.mp fun less => higher (decide_eq_true less)

theorem ordered_chSchDoYieldS (sorted : Descending c.p_prio c.ready) : c.chSchDoYieldS.Ordered := by
  unfold chSchDoYieldS
  split
  · rename_i higher
    exact ordered_behind sorted (of_decide_eq_true higher)
  · rename_i higher
    exact le_of_not_ge fun le => higher (decide_eq_true le)

theorem ordered_epilogue (sorted : Descending c.p_prio c.ready) : c.epilogue.Ordered := by
  unfold epilogue
  split
  · rename_i required
    have le : c.p_prio c.currp ≤ c.firstprio := by
      unfold chSchIsPreemptionRequired at required
      split at required
      · exact le_of_lt (of_decide_eq_true required)
      · exact of_decide_eq_true required
    unfold chSchDoReschedule
    split
    · exact ordered_behind sorted le
    · exact ordered_ahead sorted le
  · rename_i required
    unfold chSchIsPreemptionRequired at required
    split at required
    · exact not_lt.mp fun less => required (decide_eq_true less)
    · exact le_of_not_ge fun le => required (decide_eq_true le)

/-- `chSchReadyI` keeps the order exactly for a thread that is not above the running one. -/
theorem ordered_chSchReadyI_iff (sorted : Descending c.p_prio c.ready) (ordered : c.Ordered) :
    (c.chSchReadyI tp).Ordered ↔ c.p_prio tp ≤ c.p_prio c.currp := by
  constructor
  · intro after
    have mem : tp ∈ (c.chSchReadyI tp).ready := mem_insertBehind.mpr (.inl rfl)
    have first := le_firstprio (c := c.chSchReadyI tp) (sorted.insertBehind tp) mem
    exact le_trans first after
  · intro le
    apply ordered_of_ready
    intro t mem
    rcases mem_insertBehind.mp mem with rfl | mem
    · exact le
    · exact le_trans (le_firstprio sorted mem) ordered

theorem ordered_chSchWakeupS (sorted : Descending c.p_prio c.ready) (ordered : c.Ordered)
    (msg : Int) :
    (c.chSchWakeupS tp msg).Ordered := by
  unfold chSchWakeupS
  dsimp only
  split
  · rename_i le
    exact (ordered_chSchReadyI_iff sorted ordered).mpr le
  · rename_i above
    have above : c.p_prio c.currp ≤ c.p_prio tp := le_of_not_ge above
    apply ordered_of_ready
    intro t mem
    change c.p_prio t ≤ c.p_prio tp
    rcases mem_insertBehind.mp mem with rfl | mem
    · exact above
    · exact le_trans (le_trans (le_firstprio sorted mem) ordered) above

end Core

/-! ### Waking and sleeping -/

namespace Rt

variable {T O : Type}

/-- A thread on a list waits for it, and is on the list once. -/
structure Held (waiting : T → Option (RtWait T O)) (queue : RtQueue T O → List T) : Prop where
  mem : ∀ q t, t ∈ queue q → (waiting t).bind RtWait.queue = some q
  nodup : ∀ q, (queue q).Nodup

/-- A thread with an armed timer is in a call that has a timeout, or about to leave it. -/
structure Inv [DecidableEq T] (idle : T) (s : Rt T O) : Prop where
  core : s.core.Sound idle
  held : Held s.core.waiting s.queue
  real : ∀ t, NOPRIO < s.p_realprio t
  timer : ∀ t, s.timer t = true →
      s.pc t ≠ .outside ∧ ∀ w, s.core.waiting t = some w → w.timed = true
  idle : s.pc idle = .outside

/-- What calls that do not sleep do: the running thread goes on, and nobody enters a call. -/
structure Calm [DecidableEq T] (idle : T) (s s' : Rt T O) : Prop where
  inv : Inv idle s'
  currp : s'.core.currp = s.core.currp
  pc : ∀ t, s.pc t = .outside → s'.pc t = .outside

section Held

variable {waiting waiting' : T → Option (RtWait T O)} {queue : RtQueue T O → List T}
  {q : RtQueue T O} {tp : T}

theorem Held.not_mem (held : Held waiting queue) (off : (waiting tp).bind RtWait.queue = none)
    (q : RtQueue T O) :
    tp ∉ queue q := by
  intro mem
  rw [held.mem q tp mem] at off
  cases off

/-- A thread that is on no list changes its state. -/
theorem Held.congr (held : Held waiting queue) (off : (waiting tp).bind RtWait.queue = none)
    (same : ∀ t, t ≠ tp → waiting' t = waiting t) : Held waiting' queue := by
  refine ⟨?_, held.nodup⟩
  intro q t mem
  rw [same]
  · exact held.mem q t mem
  · rintro rfl
    exact held.not_mem off q mem

variable [DecidableEq T] [DecidableEq O]

/-- A list is replaced. -/
theorem held_update {l : List T} (held : Held waiting queue)
    (mem : ∀ q' t, q' ≠ q → t ∈ queue q' → (waiting' t).bind RtWait.queue = some q')
    (here : ∀ t ∈ l, (waiting' t).bind RtWait.queue = some q) (nodup : l.Nodup) :
    Held waiting' (Function.update queue q l) := by
  constructor
  · intro q' t there
    by_cases eq : q' = q
    · subst eq
      rw [Function.update_self] at there
      exact here t there
    · rw [Function.update_of_ne eq] at there
      exact mem q' t eq there
  · intro q'
    by_cases eq : q' = q
    · subst eq
      rw [Function.update_self]
      exact nodup
    · rw [Function.update_of_ne eq]
      exact held.nodup q'

/-- A thread leaves its list, and changes its state. -/
theorem Held.leave (held : Held waiting queue) {l : List T}
    (place : (waiting tp).bind RtWait.queue = some q) (sub : l.Sublist (queue q)) (absent : tp ∉ l)
    (same : ∀ t, t ≠ tp → waiting' t = waiting t) :
    Held waiting' (Function.update queue q l) := by
  apply held_update held
  · intro q' t other mem
    rw [same]
    · exact held.mem q' t mem
    · rintro rfl
      rw [held.mem q' t mem] at place
      exact other (Option.some.inj place)
  · intro t mem
    rw [same]
    · exact held.mem q t (sub.subset mem)
    · rintro rfl
      exact absent mem
  · exact (held.nodup q).sublist sub

/-- A thread that was on no list goes on one. -/
theorem Held.enter (held : Held waiting queue) {l : List T}
    (off : (waiting tp).bind RtWait.queue = none) (place : (waiting' tp).bind RtWait.queue = some q)
    (mem : ∀ t ∈ l, t = tp ∨ t ∈ queue q) (nodup : l.Nodup)
    (same : ∀ t, t ≠ tp → waiting' t = waiting t) : Held waiting' (Function.update queue q l) := by
  apply held_update held
  · intro q' t _ there
    exact (held.congr off same).mem q' t there
  · intro t there
    rcases mem t there with rfl | old
    · exact place
    · exact (held.congr off same).mem q t old
  · exact nodup

end Held

variable [DecidableEq T] [DecidableEq O] {idle tp : T} {s s' s'' : Rt T O} {q : RtQueue T O}
  {wake : Wake T O}

omit [DecidableEq O] in
theorem Calm.refl (inv : Inv idle s) : Calm idle s s := ⟨inv, rfl, fun _ out => out⟩

omit [DecidableEq O] in
theorem Calm.trans (first : Calm idle s s') (second : Calm idle s' s'') : Calm idle s s'' :=
  ⟨second.inv, second.currp.trans first.currp, fun t out => second.pc t (first.pc t out)⟩

/-- A thread that sleeps is woken. -/
structure Rouses (idle tp : T) (c c' : Core T (RtWait T O)) : Prop where
  sound : c'.Sound idle
  waiting : c'.waiting = Function.update c.waiting tp none

def Rousing (idle : T) (wake : Wake T O) : Prop :=
  ∀ c tp, c.Sound idle → c.waiting tp ≠ none → Rouses idle tp c (wake c tp)

/-- The running thread stays the same. -/
def Still (wake : Wake T O) : Prop := ∀ c tp, (wake c tp).currp = c.currp

omit [DecidableEq O] in
theorem rousing_msgReady (msg : Int) : Rousing (O := O) idle (msgReady msg) := by
  intro c tp sound asleep
  have wakes := sound.setMsg_ready asleep msg
  exact ⟨wakes.sound, wakes.waiting⟩

omit [DecidableEq O] in
theorem rousing_readyMsg (msg : Int) : Rousing (O := O) idle (readyMsg msg) := by
  intro c tp sound asleep
  have wakes := sound.ready_setMsg asleep msg
  exact ⟨wakes.sound, wakes.waiting⟩

omit [DecidableEq O] in
theorem rousing_readyI : Rousing (O := O) idle readyI := by
  intro c tp sound asleep
  exact ⟨sound.of_inv (sound.inv.chSchReadyI asleep) rfl, Core.waiting_chSchReadyI c tp⟩

omit [DecidableEq O] in
theorem rousing_wakeupS (msg : Int) : Rousing (O := O) idle (wakeupS msg) := by
  intro c tp sound asleep
  have wakes := sound.wakeup asleep msg
  exact ⟨wakes.sound, wakes.waiting⟩

omit [DecidableEq O] in
/-- A thread wakes that is on no list, or was taken off it. -/
theorem Inv.rouse (inv : Inv idle s) {c : Core T (RtWait T O)} {queue : RtQueue T O → List T}
    (rouses : Rouses idle tp s.core c) (held : Held c.waiting queue) :
    Inv idle { s with core := c, queue := queue } where
  core := rouses.sound
  held := held
  real := inv.real
  timer t armed := by
    refine ⟨(inv.timer t armed).1, ?_⟩
    intro w waits
    change c.waiting t = some w at waits
    rw [rouses.waiting] at waits
    by_cases same : t = tp
    · rw [same, Function.update_self] at waits
      cases waits
    · rw [Function.update_of_ne same] at waits
      exact (inv.timer t armed).2 w waits
  idle := inv.idle

omit [DecidableEq O] in
theorem Rouses.other {c c' : Core T (RtWait T O)} (rouses : Rouses idle tp c c') {t : T}
    (other : t ≠ tp) :
    c'.waiting t = c.waiting t := by
  rw [rouses.waiting, Function.update_of_ne other]

omit [DecidableEq O] in
/-- A thread that is on no list wakes. -/
theorem Inv.wakes (inv : Inv idle s) (good : Rousing idle wake) (asleep : s.core.waiting tp ≠ none)
    (off : (s.core.waiting tp).bind RtWait.queue = none) :
    Inv idle { s with core := wake s.core tp } :=
  inv.rouse (good _ _ inv.core asleep)
    (inv.held.congr off fun _ other => (good _ _ inv.core asleep).other other)

omit [DecidableEq O] in
theorem Inv.asleep (inv : Inv idle s) (mem : tp ∈ s.queue q) : s.core.waiting tp ≠ none := by
  intro awake
  have place := inv.held.mem q tp mem
  rw [awake] at place
  cases place

/-- A thread is taken off its list and woken. -/
theorem Inv.wakeOff (inv : Inv idle s) (good : Rousing idle wake) {l : List T}
    (mem : tp ∈ s.queue q) (sub : l.Sublist (s.queue q)) (absent : tp ∉ l) :
    Inv idle { s with queue := Function.update s.queue q l, core := wake s.core tp } := by
  have rouses := good _ _ inv.core (inv.asleep mem)
  exact inv.rouse rouses
    (inv.held.leave (inv.held.mem q tp mem) sub absent fun _ other => rouses.other other)

theorem Inv.wakeFirst (inv : Inv idle s) (good : Rousing idle wake) (q : RtQueue T O) :
    Inv idle (s.wakeFirst wake q) := by
  unfold Rt.wakeFirst
  split
  · exact inv
  · rename_i tp rest eq
    have nodup := inv.held.nodup q
    rw [eq] at nodup
    apply inv.wakeOff good
    · rw [eq]
      exact List.mem_cons_self
    · rw [eq]
      exact List.sublist_cons_self tp rest
    · exact (List.nodup_cons.mp nodup).1

theorem Calm.wakeFirst (inv : Inv idle s) (good : Rousing idle wake) (still : Still wake)
    (q : RtQueue T O) :
    Calm idle s (s.wakeFirst wake q) := by
  refine ⟨inv.wakeFirst good q, ?_, ?_⟩
  · unfold Rt.wakeFirst
    split
    · rfl
    · exact still _ _
  · intro t out
    unfold Rt.wakeFirst
    split <;> exact out

theorem Calm.wakeAll (inv : Inv idle s) (good : Rousing idle wake) (still : Still wake)
    (q : RtQueue T O) (rounds : Nat) :
    Calm idle s (Rt.wakeAll wake q rounds s) := by
  induction rounds generalizing s with
  | zero => exact .refl inv
  | succ rounds ih =>
      have first := Calm.wakeFirst inv good still q
      exact first.trans (ih first.inv)

/-- What holds whenever the kernel is unlocked. -/
def Fine (idle : T) (s : Rt T O) : Prop := Inv idle s ∧ s.core.Ordered

omit [DecidableEq O] in
/-- Only some fields matter to the scheduler. -/
theorem Inv.congr (inv : Inv idle s) (core : s'.core = s.core) (queue : s'.queue = s.queue)
    (real : s'.p_realprio = s.p_realprio) (timer : s'.timer = s.timer) (pc : s'.pc = s.pc) :
    Inv idle s' := by
  constructor
  · rw [core]
    exact inv.core
  · rw [core, queue]
    exact inv.held
  · rw [real]
    exact inv.real
  · rw [core, timer, pc]
    exact inv.timer
  · rw [pc]
    exact inv.idle

omit [DecidableEq O] in
theorem Fine.congr (fine : Fine idle s) (core : s'.core = s.core) (queue : s'.queue = s.queue)
    (real : s'.p_realprio = s.p_realprio) (timer : s'.timer = s.timer) (pc : s'.pc = s.pc) :
    Fine idle s' := by
  refine ⟨fine.1.congr core queue real timer pc, ?_⟩
  rw [core]
  exact fine.2

omit [DecidableEq O] in
theorem Inv.goSleep (inv : Inv idle s) (other : s.core.currp ≠ idle) {queue : RtQueue T O → List T}
    {w : RtWait T O} {timed : Bool} {pc : RtPc O}
    (held : Held (Function.update s.core.waiting s.core.currp (some w)) queue)
    (armed : timed = true → w.timed = true) (inside : pc ≠ .outside) :
    Fine idle (s.goSleep queue w timed pc) := by
  have sleeps := inv.core.goSleep other w
  refine ⟨?_, Core.ordered_chSchGoSleepS inv.core.inv.sorted w⟩
  constructor
  · exact sleeps.sound
  · change Held (s.core.chSchGoSleepS w).waiting queue
    rw [sleeps.waiting]
    exact held
  · exact inv.real
  · intro t
    change Function.update s.timer s.core.currp timed t = true →
      Function.update s.pc s.core.currp pc t ≠ _ ∧
      ∀ w', (s.core.chSchGoSleepS w).waiting t = some w' → _
    rw [sleeps.waiting]
    by_cases same : t = s.core.currp
    · rw [same, Function.update_self, Function.update_self, Function.update_self]
      intro here
      refine ⟨inside, ?_⟩
      rintro w' eq
      cases eq
      exact armed here
    · rw [Function.update_of_ne same, Function.update_of_ne same, Function.update_of_ne same]
      exact inv.timer t
  · change Function.update s.pc s.core.currp pc idle = _
    rw [Function.update_of_ne other.symm]
    exact inv.idle

omit [DecidableEq O] in
/-- The running thread is on no list. -/
theorem Inv.currp_off (inv : Inv idle s) :
    (s.core.waiting s.core.currp).bind RtWait.queue = none := by
  rw [inv.core.inv.waiting_currp]
  rfl

omit [DecidableEq O] in
theorem Inv.sleepOff (inv : Inv idle s) (other : s.core.currp ≠ idle) {w : RtWait T O}
    {timed : Bool} {pc : RtPc O} (armed : timed = true → w.timed = true) (inside : pc ≠ .outside) :
    Fine idle (s.goSleep s.queue w timed pc) := by
  apply inv.goSleep other _ armed inside
  exact inv.held.congr inv.currp_off fun t differs => Function.update_of_ne differs _ _

theorem Inv.sleepOn (inv : Inv idle s) (other : s.core.currp ≠ idle) {w : RtWait T O} {timed : Bool}
    {pc : RtPc O} {l : List T} (place : w.queue = some q)
    (mem : ∀ t ∈ l, t = s.core.currp ∨ t ∈ s.queue q) (nodup : l.Nodup)
    (armed : timed = true → w.timed = true) (inside : pc ≠ .outside) :
    Fine idle (s.goSleep (Function.update s.queue q l) w timed pc) := by
  apply inv.goSleep other _ armed inside
  apply inv.held.enter inv.currp_off _ mem nodup
  · intro t differs
    exact Function.update_of_ne differs _ _
  · rw [Function.update_self]
    exact place

theorem Inv.sleepBehind (inv : Inv idle s) (other : s.core.currp ≠ idle) {w : RtWait T O}
    {timed : Bool} {pc : RtPc O} (place : w.queue = some q) (armed : timed = true → w.timed = true)
    (inside : pc ≠ .outside) :
    Fine idle (s.sleepBehind q w timed pc) := by
  apply inv.sleepOn other place _ _ armed inside
  · intro t mem
    rcases List.mem_append.mp mem with mem | mem
    · exact .inr mem
    · exact .inl (List.mem_singleton.mp mem)
  · rw [← List.concat_eq_append]
    exact (inv.held.nodup q).concat (inv.held.not_mem inv.currp_off q)

theorem Inv.sleepByPrio (inv : Inv idle s) (other : s.core.currp ≠ idle) {w : RtWait T O}
    {timed : Bool} {pc : RtPc O} (place : w.queue = some q) (armed : timed = true → w.timed = true)
    (inside : pc ≠ .outside) :
    Fine idle (s.sleepByPrio q w timed pc) := by
  apply inv.sleepOn other place _ _ armed inside
  · intro t mem
    exact mem_insertBehind.mp mem
  · exact nodup_insertBehind (inv.held.nodup q) (inv.held.not_mem inv.currp_off q)

omit [DecidableEq O] in
/-- The scheduler chooses. -/
theorem Inv.quiet (inv : Inv idle s) {c : Core T (RtWait T O)} (quiet : s.core.Quiet idle c) :
    Inv idle { s with core := c } := by
  refine ⟨quiet.sound, ?_, inv.real, ?_, inv.idle⟩
  · change Held c.waiting s.queue
    rw [quiet.waiting]
    exact inv.held
  · change ∀ t, s.timer t = true → s.pc t ≠ .outside ∧ ∀ w, c.waiting t = some w → _
    rw [quiet.waiting]
    exact inv.timer

omit [DecidableEq O] in
theorem Inv.reschedule (inv : Inv idle s) : Fine idle s.reschedule :=
  ⟨inv.quiet inv.core.reschedule, Core.ordered_chSchRescheduleS inv.core.inv.sorted⟩

theorem Fine.wakeupFirst (fine : Fine idle s) (q : RtQueue T O) (msg : Int) :
    Fine idle (s.wakeFirst (wakeupS msg) q) := by
  refine ⟨fine.1.wakeFirst (rousing_wakeupS msg) q, ?_⟩
  unfold Rt.wakeFirst
  split
  · exact fine.2
  · exact Core.ordered_chSchWakeupS fine.1.core.inv.sorted fine.2 msg

omit [DecidableEq O] in
theorem Fine.wakeup (fine : Fine idle s) (asleep : s.core.waiting tp ≠ none)
    (off : (s.core.waiting tp).bind RtWait.queue = none) (msg : Int) :
    Fine idle { s with core := s.core.chSchWakeupS tp msg } :=
  ⟨fine.1.wakes (rousing_wakeupS msg) asleep off,
    Core.ordered_chSchWakeupS fine.1.core.inv.sorted fine.2 msg⟩

omit [DecidableEq O] in
theorem Inv.leave (inv : Inv idle s) : Inv idle s.leave := by
  refine ⟨inv.core, inv.held, inv.real, ?_, ?_⟩
  · intro t
    change Function.update s.timer s.core.currp false t = true →
      Function.update s.pc s.core.currp .outside t ≠ _ ∧ _
    by_cases same : t = s.core.currp
    · rw [same, Function.update_self]
      intro armed
      cases armed
    · rw [Function.update_of_ne same, Function.update_of_ne same]
      exact inv.timer t
  · change Function.update s.pc s.core.currp .outside idle = .outside
    by_cases same : idle = s.core.currp
    · rw [same, Function.update_self]
    · rw [Function.update_of_ne same]
      exact inv.idle

/-! ### Threads -/

omit [DecidableEq T] [DecidableEq O] in
theorem Unused.asleep (unused : s.Unused tp) :
    s.core.waiting tp ≠ none ∧ (s.core.waiting tp).bind RtWait.queue = none := by
  rcases unused with state | state
  · rw [Core.waiting_eq_some.mpr state]
    simp [RtWait.queue]
  · rw [Core.waiting_eq_some.mpr state]
    simp [RtWait.queue]

theorem pos_update {prio : T → Nat} (above : ∀ t, NOPRIO < prio t) {p : Nat} (pos : NOPRIO < p)
    (t : T) :
    NOPRIO < Function.update prio tp p t := by
  by_cases same : t = tp
  · rw [same, Function.update_self]
    exact pos
  · rw [Function.update_of_ne same]
    exact above t

theorem Calm.create (inv : Inv idle s) (unused : s.Unused tp) {prio : Nat} (pos : NOPRIO < prio) :
    Calm idle s (s.chThdCreateI tp prio) := by
  obtain ⟨asleep, off⟩ := unused.asleep
  obtain ⟨sound, waiting⟩ :=
    inv.core.init asleep pos (RtWait.WTSTART (T := T) (O := O)) CH_CFG_TIME_QUANTUM
  have others : ∀ t, t ≠ tp → (s.chThdCreateI tp prio).core.waiting t = s.core.waiting t := by
    intro t differs
    exact (congrFun waiting t).trans (Function.update_of_ne differs _ _)
  have empty : ∀ {waiting : T → Option (RtWait T O)} {queue : RtQueue T O → List T} (q : RtQueue T O),
      Held waiting queue → Held waiting (Function.update queue q []) := by
    intro waiting queue q held
    apply held_update held
    · intro q' t _ mem
      exact held.mem q' t mem
    · intro t mem
      cases mem
    · exact List.nodup_nil
  refine ⟨⟨sound, ?_, ?_, ?_, ?_⟩, rfl, ?_⟩
  · exact empty _ (empty _ (inv.held.congr off others))
  · exact pos_update inv.real pos
  · intro t
    change Function.update s.timer tp false t = true → Function.update s.pc tp .outside t ≠ _ ∧ _
    by_cases same : t = tp
    · rw [same, Function.update_self]
      intro armed
      cases armed
    · rw [Function.update_of_ne same, Function.update_of_ne same, others t same]
      exact inv.timer t
  · change Function.update s.pc tp .outside idle = .outside
    by_cases same : idle = tp
    · rw [same, Function.update_self]
    · rw [Function.update_of_ne same]
      exact inv.idle
  · intro t out
    change Function.update s.pc tp .outside t = .outside
    by_cases same : t = tp
    · rw [same, Function.update_self]
    · rw [Function.update_of_ne same]
      exact out

theorem Fine.create (fine : Fine idle s) (unused : s.Unused tp) {prio : Nat} (pos : NOPRIO < prio) :
    Fine idle (s.chThdCreateI tp prio) := by
  have calm := Calm.create fine.1 unused pos
  refine ⟨calm.inv, ?_⟩
  have absent : tp ∉ s.core.ready := fun mem => unused.asleep.1 (fine.1.core.inv.waiting_ready mem)
  have differs : s.core.currp ≠ tp := fine.1.core.asleep_ne unused.asleep.1
  apply Core.ordered_of_ready
  intro t mem
  change Function.update s.core.p_prio tp prio t ≤
    Function.update s.core.p_prio tp prio s.core.currp
  rw [Function.update_of_ne differs, Function.update_of_ne]
  · exact le_trans (Core.le_firstprio fine.1.core.inv.sorted mem) fine.2
  · rintro rfl
    exact absent mem

theorem Fine.createStatic (fine : Fine idle s) (unused : s.Unused tp) {prio : Nat}
    (pos : NOPRIO < prio) :
    Fine idle (s.chThdCreateStatic tp prio) := by
  have waiting : (s.chThdCreateI tp prio).core.waiting tp = some .WTSTART :=
    Core.waiting_eq_some.mpr (Function.update_self _ _ _)
  apply Fine.wakeup (fine.create unused pos)
  · rw [waiting]
    simp
  · rw [waiting]
    rfl

omit [DecidableEq O] in
/-- A thread that is not ready gets another priority. -/
theorem Inv.setPrio (inv : Inv idle s) (off : tp ∉ s.core.ready) {p : Nat} (pos : NOPRIO < p) :
    Inv idle { s with core := s.core.setPrio tp p } :=
  ⟨⟨inv.core.inv.setPrio off p, pos_update inv.core.pos pos⟩, inv.held, inv.real, inv.timer,
    inv.idle⟩

omit [DecidableEq O] in
theorem Inv.chThdSetPriority (inv : Inv idle s) {newprio : Nat} (pos : NOPRIO < newprio) :
    Fine idle (s.chThdSetPriority newprio) := by
  have real : ∀ {s' : Rt T O}, Inv idle s' →
      Inv idle { s' with p_realprio := Function.update s'.p_realprio s.core.currp newprio } := by
    intro s' inv'
    exact ⟨inv'.core, inv'.held, pos_update inv'.real pos, inv'.timer, inv'.idle⟩
  unfold Rt.chThdSetPriority
  dsimp only
  apply Inv.reschedule
  split
  · exact real (inv.setPrio inv.core.inv.currp_not_ready pos)
  · exact real inv

omit [DecidableEq O] in
theorem Inv.chThdSleep (inv : Inv idle s) (other : s.core.currp ≠ idle) (time : Timeout) :
    Fine idle (s.chThdSleep time) :=
  inv.sleepOff other (fun _ => rfl) (by simp)

theorem Inv.chThdExit (inv : Inv idle s) (other : s.core.currp ≠ idle) : Fine idle s.chThdExit := by
  have calm := Calm.wakeAll inv rousing_readyI (fun _ _ => rfl) (.exit s.core.currp)
    (s.queue (.exit s.core.currp)).length
  apply calm.inv.sleepOff
  · rw [calm.currp]
    exact other
  · nofun
  · simp

theorem Fine.chThdWait (fine : Fine idle s) (other : s.core.currp ≠ idle) (tp : T) :
    Fine idle (s.chThdWait tp) := by
  unfold Rt.chThdWait
  split
  · exact fine
  · apply fine.1.sleepOn other rfl
    · intro t mem
      exact List.mem_cons.mp mem
    · exact List.nodup_cons.mpr ⟨fine.1.held.not_mem fine.1.currp_off _, fine.1.held.nodup _⟩
    · nofun
    · simp

theorem Fine.chThdSuspendTimeoutS (fine : Fine idle s) (other : s.core.currp ≠ idle) (trp : O)
    (time : Timeout) :
    Fine idle (s.chThdSuspendTimeoutS trp time) := by
  unfold Rt.chThdSuspendTimeoutS
  split
  · exact fine
  · apply fine.1.sleepOn other rfl
    · intro t mem
      exact .inl (List.mem_singleton.mp mem)
    · exact List.nodup_singleton _
    · intro _
      rfl
    · simp

omit [DecidableEq O] in
/-- `chThdStart` keeps the order exactly for a thread that is not above its caller. -/
theorem Fine.chThdStart (fine : Fine idle s) (start : s.core.p_state tp = .WAIT .WTSTART) :
    Inv idle (s.chThdStart tp) ∧
      ((s.chThdStart tp).core.Ordered ↔ s.core.p_prio tp ≤ s.core.p_prio s.core.currp) := by
  have waiting : s.core.waiting tp = some .WTSTART := Core.waiting_eq_some.mpr start
  refine ⟨?_, Core.ordered_chSchReadyI_iff fine.1.core.inv.sorted fine.2⟩
  apply fine.1.wakes rousing_readyI
  · rw [waiting]
    simp
  · rw [waiting]
    rfl

/-! ### Semaphores -/

theorem Calm.addCnt (inv : Inv idle s) (sp : Sem O) (n : Int) : Calm idle s (s.addCnt sp n) :=
  ⟨inv.congr rfl rfl rfl rfl rfl, rfl, fun _ out => out⟩

theorem Fine.addCnt (fine : Fine idle s) (sp : Sem O) (n : Int) : Fine idle (s.addCnt sp n) :=
  ⟨(Calm.addCnt fine.1 sp n).inv, fine.2⟩

theorem Calm.signalWith (inv : Inv idle s) (good : Rousing idle wake) (still : Still wake)
    (sp : Sem O) :
    Calm idle s (Rt.signalWith wake s sp) := by
  have given := Calm.addCnt inv sp 1
  unfold Rt.signalWith
  dsimp only
  split
  · exact given.trans (.wakeFirst given.inv good still _)
  · exact given

theorem Fine.chSemSignal (fine : Fine idle s) (sp : Sem O) : Fine idle (s.chSemSignal sp) := by
  have given := fine.addCnt sp 1
  unfold Rt.chSemSignal Rt.signalWith
  dsimp only
  split
  · exact given.wakeupFirst _ _
  · exact given

theorem Calm.chSemSignalI (inv : Inv idle s) (sp : Sem O) : Calm idle s (s.chSemSignalI sp) :=
  .signalWith inv (rousing_msgReady MSG_OK) (fun _ _ => rfl) sp

theorem Calm.chSemAddCounterI (inv : Inv idle s) (sp : Sem O) (n : Nat) :
    Calm idle s (s.chSemAddCounterI sp n) := by
  induction n with
  | zero => exact .refl inv
  | succ n ih => exact ih.trans (.signalWith ih.inv (rousing_readyMsg MSG_OK) (fun _ _ => rfl) sp)

theorem Fine.chSemWait (fine : Fine idle s) (other : s.core.currp ≠ idle) (sp : Sem O) :
    Fine idle (s.chSemWait sp) := by
  have taken := fine.addCnt sp (-1)
  unfold Rt.chSemWait
  dsimp only
  split
  · exact taken.1.sleepBehind other rfl nofun (by simp)
  · exact taken

theorem Fine.chSemWaitTimeoutS (fine : Fine idle s) (other : s.core.currp ≠ idle) (sp : Sem O)
    (time : Timeout) {pc : RtPc O} (inside : pc ≠ .outside) :
    Fine idle (s.chSemWaitTimeoutS sp time pc).2 := by
  have taken := fine.addCnt sp (-1)
  unfold Rt.chSemWaitTimeoutS
  dsimp only
  split
  · split
    · exact taken.addCnt sp 1
    · exact taken.1.sleepBehind other rfl (fun _ => rfl) inside
  · exact taken

theorem Inv.chSemSignalWait (inv : Inv idle s) (other : s.core.currp ≠ idle) (sps spw : Sem O) :
    Fine idle (s.chSemSignalWait sps spw) := by
  have calm := Calm.signalWith inv (rousing_readyMsg MSG_OK) (fun _ _ => rfl) sps
  have taken := (Calm.addCnt calm.inv spw (-1)).inv
  unfold Rt.chSemSignalWait
  dsimp only
  split
  · refine taken.sleepBehind ?_ rfl nofun (by simp)
    exact fun eq => other (calm.currp.symm.trans eq)
  · exact taken.reschedule

theorem Calm.resetLoop (inv : Inv idle s) (sp : Sem O) (rounds : Nat) :
    Calm idle s (Rt.resetLoop sp rounds s) := by
  induction rounds generalizing s with
  | zero => exact .refl inv
  | succ rounds ih =>
      unfold Rt.resetLoop
      split
      · exact .refl inv
      · rename_i tp last
        obtain ⟨rest, eq⟩ := List.getLast?_eq_some_iff.mp last
        have nodup := inv.held.nodup (.sem sp)
        rw [eq] at nodup
        have woken : Inv idle { s with
            queue := Function.update s.queue (.sem sp) (s.queue (.sem sp)).dropLast
            core := readyMsg MSG_RESET s.core tp } := by
          apply inv.wakeOff (rousing_readyMsg MSG_RESET)
          · rw [eq]
            simp
          · exact List.dropLast_sublist _
          · rw [eq, List.dropLast_concat]
            exact fun mem => (List.nodup_append.mp nodup).2.2 tp mem tp (by simp) rfl
        have calm : Calm idle s _ := ⟨woken, rfl, fun _ out => out⟩
        exact calm.trans (ih woken)

theorem Calm.chSemResetI (inv : Inv idle s) (sp : Sem O) (n : Int) :
    Calm idle s (s.chSemResetI sp n) := by
  have set : Inv idle { s with s_cnt := Function.update s.s_cnt sp n } :=
    inv.congr rfl rfl rfl rfl rfl
  have calm : Calm idle s { s with s_cnt := Function.update s.s_cnt sp n } :=
    ⟨set, rfl, fun _ out => out⟩
  exact calm.trans (.resetLoop set sp _)

theorem Calm.chBSemSignalI (inv : Inv idle s) (sp : Sem O) : Calm idle s (s.chBSemSignalI sp) := by
  unfold Rt.chBSemSignalI
  split
  · exact .chSemSignalI inv sp
  · exact .refl inv

/-! ### Mutexes -/

theorem Held.reorder {waiting : T → Option (RtWait T O)} {queue : RtQueue T O → List T}
    (held : Held waiting queue) (prio : T → Nat) (here : (waiting tp).bind RtWait.queue = some q) :
    Held waiting (Function.update queue q (insertBehind prio tp ((queue q).erase tp))) := by
  apply held_update held
  · intro q' t _ mem
    exact held.mem q' t mem
  · intro t mem
    rcases mem_insertBehind.mp mem with rfl | mem
    · exact here
    · exact held.mem q t (List.mem_of_mem_erase mem)
  · exact nodup_insertBehind ((held.nodup q).erase tp) (held.nodup q).not_mem_erase

omit [DecidableEq O] in
theorem not_ready (inv : Inv idle s) (other : s.core.p_state tp ≠ .READY) : tp ∉ s.core.ready :=
  fun mem => other ((inv.core.inv.mem_ready tp).mp mem)

/-- A thread in a queue is given another priority and takes its place for it. -/
theorem Calm.reorder (inv : Inv idle s) {w : RtWait T O} {q : RtQueue T O}
    (state : s.core.p_state tp = .WAIT w) (queued : w.queue = some q) {prio : Nat}
    (pos : NOPRIO < prio) :
    Calm idle s { s with
      core := s.core.setPrio tp prio
      queue := Function.update s.queue q
        (insertBehind (s.core.setPrio tp prio).p_prio tp ((s.queue q).erase tp)) } := by
  have set : Inv idle { s with core := s.core.setPrio tp prio } :=
    inv.setPrio (not_ready inv (by rw [state]; simp)) pos
  refine ⟨⟨set.core, ?_, set.real, set.timer, set.idle⟩, rfl, fun _ out => out⟩
  apply inv.held.reorder
  rw [Core.waiting_eq_some.mpr state]
  exact queued

/-- A thread is given another priority and takes its place for it. -/
theorem Calm.raise (inv : Inv idle s) (ctp tp : T) : Calm idle s (s.raise ctp tp) := by
  have pos : NOPRIO < s.prio ctp := inv.core.pos ctp
  unfold Rt.raise Rt.requeue
  dsimp only
  split
  · rename_i mp state
    exact .reorder inv state rfl pos
  · rename_i cp state
    exact .reorder inv state rfl pos
  · rename_i state
    change s.core.p_state tp = _ at state
    have awake : s.core.waiting tp = none := Core.waiting_eq_none.mpr (.inl state)
    have same : ({ s.core.setPrio tp (s.prio ctp) with ready := s.core.ready.erase tp }.chSchReadyI tp).waiting =
        s.core.waiting := by
      rw [Core.waiting_chSchReadyI]
      exact Function.update_eq_self_iff.mpr awake.symm
    have sound : ({ s.core.setPrio tp (s.prio ctp) with ready := s.core.ready.erase tp }.chSchReadyI tp).Sound idle :=
      ⟨inv.core.inv.requeue state (s.prio ctp), pos_update inv.core.pos pos⟩
    refine ⟨⟨sound, ?_, inv.real, ?_, inv.idle⟩, rfl, fun _ out => out⟩
    · exact same.symm ▸ inv.held
    · intro t armed
      exact ⟨(inv.timer t armed).1,
        fun w waits => (inv.timer t armed).2 w ((congrFun same t).symm.trans waits)⟩
  · rename_i mtx cond ready
    exact ⟨inv.setPrio (not_ready inv ready) pos, rfl, fun _ out => out⟩

theorem Calm.boost [Fintype T] (inv : Inv idle s) (ctp tp : T) : Calm idle s (s.boost ctp tp) := by
  fun_induction Rt.boost s ctp tp with
  | case1 s tp less mp waits owner owned ih =>
      have raised := Calm.raise inv ctp tp
      exact raised.trans (ih raised.inv)
  | case2 s tp less mp waits free => exact .raise inv ctp tp
  | case3 s tp less waits => exact .raise inv ctp tp
  | case4 s tp high => exact .refl inv

theorem Fine.own (fine : Fine idle s) (mp : O) (tp : T) : Fine idle (s.own mp tp) :=
  fine.congr rfl rfl rfl rfl rfl

theorem Fine.chMtxLock [Fintype T] (fine : Fine idle s) (other : s.core.currp ≠ idle) (mp : O) :
    Fine idle (s.chMtxLock mp) := by
  unfold Rt.chMtxLock
  split
  · rename_i tp owned
    have calm := Calm.boost fine.1 s.core.currp tp
    refine calm.inv.sleepByPrio ?_ rfl (fun timed => absurd timed Bool.false_ne_true) (by simp)
    rw [calm.currp]
    exact other
  · exact fine.own mp _

theorem Fine.chMtxTryLock (fine : Fine idle s) (mp : O) : Fine idle (s.chMtxTryLock mp) := by
  unfold Rt.chMtxTryLock
  split
  · exact fine
  · exact fine.own mp _

omit [DecidableEq T] [DecidableEq O] in
theorem le_newprio (s : Rt T O) (ctp : T) (l : List O) : s.p_realprio ctp ≤ s.newprio ctp l := by
  unfold Rt.newprio
  generalize s.p_realprio ctp = p
  induction l generalizing p with
  | nil => exact le_rfl
  | cons mp l ih =>
      rw [List.foldl_cons]
      refine le_trans ?_ (ih _)
      split
      · exact le_rfl
      · split
        · rename_i less
          exact le_of_lt less
        · exact le_rfl

theorem Calm.handOff (inv : Inv idle s) (mp : O) : Calm idle s (s.handOff mp) := by
  unfold Rt.handOff
  split
  · exact ⟨inv.congr rfl rfl rfl rfl rfl, rfl, fun _ out => out⟩
  · rename_i tp rest eq
    have owned : Inv idle (s.own mp tp) := inv.congr rfl rfl rfl rfl rfl
    have woken := Calm.wakeFirst owned rousing_readyI (fun _ _ => rfl) (.mtx mp)
    exact ⟨woken.inv, woken.currp, woken.pc⟩

omit [DecidableEq O] in
theorem Calm.pop (inv : Inv idle s) (ctp : T) : Calm idle s (s.pop ctp) :=
  ⟨inv.congr rfl rfl rfl rfl rfl, rfl, fun _ out => out⟩

theorem Calm.chMtxUnlockS (inv : Inv idle s) (mp : O) : Calm idle s (s.chMtxUnlockS mp) := by
  have popped := Calm.pop inv s.core.currp
  unfold Rt.chMtxUnlockS
  dsimp only
  split
  · have pos : NOPRIO <
        (s.pop s.core.currp).newprio s.core.currp ((s.pop s.core.currp).p_mtxlist s.core.currp) :=
      lt_of_lt_of_le (inv.real s.core.currp) (le_newprio _ _ _)
    have set := popped.inv.setPrio inv.core.inv.currp_not_ready pos
    have handed := Calm.handOff set mp
    exact ⟨handed.inv, handed.currp, handed.pc⟩
  · exact popped.trans (.handOff popped.inv mp)

theorem Fine.chMtxUnlock (fine : Fine idle s) (mp : O) : Fine idle (s.chMtxUnlock mp) := by
  have calm := Calm.chMtxUnlockS fine.1 mp
  unfold Rt.chMtxUnlock
  split
  · exact calm.inv.reschedule
  · rename_i empty
    refine ⟨calm.inv, ?_⟩
    rw [not_not] at empty
    have same : (s.chMtxUnlockS mp).core = s.core := by
      have none : (s.pop s.core.currp).queue (.mtx mp) = [] := empty
      unfold Rt.chMtxUnlockS Rt.handOff
      dsimp only
      rw [if_neg (not_not.mpr none), none]
      rfl
    rw [same]
    exact fine.2

theorem Calm.unlockLoop (inv : Inv idle s) (ctp : T) (rounds : Nat) :
    Calm idle s (Rt.unlockLoop ctp rounds s) := by
  induction rounds generalizing s with
  | zero => exact .refl inv
  | succ rounds ih =>
      unfold Rt.unlockLoop
      split
      · exact .refl inv
      · rename_i mp rest eq
        have popped := Calm.pop inv ctp
        have handed := popped.trans (.handOff popped.inv mp)
        exact handed.trans (ih handed.inv)

theorem Fine.chMtxUnlockAll (fine : Fine idle s) : Fine idle s.chMtxUnlockAll := by
  unfold Rt.chMtxUnlockAll
  dsimp only
  split
  · have calm := Calm.unlockLoop fine.1 s.core.currp (s.p_mtxlist s.core.currp).length
    apply Inv.reschedule
    apply calm.inv.setPrio _ (calm.inv.real _)
    have off := calm.inv.core.inv.currp_not_ready
    rw [calm.currp] at off
    exact off
  · exact fine

/-! ### Condition variables -/

theorem Calm.chCondBroadcastI (inv : Inv idle s) (cp : O) : Calm idle s (s.chCondBroadcastI cp) :=
  .wakeAll inv (rousing_readyMsg MSG_RESET) (fun _ _ => rfl) _ _

theorem Fine.condWait (fine : Fine idle s) (other : s.core.currp ≠ idle) (cp : O)
    (timed armed : Bool) :
    Fine idle (s.condWait cp timed armed) := by
  unfold Rt.condWait
  split
  · exact fine
  · rename_i mp rest eq
    have calm := Calm.chMtxUnlockS fine.1 mp
    refine calm.inv.sleepByPrio ?_ rfl (fun _ => rfl) (by simp)
    rw [calm.currp]
    exact other

/-! ### Events -/

omit [DecidableEq O] in
theorem Calm.chEvtSignalI (inv : Inv idle s) (tp : T) (events : BitVec 32) :
    Calm idle s (s.chEvtSignalI tp events) := by
  have added : Inv idle
      { s with p_epending := Function.update s.p_epending tp (s.p_epending tp ||| events) } :=
    inv.congr rfl rfl rfl rfl rfl
  unfold Rt.chEvtSignalI
  dsimp only
  split
  · rename_i met
    have waits : s.core.waiting tp ≠ none ∧ (s.core.waiting tp).bind RtWait.queue = none := by
      unfold awaited at met
      split at met
      · rename_i ewmask state
        rw [Core.waiting_eq_some.mpr state]
        simp [RtWait.queue]
      · rename_i ewmask state
        rw [Core.waiting_eq_some.mpr state]
        simp [RtWait.queue]
      · cases met
    exact ⟨added.wakes (rousing_msgReady MSG_OK) waits.1 waits.2, rfl, fun _ out => out⟩
  · exact ⟨added, rfl, fun _ out => out⟩

theorem Calm.notify (inv : Inv idle s) (flags : BitVec 32) (elp : O) :
    Calm idle s (s.notify flags elp) := by
  unfold Rt.notify
  dsimp only
  split
  · have noted : Inv idle
        { s with el := Function.update s.el elp { s.el elp with el_flags := (s.el elp).el_flags ||| flags } } :=
      inv.congr rfl rfl rfl rfl rfl
    have signalled := Calm.chEvtSignalI noted (s.el elp).el_listener (s.el elp).el_events
    exact ⟨signalled.inv, signalled.currp, signalled.pc⟩
  · exact ⟨inv.congr rfl rfl rfl rfl rfl, rfl, fun _ out => out⟩

theorem Calm.chEvtBroadcastFlagsI (inv : Inv idle s) (esp : O) (flags : BitVec 32) :
    Calm idle s (s.chEvtBroadcastFlagsI esp flags) := by
  unfold Rt.chEvtBroadcastFlagsI
  generalize s.es_next esp = listeners
  induction listeners generalizing s with
  | nil => exact .refl inv
  | cons elp rest ih =>
      have noted := Calm.notify inv flags elp
      exact noted.trans (ih noted.inv)

omit [DecidableEq O] in
theorem Fine.takeEvents (fine : Fine idle s) (kind : EvKind) (events : BitVec 32) :
    Fine idle (s.takeEvents kind events) :=
  fine.congr rfl rfl rfl rfl rfl

omit [DecidableEq T] [DecidableEq O] in
theorem timed_waitState (kind : EvKind) (events : BitVec 32) :
    (waitState (T := T) (O := O) events kind).timed = true := by
  cases kind <;> rfl

omit [DecidableEq O] in
theorem Fine.chEvtWait (fine : Fine idle s) (other : s.core.currp ≠ idle) (kind : EvKind)
    (events : BitVec 32) :
    Fine idle (s.chEvtWait kind events) := by
  unfold Rt.chEvtWait
  split
  · exact fine.takeEvents kind events
  · exact fine.1.sleepOff other nofun (by simp)

omit [DecidableEq O] in
theorem Fine.chEvtWaitTimeout (fine : Fine idle s) (other : s.core.currp ≠ idle) (kind : EvKind)
    (events : BitVec 32) (time : Timeout) : Fine idle (s.chEvtWaitTimeout kind events time) := by
  unfold Rt.chEvtWaitTimeout
  split
  · exact fine.takeEvents kind events
  · split
    · exact fine
    · exact fine.1.sleepOff other (fun _ => timed_waitState kind events) (by simp)

/-! ### Mailboxes -/

theorem Fine.transfer (fine : Fine idle s) (other : s.core.currp ≠ idle) (needs gives : Sem O)
    (timeout : Timeout) :
    Fine idle (s.transfer needs gives timeout) := by
  have waited : Fine idle (s.chSemWaitTimeoutS needs timeout (.transfer gives)).2 :=
    fine.chSemWaitTimeoutS other needs timeout (by simp)
  unfold Rt.transfer
  split
  · rename_i s' eq
    rw [eq] at waited
    exact (Calm.chSemSignalI waited.1 gives).inv.reschedule
  · rename_i s' eq
    rw [eq] at waited
    exact waited

theorem Calm.transferI (inv : Inv idle s) (needs gives : Sem O) :
    Calm idle s (s.transferI needs gives) := by
  unfold Rt.transferI
  split
  · exact .refl inv
  · have taken := Calm.addCnt inv needs (-1)
    exact taken.trans (.chSemSignalI taken.inv gives)

theorem Calm.chMBResetI (inv : Inv idle s) (mbp : O) : Calm idle s (s.chMBResetI mbp) := by
  have first := Calm.chSemResetI inv (.emptysem mbp) (s.mb_size mbp)
  exact first.trans (.chSemResetI first.inv (.fullsem mbp) 0)

/-! ### Messages -/

theorem Inv.chMsgSend (inv : Inv idle s) (other : s.core.currp ≠ idle) (tp : T) :
    Fine idle (s.chMsgSend tp) := by
  unfold Rt.chMsgSend
  dsimp only
  split
  · rename_i state
    have waiting : s.core.waiting tp = some .WTMSG := Core.waiting_eq_some.mpr state
    have ready : Inv idle { s with core := s.core.chSchReadyI tp } := by
      apply inv.wakes rousing_readyI
      · rw [waiting]
        simp
      · rw [waiting]
        rfl
    exact ready.sleepBehind other rfl nofun (by simp)
  · exact inv.sleepBehind other rfl nofun (by simp)

omit [DecidableEq O] in
/-- Who sends a message has no timeout. -/
theorem Inv.untimed (inv : Inv idle s) {tp' : T} (mem : tp ∈ s.queue (.msg tp')) :
    s.timer tp ≠ true := by
  intro armed
  have place := inv.held.mem _ _ mem
  obtain ⟨w, waits, queued⟩ := Option.bind_eq_some_iff.mp place
  have timed := (inv.timer tp armed).2 w waits
  cases w with
  | SNDMSGQ _ => cases timed
  | _ => cases queued

/-- The sender of the first message waits for the answer. -/
theorem Inv.receive (inv : Inv idle s) : Inv idle s.receive := by
  unfold Rt.receive
  split
  · exact inv
  · rename_i tp rest eq
    have mem : tp ∈ s.queue (.msg s.core.currp) := by
      rw [eq]
      exact List.mem_cons_self
    have nodup := inv.held.nodup (.msg s.core.currp)
    rw [eq] at nodup
    have others : ∀ t, t ≠ tp →
        (s.core.setState tp (.WAIT .SNDMSG)).waiting t = s.core.waiting t := by
      intro t differs
      rw [Core.waiting_setState, Function.update_of_ne differs]
    refine ⟨inv.core.setWait (inv.asleep mem) _, ?_, inv.real, ?_, inv.idle⟩
    · apply inv.held.leave (inv.held.mem _ _ mem) _ (List.nodup_cons.mp nodup).1 others
      rw [eq]
      exact List.sublist_cons_self tp rest
    · intro t armed
      refine ⟨(inv.timer t armed).1, fun w waits => (inv.timer t armed).2 w ?_⟩
      refine (others t ?_).symm.trans waits
      rintro rfl
      exact inv.untimed mem armed

theorem Fine.receive (fine : Fine idle s) : Fine idle s.receive := by
  refine ⟨fine.1.receive, ?_⟩
  unfold Rt.receive
  split
  · exact fine.2
  · exact fine.2

theorem Fine.chMsgWait (fine : Fine idle s) (other : s.core.currp ≠ idle) :
    Fine idle s.chMsgWait := by
  unfold Rt.chMsgWait
  split
  · exact fine.1.sleepOff other nofun (by simp)
  · exact fine.receive

/-! ### Calls -/

/-- Starting a thread is right for one that is not above the caller. -/
def Careful (c : Option (Call T O)) (s : Rt T O) : Prop :=
  ∀ tp, c = some (.chThdStart tp) → s.core.p_prio tp ≤ s.core.p_prio s.core.currp

theorem Fine.call [Fintype T] (fine : Fine idle s) {c : Call T O} (careful : Careful (some c) s)
    (able : s.Able c) (other : c.sleeps = true → s.core.currp ≠ idle) : Fine idle (s.call c) := by
  cases c with
  | chThdCreateI tp prio => exact fine.create able.1 able.2
  | chThdCreateStatic tp prio => exact fine.createStatic able.1 able.2
  | chThdStart tp => exact ⟨(fine.chThdStart able).1, (fine.chThdStart able).2.mpr (careful tp rfl)⟩
  | chThdSetPriority newprio => exact fine.1.chThdSetPriority able
  | chThdSleep time => exact fine.1.chThdSleep (other rfl) time
  | chThdSleepUntil now time =>
      change Fine idle (s.chThdSleepUntil now time)
      unfold Rt.chThdSleepUntil
      split
      · exact fine.1.chThdSleep (other rfl) _
      · exact fine
  | chThdSleepUntilWindowed now prev next =>
      change Fine idle (s.chThdSleepUntilWindowed now prev next)
      unfold Rt.chThdSleepUntilWindowed
      split
      · exact fine.1.chThdSleep (other rfl) _
      · exact fine
  | chThdYield =>
      exact ⟨fine.1.quiet fine.1.core.yield, Core.ordered_chSchDoYieldS fine.1.core.inv.sorted⟩
  | chThdSuspendTimeoutS trp time => exact fine.chThdSuspendTimeoutS (other rfl) trp time
  | chThdResume trp msg => exact fine.wakeupFirst _ msg
  | chThdExit => exact fine.1.chThdExit (other rfl)
  | chThdWait tp => exact fine.chThdWait (other rfl) tp
  | chSemReset sp n => exact (Calm.chSemResetI fine.1 sp n).inv.reschedule
  | chSemWait sp => exact fine.chSemWait (other rfl) sp
  | chSemWaitTimeout sp time => exact fine.chSemWaitTimeoutS (other rfl) sp time (by simp)
  | chSemSignal sp => exact fine.chSemSignal sp
  | chSemSignalWait sps spw => exact fine.1.chSemSignalWait (other rfl) sps spw
  | chBSemReset sp taken => exact (Calm.chSemResetI fine.1 sp _).inv.reschedule
  | chBSemSignal sp => exact (Calm.chBSemSignalI fine.1 sp).inv.reschedule
  | chMtxLock mp => exact fine.chMtxLock (other rfl) mp
  | chMtxTryLock mp => exact fine.chMtxTryLock mp
  | chMtxUnlock mp => exact fine.chMtxUnlock mp
  | chMtxUnlockAll => exact fine.chMtxUnlockAll
  | chCondSignal cp => exact fine.wakeupFirst _ MSG_OK
  | chCondBroadcast cp => exact (Calm.chCondBroadcastI fine.1 cp).inv.reschedule
  | chCondWait cp => exact fine.condWait (other rfl) cp _ _
  | chCondWaitTimeout cp time => exact fine.condWait (other rfl) cp _ _
  | chEvtRegisterMaskWithFlags esp elp events wflags =>
      exact fine.congr rfl rfl rfl rfl rfl
  | chEvtUnregister esp elp => exact fine.congr rfl rfl rfl rfl rfl
  | chEvtGetAndClearFlags elp => exact fine.congr rfl rfl rfl rfl rfl
  | chEvtGetAndClearEvents events => exact fine.congr rfl rfl rfl rfl rfl
  | chEvtAddEvents events => exact fine.congr rfl rfl rfl rfl rfl
  | chEvtSignal tp events => exact (Calm.chEvtSignalI fine.1 tp events).inv.reschedule
  | chEvtBroadcastFlags esp flags =>
      exact (Calm.chEvtBroadcastFlagsI fine.1 esp flags).inv.reschedule
  | chEvtWait kind events => exact fine.chEvtWait (other rfl) kind events
  | chEvtWaitTimeout kind events time => exact fine.chEvtWaitTimeout (other rfl) kind events time
  | chMBReset mbp => exact (Calm.chMBResetI fine.1 mbp).inv.reschedule
  | chMBPost mbp timeout => exact fine.transfer (other rfl) _ _ timeout
  | chMBPostAhead mbp timeout => exact fine.transfer (other rfl) _ _ timeout
  | chMBFetch mbp timeout => exact fine.transfer (other rfl) _ _ timeout
  | chMsgSend tp => exact fine.1.chMsgSend (other rfl) tp
  | chMsgWait => exact fine.chMsgWait (other rfl)
  | chMsgRelease tp msg =>
      have waiting : s.core.waiting tp = some .SNDMSG := Core.waiting_eq_some.mpr able
      apply fine.wakeup
      · rw [waiting]
        simp
      · rw [waiting]
        rfl

/-! ### The rest of a call -/

omit [DecidableEq O] in
theorem Fine.leave (fine : Fine idle s) : Fine idle s.leave := ⟨fine.1.leave, fine.2⟩

theorem Fine.resume [Fintype T] (fine : Fine idle s) (inside : s.pc s.core.currp ≠ .outside) :
    Fine idle s.resume := by
  have other : s.core.currp ≠ idle := by
    intro eq
    rw [eq] at inside
    exact inside fine.1.idle
  unfold Rt.resume
  dsimp only
  split
  · exact fine
  · exact fine.leave
  · split
    · exact (Calm.chSemSignalI fine.1.leave _).inv.reschedule
    · exact fine.leave
  · split
    · exact fine.leave
    · exact fine.leave.chMtxLock other _
  · split
    · exact fine.leave
    · exact fine.leave.takeEvents _ _
  · exact fine.leave.receive

/-! ### Interrupt handlers -/

omit [DecidableEq O] in
/-- A timer is taken off the list. -/
theorem Inv.disarm (inv : Inv idle s) (tp : T) :
    Inv idle { s with timer := Function.update s.timer tp false } := by
  refine ⟨inv.core, inv.held, inv.real, ?_, inv.idle⟩
  intro t armed
  change Function.update s.timer tp false t = true at armed
  by_cases same : t = tp
  · rw [same, Function.update_self] at armed
    cases armed
  · rw [Function.update_of_ne same] at armed
    exact inv.timer t armed

omit [DecidableEq O] in
/-- A thread with a timer that is on none of these queues is on no queue. -/
theorem Inv.off_queue (inv : Inv idle s) (current : tp ≠ s.core.currp)
    (timed : ∀ w, s.core.waiting tp = some w → w.timed = true)
    (ready : s.core.p_state tp ≠ .READY) (suspended : ∀ trp, s.core.p_state tp ≠ .WAIT (.SUSPENDED trp))
    (sem : ∀ sp, s.core.p_state tp ≠ .WAIT (.WTSEM sp))
    (cond : ∀ cp, s.core.p_state tp ≠ .WAIT (.WTCOND cp)) :
    ∃ w, s.core.waiting tp = some w ∧ w.queue = none := by
  cases waiting : s.core.waiting tp with
  | none =>
      rcases Core.waiting_eq_none.mp waiting with state | state
      · exact absurd state ready
      · exact absurd ((inv.core.inv.current tp).mp state) current
  | some w =>
      have state := Core.waiting_eq_some.mp waiting
      have long := timed w waiting
      refine ⟨w, rfl, ?_⟩
      cases w with
      | SUSPENDED trp => exact absurd state (suspended trp)
      | WTSEM sp => exact absurd state (sem sp)
      | WTCOND cp => exact absurd state (cond cp)
      | WTMTX mp => cases long
      | WTEXIT tp => cases long
      | SNDMSGQ tp => cases long
      | _ => rfl

/-- The callback finds the thread asleep in a call with a timeout, or already ready. -/
theorem Calm.wakeup (inv : Inv idle s) (current : tp ≠ s.core.currp)
    (timed : ∀ w, s.core.waiting tp = some w → w.timed = true) : Calm idle s (s.wakeup tp) := by
  have good : Rousing (O := O) idle (msgReady MSG_TIMEOUT) := rousing_msgReady MSG_TIMEOUT
  have erase : ∀ {q : RtQueue T O} {l : List T} {w : RtWait T O}, s.core.p_state tp = .WAIT w →
    w.queue = some q →
      l.Sublist (s.queue q) → tp ∉ l →
      Inv idle { s with
        queue := Function.update s.queue q l
        core := msgReady MSG_TIMEOUT s.core tp } := by
    intro q l w state place sub absent
    have waiting : s.core.waiting tp = some w := Core.waiting_eq_some.mpr state
    have rouses := good _ _ inv.core (by rw [waiting]; simp : s.core.waiting tp ≠ none)
    apply inv.rouse rouses
    apply inv.held.leave _ sub absent fun _ other => rouses.other other
    rw [waiting]
    exact place
  unfold Rt.wakeup
  dsimp only
  split
  · exact .refl inv
  · rename_i trp state
    exact ⟨erase state rfl (List.nil_sublist _) List.not_mem_nil, rfl, fun _ out => out⟩
  · rename_i sp state
    have woken := erase state rfl List.erase_sublist (inv.held.nodup _).not_mem_erase
    exact ⟨woken.congr rfl rfl rfl rfl rfl, rfl, fun _ out => out⟩
  · rename_i cp state
    exact ⟨erase state rfl List.erase_sublist (inv.held.nodup _).not_mem_erase, rfl,
      fun _ out => out⟩
  · rename_i ready suspended sem cond
    obtain ⟨w, waiting, off⟩ := inv.off_queue current timed ready suspended sem cond
    refine ⟨inv.wakes good ?_ ?_, rfl, fun _ out => out⟩
    · rw [waiting]
      simp
    · rw [waiting]
      exact off

theorem Calm.isr (inv : Inv idle s) (out : s.pc s.core.currp = .outside) {op : Isr T O}
    (meets : s.Meets op) :
    Calm idle s (s.isr op) := by
  cases op with
  | chThdCreateI tp prio => exact .create inv meets.1 meets.2
  | chThdStartI tp =>
      have waiting : s.core.waiting tp = some .WTSTART := Core.waiting_eq_some.mpr meets
      refine ⟨inv.wakes rousing_readyI ?_ ?_, rfl, fun _ out => out⟩
      · rw [waiting]
        simp
      · rw [waiting]
        rfl
  | chThdResumeI trp msg => exact .wakeFirst inv (rousing_msgReady msg) (fun _ _ => rfl) _
  | chSemResetI sp n => exact .chSemResetI inv sp n
  | chSemSignalI sp => exact .chSemSignalI inv sp
  | chSemAddCounterI sp n => exact .chSemAddCounterI inv sp n
  | chBSemSignalI sp => exact .chBSemSignalI inv sp
  | chCondSignalI cp => exact .wakeFirst inv (rousing_msgReady MSG_OK) (fun _ _ => rfl) _
  | chCondBroadcastI cp => exact .chCondBroadcastI inv cp
  | chEvtSignalI tp events => exact .chEvtSignalI inv tp events
  | chEvtBroadcastFlagsI esp flags => exact .chEvtBroadcastFlagsI inv esp flags
  | chMBResetI mbp => exact .chMBResetI inv mbp
  | chMBPostI mbp => exact .transferI inv _ _
  | chMBFetchI mbp => exact .transferI inv _ _
  | tick =>
      refine ⟨inv.quiet inv.core.tick, ?_, fun _ out => out⟩
      change s.core.tick.currp = s.core.currp
      unfold Core.tick
      split <;> rfl
  | timeout tp =>
      have armed := inv.timer tp meets
      have current : tp ≠ s.core.currp := by
        rintro rfl
        exact armed.1 out
      have fired := Calm.wakeup (inv.disarm tp) current armed.2
      exact ⟨fired.inv, fired.currp, fired.pc⟩

theorem Calm.handles (inv : Inv idle s) (out : s.pc s.core.currp = .outside)
    (handles : s.Handles s') : Calm idle s s' := by
  induction handles with
  | refl => exact .refl inv
  | tail _ step ih =>
      obtain ⟨op, meets, rfl⟩ := step
      refine ih.trans (.isr ih.inv ?_ meets)
      rw [ih.currp]
      exact ih.pc _ out

/-! ### Runs -/

theorem Fine.step [Fintype T] {c : Option (Call T O)} (fine : Fine idle s) (careful : Careful c s)
    (step : Step idle c s s') :
    Fine idle s' := by
  cases step with
  | call c out other able => exact fine.call careful able other
  | resume inside => exact fine.resume inside
  | interrupt out handles =>
      have calm := Calm.handles fine.1 out handles
      exact ⟨calm.inv.quiet calm.inv.core.epilogue, Core.ordered_epilogue calm.inv.core.inv.sorted⟩

omit [DecidableEq O] in
theorem Start.fine (start : Start idle s) : Fine idle s := by
  refine ⟨⟨start.core, ⟨?_, ?_⟩, ?_, ?_, start.pc idle⟩, start.ordered⟩
  · intro q t mem
    rw [start.queue] at mem
    cases mem
  · intro q
    rw [start.queue]
    exact List.nodup_nil
  · intro t
    rw [start.real]
    exact start.core.pos t
  · intro t armed
    rw [start.timer] at armed
    cases armed

/-- In every run in which `chThdStart` is called only for threads that are not above their
caller, the thread that runs is never below the first ready thread when the kernel is
unlocked. -/
theorem strict_priority [Fintype T] (idle : T) (s : Rt T O) (reach : Reach Careful idle s) :
    s.core.firstprio ≤ s.core.p_prio s.core.currp := by
  obtain ⟨s₀, start, run⟩ := reach
  have fine : Fine idle s := by
    induction run with
    | refl => exact start.fine
    | tail _ step ih =>
        obtain ⟨c, careful, step⟩ := step
        exact ih.step careful step
  exact fine.2

/-! ### An example -/

/-- The idle thread, the main thread, and an area for one more thread. -/
def sampleStart : Rt (Fin 3) Unit where
  core :=
    { p_prio := ![ IDLEPRIO, 128, IDLEPRIO]
      p_state := ![.READY, .CURRENT, .WAIT .UNUSED]
      p_preempt := fun _ => CH_CFG_TIME_QUANTUM
      rdymsg := fun _ => MSG_OK
      ready := [0]
      currp := 1
      log := [] }
  p_realprio := ![ IDLEPRIO, 128, IDLEPRIO]
  queue := fun _ => []
  s_cnt := fun _ => 0
  m_owner := fun _ => none
  p_mtxlist := fun _ => []
  p_epending := fun _ => 0
  es_next := fun _ => []
  el := fun _ => { el_listener := 1, el_events := 0, el_flags := 0, el_wflags := 0 }
  mb_size := fun _ => 1
  timer := fun _ => false
  pc := fun _ => .outside

theorem sampleStart_start : Start 0 sampleStart where
  core :=
    { inv :=
        { sorted := by simp [Prio.Descending, sampleStart]
          nodup := by decide
          mem_ready := by decide
          current := by decide
          awake := by decide }
      pos := by decide }
  ordered := by decide
  asleep := by
    intro t w waiting
    fin_cases t
    · cases waiting
    · cases waiting
    · cases waiting
      rfl
  real := by decide
  queue _ := rfl
  timer _ := rfl
  pc _ := rfl

/-- The main thread makes a thread and starts it. -/
def sampleStarted (prio : Nat) : Rt (Fin 3) Unit := (sampleStart.chThdCreateI 2 prio).chThdStart 2

theorem sampleStarted_reach {ok : Option (Call (Fin 3) Unit) → Rt (Fin 3) Unit → Prop} {prio : Nat}
    (pos : NOPRIO < prio) (create : ok (some (.chThdCreateI 2 prio)) sampleStart)
    (start : ok (some (.chThdStart 2)) (sampleStart.chThdCreateI 2 prio)) :
    Reach ok 0 (sampleStarted prio) := by
  refine ⟨sampleStart, sampleStart_start, ?_⟩
  have created : Step 0 (some (.chThdCreateI 2 prio)) sampleStart
      (sampleStart.chThdCreateI 2 prio) :=
    .call _ rfl (by rintro ⟨⟩) ⟨.inl rfl, pos⟩
  have started : Step 0 (some (.chThdStart 2)) (sampleStart.chThdCreateI 2 prio)
      (sampleStarted prio) :=
    .call _ rfl (by rintro ⟨⟩) rfl
  exact (Relation.ReflTransGen.single ⟨_, create, created⟩).tail ⟨_, start, started⟩

/-- A thread at the priority of the main thread waits for its turn. -/
theorem sampleStarted_ordered :
    Reach Careful 0 (sampleStarted 128) ∧
      (sampleStarted 128).core.firstprio ≤
        (sampleStarted 128).core.p_prio (sampleStarted 128).core.currp := by
  have reach : Reach Careful 0 (sampleStarted 128) := by
    apply sampleStarted_reach (by decide)
    · rintro tp ⟨⟩
    · rintro tp ⟨⟩
      decide
  exact ⟨reach, strict_priority 0 _ reach⟩

/-- A thread above the main thread is ready when `chThdStart` returns, and does not run. -/
theorem sampleStarted_violates :
    ¬ ∀ s : Rt (Fin 3) Unit, Reach (fun _ _ => True) 0 s →
      s.core.firstprio ≤ s.core.p_prio s.core.currp := by
  intro ordered
  have reach : Reach (fun _ _ => True) 0 (sampleStarted 129) :=
    sampleStarted_reach (by decide) trivial trivial
  exact absurd (ordered _ reach) (by decide)

end Rt

end LtcOs.Kernel
