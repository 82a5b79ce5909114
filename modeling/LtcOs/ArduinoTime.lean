import LtcOs.Kernel.Timeout

/-!
Sleeping for a time (`arduino-time.c`, `threadSleepUntil` of `arduino-chibios.c`, and the calls of
`chthreads.c` below them) with a tick of a millisecond.

A thread in the state `SLEEPING` is woken by its timer and by nothing else, so a sleep lasts the
ticks that its timer was set for. The conversions to ticks wrap around in 32 bits, and 0 and
`TIME_INFINITE` are no times for a timer.
-/

namespace LtcOs.Arduino.Time

open LtcOs.Kernel LtcOs.Kernel.Sleepers

/-! ### The calls -/

def MS2ST (msec : UInt32) : UInt32 := (msec * 1000 + 999) / 1000

def US2ST (usec : UInt32) : UInt32 := (usec * 1000 + 999999) / 1000000

section Code

variable {T V O : Type} [DecidableEq T] [DecidableEq V]

def chThdSleep (s : Sleepers T V O) (fuel : Nat) (time : UInt32) : Option (Sleepers T V O) :=
  s.chThdSleepS fuel time

def chThdSleepUntil (s : Sleepers T V O) (fuel : Nat) (time : UInt32) : Option (Sleepers T V O) :=
  let time := time - s.vts.vt.vt_systime
  if time > 0 then s.chThdSleepS fuel time else some s

def delay (s : Sleepers T V O) (fuel : Nat) (msecs : UInt32) : Option (Sleepers T V O) :=
  chThdSleep s fuel (MS2ST msecs)

def delayMicroseconds (s : Sleepers T V O) (fuel : Nat) (usecs : UInt32) :
    Option (Sleepers T V O) :=
  chThdSleep s fuel (US2ST usecs)

def threadSleepUntil (s : Sleepers T V O) (fuel : Nat) (time : UInt32) : Option (Sleepers T V O) :=
  chThdSleepUntil s fuel time

end Code

/-- A call with its argument. -/
inductive Call where
  | delay (msecs : UInt32)
  | delayMicroseconds (usecs : UInt32)
  | threadSleepUntil (time : UInt32)
  deriving DecidableEq, Repr

namespace Call

def run {T V O : Type} [DecidableEq T] [DecidableEq V] :
    Call → Sleepers T V O → (fuel : Nat) → Option (Sleepers T V O)
  | .delay msecs, s, fuel => Time.delay s fuel msecs
  | .delayMicroseconds usecs, s, fuel => Time.delayMicroseconds s fuel usecs
  | .threadSleepUntil time, s, fuel => Time.threadSleepUntil s fuel time

/-- The ticks after which the thread may be woken first, at a system time. -/
def least (systime : UInt32) : Call → Nat
  | .delay msecs => msecs.toNat
  | .delayMicroseconds usecs => (usecs.toNat + 999) / 1000
  | .threadSleepUntil time => (time - systime).toNat

/-- The ticks after which the thread is to be ready. -/
def most (systime : UInt32) : Call → Nat
  | .delay msecs => msecs.toNat + 1
  | .delayMicroseconds usecs => (usecs.toNat + 999) / 1000 + 1
  | .threadSleepUntil time => (time - systime).toNat

/-- The arguments with a time for the timer that is not another one by a wrap-around. -/
def Fits (systime : UInt32) : Call → Prop
  | .delay msecs => 1 ≤ msecs.toNat ∧ msecs.toNat ≤ 4294966
  | .delayMicroseconds usecs => 1 ≤ usecs.toNat ∧ usecs.toNat ≤ 4293967
  | .threadSleepUntil time => time - systime ≠ TIME_INFINITE

end Call

/-! ### Waking on time -/

section Waking

variable {T V O : Type} [DecidableEq T] [DecidableEq V] [DecidableEq O]

def Asleep (s : Sleepers T V O) (t : T) : Prop := s.core.waiting t = some .SLEEPING

/-- A run in which a thread stays asleep. -/
def Dreams (idle t : T) : Sleepers T V O → Sleepers T V O → Prop :=
  Relation.ReflTransGen fun s s' => Step idle s s' ∧ Asleep s' t

/-- In every run a sleeping thread becomes ready, after at least `least` and at most `most` ticks. -/
structure Wakes (idle t : T) (least most : Nat) (s : Sleepers T V O) : Prop where
  asleep : ∀ s', Dreams idle t s s' → s'.vts.ticks ≤ s.vts.ticks + most ∧
    (s'.vts.mode = .idle → s'.vts.ticks < s.vts.ticks + most)
  woken : ∀ s' s'', Dreams idle t s s' → Step idle s' s'' → ¬ Asleep s'' t →
    s''.core.p_state t = .READY ∧ s.vts.ticks + least ≤ s''.vts.ticks ∧
      s''.vts.ticks ≤ s.vts.ticks + most

/-- A call returns at once, or the thread sleeps and wakes on time. -/
def OnTime (idle : T) (least most : Nat) (s s' : Sleepers T V O) : Prop :=
  (s' = s ∧ least = 0) ∨
    (Asleep s' s.core.currp ∧ s'.vts.ticks = s.vts.ticks ∧ Wakes idle s.core.currp least most s')

end Waking

/-- A call is carried out on time by any thread but the idle thread, in every state at a system
time that can be reached. -/
def Call.OnTime (systime : UInt32) (c : Call) : Prop :=
  ∀ (T V O : Type) [DecidableEq T] [DecidableEq V] [DecidableEq O] (idle : T) (s : Sleepers T V O),
    Sleepers.Reachable idle s → s.Running → s.core.currp ≠ idle → s.vts.vt.vt_systime = systime →
      (∃ fuel s', c.run s fuel = some s') ∧
        ∀ fuel s', c.run s fuel = some s' → Time.OnTime idle (c.least systime) (c.most systime) s s'

/-! ### A sleeping thread -/

section Sleeping

variable {T V O : Type} [DecidableEq T] [DecidableEq V] [DecidableEq O] {idle t tp : T}
  {s s' : Sleepers T V O} {w : Waits O}

/-- A thread stays asleep with its timer as it is. -/
structure Undisturbed (t : T) (s s' : Sleepers T V O) : Prop where
  asleep : Asleep s' t
  armed : Timers.armedBy (.inl t) s'.vts.log = Timers.armedBy (.inl t) s.vts.log
  ticks : s'.vts.ticks = s.vts.ticks
  fired : s'.fired = s.fired

/-- A thread in another state is woken. -/
theorem release_undisturbed (base : Base idle s) (asleep : Asleep s t) {wake : Wake T O}
    (good : Good idle wake) (waits : s.core.waiting tp = some w) (other : w ≠ .SLEEPING)
    (ref : O → Option T) (cnt : O → Int) (queue : Obj O → List T) (pending : T → BitVec 32)
    (timer : Bool) (msg : Int) :
    Undisturbed t s ({ s with
      ref := ref
      s_cnt := cnt
      queue := queue
      p_epending := pending }.release wake tp timer msg) := by
  have ne : t ≠ tp := by
    rintro rfl
    exact other (Option.some.inj (waits.symm.trans asleep))
  have wakes := good s.core tp msg base.core (by simp [waits])
  refine ⟨?_, rfl, rfl, rfl⟩
  change (wake s.core tp msg).waiting t = _
  rw [wakes.waiting, Function.update_of_ne ne]
  exact asleep

omit [DecidableEq O] in
theorem Undisturbed.trans {s₁ s₂ s₃ : Sleepers T V O} (first : Undisturbed t s₁ s₂)
    (then_asleep : Asleep s₂ t → Undisturbed t s₂ s₃) : Undisturbed t s₁ s₃ := by
  have second := then_asleep first.asleep
  exact ⟨second.asleep, second.armed.trans first.armed, second.ticks.trans first.ticks,
    second.fired.trans first.fired⟩

/-- A thread on a queue is no sleeping one. -/
theorem wakeFirst_undisturbed (base : Base idle s) (asleep : Asleep s t) {wake : Wake T O}
    (good : Good idle wake) (cnt : O → Int) (q : Obj O) (msg : Int) :
    Undisturbed t s ({ s with s_cnt := cnt }.wakeFirst wake q msg) := by
  unfold Sleepers.wakeFirst
  split
  · exact ⟨asleep, rfl, rfl, rfl⟩
  · next tp rest queue =>
    change s.queue q = tp :: rest at queue
    have mem : tp ∈ s.queue q := by simp [queue]
    obtain ⟨w, waits, obj, -, -⟩ := waits_of_place (base.queued.place_eq mem)
    have other : w ≠ .SLEEPING := by
      rintro rfl
      cases obj
    exact release_undisturbed base asleep good waits other s.ref cnt _ s.p_epending false msg

theorem wakeAll_undisturbed (going : Going idle s) (asleep : Asleep s t) {wake : Wake T O}
    (good : Good idle wake) (keeps : Keeps wake) (q : Obj O) (msg : Int) (rounds : Nat) :
    Undisturbed t s (wakeAll wake q msg rounds s) := by
  induction rounds generalizing s with
  | zero => exact ⟨asleep, rfl, rfl, rfl⟩
  | succ rounds ih =>
      exact (wakeFirst_undisturbed going.base asleep good s.s_cnt q msg).trans fun still =>
        ih (going.wakeFirst good keeps s.s_cnt q msg) still

theorem signalWith_undisturbed (base : Base idle s) (asleep : Asleep s t) {wake : Wake T O}
    (good : Good idle wake) (sp : O) : Undisturbed t s (Sleepers.signalWith wake s sp) := by
  unfold Sleepers.signalWith
  dsimp only
  split
  · exact wakeFirst_undisturbed base asleep good _ _ _
  · exact ⟨asleep, rfl, rfl, rfl⟩

theorem chSemAddCounterI_undisturbed (going : Going idle s) (asleep : Asleep s t) (sp : O) (n : Nat) :
    Undisturbed t s (s.chSemAddCounterI sp n) := by
  induction n with
  | zero => exact ⟨asleep, rfl, rfl, rfl⟩
  | succ n ih =>
      exact ih.trans fun still =>
        signalWith_undisturbed (going.chSemAddCounterI sp n).base still (good_readyMsg idle) sp

theorem resetLoop_undisturbed (going : Going idle s) (asleep : Asleep s t) (sp : O) (rounds : Nat) :
    Undisturbed t s (resetLoop sp rounds s) := by
  induction rounds generalizing s with
  | zero => exact ⟨asleep, rfl, rfl, rfl⟩
  | succ rounds ih =>
      have next := going.resetLoop sp 1
      unfold Sleepers.resetLoop at next ⊢
      split
      · exact ⟨asleep, rfl, rfl, rfl⟩
      · next tp last =>
        have mem : tp ∈ s.queue (.sem sp) := List.mem_of_getLast? last
        obtain ⟨w, waits, obj, -, -⟩ := waits_of_place (going.base.queued.place_eq mem)
        have other : w ≠ .SLEEPING := by
          rintro rfl
          cases obj
        rw [last] at next
        exact (release_undisturbed going.base asleep (good_readyMsg idle) waits other s.ref s.s_cnt _
          s.p_epending false MSG_RESET).trans fun still => ih next still

theorem resumeWith_undisturbed (base : Base idle s) (asleep : Asleep s t) {wake : Wake T O}
    (good : Good idle wake) (trp : O) (msg : Int) :
    Undisturbed t s (resumeWith wake s trp msg) := by
  unfold Sleepers.resumeWith
  split
  · exact ⟨asleep, rfl, rfl, rfl⟩
  · next tp held =>
    exact release_undisturbed base asleep good ((base.refs trp tp).mp held)
      (by simp) _ s.s_cnt s.queue
      s.p_epending false msg

theorem chEvtSignalI_undisturbed (base : Base idle s) (asleep : Asleep s t) (tp : T)
    (events : BitVec 32) : Undisturbed t s (s.chEvtSignalI tp events) := by
  have signalled : ∀ w, s.core.p_state tp = .WAIT w → w ≠ .SLEEPING → ∀ pending,
      Undisturbed t s ({ s with p_epending := pending }.release msgReady tp false MSG_OK) :=
    fun w state other pending => release_undisturbed base asleep (good_msgReady idle)
      (Core.waiting_eq_some.mpr state) other s.ref s.s_cnt s.queue pending false MSG_OK
  unfold Sleepers.chEvtSignalI
  dsimp only
  split
  · next ewmask state =>
    split
    · exact signalled _ state (by simp) _
    · exact ⟨asleep, rfl, rfl, rfl⟩
  · next ewmask state =>
    split
    · exact signalled _ state (by simp) _
    · exact ⟨asleep, rfl, rfl, rfl⟩
  · exact ⟨asleep, rfl, rfl, rfl⟩

theorem wakes_other_undisturbed (base : Base idle s) (asleep : Asleep s t) {wake : Wake T O}
    (good : Good idle wake) (waits : s.core.waiting tp = some .OTHER) (msg : Int) :
    Undisturbed t s { s with core := wake s.core tp msg } := by
  have released := release_undisturbed base asleep good waits (by simp) s.ref s.s_cnt s.queue
    s.p_epending false msg
  exact ⟨released.asleep, rfl, rfl, rfl⟩

theorem wakeI_undisturbed (base : Base idle s) (out : s.pc s.core.currp = none) (wake : WakeI s s')
    (asleep : Asleep s t) : Undisturbed t s s' := by
  have going : Going idle s := ⟨base, out⟩
  have good := good_msgReady (O := O) idle
  have keeps : Keeps (msgReady : Wake T O) := keeps_msgReady
  cases wake with
  | resumeI trp msg => exact resumeWith_undisturbed base asleep good trp msg
  | semSignalI sp => exact signalWith_undisturbed base asleep good sp
  | semAddCounterI sp n => exact chSemAddCounterI_undisturbed going asleep sp n
  | semResetI sp n =>
      have started : Going idle { s with s_cnt := Function.update s.s_cnt sp n } :=
        ⟨base.setCnt _, out⟩
      have reset := resetLoop_undisturbed started asleep sp (-s.s_cnt sp).toNat
      exact ⟨reset.asleep, reset.armed, reset.ticks, reset.fired⟩
  | condSignalI cp => exact wakeFirst_undisturbed base asleep good s.s_cnt _ _
  | condBroadcastI cp =>
      exact wakeAll_undisturbed going asleep (good_readyMsg idle) keeps_readyMsg _ _ _
  | dequeueNextI tqp msg => exact wakeFirst_undisturbed base asleep good s.s_cnt _ _
  | dequeueAllI tqp msg => exact wakeAll_undisturbed going asleep good keeps _ _ _
  | evtSignalI tp events => exact chEvtSignalI_undisturbed base asleep tp events
  | other tp msg waits => exact wakes_other_undisturbed base asleep good waits msg

theorem wakeS_undisturbed (base : Base idle s) (wake : WakeS s s') (asleep : Asleep s t) :
    Undisturbed t s s' := by
  have good := good_wakeupS (O := O) idle
  cases wake with
  | resumeS trp msg => exact resumeWith_undisturbed base asleep good trp msg
  | semSignal sp => exact signalWith_undisturbed base asleep good sp
  | condSignal cp => exact wakeFirst_undisturbed base asleep good s.s_cnt _ _
  | other tp msg waits => exact wakes_other_undisturbed base asleep good waits msg

omit [DecidableEq O] in
/-- Another thread goes to sleep. -/
theorem chSchGoSleepTimeoutS_undisturbed {s₀ : Sleepers T V O} {fuel : Nat} {time : UInt32}
    (result : s₀.chSchGoSleepTimeoutS fuel w time = some s') (core : s₀.core = s.core)
    (vts : s₀.vts = s.vts) (fired : s₀.fired = s.fired) (sound : s.core.Sound idle)
    (asleep : Asleep s t) (other : s.core.currp ≠ idle) : Undisturbed t s s' := by
  have ne : s.core.currp ≠ t := sound.asleep_ne (by simp [show s.core.waiting t = _ from asleep])
  have still : (s₀.core.chSchGoSleepS w).waiting t = some .SLEEPING := by
    rw [core, (sound.goSleep other w).waiting, Function.update_of_ne ne.symm]
    exact asleep
  have ticks : s₀.vts.ticks = s.vts.ticks := congrArg _ vts
  unfold Sleepers.chSchGoSleepTimeoutS Sleepers.setTimer at result
  split_ifs at result
  · obtain ⟨s₁, set, rfl⟩ := Option.map_eq_some_iff.mp result
    obtain ⟨vt, -, rfl⟩ := Option.map_eq_some_iff.mp set
    refine ⟨still, ?_, ticks, fired⟩
    change Timers.armedBy (.inl t) (s₀.vts.log ++ [.set _ (.inl s₀.core.currp) _ _ _]) = _
    rw [Timers.armedBy_concat, vts, core]
    apply Timers.arm_of_ne
    intro same
    exact ne (Sum.inl.inj same)
  · cases result
    refine ⟨still, ?_, ticks, fired⟩
    change Timers.armedBy (.inl t) s₀.vts.log = _
    rw [vts]

theorem sleep_undisturbed (base : Base idle s) (asleep : Asleep s t) (other : s.core.currp ≠ idle)
    (sleep : Sleep s s') : Undisturbed t s s' := by
  rcases sleep.cases with ⟨cnt, rfl⟩ | ⟨s₀, fuel, w, time, result, core, vts, fired, -⟩
  · exact ⟨asleep, rfl, rfl, rfl⟩
  · exact chSchGoSleepTimeoutS_undisturbed result core vts fired base.core asleep other

/-! ### Its timer -/

/-- The thread sleeps until the tick `due`: its timer is set for it, or its callback is called in
it. -/
structure Sleeps (t : T) (due : Nat) (s : Sleepers T V O) : Prop where
  asleep : Asleep s t
  timer : Timers.armedBy (.inl t) s.vts.log = some (due, Vtfunc.wakeup, t) ∨
    (s.fired = some t ∧ s.vts.ticks = due)

variable {due : Nat}

omit [DecidableEq O] in
theorem Sleeps.undisturbed (sleeps : Sleeps t due s) (quiet : Undisturbed t s s') :
    Sleeps t due s' := by
  refine ⟨quiet.asleep, ?_⟩
  rw [quiet.armed, quiet.fired, quiet.ticks]
  exact sleeps.timer

/-- The tick is not over. -/
theorem Sleeps.not_overdue (sleeps : Sleeps t due s) (base : Base idle s) :
    s.vts.ticks ≤ due ∧ (s.vts.mode = .idle → s.vts.ticks < due) := by
  rcases sleeps.timer with armed | ⟨fired, ticks⟩
  · obtain ⟨l, inv⟩ := base.timers
    exact inv.not_overdue armed
  · refine ⟨ticks.le, fun calm => ?_⟩
    have mode := (base.fired t fired).1
    rw [calm] at mode
    cases mode

/-- While no callback is on its way, the thread has its timer. -/
theorem Sleeps.armed (sleeps : Sleeps t due s) (base : Base idle s) (other : s.vts.mode ≠ .callback) :
    Timers.armedBy (.inl t) s.vts.log = some (due, Vtfunc.wakeup, t) := by
  rcases sleeps.timer with armed | ⟨fired, -⟩
  · exact armed
  · exact absurd (base.fired t fired).1 other

omit [DecidableEq O] in
/-- Another thread returns from its sleep. -/
theorem resume_undisturbed (ne : s.core.currp ≠ t) (asleep : Asleep s t) (time : UInt32) :
    Undisturbed t s (s.resume time) := by
  obtain ⟨core, -, -, fired, -⟩ := resume_rest s time
  have still : Asleep (s.resume time) t := by
    rw [Asleep, core]
    exact asleep
  unfold Sleepers.resume at still fired ⊢
  dsimp only at still fired ⊢
  split
  · refine ⟨asleep, ?_, rfl, rfl⟩
    change Timers.armedBy (.inl t) (s.vts.log ++ [.reset _ (.inl s.core.currp)]) = _
    rw [Timers.armedBy_concat]
    apply Timers.arm_of_ne
    intro same
    exact ne (Sum.inl.inj same)
  · exact ⟨asleep, rfl, rfl, rfl⟩

omit [DecidableEq V] in
theorem wakeup_vts (s : Sleepers T V O) (tp : T) : (s.wakeup tp).vts = s.vts := by
  unfold Sleepers.wakeup
  split
  · rfl
  · cases s.core.p_state tp with
    | WAIT w =>
        obtain ⟨cnt, eq⟩ := leave_eq s tp w
        rw [eq]
        rfl
    | _ => rfl

/-- The callback of another thread. -/
theorem wakeup_asleep (base : Base idle s) (fired : s.fired = some tp) (asleep : Asleep s t)
    (ne : t ≠ tp) : Asleep (s.wakeup tp) t := by
  unfold Sleepers.wakeup
  rcases base.fired_cases fired with ⟨w, state, -⟩ | ready
  · have waits := Core.waiting_eq_some.mpr state
    have wakes := good_msgReady idle s.core tp MSG_TIMEOUT base.core (by simp [waits])
    rw [state, if_neg (by simp)]
    obtain ⟨cnt, eq⟩ := leave_eq s tp w
    rw [eq]
    change (msgReady s.core tp MSG_TIMEOUT).waiting t = _
    rw [wakes.waiting, Function.update_of_ne ne]
    exact asleep
  · rw [if_pos ready]
    exact asleep

omit [DecidableEq V] in
theorem callback_ready (asleep : Asleep s t) : (s.callback t).core.p_state t = .READY := by
  have state := Core.waiting_eq_some.mp asleep
  change (s.wakeup t).core.p_state t = _
  rw [Sleepers.wakeup, state, if_neg (by simp)]
  exact Function.update_self _ _ _

omit [DecidableEq V] [DecidableEq O] [DecidableEq T] in
theorem not_asleep_of_ready (ready : s.core.p_state t = .READY) : ¬ Asleep s t := by
  intro asleep
  have state := Core.waiting_eq_some.mp asleep
  rw [ready] at state
  cases state

/-- Its own callback makes the thread ready, in the tick that its timer was set for. -/
theorem Sleeps.callback (sleeps : Sleeps t due s) (base : Base idle s) (fired : s.fired = some t) :
    (s.callback t).core.p_state t = .READY ∧ (s.callback t).vts.ticks = due := by
  refine ⟨callback_ready sleeps.asleep, ?_⟩
  change (s.wakeup t).vts.ticks = due
  rw [wakeup_vts]
  rcases sleeps.timer with armed | ⟨-, ticks⟩
  · obtain ⟨l, inv⟩ := base.timers
    have mem := inv.linked.armed (.inl t) (by rw [armed]; simp)
    exact absurd (base.fired t fired).2.2 ((inv.linked.func _).mpr mem)
  · exact ticks

/-- A step leaves the thread asleep, or it is the callback of its timer. -/
theorem Sleeps.step (sleeps : Sleeps t due s) (base : Base idle s) (step : Step idle s s') :
    Sleeps t due s' ∨ (s'.core.p_state t = .READY ∧ s'.vts.ticks = due) := by
  have asleep := sleeps.asleep
  have ne : s.core.currp ≠ t :=
    base.core.asleep_ne (by simp [show s.core.waiting t = _ from asleep])
  cases step with
  | sleep running other sleep =>
      exact .inl (sleeps.undisturbed (sleep_undisturbed base asleep other sleep))
  | sleepOther running other =>
      refine .inl (sleeps.undisturbed ⟨?_, rfl, rfl, rfl⟩)
      change (s.core.chSchGoSleepS .OTHER).waiting t = _
      rw [(base.core.goSleep other .OTHER).waiting, Function.update_of_ne ne.symm]
      exact asleep
  | resume time inside calm => exact .inl (sleeps.undisturbed (resume_undisturbed ne asleep time))
  | wakeI unlocked wake =>
      exact .inl (sleeps.undisturbed (wakeI_undisturbed base unlocked.1 wake asleep))
  | wakeS running wake => exact .inl (sleeps.undisturbed (wakeS_undisturbed base wake asleep))
  | events running mask => exact .inl (sleeps.undisturbed ⟨asleep, rfl, rfl, rfl⟩)
  | @switch c running switch =>
      refine .inl (sleeps.undisturbed ⟨?_, rfl, rfl, rfl⟩)
      change c.waiting t = _
      rw [(base.core.switch switch).waiting]
      exact asleep
  | set fuel v delay par unlocked unarmed later result =>
      obtain ⟨vt, -, rfl⟩ := Option.map_eq_some_iff.mp result
      refine .inl (sleeps.undisturbed ⟨asleep, ?_, rfl, rfl⟩)
      change Timers.armedBy (.inl t) (s.vts.log ++ [.set _ (.inr v) _ _ _]) = _
      rw [Timers.armedBy_concat]
      exact Timers.arm_of_ne (by simp [Timers.Event.timer]) _
  | reset v unlocked armed =>
      refine .inl (sleeps.undisturbed ⟨asleep, ?_, rfl, rfl⟩)
      change Timers.armedBy (.inl t) (s.vts.log ++ [.reset _ (.inr v)]) = _
      rw [Timers.armedBy_concat]
      exact Timers.arm_of_ne (by simp [Timers.Event.timer]) _
  | tick running =>
      refine .inl ⟨?_, .inl (sleeps.armed base (by simp [running.2]))⟩
      change s.core.tick.waiting t = _
      rw [Core.waiting_tick]
      exact asleep
  | fire vtp fn looping first zero func =>
      have armed := sleeps.armed base (by simp [looping])
      by_cases mine : vtp = .inl t
      · subst mine
        -- the callback is to be called in this tick
        obtain rfl := base.own t fn func
        have par := Sum.inl.inj (base.func _ func)
        obtain ⟨l, inv⟩ := base.timers
        obtain ⟨l', inv'⟩ := Timers.inv_step inv (.fire (.inl t) .wakeup looping first zero func)
        have now := (inv'.log s.vts.log [] _ _ _ _ _ rfl).1
        refine .inl ⟨asleep, .inr ⟨?_, ?_⟩⟩
        · change (if Vtfunc.wakeup = .wakeup then some (s.vts.vt.vt_par (.inl t)) else none) = _
          rw [if_pos rfl, ← par]
        · exact (Prod.mk.inj (Option.some.inj (now.symm.trans armed))).1
      · refine .inl ⟨asleep, .inl ?_⟩
        change Timers.armedBy (.inl t) (s.vts.log ++ [.fire _ vtp _ _ _]) = _
        rw [Timers.armedBy_concat]
        exact (Timers.arm_of_ne (e := .fire _ vtp _ _ _) mine _).trans armed
  | callback tp fired =>
      by_cases mine : tp = t
      · subst mine
        exact .inr (sleeps.callback base fired)
      · refine .inl ⟨?_, ?_⟩
        · exact wakeup_asleep base fired asleep (Ne.symm mine)
        · rcases sleeps.timer with armed | ⟨fired', -⟩
          · refine .inl ?_
            change Timers.armedBy (.inl t) (s.wakeup tp).vts.log = _
            rw [wakeup_vts]
            exact armed
          · exact absurd (Option.some.inj (fired.symm.trans fired')) mine
  | «return» callback called =>
      rcases sleeps.timer with armed | ⟨fired, -⟩
      · exact .inl ⟨asleep, .inl armed⟩
      · rw [called] at fired
        cases fired
  | done looping later => exact .inl ⟨asleep, .inl (sleeps.armed base (by simp [looping]))⟩

/-- As long as the thread sleeps, its timer is on the way. -/
theorem Sleeps.run (sleeps : Sleeps t due s) (base : Base idle s) (dreams : Dreams idle t s s') :
    Sleeps t due s' ∧ Base idle s' := by
  induction dreams with
  | refl => exact ⟨sleeps, base⟩
  | tail _ step ih =>
      obtain ⟨sleeps, base⟩ := ih
      obtain ⟨step, asleep⟩ := step
      refine ⟨?_, step.base base⟩
      rcases sleeps.step base step with still | ⟨ready, -⟩
      · exact still
      · exact absurd asleep (not_asleep_of_ready ready)

/-- A thread wakes in the tick that its timer is set for. -/
theorem Sleeps.wakes (sleeps : Sleeps t due s) (base : Base idle s) {least most : Nat}
    (early : s.vts.ticks + least ≤ due) (late : due ≤ s.vts.ticks + most) :
    Wakes idle t least most s := by
  constructor
  · intro s' dreams
    obtain ⟨sleeps', base'⟩ := sleeps.run base dreams
    obtain ⟨le, lt⟩ := sleeps'.not_overdue base'
    exact ⟨by omega, fun calm => lt_of_lt_of_le (lt calm) late⟩
  · intro s' s'' dreams step awake
    obtain ⟨sleeps', base'⟩ := sleeps.run base dreams
    rcases sleeps'.step base' step with still | ⟨ready, ticks⟩
    · exact absurd still.asleep awake
    · exact ⟨ready, by omega, by omega⟩

/-- The timer of a sleep is set for a number of ticks that is neither 0 nor `TIME_INFINITE`. -/
theorem chThdSleepS_spec (base : Base idle s) (running : s.Running) (other : s.core.currp ≠ idle)
    {time : UInt32} (later : time ≠ TIME_IMMEDIATE) (finite : time ≠ TIME_INFINITE) :
    (∃ fuel s', s.chThdSleepS fuel time = some s') ∧
      ∀ fuel s', s.chThdSleepS fuel time = some s' → s'.vts.ticks = s.vts.ticks ∧ Base idle s' ∧
        Sleeps s.core.currp (s.vts.ticks + time.toNat) s' := by
  constructor
  · obtain ⟨l, inv⟩ := base.timers
    obtain ⟨vt, -, set, -⟩ := Timers.linked_set inv.linked (base.unarmed running.1) later
      (Nat.lt_succ_self _) Vtfunc.wakeup s.core.currp
    have timer : s.setTimer (l.length + 1) (.inl s.core.currp) time .wakeup s.core.currp ≠
        none := by
      rw [Sleepers.setTimer, set]
      simp
    obtain ⟨s', result⟩ := Option.ne_none_iff_exists'.mp timer
    refine ⟨l.length + 1, s'.goSleep .SLEEPING time, ?_⟩
    rw [Sleepers.chThdSleepS, Sleepers.chSchGoSleepTimeoutS, if_pos finite, result]
    rfl
  · intro fuel s' result
    have base' := Sleepers.Sleep.base base running other (.sleep fuel time later result)
    rw [Sleepers.chThdSleepS, Sleepers.chSchGoSleepTimeoutS, if_pos finite] at result
    obtain ⟨s₁, set, rfl⟩ := Option.map_eq_some_iff.mp result
    obtain ⟨vt, -, rfl⟩ := Option.map_eq_some_iff.mp set
    refine ⟨rfl, base', ?_, .inl ?_⟩
    · change (s.core.chSchGoSleepS .SLEEPING).waiting s.core.currp = _
      rw [(base.core.goSleep other .SLEEPING).waiting, Function.update_self]
    · change Timers.armedBy (.inl s.core.currp) (s.vts.log ++ [.set _ (.inl s.core.currp) _ _ _]) =
        _
      rw [Timers.armedBy_concat, Timers.arm_set]

end Sleeping

/-! ### Times that fit -/

section Fitting

variable {systime : UInt32}

theorem toNat_MS2ST (msec : UInt32) :
    (MS2ST msec).toNat = (msec.toNat * 1000 + 999) % 4294967296 / 1000 := by
  simp only [MS2ST, UInt32.toNat_div, UInt32.toNat_add, UInt32.toNat_mul, UInt32.reduceToNat]
  omega

theorem toNat_US2ST (usec : UInt32) :
    (US2ST usec).toNat = (usec.toNat * 1000 + 999999) % 4294967296 / 1000000 := by
  simp only [US2ST, UInt32.toNat_div, UInt32.toNat_add, UInt32.toNat_mul, UInt32.reduceToNat]
  omega

theorem immediate_iff (time : UInt32) : time = TIME_IMMEDIATE ↔ time.toNat = 0 :=
  UInt32.toNat_inj.symm

theorem infinite_iff (time : UInt32) : time = TIME_INFINITE ↔ time.toNat = 4294967295 :=
  UInt32.toNat_inj.symm

/-- A sleep for a number of ticks is on time. -/
theorem chThdSleepS_onTime {T V O : Type} [DecidableEq T] [DecidableEq V] [DecidableEq O] {idle : T}
    {s : Sleepers T V O} (base : Base idle s) (running : s.Running) (other : s.core.currp ≠ idle)
    {time : UInt32} {least most : Nat} (later : time.toNat ≠ 0) (finite : time.toNat ≠ 4294967295)
    (early : least ≤ time.toNat) (late : time.toNat ≤ most) :
    (∃ fuel s', s.chThdSleepS fuel time = some s') ∧
      ∀ fuel s', s.chThdSleepS fuel time = some s' → OnTime idle least most s s' := by
  obtain ⟨returns, spec⟩ := chThdSleepS_spec base running other
    ((immediate_iff time).not.mpr later) ((infinite_iff time).not.mpr finite)
  refine ⟨returns, fun fuel s' result => ?_⟩
  obtain ⟨ticks, base', sleeps⟩ := spec fuel s' result
  exact .inr ⟨sleeps.asleep, ticks, sleeps.wakes base' (by omega) (by omega)⟩

theorem run_threadSleepUntil {T V O : Type} [DecidableEq T] [DecidableEq V] {s : Sleepers T V O}
    (now : s.vts.vt.vt_systime = systime) (time : UInt32) (fuel : Nat) :
    (Call.threadSleepUntil time).run s fuel =
      if time - systime > 0 then s.chThdSleepS fuel (time - systime) else some s := by
  rw [← now]
  rfl

theorem Call.Fits.onTime {c : Call} (fits : c.Fits systime) : c.OnTime systime := by
  intro T V O _ _ _ idle s reachable running other now
  have base := reachable.base
  cases c with
  | delay msecs =>
      obtain ⟨ge, le⟩ := fits
      have ticks : (MS2ST msecs).toNat = msecs.toNat := by
        rw [toNat_MS2ST]
        omega
      exact chThdSleepS_onTime base running other (by omega) (by omega) ticks.ge (by
        rw [ticks]
        exact Nat.le_succ _)
  | delayMicroseconds usecs =>
      obtain ⟨ge, le⟩ := fits
      have ticks : (US2ST usecs).toNat = (usecs.toNat + 999) / 1000 := by
        rw [toNat_US2ST]
        omega
      exact chThdSleepS_onTime base running other (by omega) (by omega) ticks.ge (by
        rw [ticks]
        exact Nat.le_succ _)
  | threadSleepUntil time =>
      have finite : (time - systime).toNat ≠ 4294967295 := (infinite_iff _).not.mp fits
      simp only [run_threadSleepUntil now]
      by_cases later : time - systime > 0
      · have positive : (time - systime).toNat ≠ 0 := (UInt32.lt_iff_toNat_lt.mp later).ne'
        simp only [if_pos later]
        exact chThdSleepS_onTime base running other positive finite (le_refl _) (le_refl _)
      · have zero : (time - systime).toNat = 0 := by
          have := UInt32.lt_iff_toNat_lt.not.mp later
          rw [UInt32.toNat_zero] at this
          omega
        simp only [if_neg later]
        refine ⟨⟨0, s, rfl⟩, fun fuel s' result => .inl ⟨?_, zero⟩⟩
        exact (Option.some.inj result).symm

end Fitting

/-! ### Times that do not fit -/

section Failing

variable {T V O : Type} [DecidableEq T] [DecidableEq V] [DecidableEq O] {idle t : T}
  {s : Sleepers T V O}

/-- A thread sleeps while no other one does anything, with `delta` ticks to the first timer of the
list, or no timer on it. -/
structure Alone (t : T) (first : Option (T ⊕ V)) (delta : UInt32) (n : Nat) (s : Sleepers T V O) :
    Prop where
  asleep : Asleep s t
  out : s.pc s.core.currp = none
  calm : s.vts.mode = .idle
  ticks : s.vts.ticks = n
  next : s.vts.vt.links.next none = first
  delta : s.vts.vt.vt_delta first = delta
  func : ∀ v, first = some v →
      v = .inl t ∧ s.vts.vt.vt_func v = some .wakeup ∧ s.vts.vt.vt_par v = t

/-- The ticks that are left after a tick. -/
def elapse (first : Option (T ⊕ V)) (delta : UInt32) : UInt32 :=
  if first = none then delta else delta - 1

omit [DecidableEq T] [DecidableEq V] [DecidableEq O] in
theorem tick_currp (c : Core T (Waits O)) [DecidableEq T] : c.tick.currp = c.currp := by
  unfold Core.tick
  split <;> rfl

variable {first : Option (T ⊕ V)} {delta : UInt32} {n : Nat}

omit [DecidableEq O] in
/-- The timers in the loop of a tick. -/
theorem Alone.ticked (alone : Alone t first delta n s) :
    Asleep s.tick t ∧ s.tick.pc s.tick.core.currp = none ∧ s.tick.vts.ticks = n + 1 ∧
      s.tick.vts.vt.links.next none = first ∧
      s.tick.vts.vt.vt_delta first = elapse first delta ∧
      ∀ v, first = some v → v = .inl t ∧ s.tick.vts.vt.vt_func v = some .wakeup ∧
        s.tick.vts.vt.vt_par v = t := by
  refine ⟨?_, ?_, congrArg (· + 1) alone.ticks, ?_, ?_, ?_⟩
  · change s.core.tick.waiting t = _
    rw [Core.waiting_tick]
    exact alone.asleep
  · change s.pc s.core.tick.currp = none
    rw [tick_currp]
    exact alone.out
  · change s.vts.vt.tick.links.next none = first
    rw [← alone.next]
    unfold Timers.VtList.tick
    dsimp only
    split <;> rfl
  · change s.vts.vt.tick.vt_delta first = _
    rw [elapse, ← alone.delta, ← alone.next]
    unfold Timers.VtList.tick
    dsimp only
    by_cases empty : s.vts.vt.links.next none = none
    · rw [if_neg (not_not.mpr empty.symm), if_pos empty]
    · rw [if_pos (Ne.symm empty), if_neg empty]
      exact Function.update_self _ _ _
  · intro v is
    obtain ⟨own, func, par⟩ := alone.func v is
    refine ⟨own, ?_, ?_⟩
    · change s.vts.vt.tick.vt_func v = _
      rw [tick_func]
      exact func
    · change s.vts.vt.tick.vt_par v = _
      rw [tick_par]
      exact par

/-- A tick in which no timer is due. -/
theorem Alone.tick (idle : T) (alone : Alone t first delta n s) (later : elapse first delta ≠ 0) :
    ∃ s', Dreams idle t s s' ∧ Alone t first (elapse first delta) (n + 1) s' := by
  obtain ⟨asleep, out, ticks, next, left, func⟩ := alone.ticked
  refine ⟨s.tick.setMode .idle, ?_, ⟨asleep, out, rfl, ticks, next, left, func⟩⟩
  have start : Step idle s s.tick := .tick ⟨alone.out, alone.calm⟩
  have finish : Step idle s.tick (s.tick.setMode .idle) := by
    refine .done rfl ?_
    rw [next, left]
    exact later
  exact (Relation.ReflTransGen.single ⟨start, asleep⟩).tail ⟨finish, asleep⟩

/-- A number of ticks in which no timer is due. -/
theorem Alone.run (idle : T) {k : Nat} (left : Nat → UInt32) (zero : left 0 = delta)
    (succ : ∀ j, left (j + 1) = elapse first (left j)) (later : ∀ j < k, left (j + 1) ≠ 0)
    (alone : Alone t first delta n s) :
    ∃ s', Dreams idle t s s' ∧ Alone t first (left k) (n + k) s' := by
  induction k with
  | zero => exact ⟨s, .refl, zero ▸ alone⟩
  | succ k ih =>
      obtain ⟨s₁, dreams, alone₁⟩ := ih fun j lt => later j (Nat.lt_succ_of_lt lt)
      have nonzero : elapse first (left k) ≠ 0 := succ k ▸ later k (Nat.lt_succ_self k)
      obtain ⟨s₂, dreams', alone₂⟩ := alone₁.tick idle nonzero
      exact ⟨s₂, dreams.trans dreams', succ k ▸ alone₂⟩

/-- The tick that the timer is set for. -/
theorem Alone.expire (idle : T) (alone : Alone t (some (.inl t)) 1 n s) :
    ∃ s' s'', Dreams idle t s s' ∧ Step idle s' s'' ∧ ¬ Asleep s'' t ∧ s''.vts.ticks = n + 1 := by
  obtain ⟨asleep, -, ticks, next, left, func⟩ := alone.ticked
  obtain ⟨-, wakeup, par⟩ := func _ rfl
  have zero : s.tick.vts.vt.vt_delta (some (.inl t)) = 0 := left
  have start : Step idle s s.tick := .tick ⟨alone.out, alone.calm⟩
  have fire : Step idle s.tick (s.tick.fire (.inl t) .wakeup) := .fire _ _ rfl next zero wakeup
  have fired : (s.tick.fire (.inl t) .wakeup).fired = some t := congrArg some par
  have call : Step idle (s.tick.fire (.inl t) .wakeup)
      ((s.tick.fire (.inl t) .wakeup).callback t) :=
    .callback t fired
  refine ⟨_, _, (Relation.ReflTransGen.single ⟨start, asleep⟩).tail ⟨fire, asleep⟩, call, ?_, ?_⟩
  · exact not_asleep_of_ready (callback_ready asleep)
  · change ((s.tick.fire (.inl t) .wakeup).wakeup t).vts.ticks = _
    rw [wakeup_vts]
    exact ticks

omit [DecidableEq V] [DecidableEq O] [DecidableEq T] in
/-- Counting down. -/
theorem elapse_sub (v : T ⊕ V) (delta : UInt32) (j : Nat) :
    delta - UInt32.ofNat (j + 1) = elapse (some v) (delta - UInt32.ofNat j) := by
  rw [elapse, if_neg (Option.some_ne_none v), UInt32.ofNat_add]
  grind

theorem toNat_sub_ofNat (delta : UInt32) {j : Nat} (le : j ≤ delta.toNat) :
    (delta - UInt32.ofNat j).toNat = delta.toNat - j := by
  have small : (UInt32.ofNat j).toNat = j :=
    UInt32.toNat_ofNat_of_lt' (lt_of_le_of_lt le delta.toNat_lt)
  rw [UInt32.toNat_sub_of_le _ _ (UInt32.le_iff_toNat_le.mpr (by omega)), small]

/-- A sleep is not longer than its timer. -/
theorem Wakes.least_le {least most : Nat} (wakes : Wakes idle t least most s)
    (pos : delta.toNat ≠ 0) (alone : Alone t (some (.inl t)) delta n s) : least ≤ delta.toNat := by
  obtain ⟨s₁, dreams, alone₁⟩ := alone.run idle (k := delta.toNat - 1)
    (fun j => delta - UInt32.ofNat j) (UInt32.sub_zero delta) (elapse_sub _ delta) (by
      intro j lt zero
      have value := toNat_sub_ofNat delta (j := j + 1) (by omega)
      rw [zero, UInt32.toNat_zero] at value
      omega)
  have one : delta - UInt32.ofNat (delta.toNat - 1) = 1 := by
    apply UInt32.toNat_inj.mp
    rw [toNat_sub_ofNat _ (Nat.sub_le _ _), UInt32.toNat_one]
    omega
  rw [one] at alone₁
  obtain ⟨s₂, s₃, dreams', step, awake, ticks⟩ := alone₁.expire idle
  have := (wakes.woken s₂ s₃ (dreams.trans dreams') step awake).2.1
  rw [ticks, alone.ticks] at this
  omega

/-- With a timer that is set for 0, a sleep takes as long as the system time takes to wrap around. -/
theorem Wakes.le_most {least most : Nat} (wakes : Wakes idle t least most s)
    (alone : Alone t (some (.inl t)) 0 n s) : 4294967296 ≤ most := by
  by_contra less
  obtain ⟨s', dreams, alone'⟩ := alone.run idle (k := most)
    (fun j => 0 - UInt32.ofNat j) (UInt32.sub_zero 0) (elapse_sub _ 0) (by
      intro j lt zero
      have small : (UInt32.ofNat (j + 1)).toNat = j + 1 :=
        UInt32.toNat_ofNat_of_lt' (show j + 1 < 4294967296 by omega)
      rw [UInt32.sub_eq_iff_eq_add, UInt32.zero_add] at zero
      rw [← zero, UInt32.toNat_zero] at small
      omega)
  have := (wakes.asleep s' dreams).2 alone'.calm
  rw [alone'.ticks, alone.ticks] at this
  omega

/-- Without a timer the sleep has no end. -/
theorem Wakes.infinite {least most : Nat} (wakes : Wakes idle t least most s)
    (alone : Alone t none delta n s) (later : delta ≠ 0) : False := by
  obtain ⟨s', dreams, alone'⟩ := alone.run idle (k := most) (fun _ => delta) rfl
    (fun j => (if_pos rfl).symm) (fun j _ => later)
  have := (wakes.asleep s' dreams).2 alone'.calm
  rw [alone'.ticks, alone.ticks] at this
  omega

end Failing

/-! ### Exactly the times that fit -/

section Sample

/-- The start after a number of ticks in which nothing happened. -/
def sampleIdle (k : Nat) : Sleepers (Fin 3) Unit Unit :=
  { sampleStart with
    core := Core.tick^[k] sampleStart.core
    vts := ⟨{ sampleStart.vts.vt with vt_systime := UInt32.ofNat k }, .idle, k, []⟩ }

theorem sampleIdle_currp (k : Nat) : (sampleIdle k).core.currp = 2 := by
  change (Core.tick^[k] sampleStart.core).currp = 2
  induction k with
  | zero => rfl
  | succ k ih => rw [Function.iterate_succ_apply', tick_currp, ih]

theorem sampleIdle_succ (k : Nat) : (sampleIdle k).tick.setMode .idle = sampleIdle (k + 1) := by
  have core : (Core.tick^[k] sampleStart.core).tick = Core.tick^[k + 1] sampleStart.core :=
    (Function.iterate_succ_apply' _ _ _).symm
  have systime : UInt32.ofNat k + 1 = UInt32.ofNat (k + 1) := (UInt32.ofNat_add k 1).symm
  simp only [sampleIdle, ← core, ← systime]
  rfl

theorem sampleIdle_reachable (k : Nat) : Sleepers.Reachable 0 (sampleIdle k) := by
  induction k with
  | zero => exact ⟨sampleStart, sampleStart_start, .refl⟩
  | succ k ih =>
      obtain ⟨s₀, start, run⟩ := ih
      have tick : Step 0 (sampleIdle k) (sampleIdle k).tick := .tick ⟨rfl, rfl⟩
      have done : Step 0 (sampleIdle k).tick ((sampleIdle k).tick.setMode .idle) :=
        .done rfl (by change Timers.VtList.sentinel ≠ 0; decide)
      rw [sampleIdle_succ] at done
      exact ⟨s₀, start, (run.tail tick).tail done⟩

theorem sampleIdle_goSleep (k : Nat) (time : UInt32)
    (vt : Timers.VtList (Fin 3 ⊕ Unit) Vtfunc (Fin 3))
    (log : List (Timers.Event (Fin 3 ⊕ Unit) Vtfunc (Fin 3))) {first : Option (Fin 3 ⊕ Unit)}
    (next : vt.links.next none = first)
    (func : ∀ v, first = some v → v = .inl 2 ∧ vt.vt_func v = some .wakeup ∧ vt.vt_par v = 2) :
    Alone 2 first (vt.vt_delta first) k
      ({ sampleIdle k with vts := ⟨vt, .idle, k, log⟩ }.goSleep .SLEEPING time) := by
  have currp := sampleIdle_currp k
  have sleeps := (sampleIdle_reachable k).base.core.goSleep (by rw [currp]; decide) .SLEEPING
  have asleep : ((sampleIdle k).core.chSchGoSleepS .SLEEPING).waiting 2 = some .SLEEPING := by
    rw [sleeps.waiting, currp, Function.update_self]
  have other : ((sampleIdle k).core.chSchGoSleepS .SLEEPING).currp ≠ 2 :=
    sleeps.sound.asleep_ne (by simp [asleep])
  refine ⟨asleep, ?_, rfl, rfl, next, rfl, func⟩
  change Function.update (fun _ => none) (sampleIdle k).core.currp (some time)
    ((sampleIdle k).core.chSchGoSleepS .SLEEPING).currp = none
  rw [currp, Function.update_of_ne other]

theorem not_asleep_sampleIdle (k : Nat) : ¬ Asleep (sampleIdle k) 2 := by
  intro asleep
  have awake := (sampleIdle_reachable k).base.core.inv.waiting_currp
  rw [sampleIdle_currp] at awake
  exact absurd (asleep.symm.trans awake) (by simp)

/-- The thread 2 goes to sleep, with the first timer of the list or without one. -/
theorem sampleIdle_sleeps (k : Nat) (time : UInt32) :
    ∃ s', (sampleIdle k).chThdSleepS 1 time = some s' ∧
      (time ≠ TIME_INFINITE → Alone 2 (some (.inl 2)) time k s') ∧
      (time = TIME_INFINITE → Alone 2 none TIME_INFINITE k s') := by
  by_cases finite : time = TIME_INFINITE
  · refine ⟨(sampleIdle k).goSleep .SLEEPING time, ?_, fun is => absurd finite is, fun _ => ?_⟩
    · rw [Sleepers.chThdSleepS, Sleepers.chSchGoSleepTimeoutS, if_neg (not_not.mpr finite)]
    · exact sampleIdle_goSleep k time (sampleIdle k).vts.vt [] rfl (by simp)
  · have before : ¬ Timers.VtList.sentinel < time := by
      rw [UInt32.lt_iff_toNat_lt]
      have := time.toNat_lt
      change ¬ 4294967295 < time.toNat
      omega
    have set : (sampleIdle k).vts.vt.chVTDoSetI 1 (.inl 2) time .wakeup 2 =
        some (((sampleIdle k).vts.vt.withTimer (.inl 2) .wakeup 2).insert (.inl 2) none time) := by
      change Option.map _ (if Timers.VtList.sentinel < time then none else some (none, time)) = _
      rw [if_neg before]
      rfl
    have currp := sampleIdle_currp k
    have alone := sampleIdle_goSleep k time
      (((sampleIdle k).vts.vt.withTimer (.inl 2) .wakeup 2).insert (.inl 2) none time)
      [.set k (.inl 2) time .wakeup 2] rfl (by
        intro v is
        obtain rfl := Option.some.inj is
        exact ⟨rfl, rfl, rfl⟩)
    refine ⟨_, ?_, fun _ => alone, fun is => absurd is finite⟩
    rw [Sleepers.chThdSleepS, Sleepers.chSchGoSleepTimeoutS, if_pos finite, Sleepers.setTimer,
      currp,
      set]
    rfl

/-- A call for which the thread 2 sleeps for a time that does not fit is not on time. -/
theorem not_onTime (c : Call) (k : Nat) (time : UInt32)
    (run : c.run (sampleIdle k) 1 = (sampleIdle k).chThdSleepS 1 time)
    (wrong : time.toNat ≠ 0 → time ≠ TIME_INFINITE → time.toNat < c.least (UInt32.ofNat k))
    (bound : time.toNat = 0 → c.most (UInt32.ofNat k) < 4294967296) :
    ¬ c.OnTime (UInt32.ofNat k) := by
  intro onTime
  obtain ⟨s', result, finite, infinite⟩ := sampleIdle_sleeps k time
  have currp := sampleIdle_currp k
  have called := (onTime (Fin 3) Unit Unit 0 (sampleIdle k) (sampleIdle_reachable k) ⟨rfl, rfl⟩
    (by rw [currp]; decide) rfl).2 1 s' (run.trans result)
  rw [OnTime, currp] at called
  by_cases forever : time = TIME_INFINITE
  · have alone := infinite forever
    rcases called with ⟨same, -⟩ | ⟨-, -, wakes⟩
    · exact not_asleep_sampleIdle k (same ▸ alone.asleep)
    · exact wakes.infinite alone (by decide)
  · have alone := finite forever
    rcases called with ⟨same, -⟩ | ⟨-, -, wakes⟩
    · exact not_asleep_sampleIdle k (same ▸ alone.asleep)
    · by_cases zero : time.toNat = 0
      · obtain rfl : time = 0 := UInt32.toNat_inj.mp zero
        have := wakes.le_most alone
        have := bound zero
        omega
      · have := wakes.least_le zero alone
        have := wrong zero forever
        omega

/-- A call wakes its thread on time exactly for the arguments that fit. -/
theorem onTime_iff (systime : UInt32) (c : Call) : c.OnTime systime ↔ c.Fits systime := by
  refine ⟨fun onTime => ?_, Call.Fits.onTime⟩
  by_contra misfit
  obtain ⟨k, rfl⟩ : ∃ k, systime = UInt32.ofNat k := ⟨systime.toNat, UInt32.ofNat_toNat.symm⟩
  cases c with
  | delay msecs =>
      have bound := msecs.toNat_lt
      have ticks := toNat_MS2ST msecs
      simp only [Call.Fits] at misfit
      refine not_onTime (.delay msecs) k (MS2ST msecs) rfl ?_ ?_ onTime
      · intro nonzero _
        change _ < msecs.toNat
        omega
      · intro zero
        change msecs.toNat + 1 < _
        omega
  | delayMicroseconds usecs =>
      have bound := usecs.toNat_lt
      have ticks := toNat_US2ST usecs
      simp only [Call.Fits] at misfit
      refine not_onTime (.delayMicroseconds usecs) k (US2ST usecs) rfl ?_ ?_ onTime
      · intro nonzero _
        change _ < (usecs.toNat + 999) / 1000
        omega
      · intro zero
        change (usecs.toNat + 999) / 1000 + 1 < _
        omega
  | threadSleepUntil time =>
      have infinite : time - UInt32.ofNat k = TIME_INFINITE := not_not.mp misfit
      have now : (sampleIdle k).vts.vt.vt_systime = UInt32.ofNat k := rfl
      refine not_onTime (.threadSleepUntil time) k TIME_INFINITE ?_ ?_ ?_ onTime
      · rw [run_threadSleepUntil now, infinite]
        rfl
      · intro _ finite
        exact absurd rfl finite
      · intro zero
        exact absurd zero (by decide)

/-- A delay of no milliseconds takes as long as the system time takes to wrap around. -/
theorem delay_zero_late : ¬ ∀ (systime : UInt32) (c : Call), c.OnTime systime := by
  intro all
  exact not_onTime (.delay 0) 0 0 rfl (fun nonzero => absurd rfl nonzero)
    (fun _ => by decide) (all 0 (.delay 0))

end Sample

end LtcOs.Arduino.Time
