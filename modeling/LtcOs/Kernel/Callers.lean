import LtcOs.Kernel.Effect
import LtcOs.Lib.Answers

/-!
Threads in calls that may sleep on a queue of threads.

A thread that finds nothing to do sleeps, with a timeout, until it is woken, its timer expires
or everything is reset; between two parts of a call it is without the lock. The history has what
a call has done so far, and where its thread is agrees with that. What else a step does to a
queue is nothing to this.
-/

namespace LtcOs.Kernel

open LtcOs.Answers

/-- A thread is outside, slept in a call and returns to it locked, or is between two parts of a
call. -/
inductive CallPc (C : Type) where
  | outside
  | asleep (call : C) (timeout : Timeout)
  | unlocked (call : C)
deriving DecidableEq, Repr

/-- The calls of a kind of queue: what the events of its history are for a thread, the event of a
return and what it may say, how far a call under way is, and the timeout it was given. -/
structure Protocol (T C B R E : Type) [DecidableEq T] where
  effect : T → E → Effect C B
  returned : T → R → E
  answers : Progress C B → R → Prop
  going : Progress C B → C → Prop
  timeout : C → Timeout
  effect_returned : ∀ t tp r, tp ≠ t → effect t (returned tp r) = .other

/-- The threads of a queue, and its history. -/
structure Callers (T W C E : Type) where
  core : Core T W
  waiting : List T
  timer : T → Bool
  fired : Option T
  pc : T → CallPc C
  log : List E

variable {T W C B R E : Type} [DecidableEq T]

namespace Callers

/-- The queue of threads and the timers agree with where threads are; a thread that waits on the
queue is in the state `queued`. -/
structure Base (idle : T) (queued : W) (s : Callers T W C E) : Prop where
  core : s.core.Sound idle
  mem : ∀ t, t ∈ s.waiting ↔ s.core.waiting t = some queued
  nodup : s.waiting.Nodup
  inside : ∀ t, s.core.waiting t = some queued → ∃ call timeout, s.pc t = .asleep call timeout
  timed : ∀ t, s.timer t = true ∨ s.fired = some t → ∃ call, s.pc t = .asleep call .finite
  idle : s.pc idle = .outside

/-- A message that a thread in a call can be woken with. -/
def Excused (P : Protocol T C B R E) (p : Progress C B) (call : C) (msg : Int) : Prop :=
  msg = MSG_OK ∨ msg = MSG_TIMEOUT ∧ P.timeout call ≠ .infinite ∨ msg = MSG_RESET ∧ p.reset = true

/-- A thread in a call is as far as the history has it; if it slept, it is on the queue or has
been woken with a message. -/
def Placed (P : Protocol T C B R E) (queued : W) (s : Callers T W C E) (t : T) : Prop :=
  match s.pc t with
  | .outside => True
  | .unlocked call => ∃ p, progress (P.effect t) s.log = some p ∧ P.going p call
  | .asleep call timeout => ∃ p, progress (P.effect t) s.log = some p ∧ P.going p call ∧
      (timeout ≠ .infinite → P.timeout call ≠ .infinite) ∧
      (s.core.waiting t = some queued ∨
        s.core.waiting t = none ∧ Excused P p call (s.core.rdymsg t))

/-- Every call has reported what it did, and those under way will. -/
structure Told (P : Protocol T C B R E) (idle : T) (queued : W) (s : Callers T W C E) : Prop where
  base : Base idle queued s
  reports : Reports P.effect P.returned P.answers s.log
  placed : ∀ t, Placed P queued s t

/-- The current thread is in a call with the lock, and what it has done meets a condition. -/
structure Locked (P : Protocol T C B R E) (idle : T) (queued : W) (s : Callers T W C E)
    (so_far : Progress C B → Prop) : Prop where
  base : Base idle queued s
  reports : Reports P.effect P.returned P.answers s.log
  placed : ∀ t, t ≠ s.core.currp → Placed P queued s t
  other : s.core.currp ≠ idle
  disarmed : s.timer s.core.currp = false
  calm : s.fired = none
  call : ∃ p, progress (P.effect s.core.currp) s.log = some p ∧ so_far p

variable {P : Protocol T C B R E} {idle tp t : T} {queued w : W} {s s' : Callers T W C E}
  {c : Core T W} {msg : Int} {call : C} {timeout : Timeout} {log : List E} {e : E}

/-- An event that is nothing to a thread. -/
theorem progress_other (other : P.effect t e = .other) :
    progress (P.effect t) (log ++ [e]) = progress (P.effect t) log := by
  rw [progress_concat, other]
  rfl

theorem Placed.congr (placed : Placed P queued s t) (pc : s'.pc t = s.pc t)
    (history : progress (P.effect t) s'.log = progress (P.effect t) s.log)
    (waiting : s'.core.waiting t = s.core.waiting t)
    (rdymsg : s'.core.rdymsg t = s.core.rdymsg t) : Placed P queued s' t := by
  unfold Placed at placed ⊢
  rw [pc, history, waiting, rdymsg]
  exact placed

/-- A thread that slept in a call is on the queue or awake. -/
theorem Placed.awake (placed : Placed P queued s t) (inside : s.pc t = .asleep call timeout) :
    s.core.waiting t = some queued ∨ s.core.waiting t = none := by
  unfold Placed at placed
  rw [inside] at placed
  obtain ⟨p, -, -, -, still | ⟨awake, -⟩⟩ := placed
  · exact .inl still
  · exact .inr awake

/-- No thread is in a call yet. -/
theorem told_start (core : s.core.Sound idle) (asleep : ∀ t, s.core.waiting t ≠ some queued)
    (waiting : s.waiting = []) (timer : ∀ t, s.timer t = false) (fired : s.fired = none)
    (pc : ∀ t, s.pc t = .outside) (log : s.log = []) : Told P idle queued s := by
  refine ⟨⟨core, fun t => ?_, ?_, fun t still => absurd still (asleep t), fun t armed => ?_, pc idle⟩,
    ?_, fun t => ?_⟩
  · simp [waiting, asleep t]
  · rw [waiting]
    exact List.nodup_nil
  · simp [timer, fired] at armed
  · rw [log]
    exact reports_nil
  · unfold Placed
    rw [pc]
    trivial

/-! ### Other steps of the kernel -/

theorem Told.quiet (told : Told P idle queued s) (quiet : Core.Quiet idle s.core c) :
    Told P idle queued { s with core := c } := by
  have base := told.base
  refine ⟨⟨quiet.sound, ?_, base.nodup, ?_, base.timed, base.idle⟩, told.reports, fun t => ?_⟩
  · rw [quiet.waiting]
    exact base.mem
  · rw [quiet.waiting]
    exact base.inside
  · exact (told.placed t).congr rfl rfl (congrFun quiet.waiting t) (congrFun quiet.rdymsg t)

theorem Base.inside_wakes (base : Base idle queued s) (wakes : Core.Wakes idle tp msg s.core c)
    (still : c.waiting t = some queued) : ∃ call timeout, s.pc t = .asleep call timeout := by
  rw [wakes.waiting] at still
  by_cases same : t = tp
  · rw [same, Function.update_self] at still
    cases still
  · rw [Function.update_of_ne same] at still
    exact base.inside t still

/-- A thread wakes that waits for something else. -/
theorem Told.wakes_other (told : Told P idle queued s) (waits : s.core.waiting tp = some w)
    (elsewhere : w ≠ queued) (wakes : Core.Wakes idle tp msg s.core c) :
    Told P idle queued { s with core := c } := by
  have base := told.base
  refine ⟨⟨wakes.sound, fun t => ?_, base.nodup, fun t => base.inside_wakes wakes, base.timed,
    base.idle⟩, told.reports, fun t => ?_⟩
  · rw [base.mem, wakes.waiting]
    by_cases same : t = tp
    · simp [same, waits, elsewhere]
    · rw [Function.update_of_ne same]
  · by_cases same : t = tp
    · subst same
      have placed := told.placed t
      unfold Placed at placed ⊢
      cases inside : s.pc t with
      | asleep call timeout =>
          rcases (told.placed t).awake inside with still | awake
          · exact absurd (Option.some.inj (waits.symm.trans still)) elsewhere
          · exact absurd (awake.symm.trans waits) (by simp)
      | _ =>
          rw [inside] at placed
          exact placed
    · refine (told.placed t).congr rfl rfl ?_ ?_
      · rw [wakes.waiting, Function.update_of_ne same]
      · rw [wakes.rdymsg, Function.update_of_ne same]

/-- A thread of the queue wakes with a message that is explained. -/
theorem Told.wake (told : Told P idle queued s) (mem : tp ∈ s.waiting)
    (wakes : Core.Wakes idle tp msg s.core c)
    (excused : ∀ call timeout p, s.pc tp = .asleep call timeout →
      progress (P.effect tp) s.log = some p →
      (timeout ≠ .infinite → P.timeout call ≠ .infinite) → Excused P p call msg) :
    Told P idle queued { s with waiting := s.waiting.erase tp, core := c } := by
  have base := told.base
  refine ⟨⟨wakes.sound, fun t => ?_, base.nodup.erase tp, fun t => base.inside_wakes wakes,
    base.timed, base.idle⟩, told.reports, fun t => ?_⟩
  · change t ∈ s.waiting.erase tp ↔ c.waiting t = some queued
    rw [base.nodup.mem_erase_iff, base.mem, wakes.waiting]
    by_cases same : t = tp
    · simp [same]
    · rw [Function.update_of_ne same]
      simp [same]
  · by_cases same : t = tp
    · subst same
      have placed := told.placed t
      obtain ⟨call, timeout, inside⟩ := base.inside t ((base.mem t).mp mem)
      unfold Placed at placed ⊢
      dsimp only
      rw [inside] at placed ⊢
      obtain ⟨p, has, going, timeouts, -⟩ := placed
      refine ⟨p, has, going, timeouts, .inr ⟨?_, ?_⟩⟩
      · rw [wakes.waiting, Function.update_self]
      · rw [wakes.rdymsg, Function.update_self]
        exact excused call timeout p inside has timeouts
    · refine (told.placed t).congr rfl rfl ?_ ?_
      · exact (congrFun wakes.waiting t).trans (Function.update_of_ne same _ _)
      · exact (congrFun wakes.rdymsg t).trans (Function.update_of_ne same _ _)

/-- The current thread sleeps on something else. -/
theorem Told.sleeps_other (told : Told P idle queued s) (out : s.pc s.core.currp = .outside)
    (elsewhere : w ≠ queued) (sleeps : Core.Sleeps idle w s.core c) :
    Told P idle queued { s with core := c } := by
  have base := told.base
  have awake := base.core.inv.waiting_currp
  refine ⟨⟨sleeps.sound, fun t => ?_, base.nodup, fun t still => ?_, base.timed, base.idle⟩,
    told.reports, fun t => ?_⟩
  · rw [base.mem, sleeps.waiting]
    by_cases same : t = s.core.currp
    · simp [same, awake, elsewhere]
    · rw [Function.update_of_ne same]
  · rw [sleeps.waiting] at still
    by_cases same : t = s.core.currp
    · rw [same, Function.update_self] at still
      exact absurd (Option.some.inj still) elsewhere
    · rw [Function.update_of_ne same] at still
      exact base.inside t still
  · by_cases same : t = s.core.currp
    · unfold Placed
      dsimp only
      rw [same, out]
      trivial
    · refine (told.placed t).congr rfl rfl ?_ (congrFun sleeps.rdymsg t)
      rw [sleeps.waiting, Function.update_of_ne same]

/-! ### Handlers -/

/-- The history goes on, with nothing for the threads in calls. -/
theorem Told.silent (told : Told P idle queued s)
    (other : ∀ t, s.pc t ≠ .outside → P.effect t e = .other)
    (silent : ∀ tp r, e ≠ P.returned tp r) :
    Told P idle queued { s with log := s.log ++ [e] } := by
  have base := told.base
  refine ⟨⟨base.core, base.mem, base.nodup, base.inside, base.timed, base.idle⟩,
    told.reports.silent silent, fun t => ?_⟩
  by_cases out : s.pc t = .outside
  · unfold Placed
    dsimp only
    rw [out]
    trivial
  · exact (told.placed t).congr rfl (progress_other (other t out)) rfl rfl

/-- The first thread of the queue is woken. -/
theorem Told.wakeFirst (told : Told P idle queued s) {rest : List T} (queue : s.waiting = tp :: rest)
    (excused : ∀ call timeout p, s.pc tp = .asleep call timeout →
      progress (P.effect tp) s.log = some p → Excused P p call msg) :
    Told P idle queued { s with
      waiting := rest
      core := (s.core.setMsg tp msg).chSchReadyI tp } := by
  have mem : tp ∈ s.waiting := by simp [queue]
  have asleep : s.core.waiting tp ≠ none := by simp [(told.base.mem tp).mp mem]
  have woken := told.wake mem (told.base.core.setMsg_ready asleep msg)
    fun call timeout p inside has _ => excused call timeout p inside has
  rw [queue, List.erase_cons_head] at woken
  exact woken

/-- A reset is noted for every call that is under way. -/
theorem Told.reset (told : Told P idle queued s) (all : ∀ t, P.effect t e = .reset)
    (silent : ∀ tp r, e ≠ P.returned tp r)
    (kept : ∀ p call, P.going p call → P.going { p with reset := true } call) :
    Told P idle queued { s with log := s.log ++ [e] } := by
  have base := told.base
  refine ⟨⟨base.core, base.mem, base.nodup, base.inside, base.timed, base.idle⟩,
    told.reports.silent silent, fun t => ?_⟩
  have placed := told.placed t
  unfold Placed at placed ⊢
  dsimp only
  rw [progress_concat, all t]
  cases inside : s.pc t with
  | outside => trivial
  | unlocked call =>
      rw [inside] at placed
      obtain ⟨p, has, going⟩ := placed
      exact ⟨{ p with reset := true }, by rw [has]; rfl, kept p call going⟩
  | asleep call timeout =>
      rw [inside] at placed
      obtain ⟨p, has, going, timeouts, state⟩ := placed
      refine ⟨{ p with reset := true }, by rw [has]; rfl, kept p call going, timeouts, ?_⟩
      rcases state with still | ⟨awake, ok | late | gone⟩
      · exact .inl still
      · exact .inr ⟨awake, .inl ok⟩
      · exact .inr ⟨awake, .inr (.inl late)⟩
      · exact .inr ⟨awake, .inr (.inr ⟨gone.1, rfl⟩)⟩

/-! ### Timeouts -/

/-- The kernel is unlocked: the current thread did not just wake in a call. -/
def Unlocked (s : Callers T W C E) : Prop :=
  ∀ call timeout, s.pc s.core.currp ≠ .asleep call timeout

/-- The tick handler takes the timer of a thread off the list. -/
theorem Told.expire (told : Told P idle queued s) (armed : s.timer tp = true) :
    Told P idle queued { s with timer := Function.update s.timer tp false, fired := some tp } := by
  have base := told.base
  refine ⟨⟨base.core, base.mem, base.nodup, base.inside, ?_, base.idle⟩, told.reports, told.placed⟩
  rintro t (still | late)
  · refine base.timed t (.inl ?_)
    change Function.update s.timer tp false t = true at still
    by_cases same : t = tp
    · rw [same, Function.update_self] at still
      cases still
    · rwa [Function.update_of_ne same] at still
  · obtain rfl : tp = t := Option.some.inj late
    exact base.timed tp (.inl armed)

/-- The thread of an expired timer is on the queue, or ready already. -/
theorem Told.fired_cases (told : Told P idle queued s) (unlocked : s.Unlocked)
    (fired : s.fired = some tp) :
    s.core.p_state tp = .WAIT queued ∨ s.core.p_state tp = .READY := by
  obtain ⟨call, inside⟩ := told.base.timed tp (.inr fired)
  rcases (told.placed tp).awake inside with still | awake
  · exact .inl (Core.waiting_eq_some.mp still)
  · rcases Core.waiting_eq_none.mp awake with ready | current
    · exact .inr ready
    · have same := (told.base.core.inv.current tp).mp current
      rw [same] at inside
      exact absurd inside (unlocked call .finite)

/-- The callback wakes the thread of an expired timer. -/
theorem Told.expired (told : Told P idle queued s) (fired : s.fired = some tp)
    (state : s.core.p_state tp = .WAIT queued) :
    Told P idle queued { s with
      waiting := s.waiting.erase tp
      core := (s.core.setMsg tp MSG_TIMEOUT).chSchReadyI tp } := by
  have waits := Core.waiting_eq_some.mpr state
  have asleep : s.core.waiting tp ≠ none := by simp [waits]
  refine told.wake ((told.base.mem tp).mpr waits) (told.base.core.setMsg_ready asleep _) ?_
  intro call timeout p inside has timeouts
  obtain ⟨call', inside'⟩ := told.base.timed tp (.inr fired)
  rw [inside] at inside'
  obtain ⟨rfl, rfl⟩ := CallPc.asleep.inj inside'
  exact .inr (.inl ⟨rfl, timeouts (by simp)⟩)

/-- The callback has run. -/
theorem Told.called (told : Told P idle queued s) : Told P idle queued { s with fired := none } := by
  have base := told.base
  refine ⟨⟨base.core, base.mem, base.nodup, base.inside, ?_, base.idle⟩, told.reports, told.placed⟩
  rintro t (armed | late)
  · exact base.timed t (.inl armed)
  · cases late

/-! ### Inside a call -/

section Inside

variable {so_far so_far' : Progress C B → Prop} {result : R}

variable (call) in
/-- A call begins. -/
theorem Told.enter (told : Told P idle queued s) (out : s.pc s.core.currp = .outside)
    (other : s.core.currp ≠ idle) (calm : s.fired = none)
    (mine : P.effect s.core.currp e = .called call)
    (others : ∀ t, t ≠ s.core.currp → P.effect t e = .other)
    (silent : ∀ tp r, e ≠ P.returned tp r) (fresh : so_far ⟨call, [], false⟩) :
    Locked P idle queued { s with log := s.log ++ [e] } so_far := by
  have base := told.base
  refine ⟨⟨base.core, base.mem, base.nodup, base.inside, base.timed, base.idle⟩,
    told.reports.silent silent,
    fun t away => (told.placed t).congr rfl (progress_other (others t away)) rfl rfl, other, ?_,
    calm, _, ?_, fresh⟩
  · by_contra armed
    obtain ⟨call', inside⟩ := base.timed _ (.inl (Bool.eq_true_of_not_eq_false armed))
    exact absurd (out.symm.trans inside) (by simp)
  · change progress (P.effect s.core.currp) (s.log ++ [e]) = _
    rw [progress_concat, mine]
    rfl

/-- A thread goes on with a call between two parts of it. -/
theorem Told.next (told : Told P idle queued s) (inside : s.pc s.core.currp = .unlocked call)
    (calm : s.fired = none) : Locked P idle queued s (P.going · call) := by
  have base := told.base
  have placed := told.placed s.core.currp
  unfold Placed at placed
  rw [inside] at placed
  refine ⟨base, told.reports, fun t _ => told.placed t, ?_, ?_, calm, placed⟩
  · intro same
    have out := base.idle
    rw [← same, inside] at out
    cases out
  · by_contra armed
    obtain ⟨call', asleep⟩ := base.timed _ (.inl (Bool.eq_true_of_not_eq_false armed))
    exact absurd (inside.symm.trans asleep) (by simp)

/-- A thread that slept runs again, with its timer off the list. -/
theorem Told.resume (told : Told P idle queued s)
    (inside : s.pc s.core.currp = .asleep call timeout) (calm : s.fired = none) :
    Locked P idle queued { s with timer := Function.update s.timer s.core.currp false }
      (fun p => P.going p call ∧ Excused P p call (s.core.rdymsg s.core.currp)) ∧
      (timeout ≠ .infinite → P.timeout call ≠ .infinite) := by
  have base := told.base
  have placed := told.placed s.core.currp
  unfold Placed at placed
  rw [inside] at placed
  obtain ⟨p, has, going, timeouts, state⟩ := placed
  refine ⟨⟨⟨base.core, base.mem, base.nodup, base.inside, ?_, base.idle⟩, told.reports,
    fun t _ => told.placed t, ?_, Function.update_self _ _ _, calm, p, has, going, ?_⟩, timeouts⟩
  · rintro t (armed | late)
    · change Function.update s.timer s.core.currp false t = true at armed
      by_cases same : t = s.core.currp
      · rw [same, Function.update_self] at armed
        cases armed
      · rw [Function.update_of_ne same] at armed
        exact base.timed t (.inl armed)
    · exact base.timed t (.inr late)
  · intro same
    have out := base.idle
    rw [← same] at out
    exact absurd (out.symm.trans inside) (by simp)
  · rcases state with still | ⟨-, excused⟩
    · exact absurd (base.core.inv.waiting_currp.symm.trans still) (by simp)
    · exact excused

theorem Locked.mono (locked : Locked P idle queued s so_far) (weaker : ∀ p, so_far p → so_far' p) :
    Locked P idle queued s so_far' := by
  obtain ⟨p, has, done⟩ := locked.call
  exact ⟨locked.base, locked.reports, locked.placed, locked.other, locked.disarmed, locked.calm,
    p, has, weaker p done⟩

/-- The current thread moves items, and the history has it. -/
theorem Locked.moved (locked : Locked P idle queued s so_far) {items : List B}
    (mine : P.effect s.core.currp e = .moved items)
    (others : ∀ t, t ≠ s.core.currp → P.effect t e = .other)
    (silent : ∀ tp r, e ≠ P.returned tp r)
    (now : ∀ p, so_far p → so_far' { p with items := p.items ++ items }) :
    Locked P idle queued { s with log := s.log ++ [e] } so_far' := by
  have base := locked.base
  obtain ⟨p, has, done⟩ := locked.call
  refine ⟨⟨base.core, base.mem, base.nodup, base.inside, base.timed, base.idle⟩,
    locked.reports.silent silent,
    fun t away => (locked.placed t away).congr rfl (progress_other (others t away)) rfl rfl,
    locked.other, locked.disarmed, locked.calm, _, ?_, now p done⟩
  change progress (P.effect s.core.currp) (s.log ++ [e]) = _
  rw [progress_concat, mine, has]
  rfl

theorem Locked.armed_ne (locked : Locked P idle queued s so_far) (armed : s.timer t = true) :
    t ≠ s.core.currp := by
  rintro rfl
  exact absurd (locked.disarmed.symm.trans armed) (by simp)

/-- The current thread stops at a point where it is not asleep. -/
theorem Locked.setPc (locked : Locked P idle queued s so_far) {pc : CallPc C}
    (reports : Reports P.effect P.returned P.answers log)
    (others : ∀ t, t ≠ s.core.currp →
      progress (P.effect t) log = progress (P.effect t) s.log)
    (self : Placed P queued { s with pc := Function.update s.pc s.core.currp pc, log := log }
      s.core.currp) :
    Told P idle queued { s with pc := Function.update s.pc s.core.currp pc, log := log } := by
  have base := locked.base
  have elsewhere : ∀ t, t ≠ s.core.currp → Function.update s.pc s.core.currp pc t = s.pc t :=
    fun t away => Function.update_of_ne away _ _
  refine ⟨⟨base.core, base.mem, base.nodup, fun t still => ?_, ?_, ?_⟩, reports, fun t => ?_⟩
  · have away : t ≠ s.core.currp := by
      rintro rfl
      exact absurd (base.core.inv.waiting_currp.symm.trans still) (by simp)
    change ∃ call timeout, Function.update s.pc s.core.currp pc t = .asleep call timeout
    rw [elsewhere t away]
    exact base.inside t still
  · rintro t (armed | late)
    · change ∃ call, Function.update s.pc s.core.currp pc t = .asleep call .finite
      rw [elsewhere t (locked.armed_ne armed)]
      exact base.timed t (.inl armed)
    · exact absurd (locked.calm.symm.trans late) (by simp)
  · exact (elsewhere idle locked.other.symm).trans base.idle
  · by_cases same : t = s.core.currp
    · subst same
      exact self
    · exact (locked.placed t same).congr (elsewhere t same) (others t same) rfl rfl

theorem Locked.leave (locked : Locked P idle queued s (P.answers · result))
    (injective : ∀ tp r, P.returned s.core.currp result = P.returned tp r →
      s.core.currp = tp ∧ result = r) :
    Told P idle queued { s with
      pc := Function.update s.pc s.core.currp .outside
      log := s.log ++ [P.returned s.core.currp result] } := by
  refine locked.setPc (locked.reports.concat fun tp r eq => ?_)
    (fun t away => progress_other (P.effect_returned _ _ _ away.symm)) ?_
  · obtain ⟨rfl, rfl⟩ := injective tp r eq
    exact locked.call
  · unfold Placed
    dsimp only
    rw [Function.update_self]
    trivial

theorem Locked.unlock (locked : Locked P idle queued s (P.going · call)) :
    Told P idle queued { s with pc := Function.update s.pc s.core.currp (.unlocked call) } := by
  refine locked.setPc locked.reports (fun _ _ => rfl) ?_
  unfold Placed
  dsimp only
  rw [Function.update_self]
  exact locked.call

/-- The current thread goes on the queue and to sleep. -/
theorem Locked.enqueue (locked : Locked P idle queued s (P.going · call))
    (timeouts : timeout ≠ .infinite → P.timeout call ≠ .infinite) :
    Told P idle queued { s with
      waiting := s.waiting ++ [s.core.currp]
      core := s.core.chSchGoSleepS queued
      timer := Function.update s.timer s.core.currp (decide (timeout = .finite))
      pc := Function.update s.pc s.core.currp (.asleep call timeout) } := by
  have base := locked.base
  have sleeps := base.core.goSleep locked.other queued
  have awake := base.core.inv.waiting_currp
  have elsewhere : ∀ t, t ≠ s.core.currp →
      Function.update s.pc s.core.currp (.asleep call timeout) t = s.pc t :=
    fun t away => Function.update_of_ne away _ _
  have here : Function.update s.pc s.core.currp (.asleep call timeout) s.core.currp =
      .asleep call timeout := Function.update_self _ _ _
  have others : ∀ t, t ≠ s.core.currp →
      (s.core.chSchGoSleepS queued).waiting t = s.core.waiting t := by
    intro t away
    rw [sleeps.waiting, Function.update_of_ne away]
  have waits : (s.core.chSchGoSleepS queued).waiting s.core.currp = some queued := by
    rw [sleeps.waiting, Function.update_self]
  refine ⟨⟨sleeps.sound, fun t => ?_, ?_, fun t still => ?_, ?_, ?_⟩, locked.reports, fun t => ?_⟩
  · change t ∈ s.waiting ++ [s.core.currp] ↔ (s.core.chSchGoSleepS queued).waiting t = some queued
    rw [List.mem_append, List.mem_singleton, base.mem]
    by_cases same : t = s.core.currp
    · simp [same, waits]
    · simp [same, others t same]
  · refine List.nodup_append.mpr ⟨base.nodup, by simp, fun a mem b last eq => ?_⟩
    rw [List.mem_singleton] at last
    rw [eq, last, base.mem, awake] at mem
    cases mem
  · change (s.core.chSchGoSleepS queued).waiting t = some queued at still
    change ∃ call' timeout', Function.update s.pc s.core.currp (.asleep call timeout) t =
      .asleep call' timeout'
    by_cases same : t = s.core.currp
    · rw [same, here]
      exact ⟨call, timeout, rfl⟩
    · rw [others t same] at still
      rw [elsewhere t same]
      exact base.inside t still
  · rintro t (armed | late)
    · change Function.update s.timer s.core.currp (decide (timeout = .finite)) t = true at armed
      change ∃ call', Function.update s.pc s.core.currp (.asleep call timeout) t =
        .asleep call' .finite
      by_cases same : t = s.core.currp
      · rw [same, Function.update_self, decide_eq_true_iff] at armed
        rw [same, here, armed]
        exact ⟨call, rfl⟩
      · rw [Function.update_of_ne same] at armed
        rw [elsewhere t same]
        exact base.timed t (.inl armed)
    · exact absurd (locked.calm.symm.trans late) (by simp)
  · exact (elsewhere idle locked.other.symm).trans base.idle
  · by_cases same : t = s.core.currp
    · unfold Placed
      dsimp only
      rw [same, here]
      obtain ⟨p, has, going⟩ := locked.call
      exact ⟨p, has, going, timeouts, .inl waits⟩
    · exact (locked.placed t same).congr (elsewhere t same) rfl (others t same)
        (congrFun sleeps.rdymsg t)

end Inside

end Callers

end LtcOs.Kernel
