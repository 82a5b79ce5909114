import LtcOs.Kernel.Scheduler

/-!
`chSchWakeupS` against what it is documented to be, `chSchReadyI` and then
`chSchRescheduleS`.

When the woken thread takes the processor, `chSchWakeupS` puts the thread that runs
behind the ready threads of its priority, and `chSchRescheduleS` puts it ahead of them.
The two agree exactly when nobody takes the processor or there are no such threads.
-/

namespace LtcOs.Kernel

open LtcOs.Linked LtcOs.Prio

variable {T W : Type} [DecidableEq T]

/-! ### On the list of ready threads -/

namespace Core

variable {idle ntp : T} {c : Core T W} {msg : Int}

/-- `ntp->p_u.rdymsg = msg`, `chSchReadyI(ntp)` and `chSchRescheduleS()`. -/
def readyReschedule (c : Core T W) (ntp : T) (msg : Int) : Core T W :=
  ((c.setMsg ntp msg).chSchReadyI ntp).chSchRescheduleS

omit [DecidableEq T] in
theorem firstprio_le {n : Nat} (bound : ∀ t ∈ c.ready, c.p_prio t ≤ n) : c.firstprio ≤ n := by
  unfold firstprio
  split
  · exact Nat.zero_le n
  · next tp rest eq => exact bound tp (by simp [eq])

/-- A thread that is not above the current one waits on the ready list both ways. -/
theorem readyReschedule_of_le (highest : ∀ t ∈ c.ready, c.p_prio t ≤ c.p_prio c.currp)
    (le : c.p_prio ntp ≤ c.p_prio c.currp) :
    c.readyReschedule ntp msg = c.chSchWakeupS ntp msg := by
  have first : ((c.setMsg ntp msg).chSchReadyI ntp).firstprio ≤ c.p_prio c.currp := by
    apply firstprio_le
    intro t mem
    rcases mem_insertBehind.mp mem with rfl | mem
    · exact le
    · exact highest t mem
  have wakeup : c.chSchWakeupS ntp msg = (c.setMsg ntp msg).chSchReadyI ntp := if_pos le
  unfold readyReschedule chSchRescheduleS
  rw [wakeup, if_neg]
  intro required
  exact absurd (of_decide_eq_true required) first.not_gt

/-- A thread above the current one runs; the other goes ahead of its equals. -/
theorem readyReschedule_of_lt (msg : Int) (highest : ∀ t ∈ c.ready, c.p_prio t ≤ c.p_prio c.currp)
    (other : ntp ≠ c.currp) (lt : c.p_prio c.currp < c.p_prio ntp) :
    (c.readyReschedule ntp msg).currp = ntp ∧
      (c.readyReschedule ntp msg).p_state =
        Function.update (Function.update c.p_state c.currp .READY) ntp .CURRENT ∧
      (c.readyReschedule ntp msg).ready = insertAhead c.p_prio c.currp c.ready := by
  have front : ((c.setMsg ntp msg).chSchReadyI ntp).ready = ntp :: c.ready :=
    insertBehind_of_lt fun t mem => (highest t mem).trans_lt lt
  have required : ((c.setMsg ntp msg).chSchReadyI ntp).chSchIsRescRequiredI = true := by
    unfold chSchIsRescRequiredI firstprio
    rw [front]
    exact decide_eq_true lt
  unfold readyReschedule chSchRescheduleS
  rw [if_pos required]
  unfold chSchDoRescheduleAhead
  rw [dispatch_cons front]
  refine ⟨rfl, ?_, rfl⟩
  change Function.update (Function.update (Function.update c.p_state ntp .READY) ntp .CURRENT)
    c.currp .READY = _
  rw [Function.update_idem, Function.update_comm other]

theorem chSchWakeupS_of_lt (msg : Int) (lt : c.p_prio c.currp < c.p_prio ntp) :
    (c.chSchWakeupS ntp msg).currp = ntp ∧
      (c.chSchWakeupS ntp msg).p_state =
        Function.update (Function.update c.p_state c.currp .READY) ntp .CURRENT ∧
      (c.chSchWakeupS ntp msg).ready = insertBehind c.p_prio c.currp c.ready := by
  have wakeup : c.chSchWakeupS ntp msg =
      { ((c.setMsg ntp msg).chSchReadyI c.currp).setState ntp .CURRENT with currp := ntp } :=
    if_neg lt.not_ge
  rw [wakeup]
  exact ⟨rfl, rfl, rfl⟩

theorem wakeup_eq_iff (inv : Inv idle c)
    (highest : ∀ t ∈ c.ready, c.p_prio t ≤ c.p_prio c.currp) (asleep : c.waiting ntp ≠ none) :
    ((c.chSchWakeupS ntp msg).currp = (c.readyReschedule ntp msg).currp ∧
      (c.chSchWakeupS ntp msg).p_state = (c.readyReschedule ntp msg).p_state ∧
      (c.chSchWakeupS ntp msg).ready = (c.readyReschedule ntp msg).ready) ↔
    c.p_prio ntp ≤ c.p_prio c.currp ∨ ∀ t ∈ c.ready, c.p_prio t ≠ c.p_prio c.currp := by
  rcases le_or_gt (c.p_prio ntp) (c.p_prio c.currp) with le | lt
  · rw [readyReschedule_of_le highest le]
    simp [le]
  · have other : ntp ≠ c.currp := by
      rintro rfl
      exact asleep inv.waiting_currp
    obtain ⟨currp₁, state₁, ready₁⟩ := chSchWakeupS_of_lt msg lt
    obtain ⟨currp₂, state₂, ready₂⟩ := readyReschedule_of_lt msg highest other lt
    rw [currp₁, currp₂, state₁, state₂, ready₁, ready₂,
      insertBehind_eq_insertAhead inv.sorted inv.currp_not_ready]
    simp [lt.not_ge]

end Core

/-! ### On the links -/

namespace Sched

variable {ntp : T} {s s₁ s₂ : Sched T W} {c c₁ c₂ : Core T W} {l : List T} {msg : Int} {fuel : Nat}

/-- `ntp->p_u.rdymsg = msg`, `chSchReadyI(ntp)` and `chSchRescheduleS()`. -/
def readyReschedule (s : Sched T W) (fuel : Nat) (ntp : T) (msg : Int) : Option (Sched T W) :=
  ({ s with rdymsg := Function.update s.rdymsg ntp msg }.chSchReadyI fuel ntp).bind fun s =>
    s.chSchRescheduleS fuel

/-- A state of the kernel: `l` is the ready list, in the order of the priorities, and
one thread runs. -/
structure Valid (s : Sched T W) (l : List T) : Prop where
  ring : Ring s.links none (l.map some)
  sorted : Descending (fun t => s.p_prio (some t)) l
  mem_ready : ∀ t, t ∈ l ↔ s.p_state t = .READY
  current : ∀ t, s.p_state t = .CURRENT ↔ t = s.currp
  header : s.p_prio none = NOPRIO
  pos : ∀ t, NOPRIO < s.p_prio (some t)

/-- The same thread runs, the threads have the same states, and the ready lists are the
same. -/
structure Alike (s₁ s₂ : Sched T W) : Prop where
  currp : s₁.currp = s₂.currp
  state : s₁.p_state = s₂.p_state
  ready : ∃ l : List T, Ring s₁.links none (l.map some) ∧ Ring s₂.links none (l.map some)

/-- The list level of a state. -/
def abstract (s : Sched T W) (l : List T) : Core T W where
  p_prio t := s.p_prio (some t)
  p_state := s.p_state
  p_preempt := s.p_preempt
  rdymsg := s.rdymsg
  ready := l
  currp := s.currp
  log := s.log

omit [DecidableEq T] in
theorem Valid.refines (valid : Valid s l) : Refines s (s.abstract l) :=
  ⟨valid.ring, fun _ => rfl, valid.header, rfl, rfl, rfl, rfl, rfl⟩

omit [DecidableEq T] in
/-- The thread that runs does not sleep, so it may stand for the idle thread. -/
theorem Valid.inv (valid : Valid s l) : (s.abstract l).Inv s.currp := by
  constructor
  · exact valid.sorted
  · have nodup := (List.nodup_cons.mp valid.ring.nodup).2
    exact List.Nodup.of_map some nodup
  · exact valid.mem_ready
  · exact valid.current
  · exact Core.waiting_eq_none.mpr (.inr ((valid.current _).mpr rfl))

omit [DecidableEq T] in
theorem Refines.alike_iff (refines₁ : Refines s₁ c₁) (refines₂ : Refines s₂ c₂) :
    Alike s₁ s₂ ↔ c₁.currp = c₂.currp ∧ c₁.p_state = c₂.p_state ∧ c₁.ready = c₂.ready := by
  rw [← refines₁.currp, ← refines₂.currp, ← refines₁.state, ← refines₂.state]
  constructor
  · rintro ⟨currp, state, l, ring₁, ring₂⟩
    refine ⟨currp, state, ?_⟩
    apply List.map_injective_iff.mpr (Option.some_injective T)
    rw [refines₁.ring.unique ring₁, refines₂.ring.unique ring₂]
  · rintro ⟨currp, state, ready⟩
    exact ⟨currp, state, c₁.ready, refines₁.ring, ready ▸ refines₂.ring⟩

theorem refines_readyReschedule (refines : Refines s c) {idle : T} (inv : c.Inv idle)
    (pos : NOPRIO < c.p_prio ntp) (asleep : c.waiting ntp ≠ none)
    (enough : c.ready.length + 1 < fuel) (msg : Int) :
    ∃ s', s.readyReschedule fuel ntp msg = some s' ∧ Refines s' (c.readyReschedule ntp msg) := by
  have inv := inv.setMsg ntp msg
  have fresh : ntp ∉ c.ready := fun mem => asleep (inv.waiting_ready mem)
  obtain ⟨s₁, result₁, refines₁⟩ := refines_chSchReadyI (refines.setMsg ntp msg) inv.sorted fresh
    pos (Nat.lt_of_succ_lt enough)
  have longer : ((c.setMsg ntp msg).chSchReadyI ntp).ready.length < fuel := by
    change (insertBehind c.p_prio ntp c.ready).length < fuel
    rw [insertBehind, List.orderedInsert_length]
    exact enough
  obtain ⟨s₂, result₂, refines₂⟩ :=
    refines_chSchRescheduleS refines₁ (inv.chSchReadyI asleep) longer
  refine ⟨s₂, ?_, refines₂⟩
  unfold readyReschedule
  rw [result₁]
  exact result₂

/-- With the highest priority running, `chSchWakeupS` and its two-step form both return.
They lead to the same thread running, the same states and the same ready list exactly
when the woken thread does not take the processor or no ready thread has the priority
of the thread that runs. -/
theorem wakeup_alike_iff (valid : Valid s l)
    (highest : ∀ t ∈ l, s.p_prio (some t) ≤ s.p_prio (some s.currp)) (asleep : s.Asleep ntp)
    (msg : Int) (enough : l.length + 1 < fuel) :
    ∃ s₁ s₂, s.chSchWakeupS fuel ntp msg = some s₁ ∧ s.readyReschedule fuel ntp msg = some s₂ ∧
      (Alike s₁ s₂ ↔ s.p_prio (some ntp) ≤ s.p_prio (some s.currp) ∨
        ∀ t ∈ l, s.p_prio (some t) ≠ s.p_prio (some s.currp)) := by
  have waits : (s.abstract l).waiting ntp ≠ none := by
    intro h
    exact (Core.waiting_eq_none.mp h).elim asleep.1 asleep.2
  obtain ⟨s₁, result₁, refines₁⟩ := refines_chSchWakeupS valid.refines valid.inv valid.pos waits
    (Nat.lt_of_succ_lt enough) msg
  obtain ⟨s₂, result₂, refines₂⟩ := refines_readyReschedule valid.refines valid.inv
    (valid.pos ntp) waits enough msg
  refine ⟨s₁, s₂, result₁, result₂, ?_⟩
  rw [refines₁.alike_iff refines₂]
  exact Core.wakeup_eq_iff valid.inv highest waits

/-- Thread 2 runs, with the idle thread 0 and thread 1 of the same priority ready;
thread 3 of a higher priority and thread 4 of the same one sleep. -/
def sampleTied : Sched (Fin 5) Unit where
  links := ((Links.mk id id).insertBefore (some 0) none).insertBefore (some 1) (some 0)
  p_prio := fun | none => 0 | some 0 => 1 | some 3 => 65 | some _ => 64
  p_state := ![.READY, .READY, .CURRENT, .WAIT (), .WAIT ()]
  p_preempt := fun _ => 20
  rdymsg := fun _ => 0
  currp := 2
  log := []

theorem sampleTied_valid : Valid sampleTied [1, 0] := by
  constructor
  · constructor <;> decide
  · unfold Descending
    decide
  all_goals decide

theorem sampleTied_alike :
    ∃ s₁ s₂, sampleTied.chSchWakeupS 9 4 MSG_OK = some s₁ ∧
      sampleTied.readyReschedule 9 4 MSG_OK = some s₂ ∧ Alike s₁ s₂ := by
  obtain ⟨s₁, s₂, result₁, result₂, alike⟩ := wakeup_alike_iff sampleTied_valid (by decide)
    (show sampleTied.Asleep 4 by decide) MSG_OK (show [(1 : Fin 5), 0].length + 1 < 9 by decide)
  exact ⟨s₁, s₂, result₁, result₂, alike.mpr (.inl (by decide))⟩

/-- Thread 3 takes the processor from thread 2, which ends up behind thread 1 one way
and ahead of it the other way. -/
theorem sampleTied_differs :
    Valid sampleTied [1, 0] ∧
      (∀ t ∈ [1, 0], sampleTied.p_prio (some t) ≤ sampleTied.p_prio (some sampleTied.currp)) ∧
      sampleTied.Asleep 3 ∧
      ∃ s₁ s₂, sampleTied.chSchWakeupS 9 3 MSG_OK = some s₁ ∧
        sampleTied.readyReschedule 9 3 MSG_OK = some s₂ ∧ ¬ Alike s₁ s₂ := by
  refine ⟨sampleTied_valid, by decide, by decide, _, _, rfl, rfl, ?_⟩
  rintro ⟨-, -, l, ring₁, ring₂⟩
  have first := ring₁.next_header.symm.trans ring₂.next_header
  exact absurd first (by decide)

end Sched

end LtcOs.Kernel
