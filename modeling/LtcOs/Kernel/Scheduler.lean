import LtcOs.Kernel.Core
import LtcOs.Lib.Ring

/-!
The scheduler `chschd.c` on the links of the threads.

The ready list is a circular doubly linked list of the threads through its header
`ch.rlist`, whose priority `NOPRIO` ends every scan. `Refines` relates it to the list
of ready threads of `Kernel.Core`; each function returns, and does on the links what
the function of the same name there does on the list.
-/

namespace LtcOs.Kernel

open LtcOs.Linked LtcOs.Prio

/-- The threads and the ready list; the header `ch.rlist` is the node `none`. -/
structure Sched (T W : Type) where
  links : Links (Option T)
  p_prio : Option T → Nat
  p_state : T → Status W
  p_preempt : T → Nat
  rdymsg : T → Int
  currp : T
  log : List (Event T)

variable {T W : Type}

namespace Sched

/-- `do cp = cp->p_next; while (more(cp->p_prio))` with a bound on the rounds. -/
def scan (s : Sched T W) (more : Nat → Bool) : (fuel : Nat) → (cp : Option T) → Option (Option T)
  | 0, _ => none
  | fuel + 1, cp =>
      let cp := s.links.next cp
      if more (s.p_prio cp) then s.scan more fuel cp else some cp

/-- `firstprio` of the ready list. -/
def firstprio (s : Sched T W) : Nat := s.p_prio (s.links.next none)

def chSchIsRescRequiredI (s : Sched T W) : Bool := decide (s.p_prio (some s.currp) < s.firstprio)

def chSchCanYieldS (s : Sched T W) : Bool := decide (s.p_prio (some s.currp) ≤ s.firstprio)

def chSchIsPreemptionRequired (s : Sched T W) : Bool :=
  if 0 < s.p_preempt s.currp then decide (s.p_prio (some s.currp) < s.firstprio)
  else decide (s.p_prio (some s.currp) ≤ s.firstprio)

variable [DecidableEq T]

def _scheduler_init (s : Sched T W) : Sched T W :=
  { s with links := s.links.empty none, p_prio := Function.update s.p_prio none NOPRIO }

/-- The removed node, and the links without it. -/
def queue_fifo_remove (k : Links (Option T)) : Option T × Links (Option T) :=
  let tp := k.next none
  let next := Function.update k.next none (k.next tp)
  (tp, ⟨next, Function.update k.prev (next none) none⟩)

def chSchReadyI (s : Sched T W) (fuel : Nat) (tp : T) : Option (Sched T W) :=
  let s := { s with p_state := Function.update s.p_state tp .READY }
  (s.scan (fun p => decide (s.p_prio (some tp) ≤ p)) fuel none).map fun cp =>
    { s with links := s.links.insertBefore (some tp) cp, log := s.log ++ [.readied tp] }

/-- `setcurrp(queue_fifo_remove(&ch.rlist.r_queue))`, which must not return the header,
and the new state of the thread. -/
def dispatch (s : Sched T W) : Option (Sched T W) :=
  match queue_fifo_remove s.links with
  | (none, _) => none
  | (some tp, links) => some { s with
      links := links
      currp := tp
      p_state := Function.update s.p_state tp .CURRENT
      log := s.log ++ [.dispatched tp] }

def chSchGoSleepS (s : Sched T W) (newstate : W) : Option (Sched T W) :=
  let otp := s.currp
  let s := { s with
    p_state := Function.update s.p_state otp (.WAIT newstate)
    p_preempt := Function.update s.p_preempt otp CH_CFG_TIME_QUANTUM }
  s.dispatch

def chSchWakeupS (s : Sched T W) (fuel : Nat) (ntp : T) (msg : Int) : Option (Sched T W) :=
  let s := { s with rdymsg := Function.update s.rdymsg ntp msg }
  if s.p_prio (some ntp) ≤ s.p_prio (some s.currp) then s.chSchReadyI fuel ntp
  else (s.chSchReadyI fuel s.currp).map fun s =>
    { s with currp := ntp, p_state := Function.update s.p_state ntp .CURRENT }

def chSchDoRescheduleBehind (s : Sched T W) (fuel : Nat) : Option (Sched T W) :=
  let otp := s.currp
  s.dispatch.bind fun s =>
    { s with p_preempt := Function.update s.p_preempt otp CH_CFG_TIME_QUANTUM }.chSchReadyI fuel otp

def chSchDoRescheduleAhead (s : Sched T W) (fuel : Nat) : Option (Sched T W) :=
  let otp := s.currp
  s.dispatch.bind fun s =>
    let s := { s with p_state := Function.update s.p_state otp .READY }
    (s.scan (fun p => decide (s.p_prio (some otp) < p)) fuel none).map fun cp =>
      { s with links := s.links.insertBefore (some otp) cp }

def chSchRescheduleS (s : Sched T W) (fuel : Nat) : Option (Sched T W) :=
  if s.chSchIsRescRequiredI then s.chSchDoRescheduleAhead fuel else some s

def chSchDoReschedule (s : Sched T W) (fuel : Nat) : Option (Sched T W) :=
  if s.p_preempt s.currp = 0 then s.chSchDoRescheduleBehind fuel else s.chSchDoRescheduleAhead fuel

def chSchDoYieldS (s : Sched T W) (fuel : Nat) : Option (Sched T W) :=
  if s.chSchCanYieldS then s.chSchDoRescheduleBehind fuel else some s

def chSchPreemption (s : Sched T W) (fuel : Nat) : Option (Sched T W) :=
  if 0 < s.p_preempt s.currp then
    if s.p_prio (some s.currp) < s.firstprio then s.chSchDoRescheduleAhead fuel else some s
  else
    if s.p_prio (some s.currp) ≤ s.firstprio then s.chSchDoRescheduleBehind fuel else some s

/-- The part of `chSysTimerHandlerI` about the time slice of the current thread. -/
def tick (s : Sched T W) : Sched T W :=
  if 0 < s.p_preempt s.currp then
    { s with p_preempt := Function.update s.p_preempt s.currp (s.p_preempt s.currp - 1) }
  else s

/-- The start of the system: the main thread runs and, unless it is the idle thread
itself (`CH_CFG_NO_IDLE_THREAD`), the idle thread is created. -/
def chSysInit (s : Sched T W) (fuel : Nat) (main idle : T) : Option (Sched T W) :=
  let s := s._scheduler_init
  let s := { s with currp := main, p_state := Function.update s.p_state main .CURRENT }
  if main = idle then some s else s.chSchWakeupS fuel idle MSG_OK

/-! ### More rounds than needed change nothing -/

section Mono

variable {s s' : Sched T W} {k m : Nat} {t : T} {msg : Int}

omit [DecidableEq T] in
theorem scan_mono {more : Nat → Bool} {cp p : Option T} (le : k ≤ m)
    (result : s.scan more k cp = some p) :
    s.scan more m cp = some p := by
  induction k generalizing m cp with
  | zero => exact absurd result (by simp [scan])
  | succ k ih =>
      obtain ⟨m, rfl⟩ : ∃ j, m = j + 1 := ⟨m - 1, by omega⟩
      rw [scan] at result ⊢
      split_ifs at result ⊢ with more
      · exact ih (by omega) result
      · exact result

theorem chSchReadyI_mono (le : k ≤ m) (result : s.chSchReadyI k t = some s') :
    s.chSchReadyI m t = some s' := by
  obtain ⟨p, found, rfl⟩ := Option.map_eq_some_iff.mp result
  exact Option.map_eq_some_iff.mpr ⟨p, scan_mono le found, rfl⟩

theorem chSchWakeupS_mono (le : k ≤ m) (result : s.chSchWakeupS k t msg = some s') :
    s.chSchWakeupS m t msg = some s' := by
  unfold chSchWakeupS at result ⊢
  dsimp only at result ⊢
  split_ifs at result ⊢
  · exact chSchReadyI_mono le result
  · obtain ⟨s₁, found, rfl⟩ := Option.map_eq_some_iff.mp result
    exact Option.map_eq_some_iff.mpr ⟨s₁, chSchReadyI_mono le found, rfl⟩

theorem chSchDoRescheduleBehind_mono (le : k ≤ m) (result : s.chSchDoRescheduleBehind k = some s') :
    s.chSchDoRescheduleBehind m = some s' := by
  obtain ⟨s₁, first, rest⟩ := Option.bind_eq_some_iff.mp result
  exact Option.bind_eq_some_iff.mpr ⟨s₁, first, chSchReadyI_mono le rest⟩

theorem chSchDoRescheduleAhead_mono (le : k ≤ m) (result : s.chSchDoRescheduleAhead k = some s') :
    s.chSchDoRescheduleAhead m = some s' := by
  obtain ⟨s₁, first, rest⟩ := Option.bind_eq_some_iff.mp result
  obtain ⟨p, found, rfl⟩ := Option.map_eq_some_iff.mp rest
  exact Option.bind_eq_some_iff.mpr
    ⟨s₁, first, Option.map_eq_some_iff.mpr ⟨p, scan_mono le found, rfl⟩⟩

theorem chSchRescheduleS_mono (le : k ≤ m) (result : s.chSchRescheduleS k = some s') :
    s.chSchRescheduleS m = some s' := by
  unfold chSchRescheduleS at result ⊢
  split_ifs at result ⊢
  · exact chSchDoRescheduleAhead_mono le result
  · exact result

theorem chSchDoReschedule_mono (le : k ≤ m) (result : s.chSchDoReschedule k = some s') :
    s.chSchDoReschedule m = some s' := by
  unfold chSchDoReschedule at result ⊢
  split_ifs at result ⊢
  · exact chSchDoRescheduleBehind_mono le result
  · exact chSchDoRescheduleAhead_mono le result

theorem chSchDoYieldS_mono (le : k ≤ m) (result : s.chSchDoYieldS k = some s') :
    s.chSchDoYieldS m = some s' := by
  unfold chSchDoYieldS at result ⊢
  split_ifs at result ⊢
  · exact chSchDoRescheduleBehind_mono le result
  · exact result

theorem chSchPreemption_mono (le : k ≤ m) (result : s.chSchPreemption k = some s') :
    s.chSchPreemption m = some s' := by
  unfold chSchPreemption at result ⊢
  split_ifs at result ⊢
  · exact chSchDoRescheduleAhead_mono le result
  · exact result
  · exact chSchDoRescheduleBehind_mono le result
  · exact result

end Mono

/-! ### Refinement of the list level -/

/-- The links are those of the list of ready threads, and the other fields the same. -/
structure Refines (s : Sched T W) (c : Core T W) : Prop where
  ring : Ring s.links none (c.ready.map some)
  prio : ∀ t, s.p_prio (some t) = c.p_prio t
  header : s.p_prio none = NOPRIO
  state : s.p_state = c.p_state
  preempt : s.p_preempt = c.p_preempt
  msg : s.rdymsg = c.rdymsg
  currp : s.currp = c.currp
  log : s.log = c.log

section Scan

omit [DecidableEq T]

variable {s : Sched T W} (more : Nat → Bool) {xs ys : List T} {cp p : Option T} {fuel : Nat}

/-- A scan from the middle of the list passes the threads for which it goes on and
stops at the first for which it does not. -/
theorem scan_from (ws : List T) (ring : Ring s.links none ((ws ++ xs ++ ys).map some))
    (last : (none :: ws.map some).getLast? = some cp)
    (first : (ys.map some ++ [none]).head? = some p)
    (goes_on : ∀ t ∈ xs, more (s.p_prio (some t)) = true) (stops : more (s.p_prio p) = false)
    (enough : xs.length < fuel) : s.scan more fuel cp = some p := by
  obtain ⟨fuel, rfl⟩ : ∃ k, fuel = k + 1 := ⟨fuel - 1, by omega⟩
  induction xs generalizing ws cp fuel with
  | nil =>
      rw [List.append_nil, List.map_append] at ring
      have next := ring.next_last last
      rw [first, Option.some.injEq] at next
      rw [scan, ← next]
      simp [stops]
  | cons x xs ih =>
      have next := ring
      rw [List.append_assoc, List.map_append] at next
      have next := next.next_last last
      rw [List.cons_append, List.map_cons, List.cons_append, List.head?_cons,
        Option.some.injEq] at next
      rw [List.length_cons] at enough
      obtain ⟨fuel, rfl⟩ : ∃ k, fuel = k + 1 := ⟨fuel - 1, by omega⟩
      rw [scan, ← next]
      simp only [goes_on x List.mem_cons_self, if_true]
      apply ih (ws ++ [x])
      · rw [List.append_assoc ws, List.singleton_append]
        exact ring
      · rw [List.map_append, ← List.cons_append, List.map_singleton]
        exact List.getLast?_concat
      · intro t ht
        exact goes_on t (List.mem_cons_of_mem _ ht)
      · omega

/-- A scan of the whole list. -/
theorem scan_eq (ring : Ring s.links none ((xs ++ ys).map some))
    (goes_on : ∀ t ∈ xs, more (s.p_prio (some t)) = true)
    (stops : ∀ t ∈ ys, more (s.p_prio (some t)) = false) (sentinel : more (s.p_prio none) = false)
    (enough : (xs ++ ys).length < fuel) :
    ∃ p, s.scan more fuel none = some p ∧ (ys.map some ++ [none]).head? = some p := by
  rw [List.length_append] at enough
  cases ys with
  | nil => exact ⟨none, scan_from more [] ring rfl rfl goes_on sentinel (by omega), rfl⟩
  | cons y ys =>
      exact ⟨some y, scan_from more [] ring rfl rfl goes_on (stops y List.mem_cons_self) (by omega),
        rfl⟩

end Scan

section Refinement

variable {s : Sched T W} {c : Core T W} {t : T} {fuel : Nat} {idle : T}

/-- A thread linked in at its place. -/
theorem ring_insert {k : Links (Option T)} {xs ys : List T} {p : Option T}
    (ring : Ring k none ((xs ++ ys).map some)) (fresh : t ∉ xs ++ ys)
    (first : (ys.map some ++ [none]).head? = some p) :
    Ring (k.insertBefore (some t) p) none ((xs ++ t :: ys).map some) := by
  rw [List.map_append] at ring ⊢
  rw [List.map_cons]
  apply ring.insertBefore _ first
  rw [← List.map_append]
  simp only [List.mem_cons, reduceCtorEq, false_or,
    List.mem_map_of_injective (Option.some_injective T)]
  exact fresh

theorem refines_chSchReadyI (refines : Refines s c) (sorted : Descending c.p_prio c.ready)
    (fresh : t ∉ c.ready) (pos : NOPRIO < c.p_prio t) (enough : c.ready.length < fuel) :
    ∃ s', s.chSchReadyI fuel t = some s' ∧ Refines s' (c.chSchReadyI t) := by
  obtain ⟨xs, ys, eq, insert, before, after⟩ := insertBehind_eq (x := t) sorted
  have ring := refines.ring
  rw [eq] at ring enough fresh
  obtain ⟨p, scan, first⟩ := scan_eq (s := { s with p_state := Function.update s.p_state t .READY })
    (fun q => decide (s.p_prio (some t) ≤ q)) ring
    (by intro u hu; simpa [refines.prio] using before u hu)
    (by intro u hu; simpa [refines.prio] using after u hu)
    (by simpa [refines.prio, refines.header] using pos) enough
  refine ⟨_, by rw [chSchReadyI]; simp only [scan, Option.map_some]; rfl, ?_⟩
  constructor
  · change Ring _ none ((insertBehind c.p_prio t c.ready).map some)
    rw [insert]
    exact ring_insert ring fresh first
  · exact refines.prio
  · exact refines.header
  · change Function.update s.p_state t .READY = Function.update c.p_state t .READY
    rw [refines.state]
  · exact refines.preempt
  · exact refines.msg
  · exact refines.currp
  · change s.log ++ _ = c.log ++ _
    rw [refines.log]

theorem fifo_remove_eq {k : Links (Option T)} {tp : T} {rest : List T}
    (ring : Ring k none ((tp :: rest).map some)) :
    queue_fifo_remove k = (some tp, k.unlink (some tp)) := by
  have next : k.next none = some tp := by
    have := ring.next_header
    rw [List.map_cons, List.cons_append, List.head?_cons, Option.some.injEq] at this
    exact this.symm
  have prev : k.prev (some tp) = none := ring.prev_first
  unfold queue_fifo_remove Links.unlink
  simp [next, prev]

theorem refines_dispatch (refines : Refines s c) (some_ready : c.ready ≠ []) :
    ∃ s', s.dispatch = some s' ∧ Refines s' c.dispatch := by
  obtain ⟨tp, rest, eq⟩ := List.exists_cons_of_ne_nil some_ready
  have ring := refines.ring
  rw [eq] at ring
  rw [dispatch, fifo_remove_eq ring, Core.dispatch_cons eq]
  refine ⟨_, rfl, ?_⟩
  constructor
  · have unlinked : Ring (s.links.unlink (some tp)) none ([] ++ rest.map some) := Ring.unlink ring
    exact unlinked
  · exact refines.prio
  · exact refines.header
  · change Function.update s.p_state tp .CURRENT = Function.update c.p_state tp .CURRENT
    rw [refines.state]
  · exact refines.preempt
  · exact refines.msg
  · rfl
  · change s.log ++ _ = c.log ++ _
    rw [refines.log]

theorem Refines.setPreempt (refines : Refines s c) (t : T) (n : Nat) :
    Refines { s with p_preempt := Function.update s.p_preempt t n } (c.setPreempt t n) := by
  refine ⟨refines.ring, refines.prio, refines.header, refines.state, ?_, refines.msg, refines.currp,
    refines.log⟩
  change Function.update s.p_preempt t n = Function.update c.p_preempt t n
  rw [refines.preempt]

theorem Refines.setState (refines : Refines s c) (t : T) (st : Status W) :
    Refines { s with p_state := Function.update s.p_state t st } (c.setState t st) := by
  refine ⟨refines.ring, refines.prio, refines.header, ?_, refines.preempt, refines.msg,
    refines.currp, refines.log⟩
  change Function.update s.p_state t st = Function.update c.p_state t st
  rw [refines.state]

theorem Refines.setMsg (refines : Refines s c) (t : T) (msg : Int) :
    Refines { s with rdymsg := Function.update s.rdymsg t msg } (c.setMsg t msg) := by
  refine ⟨refines.ring, refines.prio, refines.header, refines.state, refines.preempt, ?_,
    refines.currp, refines.log⟩
  change Function.update s.rdymsg t msg = Function.update c.rdymsg t msg
  rw [refines.msg]

omit [DecidableEq T] in
theorem Refines.firstprio (refines : Refines s c) : s.firstprio = c.firstprio := by
  have next := refines.ring.next_header
  unfold Sched.firstprio Core.firstprio
  cases eq : c.ready with
  | nil =>
      rw [eq, List.map_nil, List.nil_append, List.head?_cons, Option.some.injEq] at next
      rw [← next, refines.header]
  | cons tp rest =>
      rw [eq, List.map_cons, List.cons_append, List.head?_cons, Option.some.injEq] at next
      rw [← next, refines.prio]

theorem refines_chSchGoSleepS (refines : Refines s c) (some_ready : c.ready ≠ []) (w : W) :
    ∃ s', s.chSchGoSleepS w = some s' ∧ Refines s' (c.chSchGoSleepS w) := by
  unfold Core.chSchGoSleepS
  rw [← refines.currp]
  exact refines_dispatch
    ((refines.setState s.currp (.WAIT w)).setPreempt s.currp CH_CFG_TIME_QUANTUM) some_ready

theorem refines_chSchWakeupS (refines : Refines s c) (inv : c.Inv idle)
    (pos : ∀ t, NOPRIO < c.p_prio t) (asleep : c.waiting t ≠ none) (enough : c.ready.length < fuel)
    (msg : Int) :
    ∃ s', s.chSchWakeupS fuel t msg = some s' ∧ Refines s' (c.chSchWakeupS t msg) := by
  have current : s.currp ∉ c.ready := by
    rw [refines.currp]
    exact inv.currp_not_ready
  have refines := refines.setMsg t msg
  unfold Sched.chSchWakeupS Core.chSchWakeupS
  dsimp only
  rw [show (c.setMsg t msg).currp = s.currp from refines.currp.symm, ← refines.prio, ← refines.prio]
  split_ifs
  · exact refines_chSchReadyI refines inv.sorted (fun mem => asleep (inv.waiting_ready mem))
      (pos t) enough
  · obtain ⟨s', result, refines'⟩ :=
      refines_chSchReadyI refines inv.sorted current (pos s.currp) enough
    refine ⟨{ s' with currp := t, p_state := Function.update s'.p_state t .CURRENT }, ?_, ?_⟩
    · rw [result]
      rfl
    · have refines'' := refines'.setState t .CURRENT
      exact ⟨refines''.ring, refines''.prio, refines''.header, refines''.state, refines''.preempt,
        refines''.msg,
        rfl, refines''.log⟩

theorem refines_chSchDoRescheduleBehind (refines : Refines s c) (inv : c.Inv idle)
    (pos : ∀ t, NOPRIO < c.p_prio t) (some_ready : c.ready ≠ []) (enough : c.ready.length < fuel) :
    ∃ s', s.chSchDoRescheduleBehind fuel = some s' ∧ Refines s' c.chSchDoRescheduleBehind := by
  obtain ⟨s₁, result, refines₁⟩ := refines_dispatch refines some_ready
  have rest := (inv.dispatch' some_ready).setPreempt c.currp CH_CFG_TIME_QUANTUM
  obtain ⟨s', result', refines'⟩ :=
    refines_chSchReadyI (refines₁.setPreempt c.currp CH_CFG_TIME_QUANTUM)
    rest.sorted rest.absent (by simpa using pos c.currp)
      (Nat.lt_of_le_of_lt c.length_dispatch enough)
  refine ⟨s', ?_, refines'⟩
  unfold Sched.chSchDoRescheduleBehind
  rw [result, refines.currp]
  exact result'

theorem refines_chSchDoRescheduleAhead (refines : Refines s c) (inv : c.Inv idle)
    (some_ready : c.ready ≠ []) (enough : c.ready.length < fuel) :
    ∃ s', s.chSchDoRescheduleAhead fuel = some s' ∧ Refines s' c.chSchDoRescheduleAhead := by
  obtain ⟨s₁, result, refines₁⟩ := refines_dispatch refines some_ready
  have rest := inv.dispatch' some_ready
  obtain ⟨xs, ys, eq, insert, before, after⟩ := insertAhead_eq (x := c.currp) rest.sorted
  have refines₂ := refines₁.setState c.currp .READY
  have ring := refines₂.ring
  have fresh := rest.absent
  have short := Nat.lt_of_le_of_lt c.length_dispatch enough
  rw [Core.setState_ready, eq] at ring
  rw [eq] at fresh short
  obtain ⟨p, scan, first⟩ :=
    scan_eq (s := { s₁ with p_state := Function.update s₁.p_state c.currp .READY })
    (fun q => decide (s₁.p_prio (some c.currp) < q)) ring
    (by intro u hu; simpa [refines₁.prio] using before u hu)
    (by intro u hu; simpa [refines₁.prio] using after u hu)
    (by simp [refines₁.header, NOPRIO]) short
  refine ⟨{ s₁ with
    p_state := Function.update s₁.p_state c.currp .READY
    links := s₁.links.insertBefore (some c.currp) p }, ?_, ?_⟩
  · unfold Sched.chSchDoRescheduleAhead
    rw [result, refines.currp, Option.bind_some]
    dsimp only
    rw [scan]
    rfl
  · refine ⟨?_, refines₂.prio, refines₂.header, refines₂.state, refines₂.preempt, refines₂.msg,
      refines₂.currp,
      refines₂.log⟩
    change Ring _ none ((insertAhead c.dispatch.p_prio c.currp c.dispatch.ready).map some)
    rw [insert]
    exact ring_insert ring fresh first

omit [DecidableEq T] in
theorem Refines.prio_currp (refines : Refines s c) :
    s.p_prio (some s.currp) = c.p_prio c.currp := by
  rw [refines.currp, refines.prio]

theorem refines_chSchRescheduleS (refines : Refines s c) (inv : c.Inv idle)
    (enough : c.ready.length < fuel) :
    ∃ s', s.chSchRescheduleS fuel = some s' ∧ Refines s' c.chSchRescheduleS := by
  unfold Sched.chSchRescheduleS Core.chSchRescheduleS Sched.chSchIsRescRequiredI
  rw [refines.prio_currp, refines.firstprio, ← Core.chSchIsRescRequiredI]
  split_ifs with required
  · exact refines_chSchDoRescheduleAhead refines inv
      (Core.ready_ne_nil_of_lt (of_decide_eq_true required)) enough
  · exact ⟨s, rfl, refines⟩

theorem refines_chSchDoYieldS (refines : Refines s c) (inv : c.Inv idle)
    (pos : ∀ t, NOPRIO < c.p_prio t) (enough : c.ready.length < fuel) :
    ∃ s', s.chSchDoYieldS fuel = some s' ∧ Refines s' c.chSchDoYieldS := by
  unfold Sched.chSchDoYieldS Core.chSchDoYieldS Sched.chSchCanYieldS
  rw [refines.prio_currp, refines.firstprio, ← Core.chSchCanYieldS]
  split_ifs with possible
  · exact refines_chSchDoRescheduleBehind refines inv pos
      (Core.ready_ne_nil_of_le (pos c.currp) (of_decide_eq_true possible)) enough
  · exact ⟨s, rfl, refines⟩

theorem refines_chSchPreemption (refines : Refines s c) (inv : c.Inv idle)
    (pos : ∀ t, NOPRIO < c.p_prio t) (enough : c.ready.length < fuel) :
    ∃ s', s.chSchPreemption fuel = some s' ∧ Refines s' c.chSchPreemption := by
  unfold Sched.chSchPreemption Core.chSchPreemption
  rw [refines.prio_currp, refines.firstprio, refines.preempt, refines.currp]
  split_ifs with slice higher higher
  · exact refines_chSchDoRescheduleAhead refines inv (Core.ready_ne_nil_of_lt higher) enough
  · exact ⟨s, rfl, refines⟩
  · exact refines_chSchDoRescheduleBehind refines inv pos
      (Core.ready_ne_nil_of_le (pos c.currp) higher) enough
  · exact ⟨s, rfl, refines⟩

theorem refines_chSchDoReschedule (refines : Refines s c) (inv : c.Inv idle)
    (pos : ∀ t, NOPRIO < c.p_prio t) (some_ready : c.ready ≠ []) (enough : c.ready.length < fuel) :
    ∃ s', s.chSchDoReschedule fuel = some s' ∧ Refines s' c.chSchDoReschedule := by
  unfold Sched.chSchDoReschedule Core.chSchDoReschedule
  rw [refines.preempt, refines.currp]
  split_ifs
  · exact refines_chSchDoRescheduleBehind refines inv pos some_ready enough
  · exact refines_chSchDoRescheduleAhead refines inv some_ready enough

theorem refines_tick (refines : Refines s c) : Refines s.tick c.tick := by
  unfold Sched.tick Core.tick
  rw [refines.preempt, ← refines.currp]
  split_ifs
  · have := refines.setPreempt s.currp (c.p_preempt s.currp - 1)
    rwa [refines.preempt] at this
  · exact refines

omit [DecidableEq T] in
theorem Refines.required (refines : Refines s c)
    (required : s.chSchIsPreemptionRequired = true ∨ s.chSchIsRescRequiredI = true) :
    c.chSchIsPreemptionRequired = true ∨ c.chSchIsRescRequiredI = true := by
  unfold Sched.chSchIsPreemptionRequired Sched.chSchIsRescRequiredI at required
  rw [refines.prio_currp, refines.firstprio, refines.preempt, refines.currp] at required
  exact required

end Refinement

/-! ### Runs -/

/-- A thread that is neither ready nor current. -/
def Asleep (s : Sched T W) (t : T) : Prop := s.p_state t ≠ .READY ∧ s.p_state t ≠ .CURRENT

instance [DecidableEq W] (s : Sched T W) (t : T) : Decidable (s.Asleep t) :=
  inferInstanceAs (Decidable (s.p_state t ≠ .READY ∧ s.p_state t ≠ .CURRENT))

/-- The calls of the scheduler, with the idle thread never going to sleep. -/
inductive Step (idle : T) : Sched T W → Sched T W → Prop where
  | ready {s s' : Sched T W} (fuel : Nat) (tp : T) (asleep : s.Asleep tp)
      (result : s.chSchReadyI fuel tp = some s') : Step idle s s'
  | sleep {s s' : Sched T W} (newstate : W) (other : s.currp ≠ idle)
      (result : s.chSchGoSleepS newstate = some s') : Step idle s s'
  | wakeup {s s' : Sched T W} (fuel : Nat) (ntp : T) (msg : Int) (asleep : s.Asleep ntp)
      (result : s.chSchWakeupS fuel ntp msg = some s') : Step idle s s'
  | reschedule {s s' : Sched T W} (fuel : Nat) (result : s.chSchRescheduleS fuel = some s') :
    Step idle s s'
  | yield {s s' : Sched T W} (fuel : Nat) (result : s.chSchDoYieldS fuel = some s') : Step idle s s'
  | preemption {s s' : Sched T W} (fuel : Nat) (result : s.chSchPreemption fuel = some s') :
    Step idle s s'
  | tick {s : Sched T W} : Step idle s s.tick
  | doReschedule {s s' : Sched T W} (fuel : Nat) (required : s.chSchIsPreemptionRequired = true)
      (result : s.chSchDoReschedule fuel = some s') : Step idle s s'
  | behind {s s' : Sched T W} (fuel : Nat)
      (required : s.chSchIsPreemptionRequired = true ∨ s.chSchIsRescRequiredI = true)
      (result : s.chSchDoRescheduleBehind fuel = some s') : Step idle s s'
  | ahead {s s' : Sched T W} (fuel : Nat)
      (required : s.chSchIsPreemptionRequired = true ∨ s.chSchIsRescRequiredI = true)
      (result : s.chSchDoRescheduleAhead fuel = some s') : Step idle s s'

/-- The memory before the start: no thread is ready or runs, and all priorities are
above that of the list header. -/
structure Start (s : Sched T W) (idle : T) : Prop where
  asleep : ∀ t, s.Asleep t
  pos : ∀ t, NOPRIO < s.p_prio (some t)
  prio_idle : s.p_prio (some idle) = IDLEPRIO
  log : s.log = []

/-- The states of a run from `_scheduler_init` on. -/
def Reachable (main idle : T) (s : Sched T W) : Prop :=
  ∃ s₀ s₁ fuel, Start s₀ idle ∧ s₀.chSysInit fuel main idle = some s₁ ∧
    Relation.ReflTransGen (Step idle) s₁ s

/-- A state of the links with the list it stands for. -/
structure Good (idle : T) (s : Sched T W) (c : Core T W) : Prop where
  refines : Refines s c
  inv : c.Inv idle
  fifo : c.Fifo
  pos : ∀ t, NOPRIO < c.p_prio t

section Runs

variable {s s' : Sched T W} {c : Core T W} {main idle t : T} {fuel : Nat}

/-- Two results of one call, with different bounds, are the same. -/
theorem Good.of_result {c' : Core T W} {call : Nat → Option (Sched T W)}
    (mono : ∀ {k m : Nat} {s' : Sched T W}, k ≤ m → call k = some s' → call m = some s')
    (returns : ∃ s', call (max fuel (c.ready.length + 1)) = some s' ∧ Refines s' c')
    (result : call fuel = some s') (inv : c'.Inv idle) (fifo : c'.Fifo)
    (pos : ∀ t, NOPRIO < c'.p_prio t) :
    Good idle s' c' := by
  obtain ⟨s'', result', refines⟩ := returns
  have same := mono (le_max_left fuel (c.ready.length + 1)) result
  rw [result', Option.some.injEq] at same
  exact ⟨same ▸ refines, inv, fifo, pos⟩

theorem enough (fuel n : Nat) : n < max fuel (n + 1) :=
  lt_of_lt_of_le (Nat.lt_succ_self n) (le_max_right _ _)

theorem Good.asleep (good : Good idle s c) (asleep : s.Asleep t) : c.waiting t ≠ none := by
  intro h
  rcases Core.waiting_eq_none.mp h with h | h
  · exact asleep.1 (good.refines.state ▸ h)
  · exact asleep.2 (good.refines.state ▸ h)

theorem Good.some_ready (good : Good idle s c)
    (required : s.chSchIsPreemptionRequired = true ∨ s.chSchIsRescRequiredI = true) :
    c.ready ≠ [] := by
  rcases good.refines.required required with h | h
  · exact Core.ready_ne_nil_of_preemption (good.pos _) h
  · exact Core.ready_ne_nil_of_lt (of_decide_eq_true h)

theorem good_step (good : Good idle s c) (step : Step idle s s') : ∃ c', Good idle s' c' := by
  have refines := good.refines
  have inv := good.inv
  have fifo := good.fifo
  have pos := good.pos
  cases step with
  | ready fuel tp asleep result =>
      have asleep := good.asleep asleep
      have fresh : tp ∉ c.ready := fun mem => asleep (inv.waiting_ready mem)
      refine ⟨c.chSchReadyI tp, Good.of_result (c := c) chSchReadyI_mono ?_ result ?_ ?_ pos⟩
      · exact refines_chSchReadyI refines inv.sorted fresh (pos tp) (enough _ _)
      · exact inv.chSchReadyI asleep
      · exact fifo.chSchReadyI inv.sorted fresh
  | sleep newstate other result =>
      rw [refines.currp] at other
      obtain ⟨s'', result', refines'⟩ :=
        refines_chSchGoSleepS refines (inv.ready_ne_nil other) newstate
      rw [result', Option.some.injEq] at result
      refine ⟨c.chSchGoSleepS newstate, result ▸ refines', ?_, ?_, ?_⟩
      · exact inv.chSchGoSleepS other newstate
      · exact fifo.chSchGoSleepS inv newstate
      · simpa using pos
  | wakeup fuel ntp msg asleep result =>
      have asleep := good.asleep asleep
      refine ⟨c.chSchWakeupS ntp msg, Good.of_result (c := c) chSchWakeupS_mono ?_ result ?_ ?_ ?_⟩
      · exact refines_chSchWakeupS refines inv pos asleep (enough _ _) msg
      · exact inv.chSchWakeupS asleep msg
      · exact fifo.chSchWakeupS inv asleep msg
      · simpa using pos
  | reschedule fuel result =>
      refine ⟨c.chSchRescheduleS, Good.of_result (c := c) chSchRescheduleS_mono ?_ result ?_ ?_ ?_⟩
      · exact refines_chSchRescheduleS refines inv (enough _ _)
      · exact inv.chSchRescheduleS
      · exact fifo.chSchRescheduleS inv
      · simpa using pos
  | yield fuel result =>
      refine ⟨c.chSchDoYieldS, Good.of_result (c := c) chSchDoYieldS_mono ?_ result ?_ ?_ ?_⟩
      · exact refines_chSchDoYieldS refines inv pos (enough _ _)
      · exact inv.chSchDoYieldS (pos _)
      · exact fifo.chSchDoYieldS inv (pos _)
      · simpa using pos
  | preemption fuel result =>
      refine ⟨c.chSchPreemption, Good.of_result (c := c) chSchPreemption_mono ?_ result ?_ ?_ ?_⟩
      · exact refines_chSchPreemption refines inv pos (enough _ _)
      · exact inv.chSchPreemption (pos _)
      · exact fifo.chSchPreemption inv (pos _)
      · simpa using pos
  | tick =>
      refine ⟨c.tick, refines_tick refines, inv.tick, ?_, ?_⟩
      · exact fifo.tick
      · simpa using pos
  | doReschedule fuel required result =>
      have some_ready := good.some_ready (.inl required)
      refine ⟨c.chSchDoReschedule,
        Good.of_result (c := c) chSchDoReschedule_mono ?_ result ?_ ?_ ?_⟩
      · exact refines_chSchDoReschedule refines inv pos some_ready (enough _ _)
      · exact inv.chSchDoReschedule some_ready
      · exact fifo.chSchDoReschedule inv some_ready
      · simpa using pos
  | behind fuel required result =>
      have some_ready := good.some_ready required
      refine ⟨c.chSchDoRescheduleBehind,
        Good.of_result (c := c) chSchDoRescheduleBehind_mono ?_ result ?_ ?_ ?_⟩
      · exact refines_chSchDoRescheduleBehind refines inv pos some_ready (enough _ _)
      · exact inv.chSchDoRescheduleBehind some_ready
      · exact fifo.chSchDoRescheduleBehind inv some_ready
      · simpa using pos
  | ahead fuel required result =>
      have some_ready := good.some_ready required
      refine ⟨c.chSchDoRescheduleAhead,
        Good.of_result (c := c) chSchDoRescheduleAhead_mono ?_ result ?_ ?_ ?_⟩
      · exact refines_chSchDoRescheduleAhead refines inv some_ready (enough _ _)
      · exact inv.chSchDoRescheduleAhead some_ready
      · exact fifo.chSchDoRescheduleAhead inv
      · simpa using pos

/-- The list level of the state in which only the main thread runs. -/
def booted (s : Sched T W) (main : T) : Core T W where
  p_prio t := s.p_prio (some t)
  p_state := Function.update s.p_state main .CURRENT
  p_preempt := s.p_preempt
  rdymsg := s.rdymsg
  ready := []
  currp := main
  log := []

theorem good_booted (start : Start s idle) (main : T) :
    Good main { s._scheduler_init with
      currp := main
      p_state := Function.update s.p_state main .CURRENT }
      (booted s main) := by
  constructor
  · constructor
    · change Ring (s.links.empty none) none []
      exact ring_empty _ _
    · intro t
      rfl
    · exact Function.update_self none NOPRIO s.p_prio
    · rfl
    · rfl
    · rfl
    · rfl
    · exact start.log
  · constructor
    · exact .nil
    · exact .nil
    · intro t
      by_cases same : t = main
      · simp [booted, same]
      · simp [booted, Function.update_of_ne same, (start.asleep t).1]
    · intro t
      by_cases same : t = main
      · simp [booted, same]
      · simp [booted, (start.asleep t).2, same]
    · apply Core.waiting_eq_none.mpr
      right
      exact Function.update_self _ _ _
  · constructor
    · exact .nil
    · intro t ht
      exact absurd ht (by simp [booted, Core.pending])
    · intro a b sub
      exact absurd sub (by simp [booted, Core.pending])
    · intro l₁ b l₂ eq
      exact absurd eq (by simp [booted])
  · exact start.pos

theorem good_chSysInit (start : Start s idle) (result : s.chSysInit fuel main idle = some s') :
    ∃ c, Good idle s' c := by
  have good := good_booted start main
  unfold chSysInit at result
  dsimp only at result
  split_ifs at result with same
  · rw [Option.some.injEq] at result
    exact ⟨booted s main, same ▸ result ▸ good⟩
  · have asleep : (booted s main).waiting idle ≠ none := by
      intro h
      have other : (booted s main).p_state idle = s.p_state idle :=
        Function.update_of_ne (Ne.symm same) _ _
      rcases Core.waiting_eq_none.mp h with h | h
      · exact (start.asleep idle).1 (other ▸ h)
      · exact (start.asleep idle).2 (other ▸ h)
    have inv := good.inv.chSchWakeupS asleep MSG_OK
    refine ⟨(booted s main).chSchWakeupS idle MSG_OK,
      Good.of_result (c := booted s main) chSchWakeupS_mono ?_ result ?_ ?_ ?_⟩
    · exact refines_chSchWakeupS good.refines good.inv good.pos asleep (enough _ _) MSG_OK
    · refine ⟨inv.sorted, inv.nodup, inv.mem_ready, inv.current, ?_⟩
      rw [good.inv.waiting_chSchWakeupS, Function.update_self]
    · exact good.fifo.chSchWakeupS good.inv asleep MSG_OK
    · simpa using good.pos

theorem Reachable.good (reachable : Reachable main idle s) : ∃ c, Good idle s c := by
  obtain ⟨s₀, s₁, fuel, start, boot, run⟩ := reachable
  induction run with
  | refl => exact good_chSysInit start boot
  | tail _ step ih =>
      obtain ⟨c, good⟩ := ih
      exact good_step good step

/-- In every state of a run the links form a ring through the ready threads, each once,
in the order of their priorities, the current thread is the only one in its state,
threads of equal priority have left in the order of their calls of `chSchReadyI`, and
every call returns. -/
theorem ready_list_invariant (reachable : Reachable main idle s) :
    ∃ l : List T,
      Ring s.links none (l.map some) ∧
      Descending (fun t => s.p_prio (some t)) l ∧
      (∀ t, t ∈ l ↔ s.p_state t = .READY) ∧
      (∀ t, s.p_state t = .CURRENT ↔ t = s.currp) ∧
      Core.Fair (fun t => s.p_prio (some t)) s.log ∧
      ∀ fuel, l.length < fuel →
        (∀ t, s.Asleep t → ∃ s', s.chSchReadyI fuel t = some s') ∧
        (∀ w, s.currp ≠ idle → ∃ s', s.chSchGoSleepS w = some s') ∧
        (∀ t msg, s.Asleep t → ∃ s', s.chSchWakeupS fuel t msg = some s') ∧
        (∃ s', s.chSchRescheduleS fuel = some s') ∧
        (∃ s', s.chSchDoYieldS fuel = some s') ∧
        (∃ s', s.chSchPreemption fuel = some s') ∧
        (s.chSchIsPreemptionRequired = true ∨ s.chSchIsRescRequiredI = true →
          (∃ s', s.chSchDoRescheduleBehind fuel = some s') ∧
            ∃ s', s.chSchDoRescheduleAhead fuel = some s') := by
  obtain ⟨c, good⟩ := reachable.good
  have refines := good.refines
  have inv := good.inv
  have pos := good.pos
  have prio : (fun t => s.p_prio (some t)) = c.p_prio := funext refines.prio
  refine ⟨c.ready, refines.ring, ?_, ?_, ?_, ?_, ?_⟩
  · rw [prio]
    exact inv.sorted
  · rw [refines.state]
    exact inv.mem_ready
  · rw [refines.state, refines.currp]
    exact inv.current
  · rw [prio, refines.log]
    exact good.fifo.fair
  · intro fuel room
    refine ⟨?_, ?_, ?_, ?_, ?_, ?_, ?_⟩
    · intro t asleep
      have fresh : t ∉ c.ready := fun mem => good.asleep asleep (inv.waiting_ready mem)
      exact (refines_chSchReadyI refines inv.sorted fresh (pos t) room).imp fun _ h => h.1
    · intro w other
      rw [refines.currp] at other
      exact (refines_chSchGoSleepS refines (inv.ready_ne_nil other) w).imp fun _ h => h.1
    · intro t msg asleep
      exact (refines_chSchWakeupS refines inv pos (good.asleep asleep) room msg).imp fun _ h => h.1
    · exact (refines_chSchRescheduleS refines inv room).imp fun _ h => h.1
    · exact (refines_chSchDoYieldS refines inv pos room).imp fun _ h => h.1
    · exact (refines_chSchPreemption refines inv pos room).imp fun _ h => h.1
    · intro required
      have some_ready := good.some_ready required
      constructor
      · exact (refines_chSchDoRescheduleBehind refines inv pos some_ready room).imp fun _ h => h.1
      · exact (refines_chSchDoRescheduleAhead refines inv some_ready room).imp fun _ h => h.1

end Runs

/-- Three threads before the start: the idle thread 0 and two others of priority 64. -/
def sampleSched : Sched (Fin 3) Unit where
  links := ⟨id, id⟩
  p_prio := fun | none => 7 | some 0 => 1 | some _ => 64
  p_state := fun _ => .WAIT ()
  p_preempt := fun _ => 20
  rdymsg := fun _ => 0
  currp := 2
  log := []

/-- After the start. -/
def sampleBooted : Sched (Fin 3) Unit :=
  { sampleSched._scheduler_init with
    currp := 0
    p_state := Function.update sampleSched.p_state 0 .CURRENT }

/-- After `chSchReadyI` of thread 1. -/
def sampleReadied : Sched (Fin 3) Unit :=
  { sampleBooted with
    links := sampleBooted.links.insertBefore (some 1) none
    p_state := Function.update sampleBooted.p_state 1 .READY
    log := [.readied 1] }

/-- After `chSchReadyI` of thread 2, which is of the same priority. -/
def sampleBoth : Sched (Fin 3) Unit :=
  { sampleReadied with
    links := sampleReadied.links.insertBefore (some 2) none
    p_state := Function.update sampleReadied.p_state 2 .READY
    log := [.readied 1, .readied 2] }

theorem sampleBoth_reachable : Reachable 0 0 sampleBoth := by
  have start : Start sampleSched 0 := by
    refine ⟨?_, by decide, rfl, rfl⟩
    intro t
    exact ⟨by simp [sampleSched], by simp [sampleSched]⟩
  have first : Step 0 sampleBooted sampleReadied := .ready 9 1 (by decide) rfl
  have second : Step 0 sampleReadied sampleBoth := .ready 9 2 (by decide) rfl
  exact ⟨sampleSched, sampleBooted, 9, start, rfl, .tail (.single first) second⟩

/-- With both ready, the first one is dispatched. -/
theorem sampleBoth_invariant :
    ∃ s, Step 0 sampleBoth s ∧ s.log = [.readied 1, .readied 2, .dispatched 1] ∧
      (∃ l : List (Fin 3), Ring s.links none (l.map some) ∧
        Descending (fun t => s.p_prio (some t)) l ∧ ∀ t, t ∈ l ↔ s.p_state t = .READY) ∧
      Core.Fair (fun t => s.p_prio (some t)) s.log := by
  obtain ⟨s, step, log⟩ :
      ∃ s, Step 0 sampleBoth s ∧ s.log = [.readied 1, .readied 2, .dispatched 1] :=
    ⟨_, .reschedule 9 rfl, rfl⟩
  obtain ⟨s₀, s₁, fuel, start, boot, run⟩ := sampleBoth_reachable
  have reachable : Reachable 0 0 s := ⟨s₀, s₁, fuel, start, boot, run.tail step⟩
  obtain ⟨l, ring, sorted, ready, -, fair, -⟩ := ready_list_invariant reachable
  exact ⟨s, step, log, ⟨l, ring, sorted, ready⟩, fair⟩

end Sched

end LtcOs.Kernel
