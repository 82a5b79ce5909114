import LtcOs.Kernel.VirtualTimers

/-!
Virtual timers in tick-less mode (`chvt.c`, `chvt.h`, `CH_CFG_ST_TIMEDELTA > 0`).

The delta list is that of the periodic mode, but it starts at `vt_lasttime`, the expiry of
the last timer that was served, and the time is read from a clock of 32 bits that runs on.
A delay is added to the time that has passed since `vt_lasttime`; where this sum does not
fit in 32 bits the timer is put too far to the front. As long as it does fit, no timer is
served early, however late the ticks are and however often the clock wraps.
-/

namespace LtcOs.Tickless

open LtcOs.Linked LtcOs.Timers

/-- `ch.vtlist` in this mode; the list of the other one has a `vt_systime` that is not used
here. -/
structure VtList (τ φ π : Type) where
  list : Timers.VtList τ φ π
  vt_lasttime : UInt32

/-- What is asked of the port timer. -/
inductive PortOp where
  | keep
  | start_alarm (time : UInt32)
  | set_alarm (time : UInt32)
  | stop_alarm

variable {τ φ π : Type}

namespace VtList

variable [DecidableEq τ]

/-- The timer as the only one on the list. -/
def insertOnly (vt : Timers.VtList τ φ π) (vtp : τ) (delay : UInt32) : Timers.VtList τ φ π :=
  { vt with
    links :=
      { next := Function.update (Function.update vt.links.next none (some vtp)) (some vtp) none
        prev := Function.update (Function.update vt.links.prev none (some vtp)) (some vtp) none }
    vt_delta := Function.update vt.vt_delta (some vtp) delay }

/-- `chVTDoSetI`, with a bound on the rounds of its scan. -/
def chVTDoSetI (TIMEDELTA now : UInt32) (s : VtList τ φ π) (fuel : Nat) (vtp : τ) (delay : UInt32)
    (vtfunc : φ) (par : π) : Option (VtList τ φ π × PortOp) :=
  let list := s.list.withTimer vtp vtfunc par
  let delay := if delay < TIMEDELTA then TIMEDELTA else delay
  let first := list.links.next none
  if none = first then
    some (⟨insertOnly list vtp delay, now⟩, .start_alarm (now + delay))
  else
    let delta := now + delay - s.vt_lasttime
    let op := if delta < list.vt_delta first then .set_alarm (s.vt_lasttime + delta) else .keep
    (list.scan fuel first delta).map fun r => (⟨list.insert vtp r.1 r.2, s.vt_lasttime⟩, op)

/-- `chVTDoResetI` on a timer that is not the first. -/
def resetLater (vt : Timers.VtList τ φ π) (vtp : τ) : Timers.VtList τ φ π :=
  let next := vt.links.next (some vtp)
  { vt with
    links := vt.links.unlink (some vtp)
    vt_func := Function.update vt.vt_func vtp none
    vt_delta :=
      if none ≠ next then Function.update vt.vt_delta next (vt.vt_delta next + vt.vt_delta (some vtp))
      else vt.vt_delta }

/-- `chVTDoResetI` on the first timer. -/
def resetFirst (vt : Timers.VtList τ φ π) (vtp : τ) : Timers.VtList τ φ π :=
  let next := vt.links.next (some vtp)
  { vt with
    links :=
      { next := Function.update vt.links.next none next
        prev := Function.update vt.links.prev next none }
    vt_func := Function.update vt.vt_func vtp none
    vt_delta :=
      if none ≠ next then Function.update vt.vt_delta next (vt.vt_delta next + vt.vt_delta (some vtp))
      else vt.vt_delta }

/-- The alarm after the first timer was removed. -/
def nextAlarm (TIMEDELTA now : UInt32) (s : VtList τ φ π) : PortOp :=
  let first := s.list.links.next none
  if none = first then .stop_alarm
  else
    let nowdelta := now - s.vt_lasttime
    if nowdelta ≥ s.list.vt_delta first then .keep
    else
      let delta := s.list.vt_delta first - nowdelta
      let delta := if delta < TIMEDELTA then TIMEDELTA else delta
      .set_alarm (s.vt_lasttime + nowdelta + delta)

def chVTDoResetI (TIMEDELTA now : UInt32) (s : VtList τ φ π) (vtp : τ) : VtList τ φ π × PortOp :=
  if s.list.links.next none ≠ some vtp then ({ s with list := resetLater s.list vtp }, .keep)
  else
    let s := { s with list := resetFirst s.list vtp }
    (s, s.nextAlarm TIMEDELTA now)

/-- The test of the loop of `chVTDoTickI`. -/
def Due (s : VtList τ φ π) (now : UInt32) : Prop :=
  s.list.vt_delta (s.list.links.next none) ≤ now - s.vt_lasttime

instance (s : VtList τ φ π) (now : UInt32) : Decidable (s.Due now) :=
  inferInstanceAs (Decidable (_ ≤ _))

/-- One round of the loop of `chVTDoTickI` on the first timer, up to its callback. -/
def expire (s : VtList τ φ π) (vtp : τ) : VtList τ φ π × PortOp :=
  let list := s.list.expire vtp
  (⟨list, s.vt_lasttime + s.list.vt_delta (some vtp)⟩,
    if list.links.next none = none then .stop_alarm else .keep)

/-- The end of `chVTDoTickI`. -/
def rearm (TIMEDELTA now : UInt32) (s : VtList τ φ π) : PortOp :=
  let first := s.list.links.next none
  if first = none then .keep
  else
    let delta := s.vt_lasttime + s.list.vt_delta first - now
    let delta := if delta < TIMEDELTA then TIMEDELTA else delta
    .set_alarm (now + delta)

end VtList

/-! ### Runs -/

/-- Outside of `chVTDoTickI`, at the test of its loop with the time it has read, in a
callback, or where the word after the header has been called. -/
inductive Mode where
  | idle
  | looping (now : UInt32)
  | callback
  | lost
deriving DecidableEq, Repr

/-- The timers, the time since the start and when the port timer is due. -/
structure Sys (τ φ π : Type) where
  vt : VtList τ φ π
  mode : Mode
  time : Nat
  alarm : Option Nat
  log : List (Event τ φ π)

/-- `port_timer_get_time`. -/
def clock (time : Nat) : UInt32 := UInt32.ofNat time

/-- The port timer is next due when the clock reads `time`. -/
def PortOp.apply (now : Nat) (alarm : Option Nat) : PortOp → Option Nat
  | .keep => alarm
  | .start_alarm time => some (now + (time - clock now).toNat)
  | .set_alarm time => some (now + (time - clock now).toNat)
  | .stop_alarm => none

section Steps

variable [DecidableEq τ]

/-- One operation, one part of a tick, or time passes. Timers are set while unarmed and
reset while armed, and a tick comes no earlier than the alarm. The settings are those that
`ok` admits. A loop that is left with an empty list one tick before a full turn of the clock
takes the header for a timer: it calls `vt_lasttime`, and with this the run ends. -/
inductive Step (TIMEDELTA : UInt32) (ok : Sys τ φ π → UInt32 → Prop) :
    Sys τ φ π → Sys τ φ π → Prop where
  | clock {s : Sys τ φ π} (time : Nat) (later : s.time ≤ time) :
      Step TIMEDELTA ok s { s with time := time }
  | set {s : Sys τ φ π} {vt : VtList τ φ π} {op : PortOp} (fuel : Nat) (vtp : τ) (delay : UInt32)
    (vtfunc : φ) (par : π) (outside : s.mode = .idle ∨ s.mode = .callback)
      (unarmed : s.vt.list.vt_func vtp = none) (later : delay ≠ 0) (admitted : ok s delay)
      (result : s.vt.chVTDoSetI TIMEDELTA (clock s.time) fuel vtp delay vtfunc par =
        some (vt, op)) :
      Step TIMEDELTA ok s { s with
        vt := vt
        alarm := op.apply s.time s.alarm
        log := s.log ++ [.set s.time vtp delay vtfunc par] }
  | reset {s : Sys τ φ π} {vt : VtList τ φ π} {op : PortOp} (vtp : τ)
    (outside : s.mode = .idle ∨ s.mode = .callback) (armed : s.vt.list.vt_func vtp ≠ none)
      (result : s.vt.chVTDoResetI TIMEDELTA (clock s.time) vtp = (vt, op)) :
      Step TIMEDELTA ok s { s with
        vt := vt
        alarm := op.apply s.time s.alarm
        log := s.log ++ [.reset s.time vtp] }
  | tick {s : Sys τ φ π} {at_ : Nat} (idle : s.mode = .idle) (alarm : s.alarm = some at_)
    (reached : at_ ≤ s.time) :
      Step TIMEDELTA ok s { s with mode := .looping (clock s.time) }
  | fire {s : Sys τ φ π} {now : UInt32} (vtp : τ) (fn : φ) (looping : s.mode = .looping now)
      (first : s.vt.list.links.next none = some vtp) (due : s.vt.Due now)
      (func : s.vt.list.vt_func vtp = some fn) :
      Step TIMEDELTA ok s { s with
        vt := (s.vt.expire vtp).1
        mode := .callback
        alarm := (s.vt.expire vtp).2.apply s.time s.alarm
        log := s.log ++ [.fire s.time vtp fn (s.vt.list.vt_par vtp)
          ((s.vt.expire vtp).1.list.vt_func vtp)] }
  | header {s : Sys τ φ π} {now : UInt32} (looping : s.mode = .looping now)
    (empty : s.vt.list.links.next none = none) (due : s.vt.Due now) :
      Step TIMEDELTA ok s { s with mode := .lost }
  | return {s : Sys τ φ π} (callback : s.mode = .callback) :
      Step TIMEDELTA ok s { s with mode := .looping (clock s.time) }
  | done {s : Sys τ φ π} {now : UInt32} (looping : s.mode = .looping now)
    (later : ¬ s.vt.Due now) :
      Step TIMEDELTA ok s { s with
        mode := .idle
        alarm := (s.vt.rearm TIMEDELTA now).apply s.time s.alarm }

/-- States reached from `_vt_init`, at any time of the clock. -/
def Reachable (TIMEDELTA : UInt32) (ok : Sys τ φ π → UInt32 → Prop) (s : Sys τ φ π) : Prop :=
  ∃ (list : Timers.VtList τ φ π) (time : Nat),
    Relation.ReflTransGen (Step TIMEDELTA ok)
      ⟨⟨list._vt_init, 0⟩, .idle, time, none, []⟩ s

/-- The list is empty, or the time since `vt_lasttime` and the delay fit in 32 bits
together. -/
def DelayFits (TIMEDELTA : UInt32) (s : Sys τ φ π) (delay : UInt32) : Prop :=
  s.vt.list.links.next none = none ∨
    (clock s.time - s.vt.vt_lasttime).toNat + max delay.toNat TIMEDELTA.toNat < 2 ^ 32

/-- No callback runs before the delay has passed for which its timer was set last. -/
def NeverEarly (log : List (Event τ φ π)) : Prop :=
  ∀ pre post m t f p func, log = pre ++ .fire m t f p func :: post →
    ∃ pre' mid n, ∃ delay : UInt32, pre = pre' ++ .set n t delay f p :: mid ∧
      (∀ e ∈ mid, e.timer ≠ t) ∧ n + delay.toNat ≤ m

end Steps

/-! ### The operations on the list -/

section Later

variable {vt : Timers.VtList τ φ π} {armed : τ → Option (Nat × φ × π)} {base : Nat} {l : List τ}

/-- The whole list later. -/
def delayed (c : Nat) (armed : τ → Option (Nat × φ × π)) (t : τ) : Option (Nat × φ × π) :=
  (armed t).map fun a => (a.1 + c, a.2)

theorem deltas_delayed (c : Nat) (deltas : Deltas vt armed base l) :
    Deltas vt (delayed c armed) (base + c) l := by
  induction l generalizing base with
  | nil => trivial
  | cons x xs ih =>
      obtain ⟨⟨f, func, at_x⟩, rest⟩ := deltas
      constructor
      · refine ⟨f, func, ?_⟩
        rw [delayed, at_x, Nat.add_right_comm]
        rfl
      · have := ih rest
        rwa [Nat.add_right_comm] at this

theorem linked_delayed (c : Nat) (linked : Linked vt armed base l) :
    Linked vt (delayed c armed) (base + c) l where
  ring := linked.ring
  header := linked.header
  func := linked.func
  deltas := deltas_delayed c linked.deltas
  armed t h := linked.armed t fun none => h (by rw [delayed, none]; rfl)
  bound := linked.bound

/-- An empty list can start anywhere. -/
theorem linked_nil (linked : Linked vt armed base []) (base' : Nat) : Linked vt armed base' [] :=
  ⟨linked.ring, linked.header, linked.func, trivial, linked.armed, linked.bound⟩

end Later

section List

variable [DecidableEq τ] {vt : Timers.VtList τ φ π} {armed : τ → Option (Nat × φ × π)} {base : Nat}
  {l : List τ} {t : τ}

/-- On an empty list the timer is inserted as it is by the periodic mode. -/
theorem insertOnly_eq (ring : Ring vt.links none [])
    (header : vt.vt_delta none = Timers.VtList.sentinel) (delay : UInt32) :
    VtList.insertOnly vt t delay = vt.insert t none delay := by
  have prev : vt.links.prev none = none := by
    have := ring.prev
    simpa using this
  have apart : (none : Option τ) ≠ some t := by simp
  simp only [VtList.insertOnly, Timers.VtList.insert, Links.insertBefore, Function.update_self,
    prev]
  congr 1
  · rw [Function.update_comm apart, Function.update_comm apart.symm]
    congr 1
    exact Function.update_comm apart _ _ _
  · funext x
    cases x with
    | none => simp [Function.update_of_ne, apart, header]
    | some x =>
        by_cases same : x = t
        · simp [same]
        · simp [Function.update_of_ne, same]

/-- Adding to the header's delta and restoring it is no change. -/
theorem deltas_restored (header : vt.vt_delta none = Timers.VtList.sentinel) (next : Option τ)
    (x : UInt32) :
    (if none ≠ next then Function.update vt.vt_delta next x else vt.vt_delta) =
      Function.update (Function.update vt.vt_delta next x) none Timers.VtList.sentinel := by
  cases next with
  | none =>
      rw [if_neg (by simp), Function.update_idem, ← header, Function.update_eq_self]
  | some y =>
      rw [if_pos (by simp), Function.update_comm (by simp), ← header]
      congr 1
      exact (Function.update_eq_self _ _).symm

theorem resetLater_eq (linked : Linked vt armed base l) :
    VtList.resetLater vt t = vt.chVTDoResetI t := by
  simp only [VtList.resetLater, Timers.VtList.chVTDoResetI, deltas_restored linked.header]

theorem resetFirst_eq (linked : Linked vt armed base l) (first : vt.links.next none = some t) :
    VtList.resetFirst vt t = vt.chVTDoResetI t := by
  obtain ⟨ys, rfl⟩ := linked.eq_cons first
  have prev : vt.links.prev (some t) = none := by
    have ring := linked.ring
    rw [List.map_cons] at ring
    exact ring.prev_first
  simp only [VtList.resetFirst, Timers.VtList.chVTDoResetI, deltas_restored linked.header,
    Links.unlink, prev]
  rw [Function.update_of_ne (Option.some_ne_none t)]

end List

/-! ### The clock -/

section Clock

/-- The clock has read `last` at the time `base`. -/
def Reads (base : Nat) (last : UInt32) : Prop := base % 4294967296 = last.toNat

theorem reads_clock (time : Nat) : Reads time (clock time) := by
  rw [Reads, clock, UInt32.toNat_ofNat']

/-- The difference of two readings is the time between them, if this fits. -/
theorem toNat_sub_reads {base now : Nat} {last x : UInt32} (start : Reads base last)
    (stop : Reads now x) (le : base ≤ now) :
    (x - last).toNat = (now - base) % 4294967296 := by
  have := x.toNat_lt
  have := last.toNat_lt
  unfold Reads at start stop
  rw [UInt32.toNat_sub]
  change (4294967296 - last.toNat + x.toNat) % 4294967296 = _
  omega

theorem reads_add {base : Nat} {last x : UInt32} (start : Reads base last) :
    Reads (base + x.toNat) (last + x) := by
  unfold Reads at start ⊢
  rw [UInt32.toNat_add]
  change _ = (last.toNat + x.toNat) % 4294967296
  omega

/-- The time that the loop has read, counted from the start of the list. -/
def LoopOk (s : Sys τ φ π) (base : Nat) : Prop :=
  ∀ now, s.mode = .looping now → ∃ n, Reads n now ∧ base ≤ n ∧ n ≤ s.time ∧ n - base < 4294967296

theorem not_looping {s : Sys τ φ π} (outside : s.mode = .idle ∨ s.mode = .callback)
    (now : UInt32) : s.mode ≠ .looping now := by
  rcases outside with idle | callback
  · simp [idle]
  · simp [callback]

theorem loopOk_of_outside {s : Sys τ φ π} {base : Nat} (outside : ∀ now, s.mode ≠ .looping now) :
    LoopOk s base := fun now looping => absurd looping (outside now)

end Clock

/-! ### No timer early -/

section Early

variable [DecidableEq τ] {TIMEDELTA : UInt32} {s s' : Sys τ φ π} {l : List τ}

/-- The list has no timer before the time it was set for. -/
def Covers (armed : τ → Option (Nat × φ × π)) (log : List (Event τ φ π)) : Prop :=
  ∀ t n f p, armed t = some (n, f, p) → ∃ m, armedBy t log = some (m, f, p) ∧ m ≤ n

/-- The list starts at the time `base`, which is `vt_lasttime` on the clock. -/
structure Base (s : Sys τ φ π) (l : List τ) (armed : τ → Option (Nat × φ × π)) (base : Nat) :
    Prop where
  linked : Linked s.vt.list armed base l
  covers : Covers armed s.log
  reads : Reads base s.vt.vt_lasttime
  le : base ≤ s.time

/-- What holds in every state. -/
structure Inv (s : Sys τ φ π) : Prop where
  base : ∃ l armed base, Base s l armed base ∧ LoopOk s base
  never : NeverEarly s.log

theorem Covers.delayed {armed : τ → Option (Nat × φ × π)} {log : List (Event τ φ π)}
    (covers : Covers armed log) (c : Nat) : Covers (delayed c armed) log := by
  intro t n f p at_t
  obtain ⟨⟨n', f', p'⟩, is, shifted⟩ := Option.map_eq_some_iff.mp at_t
  obtain ⟨rfl, rfl, rfl⟩ : n' + c = n ∧ f' = f ∧ p' = p := by simpa using shifted
  obtain ⟨m, armed_t, le⟩ := covers t n' f' p' is
  exact ⟨m, armed_t, by omega⟩

/-- However long ago the list was started, it can be taken to start less than one turn of
the clock ago: all timers are later then. -/
theorem Base.recent {armed : τ → Option (Nat × φ × π)} {base : Nat} (h : Base s l armed base) :
    ∃ armed' base', Base s l armed' base' ∧ s.time - base' < 4294967296 := by
  obtain ⟨linked, covers, reads, le⟩ := h
  have reads' : Reads (base + (s.time - base) / 4294967296 * 4294967296) s.vt.vt_lasttime := by
    unfold Reads at reads ⊢
    omega
  refine ⟨delayed ((s.time - base) / 4294967296 * 4294967296) armed,
    base + (s.time - base) / 4294967296 * 4294967296,
    ⟨linked_delayed _ linked, covers.delayed _, reads', by omega⟩, by omega⟩

theorem Covers.set {armed : τ → Option (Nat × φ × π)} {log : List (Event τ φ π)}
    (covers : Covers armed log) {t : τ} {time n : Nat} {delay : UInt32} {f : φ} {p : π}
    (le : time + delay.toNat ≤ n) :
    Covers (Function.update armed t (some (n, f, p))) (log ++ [.set time t delay f p]) := by
  intro x n' f' p' at_x
  rw [armedBy_concat]
  by_cases same : x = t
  · subst same
    rw [Function.update_self] at at_x
    obtain ⟨rfl, rfl, rfl⟩ : n = n' ∧ f = f' ∧ p = p' := by simpa using at_x
    exact ⟨_, arm_set _ _ _ _ _ _, le⟩
  · rw [Function.update_of_ne same] at at_x
    rw [arm_of_ne fun h => same h.symm]
    exact covers x n' f' p' at_x

/-- A timer is taken off the list by an event of its own. -/
theorem Covers.remove {armed : τ → Option (Nat × φ × π)} {log : List (Event τ φ π)}
    (covers : Covers armed log) {e : Event τ φ π} :
    Covers (Function.update armed e.timer none) (log ++ [e]) := by
  intro x n f p at_x
  rw [armedBy_concat]
  by_cases same : x = e.timer
  · rw [same, Function.update_self] at at_x
    exact absurd at_x (by simp)
  · rw [Function.update_of_ne same] at at_x
    rw [arm_of_ne fun h => same h.symm]
    exact covers x n f p at_x

theorem neverEarly_concat {log : List (Event τ φ π)} (never : NeverEarly log) {e : Event τ φ π}
    (fire : ∀ m t f p func, e = .fire m t f p func →
      ∃ n, armedBy t log = some (n, f, p) ∧ n ≤ m) : NeverEarly (log ++ [e]) := by
  intro pre post m t f p func split
  rcases List.eq_nil_or_concat post with rfl | ⟨post', last, rfl⟩
  · obtain ⟨rfl, last⟩ := List.append_inj' split rfl
    obtain ⟨n, armed, le⟩ := fire m t f p func (List.singleton_inj.mp last)
    obtain ⟨pre', mid, n', delay, split, others, rfl⟩ := exists_set armed
    exact ⟨pre', mid, n', delay, split, others, le⟩
  · rw [List.concat_eq_append, ← List.cons_append, ← List.append_assoc] at split
    obtain ⟨rfl, -⟩ := List.append_inj' split rfl
    exact never pre post' m t f p func rfl

/-! ### Steps -/

theorem raised_eq (TIMEDELTA delay : UInt32) :
    (if delay < TIMEDELTA then TIMEDELTA else delay).toNat =
      max delay.toNat TIMEDELTA.toNat := by
  split_ifs with short
  · have := UInt32.lt_iff_toNat_lt.mp short
    omega
  · have := UInt32.le_iff_toNat_le.mp (UInt32.not_lt.mp short)
    omega

/-- The only timer of the list. -/
theorem linked_insertOnly {vt : Timers.VtList τ φ π} {armed : τ → Option (Nat × φ × π)}
    {base : Nat} (linked : Linked vt armed base []) (t : τ) (f : φ) (p : π) (delay : UInt32) :
    Linked (VtList.insertOnly (vt.withTimer t f p) t delay)
      (Function.update armed t (some (base + delay.toNat, f, p))) base [t] := by
  have inserted : VtList.insertOnly (vt.withTimer t f p) t delay =
      (vt.withTimer t f p).insert t none delay := by
    apply insertOnly_eq
    · exact linked.ring
    · exact linked.header
  have small := delay.toNat_lt
  have top : delay ≤ vt.vt_delta ([] : List τ).head? := by
    rw [List.head?_nil, linked.header]
    apply UInt32.le_iff_toNat_le.mpr
    change delay.toNat ≤ 4294967295
    omega
  have zero : total vt ([] : List τ) = 0 := rfl
  have only : Linked ((vt.withTimer t f p).insert t none delay) _ base ([] ++ t :: []) :=
    linked_insert linked List.not_mem_nil top (by omega)
  rw [zero, Nat.zero_add] at only
  rw [inserted]
  exact only

/-- A delay that fits leads to the time it was set for, or a later one. -/
theorem base_set {armed : τ → Option (Nat × φ × π)} {base : Nat} (h : Base s l armed base)
    {fuel : Nat} {t : τ} {delay : UInt32} {f : φ} {p : π} {vt : VtList τ φ π} {op : PortOp}
    (unarmed : s.vt.list.vt_func t = none) (later : delay ≠ 0)
    (fits : DelayFits TIMEDELTA s delay)
    (result : s.vt.chVTDoSetI TIMEDELTA (clock s.time) fuel t delay f p = some (vt, op))
    (alarm : Option Nat) :
    ∃ l' armed' base', Base { s with
      vt := vt
      alarm := alarm
      log := s.log ++ [.set s.time t delay f p] } l' armed' base' := by
  obtain ⟨armed, base, ⟨linked, covers, reads, le⟩, recent⟩ := h.recent
  have raised := raised_eq TIMEDELTA delay
  simp only [VtList.chVTDoSetI] at result
  generalize (if delay < TIMEDELTA then TIMEDELTA else delay) = raise at raised result
  have not_zero : delay.toNat ≠ 0 := fun zero => later (UInt32.toNat_inj.mp zero)
  by_cases empty : none = s.vt.list.links.next none
  · have result := (if_pos empty).symm.trans result
    obtain ⟨rfl, -⟩ := Prod.mk.inj (Option.some.inj result)
    have none_first : l.head? = none := linked.next_header.symm.trans empty.symm
    obtain rfl := List.head?_eq_none_iff.mp none_first
    have only := linked_insertOnly (linked_nil linked s.time) t f p raise
    exact ⟨_, _, s.time, only, covers.set (by omega), reads_clock _, le_rfl⟩
  · have result := (if_neg empty).symm.trans result
    have passed := toNat_sub_reads reads (reads_clock s.time) le
    rw [Nat.mod_eq_of_lt recent] at passed
    have room : s.time - base + raise.toNat < 4294967296 := by
      rcases fits with none_first | fits
      · exact absurd none_first.symm empty
      · rw [passed] at fits
        omega
    have delta : (clock s.time + raise - s.vt.vt_lasttime).toNat = s.time - base + raise.toNat := by
      have start := reads_add (x := raise) (reads_clock s.time)
      rw [toNat_sub_reads reads start (by omega), Nat.mod_eq_of_lt (by omega)]
      omega
    obtain ⟨r, scanned, same⟩ := Option.map_eq_some_iff.mp result
    obtain ⟨rfl, -⟩ := Prod.mk.inj same
    have inserted : s.vt.list.chVTDoSetI fuel t (clock s.time + raise - s.vt.vt_lasttime) f p =
        some ((s.vt.list.withTimer t f p).insert t r.1 r.2) :=
      Option.map_eq_some_iff.mpr ⟨r, scanned, rfl⟩
    have positive : clock s.time + raise - s.vt.vt_lasttime ≠ 0 := by
      intro zero
      rw [zero] at delta
      change 0 = _ at delta
      omega
    obtain ⟨l', linked', -⟩ := linked_of_set linked unarmed positive inserted
    exact ⟨l', _, base, linked', covers.set (by omega), reads, le⟩

theorem base_reset {armed : τ → Option (Nat × φ × π)} {base : Nat} (h : Base s l armed base)
    {t : τ} {vt : VtList τ φ π} {op : PortOp} (is_armed : s.vt.list.vt_func t ≠ none)
    (result : s.vt.chVTDoResetI TIMEDELTA (clock s.time) t = (vt, op)) (alarm : Option Nat) :
    ∃ l' armed', Base { s with
      vt := vt
      alarm := alarm
      log := s.log ++ [.reset s.time t] } l' armed' base := by
  obtain ⟨linked, covers, reads, le⟩ := h
  obtain ⟨l', linked', -⟩ := linked_reset linked is_armed
  obtain ⟨list, last⟩ : vt.list = s.vt.list.chVTDoResetI t ∧
      vt.vt_lasttime = s.vt.vt_lasttime := by
    simp only [VtList.chVTDoResetI] at result
    split_ifs at result with first
    · obtain ⟨rfl, -⟩ := Prod.mk.inj result
      exact ⟨resetLater_eq linked, rfl⟩
    · obtain ⟨rfl, -⟩ := Prod.mk.inj result
      exact ⟨resetFirst_eq linked (not_not.mp first), rfl⟩
  refine ⟨l', _, ?_, covers.remove (e := .reset s.time t), ?_, le⟩
  · change Linked vt.list _ _ _
    rw [list]
    exact linked'
  · change Reads base vt.vt_lasttime
    rw [last]
    exact reads

/-- A timer that is due by the time the loop has read is due, and the list starts at its
expiry then. -/
theorem base_fire {armed : τ → Option (Nat × φ × π)} {base : Nat} (h : Base s l armed base)
    (ok : LoopOk s base) {now : UInt32} {t : τ} {f : φ} (looping : s.mode = .looping now)
    (first : s.vt.list.links.next none = some t) (due : s.vt.Due now)
    (func : s.vt.list.vt_func t = some f) (alarm : Option Nat) :
    (∃ n, armedBy t s.log = some (n, f, s.vt.list.vt_par t) ∧ n ≤ s.time) ∧
    ∃ l' armed' base', Base { s with
      vt := (s.vt.expire t).1
      mode := .callback
      alarm := alarm
      log := s.log ++ [.fire s.time t f (s.vt.list.vt_par t)
        ((s.vt.expire t).1.list.vt_func t)] } l' armed' base' := by
  obtain ⟨linked, covers, reads, le⟩ := h
  obtain ⟨n, reads_n, base_le, n_le, recent⟩ := ok now looping
  have delta : (s.vt.list.vt_delta (some t)).toNat ≤ n - base := by
    have passed := toNat_sub_reads reads reads_n base_le
    rw [Nat.mod_eq_of_lt recent] at passed
    have due := UInt32.le_iff_toNat_le.mp due
    rwa [first, passed] at due
  obtain ⟨ys, rfl⟩ := linked.eq_cons first
  obtain ⟨⟨g, func', at_t⟩, -⟩ := linked.deltas
  obtain rfl : f = g := Option.some.inj (func.symm.trans func')
  constructor
  · obtain ⟨m, armed_t, early⟩ := covers t _ _ _ at_t
    exact ⟨m, armed_t, by omega⟩
  · refine ⟨ys, _, base + (s.vt.list.vt_delta (some t)).toNat, linked_expire_front linked, ?_,
      reads_add reads, ?_⟩
    · exact covers.remove (e := .fire s.time t f (s.vt.list.vt_par t) _)
    · change base + _ ≤ s.time
      omega

/-! ### Whole runs -/

/-- The loop reads the time. -/
theorem inv_read (inv : Inv s) : Inv { s with mode := .looping (clock s.time) } := by
  obtain ⟨⟨l, armed, base, based, -⟩, never⟩ := inv
  obtain ⟨armed', base', ⟨linked, covers, reads, le⟩, recent⟩ := based.recent
  refine ⟨⟨l, armed', base', ⟨linked, covers, reads, le⟩, ?_⟩, never⟩
  rintro now ⟨⟩
  exact ⟨s.time, reads_clock s.time, le, le_rfl, recent⟩

theorem inv_step (inv : Inv s) (step : Step TIMEDELTA (DelayFits TIMEDELTA) s s') : Inv s' := by
  obtain ⟨⟨l, armed, base, based, ok⟩, never⟩ := inv
  cases step with
  | clock time later =>
      obtain ⟨linked, covers, reads, le⟩ := based
      refine ⟨⟨l, armed, base, ⟨linked, covers, reads, le.trans later⟩, ?_⟩, never⟩
      intro now looping
      obtain ⟨n, reads_n, base_le, n_le, recent⟩ := ok now looping
      exact ⟨n, reads_n, base_le, n_le.trans later, recent⟩
  | set fuel t delay f p outside unarmed later admitted result =>
      obtain ⟨l', armed', base', based'⟩ := base_set based unarmed later admitted result _
      refine ⟨⟨l', armed', base', based', loopOk_of_outside (not_looping outside)⟩, ?_⟩
      apply neverEarly_concat never
      intro m t f p func h
      exact absurd h (by simp)
  | reset t outside is_armed result =>
      obtain ⟨l', armed', based'⟩ := base_reset based is_armed result _
      refine ⟨⟨l', armed', base, based', loopOk_of_outside (not_looping outside)⟩, ?_⟩
      apply neverEarly_concat never
      intro m t f p func h
      exact absurd h (by simp)
  | tick idle alarm reached => exact inv_read ⟨⟨l, armed, base, based, ok⟩, never⟩
  | fire t f looping first due func =>
      obtain ⟨⟨n, armed_t, le⟩, l', armed', base', based'⟩ :=
        base_fire based ok looping first due func ((s.vt.expire t).2.apply s.time s.alarm)
      refine ⟨⟨l', armed', base', based', loopOk_of_outside (by simp)⟩, ?_⟩
      apply neverEarly_concat never
      intro m t' f' p func' h
      obtain ⟨rfl, rfl, rfl, rfl, -⟩ : s.time = m ∧ t = t' ∧ f = f' ∧
          s.vt.list.vt_par t = p ∧ _ := by simpa using h
      exact ⟨n, armed_t, le⟩
  | header looping empty due =>
      obtain ⟨linked, covers, reads, le⟩ := based
      exact ⟨⟨l, armed, base, ⟨linked, covers, reads, le⟩, loopOk_of_outside (by simp)⟩, never⟩
  | «return» callback => exact inv_read ⟨⟨l, armed, base, based, ok⟩, never⟩
  | done looping later =>
      obtain ⟨linked, covers, reads, le⟩ := based
      exact ⟨⟨l, armed, base, ⟨linked, covers, reads, le⟩, loopOk_of_outside (by simp)⟩, never⟩

theorem inv_init (list : Timers.VtList τ φ π) (time : Nat) :
    Inv ⟨⟨list._vt_init, 0⟩, .idle, time, none, []⟩ := by
  have start := (Timers.inv_init list).linked
  refine ⟨⟨[], fun t => armedBy t [], 0, ⟨start, ?_, rfl, Nat.zero_le _⟩,
    loopOk_of_outside (by simp)⟩, ?_⟩
  · intro t n f p armed
    exact ⟨n, armed, le_rfl⟩
  · intro pre post m t f p func split
    exact absurd split (by simp)

/-- In every run in which the delay of each timer that is set fits in 32 bits together with
the time since `vt_lasttime`, no callback runs before its timer's delay has passed. -/
theorem never_early {TIMEDELTA : UInt32} {s : Sys τ φ π}
    (reachable : Reachable TIMEDELTA (DelayFits TIMEDELTA) s) : NeverEarly s.log := by
  obtain ⟨list, time, run⟩ := reachable
  suffices inv : Inv s from inv.never
  induction run with
  | refl => exact inv_init list time
  | tail _ step ih => exact inv_step ih step

end Early

/-! ### Two runs -/

/-- The start, with the clock at zero. -/
def sampleStart : Sys Nat Nat Nat := ⟨⟨sampleVt._vt_init, 0⟩, .idle, 0, none, []⟩

/-- A timer with a delay of 10 that is served at 12, and one with a delay of 100 that is set
behind it. -/
theorem sample_never_early :
    ∃ s : Sys Nat Nat Nat, Reachable 2 (DelayFits 2) s ∧
      s.log = [.set 0 1 10 8 9, .set 4 2 100 8 9, .fire 12 1 8 9 none, .fire 104 2 8 9 none] ∧
      NeverEarly s.log := by
  have first : Step 2 (DelayFits 2) sampleStart _ :=
    .set 1 1 10 8 9 (.inl rfl) rfl (by decide) (.inl rfl) rfl
  have waited := (Relation.ReflTransGen.single first).tail (.clock 4 (by decide))
  have second := waited.tail
    (.set 2 2 100 8 9 (.inl rfl) rfl (by decide) (.inr (by decide)) rfl)
  have served := ((second.tail (.clock 12 (by decide))).tail (.tick rfl rfl (by decide))).tail
    (.fire 1 8 rfl rfl (by decide) rfl)
  have rearmed := (served.tail (.return rfl)).tail (.done rfl (by decide))
  have both := ((rearmed.tail (.clock 104 (by decide))).tail (.tick rfl rfl (by decide))).tail
    (.fire 2 8 rfl rfl (by decide) rfl)
  have reachable : Reachable 2 (DelayFits 2) _ := ⟨sampleVt, 0, both⟩
  exact ⟨_, reachable, rfl, never_early reachable⟩

/-- A timer with a delay of 10 is not served yet at 20 when one with a delay of almost
`2^32` is set: 20 and this delay make 15, and both are served at once. -/
theorem sample_early :
    ∃ s : Sys Nat Nat Nat, Reachable 2 (fun _ _ => True) s ∧ ¬ NeverEarly s.log := by
  have first : Step 2 (fun _ _ => True) sampleStart _ :=
    .set 1 1 10 8 9 (.inl rfl) rfl (by decide) trivial rfl
  have waited := (Relation.ReflTransGen.single first).tail (.clock 20 (by decide))
  have second := waited.tail
    (.set 2 2 4294967291 8 9 (.inl rfl) rfl (by decide) trivial rfl)
  have served := (second.tail (.tick rfl rfl (by decide))).tail
    (.fire 1 8 rfl rfl (by decide) rfl)
  have both := (served.tail (.return rfl)).tail (.fire 2 8 rfl rfl (by decide) rfl)
  refine ⟨_, ⟨sampleVt, 0, both⟩, fun never => ?_⟩
  obtain ⟨pre, mid, n, delay, split, others, le⟩ := never
    [.set 0 1 10 8 9, .set 20 2 4294967291 8 9, .fire 20 1 8 9 none] [] 20 2 8 9 none rfl
  have armed : armedBy 2 (pre ++ .set n 2 delay 8 9 :: mid) = some (n + delay.toNat, 8, 9) :=
    armedBy_of_set others
  rw [← split] at armed
  have due : some (4294967311, 8, 9) = some (n + delay.toNat, 8, 9) := armed
  have := (Prod.mk.inj (Option.some.inj due)).1
  omega

end LtcOs.Tickless
