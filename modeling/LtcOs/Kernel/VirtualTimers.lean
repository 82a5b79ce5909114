import LtcOs.Lib.Ring

/-!
Virtual timers in periodic tick mode (`chvt.c`, `chvt.h`, `CH_CFG_ST_TIMEDELTA = 0`).

Armed timers are on a doubly linked list that stores differences of expiry times.
The bottom layer is the code on links and deltas; above it, `armedBy` says from the
history alone which timer is to expire at which tick, and the invariant `Inv` that
the list is just another way to write this down. Callbacks are steps between two
rounds of the tick loop, so they may set and reset timers there.
-/

namespace LtcOs.Timers

open LtcOs.Linked

/-! ### The delta list -/

/-- The timers of type `τ` with their links and fields; the header `ch.vtlist` is
the node `none`. -/
structure VtList (τ φ π : Type) where
  links : Links (Option τ)
  vt_delta : Option τ → UInt32
  vt_func : τ → Option φ
  vt_par : τ → π
  vt_systime : UInt32

variable {τ φ π : Type}

namespace VtList

variable [DecidableEq τ]

/-- `(systime_t)-1`. -/
def sentinel : UInt32 := 0xFFFFFFFF

/-- `_vt_init`, with no timer armed. -/
def _vt_init (s : VtList τ φ π) : VtList τ φ π :=
  { s with
    links := s.links.empty none
    vt_delta := Function.update s.vt_delta none sentinel
    vt_func := fun _ => none
    vt_systime := 0 }

/-- The scan of `chVTDoSetI` for the position of a timer, with a bound on the rounds. -/
def scan (s : VtList τ φ π) :
    (fuel : Nat) → (p : Option τ) → (delta : UInt32) → Option (Option τ × UInt32)
  | 0, _, _ => none
  | fuel + 1, p, delta =>
      if s.vt_delta p < delta then scan s fuel (s.links.next p) (delta - s.vt_delta p)
      else some (p, delta)

/-- The timer is inserted in the delta list before `p`. -/
def insert (s : VtList τ φ π) (vtp : τ) (p : Option τ) (delta : UInt32) : VtList τ φ π :=
  let vt_delta := Function.update s.vt_delta (some vtp) delta
  let vt_delta := Function.update vt_delta p (vt_delta p - delta)
  { s with
    links := s.links.insertBefore (some vtp) p
    vt_delta := Function.update vt_delta none sentinel }

def chVTDoSetI (s : VtList τ φ π) (fuel : Nat) (vtp : τ) (delay : UInt32) (vtfunc : φ) (par : π) :
    Option (VtList τ φ π) :=
  let s := { s with
    vt_par := Function.update s.vt_par vtp par
    vt_func := Function.update s.vt_func vtp (some vtfunc) }
  (s.scan fuel (s.links.next none) delay).map fun r => s.insert vtp r.1 r.2

def chVTDoResetI (s : VtList τ φ π) (vtp : τ) : VtList τ φ π :=
  let next := s.links.next (some vtp)
  let vt_delta := Function.update s.vt_delta next (s.vt_delta next + s.vt_delta (some vtp))
  { s with
    links := s.links.unlink (some vtp)
    vt_func := Function.update s.vt_func vtp none
    vt_delta := Function.update vt_delta none sentinel }

/-- `chVTDoTickI` up to its loop; the test is whether the list is not empty. -/
def tick (s : VtList τ φ π) : VtList τ φ π :=
  let s := { s with vt_systime := s.vt_systime + 1 }
  let first := s.links.next none
  if none ≠ first then { s with vt_delta := Function.update s.vt_delta first (s.vt_delta first - 1) }
  else s

/-- One round of the loop of `chVTDoTickI` on the first timer, up to its callback. -/
def expire (s : VtList τ φ π) (vtp : τ) : VtList τ φ π :=
  let vt_func := Function.update s.vt_func vtp none
  let prev := Function.update s.links.prev (s.links.next (some vtp)) none
  let next := Function.update s.links.next none (s.links.next (some vtp))
  { s with vt_func := vt_func, links := ⟨next, prev⟩ }

end VtList

/-! ### Histories -/

/-- What was done to a timer, in which tick. At the call of a callback its `vt_func`
is recorded too. -/
inductive Event (τ φ π : Type) where
  | set (tick : Nat) (vtp : τ) (delay : UInt32) (vtfunc : φ) (par : π)
  | reset (tick : Nat) (vtp : τ)
  | fire (tick : Nat) (vtp : τ) (fn : φ) (par : π) (vt_func : Option φ)

def Event.timer : Event τ φ π → τ
  | .set _ vtp _ _ _ => vtp
  | .reset _ vtp => vtp
  | .fire _ vtp _ _ _ => vtp

/-- Outside of `chVTDoTickI`, at the head of its loop, or in a callback. -/
inductive Mode where
  | idle
  | looping
  | callback
deriving DecidableEq, Repr

structure Sys (τ φ π : Type) where
  vt : VtList τ φ π
  mode : Mode
  ticks : Nat
  log : List (Event τ φ π)

section Steps

variable [DecidableEq τ]

/-- One operation, or one part of a tick. Timers are set while unarmed, with a delay
of at least one tick, and reset while armed. -/
inductive Step : Sys τ φ π → Sys τ φ π → Prop where
  | set {s : Sys τ φ π} {vt : VtList τ φ π} (fuel : Nat) (vtp : τ) (delay : UInt32) (vtfunc : φ)
    (par : π)
      (outside : s.mode ≠ .looping) (unarmed : s.vt.vt_func vtp = none) (later : delay ≠ 0)
      (result : s.vt.chVTDoSetI fuel vtp delay vtfunc par = some vt) :
      Step s { s with vt := vt, log := s.log ++ [.set s.ticks vtp delay vtfunc par] }
  | reset {s : Sys τ φ π} (vtp : τ) (outside : s.mode ≠ .looping)
    (armed : s.vt.vt_func vtp ≠ none) :
      Step s { s with vt := s.vt.chVTDoResetI vtp, log := s.log ++ [.reset s.ticks vtp] }
  | tick {s : Sys τ φ π} (idle : s.mode = .idle) :
      Step s { s with vt := s.vt.tick, mode := .looping, ticks := s.ticks + 1 }
  | fire {s : Sys τ φ π} (vtp : τ) (fn : φ) (looping : s.mode = .looping)
      (first : s.vt.links.next none = some vtp) (due : s.vt.vt_delta (some vtp) = 0)
      (func : s.vt.vt_func vtp = some fn) :
      Step s { s with
        vt := s.vt.expire vtp
        mode := .callback
        log := s.log ++ [.fire s.ticks vtp fn (s.vt.vt_par vtp) ((s.vt.expire vtp).vt_func vtp)] }
  | return {s : Sys τ φ π} (callback : s.mode = .callback) : Step s { s with mode := .looping }
  | done {s : Sys τ φ π} (looping : s.mode = .looping)
    (later : s.vt.vt_delta (s.vt.links.next none) ≠ 0) :
      Step s { s with mode := .idle }

/-- States reached from `_vt_init`. -/
def Reachable (s : Sys τ φ π) : Prop :=
  ∃ vt : VtList τ φ π, Relation.ReflTransGen Step ⟨vt._vt_init, .idle, 0, []⟩ s

/-- What one event means for the timer `t`. -/
def arm (t : τ) (armed : Option (Nat × φ × π)) : Event τ φ π → Option (Nat × φ × π)
  | .set n vtp delay vtfunc par => if vtp = t then some (n + delay.toNat, vtfunc, par) else armed
  | .reset _ vtp => if vtp = t then none else armed
  | .fire _ vtp _ _ _ => if vtp = t then none else armed

/-- When the timer `t` is to expire after a history, with its callback and
parameter. -/
def armedBy (t : τ) (log : List (Event τ φ π)) : Option (Nat × φ × π) := log.foldl (arm t) none

end Steps

/-- The tick at which the list has the timer `t` expire. -/
def Expiry (s : Sys τ φ π) (t : τ) (n : Nat) : Prop :=
  ∃ xs ys, Ring s.vt.links none ((xs ++ t :: ys).map some) ∧
    n = s.ticks + ((xs ++ [t]).map fun t => (s.vt.vt_delta (some t)).toNat).sum

/-! ### Reading a history -/

section Log

variable [DecidableEq τ] {t : τ} {log : List (Event τ φ π)}

theorem armedBy_concat (t : τ) (log : List (Event τ φ π)) (e : Event τ φ π) :
    armedBy t (log ++ [e]) = arm t (armedBy t log) e := by
  rw [armedBy, List.foldl_append]
  rfl

theorem arm_of_ne {e : Event τ φ π} (other : e.timer ≠ t) (a : Option (Nat × φ × π)) :
    arm t a e = a := by
  cases e with
  | set n vtp delay vtfunc par => exact if_neg other
  | reset n vtp => exact if_neg other
  | fire n vtp fn par vt_func => exact if_neg other

theorem arm_set (t : τ) (a : Option (Nat × φ × π)) (n : Nat) (delay : UInt32) (f : φ) (p : π) :
    arm t a (.set n t delay f p) = some (n + delay.toNat, f, p) := if_pos rfl

theorem arm_reset (t : τ) (a : Option (Nat × φ × π)) (n : Nat) : arm t a (.reset n t) = none :=
  if_pos rfl

theorem arm_fire (t : τ) (a : Option (Nat × φ × π)) (n : Nat) (f : φ) (p : π) (func : Option φ) :
    arm t a (.fire n t f p func) = none := if_pos rfl

theorem armedBy_append {post : List (Event τ φ π)} (others : ∀ e ∈ post, e.timer ≠ t) :
    armedBy t (log ++ post) = armedBy t log := by
  induction post using List.reverseRecOn with
  | nil => rw [List.append_nil]
  | append_singleton post e ih =>
      rw [← List.append_assoc, armedBy_concat, arm_of_ne (others e (by simp))]
      exact ih fun e' he' => others e' (by simp [he'])

theorem armedBy_of_set {pre mid : List (Event τ φ π)} {n : Nat} {delay : UInt32} {f : φ} {p : π}
    (others : ∀ e ∈ mid, e.timer ≠ t) :
    armedBy t (pre ++ .set n t delay f p :: mid) = some (n + delay.toNat, f, p) := by
  have split : pre ++ .set n t delay f p :: mid = (pre ++ [.set n t delay f p]) ++ mid := by simp
  rw [split, armedBy_append others, armedBy_concat, arm_set]

/-- A timer is armed by the last event about it, which set it. -/
theorem exists_set {m : Nat} {f : φ} {p : π} (armed : armedBy t log = some (m, f, p)) :
    ∃ pre mid n, ∃ delay : UInt32, log = pre ++ .set n t delay f p :: mid ∧
      (∀ e ∈ mid, e.timer ≠ t) ∧ m = n + delay.toNat := by
  induction log using List.reverseRecOn with
  | nil => exact absurd armed (by simp [armedBy])
  | append_singleton log e ih =>
      rw [armedBy_concat] at armed
      by_cases other : e.timer = t
      · cases e with
        | set n vtp delay vtfunc par =>
            change vtp = t at other
            rw [arm, if_pos other] at armed
            obtain ⟨rfl, rfl, rfl⟩ : n + delay.toNat = m ∧ vtfunc = f ∧ par = p := by
              simpa using armed
            rw [other]
            exact ⟨log, [], n, delay, rfl, by simp, rfl⟩
        | reset n vtp =>
            change vtp = t at other
            rw [arm, if_pos other] at armed
            exact absurd armed (by simp)
        | fire n vtp fn par vt_func =>
            change vtp = t at other
            rw [arm, if_pos other] at armed
            exact absurd armed (by simp)
      · rw [arm_of_ne other] at armed
        obtain ⟨pre, mid, n, delay, rfl, others, total⟩ := ih armed
        refine ⟨pre, mid ++ [e], n, delay, by simp, ?_, total⟩
        intro e' he'
        rcases List.mem_append.mp he' with he' | he'
        · exact others e' he'
        · rw [List.mem_singleton.mp he']
          exact other

/-- Callbacks run when their timer is to expire, as the history before has it. -/
def LogOk (log : List (Event τ φ π)) : Prop :=
  ∀ pre post m t f p func, log = pre ++ .fire m t f p func :: post →
    armedBy t pre = some (m, f, p) ∧ func = none

theorem logOk_concat (ok : LogOk log) {e : Event τ φ π}
    (fire : ∀ m t f p func, e = .fire m t f p func → armedBy t log = some (m, f, p) ∧ func = none) :
    LogOk (log ++ [e]) := by
  intro pre post m t f p func split
  rcases List.eq_nil_or_concat post with rfl | ⟨post', last, rfl⟩
  · obtain ⟨rfl, last⟩ := List.append_inj' split rfl
    exact fire m t f p func (List.singleton_inj.mp last)
  · rw [List.concat_eq_append, ← List.cons_append, ← List.append_assoc] at split
    obtain ⟨rfl, -⟩ := List.append_inj' split rfl
    exact ok pre post' m t f p func rfl

end Log

/-! ### The list and the history -/

/-- From the tick `base` on, the deltas lead from one expiry to the next. -/
def Deltas (vt : VtList τ φ π) (armed : τ → Option (Nat × φ × π)) : Nat → List τ → Prop
  | _, [] => True
  | base, t :: l =>
      (∃ f, vt.vt_func t = some f ∧
        armed t = some (base + (vt.vt_delta (some t)).toNat, f, vt.vt_par t)) ∧
      Deltas vt armed (base + (vt.vt_delta (some t)).toNat) l

/-- The ticks from the first to the last timer of a part of the list. -/
def total (vt : VtList τ φ π) (l : List τ) : Nat :=
  (l.map fun t => (vt.vt_delta (some t)).toNat).sum

section Deltas

variable {vt vt' : VtList τ φ π} {armed armed' : τ → Option (Nat × φ × π)} {base : Nat}
  {xs ys : List τ}

theorem total_append (vt : VtList τ φ π) (xs ys : List τ) :
    total vt (xs ++ ys) = total vt xs + total vt ys := by
  simp [total]

theorem deltas_append :
    Deltas vt armed base (xs ++ ys) ↔
      Deltas vt armed base xs ∧ Deltas vt armed (base + total vt xs) ys := by
  induction xs generalizing base with
  | nil => simp [Deltas, total]
  | cons x xs ih =>
      rw [List.cons_append, Deltas, Deltas, ih, total, total, List.map_cons, List.sum_cons,
        Nat.add_assoc,
        and_assoc]

theorem Deltas.congr (deltas : Deltas vt armed base xs)
    (same : ∀ t ∈ xs, vt'.vt_delta (some t) = vt.vt_delta (some t) ∧ vt'.vt_func t = vt.vt_func t ∧
      vt'.vt_par t = vt.vt_par t ∧ armed' t = armed t) : Deltas vt' armed' base xs := by
  induction xs generalizing base with
  | nil => trivial
  | cons x xs ih =>
      obtain ⟨⟨f, func, at_x⟩, rest⟩ := deltas
      obtain ⟨delta, func', par, armed_x⟩ := same x List.mem_cons_self
      constructor
      · exact ⟨f, by rw [func', func], by rw [armed_x, at_x, delta, par]⟩
      · rw [delta]
        exact ih rest fun t ht => same t (List.mem_cons_of_mem _ ht)

theorem total_congr (same : ∀ t ∈ xs, vt'.vt_delta (some t) = vt.vt_delta (some t)) :
    total vt' xs = total vt xs := by
  unfold total
  congr 1
  apply List.map_congr_left
  intro t ht
  rw [same t ht]

/-- The expiry of a timer on the list. -/
theorem Deltas.at {t : τ} (deltas : Deltas vt armed base (xs ++ t :: ys)) :
    ∃ f, vt.vt_func t = some f ∧ armed t = some (base + total vt (xs ++ [t]), f, vt.vt_par t) := by
  rw [deltas_append] at deltas
  obtain ⟨f, func, at_t⟩ := deltas.2.1
  refine ⟨f, func, ?_⟩
  rw [at_t, total_append, Nat.add_assoc]
  rfl

end Deltas

/-- What holds of the list, as far as it does not depend on the mode. -/
structure Linked (vt : VtList τ φ π) (armed : τ → Option (Nat × φ × π)) (base : Nat) (l : List τ) :
    Prop where
  ring : Ring vt.links none (l.map some)
  header : vt.vt_delta none = VtList.sentinel
  func : ∀ t, vt.vt_func t ≠ none ↔ t ∈ l
  deltas : Deltas vt armed base l
  armed : ∀ t, armed t ≠ none → t ∈ l
  bound : total vt l ≤ 4294967295

section Operations

variable {vt : VtList τ φ π} {armed : τ → Option (Nat × φ × π)} {base : Nat} {l xs ys : List τ}
  {t : τ}

theorem head?_map_some (ys : List τ) :
    (ys.map some ++ [none]).head? = some ys.head? := by
  cases ys with
  | nil => rfl
  | cons y ys => rfl

theorem Linked.nodup (linked : Linked vt armed base l) : l.Nodup := by
  have := (List.nodup_cons.mp linked.ring.nodup).2
  exact this.of_map some

theorem Linked.next_header (linked : Linked vt armed base l) : vt.links.next none = l.head? := by
  have := linked.ring.next_header
  rw [head?_map_some] at this
  exact (Option.some.inj this).symm

theorem Linked.eq_cons (linked : Linked vt armed base l)
    (first : vt.links.next none = some t) : ∃ ys, l = t :: ys := by
  rw [linked.next_header] at first
  cases l with
  | nil => exact absurd first (by simp)
  | cons y ys => exact ⟨ys, by rw [Option.some.inj first]⟩

theorem Linked.next_mem (linked : Linked vt armed base (xs ++ t :: ys)) :
    vt.links.next (some t) = ys.head? := by
  have ring := linked.ring
  rw [List.map_append, List.map_cons] at ring
  have := ring.next_mem
  rw [head?_map_some] at this
  exact (Option.some.inj this).symm

/-- The scan stops between `xs` and `ys`: `xs` is passed, and the first of `ys` is
not before the new timer. -/
theorem scan_spec (vt : VtList τ φ π) (header : vt.vt_delta none = VtList.sentinel)
    (next : ∀ xs t ys, l = xs ++ t :: ys → vt.links.next (some t) = ys.head?)
    (pre : List τ) (split : l = pre ++ xs) {fuel : Nat} (enough : xs.length < fuel) (delta : UInt32)
    (pos : delta ≠ 0) :
    ∃ passed rest, ∃ delta' : UInt32, xs = passed ++ rest ∧ delta' ≠ 0 ∧
      vt.scan fuel xs.head? delta = some (rest.head?, delta') ∧
      total vt passed + delta'.toNat = delta.toNat ∧ delta' ≤ vt.vt_delta rest.head? := by
  induction xs generalizing pre fuel delta with
  | nil =>
      obtain ⟨fuel, rfl⟩ : ∃ n, fuel = n + 1 := ⟨fuel - 1, by simp at enough; omega⟩
      have le : delta ≤ VtList.sentinel := by
        rw [UInt32.le_iff_toNat_le]
        have := delta.toNat_lt
        change delta.toNat ≤ 4294967295
        omega
      refine ⟨[], [], delta, rfl, pos, ?_, by simp [total], ?_⟩
      · rw [List.head?_nil, VtList.scan, header, if_neg (UInt32.not_lt.mpr le)]
      · rw [List.head?_nil, header]
        exact le
  | cons x xs ih =>
      obtain ⟨fuel, rfl⟩ : ∃ n, fuel = n + 1 := ⟨fuel - 1, by simp at enough; omega⟩
      rw [List.head?_cons, VtList.scan]
      by_cases before : vt.vt_delta (some x) < delta
      · rw [if_pos before, next pre x xs split]
        have lt := UInt32.lt_iff_toNat_lt.mp before
        have sub : (delta - vt.vt_delta (some x)).toNat =
            delta.toNat - (vt.vt_delta (some x)).toNat :=
          UInt32.toNat_sub_of_le _ _ (UInt32.le_of_lt before)
        have pos' : delta - vt.vt_delta (some x) ≠ 0 := by
          intro zero
          rw [zero] at sub
          change 0 = _ at sub
          omega
        have enough' : xs.length < fuel := by simpa using enough
        obtain ⟨passed, rest, delta', rfl, nonzero, scanned, sum, le⟩ :=
          ih (pre ++ [x]) (by simp [split]) enough' _ pos'
        refine ⟨x :: passed, rest, delta', rfl, nonzero, scanned, ?_, le⟩
        rw [total, List.map_cons, List.sum_cons, Nat.add_assoc]
        change (vt.vt_delta (some x)).toNat + (total vt passed + delta'.toNat) = delta.toNat
        omega
      · rw [if_neg before]
        exact ⟨[], x :: xs, delta, rfl, pos, rfl, by simp [total], UInt32.not_lt.mp before⟩

theorem scan_mono {n m : Nat} {p : Option τ} {delta : UInt32} {r : Option τ × UInt32} (le : n ≤ m)
    (scanned : vt.scan n p delta = some r) : vt.scan m p delta = some r := by
  induction n generalizing m p delta with
  | zero => exact absurd scanned (by simp [VtList.scan])
  | succ n ih =>
      obtain ⟨m, rfl⟩ : ∃ k, m = k + 1 := ⟨m - 1, by omega⟩
      rw [VtList.scan] at scanned ⊢
      split_ifs at scanned ⊢ with before
      · exact ih (by omega) scanned
      · exact scanned

/-- The first timer is not due yet. -/
def NotDue (vt : VtList τ φ π) (l : List τ) : Prop :=
  ∀ x, l.head? = some x → vt.vt_delta (some x) ≠ 0

end Operations

section Set

variable [DecidableEq τ] {vt : VtList τ φ π} {armed : τ → Option (Nat × φ × π)} {base : Nat}
  {passed rest : List τ} {t : τ} {f : φ} {p : π} {delta : UInt32}

/-- The fields of the timer are set before the scan. -/
def VtList.withTimer (vt : VtList τ φ π) (t : τ) (f : φ) (p : π) : VtList τ φ π :=
  { vt with
    vt_par := Function.update vt.vt_par t p
    vt_func := Function.update vt.vt_func t (some f) }

theorem insert_delta_self (other : rest.head? ≠ some t) :
    ((vt.insert t rest.head? delta).vt_delta (some t)) = delta := by
  simp [VtList.insert, Function.update_of_ne other.symm]

theorem insert_delta_next {y : τ} (other : y ≠ t) :
    (vt.insert t (some y) delta).vt_delta (some y) = vt.vt_delta (some y) - delta := by
  simp [VtList.insert, Function.update_of_ne, other]

/-- The timers before the new one keep their deltas, and those after the next. -/
theorem insert_delta_mem {x : τ} {y : Option τ} (new : x ≠ t) (other : y ≠ some x) :
    (vt.insert t y delta).vt_delta (some x) = vt.vt_delta (some x) := by
  simp [VtList.insert, Function.update_of_ne, new, other.symm]

/-- The timers from the next on keep their expiry. -/
theorem deltas_insert_rest (fresh : t ∉ rest) (nodup : rest.Nodup)
    (le : delta ≤ vt.vt_delta rest.head?) {a : Option (Nat × φ × π)}
    (deltas : Deltas vt armed base rest) :
    Deltas ((vt.withTimer t f p).insert t rest.head? delta) (Function.update armed t a)
      (base + delta.toNat) rest := by
  cases rest with
  | nil => trivial
  | cons y ys =>
      obtain ⟨⟨g, func, at_y⟩, deltas⟩ := deltas
      rw [List.head?_cons] at le ⊢
      have y_t : y ≠ t := fun h => fresh (h ▸ List.mem_cons_self)
      have delta_y : ((vt.withTimer t f p).insert t (some y) delta).vt_delta (some y) =
          vt.vt_delta (some y) - delta := insert_delta_next y_t
      have sum : base + delta.toNat + (vt.vt_delta (some y) - delta).toNat =
          base + (vt.vt_delta (some y)).toNat := by
        rw [UInt32.toNat_sub_of_le _ _ le]
        have := UInt32.le_iff_toNat_le.mp le
        omega
      constructor
      · refine ⟨g, ?_, ?_⟩
        · exact (Function.update_of_ne y_t _ _).trans func
        · rw [Function.update_of_ne y_t, at_y, delta_y, sum]
          congr 3
          exact (Function.update_of_ne y_t _ _).symm
      · rw [delta_y, sum]
        apply deltas.congr
        intro x hx
        have x_t : x ≠ t := fun h => fresh (h ▸ List.mem_cons_of_mem _ hx)
        have x_y : some y ≠ some x := by
          intro h
          exact (List.nodup_cons.mp nodup).1 (Option.some.inj h ▸ hx)
        exact ⟨insert_delta_mem x_t x_y, Function.update_of_ne x_t _ _,
          Function.update_of_ne x_t _ _,
          Function.update_of_ne x_t _ _⟩

theorem total_insert_rest (fresh : t ∉ rest) (nodup : rest.Nodup)
    (le : delta ≤ vt.vt_delta rest.head?) :
    delta.toNat + total (vt.insert t rest.head? delta) rest = max delta.toNat (total vt rest) := by
  cases rest with
  | nil => simp [total]
  | cons y ys =>
      rw [List.head?_cons] at le ⊢
      have y_t : y ≠ t := fun h => fresh (h ▸ List.mem_cons_self)
      have tail : total (vt.insert t (some y) delta) ys = total vt ys := by
        apply total_congr
        intro x hx
        apply insert_delta_mem
        · rintro rfl
          exact fresh (List.mem_cons_of_mem _ hx)
        · intro h
          exact (List.nodup_cons.mp nodup).1 (Option.some.inj h ▸ hx)
      have split : ∀ v : VtList τ φ π,
          total v (y :: ys) = (v.vt_delta (some y)).toNat + total v ys :=
        fun v => rfl
      have := UInt32.le_iff_toNat_le.mp le
      rw [split, split, tail, insert_delta_next y_t, UInt32.toNat_sub_of_le _ _ le]
      omega

theorem linked_insert (linked : Linked vt armed base (passed ++ rest)) (fresh : t ∉ passed ++ rest)
    (le : delta ≤ vt.vt_delta rest.head?) (room : total vt passed + delta.toNat ≤ 4294967295) :
    Linked ((vt.withTimer t f p).insert t rest.head? delta)
      (Function.update armed t (some (base + (total vt passed + delta.toNat), f, p))) base
      (passed ++ t :: rest) := by
  have nodup := linked.nodup
  obtain ⟨deltas₁, deltas₂⟩ := deltas_append.mp linked.deltas
  obtain ⟨-, nodup₂, disjoint⟩ := List.nodup_append.mp nodup
  rw [List.mem_append, not_or] at fresh
  have next_t : rest.head? ≠ some t := by
    intro h
    exact fresh.2 (List.mem_of_mem_head? h)
  have before : ∀ x ∈ passed,
      ((vt.withTimer t f p).insert t rest.head? delta).vt_delta (some x) =
        vt.vt_delta (some x) := by
    intro x hx
    apply insert_delta_mem
    · rintro rfl
      exact fresh.1 hx
    · intro h
      exact disjoint x hx x (List.mem_of_mem_head? h) rfl
  have self : ((vt.withTimer t f p).insert t rest.head? delta).vt_delta (some t) = delta :=
    insert_delta_self next_t
  constructor
  · have ring := linked.ring
    rw [List.map_append] at ring ⊢
    rw [List.map_cons]
    apply ring.insertBefore
    · simpa using fresh
    · exact head?_map_some rest
  · simp [VtList.insert]
  · intro x
    change Function.update vt.vt_func t (some f) x ≠ none ↔ _
    by_cases h : x = t
    · simp [h]
    · rw [Function.update_of_ne h, linked.func]
      simp [h]
  · rw [deltas_append]
    constructor
    · apply deltas₁.congr
      intro x hx
      have x_t : x ≠ t := by
        rintro rfl
        exact fresh.1 hx
      exact ⟨before x hx, Function.update_of_ne x_t _ _, Function.update_of_ne x_t _ _,
        Function.update_of_ne x_t _ _⟩
    · rw [total_congr before]
      constructor
      · have par : ((vt.withTimer t f p).insert t rest.head? delta).vt_par t = p := by
          simp [VtList.insert, VtList.withTimer]
        refine ⟨f, by simp [VtList.insert, VtList.withTimer], ?_⟩
        rw [Function.update_self, self, par, Nat.add_assoc]
      · rw [self]
        exact deltas_insert_rest fresh.2 nodup₂ le deltas₂
  · intro x hx
    by_cases h : x = t
    · simp [h]
    · rw [Function.update_of_ne h] at hx
      have := linked.armed x hx
      rw [List.mem_append] at this ⊢
      rw [List.mem_cons]
      tauto
  · have bound := linked.bound
    have rest_total : delta.toNat + total ((vt.withTimer t f p).insert t rest.head? delta) rest =
        _ :=
      total_insert_rest fresh.2 nodup₂ le
    have same : total (vt.withTimer t f p) rest = total vt rest := rfl
    rw [total_append] at bound ⊢
    rw [total_congr before]
    change total vt passed +
      ((((vt.withTimer t f p).insert t rest.head? delta).vt_delta (some t)).toNat +
      total ((vt.withTimer t f p).insert t rest.head? delta) rest) ≤ _
    rw [self]
    omega

/-- `chVTDoSetI` returns, and adds the timer to the list. -/
theorem linked_set {l : List τ} (linked : Linked vt armed base l) (unarmed : vt.vt_func t = none)
    {delay : UInt32} (later : delay ≠ 0) {fuel : Nat} (enough : l.length < fuel) (f : φ) (p : π) :
    ∃ vt' l', vt.chVTDoSetI fuel t delay f p = some vt' ∧
      Linked vt' (Function.update armed t (some (base + delay.toNat, f, p))) base l' ∧
      (NotDue vt l → NotDue vt' l') := by
  have fresh : t ∉ l := by
    intro h
    exact (linked.func t).mpr h unarmed
  have next : ∀ xs x ys, l = xs ++ x :: ys →
      (vt.withTimer t f p).links.next (some x) = ys.head? := by
    rintro xs x ys rfl
    exact linked.next_mem
  obtain ⟨passed, rest, delta, rfl, pos, scanned, sum, le⟩ :=
    scan_spec (vt.withTimer t f p) linked.header next [] rfl enough delay later
  have sum : total vt passed + delta.toNat = delay.toNat := sum
  have room := delay.toNat_lt
  refine ⟨(vt.withTimer t f p).insert t rest.head? delta, passed ++ t :: rest, ?_, ?_, ?_⟩
  · have start : (vt.withTimer t f p).links.next none = (passed ++ rest).head? := linked.next_header
    rw [VtList.chVTDoSetI]
    change ((vt.withTimer t f p).scan fuel ((vt.withTimer t f p).links.next none) delay).map _ = _
    rw [start, scanned]
    rfl
  · rw [← sum]
    exact linked_insert linked fresh le (by omega)
  · intro notDue x first
    obtain ⟨-, -, disjoint⟩ := List.nodup_append.mp linked.nodup
    rw [List.mem_append, not_or] at fresh
    cases passed with
    | nil =>
        obtain rfl : t = x := Option.some.inj first
        have next_t : rest.head? ≠ some t := fun h => fresh.2 (List.mem_of_mem_head? h)
        rw [insert_delta_self next_t]
        exact pos
    | cons y ys =>
        obtain rfl : y = x := Option.some.inj first
        have y_t : y ≠ t := fun h => fresh.1 (h ▸ List.mem_cons_self)
        have y_next : rest.head? ≠ some y := fun h =>
          disjoint y List.mem_cons_self y (List.mem_of_mem_head? h) rfl
        rw [insert_delta_mem y_t y_next]
        exact notDue y rfl

/-- Whatever the bound on the scan was, if the call returned. -/
theorem linked_of_set {l : List τ} (linked : Linked vt armed base l)
    (unarmed : vt.vt_func t = none) {delay : UInt32} (later : delay ≠ 0) {fuel : Nat}
    {vt' : VtList τ φ π} (result : vt.chVTDoSetI fuel t delay f p = some vt') :
    ∃ l', Linked vt' (Function.update armed t (some (base + delay.toNat, f, p))) base l' ∧
      (NotDue vt l → NotDue vt' l') := by
  have enough : l.length < fuel + (l.length + 1) := by omega
  obtain ⟨vt'', l', returned, linked', notDue⟩ := linked_set linked unarmed later enough f p
  have more : vt.chVTDoSetI (fuel + (l.length + 1)) t delay f p = some vt' := by
    obtain ⟨r, scanned, eq⟩ := Option.map_eq_some_iff.mp result
    exact Option.map_eq_some_iff.mpr ⟨r, scan_mono (Nat.le_add_right _ _) scanned, eq⟩
  obtain rfl : vt' = vt'' := Option.some.inj (more.symm.trans returned)
  exact ⟨l', linked', notDue⟩

end Set

section Reset

variable [DecidableEq τ] {vt : VtList τ φ π} {armed : τ → Option (Nat × φ × π)} {base : Nat}
  {xs ys : List τ} {t : τ}

theorem reset_delta_other {x : τ} {next : Option τ} (is : vt.links.next (some t) = next)
    (other : next ≠ some x) : (vt.chVTDoResetI t).vt_delta (some x) = vt.vt_delta (some x) := by
  simp [VtList.chVTDoResetI, is, Function.update_of_ne other.symm]

theorem reset_delta_next {y : τ} (is : vt.links.next (some t) = some y) :
    (vt.chVTDoResetI t).vt_delta (some y) = vt.vt_delta (some y) + vt.vt_delta (some t) := by
  simp [VtList.chVTDoResetI, is]

/-- The timers after the one that is removed keep their expiry. -/
theorem deltas_reset_rest (fresh : t ∉ ys) (nodup : ys.Nodup)
    (is : vt.links.next (some t) = ys.head?)
    (room : (vt.vt_delta (some t)).toNat + total vt ys ≤ 4294967295) {a : Option (Nat × φ × π)}
    (deltas : Deltas vt armed (base + (vt.vt_delta (some t)).toNat) ys) :
    Deltas (vt.chVTDoResetI t) (Function.update armed t a) base ys ∧
      total (vt.chVTDoResetI t) ys ≤ (vt.vt_delta (some t)).toNat + total vt ys := by
  cases ys with
  | nil => exact ⟨trivial, by simp [total]⟩
  | cons y ys =>
      obtain ⟨⟨g, func, at_y⟩, deltas⟩ := deltas
      rw [List.head?_cons] at is
      have split : ∀ v : VtList τ φ π,
          total v (y :: ys) = (v.vt_delta (some y)).toNat + total v ys :=
        fun v => rfl
      rw [split] at room ⊢
      have y_t : y ≠ t := fun h => fresh (h ▸ List.mem_cons_self)
      have delta_y := reset_delta_next is
      have others : ∀ x ∈ ys,
          x ≠ t ∧ (vt.chVTDoResetI t).vt_delta (some x) = vt.vt_delta (some x) := by
        intro x hx
        refine ⟨fun h => fresh (h ▸ List.mem_cons_of_mem _ hx), reset_delta_other is ?_⟩
        intro h
        exact (List.nodup_cons.mp nodup).1 (Option.some.inj h ▸ hx)
      have sum : (vt.vt_delta (some y) + vt.vt_delta (some t)).toNat =
          (vt.vt_delta (some t)).toNat + (vt.vt_delta (some y)).toNat := by
        rw [UInt32.toNat_add, Nat.add_comm]
        exact Nat.mod_eq_of_lt (by omega)
      refine ⟨⟨⟨g, ?_, ?_⟩, ?_⟩, ?_⟩
      · exact (Function.update_of_ne y_t _ _).trans func
      · rw [Function.update_of_ne y_t, at_y, delta_y, sum, Nat.add_assoc]
        rfl
      · rw [delta_y, sum, ← Nat.add_assoc]
        apply deltas.congr
        intro x hx
        obtain ⟨x_t, same⟩ := others x hx
        exact ⟨same, Function.update_of_ne x_t _ _, rfl, Function.update_of_ne x_t _ _⟩
      · rw [split, delta_y, sum, total_congr fun x hx => (others x hx).2]
        omega

/-- A timer taken off the list is the only one to lose its function. -/
theorem Linked.func_removed {l l' : List τ} (linked : Linked vt armed base l)
    (rest : ∀ x, x ∈ l' ↔ x ∈ l ∧ x ≠ t) (x : τ) :
    Function.update vt.vt_func t none x ≠ none ↔ x ∈ l' := by
  rw [rest]
  by_cases h : x = t
  · simp [h]
  · rw [Function.update_of_ne h, linked.func]
    exact (and_iff_left h).symm

theorem Linked.armed_removed {l l' : List τ} (linked : Linked vt armed base l)
    (rest : ∀ x, x ∈ l' ↔ x ∈ l ∧ x ≠ t) (x : τ)
    (still : Function.update armed t none x ≠ none) : x ∈ l' := by
  by_cases h : x = t
  · rw [h, Function.update_self] at still
    exact absurd rfl still
  · rw [Function.update_of_ne h] at still
    exact (rest x).mpr ⟨linked.armed x still, h⟩

/-- `chVTDoResetI` removes the timer from the list. -/
theorem linked_reset {l : List τ} (linked : Linked vt armed base l) (is_armed : vt.vt_func t ≠ none) :
    ∃ l', Linked (vt.chVTDoResetI t) (Function.update armed t none) base l' ∧
      (NotDue vt l → NotDue (vt.chVTDoResetI t) l') := by
  obtain ⟨xs, ys, rfl⟩ := List.append_of_mem ((linked.func t).mp is_armed)
  have nodup := linked.nodup
  have is := linked.next_mem
  obtain ⟨fresh, nodup'⟩ := List.nodup_cons.mp (List.nodup_middle.mp nodup)
  obtain ⟨-, nodup₂, disjoint⟩ := List.nodup_append.mp nodup'
  rw [List.mem_append, not_or] at fresh
  obtain ⟨deltas₁, -, deltas₂⟩ := deltas_append.mp linked.deltas
  have bound := linked.bound
  have split : total vt (xs ++ t :: ys) =
      total vt xs + ((vt.vt_delta (some t)).toNat + total vt ys) := by
    rw [total_append]
    rfl
  rw [split] at bound
  have before : ∀ x ∈ xs, x ≠ t ∧ (vt.chVTDoResetI t).vt_delta (some x) = vt.vt_delta (some x) := by
    intro x hx
    refine ⟨fun h => fresh.1 (h ▸ hx), reset_delta_other is ?_⟩
    intro h
    exact disjoint x hx x (List.mem_of_mem_head? h) rfl
  have others : ∀ x, x ∈ xs ++ ys ↔ x ∈ xs ++ t :: ys ∧ x ≠ t := by
    intro x
    rw [List.mem_append, List.mem_append, List.mem_cons]
    by_cases h : x = t
    · simp [h, fresh]
    · simp [h]
  obtain ⟨rest, small⟩ := deltas_reset_rest (a := none) fresh.2 nodup₂ is (by omega) deltas₂
  refine ⟨xs ++ ys, ?_, ?_⟩
  · constructor
    · have ring := linked.ring
      rw [List.map_append, List.map_cons] at ring
      rw [List.map_append]
      exact ring.unlink
    · simp [VtList.chVTDoResetI]
    · exact linked.func_removed others
    · rw [deltas_append, total_congr fun x hx => (before x hx).2]
      refine ⟨deltas₁.congr fun x hx => ?_, rest⟩
      obtain ⟨x_t, same⟩ := before x hx
      exact ⟨same, Function.update_of_ne x_t _ _, rfl, Function.update_of_ne x_t _ _⟩
    · exact linked.armed_removed others
    · rw [total_append, total_congr fun x hx => (before x hx).2]
      omega
  · intro notDue x first
    cases xs with
    | nil =>
        obtain ⟨ys', rfl⟩ : ∃ ys', ys = x :: ys' := by
          cases ys with
          | nil => exact absurd first (by simp)
          | cons y ys' => exact ⟨ys', by rw [Option.some.inj first]⟩
        rw [reset_delta_next is]
        intro zero
        have sum := congrArg UInt32.toNat zero
        have split' : total vt (x :: ys') = (vt.vt_delta (some x)).toNat + total vt ys' := rfl
        rw [UInt32.toNat_add, Nat.mod_eq_of_lt (by omega)] at sum
        apply notDue t rfl
        apply UInt32.toNat_inj.mp
        change _ = 0
        change _ = 0 at sum
        omega
    | cons y ys =>
        obtain rfl : y = x := Option.some.inj first
        rw [(before y List.mem_cons_self).2]
        exact notDue y rfl

end Reset

section Tick

variable [DecidableEq τ] {vt : VtList τ φ π} {armed : τ → Option (Nat × φ × π)} {base : Nat}
  {l ys : List τ} {t : τ}

/-- A tick brings all timers one nearer. -/
theorem linked_tick (linked : Linked vt armed base l) (notDue : NotDue vt l) :
    Linked vt.tick armed (base + 1) l := by
  have first := linked.next_header
  cases l with
  | nil =>
      have same : vt.tick = { vt with vt_systime := vt.vt_systime + 1 } := by
        rw [VtList.tick]
        exact if_neg (not_not.mpr first.symm)
      rw [same]
      exact ⟨linked.ring, linked.header, linked.func, trivial, linked.armed, linked.bound⟩
  | cons x xs =>
      have changed : vt.tick = { vt with
          vt_systime := vt.vt_systime + 1
          vt_delta := Function.update vt.vt_delta (some x) (vt.vt_delta (some x) - 1) } := by
        rw [VtList.tick]
        simp only [first, List.head?_cons]
        exact if_pos (by simp)
      obtain ⟨⟨f, func, at_x⟩, deltas⟩ := linked.deltas
      have nodup := List.nodup_cons.mp linked.nodup
      have delta_x : vt.tick.vt_delta (some x) = vt.vt_delta (some x) - 1 := by
        rw [changed]
        exact Function.update_self _ _ _
      have others : ∀ y ∈ xs, vt.tick.vt_delta (some y) = vt.vt_delta (some y) := by
        intro y hy
        rw [changed]
        apply Function.update_of_ne
        intro h
        exact nodup.1 (Option.some.inj h ▸ hy)
      have one : (1 : UInt32) ≤ vt.vt_delta (some x) := by
        rw [UInt32.le_iff_toNat_le]
        change 1 ≤ _
        have := notDue x rfl
        rw [ne_eq, ← UInt32.toNat_inj] at this
        change ¬ _ = 0 at this
        omega
      have sub : (vt.vt_delta (some x) - 1).toNat = (vt.vt_delta (some x)).toNat - 1 :=
        UInt32.toNat_sub_of_le _ _ one
      have one : 1 ≤ (vt.vt_delta (some x)).toNat := UInt32.le_iff_toNat_le.mp one
      have sum : base + 1 + (vt.vt_delta (some x) - 1).toNat =
          base + (vt.vt_delta (some x)).toNat := by
        omega
      constructor
      · rw [changed]
        exact linked.ring
      · rw [changed]
        change Function.update vt.vt_delta (some x) (vt.vt_delta (some x) - 1) none = _
        rw [Function.update_of_ne (Option.some_ne_none x).symm]
        exact linked.header
      · rw [changed]
        exact linked.func
      · constructor
        · refine ⟨f, ?_, ?_⟩
          · rw [changed]
            exact func
          · rw [delta_x, sum, at_x, changed]
        · rw [delta_x, sum]
          apply deltas.congr
          intro y hy
          exact ⟨others y hy, by rw [changed], by rw [changed], rfl⟩
      · exact linked.armed
      · have bound := linked.bound
        change (vt.vt_delta (some x)).toNat + total vt xs ≤ _ at bound
        change (vt.tick.vt_delta (some x)).toNat + total vt.tick xs ≤ _
        rw [delta_x, sub, total_congr others]
        omega

/-- The first timer is taken off the list, which then starts at its expiry. -/
theorem linked_expire_front (linked : Linked vt armed base (t :: ys)) :
    Linked (vt.expire t) (Function.update armed t none) (base + (vt.vt_delta (some t)).toNat)
      ys := by
  obtain ⟨fresh, nodup⟩ := List.nodup_cons.mp linked.nodup
  have others : ∀ x ∈ ys, x ≠ t := fun x hx h => fresh (h ▸ hx)
  have rest : ∀ x, x ∈ ys ↔ x ∈ t :: ys ∧ x ≠ t := by
    intro x
    rw [List.mem_cons]
    by_cases h : x = t
    · simp [h, fresh]
    · simp [h]
  have links : (vt.expire t).links = vt.links.unlink (some t) := by
    have prev : vt.links.prev (some t) = none := by
      have ring := linked.ring
      rw [List.map_cons] at ring
      exact ring.prev_first
    simp [VtList.expire, Links.unlink, prev]
  constructor
  · rw [links]
    have ring : Ring vt.links none ([] ++ some t :: ys.map some) := linked.ring
    exact ring.unlink
  · exact linked.header
  · exact linked.func_removed rest
  · obtain ⟨-, deltas⟩ := linked.deltas
    apply deltas.congr
    intro x hx
    exact ⟨rfl, Function.update_of_ne (others x hx) _ _, rfl,
      Function.update_of_ne (others x hx) _ _⟩
  · exact linked.armed_removed rest
  · have bound := linked.bound
    change (vt.vt_delta (some t)).toNat + total vt ys ≤ _ at bound
    change total vt ys ≤ _
    omega

/-- A timer that is due is taken off the front of the list. -/
theorem linked_expire (linked : Linked vt armed base l) (first : vt.links.next none = some t)
    (due : vt.vt_delta (some t) = 0) : ∃ ys, l = t :: ys ∧
      Linked (vt.expire t) (Function.update armed t none) base ys := by
  obtain ⟨ys, rfl⟩ := linked.eq_cons first
  have rest := linked_expire_front linked
  rw [due] at rest
  exact ⟨ys, rfl, rest⟩

end Tick

/-! ### Whole histories -/

section Runs

variable [DecidableEq τ] {s s' : Sys τ φ π} {l : List τ}

/-- The list of a state, the history, and no timer overdue. -/
structure Inv (s : Sys τ φ π) (l : List τ) : Prop where
  linked : Linked s.vt (fun t => armedBy t s.log) s.ticks l
  notDue : s.mode = .idle → NotDue s.vt l
  log : LogOk s.log

theorem armedBy_concat_eq (log : List (Event τ φ π)) {t : τ} {a : Option (Nat × φ × π)}
    {e : Event τ φ π} (is : e.timer = t) (self : arm t (armedBy t log) e = a) :
    (fun x => armedBy x (log ++ [e])) = Function.update (fun x => armedBy x log) t a := by
  funext x
  rw [armedBy_concat]
  by_cases h : x = t
  · rw [h, Function.update_self, self]
  · rw [Function.update_of_ne h]
    apply arm_of_ne
    rw [is]
    exact fun h' => h h'.symm

theorem inv_init (vt : VtList τ φ π) : Inv ⟨vt._vt_init, .idle, 0, []⟩ [] := by
  constructor
  · constructor
    · exact ring_empty _ _
    · simp [VtList._vt_init]
    · intro t
      simp [VtList._vt_init]
    · trivial
    · intro t armed
      exact absurd rfl armed
    · simp [total]
  · intro _ x first
    exact absurd first (by simp)
  · intro pre post m t f p func split
    exact absurd split (by simp)

theorem inv_step (inv : Inv s l) (step : Step s s') : ∃ l', Inv s' l' := by
  cases step with
  | @set vt fuel t delay f p outside unarmed later result =>
      obtain ⟨l', linked, notDue⟩ := linked_of_set inv.linked unarmed later result
      refine ⟨l', ?_, fun idle => notDue (inv.notDue idle), ?_⟩
      · rw [armedBy_concat_eq s.log rfl (arm_set _ _ _ _ _ _)]
        exact linked
      · apply logOk_concat inv.log
        intro m t f p func h
        exact absurd h (by simp)
  | reset t outside armed =>
      obtain ⟨l', linked, notDue⟩ := linked_reset inv.linked armed
      refine ⟨l', ?_, fun idle => notDue (inv.notDue idle), ?_⟩
      · rw [armedBy_concat_eq s.log rfl (arm_reset _ _ _)]
        exact linked
      · apply logOk_concat inv.log
        intro m t f p func h
        exact absurd h (by simp)
  | tick idle =>
      exact ⟨l, linked_tick inv.linked (inv.notDue idle), fun h => absurd h (by simp), inv.log⟩
  | fire t f looping first due func =>
      obtain ⟨l', rfl, linked⟩ := linked_expire inv.linked first due
      refine ⟨l', ?_, fun h => absurd h (by simp), ?_⟩
      · rw [armedBy_concat_eq s.log rfl (arm_fire _ _ _ _ _ _)]
        exact linked
      · apply logOk_concat inv.log
        intro m t' f' p func' h
        obtain ⟨rfl, rfl, rfl, rfl, rfl⟩ : s.ticks = m ∧ t = t' ∧ f = f' ∧ s.vt.vt_par t = p ∧
            (s.vt.expire t).vt_func t = func' := by simpa using h
        obtain ⟨⟨g, func_t, armed⟩, -⟩ := inv.linked.deltas
        change armedBy t s.log = _ at armed
        refine ⟨?_, Function.update_self _ _ _⟩
        rw [armed, due]
        rw [func] at func_t
        rw [Option.some.inj func_t]
        rfl
  | «return» callback =>
      exact ⟨l, inv.linked, fun h => absurd h (by simp), inv.log⟩
  | done looping later =>
      refine ⟨l, inv.linked, ?_, inv.log⟩
      intro _ x first
      rwa [inv.linked.next_header, first] at later

theorem Reachable.inv (reachable : Reachable s) : ∃ l, Inv s l := by
  obtain ⟨vt, run⟩ := reachable
  induction run with
  | refl => exact ⟨[], inv_init vt⟩
  | tail _ step ih =>
      obtain ⟨l, inv⟩ := ih
      exact inv_step inv step

/-- An armed timer is on the list, at the tick it was set for. -/
theorem Inv.armed_at (inv : Inv s l) {t : τ} {n : Nat} {f : φ} {p : π}
    (armed : armedBy t s.log = some (n, f, p)) :
    ∃ xs ys, l = xs ++ t :: ys ∧ n = s.ticks + total s.vt (xs ++ [t]) := by
  have mem : t ∈ l := inv.linked.armed t (by rw [armed]; simp)
  obtain ⟨xs, ys, rfl⟩ := List.append_of_mem mem
  obtain ⟨f', -, armed'⟩ := inv.linked.deltas.at
  have same : (n, f, p) = _ := Option.some.inj (armed.symm.trans armed')
  exact ⟨xs, ys, rfl, (Prod.mk.inj same).1⟩

/-- The tick the list has for a timer is the one it was set for. -/
theorem Inv.expiry_iff (inv : Inv s l) {t : τ} {n : Nat} :
    Expiry s t n ↔ ∃ f p, armedBy t s.log = some (n, f, p) := by
  constructor
  · rintro ⟨xs, ys, ring, rfl⟩
    have same : l.map some = (xs ++ t :: ys).map some := inv.linked.ring.unique ring
    obtain rfl := List.map_injective_iff.mpr (Option.some_injective τ) same
    obtain ⟨f, -, armed⟩ := inv.linked.deltas.at
    exact ⟨f, _, armed⟩
  · rintro ⟨f, p, armed⟩
    obtain ⟨xs, ys, rfl, sum⟩ := inv.armed_at armed
    exact ⟨xs, ys, inv.linked.ring, sum⟩

/-- The timer a step is about. -/
def about (s s' : Sys τ φ π) (t : τ) : Prop := ∃ e, s'.log = s.log ++ [e] ∧ e.timer = t

theorem armedBy_step {t : τ} (step : Step s s') (other : ¬ about s s' t) :
    armedBy t s'.log = armedBy t s.log := by
  have added : ∀ e, s'.log = s.log ++ [e] → armedBy t s'.log = armedBy t s.log := by
    intro e is
    rw [is, armedBy_concat]
    exact arm_of_ne (fun h => other ⟨e, is, h⟩) _
  cases step with
  | set fuel vtp delay vtfunc par outside unarmed later result => exact added _ rfl
  | reset vtp outside armed => exact added _ rfl
  | tick idle => rfl
  | fire vtp fn looping first due func => exact added _ rfl
  | «return» callback => rfl
  | done looping later => rfl

/-- Every callback runs in the tick its timer was set for, with its parameter and
`vt_func` cleared, and belongs to a call of `chVTDoSetI` with nothing done to the
timer in between; and a timer to which nothing was done since it was set is not
overdue. -/
structure OnTime (s : Sys τ φ π) : Prop where
  fired : ∀ pre post m t f p func, s.log = pre ++ .fire m t f p func :: post →
    func = none ∧ ∃ pre' mid n, ∃ delay : UInt32, pre = pre' ++ .set n t delay f p :: mid ∧
      (∀ e ∈ mid, e.timer ≠ t) ∧ m = n + delay.toNat
  pending : ∀ pre post n t f p, ∀ delay : UInt32, s.log = pre ++ .set n t delay f p :: post →
    (∀ e ∈ post, e.timer ≠ t) →
      s.ticks ≤ n + delay.toNat ∧ (s.mode = .idle → s.ticks < n + delay.toNat)

/-- An armed timer's tick is not over. -/
theorem Inv.not_overdue (inv : Inv s l) {t : τ} {n : Nat} {f : φ} {p : π}
    (armed : armedBy t s.log = some (n, f, p)) : s.ticks ≤ n ∧ (s.mode = .idle → s.ticks < n) := by
  obtain ⟨xs, ys, rfl, sum⟩ := inv.armed_at armed
  constructor
  · omega
  · intro idle
    have notDue := inv.notDue idle
    have positive : 0 < total s.vt (xs ++ [t]) := by
      obtain ⟨y, rest, split⟩ : ∃ y rest, xs ++ [t] = y :: rest := by
        cases xs with
        | nil => exact ⟨t, [], rfl⟩
        | cons y xs => exact ⟨y, xs ++ [t], rfl⟩
      have first : (xs ++ t :: ys).head? = some y := by
        have : xs ++ t :: ys = (xs ++ [t]) ++ ys := by simp
        rw [this, split]
        rfl
      have nonzero := notDue y first
      rw [ne_eq, ← UInt32.toNat_inj] at nonzero
      change ¬ _ = 0 at nonzero
      rw [split]
      change 0 < (s.vt.vt_delta (some y)).toNat + total s.vt rest
      omega
    omega

theorem Inv.onTime (inv : Inv s l) : OnTime s := by
  constructor
  · intro pre post m t f p func split
    obtain ⟨armed, null⟩ := inv.log pre post m t f p func split
    exact ⟨null, exists_set armed⟩
  · intro pre post n t f p delay split others
    apply inv.not_overdue (f := f) (p := p)
    rw [split, armedBy_of_set others]

/-- Virtual timers fire exactly on time. In every history of sets, resets and ticks,
with callbacks that set and reset timers themselves: the armed timers are on a
well-formed list whose header delta is `(systime_t)-1`; every callback runs in the
tick its timer was set for and none is overdue; a step changes the expiry of no
timer but the one it is about; finitely many timers are due in a tick; and neither
`chVTDoSetI` nor the tick loop can get stuck. -/
theorem timers_on_time (reachable : Reachable s) :
    (∃ l : List τ, Ring s.vt.links none (l.map some) ∧ (∀ t, s.vt.vt_func t ≠ none ↔ t ∈ l) ∧
      ∀ t f p, armedBy t s.log = some (s.ticks, f, p) → t ∈ l) ∧
    s.vt.vt_delta none = VtList.sentinel ∧ OnTime s ∧
    (∀ t, s.vt.vt_func t ≠ none ↔ armedBy t s.log ≠ none) ∧
    (∀ s', Step s s' → ∀ t n, ¬ about s s' t → (Expiry s' t n ↔ Expiry s t n)) ∧
    (∀ t, s.vt.vt_func t = none → ∀ delay, delay ≠ 0 → ∀ f p,
      ∃ fuel vt, s.vt.chVTDoSetI fuel t delay f p = some vt) ∧
    (s.mode = .looping → ∃ s', Step s s') := by
  obtain ⟨l, inv⟩ := reachable.inv
  have linked := inv.linked
  refine ⟨⟨l, linked.ring, linked.func, ?_⟩, linked.header, inv.onTime, ?_, ?_, ?_, ?_⟩
  · intro t f p armed
    exact linked.armed t (by rw [armed]; simp)
  · intro t
    rw [linked.func]
    constructor
    · intro mem
      obtain ⟨xs, ys, rfl⟩ := List.append_of_mem mem
      obtain ⟨f, -, armed⟩ := linked.deltas.at
      rw [armed]
      simp
    · exact linked.armed t
  · intro s' step t n other
    obtain ⟨l', inv'⟩ := inv_step inv step
    rw [inv.expiry_iff, inv'.expiry_iff, armedBy_step step other]
  · intro t unarmed delay later f p
    obtain ⟨vt, -, returned, -⟩ := linked_set linked unarmed later (Nat.lt_succ_self _) f p
    exact ⟨_, vt, returned⟩
  · intro looping
    by_cases due : s.vt.vt_delta (s.vt.links.next none) = 0
    · cases l with
      | nil =>
          rw [linked.next_header, List.head?_nil, linked.header] at due
          exact absurd due (by decide)
      | cons t l =>
          have first : s.vt.links.next none = some t := linked.next_header
          obtain ⟨⟨f, func, -⟩, -⟩ := linked.deltas
          rw [first] at due
          exact ⟨_, .fire t f looping first due func⟩
    · exact ⟨_, .done looping due⟩

end Runs

/-- No timers yet. -/
def sampleVt : VtList Nat Nat Nat := ⟨⟨id, id⟩, fun _ => 0, fun _ => none, fun _ => 0, 0⟩

/-- Timer 3 is set to expire with the first tick, and the tick is at the head of its
loop. -/
def sampleSys : Sys Nat Nat Nat where
  vt := ((sampleVt._vt_init.withTimer 3 8 9).insert 3 none 1).tick
  mode := .looping
  ticks := 1
  log := [.set 0 3 1 8 9]

theorem sampleSys_reachable : Reachable sampleSys := by
  have set : Step ⟨sampleVt._vt_init, .idle, 0, []⟩
      ⟨(sampleVt._vt_init.withTimer 3 8 9).insert 3 none 1, .idle, 0, [.set 0 3 1 8 9]⟩ :=
    .set 1 3 1 8 9 (by decide) rfl (by decide) rfl
  exact ⟨sampleVt, .tail (.tail .refl set) (.tick rfl)⟩

/-- The timer fires, and its callback sets it again together with another one. -/
theorem sampleSys_on_time :
    ∃ s, Relation.ReflTransGen Step sampleSys s ∧
      s.log = [.set 0 3 1 8 9, .fire 1 3 8 9 none, .set 1 3 2 8 9, .set 1 4 1 8 9] ∧
      s.vt.links.next none = some 4 ∧ OnTime s ∧ ∃ s', Step s s' := by
  obtain ⟨s, run, mode, log, first⟩ : ∃ s, Relation.ReflTransGen Step sampleSys s ∧
      s.mode = .looping ∧
      s.log = [.set 0 3 1 8 9, .fire 1 3 8 9 none, .set 1 3 2 8 9, .set 1 4 1 8 9] ∧
      s.vt.links.next none = some 4 := by
    exact ⟨_, .head (.fire 3 8 rfl rfl rfl rfl)
      (.head (.set 3 3 2 8 9 (by decide) rfl (by decide) rfl)
        (.head (.set 3 4 1 8 9 (by decide) rfl (by decide) rfl) (.single (.return rfl)))),
      rfl, rfl, rfl⟩
  obtain ⟨vt, start⟩ := sampleSys_reachable
  have reachable : Reachable s := ⟨vt, start.trans run⟩
  obtain ⟨-, -, onTime, -, -, -, going⟩ := timers_on_time reachable
  exact ⟨s, run, log, first, onTime, going mode⟩

end LtcOs.Timers
