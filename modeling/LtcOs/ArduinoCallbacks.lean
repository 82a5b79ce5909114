import LtcOs.ArduinoTimers

/-!
Deferred timer callbacks.

The history of a run is read as a ledger: what the expired timers were armed with is due,
and what `runCallbacks` calls must be due and is then done. At its end a `runCallbacks` must
have called all that was due at its begin. The ledger is right as long as no timer expires
while both entries of `scheduled_callbacks` are taken, or between the load and the store of
the counter.
-/

namespace LtcOs.Arduino

open LtcOs.Slots

variable {V F P : Type}

/-! ### The ledger -/

/-- What the timers are armed with, the calls due so far, the calls made, and the calls due at
the begin of the present `runCallbacks`. -/
structure Ledger (V F P : Type) where
  given : V → Option (F × Option P)
  due : List (F × Option P)
  called : List (F × Option P)
  owed : Option (List (F × Option P))

def Ledger.empty : Ledger V F P where
  given := fun _ => none
  due := []
  called := []
  owed := none

section Ledger

variable [DecidableEq V] [DecidableEq F] [DecidableEq P]

/-- One event: none if a timer expires that is not armed, a call is not due, or
`runCallbacks` ends too early. -/
def Ledger.next (l : Ledger V F P) : TimerEvent V F P → Option (Ledger V F P)
  | .armed vtp func param =>
      some { l with given := Function.update l.given vtp (some (func, param)) }
  | .reset vtp => some { l with given := Function.update l.given vtp none }
  | .expired vtp => (l.given vtp).map fun x =>
      { l with given := Function.update l.given vtp none, due := l.due ++ [x] }
  | .called func param =>
      if l.called.count (func, param) < l.due.count (func, param) then
        some { l with called := l.called ++ [(func, param)] }
      else none
  | .begun => some { l with owed := some l.due }
  | .ended => l.owed.bind fun owed =>
      if ∀ x ∈ owed, owed.count x ≤ l.called.count x then some { l with owed := none } else none

def ledger (log : List (TimerEvent V F P)) : Option (Ledger V F P) :=
  log.foldl (fun l e => l.bind fun l => l.next e) (some .empty)

theorem ledger_concat (log : List (TimerEvent V F P)) (e : TimerEvent V F P) :
    ledger (log ++ [e]) = (ledger log).bind fun l => l.next e := by
  simp [ledger]

end Ledger

namespace Timers

/-! ### What is scheduled -/

/-- An entry is for a call of `x.1` with `x.2`. -/
def Is (x : F × Option P) (cb : VtCallback F P) : Prop := cb.func = some x.1 ∧ cb.param = x.2

instance [DecidableEq F] [DecidableEq P] (x : F × Option P) (cb : VtCallback F P) :
    Decidable (Is x cb) :=
  inferInstanceAs (Decidable (_ ∧ _))

/-- The entry of a function that has been called and is not cleared yet. -/
def current : RunPc → Option Nat
  | .inside i => some i
  | .clear i => some i
  | _ => none

/-- The entries for calls to be made. -/
def pending (s : Timers V F P) : Nat → VtCallback F P :=
  match current s.runner with
  | some i => Function.update s.scheduled_callbacks i { func := none, param := none }
  | none => s.scheduled_callbacks

/-- The first entry that `runCallbacks` has yet to come to. -/
def position : RunPc → Nat
  | .idle => 0
  | .test => 0
  | .check i => i
  | .call i => i
  | .inside i => i + 1
  | .clear i => i + 1
  | .load i => i + 1
  | .store i _ => i + 1

/-- The counter is one ahead between the clearing of an entry and the store. -/
def ahead : RunPc → Nat
  | .load _ => 1
  | .store _ _ => 1
  | _ => 0

/-- What `runCallbacks` knows of the entry it is at. -/
def At (s : Timers V F P) : RunPc → Prop
  | .call i => i < ARRAY_SIZE ∧ Used (s.scheduled_callbacks i)
  | .inside i => i < ARRAY_SIZE ∧ Used (s.scheduled_callbacks i)
  | .clear i => i < ARRAY_SIZE ∧ Used (s.scheduled_callbacks i)
  | .store _ n => n = s.num_scheduled_callbacks
  | _ => True

/-- Calls made and calls pending are the calls due. -/
structure Books (s : Timers V F P) (l : Ledger V F P) [DecidableEq F] [DecidableEq P] : Prop where
  given : ∀ v i, s.armed v = some i → ∃ x, l.given v = some x ∧ Is x (s.vtcallbacks i)
  balance : ∀ x, l.called.count x + tally (Is x) s.pending 0 ARRAY_SIZE = l.due.count x
  number : s.num_scheduled_callbacks.toNat =
      tally Used s.scheduled_callbacks 0 ARRAY_SIZE + ahead s.runner
  here : At s s.runner
  owed : s.runner ≠ .idle → ∃ owed, l.owed = some owed ∧
    ∀ x, owed.count x ≤ l.called.count x + tally (Is x) s.pending (position s.runner) ARRAY_SIZE

/-- The books are right for the history. -/
structure Kept (s : Timers V F P) [DecidableEq V] [DecidableEq F] [DecidableEq P] : Prop where
  slotted : Slotted s
  books : ∃ l, ledger s.log = some l ∧ Books s l

/-- The condition under which no call is lost: a timer expires only while an entry is free and
the counter is not between its load and its store. -/
def Spaced (s : Timers V F P) : Act V F P → Prop
  | .expire _ =>
      (∃ i, i < ARRAY_SIZE ∧ ¬ Used (s.scheduled_callbacks i)) ∧ ∀ i n, s.runner ≠ .store i n
  | _ => True

section Entries

variable {s : Timers V F P}

theorem not_is_empty (x : F × Option P) (param : Option P) :
    ¬ Is x ({ func := none, param := param } : VtCallback F P) := by
  rintro ⟨eq, -⟩
  cases eq

theorem Is.used {x : F × Option P} {cb : VtCallback F P} (is : Is x cb) : Used cb := by
  rw [Used, is.1]
  simp

theorem pending_of_none (none : current s.runner = none) : s.pending = s.scheduled_callbacks := by
  rw [pending, none]

theorem pending_of_some {i : Nat} (some : current s.runner = some i) :
    s.pending = Function.update s.scheduled_callbacks i { func := none, param := none } := by
  rw [pending, some]

end Entries

/-! ### `runCallbacks` -/

section Run

variable [DecidableEq F] [DecidableEq P] {s : Timers V F P} {l : Ledger V F P}

/-- The thread goes on to a place where the books look the same. -/
theorem Books.go (books : Books s l) {pc : RunPc} (same : current pc = current s.runner)
    (ahead_eq : ahead pc = ahead s.runner)
    (here : At s pc)
    (owed : pc ≠ .idle → ∃ owed, l.owed = some owed ∧
      ∀ x, owed.count x ≤ l.called.count x + tally (Is x) s.pending (position pc) ARRAY_SIZE) :
    Books { s with runner := pc } l := by
  have pending_eq : pending { s with runner := pc } = s.pending := by
    unfold pending
    rw [same]
  refine ⟨books.given, ?_, ?_, ?_, ?_⟩
  · rw [pending_eq]
    exact books.balance
  · rw [ahead_eq]
    exact books.number
  · cases pc <;> exact here
  · rw [pending_eq]
    exact owed

/-- All that was due at the begin has been called at the end. -/
theorem Books.ends (books : Books s l) (active : s.runner ≠ .idle)
    (nothing : ∀ x, tally (Is x) s.pending (position s.runner) ARRAY_SIZE = 0) [DecidableEq V] :
    l.next .ended = some { l with owed := none } := by
  obtain ⟨owed, eq, le⟩ := books.owed active
  have paid : ∀ x ∈ owed, owed.count x ≤ l.called.count x := by
    intro x _
    have := le x
    rwa [nothing x] at this
  simp only [Ledger.next, eq, Option.bind_some, if_pos paid]

/-- Nothing is pending when the counter is zero. -/
theorem Books.nothing_pending (books : Books s l) (test : s.runner = .test)
    (zero : s.num_scheduled_callbacks = 0) (x : F × Option P) :
    tally (Is x) s.pending (position s.runner) ARRAY_SIZE = 0 := by
  have number := books.number
  rw [zero, test] at number
  have none : tally Used s.scheduled_callbacks 0 ARRAY_SIZE = 0 := number.symm
  apply tally_eq_zero
  intro j _ lt is
  rw [pending_of_none (by rw [test]; rfl)] at is
  exact of_tally_eq_zero none (Nat.zero_le j) lt is.used

/-- The function of an entry is called. -/
theorem Books.call (books : Books s l) {i : Nat} (pc : s.runner = .call i) {func : F}
    (eq : (s.scheduled_callbacks i).func = some func) [DecidableEq V] :
    ∃ l', l.next (.called func (s.scheduled_callbacks i).param) = some l' ∧
      ∀ log, Books { s with runner := .inside i, log := log } l' := by
  have here := books.here
  rw [pc] at here
  have before : s.pending = s.scheduled_callbacks := pending_of_none (by rw [pc]; rfl)
  have after : ∀ log, pending { s with runner := .inside i, log := log } =
      Function.update s.scheduled_callbacks i { func := none, param := none } := fun _ => rfl
  have is : ∀ x, Is x (s.scheduled_callbacks i) ↔ (func, (s.scheduled_callbacks i).param) = x := by
    intro x
    rw [Is, eq, Prod.ext_iff]
    simp only [Option.some.injEq]
  have taken : ∀ x,
      tally (Is x) (Function.update s.scheduled_callbacks i { func := none, param := none }) 0
      ARRAY_SIZE +
      (if (func, (s.scheduled_callbacks i).param) = x then 1 else 0) =
        tally (Is x) s.scheduled_callbacks 0 ARRAY_SIZE := by
    intro x
    have := tally_update (p := Is x) (t := s.scheduled_callbacks) (k := 0) ⟨Nat.zero_le i, here.1⟩
      { func := none, param := none }
    rw [if_neg (not_is_empty x none)] at this
    simpa only [is, Nat.add_zero] using this
  have count : ∀ x, (l.called ++ [(func, (s.scheduled_callbacks i).param)]).count x =
      l.called.count x + if (func, (s.scheduled_callbacks i).param) = x then 1 else 0 := by
    intro x
    simp only [List.count_append, List.count_singleton, beq_iff_eq]
  have due : l.called.count (func, (s.scheduled_callbacks i).param) <
      l.due.count (func, (s.scheduled_callbacks i).param) := by
    have balance := books.balance (func, (s.scheduled_callbacks i).param)
    have this := taken (func, (s.scheduled_callbacks i).param)
    rw [before] at balance
    rw [if_pos rfl] at this
    omega
  refine ⟨_, if_pos due, fun log => ⟨books.given, ?_, ?_, here, ?_⟩⟩
  · intro x
    have balance := books.balance x
    have this := taken x
    rw [before] at balance
    rw [after, count]
    change _ = l.due.count x
    omega
  · have number := books.number
    rw [pc] at number
    exact number
  · intro _
    obtain ⟨owed, eq', le⟩ := books.owed (by rw [pc]; simp)
    refine ⟨owed, eq', ?_⟩
    intro x
    have this := le x
    rw [before, pc] at this
    change _ ≤ _ + tally (Is x) s.scheduled_callbacks i ARRAY_SIZE at this
    rw [tally_step here.1] at this
    simp only [is] at this
    rw [after, count]
    change _ ≤ _ + tally (Is x) _ (i + 1) ARRAY_SIZE
    rw [tally_update_outside (j := i) (k := i + 1) (.inl (by omega))]
    omega

/-- An entry is cleared. -/
theorem Books.clear (books : Books s l) {i : Nat} (pc : s.runner = .clear i) :
    Books { s with
      scheduled_callbacks :=
        Function.update s.scheduled_callbacks i { s.scheduled_callbacks i with func := none }
      runner := .load i } l := by
  have here := books.here
  rw [pc] at here
  have before : s.pending =
      Function.update s.scheduled_callbacks i { func := none, param := none } :=
    pending_of_some (by rw [pc]; rfl)
  have same : ∀ x k, tally (Is x)
      (Function.update s.scheduled_callbacks i { s.scheduled_callbacks i with func := none }) k
        ARRAY_SIZE =
      tally (Is x) s.pending k ARRAY_SIZE := by
    intro x k
    rw [before]
    apply tally_congr
    intro j
    by_cases at_i : j = i
    · rw [at_i, Function.update_self, Function.update_self]
      exact iff_of_false (not_is_empty x _) (not_is_empty x _)
    · rw [Function.update_of_ne at_i, Function.update_of_ne at_i]
  refine ⟨books.given, ?_, ?_, trivial, ?_⟩
  · intro x
    rw [← books.balance x, ← same x 0]
    rfl
  · have number := books.number
    have this := tally_update (p := Used) (t := s.scheduled_callbacks) (k := 0)
      ⟨Nat.zero_le i, here.1⟩
      { s.scheduled_callbacks i with func := none }
    rw [if_pos here.2, if_neg (by simp [Used])] at this
    rw [pc] at number
    change _ = _ + 0 at number
    change s.num_scheduled_callbacks.toNat =
      tally Used (Function.update s.scheduled_callbacks i _) 0 ARRAY_SIZE + 1
    omega
  · intro _
    obtain ⟨owed, eq, le⟩ := books.owed (by rw [pc]; simp)
    refine ⟨owed, eq, ?_⟩
    intro x
    have this := le x
    rw [pc] at this
    change _ ≤ _ + tally (Is x) (Function.update s.scheduled_callbacks i _) (i + 1) ARRAY_SIZE
    rw [same]
    exact this

/-- The counter is stored. -/
theorem Books.store (books : Books s l) {i : Nat} {n : UInt8} (pc : s.runner = .store i n) :
    Books { s with num_scheduled_callbacks := n - 1, runner := .check (i + 1) } l := by
  have here := books.here
  have number := books.number
  rw [pc] at here number
  have loaded : n = s.num_scheduled_callbacks := here
  have before : s.pending = s.scheduled_callbacks := pending_of_none (by rw [pc]; rfl)
  refine ⟨books.given, ?_, ?_, trivial, ?_⟩
  · intro x
    rw [← books.balance x, before]
    rfl
  · change s.num_scheduled_callbacks.toNat = _ + 1 at number
    change (n - 1).toNat = tally Used s.scheduled_callbacks 0 ARRAY_SIZE + 0
    rw [loaded, UInt8.toNat_sub_of_le]
    · change _ - 1 = _
      omega
    · rw [UInt8.le_iff_toNat_le]
      change 1 ≤ _
      omega
  · intro _
    obtain ⟨owed, eq, le⟩ := books.owed (by rw [pc]; simp)
    refine ⟨owed, eq, ?_⟩
    intro x
    have this := le x
    rw [pc, before] at this
    exact this

/-- `runCallbacks` returns. -/
theorem Books.rest (books : Books s l) (nothing : current s.runner = none)
    (level : ahead s.runner = 0) (log : List (TimerEvent V F P)) :
    Books { s with runner := .idle, log := log } { l with owed := none } := by
  have before := pending_of_none nothing
  refine ⟨books.given, ?_, ?_, trivial, fun active => absurd rfl active⟩
  · intro x
    rw [← books.balance x, before]
    rfl
  · have number := books.number
    rw [level] at number
    exact number

theorem Books.runStep (books : Books s l) [DecidableEq V] (kept : ledger s.log = some l) :
    ∃ l', ledger s.runStep.log = some l' ∧ Books s.runStep l' := by
  have here := books.here
  have owed := books.owed
  have ends : s.runner ≠ .idle → (∀ x, tally (Is x) s.pending (position s.runner) ARRAY_SIZE = 0) →
      ledger (s.log ++ [.ended]) = some { l with owed := none } := by
    intro active nothing
    rw [ledger_concat, kept]
    exact books.ends active nothing
  unfold Timers.runStep
  cases pc : s.runner with
  | idle => exact ⟨l, kept, books⟩
  | test =>
      rw [pc] at owed
      dsimp only
      split_ifs with zero
      · exact ⟨_, ends (by simp [pc]) (books.nothing_pending pc zero),
          books.rest (by rw [pc]; rfl) (by rw [pc]; rfl) _⟩
      · exact ⟨l, kept,
          books.go (by rw [pc]; rfl) (by rw [pc]; rfl) trivial fun _ => owed (by simp)⟩
  | check i =>
      rw [pc] at owed ends
      dsimp only
      split_ifs with past free
      · exact ⟨_, ends (by simp) (fun x => tally_end past),
          books.rest (by rw [pc]; rfl) (by rw [pc]; rfl) _⟩
      · refine ⟨l, kept, books.go (by rw [pc]; rfl) (by rw [pc]; rfl) trivial ?_⟩
        intro _
        obtain ⟨owed, eq, le⟩ := owed (by simp)
        refine ⟨owed, eq, ?_⟩
        intro x
        have this := le x
        have none : ¬ Is x (s.pending i) := by
          intro is
          rw [pending_of_none (by rw [pc]; rfl)] at is
          exact is.used free
        change _ ≤ _ + tally (Is x) s.pending i ARRAY_SIZE at this
        rw [tally_step (Nat.lt_of_not_le past), if_neg none, Nat.zero_add] at this
        exact this
      · exact ⟨l, kept,
          books.go (by rw [pc]; rfl) (by rw [pc]; rfl) ⟨Nat.lt_of_not_le past, free⟩ fun _ =>
          owed (by simp)⟩
  | call i =>
      dsimp only
      cases eq : (s.scheduled_callbacks i).func with
      | none => exact ⟨l, kept, books⟩
      | some func =>
          obtain ⟨l', called, right⟩ := books.call pc eq
          refine ⟨l', ?_, right _⟩
          change ledger (s.log ++ [_]) = _
          rw [ledger_concat, kept]
          exact called
  | inside i =>
      rw [pc] at here owed
      exact ⟨l, kept, books.go (by rw [pc]; rfl) (by rw [pc]; rfl) here fun _ => owed (by simp)⟩
  | clear i => exact ⟨l, kept, books.clear pc⟩
  | load i =>
      rw [pc] at owed
      exact ⟨l, kept, books.go (by rw [pc]; rfl) (by rw [pc]; rfl) rfl fun _ => owed (by simp)⟩
  | store i n => exact ⟨l, kept, books.store pc⟩

end Run

/-! ### `runCallbacks` ends -/

section Ends

/-- The steps that `runCallbacks` has left at most, six for an entry with a function. -/
def left : RunPc → Nat
  | .idle => 0
  | .test => 14
  | .check i => 6 * (2 - i) + 1
  | .call i => 6 * (2 - (i + 1)) + 6
  | .inside i => 6 * (2 - (i + 1)) + 5
  | .clear i => 6 * (2 - (i + 1)) + 4
  | .load i => 6 * (2 - (i + 1)) + 3
  | .store i _ => 6 * (2 - (i + 1)) + 2

theorem Books.left_runStep [DecidableEq F] [DecidableEq P] {s : Timers V F P} {l : Ledger V F P}
    (books : Books s l) (active : s.runner ≠ .idle) : left s.runStep.runner < left s.runner := by
  have size : ARRAY_SIZE = 2 := rfl
  have here := books.here
  unfold Timers.runStep
  cases pc : s.runner with
  | idle => exact absurd pc active
  | test =>
      dsimp only
      split_ifs <;> simp [left]
  | check i =>
      dsimp only
      split_ifs with past free
      · simp [left]
      · simp only [left]
        omega
      · simp only [left]
        omega
  | call i =>
      rw [pc] at here
      obtain ⟨func, eq⟩ := Option.ne_none_iff_exists'.mp here.2
      simp [eq, left]
  | inside i => simp [left]
  | clear i => simp [left]
  | load i => simp [left]
  | store i n => simp [left]

variable [DecidableEq V] {s s' : Timers V F P}

theorem setStep_runner (s : Timers V F P) : s.setStep.runner = s.runner := by
  unfold Timers.setStep
  cases s.setter with
  | search args i =>
      dsimp only
      split_ifs <;> rfl
  | _ => rfl

/-- Nothing else moves `runCallbacks` on, or back. -/
theorem step_runner {act : Act V F P} (taken : s.step act = some s') (run : act ≠ .run)
    (call : act ≠ .runCallbacks) : s'.runner = s.runner := by
  cases act with
  | setTimer v f p =>
      simp only [Timers.step] at taken
      split_ifs at taken
      cases taken
      rfl
  | resetTimer v =>
      simp only [Timers.step] at taken
      split_ifs at taken
      cases taken
      rfl
  | runCallbacks => exact absurd rfl call
  | set =>
      simp only [Timers.step] at taken
      split_ifs at taken
      cases taken
      exact setStep_runner s
  | run => exact absurd rfl run
  | expire v =>
      obtain ⟨i, -, rfl⟩ := Option.map_eq_some_iff.mp taken
      exact (post_posted _ _).runner

end Ends

/-! ### The timers -/

section Set

variable [DecidableEq F] [DecidableEq P] {s s' : Timers V F P} {l l' : Ledger V F P}

/-- Nothing is scheduled, called or cleared. -/
theorem Books.congr (books : Books s l) (scheduled : s'.scheduled_callbacks = s.scheduled_callbacks)
    (num : s'.num_scheduled_callbacks = s.num_scheduled_callbacks) (runner : s'.runner = s.runner)
    (due : l'.due = l.due) (called : l'.called = l.called) (owed : l'.owed = l.owed)
    (given : ∀ v i, s'.armed v = some i → ∃ x, l'.given v = some x ∧ Is x (s'.vtcallbacks i)) :
    Books s' l' := by
  have same : s'.pending = s.pending := by
    unfold pending
    rw [runner, scheduled]
  refine ⟨given, ?_, ?_, ?_, ?_⟩
  · rw [due, called, same]
    exact books.balance
  · rw [num, scheduled, runner]
    exact books.number
  · have here := books.here
    rw [runner]
    cases pc : s.runner <;> simp only [pc, At, scheduled, num] at here ⊢ <;> exact here
  · rw [runner, owed, called, same]
    exact books.owed

variable [DecidableEq V]

theorem Books.setStep (books : Books s l) (slotted : Slotted s) (kept : ledger s.log = some l) :
    ∃ l', ledger s.setStep.log = some l' ∧ Books s.setStep l' := by
  have setting := slotted.setting
  -- a slot that no timer has is written
  have write : ∀ i cb pc, (∀ v, s.armed v ≠ some i) →
      Books { s with vtcallbacks := Function.update s.vtcallbacks i cb, setter := pc } l := by
    intro i cb pc free
    refine books.congr rfl rfl rfl rfl rfl rfl ?_
    intro v j armed
    obtain ⟨x, eq, is⟩ := books.given v j armed
    refine ⟨x, eq, ?_⟩
    change Is x (Function.update s.vtcallbacks i cb j)
    rw [Function.update_of_ne]
    · exact is
    · rintro rfl
      exact free v armed
  unfold Timers.setStep
  cases pc : s.setter with
  | idle => exact ⟨l, kept, books⟩
  | search args i =>
      dsimp only
      split_ifs <;> exact ⟨l, kept, books.congr rfl rfl rfl rfl rfl rfl books.given⟩
  | func args i =>
      rw [pc] at setting
      refine ⟨l, kept, write i _ _ ?_⟩
      intro v armed
      exact (slotted.used v i armed).2 setting.2
  | param args i =>
      rw [pc] at setting
      exact ⟨l, kept, write i _ _ setting.2.2⟩
  | arm args i =>
      rw [pc] at setting
      refine ⟨{ l with given := Function.update l.given args.vtp (some (args.vtfunc, args.par)) },
        ?_, ?_⟩
      · change ledger (s.log ++ [_]) = _
        rw [ledger_concat, kept]
        rfl
      · refine books.congr rfl rfl rfl rfl rfl rfl ?_
        intro v j armed
        change Function.update s.armed args.vtp (some i) v = some j at armed
        change ∃ x, Function.update l.given args.vtp _ v = some x ∧ Is x (s.vtcallbacks j)
        by_cases same : v = args.vtp
        · rw [same, Function.update_self] at armed
          cases armed
          refine ⟨_, by rw [same, Function.update_self], ?_⟩
          rw [setting.2.1]
          exact ⟨rfl, rfl⟩
        · rw [Function.update_of_ne same] at armed
          rw [Function.update_of_ne same]
          exact books.given v j armed

/-- What the other timers are armed with. -/
theorem Books.given_of_disarmed (books : Books s l) {v w : V} {i : Nat}
    (armed : Function.update s.armed v none w = some i) :
    ∃ x, Function.update l.given v none w = some x ∧ Is x (s.vtcallbacks i) := by
  obtain ⟨differs, there⟩ := armed_of_disarmed armed
  rw [Function.update_of_ne differs]
  exact books.given w i there

theorem Books.reset (books : Books s l) (v : V) (kept : ledger s.log = some l) :
    ∃ l', ledger (s.resetTimer v).log = some l' ∧ Books (s.resetTimer v) l' := by
  refine ⟨{ l with given := Function.update l.given v none }, ?_, ?_⟩
  · change ledger (s.log ++ [_]) = _
    rw [ledger_concat, kept]
    rfl
  · exact books.congr rfl rfl rfl rfl rfl rfl fun w i armed => books.given_of_disarmed armed

end Set

/-! ### A timer expires -/

section Expire

theorem firstFree_some {table : Nat → VtCallback F P}
    (free : ∃ i, i < ARRAY_SIZE ∧ ¬ Used (table i)) :
    ∃ j, firstFree table = some j ∧ j < ARRAY_SIZE ∧ ¬ Used (table j) := by
  obtain ⟨i, lt, not_used⟩ := free
  have found : (firstFree table).isSome := by
    rw [firstFree, List.find?_isSome]
    refine ⟨i, List.mem_range.mpr lt, ?_⟩
    rw [not_not.mp not_used]
    rfl
  obtain ⟨j, eq⟩ := Option.isSome_iff_exists.mp found
  have none := List.find?_some eq
  refine ⟨j, eq, List.mem_range.mp (List.mem_of_find?_eq_some eq), ?_⟩
  rw [Used, not_not]
  exact Option.isNone_iff_eq_none.mp none

variable [DecidableEq F] [DecidableEq P] {s : Timers V F P} {l : Ledger V F P}

theorem ahead_le (pc : RunPc) : ahead pc ≤ 1 := by
  cases pc <;> simp [ahead]

/-- The entry `runCallbacks` is at is in use. -/
theorem Books.current_used (books : Books s l) {i : Nat} (at_i : current s.runner = some i) :
    Used (s.scheduled_callbacks i) := by
  have here := books.here
  cases pc : s.runner with
  | inside k =>
      rw [pc] at here at_i
      cases at_i
      exact here.2
  | clear k =>
      rw [pc] at here at_i
      cases at_i
      exact here.2
  | _ =>
      rw [pc] at at_i
      cases at_i

/-- A call is put in a free entry. -/
theorem Books.post (books : Books s l) {j : Nat} (lt : j < ARRAY_SIZE)
    (free : ¬ Used (s.scheduled_callbacks j)) (stored : ∀ i n, s.runner ≠ .store i n)
    {x₀ : F × Option P} {cb : VtCallback F P} (is : Is x₀ cb) :
    Books { s with
      scheduled_callbacks := Function.update s.scheduled_callbacks j cb
      num_scheduled_callbacks := s.num_scheduled_callbacks + 1 } { l with due :=
        l.due ++ [x₀] } := by
  have same : ∀ x, Is x cb ↔ x₀ = x := by
    intro x
    rw [Is, is.1, is.2, Prod.ext_iff]
    simp only [Option.some.injEq]
  have differs : ∀ i, current s.runner = some i → i ≠ j := by
    rintro i at_i rfl
    exact free (books.current_used at_i)
  have pending_eq : pending { s with
      scheduled_callbacks := Function.update s.scheduled_callbacks j cb
      num_scheduled_callbacks := s.num_scheduled_callbacks + 1 } =
        Function.update s.pending j cb := by
    unfold pending
    cases at_i : current s.runner with
    | none => rfl
    | some i =>
        change Function.update (Function.update s.scheduled_callbacks j cb) i _ = _
        exact Function.update_comm (differs i at_i).symm _ _ _
  have empty : ∀ x, ¬ Is x (s.pending j) := by
    intro x is
    cases at_i : current s.runner with
    | none =>
        rw [pending_of_none at_i] at is
        exact free is.used
    | some i =>
        rw [pending_of_some at_i, Function.update_of_ne (differs i at_i).symm] at is
        exact free is.used
  refine ⟨books.given, ?_, ?_, ?_, ?_⟩
  · intro x
    have balance := books.balance x
    have this := tally_update (p := Is x) (t := s.pending) (k := 0) ⟨Nat.zero_le j, lt⟩ cb
    rw [if_neg (empty x)] at this
    simp only [same] at this
    rw [pending_eq, List.count_append, List.count_singleton]
    simp only [beq_iff_eq]
    omega
  · have number := books.number
    have this := tally_update (p := Used) (t := s.scheduled_callbacks) (k := 0)
      ⟨Nat.zero_le j, lt⟩ cb
    rw [if_neg free, if_pos is.used] at this
    have size : tally Used s.scheduled_callbacks 0 ARRAY_SIZE ≤ 2 := tally_le _ _ _ _
    have most := ahead_le s.runner
    change (s.num_scheduled_callbacks + 1).toNat =
      tally Used (Function.update s.scheduled_callbacks j cb) 0 ARRAY_SIZE + ahead s.runner
    rw [UInt8.toNat_add, number]
    change (_ + 1) % 256 = _
    omega
  · have keep : ∀ i, i < ARRAY_SIZE ∧ Used (s.scheduled_callbacks i) →
        i < ARRAY_SIZE ∧ Used (Function.update s.scheduled_callbacks j cb i) := by
      rintro i ⟨lt, used⟩
      rw [Function.update_of_ne]
      · exact ⟨lt, used⟩
      · rintro rfl
        exact free used
    have here := books.here
    change At _ s.runner
    cases pc : s.runner with
    | call i =>
        rw [pc] at here
        exact keep i here
    | inside i =>
        rw [pc] at here
        exact keep i here
    | clear i =>
        rw [pc] at here
        exact keep i here
    | store i n => exact absurd pc (stored i n)
    | _ => trivial
  · intro active
    obtain ⟨owed, eq, le⟩ := books.owed active
    refine ⟨owed, eq, ?_⟩
    intro x
    rw [pending_eq]
    exact (le x).trans (Nat.add_le_add_left (tally_le_update (empty x) cb) _)

theorem Books.expire (books : Books s l) [DecidableEq V] {v : V} {i : Nat} (slotted : Slotted s)
    (armed : s.armed v = some i) (spaced : Spaced s (.expire v)) (kept : ledger s.log = some l) :
    ∃ l', ledger (s.expire v i).log = some l' ∧ Books (s.expire v i) l' := by
  obtain ⟨x, eq, is⟩ := books.given v i armed
  obtain ⟨j, found, lt, free⟩ := firstFree_some spaced.1
  refine ⟨{ l with given := Function.update l.given v none, due := l.due ++ [x] }, ?_, ?_⟩
  · have posted := post_posted
      { s with armed := Function.update s.armed v none, log := s.log ++ [.expired v] } i
    have log : (s.expire v i).log = s.log ++ [.expired v] := posted.log
    rw [log, ledger_concat, kept]
    simp only [Option.bind_some, Ledger.next, eq, Option.map_some]
  · have result : s.expire v i = { s with
        armed := Function.update s.armed v none
        vtcallbacks := Function.update s.vtcallbacks i { func := none, param := none }
        scheduled_callbacks := Function.update s.scheduled_callbacks j (s.vtcallbacks i)
        num_scheduled_callbacks := s.num_scheduled_callbacks + 1
        log := s.log ++ [.expired v] } := by
      simp only [Timers.expire, post_timer_callback_to_arduino_thread, found]
    rw [result]
    refine (books.post lt free spaced.2 is).congr rfl rfl rfl rfl rfl rfl ?_
    intro w k there
    obtain ⟨y, given, is_y⟩ := books.given_of_disarmed there
    refine ⟨y, given, ?_⟩
    change Is y (Function.update s.vtcallbacks i _ k)
    rw [Function.update_of_ne]
    · exact is_y
    · rintro rfl
      obtain ⟨differs, there⟩ := armed_of_disarmed there
      exact differs (slotted.own w v k there armed)

end Expire

/-! ### Runs -/

section Kept

variable [DecidableEq V] [DecidableEq F] [DecidableEq P] {s s' : Timers V F P}

theorem Start.kept (start : Start s) : Kept s := by
  refine ⟨start.slotted, Ledger.empty, by rw [start.log]; rfl, ?_⟩
  have unused : ∀ i, ¬ Used (s.scheduled_callbacks i) := fun i used => used (start.scheduled i)
  refine ⟨?_, ?_, ?_, ?_, fun active => absurd start.runner active⟩
  · intro v i armed
    rw [start.armed] at armed
    cases armed
  · intro x
    rw [pending_of_none (by rw [start.runner]; rfl), tally_eq_zero fun j _ _ is => unused j is.used]
    rfl
  · rw [start.num, start.runner, tally_eq_zero fun j _ _ => unused j]
    rfl
  · rw [start.runner]
    trivial

theorem Kept.step (kept : Kept s) {act : Act V F P} (spaced : Spaced s act)
    (taken : s.step act = some s') : Kept s' := by
  refine ⟨kept.slotted.step taken, ?_⟩
  obtain ⟨slotted, l, eq, books⟩ := kept
  cases act with
  | setTimer v f p =>
      simp only [Timers.step] at taken
      split_ifs at taken
      cases taken
      exact ⟨l, eq, books.congr rfl rfl rfl rfl rfl rfl books.given⟩
  | resetTimer v =>
      simp only [Timers.step] at taken
      split_ifs at taken
      cases taken
      exact books.reset v eq
  | runCallbacks =>
      simp only [Timers.step] at taken
      split_ifs at taken with idle
      cases taken
      have before : s.pending = s.scheduled_callbacks := pending_of_none (by rw [idle.2]; rfl)
      have number := books.number
      rw [idle.2] at number
      refine ⟨{ l with owed := some l.due }, ?_, books.given, ?_, number, trivial, ?_⟩
      · change ledger (s.log ++ [_]) = _
        rw [ledger_concat, eq]
        rfl
      · intro x
        have balance := books.balance x
        rw [before] at balance
        exact balance
      · intro _
        refine ⟨l.due, rfl, ?_⟩
        intro x
        have balance := books.balance x
        rw [before] at balance
        exact balance.ge
  | set =>
      simp only [Timers.step] at taken
      split_ifs at taken
      cases taken
      exact books.setStep slotted eq
  | run =>
      simp only [Timers.step] at taken
      split_ifs at taken
      cases taken
      exact books.runStep eq
  | expire v =>
      obtain ⟨i, armed, rfl⟩ := Option.map_eq_some_iff.mp taken
      exact books.expire slotted armed spaced eq

/-- The history is right: a call is made only when it is due, and at the end of a
`runCallbacks` all that was due at its begin has been called. Of the calls due, those not
made are scheduled; and outside `runCallbacks` the counter is the number of entries. -/
structure OnceEach (s : Timers V F P) : Prop where
  calls : ∃ l, ledger s.log = some l ∧
      ∀ x, l.called.count x + tally (Is x) s.pending 0 ARRAY_SIZE = l.due.count x
  number : s.runner = .idle →
      s.num_scheduled_callbacks.toNat = tally Used s.scheduled_callbacks 0 ARRAY_SIZE

theorem Reach.kept (reach : Reach Spaced s) : Kept s :=
  reach.induct (fun _ start => start.kept) fun _ _ _ kept spaced taken => kept.step spaced taken

/-- Every expired timer has its function called once. -/
theorem called_once (s : Timers V F P) (reach : Reach Spaced s) : OnceEach s := by
  obtain ⟨-, l, eq, books⟩ := reach.kept
  refine ⟨⟨l, eq, books.balance⟩, ?_⟩
  intro idle
  have number := books.number
  rw [idle] at number
  exact number

/-- `runCallbacks` ends: outside `setTimer` it can take a step, and every step leaves fewer. -/
theorem runCallbacks_ends (reach : Reach Spaced s) (returned : SetPc.isIdle s.setter = true) :
    ∃ s', Relation.ReflTransGen (fun s s' => s.step .run = some s') s s' ∧ s'.runner = .idle := by
  induction rest : left s.runner using Nat.strong_induction_on generalizing s with
  | _ rest' ih =>
      by_cases idle : s.runner = .idle
      · exact ⟨s, .refl, idle⟩
      · have kept : Kept s := reach.kept
        obtain ⟨l, -, books⟩ := kept.books
        have taken : s.step .run = some s.runStep := if_pos ⟨returned, idle⟩
        have setter : s.runStep.setter = s.setter := (runStep_slots s).2.2
        obtain ⟨s', run, last⟩ := ih _ (rest ▸ books.left_runStep idle)
          (reach.step .run trivial taken) (by rw [setter]; exact returned) rfl
        exact ⟨s', .head taken run, last⟩

end Kept

section Samples

variable {s : Timers Unit Unit Nat}

/-- A timer is set from a state with a free slot. -/
theorem sampleSet {ok : Timers Unit Unit Nat → Act Unit Unit Nat → Prop} (reach : Reach ok s)
    (idle : s.setter = .idle) (user : s.user = true) (free : (s.vtcallbacks 0).func = none)
    (set : ok s (.setTimer () () none)) (steps : ∀ s, ok s .set) :
    Reach ok { s with
      armed := Function.update s.armed () (some 0)
      vtcallbacks := Function.update s.vtcallbacks 0 { func := some (), param := none }
      log := s.log ++ [.armed () () none] } := by
  have called := reach.step (.setTimer () () none) set (if_pos user)
  have found := called.step .set (steps _) rfl
  rw [Timers.setStep] at found
  dsimp only at found
  rw [if_neg (by decide), if_pos free] at found
  have func := found.step .set (steps _) rfl
  have param := func.step .set (steps _) rfl
  have armed := param.step .set (steps _) rfl
  simpa only [Timers.setStep, Function.update_self, Function.update_idem, ← idle] using armed

/-- A timer expires and its function is called. -/
theorem sampleCalled_once : ∃ s : Timers Unit Unit Nat, OnceEach s ∧ .called () none ∈ s.log := by
  have start : Reach Spaced (sampleStart Unit) := ⟨_, sampleStart_start Unit, .refl⟩
  have armed := sampleSet start rfl rfl rfl trivial fun _ => trivial
  have expired := armed.step (.expire ()) ⟨⟨0, by decide, by decide⟩, by simp [sampleStart]⟩ rfl
  have begun := expired.step .runCallbacks trivial rfl
  have check := begun.step .run trivial rfl
  have call := check.step .run trivial rfl
  have called := call.step .run trivial rfl
  exact ⟨_, called_once _ called, by decide⟩

/-- The third of three timers that expire before `runCallbacks` is lost. -/
theorem third_expiry_lost : ¬ ∀ s : Timers Unit Unit Nat, Reachable s → OnceEach s := by
  intro once
  have start : Reachable (sampleStart Unit) := ⟨_, sampleStart_start Unit, .refl⟩
  have first := (sampleSet start rfl rfl rfl trivial fun _ => trivial).step (.expire ()) trivial rfl
  have second := (sampleSet first rfl rfl rfl trivial fun _ => trivial).step
    (.expire ()) trivial rfl
  have third := (sampleSet second rfl rfl rfl trivial fun _ => trivial).step
    (.expire ()) trivial rfl
  have size : ∀ t : Nat → VtCallback Unit Nat, tally (Is ((), none)) t 0 ARRAY_SIZE ≤ 2 :=
    fun t => tally_le _ t _ _
  obtain ⟨l, eq, balance⟩ := (once _ third).calls
  have due : l.due.count ((), none) = 3 := by
    cases eq
    rfl
  have called : l.called.count ((), none) = 0 := by
    cases eq
    rfl
  have calls := balance ((), none)
  rw [due, called, Nat.zero_add] at calls
  exact absurd (calls.symm.le.trans (size _)) (by decide)

end Samples

end Timers

end LtcOs.Arduino
