import LtcOs.Lib.Slots
import Mathlib.Data.Set.Card
import Mathlib.Logic.Relation

/-!
Timers for Arduino programs (`arduino-chibios.c`).

`setTimer` puts a function in a slot of `vtcallbacks` and arms a timer with it. The timer
interrupt moves the function to `scheduled_callbacks`, and `runCallbacks` calls it from the
thread. Neither table is locked: the interrupt comes between any two steps of the thread.
An armed timer may expire at any time, so delays are left out.
A function that `runCallbacks` calls may call `setTimer` and `resetTimer`, but is taken not to
call `runCallbacks`: its entry is cleared only after it has returned, so it would call itself.
-/

namespace LtcOs.Arduino

open LtcOs.Slots

variable {V F P : Type}

/-! ### The code -/

/-- `struct vt_callback`; `none` is `NULL`. -/
structure VtCallback (F P : Type) where
  func : Option F
  param : Option P
deriving DecidableEq, Repr

/-- The size of both tables. -/
def ARRAY_SIZE : Nat := 2

/-- The arguments of `setTimer`, and the timers armed when it was called. -/
structure SetArgs (V F P : Type) where
  vtp : V
  vtfunc : F
  par : Option P
  was : V → Option Nat

/-- Where the thread is in `setTimer`: in the search for a slot, before one of the two stores,
or before `chVTSet`. -/
inductive SetPc (V F P : Type) where
  | idle
  | search (args : SetArgs V F P) (i : Nat)
  | func (args : SetArgs V F P) (i : Nat)
  | param (args : SetArgs V F P) (i : Nat)
  | arm (args : SetArgs V F P) (i : Nat)

/-- Where the thread is in `runCallbacks`. The counter is decremented by a load and a store. -/
inductive RunPc where
  | idle
  | test
  | check (i : Nat)
  | call (i : Nat)
  | inside (i : Nat)
  | clear (i : Nat)
  | load (i : Nat)
  | store (i : Nat) (n : UInt8)
deriving DecidableEq, Repr

/-- A timer is armed, reset or expires; a function is called; `runCallbacks` begins and ends. -/
inductive TimerEvent (V F P : Type) where
  | armed (vtp : V) (func : F) (param : Option P)
  | reset (vtp : V)
  | expired (vtp : V)
  | called (func : F) (param : Option P)
  | begun
  | ended
deriving DecidableEq, Repr

/-- An armed timer has the slot of its function as parameter. -/
structure Timers (V F P : Type) where
  armed : V → Option Nat
  vtcallbacks : Nat → VtCallback F P
  scheduled_callbacks : Nat → VtCallback F P
  num_scheduled_callbacks : UInt8
  setter : SetPc V F P
  runner : RunPc
  log : List (TimerEvent V F P)

namespace Timers

section Code

variable [DecidableEq V]

/-- The first entry without a function. -/
def firstFree (table : Nat → VtCallback F P) : Option Nat :=
  (List.range ARRAY_SIZE).find? fun i => (table i).func.isNone

def post_timer_callback_to_arduino_thread (s : Timers V F P) (slot : Nat) : Timers V F P :=
  let vtcallback := s.vtcallbacks slot
  let s := { s with vtcallbacks := Function.update s.vtcallbacks slot { func := none, param := none } }
  match firstFree s.scheduled_callbacks with
  | some i => { s with
      scheduled_callbacks := Function.update s.scheduled_callbacks i vtcallback
      num_scheduled_callbacks := s.num_scheduled_callbacks + 1 }
  | none => s

/-- One step of `runCallbacks`; the function called returns in a step of its own. -/
def runStep (s : Timers V F P) : Timers V F P :=
  match s.runner with
  | .idle => s
  | .test =>
      if s.num_scheduled_callbacks = 0 then { s with runner := .idle, log := s.log ++ [.ended] }
      else { s with runner := .check 0 }
  | .check i =>
      if ARRAY_SIZE ≤ i then { s with runner := .idle, log := s.log ++ [.ended] }
      else if (s.scheduled_callbacks i).func = none then { s with runner := .check (i + 1) }
      else { s with runner := .call i }
  | .call i =>
      match (s.scheduled_callbacks i).func with
      | some func => { s with
          runner := .inside i, log := s.log ++ [.called func (s.scheduled_callbacks i).param] }
      | none => s
  | .inside i => { s with runner := .clear i }
  | .clear i => { s with
      scheduled_callbacks := Function.update s.scheduled_callbacks i
        { s.scheduled_callbacks i with func := none }
      runner := .load i }
  | .load i => { s with runner := .store i s.num_scheduled_callbacks }
  | .store i n => { s with num_scheduled_callbacks := n - 1, runner := .check (i + 1) }

/-- One step of `setTimer`. -/
def setStep (s : Timers V F P) : Timers V F P :=
  match s.setter with
  | .idle => s
  | .search args i =>
      -- without a free slot the call returns -1
      if ARRAY_SIZE ≤ i then { s with setter := .idle }
      else if (s.vtcallbacks i).func = none then { s with setter := .func args i }
      else { s with setter := .search args (i + 1) }
  | .func args i => { s with
      vtcallbacks := Function.update s.vtcallbacks i
        { s.vtcallbacks i with func := some args.vtfunc }
      setter := .param args i }
  | .param args i => { s with
      vtcallbacks := Function.update s.vtcallbacks i { s.vtcallbacks i with param := args.par }
      setter := .arm args i }
  | .arm args i => { s with
      armed := Function.update s.armed args.vtp (some i)
      setter := .idle
      log := s.log ++ [.armed args.vtp args.vtfunc args.par] }

/-- `chVTReset`. -/
def resetTimer (s : Timers V F P) (vtp : V) : Timers V F P :=
  { s with armed := Function.update s.armed vtp none, log := s.log ++ [.reset vtp] }

/-- The timer interrupt takes an armed timer off the list and calls its function. -/
def expire (s : Timers V F P) (vtp : V) (slot : Nat) : Timers V F P :=
  post_timer_callback_to_arduino_thread
    { s with armed := Function.update s.armed vtp none, log := s.log ++ [.expired vtp] } slot

/-! ### Runs -/

inductive Act (V F P : Type) where
  | setTimer (vtp : V) (vtfunc : F) (par : Option P)
  | resetTimer (vtp : V)
  | runCallbacks
  | set
  | run
  | expire (vtp : V)
deriving DecidableEq, Repr

def SetPc.isIdle : SetPc V F P → Bool
  | .idle => true
  | _ => false

/-- The program of the user runs: the thread is in no call, or in a function called by
`runCallbacks`. -/
def user (s : Timers V F P) : Bool :=
  SetPc.isIdle s.setter && match s.runner with
    | .idle => true
    | .inside _ => true
    | _ => false

/-- A call of the thread, one step of a call, or the timer interrupt. -/
def step (s : Timers V F P) : Act V F P → Option (Timers V F P)
  | .setTimer vtp vtfunc par =>
      if s.user then
        some { s with setter := .search { vtp := vtp, vtfunc := vtfunc, par := par, was := s.armed } 0 }
      else none
  | .resetTimer vtp => if s.user then some (s.resetTimer vtp) else none
  | .runCallbacks =>
      if s.user ∧ s.runner = .idle then some { s with runner := .test, log := s.log ++ [.begun] } else none
  | .set => if SetPc.isIdle s.setter then none else some s.setStep
  | .run => if SetPc.isIdle s.setter ∧ s.runner ≠ .idle then some s.runStep else none
  | .expire vtp => (s.armed vtp).map (s.expire vtp)

end Code

/-- No timer is armed, and nothing is scheduled. -/
structure Start (s : Timers V F P) : Prop where
  armed : ∀ v, s.armed v = none
  vtcallbacks : ∀ i, (s.vtcallbacks i).func = none
  scheduled : ∀ i, (s.scheduled_callbacks i).func = none
  num : s.num_scheduled_callbacks = 0
  setter : s.setter = .idle
  runner : s.runner = .idle
  log : s.log = []

section Reach

variable [DecidableEq V]

/-- States reached by steps that meet a condition. -/
def Reach (ok : Timers V F P → Act V F P → Prop) (s : Timers V F P) : Prop :=
  ∃ s₀, Start s₀ ∧ Relation.ReflTransGen (fun s s' => ∃ act, ok s act ∧ step s act = some s') s₀ s

def Reachable : Timers V F P → Prop := Reach fun _ _ => True

/-- An invariant of the steps that meet a condition. -/
theorem Reach.induct {ok : Timers V F P → Act V F P → Prop} {inv : Timers V F P → Prop}
    {s : Timers V F P} (reach : Reach ok s) (start : ∀ s, Start s → inv s)
    (next : ∀ s act s', inv s → ok s act → step s act = some s' → inv s') : inv s := by
  obtain ⟨s₀, first, run⟩ := reach
  induction run with
  | refl => exact start s₀ first
  | tail _ taken ih =>
      obtain ⟨act, allowed, taken⟩ := taken
      exact next _ act _ ih allowed taken

theorem Reach.step {ok : Timers V F P → Act V F P → Prop} {s s' : Timers V F P} (reach : Reach ok s)
    (act : Act V F P) (allowed : ok s act) (taken : s.step act = some s') : Reach ok s' := by
  obtain ⟨s₀, start, run⟩ := reach
  exact ⟨s₀, start, run.tail ⟨act, allowed, taken⟩⟩

end Reach

/-! ### Slots -/

/-- An entry in use. -/
def Used (cb : VtCallback F P) : Prop := cb.func ≠ none

instance (cb : VtCallback F P) : Decidable (Used cb) := inferInstanceAs (Decidable (_ ≠ _))

/-- The slot `setTimer` has found is free until the timer is armed. -/
def Setting (s : Timers V F P) : SetPc V F P → Prop
  | .idle => True
  | .search _ _ => True
  | .func _ i => i < ARRAY_SIZE ∧ (s.vtcallbacks i).func = none
  | .param args i =>
      i < ARRAY_SIZE ∧ (s.vtcallbacks i).func = some args.vtfunc ∧ ∀ v, s.armed v ≠ some i
  | .arm args i =>
      i < ARRAY_SIZE ∧ s.vtcallbacks i = { func := some args.vtfunc, param := args.par } ∧
      ∀ v, s.armed v ≠ some i

/-- Every armed timer has a slot of its own. -/
structure Slotted (s : Timers V F P) : Prop where
  used : ∀ v i, s.armed v = some i → i < ARRAY_SIZE ∧ Used (s.vtcallbacks i)
  own : ∀ v w i, s.armed v = some i → s.armed w = some i → v = w
  setting : Setting s s.setter

section Slots

variable {s s' : Timers V F P}

theorem Start.slotted (start : Start s) : Slotted s := by
  constructor
  · intro v i armed
    rw [start.armed] at armed
    cases armed
  · intro v w i armed
    rw [start.armed] at armed
    cases armed
  · rw [start.setter]
    trivial

/-- What `Slotted` looks at. -/
theorem Slotted.congr (slotted : Slotted s) (armed : s'.armed = s.armed)
    (table : s'.vtcallbacks = s.vtcallbacks) (setting : Setting s s'.setter) : Slotted s' := by
  refine ⟨?_, ?_, ?_⟩
  · rw [armed, table]
    exact slotted.used
  · rw [armed]
    exact slotted.own
  · generalize s'.setter = pc at setting
    cases pc with
    | idle => trivial
    | search args i => trivial
    | func args i =>
        rw [Setting, table]
        exact setting
    | param args i =>
        rw [Setting, armed, table]
        exact setting
    | arm args i =>
        rw [Setting, armed, table]
        exact setting

/-- A slot without a timer is written, and those of the timers stay in use. -/
theorem Slotted.used_update (slotted : Slotted s) {i : Nat} (unarmed : ∀ v, s.armed v ≠ some i)
    (callback : VtCallback F P) (v : V) (j : Nat) (armed : s.armed v = some j) :
    j < ARRAY_SIZE ∧ Used (Function.update s.vtcallbacks i callback j) := by
  obtain ⟨lt, used⟩ := slotted.used v j armed
  refine ⟨lt, ?_⟩
  rw [Function.update_of_ne]
  · exact used
  · rintro rfl
    exact unarmed v armed

/-- A slot that no timer has is emptied. -/
theorem Slotted.release (slotted : Slotted s) {i : Nat} (free : ∀ v, s.armed v ≠ some i)
    (other : ∀ args, s.setter ≠ .param args i ∧ s.setter ≠ .arm args i) :
    Slotted { s with vtcallbacks := Function.update s.vtcallbacks i { func := none, param := none } } := by
  refine ⟨slotted.used_update free _, slotted.own, ?_⟩
  have setting := slotted.setting
  change Setting _ s.setter
  cases pc : s.setter with
  | idle => trivial
  | search args j => trivial
  | func args j =>
      rw [pc] at setting
      refine ⟨setting.1, ?_⟩
      change (Function.update s.vtcallbacks i { func := none, param := none } j).func = none
      by_cases same : j = i
      · rw [same, Function.update_self]
      · rw [Function.update_of_ne same]
        exact setting.2
  | param args j =>
      rw [pc] at setting
      have differs : j ≠ i := by
        rintro rfl
        exact (other args).1 pc
      refine ⟨setting.1, ?_, setting.2.2⟩
      change (Function.update s.vtcallbacks i { func := none, param := none } j).func = _
      rw [Function.update_of_ne differs]
      exact setting.2.1
  | arm args j =>
      rw [pc] at setting
      have differs : j ≠ i := by
        rintro rfl
        exact (other args).2 pc
      refine ⟨setting.1, ?_, setting.2.2⟩
      change Function.update s.vtcallbacks i { func := none, param := none } j = _
      rw [Function.update_of_ne differs]
      exact setting.2.1

/-- The interrupt empties the slot; of the rest it changes what is scheduled. -/
structure Posted (slot : Nat) (s s' : Timers V F P) : Prop where
  armed : s'.armed = s.armed
  vtcallbacks : s'.vtcallbacks = Function.update s.vtcallbacks slot { func := none, param := none }
  setter : s'.setter = s.setter
  runner : s'.runner = s.runner
  log : s'.log = s.log

theorem post_posted (s : Timers V F P) (slot : Nat) :
    Posted slot s (s.post_timer_callback_to_arduino_thread slot) := by
  unfold post_timer_callback_to_arduino_thread
  dsimp only
  split <;> exact ⟨rfl, rfl, rfl, rfl, rfl⟩

variable [DecidableEq V]

theorem armed_of_disarmed {v w : V} {i : Nat} (armed : Function.update s.armed v none w = some i) :
    w ≠ v ∧ s.armed w = some i := by
  by_cases same : w = v
  · rw [same, Function.update_self] at armed
    cases armed
  · rw [Function.update_of_ne same] at armed
    exact ⟨same, armed⟩

/-- A timer leaves the list. -/
theorem Slotted.disarm (slotted : Slotted s) (v : V) (log : List (TimerEvent V F P)) :
    Slotted { s with armed := Function.update s.armed v none, log := log } := by
  refine ⟨?_, ?_, ?_⟩
  · intro w i armed
    exact slotted.used w i (armed_of_disarmed armed).2
  · intro w w' i armed armed'
    exact slotted.own w w' i (armed_of_disarmed armed).2 (armed_of_disarmed armed').2
  · have setting := slotted.setting
    change Setting _ s.setter
    cases pc : s.setter with
    | idle => trivial
    | search args i => trivial
    | func args i =>
        rw [pc] at setting
        exact setting
    | param args i =>
        rw [pc] at setting
        exact ⟨setting.1, setting.2.1, fun w armed => setting.2.2 w (armed_of_disarmed armed).2⟩
    | arm args i =>
        rw [pc] at setting
        exact ⟨setting.1, setting.2.1, fun w armed => setting.2.2 w (armed_of_disarmed armed).2⟩

omit [DecidableEq V] in
theorem Slotted.not_setting (slotted : Slotted s) {v : V} {i : Nat} (armed : s.armed v = some i)
    (args : SetArgs V F P) : s.setter ≠ .param args i ∧ s.setter ≠ .arm args i := by
  have setting := slotted.setting
  constructor
  · intro pc
    rw [pc] at setting
    exact setting.2.2 v armed
  · intro pc
    rw [pc] at setting
    exact setting.2.2 v armed

theorem Slotted.expire (slotted : Slotted s) {v : V} {i : Nat} (armed : s.armed v = some i) :
    Slotted (s.expire v i) := by
  have disarmed := slotted.disarm v (s.log ++ [.expired v])
  have released := disarmed.release (i := i)
    (fun w still =>
      (armed_of_disarmed still).1 (slotted.own w v i (armed_of_disarmed still).2 armed))
    (slotted.not_setting armed)
  have posted := post_posted
    { s with armed := Function.update s.armed v none, log := s.log ++ [.expired v] } i
  apply released.congr posted.armed posted.vtcallbacks
  change Setting _ (Timers.setter (Timers.expire s v i))
  rw [show Timers.setter (Timers.expire s v i) = s.setter from posted.setter]
  exact released.setting

theorem Slotted.setStep (slotted : Slotted s) : Slotted s.setStep := by
  have setting := slotted.setting
  unfold Timers.setStep
  cases pc : s.setter with
  | idle => exact slotted
  | search args i =>
      dsimp only
      split_ifs with past free
      · exact slotted.congr rfl rfl trivial
      · exact slotted.congr rfl rfl ⟨Nat.lt_of_not_le past, free⟩
      · exact slotted.congr rfl rfl trivial
  | func args i =>
      rw [pc] at setting
      have unarmed : ∀ v, s.armed v ≠ some i := fun v armed => (slotted.used v i armed).2 setting.2
      refine ⟨slotted.used_update unarmed _, slotted.own, setting.1, ?_, unarmed⟩
      · change (Function.update s.vtcallbacks i _ i).func = _
        rw [Function.update_self]
  | param args i =>
      rw [pc] at setting
      refine ⟨slotted.used_update setting.2.2 _, slotted.own, setting.1, ?_, setting.2.2⟩
      · change Function.update s.vtcallbacks i _ i = _
        rw [Function.update_self, setting.2.1]
  | arm args i =>
      rw [pc] at setting
      have only : ∀ v j, Function.update s.armed args.vtp (some i) v = some j →
          (v = args.vtp ∧ j = i) ∨ (v ≠ args.vtp ∧ s.armed v = some j) := by
        intro v j armed
        by_cases same : v = args.vtp
        · rw [same, Function.update_self] at armed
          exact .inl ⟨same, (Option.some.inj armed).symm⟩
        · rw [Function.update_of_ne same] at armed
          exact .inr ⟨same, armed⟩
      refine ⟨?_, ?_, trivial⟩
      · intro v j armed
        rcases only v j armed with ⟨-, rfl⟩ | ⟨-, armed⟩
        · refine ⟨setting.1, ?_⟩
          change Used (s.vtcallbacks j)
          rw [setting.2.1]
          simp [Used]
        · exact slotted.used v j armed
      · intro v w j armed armed'
        rcases only v j armed with ⟨v_eq, j_eq⟩ | ⟨-, there⟩
        · rcases only w j armed' with ⟨w_eq, -⟩ | ⟨-, there'⟩
          · rw [v_eq, w_eq]
          · exact absurd (j_eq ▸ there') (setting.2.2 w)
        · rcases only w j armed' with ⟨-, j_eq⟩ | ⟨-, there'⟩
          · exact absurd (j_eq ▸ there) (setting.2.2 v)
          · exact slotted.own v w j there there'

omit [DecidableEq V] in
/-- `runCallbacks` does not look at the slots. -/
theorem runStep_slots (s : Timers V F P) :
    s.runStep.armed = s.armed ∧ s.runStep.vtcallbacks = s.vtcallbacks ∧
      s.runStep.setter = s.setter := by
  unfold runStep
  split
  all_goals first
    | exact ⟨rfl, rfl, rfl⟩
    | (split_ifs <;> exact ⟨rfl, rfl, rfl⟩)
    | (split <;> exact ⟨rfl, rfl, rfl⟩)

theorem Slotted.step (slotted : Slotted s) {act : Act V F P} (taken : s.step act = some s') :
    Slotted s' := by
  cases act with
  | setTimer v f p =>
      simp only [Timers.step] at taken
      split_ifs at taken
      cases taken
      exact slotted.congr rfl rfl trivial
  | resetTimer v =>
      simp only [Timers.step] at taken
      split_ifs at taken
      cases taken
      exact slotted.disarm v _
  | runCallbacks =>
      simp only [Timers.step] at taken
      split_ifs at taken
      cases taken
      exact slotted.congr rfl rfl slotted.setting
  | set =>
      simp only [Timers.step] at taken
      split_ifs at taken
      cases taken
      exact slotted.setStep
  | run =>
      simp only [Timers.step] at taken
      split_ifs at taken
      cases taken
      obtain ⟨armed, table, setter⟩ := runStep_slots s
      apply slotted.congr armed table
      rw [setter]
      exact slotted.setting
  | expire v =>
      obtain ⟨i, armed, rfl⟩ := Option.map_eq_some_iff.mp taken
      exact slotted.expire armed

end Slots

/-! ### Slot accounting -/

/-- The slot the call of `setTimer` has filled. -/
def taken : SetPc V F P → Option Nat
  | .param _ i => some i
  | .arm _ i => some i
  | _ => none

def argsOf : SetPc V F P → Option (SetArgs V F P)
  | .idle => none
  | .search args _ => some args
  | .func args _ => some args
  | .param args _ => some args
  | .arm args _ => some args

/-- No slot is lost, and the timers armed now were armed when `setTimer` was called, on
another timer. The slots it has passed were in use then. -/
structure Tight (s : Timers V F P) : Prop where
  slotted : Slotted s
  full : ∀ i, i < ARRAY_SIZE → Used (s.vtcallbacks i) →
      (∃ v, s.armed v = some i) ∨ taken s.setter = some i
  before : ∀ args, argsOf s.setter = some args →
      args.was args.vtp = none ∧ ∀ v i, s.armed v = some i → args.was v = some i
  passed : ∀ args i, s.setter = .search args i →
      ∀ j, j < i → j < ARRAY_SIZE → ∃ v, args.was v = some j

section Accounting

variable {s s' : Timers V F P}

/-- The condition under which no slot is lost: a timer is set or reset only if it is not
armed. -/
def Fresh (s : Timers V F P) : Act V F P → Prop
  | .setTimer vtp _ _ => s.armed vtp = none
  | .resetTimer vtp => s.armed vtp = none
  | _ => True

theorem Start.tight (start : Start s) : Tight s := by
  refine ⟨start.slotted, ?_, ?_, ?_⟩
  · intro i _ used
    exact absurd (start.vtcallbacks i) used
  · intro args active
    rw [start.setter] at active
    cases active
  · intro args i active
    rw [start.setter] at active
    cases active

variable [DecidableEq V]

theorem Tight.expire (tight : Tight s) {v : V} {i : Nat} (armed : s.armed v = some i) :
    Tight (s.expire v i) := by
  have posted := post_posted
    { s with armed := Function.update s.armed v none, log := s.log ++ [.expired v] } i
  have table : (s.expire v i).vtcallbacks =
      Function.update s.vtcallbacks i { func := none, param := none } :=
    posted.vtcallbacks
  have list : (s.expire v i).armed = Function.update s.armed v none := posted.armed
  have setter : (s.expire v i).setter = s.setter := posted.setter
  refine ⟨tight.slotted.expire armed, ?_, ?_, ?_⟩
  · rw [table, list, setter]
    intro j lt used
    have differs : j ≠ i := by
      rintro rfl
      rw [Function.update_self] at used
      exact used rfl
    rw [Function.update_of_ne differs] at used
    rcases tight.full j lt used with ⟨w, there⟩ | there
    · left
      refine ⟨w, ?_⟩
      rw [Function.update_of_ne]
      · exact there
      · rintro rfl
        exact differs (Option.some.inj (there.symm.trans armed))
    · exact .inr there
  · rw [list, setter]
    intro args active
    obtain ⟨fresh, was⟩ := tight.before args active
    exact ⟨fresh, fun w j armed => was w j (armed_of_disarmed armed).2⟩
  · rw [setter]
    exact tight.passed

theorem Tight.setStep (tight : Tight s) : Tight s.setStep := by
  have slotted := tight.slotted.setStep
  have setting := tight.slotted.setting
  have full := tight.full
  have before := tight.before
  unfold Timers.setStep at slotted ⊢
  cases pc : s.setter with
  | idle => exact tight
  | search args i =>
      rw [pc] at slotted before full
      dsimp only at slotted ⊢
      split_ifs at slotted ⊢ with past free
      · exact ⟨slotted, full, by simp [argsOf], by simp⟩
      · exact ⟨slotted, full, before, by simp⟩
      · refine ⟨slotted, full, before, ?_⟩
        rintro _ _ ⟨⟩ j lt inside
        by_cases last : j = i
        · subst last
          rcases full j inside free with ⟨v, armed⟩ | ⟨⟨⟩⟩
          exact ⟨v, (before args rfl).2 v j armed⟩
        · exact tight.passed args i pc j (by omega) inside
  | func args i =>
      rw [pc] at slotted before full setting
      refine ⟨slotted, ?_, before, by simp⟩
      intro j lt used
      change Used (Function.update s.vtcallbacks i _ j) at used
      by_cases same : j = i
      · exact .inr (congrArg some same.symm)
      · rw [Function.update_of_ne same] at used
        rcases full j lt used with there | ⟨⟨⟩⟩
        exact .inl there
  | param args i =>
      rw [pc] at slotted before full setting
      refine ⟨slotted, ?_, before, by simp⟩
      intro j lt used
      change Used (Function.update s.vtcallbacks i _ j) at used
      by_cases same : j = i
      · exact .inr (congrArg some same.symm)
      · rw [Function.update_of_ne same] at used
        exact full j lt used
  | arm args i =>
      rw [pc] at slotted before full setting
      refine ⟨slotted, ?_, by simp [argsOf], by simp⟩
      intro j lt used
      left
      rcases full j lt used with ⟨v, there⟩ | there
      · refine ⟨v, ?_⟩
        change Function.update s.armed args.vtp (some i) v = some j
        rw [Function.update_of_ne]
        · exact there
        · rintro rfl
          -- the timer was not armed when `setTimer` was called
          obtain ⟨fresh, was⟩ := before args rfl
          rw [was _ j there] at fresh
          cases fresh
      · refine ⟨args.vtp, ?_⟩
        change Function.update s.armed args.vtp (some i) args.vtp = some j
        rw [Function.update_self]
        exact there

omit [DecidableEq V] in
theorem setter_of_user (user : s.user = true) : s.setter = .idle := by
  cases pc : s.setter with
  | idle => rfl
  | _ => simp [Timers.user, pc, SetPc.isIdle] at user

theorem Tight.step (tight : Tight s) {act : Act V F P} (fresh : Fresh s act)
    (taken : s.step act = some s') :
    Tight s' := by
  have slotted := tight.slotted.step taken
  cases act with
  | setTimer v f p =>
      simp only [Timers.step] at taken
      split_ifs at taken with user
      cases taken
      have idle : Timers.taken s.setter = none := by
        rw [setter_of_user user]
        rfl
      refine ⟨slotted, ?_, ?_, ?_⟩
      · intro i lt used
        rcases tight.full i lt used with there | there
        · exact .inl there
        · rw [idle] at there
          cases there
      · rintro _ ⟨⟩
        exact ⟨fresh, fun _ _ armed => armed⟩
      · rintro _ _ ⟨⟩ j lt
        omega
  | resetTimer v =>
      simp only [Timers.step] at taken
      split_ifs at taken
      cases taken
      have same : Function.update s.armed v none = s.armed := by
        rw [← (show s.armed v = none from fresh), Function.update_eq_self]
      refine ⟨slotted, ?_, ?_, tight.passed⟩
      · intro i lt used
        change (∃ w, Function.update s.armed v none w = some i) ∨ _
        rw [same]
        exact tight.full i lt used
      · intro args active
        change args.was args.vtp = none ∧ ∀ w i, Function.update s.armed v none w = some i →
          args.was w = some i
        rw [same]
        exact tight.before args active
  | runCallbacks =>
      simp only [Timers.step] at taken
      split_ifs at taken
      cases taken
      exact ⟨slotted, tight.full, tight.before, tight.passed⟩
  | set =>
      simp only [Timers.step] at taken
      split_ifs at taken
      cases taken
      exact tight.setStep
  | run =>
      simp only [Timers.step] at taken
      split_ifs at taken
      cases taken
      obtain ⟨armed, table, setter⟩ := runStep_slots s
      refine ⟨slotted, ?_, ?_, ?_⟩
      · rw [armed, table, setter]
        exact tight.full
      · rw [armed, setter]
        exact tight.before
      · rw [setter]
        exact tight.passed
  | expire v =>
      obtain ⟨i, armed, rfl⟩ := Option.map_eq_some_iff.mp taken
      exact tight.expire armed

/-- The slots in use are those of the armed timers, each with one of its own; and `setTimer`
returns -1 only if two other timers were armed when it was called. -/
structure SlotAccounting (s : Timers V F P) : Prop where
  count : s.setter = .idle → {v | s.armed v ≠ none}.encard = tally Used s.vtcallbacks 0 ARRAY_SIZE
  own : ∀ v w i, s.armed v = some i → s.armed w = some i → v = w
  refused : ∀ args, s.setter = .search args ARRAY_SIZE →
    ∃ v w, v ≠ w ∧ v ≠ args.vtp ∧ w ≠ args.vtp ∧ args.was v ≠ none ∧ args.was w ≠ none

omit [DecidableEq V] in
theorem Tight.count (tight : Tight s) (idle : s.setter = .idle) :
    {v | s.armed v ≠ none}.encard = tally Used s.vtcallbacks 0 ARRAY_SIZE := by
  let slot : V → Nat := fun v => (s.armed v).getD 0
  have inj : Set.InjOn slot {v | s.armed v ≠ none} := by
    intro v armed w armed' same
    obtain ⟨i, there⟩ := Option.ne_none_iff_exists'.mp armed
    obtain ⟨j, there'⟩ := Option.ne_none_iff_exists'.mp armed'
    simp only [slot, there, there', Option.getD_some] at same
    exact tight.slotted.own v w i there (same ▸ there')
  have image : slot '' {v | s.armed v ≠ none} =
      ↑((Finset.Ico 0 ARRAY_SIZE).filter fun i => Used (s.vtcallbacks i)) := by
    ext i
    simp only [Set.mem_image, Finset.coe_filter, Finset.mem_Ico]
    constructor
    · rintro ⟨v, armed, rfl⟩
      obtain ⟨j, there⟩ := Option.ne_none_iff_exists'.mp armed
      obtain ⟨lt, used⟩ := tight.slotted.used v j there
      simp only [slot, there, Option.getD_some]
      exact ⟨⟨Nat.zero_le j, lt⟩, used⟩
    · rintro ⟨⟨-, lt⟩, used⟩
      rcases tight.full i lt used with ⟨v, there⟩ | there
      · refine ⟨v, by simp [there], ?_⟩
        simp [slot, there]
      · rw [idle] at there
        cases there
  rw [← inj.encard_image, image, Set.encard_coe_eq_coe_finsetCard]
  rfl

omit [DecidableEq V] in
theorem Tight.refused (tight : Tight s) {args : SetArgs V F P}
    (last : s.setter = .search args ARRAY_SIZE) :
    ∃ v w, v ≠ w ∧ v ≠ args.vtp ∧ w ≠ args.vtp ∧ args.was v ≠ none ∧ args.was w ≠ none := by
  have fresh := (tight.before args (by rw [last]; rfl)).1
  obtain ⟨v, first⟩ := tight.passed args _ last 0 (by decide) (by decide)
  obtain ⟨w, second⟩ := tight.passed args _ last 1 (by decide) (by decide)
  refine ⟨v, w, ?_, ?_, ?_, by simp [first], by simp [second]⟩
  · rintro rfl
    rw [first] at second
    cases second
  · rintro rfl
    rw [first] at fresh
    cases fresh
  · rintro rfl
    rw [second] at fresh
    cases fresh

/-- Slot accounting. It holds as long as no timer is set or reset while it is armed. -/
theorem slot_accounting (s : Timers V F P) (reach : Reach Fresh s) : SlotAccounting s := by
  have tight : Tight s :=
    reach.induct (fun _ start => start.tight) fun _ _ _ tight fresh taken => tight.step fresh taken
  exact ⟨tight.count, tight.slotted.own, fun _ last => tight.refused last⟩

end Accounting

/-- Nothing is armed and nothing scheduled. -/
def sampleStart (V : Type) : Timers V Unit Nat where
  armed := fun _ => none
  vtcallbacks := fun _ => { func := none, param := none }
  scheduled_callbacks := fun _ => { func := none, param := none }
  num_scheduled_callbacks := 0
  setter := .idle
  runner := .idle
  log := []

theorem sampleStart_start (V : Type) : Start (sampleStart V) :=
  ⟨fun _ => rfl, fun _ => rfl, fun _ => rfl, rfl, rfl, rfl, rfl⟩

/-- One timer is armed. -/
theorem sampleArmed_reach (ok : Timers Unit Unit Nat → Act Unit Unit Nat → Prop)
    (set : ok (sampleStart Unit) (.setTimer () () none)) (steps : ∀ s, ok s .set) :
    ∃ s : Timers Unit Unit Nat,
      Reach ok s ∧ s.user = true ∧ s.armed () = some 0 ∧ Used (s.vtcallbacks 0) := by
  have start : Reach ok (sampleStart Unit) := ⟨_, sampleStart_start Unit, .refl⟩
  have called := start.step (.setTimer () () none) set rfl
  have found := called.step .set (steps _) rfl
  have func := found.step .set (steps _) rfl
  have param := func.step .set (steps _) rfl
  have armed := param.step .set (steps _) rfl
  exact ⟨_, armed, rfl, rfl, Option.some_ne_none ()⟩

theorem sampleArmed_accounting :
    ∃ s : Timers Unit Unit Nat, SlotAccounting s ∧ s.armed () = some 0 := by
  obtain ⟨s, reach, -, armed, -⟩ := sampleArmed_reach Fresh rfl fun _ => trivial
  exact ⟨s, slot_accounting s reach, armed⟩

/-- A timer that is reset keeps its slot. -/
theorem reset_loses_slot : ¬ ∀ s : Timers Unit Unit Nat, Reachable s → SlotAccounting s := by
  intro accounting
  obtain ⟨s, reach, user, -, used⟩ := sampleArmed_reach (fun _ _ => True) trivial fun _ => trivial
  have reset : Reachable (s.resetTimer ()) := reach.step (.resetTimer ()) trivial (if_pos user)
  have count := (accounting _ reset).count (setter_of_user user)
  have unarmed : {v | (s.resetTimer ()).armed v ≠ none} = ∅ := by
    ext v
    simp [resetTimer]
  have slots : tally Used (s.resetTimer ()).vtcallbacks 0 ARRAY_SIZE ≠ 0 := by
    intro zero
    exact of_tally_eq_zero zero (le_refl 0) (by decide) used
  rw [unarmed, Set.encard_empty] at count
  exact slots (Nat.cast_eq_zero.mp count.symm)

end Timers

end LtcOs.Arduino
