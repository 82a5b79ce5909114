import LtcOs.Lib.PrioList

/-!
The scheduler `chschd.c` on a list of ready threads.

This is the abstract level of the scheduler: the ready list is a list of threads. The
code on the links of the threads refines it, which is shown in `Kernel.Scheduler`; the
modules on top of the scheduler use the operations of this level.

A thread that neither runs nor is ready waits for something of type `W`, which stands
for the other values of `p_state` and for the object in `p_u` that goes with them.
-/

namespace LtcOs.Kernel

open LtcOs.Prio

/-- `p_state`. -/
inductive Status (W : Type) where
  | READY
  | CURRENT
  | WAIT (w : W)
deriving DecidableEq, Repr

/-- What happens on the ready list: a thread is put there by `chSchReadyI`, and the
first one is taken out. -/
inductive Event (T : Type) where
  | readied (tp : T)
  | dispatched (tp : T)
deriving DecidableEq, Repr

def NOPRIO : Nat := 0

def IDLEPRIO : Nat := 1

def MSG_OK : Int := 0

def MSG_TIMEOUT : Int := -1

def MSG_RESET : Int := -2

def CH_CFG_TIME_QUANTUM : Nat := 20

/-- A `systime_t` as a timeout. -/
inductive Timeout where
  | immediate
  | finite
  | infinite
deriving DecidableEq, Repr

/-- The threads of type `T`, the ready list and the current thread, with the history
of the ready list. -/
structure Core (T W : Type) where
  p_prio : T → Nat
  p_state : T → Status W
  p_preempt : T → Nat
  rdymsg : T → Int
  ready : List T
  currp : T
  log : List (Event T)

/-- The sample systems number their threads, of which they have three or four. -/
instance neZero_three : NeZero 3 := ⟨by decide⟩

instance neZero_four : NeZero 4 := ⟨by decide⟩

variable {T W : Type}

namespace Core

/-- What a thread waits for. -/
def waiting (c : Core T W) (t : T) : Option W :=
  match c.p_state t with
  | .WAIT w => some w
  | _ => none

section Waiting

variable {c : Core T W} {t : T} {w : W}

theorem waiting_eq_some : c.waiting t = some w ↔ c.p_state t = .WAIT w := by
  unfold waiting
  cases c.p_state t <;> simp

theorem waiting_eq_none : c.waiting t = none ↔ c.p_state t = .READY ∨ c.p_state t = .CURRENT := by
  unfold waiting
  cases c.p_state t <;> simp

theorem waiting_congr {c' : Core T W} (same : c'.p_state t = c.p_state t) :
    c'.waiting t = c.waiting t := by
  unfold waiting
  rw [same]

end Waiting

section Operations

variable [DecidableEq T]

def setState (c : Core T W) (t : T) (st : Status W) : Core T W :=
  { c with p_state := Function.update c.p_state t st }

def setMsg (c : Core T W) (t : T) (msg : Int) : Core T W :=
  { c with rdymsg := Function.update c.rdymsg t msg }

def setPreempt (c : Core T W) (t : T) (n : Nat) : Core T W :=
  { c with p_preempt := Function.update c.p_preempt t n }

def setPrio (c : Core T W) (t : T) (p : Nat) : Core T W :=
  { c with p_prio := Function.update c.p_prio t p }

def chSchReadyI (c : Core T W) (tp : T) : Core T W :=
  { c.setState tp .READY with
    ready := insertBehind c.p_prio tp c.ready
    log := c.log ++ [.readied tp] }

/-- The first thread of the ready list becomes the current one. There always is one:
the idle thread never sleeps. -/
def dispatch (c : Core T W) : Core T W :=
  match c.ready with
  | [] => c
  | tp :: rest =>
      { c.setState tp .CURRENT with ready := rest, currp := tp, log := c.log ++ [.dispatched tp] }

def chSchGoSleepS (c : Core T W) (newstate : W) : Core T W :=
  ((c.setState c.currp (.WAIT newstate)).setPreempt c.currp CH_CFG_TIME_QUANTUM).dispatch

def chSchWakeupS (c : Core T W) (ntp : T) (msg : Int) : Core T W :=
  let c := c.setMsg ntp msg
  if c.p_prio ntp ≤ c.p_prio c.currp then c.chSchReadyI ntp
  else { (c.chSchReadyI c.currp).setState ntp .CURRENT with currp := ntp }

/-- `firstprio` of the ready list. -/
def firstprio (c : Core T W) : Nat :=
  match c.ready with
  | [] => NOPRIO
  | tp :: _ => c.p_prio tp

def chSchIsRescRequiredI (c : Core T W) : Bool := decide (c.p_prio c.currp < c.firstprio)

def chSchCanYieldS (c : Core T W) : Bool := decide (c.p_prio c.currp ≤ c.firstprio)

def chSchIsPreemptionRequired (c : Core T W) : Bool :=
  if 0 < c.p_preempt c.currp then decide (c.p_prio c.currp < c.firstprio)
  else decide (c.p_prio c.currp ≤ c.firstprio)

def chSchDoRescheduleBehind (c : Core T W) : Core T W :=
  ((c.dispatch).setPreempt c.currp CH_CFG_TIME_QUANTUM).chSchReadyI c.currp

def chSchDoRescheduleAhead (c : Core T W) : Core T W :=
  let c' := c.dispatch.setState c.currp .READY
  { c' with ready := insertAhead c'.p_prio c.currp c'.ready }

def chSchRescheduleS (c : Core T W) : Core T W :=
  if c.chSchIsRescRequiredI then c.chSchDoRescheduleAhead else c

def chSchDoReschedule (c : Core T W) : Core T W :=
  if c.p_preempt c.currp = 0 then c.chSchDoRescheduleBehind else c.chSchDoRescheduleAhead

def chSchDoYieldS (c : Core T W) : Core T W :=
  if c.chSchCanYieldS then c.chSchDoRescheduleBehind else c

def chSchPreemption (c : Core T W) : Core T W :=
  if 0 < c.p_preempt c.currp then
    if c.p_prio c.currp < c.firstprio then c.chSchDoRescheduleAhead else c
  else
    if c.p_prio c.currp ≤ c.firstprio then c.chSchDoRescheduleBehind else c

/-- The part of `chSysTimerHandlerI` about the time slice of the current thread. -/
def tick (c : Core T W) : Core T W :=
  if 0 < c.p_preempt c.currp then c.setPreempt c.currp (c.p_preempt c.currp - 1) else c

/-- The exit of an interrupt handler, `_port_irq_epilogue`. -/
def epilogue (c : Core T W) : Core T W :=
  if c.chSchIsPreemptionRequired then c.chSchDoReschedule else c

/-! ### Fields -/

section Fields

variable (c : Core T W) (t u : T) (w : W) (msg : Int)

@[simp] theorem setState_p_prio (st : Status W) : (c.setState t st).p_prio = c.p_prio := rfl
@[simp] theorem setState_rdymsg (st : Status W) : (c.setState t st).rdymsg = c.rdymsg := rfl
@[simp] theorem setState_ready (st : Status W) : (c.setState t st).ready = c.ready := rfl
@[simp] theorem setState_currp (st : Status W) : (c.setState t st).currp = c.currp := rfl
@[simp] theorem setMsg_p_prio : (c.setMsg t msg).p_prio = c.p_prio := rfl
@[simp] theorem setMsg_p_state : (c.setMsg t msg).p_state = c.p_state := rfl
@[simp] theorem setMsg_ready : (c.setMsg t msg).ready = c.ready := rfl
@[simp] theorem setMsg_currp : (c.setMsg t msg).currp = c.currp := rfl
@[simp] theorem setMsg_rdymsg : (c.setMsg t msg).rdymsg = Function.update c.rdymsg t msg := rfl
@[simp] theorem setPreempt_p_prio (n : Nat) : (c.setPreempt t n).p_prio = c.p_prio := rfl
@[simp] theorem setPreempt_p_state (n : Nat) : (c.setPreempt t n).p_state = c.p_state := rfl
@[simp] theorem setPreempt_rdymsg (n : Nat) : (c.setPreempt t n).rdymsg = c.rdymsg := rfl
@[simp] theorem setPreempt_ready (n : Nat) : (c.setPreempt t n).ready = c.ready := rfl
@[simp] theorem setPreempt_currp (n : Nat) : (c.setPreempt t n).currp = c.currp := rfl
@[simp] theorem chSchReadyI_p_prio : (c.chSchReadyI t).p_prio = c.p_prio := rfl
@[simp] theorem chSchReadyI_rdymsg : (c.chSchReadyI t).rdymsg = c.rdymsg := rfl
@[simp] theorem chSchReadyI_currp : (c.chSchReadyI t).currp = c.currp := rfl

@[simp] theorem dispatch_p_prio : c.dispatch.p_prio = c.p_prio := by
  unfold dispatch
  split <;> rfl

@[simp] theorem dispatch_rdymsg : c.dispatch.rdymsg = c.rdymsg := by
  unfold dispatch
  split <;> rfl

@[simp] theorem chSchGoSleepS_p_prio : (c.chSchGoSleepS w).p_prio = c.p_prio := by
  rw [chSchGoSleepS, dispatch_p_prio]
  rfl

@[simp] theorem chSchGoSleepS_rdymsg : (c.chSchGoSleepS w).rdymsg = c.rdymsg := by
  rw [chSchGoSleepS, dispatch_rdymsg]
  rfl

@[simp] theorem chSchWakeupS_p_prio : (c.chSchWakeupS t msg).p_prio = c.p_prio := by
  unfold chSchWakeupS
  dsimp only
  split <;> rfl

@[simp] theorem chSchWakeupS_rdymsg :
    (c.chSchWakeupS t msg).rdymsg = Function.update c.rdymsg t msg := by
  unfold chSchWakeupS
  dsimp only
  split <;> rfl

@[simp] theorem chSchDoRescheduleBehind_p_prio : c.chSchDoRescheduleBehind.p_prio = c.p_prio := by
  simp [chSchDoRescheduleBehind]

@[simp] theorem chSchDoRescheduleBehind_rdymsg : c.chSchDoRescheduleBehind.rdymsg = c.rdymsg := by
  simp [chSchDoRescheduleBehind]

@[simp] theorem chSchDoRescheduleAhead_p_prio : c.chSchDoRescheduleAhead.p_prio = c.p_prio := by
  simp [chSchDoRescheduleAhead]

@[simp] theorem chSchDoRescheduleAhead_rdymsg : c.chSchDoRescheduleAhead.rdymsg = c.rdymsg := by
  simp [chSchDoRescheduleAhead]

@[simp] theorem chSchRescheduleS_p_prio : c.chSchRescheduleS.p_prio = c.p_prio := by
  unfold chSchRescheduleS
  split <;> simp

@[simp] theorem chSchRescheduleS_rdymsg : c.chSchRescheduleS.rdymsg = c.rdymsg := by
  unfold chSchRescheduleS
  split <;> simp

@[simp] theorem chSchDoReschedule_p_prio : c.chSchDoReschedule.p_prio = c.p_prio := by
  unfold chSchDoReschedule
  split_ifs <;> simp

@[simp] theorem chSchDoYieldS_p_prio : c.chSchDoYieldS.p_prio = c.p_prio := by
  unfold chSchDoYieldS
  split_ifs <;> simp

@[simp] theorem chSchPreemption_p_prio : c.chSchPreemption.p_prio = c.p_prio := by
  unfold chSchPreemption
  split_ifs <;> simp

@[simp] theorem tick_p_prio : c.tick.p_prio = c.p_prio := by
  unfold tick
  split_ifs <;> rfl

@[simp] theorem chSchDoYieldS_rdymsg : c.chSchDoYieldS.rdymsg = c.rdymsg := by
  unfold chSchDoYieldS
  split_ifs <;> simp

@[simp] theorem tick_rdymsg : c.tick.rdymsg = c.rdymsg := by
  unfold tick
  split_ifs <;> rfl

@[simp] theorem epilogue_p_prio : c.epilogue.p_prio = c.p_prio := by
  unfold epilogue chSchDoReschedule
  split_ifs <;> simp

@[simp] theorem epilogue_rdymsg : c.epilogue.rdymsg = c.rdymsg := by
  unfold epilogue chSchDoReschedule
  split_ifs <;> simp

end Fields

/-! ### What the operations do to the waiting threads -/

section Waiting

variable {c : Core T W}

@[simp]
theorem waiting_setState (c : Core T W) (t : T) (st : Status W) :
    (c.setState t st).waiting =
      Function.update c.waiting t (match st with | .WAIT w => some w | _ => none) := by
  funext u
  by_cases same : u = t
  · subst same
    simp [waiting, setState]
  · rw [Function.update_of_ne same]
    exact waiting_congr (Function.update_of_ne same _ _)

@[simp]
theorem waiting_setMsg (c : Core T W) (t : T) (msg : Int) : (c.setMsg t msg).waiting = c.waiting :=
  rfl

@[simp]
theorem waiting_setPreempt (c : Core T W) (t : T) (n : Nat) :
    (c.setPreempt t n).waiting = c.waiting := rfl

@[simp]
theorem waiting_chSchReadyI (c : Core T W) (t : T) :
    (c.chSchReadyI t).waiting = Function.update c.waiting t none :=
  waiting_setState c t .READY

@[simp]
theorem waiting_tick (c : Core T W) : c.tick.waiting = c.waiting := by
  unfold tick
  split <;> rfl

/-- A thread on the ready list does not wait. -/
theorem waiting_dispatch (awake : ∀ t ∈ c.ready, c.waiting t = none) :
    c.dispatch.waiting = c.waiting := by
  unfold dispatch
  split
  · rfl
  · next tp rest eq =>
      change (c.setState tp .CURRENT).waiting = c.waiting
      rw [waiting_setState]
      exact Function.update_eq_self_iff.mpr (awake tp (by simp [eq])).symm

end Waiting

end Operations

/-! ### The invariant -/

/-- The ready list is in the order of priorities and has every ready thread once, the
current thread is the only one in its state, and the idle thread does not sleep. -/
structure Inv (idle : T) (c : Core T W) : Prop where
  sorted : Descending c.p_prio c.ready
  nodup : c.ready.Nodup
  mem_ready : ∀ t, t ∈ c.ready ↔ c.p_state t = .READY
  current : ∀ t, c.p_state t = .CURRENT ↔ t = c.currp
  awake : c.waiting idle = none

section Invariant

variable {idle : T} {c : Core T W} {t u : T} {w : W} {msg : Int}

theorem Inv.waiting_ready (inv : Inv idle c) (mem : t ∈ c.ready) : c.waiting t = none :=
  waiting_eq_none.mpr (.inl ((inv.mem_ready t).mp mem))

theorem Inv.waiting_currp (inv : Inv idle c) : c.waiting c.currp = none :=
  waiting_eq_none.mpr (.inr ((inv.current _).mpr rfl))

theorem Inv.currp_not_ready (inv : Inv idle c) : c.currp ∉ c.ready := by
  intro mem
  have := (inv.mem_ready _).mp mem
  rw [(inv.current _).mpr rfl] at this
  cases this

/-- Some thread is ready when the idle thread does not run. -/
theorem Inv.ready_ne_nil (inv : Inv idle c) (other : c.currp ≠ idle) : c.ready ≠ [] := by
  have mem : idle ∈ c.ready := by
    apply (inv.mem_ready idle).mpr
    rcases waiting_eq_none.mp inv.awake with h | h
    · exact h
    · exact absurd ((inv.current idle).mp h) other.symm
  exact List.ne_nil_of_mem mem

/-- Other fields do not matter to the invariant. -/
theorem Inv.congr {c' : Core T W} (inv : Inv idle c) (prio : c'.p_prio = c.p_prio)
    (state : c'.p_state = c.p_state) (ready : c'.ready = c.ready) (currp : c'.currp = c.currp) :
    Inv idle c' := by
  constructor
  · rw [prio, ready]
    exact inv.sorted
  · rw [ready]
    exact inv.nodup
  · rw [ready, state]
    exact inv.mem_ready
  · rw [state, currp]
    exact inv.current
  · rw [waiting_congr (congrFun state idle)]
    exact inv.awake

/-- The invariant of all threads but one, which is on its way from or to the ready list. -/
structure Without (idle otp : T) (c : Core T W) : Prop where
  sorted : Descending c.p_prio c.ready
  nodup : c.ready.Nodup
  absent : otp ∉ c.ready
  other : otp ≠ c.currp
  mem_ready : ∀ t, t ≠ otp → (t ∈ c.ready ↔ c.p_state t = .READY)
  current : ∀ t, t ≠ otp → (c.p_state t = .CURRENT ↔ t = c.currp)
  awake : otp ≠ idle → c.waiting idle = none

theorem Inv.without (inv : Inv idle c) (asleep : c.waiting t ≠ none) : Without idle t c := by
  constructor
  · exact inv.sorted
  · exact inv.nodup
  · intro mem
    exact asleep (inv.waiting_ready mem)
  · rintro rfl
    exact asleep inv.waiting_currp
  · intro u _
    exact inv.mem_ready u
  · intro u _
    exact inv.current u
  · intro _
    exact inv.awake

/-- A thread with a higher priority than the current one is not the list header. -/
theorem ready_ne_nil_of_lt (higher : c.p_prio c.currp < c.firstprio) : c.ready ≠ [] := by
  intro eq
  rw [firstprio, eq] at higher
  exact absurd higher (by simp [ NOPRIO])

theorem ready_ne_nil_of_le (pos : NOPRIO < c.p_prio c.currp)
    (higher : c.p_prio c.currp ≤ c.firstprio) :
    c.ready ≠ [] := by
  intro eq
  rw [firstprio, eq] at higher
  exact absurd (lt_of_lt_of_le pos higher) (lt_irrefl _)

/-- When the code asks for a preemption, a thread is ready. -/
theorem ready_ne_nil_of_preemption (pos : NOPRIO < c.p_prio c.currp)
    (required : c.chSchIsPreemptionRequired = true) : c.ready ≠ [] := by
  unfold chSchIsPreemptionRequired at required
  split_ifs at required
  · exact ready_ne_nil_of_lt (of_decide_eq_true required)
  · exact ready_ne_nil_of_le pos (of_decide_eq_true required)

variable [DecidableEq T]

theorem Inv.setMsg (inv : Inv idle c) (t : T) (msg : Int) : Inv idle (c.setMsg t msg) :=
  inv.congr rfl rfl rfl rfl

theorem Inv.setPreempt (inv : Inv idle c) (t : T) (n : Nat) : Inv idle (c.setPreempt t n) :=
  inv.congr rfl rfl rfl rfl

theorem Inv.tick (inv : Inv idle c) : Inv idle c.tick := by
  unfold Core.tick
  split
  · exact inv.setPreempt _ _
  · exact inv

/-- The priority of a thread that is not on the ready list may change. -/
theorem Inv.setPrio (inv : Inv idle c) (other : t ∉ c.ready) (p : Nat) :
    Inv idle (c.setPrio t p) := by
  refine ⟨inv.sorted.congr ?_, inv.nodup, inv.mem_ready, inv.current, inv.awake⟩
  intro u hu
  apply Function.update_of_ne
  rintro rfl
  exact other hu

/-- The thread goes to sleep. -/
theorem Without.asleep (rest : Without idle t c) (state : c.p_state t = .WAIT w) (other : t ≠ idle) :
    Inv idle c := by
  constructor
  · exact rest.sorted
  · exact rest.nodup
  · intro u
    by_cases same : u = t
    · subst same
      simp [state, rest.absent]
    · exact rest.mem_ready u same
  · intro u
    by_cases same : u = t
    · subst same
      simp [state, rest.other]
    · exact rest.current u same
  · exact rest.awake other

/-- The thread goes to its place on the ready list. -/
theorem Without.insert (rest : Without idle t c) {l : List T} {log : List (Event T)}
    (sorted : Descending c.p_prio l) (nodup : l.Nodup) (mem : ∀ u, u ∈ l ↔ u = t ∨ u ∈ c.ready) :
    Inv idle { c.setState t .READY with ready := l, log := log } := by
  constructor
  · exact sorted
  · exact nodup
  · intro u
    change u ∈ l ↔ Function.update c.p_state t .READY u = .READY
    rw [mem]
    by_cases same : u = t
    · simp [same]
    · rw [Function.update_of_ne same, ← rest.mem_ready u same]
      simp [same]
  · intro u
    change Function.update c.p_state t .READY u = .CURRENT ↔ u = c.currp
    by_cases same : u = t
    · subst same
      simp [rest.other]
    · rw [Function.update_of_ne same]
      exact rest.current u same
  · change (c.setState t .READY).waiting idle = none
    rw [waiting_setState, Function.update_apply]
    split_ifs with same
    · rfl
    · exact rest.awake (Ne.symm same)

theorem Without.behind (rest : Without idle t c) : Inv idle (c.chSchReadyI t) :=
  rest.insert (rest.sorted.insertBehind t) (nodup_insertBehind rest.nodup rest.absent) fun _ =>
    mem_insertBehind

theorem Without.ahead (rest : Without idle t c) :
    Inv idle { c.setState t .READY with ready := insertAhead c.p_prio t c.ready } :=
  rest.insert (rest.sorted.insertAhead t) (nodup_insertAhead rest.nodup rest.absent) fun _ =>
    mem_insertAhead

/-- A ready thread takes its place for a new priority. -/
theorem Inv.requeue (inv : Inv idle c) (ready : c.p_state t = .READY) (p : Nat) :
    Inv idle ({ c.setPrio t p with ready := c.ready.erase t }.chSchReadyI t) := by
  have absent : t ∉ c.ready.erase t := inv.nodup.not_mem_erase
  have rest : Without idle t { c.setPrio t p with ready := c.ready.erase t } := by
    constructor
    · have sorted : Descending c.p_prio (c.ready.erase t) := inv.sorted.sublist List.erase_sublist
      apply sorted.congr
      intro u hu
      apply Function.update_of_ne
      rintro rfl
      exact absent hu
    · exact inv.nodup.erase t
    · exact absent
    · intro same
      exact absurd (ready.symm.trans ((inv.current t).mpr same)) (by simp)
    · intro u other
      change u ∈ c.ready.erase t ↔ c.p_state u = .READY
      rw [inv.nodup.mem_erase_iff, inv.mem_ready]
      simp [other]
    · intro u _
      exact inv.current u
    · intro _
      exact inv.awake
  exact rest.behind

theorem Without.setPreempt (rest : Without idle t c) (u : T) (n : Nat) :
    Without idle t (c.setPreempt u n) :=
  ⟨rest.sorted, rest.nodup, rest.absent, rest.other, rest.mem_ready, rest.current, rest.awake⟩

theorem dispatch_cons {rest : List T} {tp : T} (eq : c.ready = tp :: rest) :
    c.dispatch = { c.setState tp .CURRENT with
      ready := rest, currp := tp, log := c.log ++ [.dispatched tp] } := by
  unfold dispatch
  rw [eq]

theorem length_dispatch (c : Core T W) : c.dispatch.ready.length ≤ c.ready.length := by
  unfold dispatch
  split
  · exact le_rfl
  · next tp rest eq => simp [eq]

/-- The first ready thread takes the place of the current one, whatever becomes of
that. -/
theorem Inv.dispatch (inv : Inv idle c) (some_ready : c.ready ≠ []) (st : Status W) :
    Without idle c.currp (c.setState c.currp st).dispatch := by
  obtain ⟨tp, rest, eq⟩ := List.exists_cons_of_ne_nil some_ready
  have mem : tp ∈ c.ready := by simp [eq]
  have nodup := inv.nodup
  rw [eq] at nodup
  obtain ⟨fresh, nodup⟩ := List.nodup_cons.mp nodup
  have sorted := inv.sorted
  rw [eq] at sorted
  rw [dispatch_cons (by exact eq)]
  constructor
  · exact (List.pairwise_cons.mp sorted).2
  · exact nodup
  · intro h
    exact inv.currp_not_ready (by simp [eq, h])
  · rintro same
    change c.currp = tp at same
    exact inv.currp_not_ready (same ▸ mem)
  · intro u other
    change u ∈ rest ↔ Function.update (Function.update c.p_state c.currp st) tp .CURRENT u = .READY
    by_cases first : u = tp
    · subst first
      simp [fresh]
    · rw [Function.update_of_ne first, Function.update_of_ne other, ← inv.mem_ready, eq]
      simp [first]
  · intro u other
    change Function.update (Function.update c.p_state c.currp st) tp .CURRENT u = .CURRENT ↔ u = tp
    by_cases first : u = tp
    · subst first
      simp
    · rw [Function.update_of_ne first, Function.update_of_ne other, inv.current]
      simp [first, other]
  · intro other
    change ((c.setState c.currp st).setState tp .CURRENT).waiting idle = none
    rw [waiting_setState, waiting_setState, Function.update_apply, Function.update_of_ne other.symm]
    split_ifs
    · rfl
    · exact inv.awake

theorem setState_currp_self (inv : Inv idle c) : c.setState c.currp .CURRENT = c := by
  unfold setState
  rw [← (inv.current c.currp).mpr rfl, Function.update_eq_self]

theorem Inv.dispatch' (inv : Inv idle c) (some_ready : c.ready ≠ []) :
    Without idle c.currp c.dispatch := by
  have := inv.dispatch some_ready .CURRENT
  rwa [setState_currp_self inv] at this

theorem Inv.chSchReadyI (inv : Inv idle c) (asleep : c.waiting t ≠ none) :
    Inv idle (c.chSchReadyI t) :=
  (inv.without asleep).behind

theorem Inv.chSchGoSleepS (inv : Inv idle c) (other : c.currp ≠ idle) (w : W) :
    Inv idle (c.chSchGoSleepS w) := by
  have some_ready := inv.ready_ne_nil other
  obtain ⟨tp, rest, eq⟩ := List.exists_cons_of_ne_nil some_ready
  have distinct : c.currp ≠ tp := by
    rintro rfl
    exact inv.currp_not_ready (by simp [eq])
  apply ((inv.setPreempt c.currp CH_CFG_TIME_QUANTUM).dispatch some_ready (.WAIT w)).asleep
    (w := w) _ other
  rw [dispatch_cons (by exact eq)]
  change Function.update (Function.update c.p_state c.currp (.WAIT w)) tp .CURRENT c.currp = .WAIT w
  rw [Function.update_of_ne distinct, Function.update_self]

theorem Inv.waiting_chSchGoSleepS (inv : Inv idle c) (w : W) :
    (c.chSchGoSleepS w).waiting = Function.update c.waiting c.currp (some w) := by
  rw [Core.chSchGoSleepS, waiting_dispatch]
  · simp
  · intro u hu
    have : u ≠ c.currp := by
      rintro rfl
      exact inv.currp_not_ready hu
    simp [Function.update_of_ne this, inv.waiting_ready hu]

theorem Inv.chSchDoRescheduleBehind (inv : Inv idle c) (some_ready : c.ready ≠ []) :
    Inv idle c.chSchDoRescheduleBehind :=
  ((inv.dispatch' some_ready).setPreempt _ _).behind

theorem Inv.chSchDoRescheduleAhead (inv : Inv idle c) (some_ready : c.ready ≠ []) :
    Inv idle c.chSchDoRescheduleAhead :=
  (inv.dispatch' some_ready).ahead

theorem Inv.waiting_chSchDoRescheduleBehind (inv : Inv idle c) :
    c.chSchDoRescheduleBehind.waiting = c.waiting := by
  rw [Core.chSchDoRescheduleBehind, waiting_chSchReadyI, waiting_setPreempt,
    waiting_dispatch fun _ => inv.waiting_ready]
  exact Function.update_eq_self_iff.mpr inv.waiting_currp.symm

theorem Inv.waiting_chSchDoRescheduleAhead (inv : Inv idle c) :
    c.chSchDoRescheduleAhead.waiting = c.waiting := by
  change (c.dispatch.setState c.currp .READY).waiting = c.waiting
  rw [waiting_setState, waiting_dispatch fun _ => inv.waiting_ready]
  exact Function.update_eq_self_iff.mpr inv.waiting_currp.symm

theorem Inv.chSchWakeupS (inv : Inv idle c) (asleep : c.waiting t ≠ none) (msg : Int) :
    Inv idle (c.chSchWakeupS t msg) := by
  unfold Core.chSchWakeupS
  dsimp only
  split_ifs
  · exact (inv.setMsg t msg).chSchReadyI asleep
  · -- the woken thread runs at once, so the current one leaves for the ready list
    have fresh : t ∉ c.ready := fun mem => asleep (inv.waiting_ready mem)
    have other : t ≠ c.currp := by
      rintro rfl
      exact asleep inv.waiting_currp
    have rest : Without idle c.currp { (c.setMsg t msg).setState t .CURRENT with currp := t } := by
      constructor
      · exact inv.sorted
      · exact inv.nodup
      · exact inv.currp_not_ready
      · exact other.symm
      · intro u _
        change u ∈ c.ready ↔ Function.update c.p_state t .CURRENT u = .READY
        by_cases same : u = t
        · simp [same, fresh]
        · rw [Function.update_of_ne same]
          exact inv.mem_ready u
      · intro u hu
        change Function.update c.p_state t .CURRENT u = .CURRENT ↔ u = t
        by_cases same : u = t
        · simp [same]
        · rw [Function.update_of_ne same, inv.current]
          simp [same, hu]
      · intro _
        change (c.setState t .CURRENT).waiting idle = none
        rw [waiting_setState, Function.update_apply]
        split_ifs
        · rfl
        · exact inv.awake
    refine Inv.congr rest.behind ?_ ?_ ?_ ?_
    · rfl
    · exact Function.update_comm other.symm _ _ _
    · rfl
    · rfl

theorem Inv.waiting_chSchWakeupS (inv : Inv idle c) (t : T) (msg : Int) :
    (c.chSchWakeupS t msg).waiting = Function.update c.waiting t none := by
  unfold Core.chSchWakeupS
  dsimp only
  split_ifs
  · rw [waiting_chSchReadyI, waiting_setMsg]
  · change (((c.setMsg t msg).chSchReadyI c.currp).setState t .CURRENT).waiting = _
    rw [waiting_setState, waiting_chSchReadyI, waiting_setMsg]
    congr 1
    exact Function.update_eq_self_iff.mpr inv.waiting_currp.symm

theorem Inv.chSchRescheduleS (inv : Inv idle c) : Inv idle c.chSchRescheduleS := by
  unfold Core.chSchRescheduleS
  split_ifs with required
  · exact inv.chSchDoRescheduleAhead (ready_ne_nil_of_lt (of_decide_eq_true required))
  · exact inv

theorem Inv.waiting_chSchRescheduleS (inv : Inv idle c) :
    c.chSchRescheduleS.waiting = c.waiting := by
  unfold Core.chSchRescheduleS
  split_ifs
  · exact inv.waiting_chSchDoRescheduleAhead
  · rfl

theorem Inv.chSchDoYieldS (inv : Inv idle c) (pos : NOPRIO < c.p_prio c.currp) :
    Inv idle c.chSchDoYieldS := by
  unfold Core.chSchDoYieldS
  split_ifs with possible
  · exact inv.chSchDoRescheduleBehind (ready_ne_nil_of_le pos (of_decide_eq_true possible))
  · exact inv

theorem Inv.waiting_chSchDoYieldS (inv : Inv idle c) : c.chSchDoYieldS.waiting = c.waiting := by
  unfold Core.chSchDoYieldS
  split_ifs
  · exact inv.waiting_chSchDoRescheduleBehind
  · rfl

theorem Inv.chSchDoReschedule (inv : Inv idle c) (some_ready : c.ready ≠ []) :
    Inv idle c.chSchDoReschedule := by
  unfold Core.chSchDoReschedule
  split_ifs
  · exact inv.chSchDoRescheduleBehind some_ready
  · exact inv.chSchDoRescheduleAhead some_ready

theorem Inv.epilogue (inv : Inv idle c) (pos : NOPRIO < c.p_prio c.currp) :
    Inv idle c.epilogue := by
  unfold Core.epilogue
  split_ifs with required
  · exact inv.chSchDoReschedule (ready_ne_nil_of_preemption pos required)
  · exact inv

theorem Inv.waiting_epilogue (inv : Inv idle c) : c.epilogue.waiting = c.waiting := by
  unfold Core.epilogue Core.chSchDoReschedule
  split_ifs
  · exact inv.waiting_chSchDoRescheduleBehind
  · exact inv.waiting_chSchDoRescheduleAhead
  · rfl

theorem Inv.chSchPreemption (inv : Inv idle c) (pos : NOPRIO < c.p_prio c.currp) :
    Inv idle c.chSchPreemption := by
  unfold Core.chSchPreemption
  split_ifs with slice higher higher
  · exact inv.chSchDoRescheduleAhead (ready_ne_nil_of_lt higher)
  · exact inv
  · exact inv.chSchDoRescheduleBehind (ready_ne_nil_of_le pos higher)
  · exact inv

end Invariant

/-! ### First come, first served -/

section Fifo

variable [DecidableEq T] {c : Core T W} {t : T} {log : List (Event T)}

/-- The threads put on the ready list by `chSchReadyI` and not dispatched since, in the
order of the calls. -/
def pending (log : List (Event T)) : List T :=
  log.foldl (fun l e => match e with
    | .readied tp => l ++ [tp]
    | .dispatched tp => l.erase tp) []

/-- Threads of equal priority leave in the order in which they came. -/
def Fair (p_prio : T → Nat) (log : List (Event T)) : Prop :=
  ∀ l₁ b l₂, log = l₁ ++ .dispatched b :: l₂ →
    ∀ a, [a, b].Sublist (pending l₁) → p_prio a ≠ p_prio b

theorem pending_readied (log : List (Event T)) (t : T) :
    pending (log ++ [.readied t]) = pending log ++ [t] := by
  simp [pending]

theorem pending_dispatched (log : List (Event T)) (t : T) :
    pending (log ++ [.dispatched t]) = (pending log).erase t := by
  simp [pending]

/-- The ready list keeps the order of the calls among threads of equal priority. -/
structure Fifo (c : Core T W) : Prop where
  nodup : (pending c.log).Nodup
  mem : ∀ t ∈ pending c.log, t ∈ c.ready
  order : ∀ a b, [a, b].Sublist (pending c.log) → c.p_prio a = c.p_prio b → [a, b].Sublist c.ready
  fair : Fair c.p_prio c.log

theorem Fifo.congr {c' : Core T W} (fifo : Fifo c) (prio : c'.p_prio = c.p_prio)
    (ready : c'.ready = c.ready) (log : c'.log = c.log) : Fifo c' := by
  constructor
  · rw [log]
    exact fifo.nodup
  · rw [log, ready]
    exact fifo.mem
  · rw [log, ready, prio]
    exact fifo.order
  · rw [log, prio]
    exact fifo.fair

theorem fair_concat {p_prio : T → Nat} {e : Event T} (fair : Fair p_prio log)
    (last : ∀ b, e = .dispatched b → ∀ a, [a, b].Sublist (pending log) → p_prio a ≠ p_prio b) :
    Fair p_prio (log ++ [e]) := by
  intro l₁ b l₂ eq
  rcases List.eq_nil_or_concat' l₂ with rfl | ⟨l₂, e', rfl⟩
  · obtain ⟨rfl, here⟩ := List.append_inj' eq rfl
    exact last b (List.singleton_inj.mp here)
  · rw [← List.cons_append, ← List.append_assoc] at eq
    obtain ⟨eq, -⟩ := List.append_inj' eq rfl
    exact fair l₁ b l₂ eq

omit [DecidableEq T] in
theorem pair_sublist_concat {a b : T} {l : List T} (sub : [a, b].Sublist (l ++ [t])) :
    [a, b].Sublist l ∨ a ∈ l ∧ b = t := by
  obtain ⟨l₁, l₂, eq, sub₁, sub₂⟩ := List.sublist_append_iff.mp sub
  rcases List.sublist_singleton.mp sub₂ with rfl | rfl
  · left
    rw [eq, List.append_nil]
    exact sub₁
  · right
    rw [show [a, b] = [a] ++ [b] from rfl] at eq
    obtain ⟨rfl, here⟩ := List.append_inj' eq rfl
    exact ⟨List.singleton_sublist.mp sub₁, List.singleton_inj.mp here⟩

theorem Fifo.chSchReadyI (fifo : Fifo c) (sorted : Descending c.p_prio c.ready)
    (fresh : t ∉ c.ready) :
    Fifo (c.chSchReadyI t) := by
  have log : (c.chSchReadyI t).log = c.log ++ [.readied t] := rfl
  have ready : (c.chSchReadyI t).ready = insertBehind c.p_prio t c.ready := rfl
  constructor
  · rw [log, pending_readied]
    apply fifo.nodup.append (List.nodup_singleton t)
    intro u hu hu'
    rw [List.mem_singleton.mp hu'] at hu
    exact fresh (fifo.mem t hu)
  · rw [log, pending_readied, ready]
    intro u hu
    rw [mem_insertBehind]
    rcases List.mem_append.mp hu with hu | hu
    · exact .inr (fifo.mem u hu)
    · exact .inl (List.mem_singleton.mp hu)
  · rw [log, pending_readied, ready]
    intro a b sub same
    rcases pair_sublist_concat sub with sub | ⟨mem, rfl⟩
    · exact (fifo.order a b sub same).trans (sublist_insertBehind _ _ _)
    · exact before_insertBehind sorted (fifo.mem a mem) same.ge
  · rw [log]
    apply fair_concat fifo.fair
    intro b eq
    cases eq

theorem Fifo.dispatch (fifo : Fifo c) (nodup : c.ready.Nodup) : Fifo c.dispatch := by
  cases eq : c.ready with
  | nil =>
      have same : c.dispatch = c := by rw [Core.dispatch, eq]
      rw [same]
      exact fifo
  | cons tp rest =>
      rw [dispatch_cons eq]
      rw [eq] at nodup
      obtain ⟨fresh, -⟩ := List.nodup_cons.mp nodup
      have order : ∀ a b, [a, b].Sublist (pending c.log) → c.p_prio a = c.p_prio b → a ≠ tp →
          [a, b].Sublist rest := by
        intro a b sub same other
        have := fifo.order a b sub same
        rw [eq] at this
        cases this with
        | cons _ h => exact h
        | cons_cons _ _ => exact absurd rfl other
      constructor
      · change (pending (c.log ++ [.dispatched tp])).Nodup
        rw [pending_dispatched]
        exact fifo.nodup.erase tp
      · change ∀ t ∈ pending (c.log ++ [.dispatched tp]), t ∈ rest
        rw [pending_dispatched]
        intro u hu
        obtain ⟨other, hu⟩ := fifo.nodup.mem_erase_iff.mp hu
        have := fifo.mem u hu
        rw [eq] at this
        exact (List.mem_cons.mp this).resolve_left other
      · change ∀ a b, [a, b].Sublist (pending (c.log ++ [.dispatched tp])) → _ → [a, b].Sublist rest
        rw [pending_dispatched]
        intro a b sub same
        apply order a b (sub.trans List.erase_sublist) same
        rintro rfl
        exact (fifo.nodup.mem_erase_iff.mp (sub.subset (by simp))).1 rfl
      · apply fair_concat fifo.fair
        intro b eq' a sub same
        cases eq'
        have distinct : a ≠ tp := by
          rintro rfl
          have := fifo.nodup.sublist sub
          simp at this
        exact fresh ((order a tp sub same distinct).subset (by simp))

theorem Fifo.chSchGoSleepS {idle : T} (fifo : Fifo c) (inv : Inv idle c) (w : W) :
    Fifo (c.chSchGoSleepS w) := by
  have fifo : Fifo ((c.setState c.currp (.WAIT w)).setPreempt c.currp CH_CFG_TIME_QUANTUM) :=
    fifo.congr rfl rfl rfl
  exact fifo.dispatch inv.nodup

theorem Fifo.chSchWakeupS {idle : T} (fifo : Fifo c) (inv : Inv idle c)
    (asleep : c.waiting t ≠ none) (msg : Int) :
    Fifo (c.chSchWakeupS t msg) := by
  have fifo : Fifo (c.setMsg t msg) := fifo.congr rfl rfl rfl
  unfold Core.chSchWakeupS
  dsimp only
  split_ifs
  · exact fifo.chSchReadyI inv.sorted fun mem => asleep (inv.waiting_ready mem)
  · exact (fifo.chSchReadyI (t := c.currp) inv.sorted inv.currp_not_ready).congr rfl rfl rfl

theorem Fifo.chSchDoRescheduleBehind {idle : T} (fifo : Fifo c) (inv : Inv idle c)
    (some_ready : c.ready ≠ []) :
    Fifo c.chSchDoRescheduleBehind := by
  have rest := inv.dispatch' some_ready
  have fifo : Fifo (c.dispatch.setPreempt c.currp CH_CFG_TIME_QUANTUM) :=
    (fifo.dispatch inv.nodup).congr rfl rfl rfl
  exact fifo.chSchReadyI rest.sorted rest.absent

theorem Fifo.chSchDoRescheduleAhead {idle : T} (fifo : Fifo c) (inv : Inv idle c) :
    Fifo c.chSchDoRescheduleAhead := by
  have fifo := fifo.dispatch inv.nodup
  constructor
  · exact fifo.nodup
  · intro u hu
    exact mem_insertAhead.mpr (.inr (fifo.mem u hu))
  · intro a b sub same
    exact (fifo.order a b sub same).trans (sublist_insertAhead _ _ _)
  · exact fifo.fair

theorem Fifo.chSchRescheduleS {idle : T} (fifo : Fifo c) (inv : Inv idle c) :
    Fifo c.chSchRescheduleS := by
  unfold Core.chSchRescheduleS
  split_ifs
  · exact fifo.chSchDoRescheduleAhead inv
  · exact fifo

theorem Fifo.chSchDoReschedule {idle : T} (fifo : Fifo c) (inv : Inv idle c)
    (some_ready : c.ready ≠ []) :
    Fifo c.chSchDoReschedule := by
  unfold Core.chSchDoReschedule
  split_ifs
  · exact fifo.chSchDoRescheduleBehind inv some_ready
  · exact fifo.chSchDoRescheduleAhead inv

theorem Fifo.chSchDoYieldS {idle : T} (fifo : Fifo c) (inv : Inv idle c)
    (pos : NOPRIO < c.p_prio c.currp) :
    Fifo c.chSchDoYieldS := by
  unfold Core.chSchDoYieldS
  split_ifs with possible
  · exact fifo.chSchDoRescheduleBehind inv (ready_ne_nil_of_le pos (of_decide_eq_true possible))
  · exact fifo

theorem Fifo.chSchPreemption {idle : T} (fifo : Fifo c) (inv : Inv idle c)
    (pos : NOPRIO < c.p_prio c.currp) :
    Fifo c.chSchPreemption := by
  unfold Core.chSchPreemption
  split_ifs with slice higher higher
  · exact fifo.chSchDoRescheduleAhead inv
  · exact fifo
  · exact fifo.chSchDoRescheduleBehind inv (ready_ne_nil_of_le pos higher)
  · exact fifo

theorem Fifo.tick (fifo : Fifo c) : Fifo c.tick := by
  unfold Core.tick
  split_ifs
  · exact fifo.congr rfl rfl rfl
  · exact fifo

end Fifo

end Core

end LtcOs.Kernel
