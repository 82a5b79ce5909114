import LtcOs.Kernel.Moves
import LtcOs.Lib.Share

/-!
Time slices.

Threads of equal priority take turns. A thread that used up its slice goes behind its equals with
a new one, a thread that is preempted stays ahead of them with the rest of its slice, and a thread
that wakes goes behind. So while a thread waits for its turn, what the threads of its priority
that come before it may still use only gets less.
-/

namespace LtcOs.Kernel

open LtcOs.Prio

namespace Core

variable {T W : Type} [DecidableEq T] {c c' : Core T W} {idle tp t : T} {p n : Nat} {msg : Int} {w : W}

/-- The ticks a thread may run for: the one after its slice has ended is the last. -/
def slice (c : Core T W) (t : T) : Nat := max 1 (c.p_preempt t)

/-- What the threads of its priority that come before a ready thread may use. -/
def credit (c : Core T W) (tp : T) : Nat :=
  share (equals c.p_prio tp) c.slice (c.currp :: before tp c.ready)

/-- The threads of its priority that come before a ready thread. -/
def rivals (c : Core T W) (tp : T) : List T :=
  (c.currp :: before tp c.ready).filter (equals c.p_prio tp)

theorem credit_le (slices : ∀ t, c.p_preempt t ≤ CH_CFG_TIME_QUANTUM) :
    c.credit tp ≤ CH_CFG_TIME_QUANTUM * (c.rivals tp).length := by
  unfold credit share rivals
  rw [Nat.mul_comm]
  refine List.sum_le_card_nsmul _ _ ?_ |>.trans_eq (by rw [List.length_map, smul_eq_mul])
  intro x mem
  obtain ⟨t, -, rfl⟩ := List.mem_map.mp mem
  exact max_le (by decide) (slices t)

/-- A thread that is not there is made ready. -/
theorem credit_chSchReadyI (sorted : Descending c.p_prio c.ready) (mem : tp ∈ c.ready) (t : T) :
    (c.chSchReadyI t).credit tp = c.credit tp := by
  unfold credit
  rw [share_cons, share_cons]
  exact congrArg _ (share_insertBehind sorted mem _)

/-- A thread that does not come before is changed. -/
theorem credit_away (currp : c'.currp = c.currp) (ready : c'.ready = c.ready)
    (prio : ∀ u, u ≠ t → c'.p_prio u = c.p_prio u)
    (preempt : ∀ u, u ≠ t → c'.p_preempt u = c.p_preempt u) (off : t ∉ c.ready)
    (other : t ≠ c.currp) (mem : tp ∈ c.ready) : c'.credit tp = c.credit tp := by
  have differs : ∀ u ∈ c.currp :: before tp c.ready, u ≠ t := by
    intro u there
    rcases List.mem_cons.mp there with rfl | there
    · exact other.symm
    · rintro rfl
      exact off ((before_sublist tp c.ready).subset there)
  have self : tp ≠ t := by
    rintro rfl
    exact off mem
  unfold credit
  rw [currp, ready]
  refine share_congr (fun u there => ?_) fun u there _ => ?_
  · exact equals_congr (prio tp self) (prio u (differs u there))
  · unfold slice
    rw [preempt u (differs u there)]

theorem credit_tick_le (c : Core T W) (tp : T) : c.tick.credit tp ≤ c.credit tp := by
  unfold tick
  split
  · refine share_le_of_weight fun t _ => max_le_max_left 1 ?_
    change Function.update c.p_preempt c.currp _ t ≤ _
    by_cases same : t = c.currp
    · rw [same, Function.update_self]
      exact Nat.sub_le _ 1
    · rw [Function.update_of_ne same]
  · exact le_rfl

/-- The tick is taken from the slice of a thread before. -/
theorem credit_tick_lt (inv : Inv idle c) (equal : c.p_prio c.currp = c.p_prio tp)
    (more : 1 < c.p_preempt c.currp) : c.tick.credit tp + 1 ≤ c.credit tp := by
  have kind : equals c.p_prio tp c.currp = true := decide_eq_true equal
  have rest : share (equals c.p_prio tp) c.tick.slice (before tp c.ready) =
      share (equals c.p_prio tp) c.slice (before tp c.ready) := by
    refine share_congr (fun _ _ => rfl) fun t mem _ => ?_
    have other : t ≠ c.currp := by
      rintro rfl
      exact inv.currp_not_ready ((before_sublist tp c.ready).subset mem)
    unfold slice tick
    rw [if_pos (by omega)]
    change max 1 (Function.update c.p_preempt c.currp _ t) = _
    rw [Function.update_of_ne other]
  have used : c.tick.slice c.currp + 1 = c.slice c.currp := by
    unfold slice tick
    rw [if_pos (by omega)]
    change max 1 (Function.update c.p_preempt c.currp _ c.currp) + 1 = _
    rw [Function.update_self]
    omega
  have ready : c.tick.ready = c.ready := by
    unfold tick
    split <;> rfl
  unfold credit
  rw [tick_currp, ready, tick_p_prio, share_cons, share_cons, kind, if_pos rfl, if_pos rfl, rest]
  omega

/-- The first ready thread is another one, so it comes before. -/
theorem before_ready {rest : List T} {first : T} (eq : c.ready = first :: rest)
    (other : first ≠ tp) : before tp c.ready = first :: before tp rest := by
  rw [eq, before_cons other]

theorem credit_goSleep {rest : List T} {first : T} (inv : Inv idle c)
    (eq : c.ready = first :: rest) (other : first ≠ tp) (w : W) :
    (c.chSchGoSleepS w).credit tp ≤ c.credit tp := by
  have fields : (c.chSchGoSleepS w).credit tp =
      share (equals c.p_prio tp) (c.setPreempt c.currp CH_CFG_TIME_QUANTUM).slice
        (before tp c.ready) := by
    unfold credit chSchGoSleepS
    rw [dispatch_cons (by exact eq), before_ready eq other]
    rfl
  have weights : share (equals c.p_prio tp) (c.setPreempt c.currp CH_CFG_TIME_QUANTUM).slice
      (before tp c.ready) = share (equals c.p_prio tp) c.slice (before tp c.ready) := by
    refine share_congr (fun _ _ => rfl) fun t mem _ => ?_
    have differs : t ≠ c.currp := by
      rintro rfl
      exact inv.currp_not_ready ((before_sublist tp c.ready).subset mem)
    change max 1 (Function.update c.p_preempt c.currp _ t) = _
    rw [Function.update_of_ne differs]
    rfl
  rw [fields, weights]
  unfold credit
  rw [share_cons]
  exact Nat.le_add_left _ _

/-- The running thread goes behind its equals. -/
theorem credit_behind {rest : List T} {first : T} (inv : Inv idle c)
    (eq : c.ready = first :: rest) (mem : tp ∈ c.ready) (other : first ≠ tp) :
    c.chSchDoRescheduleBehind.credit tp +
      (if equals c.p_prio tp c.currp then c.slice c.currp else 0) = c.credit tp := by
  have mem' : tp ∈ rest := by
    rw [eq] at mem
    exact (List.mem_cons.mp mem).resolve_left (Ne.symm other)
  have sorted : Descending c.p_prio rest := by
    have sorted := inv.sorted
    rw [eq] at sorted
    exact (List.pairwise_cons.mp sorted).2
  have fields : c.chSchDoRescheduleBehind.credit tp =
      share (equals c.p_prio tp) (c.setPreempt c.currp CH_CFG_TIME_QUANTUM).slice
        (first :: before tp (insertBehind c.p_prio c.currp rest)) := by
    unfold credit chSchDoRescheduleBehind
    rw [dispatch_cons eq]
    rfl
  have weights : share (equals c.p_prio tp) (c.setPreempt c.currp CH_CFG_TIME_QUANTUM).slice
      (first :: before tp rest) = share (equals c.p_prio tp) c.slice (first :: before tp rest) := by
    refine share_congr (fun _ _ => rfl) fun t there _ => ?_
    have differs : t ≠ c.currp := by
      rintro rfl
      rw [← before_ready eq other] at there
      exact inv.currp_not_ready ((before_sublist tp c.ready).subset there)
    change max 1 (Function.update c.p_preempt c.currp _ t) = _
    rw [Function.update_of_ne differs]
    rfl
  rw [fields, share_cons, share_insertBehind sorted mem', ← share_cons, weights]
  unfold credit
  rw [share_cons _ _ c.currp, before_ready eq other, Nat.add_comm]

/-- The running thread goes ahead of its equals. -/
theorem credit_ahead {rest : List T} {first : T} (inv : Inv idle c)
    (eq : c.ready = first :: rest) (mem : tp ∈ c.ready) (other : first ≠ tp) :
    c.chSchDoRescheduleAhead.credit tp = c.credit tp := by
  have mem' : tp ∈ rest := by
    rw [eq] at mem
    exact (List.mem_cons.mp mem).resolve_left (Ne.symm other)
  have sorted : Descending c.p_prio rest := by
    have sorted := inv.sorted
    rw [eq] at sorted
    exact (List.pairwise_cons.mp sorted).2
  have differs : c.currp ≠ tp := by
    rintro rfl
    exact inv.currp_not_ready mem
  have fields : c.chSchDoRescheduleAhead.credit tp =
      share (equals c.p_prio tp) c.slice (first :: before tp (insertAhead c.p_prio c.currp rest)) := by
    unfold credit chSchDoRescheduleAhead
    rw [dispatch_cons eq]
    rfl
  rw [fields, share_cons, share_insertAhead sorted mem' differs]
  unfold credit
  rw [share_cons, before_ready eq other, share_cons, Nat.add_left_comm]

theorem p_preempt_dispatch (c : Core T W) : c.dispatch.p_preempt = c.p_preempt := by
  unfold dispatch
  split <;> rfl

theorem currp_behind {rest : List T} {first : T} (eq : c.ready = first :: rest) :
    c.chSchDoRescheduleBehind.currp = first := by
  change c.dispatch.currp = first
  rw [dispatch_cons eq]

theorem currp_ahead {rest : List T} {first : T} (eq : c.ready = first :: rest) :
    c.chSchDoRescheduleAhead.currp = first := by
  change c.dispatch.currp = first
  rw [dispatch_cons eq]

/-- What the scheduler does when it is asked does not give more to the threads before. -/
theorem credit_reschedule (inv : Inv idle c) (mem : tp ∈ c.ready)
    (waits : c.chSchRescheduleS.currp ≠ tp) : c.chSchRescheduleS.credit tp ≤ c.credit tp := by
  obtain ⟨first, rest, eq⟩ := List.exists_cons_of_ne_nil (List.ne_nil_of_mem mem)
  unfold chSchRescheduleS at waits ⊢
  split_ifs at waits ⊢
  · exact (credit_ahead inv eq mem fun same => waits ((currp_ahead eq).trans same)).le
  · exact le_rfl

theorem credit_yield (inv : Inv idle c) (mem : tp ∈ c.ready) (waits : c.chSchDoYieldS.currp ≠ tp) :
    c.chSchDoYieldS.credit tp ≤ c.credit tp := by
  obtain ⟨first, rest, eq⟩ := List.exists_cons_of_ne_nil (List.ne_nil_of_mem mem)
  unfold chSchDoYieldS at waits ⊢
  split_ifs at waits ⊢
  · have moved := credit_behind inv eq mem fun same => waits ((currp_behind eq).trans same)
    exact le_trans (Nat.le_add_right _ _) moved.le
  · exact le_rfl

theorem credit_epilogue (inv : Inv idle c) (mem : tp ∈ c.ready) (waits : c.epilogue.currp ≠ tp) :
    c.epilogue.credit tp ≤ c.credit tp := by
  obtain ⟨first, rest, eq⟩ := List.exists_cons_of_ne_nil (List.ne_nil_of_mem mem)
  unfold epilogue chSchDoReschedule at waits ⊢
  split_ifs at waits ⊢ with required ended
  · have moved := credit_behind inv eq mem fun same => waits ((currp_behind eq).trans same)
    exact le_trans (Nat.le_add_right _ _) moved.le
  · exact (credit_ahead inv eq mem fun same => waits ((currp_ahead eq).trans same)).le
  · exact le_rfl

/-- A thread whose slice has ended makes room for its equals. -/
theorem credit_epilogue_lt (inv : Inv idle c) (mem : tp ∈ c.ready)
    (waits : c.epilogue.currp ≠ tp) (equal : c.p_prio c.currp = c.p_prio tp)
    (ended : c.p_preempt c.currp = 0) : c.epilogue.credit tp + 1 ≤ c.credit tp := by
  obtain ⟨first, rest, eq⟩ := List.exists_cons_of_ne_nil (List.ne_nil_of_mem mem)
  have required : c.chSchIsPreemptionRequired = true := by
    unfold chSchIsPreemptionRequired
    rw [if_neg (by omega), decide_eq_true_eq, equal]
    exact le_firstprio inv.sorted mem
  have moved : c.epilogue = c.chSchDoRescheduleBehind := by
    unfold epilogue chSchDoReschedule
    rw [if_pos required, if_pos ended]
  rw [moved] at waits ⊢
  have kind : equals c.p_prio tp c.currp = true := decide_eq_true equal
  have less := credit_behind inv eq mem fun same => waits ((currp_behind eq).trans same)
  rw [kind, if_pos rfl] at less
  have pos : 1 ≤ c.slice c.currp := le_max_left _ _
  omega

/-- A thread that may run at once is above the threads that are ready. -/
theorem credit_wakeup (inv : Inv idle c) (ordered : c.Ordered) (mem : tp ∈ c.ready) (t : T)
    (msg : Int) : (c.chSchWakeupS t msg).credit tp ≤ c.credit tp := by
  unfold chSchWakeupS
  dsimp only
  split_ifs with low
  · exact (credit_chSchReadyI (c := c.setMsg t msg) inv.sorted mem t).le
  · have above : c.p_prio tp < c.p_prio t := by
      have := le_trans (le_firstprio inv.sorted mem) ordered
      exact lt_of_le_of_lt this (not_le.mp low)
    have kind : equals c.p_prio tp t = false := decide_eq_false above.ne'
    have fields : (({ ((c.setMsg t msg).chSchReadyI c.currp).setState t .CURRENT with currp := t } :
        Core T W).credit tp) =
        share (equals c.p_prio tp) c.slice (t :: before tp (insertBehind c.p_prio c.currp c.ready)) :=
      rfl
    change Core.credit { ((c.setMsg t msg).chSchReadyI c.currp).setState t .CURRENT with
      currp := t } tp ≤ _
    rw [fields, share_cons, kind, if_neg Bool.false_ne_true, Nat.zero_add,
      share_insertBehind inv.sorted mem]
    unfold credit
    rw [share_cons]
    exact Nat.le_add_left _ _

/-- The running thread gets another priority. -/
theorem credit_setPrio (inv : Inv idle c) (mem : tp ∈ c.ready) (p : Nat) :
    (c.setPrio c.currp p).credit tp ≤ c.credit tp + c.slice c.currp := by
  have self : tp ≠ c.currp := by
    rintro rfl
    exact inv.currp_not_ready mem
  have rest : share (equals (c.setPrio c.currp p).p_prio tp) c.slice (before tp c.ready) =
      share (equals c.p_prio tp) c.slice (before tp c.ready) := by
    refine share_congr (fun u there => ?_) fun _ _ _ => rfl
    have differs : u ≠ c.currp := by
      rintro rfl
      exact inv.currp_not_ready ((before_sublist tp c.ready).subset there)
    exact equals_congr (Function.update_of_ne self _ _) (Function.update_of_ne differs _ _)
  have fields : (c.setPrio c.currp p).credit tp =
      share (equals (c.setPrio c.currp p).p_prio tp) c.slice (c.currp :: before tp c.ready) := rfl
  rw [fields, share_cons, rest]
  unfold credit
  rw [share_cons]
  split <;> omega

/-- A ready thread gets another priority, and goes behind its equals. -/
theorem credit_requeue (inv : Inv idle c) (mem : tp ∈ c.ready) (ready : t ∈ c.ready) (other : t ≠ tp)
    (p : Nat) : ({ c.setPrio t p with ready := c.ready.erase t }.chSchReadyI t).credit tp ≤
      c.credit tp := by
  have sorted : Descending (c.setPrio t p).p_prio (c.ready.erase t) := by
    have sorted : Descending c.p_prio (c.ready.erase t) := inv.sorted.sublist List.erase_sublist
    apply sorted.congr
    intro u there
    apply Function.update_of_ne
    rintro rfl
    exact inv.nodup.not_mem_erase there
  have mem' : tp ∈ c.ready.erase t := (List.mem_erase_of_ne (Ne.symm other)).mpr mem
  rw [credit_chSchReadyI (c := { c.setPrio t p with ready := c.ready.erase t }) sorted mem' t]
  have current : c.currp ≠ t := by
    rintro rfl
    exact inv.currp_not_ready ready
  have kinds : share (equals (c.setPrio t p).p_prio tp) c.slice
      (c.currp :: before tp (c.ready.erase t)) =
      share (equals c.p_prio tp) c.slice (c.currp :: before tp (c.ready.erase t)) := by
    refine share_congr (fun u there => ?_) fun _ _ _ => rfl
    have differs : u ≠ t := by
      rcases List.mem_cons.mp there with rfl | there
      · exact current
      · rintro rfl
        exact inv.nodup.not_mem_erase ((before_sublist tp _).subset there)
    exact equals_congr (Function.update_of_ne (Ne.symm other) _ _) (Function.update_of_ne differs _ _)
  exact kinds.le.trans (share_le_of_sublist ((before_erase other _).cons_cons _))

end Core

/-! ### Calls and interrupt handlers -/

namespace Rt

variable {T O : Type}

/-- No slice is longer than a new one. -/
def Sliced (s : Rt T O) : Prop := ∀ t, s.core.p_preempt t ≤ CH_CFG_TIME_QUANTUM

variable [DecidableEq T] [DecidableEq O] {idle tp : T} {s s' : Rt T O} {n m : Nat}

theorem preempt_update {p_preempt : T → Nat} (le : ∀ t, p_preempt t ≤ CH_CFG_TIME_QUANTUM) {u : T}
    {k : Nat} (short : k ≤ CH_CFG_TIME_QUANTUM) (t : T) :
    Function.update p_preempt u k t ≤ CH_CFG_TIME_QUANTUM := by
  by_cases same : t = u
  · rw [same, Function.update_self]
    exact short
  · rw [Function.update_of_ne same]
    exact le t

theorem Move.sliced (move : Move idle s s') (sliced : Sliced s) : Sliced s' := by
  cases move with
  | aside core queue real timer pc =>
      unfold Sliced
      rw [core]
      exact sliced
  | leave => exact sliced
  | disarm tp => exact sliced
  | tick =>
      change ∀ t, s.core.tick.p_preempt t ≤ _
      unfold Core.tick
      split
      · exact preempt_update sliced (le_trans (Nat.sub_le _ 1) (sliced _))
      · exact sliced
  | wake msg asleep off => exact sliced
  | wakeOff msg mem => exact sliced
  | raise less =>
      unfold Rt.raise Rt.requeue
      dsimp only
      split <;> exact sliced
  | create unused pos => exact preempt_update sliced le_rfl
  | receive =>
      unfold Rt.receive
      split <;> exact sliced

theorem Moves.sliced (moves : Moves idle n s s') (sliced : Sliced s) : Sliced s' := by
  induction moves with
  | refl => exact sliced
  | tail _ move ih => exact move.sliced (ih sliced)
  | own _ pos ih => exact ih sliced

theorem Choice.sliced {start : Prop} (choice : Choice idle start s s') (sliced : Sliced s) :
    Sliced s' := by
  have behind : ∀ t, s.core.chSchDoRescheduleBehind.p_preempt t ≤ CH_CFG_TIME_QUANTUM := by
    change ∀ t, Function.update s.core.dispatch.p_preempt _ _ t ≤ _
    rw [Core.p_preempt_dispatch]
    exact preempt_update sliced le_rfl
  have ahead : ∀ t, s.core.chSchDoRescheduleAhead.p_preempt t ≤ CH_CFG_TIME_QUANTUM := by
    change ∀ t, s.core.dispatch.p_preempt t ≤ _
    rw [Core.p_preempt_dispatch]
    exact sliced
  have sleeps : ∀ w t, (s.core.chSchGoSleepS w).p_preempt t ≤ CH_CFG_TIME_QUANTUM := by
    intro w
    unfold Core.chSchGoSleepS
    rw [Core.p_preempt_dispatch]
    exact preempt_update sliced le_rfl
  have wakes : ∀ t msg u, (s.core.chSchWakeupS t msg).p_preempt u ≤ CH_CFG_TIME_QUANTUM := by
    intro t msg
    unfold Core.chSchWakeupS
    dsimp only
    split <;> exact sliced
  cases choice with
  | sleep other off armed inside => exact sleeps _
  | sleepOn other place perm free armed inside => exact sleeps _
  | reschedule =>
      change ∀ t, s.core.chSchRescheduleS.p_preempt t ≤ _
      unfold Core.chSchRescheduleS
      split_ifs
      · exact ahead
      · exact sliced
  | yield =>
      change ∀ t, s.core.chSchDoYieldS.p_preempt t ≤ _
      unfold Core.chSchDoYieldS
      split_ifs
      · exact behind
      · exact sliced
  | epilogue =>
      change ∀ t, s.core.epilogue.p_preempt t ≤ _
      unfold Core.epilogue Core.chSchDoReschedule
      split_ifs
      · exact behind
      · exact ahead
      · exact sliced
  | wakeup msg ordered asleep off => exact wakes _ msg
  | wakeupOff msg ordered mem => exact wakes _ msg

/-- A ready thread stays so, its priority does not fall, and while it is the same the threads
before get no more. -/
structure Waiting (tp : T) (more : Nat) (s s' : Rt T O) : Prop where
  ready : s'.core.p_state tp = .READY
  le : s.prio tp ≤ s'.prio tp
  credit : s'.prio tp = s.prio tp → s'.core.credit tp ≤ s.core.credit tp + more

omit [DecidableEq O] in
theorem Waiting.trans {s'' : Rt T O} (first : Waiting tp n s s') (second : Waiting tp m s' s'') :
    Waiting tp (n + m) s s'' := by
  refine ⟨second.ready, first.le.trans second.le, fun same => ?_⟩
  have here : s'.prio tp = s.prio tp := le_antisymm (second.le.trans same.le) first.le
  have := first.credit here
  have := second.credit (same.trans here.symm)
  omega

omit [DecidableEq O] in
theorem mem_ready (inv : Inv idle s) (ready : s.core.p_state tp = .READY) : tp ∈ s.core.ready :=
  (inv.core.inv.mem_ready tp).mpr ready

theorem Waiting.raise (inv : Inv idle s) (ready : s.core.p_state tp = .READY) {t : T}
    (less : s.prio t < s.prio s.core.currp) : Waiting tp 0 s (s.raise s.core.currp t) := by
  have mem := mem_ready inv ready
  have current : t ≠ s.core.currp := by
    rintro rfl
    exact absurd less (lt_irrefl _)
  have le : s.prio tp ≤ (s.raise s.core.currp t).prio tp := by
    rw [raise_prio]
    by_cases same : tp = t
    · rw [same, Function.update_self]
      exact less.le
    · rw [Function.update_of_ne same]
  have away : s.core.p_state t ≠ .READY →
      (s.core.setPrio t (s.prio s.core.currp)).credit tp ≤ s.core.credit tp + 0 := by
    intro other
    have same : (s.core.setPrio t (s.prio s.core.currp)).credit tp = s.core.credit tp :=
      Core.credit_away rfl rfl (fun u differs => Function.update_of_ne differs _ _)
        (fun _ _ => rfl) (not_ready inv other) current mem
    exact same.le
  refine ⟨?_, le, fun same => ?_⟩
  · unfold Rt.raise Rt.requeue
    dsimp only
    split
    · exact ready
    · exact ready
    · change Function.update s.core.p_state t .READY tp = .READY
      by_cases same : tp = t
      · rw [same, Function.update_self]
      · rwa [Function.update_of_ne same]
    · exact ready
  · have differs : t ≠ tp := by
      rintro rfl
      rw [raise_prio, Function.update_self] at same
      exact absurd less (by rw [same]; exact lt_irrefl _)
    clear le same
    unfold Rt.raise Rt.requeue
    dsimp only
    split
    · rename_i mp state
      exact away (by rw [show s.core.p_state t = _ from state]; simp)
    · rename_i cp state
      exact away (by rw [show s.core.p_state t = _ from state]; simp)
    · rename_i state
      exact Core.credit_requeue inv.core.inv mem (mem_ready inv state) differs _
    · rename_i other
      exact away other

theorem Move.waiting (move : Move idle s s') (inv : Inv idle s)
    (ready : s.core.p_state tp = .READY) : Waiting tp 0 s s' := by
  have mem := mem_ready inv ready
  have woken : ∀ {t : T} (msg : Int), (msgReady msg s.core t).p_state tp = .READY := by
    intro t msg
    change Function.update s.core.p_state t .READY tp = .READY
    by_cases same : tp = t
    · rw [same, Function.update_self]
    · rwa [Function.update_of_ne same]
  have credit : ∀ {t : T} (msg : Int), (msgReady msg s.core t).credit tp = s.core.credit tp :=
    fun {t} msg => Core.credit_chSchReadyI (c := s.core.setMsg t msg) inv.core.inv.sorted mem t
  have awake : s.core.waiting tp = none := inv.core.inv.waiting_ready mem
  cases move with
  | aside core queue real timer pc =>
      have prio : s'.prio = s.prio := congrArg Core.p_prio core
      refine ⟨?_, (congrFun prio tp).ge, fun _ => ?_⟩
      · rwa [core]
      · rw [core]
        exact le_rfl
  | leave => exact ⟨ready, le_rfl, fun _ => le_rfl⟩
  | disarm tp => exact ⟨ready, le_rfl, fun _ => le_rfl⟩
  | tick =>
      refine ⟨?_, ?_, fun _ => Core.credit_tick_le s.core tp⟩
      · change s.core.tick.p_state tp = .READY
        unfold Core.tick
        split <;> exact ready
      · change s.core.p_prio tp ≤ s.core.tick.p_prio tp
        rw [Core.tick_p_prio]
  | wake msg asleep off => exact ⟨woken msg, le_rfl, fun _ => (credit msg).le⟩
  | wakeOff msg mem => exact ⟨woken msg, le_rfl, fun _ => (credit msg).le⟩
  | raise less => exact .raise inv ready less
  | @create t prio unused pos =>
      have differs : tp ≠ t := by
        rintro rfl
        exact unused.asleep.1 awake
      have off : t ∉ s.core.ready := fun there => unused.asleep.1 (inv.core.inv.waiting_ready there)
      have credit : (s.chThdCreateI t prio).core.credit tp = s.core.credit tp :=
        Core.credit_away rfl rfl (fun u other => Function.update_of_ne other _ _)
          (fun u other => Function.update_of_ne other _ _) off
          (inv.core.asleep_ne unused.asleep.1).symm mem
      have same : (s.chThdCreateI t prio).prio tp = s.prio tp := Function.update_of_ne differs _ _
      exact ⟨(Function.update_of_ne differs _ _).trans ready, same.ge, fun _ => credit.le⟩
  | receive =>
      unfold Rt.receive
      split
      · exact ⟨ready, le_rfl, fun _ => le_rfl⟩
      · rename_i t rest eq
        have differs : tp ≠ t := by
          rintro rfl
          refine inv.asleep (q := .msg s.core.currp) ?_ awake
          rw [eq]
          exact List.mem_cons_self
        exact ⟨(Function.update_of_ne differs _ _).trans ready, le_rfl, fun _ => le_rfl⟩

theorem Moves.waiting (moves : Moves idle n s s') (whole : Whole idle s) (sliced : Sliced s)
    (ready : s.core.p_state tp = .READY) : Waiting tp (CH_CFG_TIME_QUANTUM * n) s s' := by
  induction moves with
  | refl => exact ⟨ready, le_rfl, fun _ => Nat.le_add_right _ _⟩
  | tail moves move ih =>
      have first := ih whole sliced ready
      exact first.trans (move.waiting (moves.whole whole).inv first.ready)
  | @own n s s' moves p pos ih =>
      have first := ih whole sliced ready
      have inv := (moves.whole whole).inv
      have mem := mem_ready inv first.ready
      have self : tp ≠ s'.core.currp := by
        rintro rfl
        exact inv.core.inv.currp_not_ready mem
      have slice : s'.core.slice s'.core.currp ≤ CH_CFG_TIME_QUANTUM :=
        max_le (by decide) (moves.sliced sliced _)
      refine first.trans ⟨first.ready, (Function.update_of_ne self _ _).ge, fun _ => ?_⟩
      exact (Core.credit_setPrio inv.core.inv mem p).trans (Nat.add_le_add_left slice _)

theorem Choice.prio {start : Prop} (choice : Choice idle start s s') : s'.prio = s.prio := by
  cases choice with
  | sleep other off armed inside => exact Core.chSchGoSleepS_p_prio _ _
  | sleepOn other place perm free armed inside => exact Core.chSchGoSleepS_p_prio _ _
  | reschedule => exact Core.chSchRescheduleS_p_prio _
  | yield => exact Core.chSchDoYieldS_p_prio _
  | epilogue => exact Core.epilogue_p_prio _
  | wakeup msg ordered asleep off => exact Core.chSchWakeupS_p_prio _ _ _
  | wakeupOff msg ordered mem => exact Core.chSchWakeupS_p_prio _ _ _

theorem Choice.credit {start : Prop} (choice : Choice idle start s s') (strict : start)
    (inv : Inv idle s) (ready : s.core.p_state tp = .READY) (waits : s'.core.currp ≠ tp) :
    s'.core.credit tp ≤ s.core.credit tp := by
  have mem := mem_ready inv ready
  have sleeps : ∀ w, (s.core.chSchGoSleepS w).currp ≠ tp →
      (s.core.chSchGoSleepS w).credit tp ≤ s.core.credit tp := by
    intro w waits
    obtain ⟨first, rest, eq⟩ := List.exists_cons_of_ne_nil (List.ne_nil_of_mem mem)
    refine Core.credit_goSleep inv.core.inv eq ?_ w
    rintro rfl
    refine waits ?_
    unfold Core.chSchGoSleepS
    rw [Core.dispatch_cons (by exact eq)]
  cases choice with
  | sleep other off armed inside => exact sleeps _ waits
  | sleepOn other place perm free armed inside => exact sleeps _ waits
  | reschedule => exact Core.credit_reschedule inv.core.inv mem waits
  | yield => exact Core.credit_yield inv.core.inv mem waits
  | epilogue => exact Core.credit_epilogue inv.core.inv mem waits
  | wakeup msg ordered asleep off => exact Core.credit_wakeup inv.core.inv (ordered strict) mem _ msg
  | wakeupOff msg ordered there => exact Core.credit_wakeup inv.core.inv (ordered strict) mem _ msg

/-- A step at whose end a ready thread is ready still. -/
theorem Chain.credit (chain : Chain idle n s s') (whole : Whole idle s) (sliced : Sliced s)
    (strict : s.core.Ordered) (ready : s.core.p_state tp = .READY)
    (ready' : s'.core.p_state tp = .READY) (prio : s'.prio tp = s.prio tp) :
    s'.core.credit tp ≤ s.core.credit tp + CH_CFG_TIME_QUANTUM * n := by
  have whole' := chain.whole whole
  obtain ⟨s₁, moves, rfl | choice⟩ := chain
  · exact (moves.waiting whole sliced ready).credit prio
  · have first := moves.waiting whole sliced ready
    have inv := (moves.whole whole).inv
    have waits : s'.core.currp ≠ tp := by
      rintro rfl
      exact whole'.inv.core.inv.currp_not_ready (mem_ready whole'.inv ready')
    have second := choice.credit strict inv first.ready waits
    rw [choice.prio] at prio
    exact second.trans (first.credit prio)

theorem Chain.sliced (chain : Chain idle n s s') (sliced : Sliced s) : Sliced s' := by
  obtain ⟨s₁, moves, rfl | choice⟩ := chain
  · exact moves.sliced sliced
  · exact choice.sliced (moves.sliced sliced)

/-! ### The tick -/

/-- The running thread keeps its priority and gets no more of its slice. -/
structure Runs (s s' : Rt T O) : Prop where
  prio : s'.prio s'.core.currp = s.prio s.core.currp
  preempt : s'.core.p_preempt s'.core.currp ≤ s.core.p_preempt s.core.currp

theorem Move.runs (move : Move idle s s') (inv : Inv idle s) : Runs s s' := by
  have currp := move.currp
  have tick : s.core.tick.p_preempt s.core.currp ≤ s.core.p_preempt s.core.currp := by
    unfold Core.tick
    split
    · change Function.update s.core.p_preempt s.core.currp _ s.core.currp ≤ _
      rw [Function.update_self]
      exact Nat.sub_le _ 1
    · exact le_rfl
  cases move with
  | aside core queue real timer pc =>
      have prio : s'.prio = s.prio := congrArg Core.p_prio core
      exact ⟨by rw [prio, core], by rw [core]⟩
  | leave => exact ⟨rfl, le_rfl⟩
  | disarm tp => exact ⟨rfl, le_rfl⟩
  | tick =>
      refine ⟨?_, ?_⟩
      · rw [currp]
        change s.core.tick.p_prio _ = _
        rw [Core.tick_p_prio]
        rfl
      · rw [currp]
        exact tick
  | wake msg asleep off => exact ⟨rfl, le_rfl⟩
  | wakeOff msg mem => exact ⟨rfl, le_rfl⟩
  | @raise t less =>
      have other : s.core.currp ≠ t := by
        rintro rfl
        exact absurd less (lt_irrefl _)
      refine ⟨?_, ?_⟩
      · rw [currp, raise_prio, Function.update_of_ne other]
      · rw [currp]
        unfold Rt.raise Rt.requeue
        dsimp only
        split <;> exact le_rfl
  | create unused pos =>
      have other := inv.core.asleep_ne unused.asleep.1
      exact ⟨Function.update_of_ne other _ _, (Function.update_of_ne other _ _).le⟩
  | receive =>
      unfold Rt.receive
      split <;> exact ⟨rfl, le_rfl⟩

theorem Moves.runs (moves : Moves idle n s s') (none : n = 0) (whole : Whole idle s) :
    Runs s s' := by
  induction moves with
  | refl => exact ⟨rfl, le_rfl⟩
  | tail moves move ih =>
      have first := ih none whole
      have second := move.runs (moves.whole whole).inv
      exact ⟨second.prio.trans first.prio, second.preempt.trans first.preempt⟩
  | own moves pos ih => cases none

/-- An interrupt handler with a tick in it, while a thread of the same priority runs. -/
theorem credit_interrupt {a b : Rt T O} (whole : Whole idle s) (sliced : Sliced s)
    (ready : s.core.p_state tp = .READY) (before : Moves idle 0 s a)
    (after : Moves idle 0 { a with core := a.core.tick } b)
    (ready' : b.core.epilogue.p_state tp = .READY) (prio : b.prio tp = s.prio tp)
    (equal : s.prio s.core.currp = s.prio tp) :
    b.core.epilogue.credit tp + 1 ≤ s.core.credit tp := by
  have whole_a := before.whole whole
  have ticked : Move idle a { a with core := a.core.tick } := .tick a
  have whole_t := ticked.whole whole_a
  have whole_b := after.whole whole_t
  -- the priority of the waiting thread is the same all the time
  have to_a := before.waiting whole sliced ready
  have to_t := ticked.waiting whole_a.inv to_a.ready
  have to_b := after.waiting whole_t (ticked.sliced (before.sliced sliced)) to_t.ready
  have prio_t : Rt.prio { a with core := a.core.tick } tp = a.prio tp :=
    congrFun (Core.tick_p_prio a.core) tp
  have prio_a : a.prio tp = s.prio tp :=
    le_antisymm (prio_t.ge.trans (to_b.le.trans prio.le)) to_a.le
  have credit_a := to_a.credit prio_a
  have credit_b := to_b.credit (prio.trans (prio_t.trans prio_a).symm)
  have runs_a := before.runs rfl whole
  have runs_b := after.runs rfl whole_t
  have equal_a : a.core.p_prio a.core.currp = a.core.p_prio tp :=
    runs_a.prio.trans (equal.trans prio_a.symm)
  have waits : b.core.epilogue.currp ≠ tp := by
    have last : Choice idle True b { b with core := b.core.epilogue } := .epilogue b
    have inv := last.whole whole_b
    rintro rfl
    exact inv.inv.core.inv.currp_not_ready (mem_ready inv.inv ready')
  have mem_b := mem_ready whole_b.inv to_b.ready
  by_cases more : 1 < a.core.p_preempt a.core.currp
  · have less := Core.credit_tick_lt whole_a.inv.core.inv equal_a more
    have last := Core.credit_epilogue whole_b.inv.core.inv mem_b waits
    change b.core.credit tp ≤ a.core.tick.credit tp + _ at credit_b
    omega
  · -- the slice ends with the tick, or had ended before
    have ended : a.core.tick.p_preempt a.core.currp = 0 := by
      unfold Core.tick
      split
      · exact (Function.update_self _ _ _).trans (by omega)
      · omega
    have ended_b : b.core.p_preempt b.core.currp = 0 := by
      refine Nat.le_zero.mp (runs_b.preempt.trans ?_)
      change a.core.tick.p_preempt a.core.tick.currp ≤ 0
      rw [Core.tick_currp, ended]
    have equal_b : b.core.p_prio b.core.currp = b.core.p_prio tp := by
      have same : a.core.tick.p_prio a.core.tick.currp = a.core.p_prio a.core.currp := by
        rw [Core.tick_currp, Core.tick_p_prio]
      exact runs_b.prio.trans (same.trans (equal_a.trans (prio_a.trans prio.symm)))
    have less := Core.credit_epilogue_lt whole_b.inv.core.inv mem_b waits equal_b ended_b
    have kept := Core.credit_tick_le a.core tp
    change b.core.credit tp ≤ a.core.tick.credit tp + _ at credit_b
    omega

/-! ### Runs -/

/-- A run in which a thread is ready all the time, with one priority. Of the interrupts `ticks`
had a tick while a thread was running that is not above it, and `changes` times the running
thread may have changed its own priority. -/
inductive Waits [Fintype T] (idle tp : T) : (ticks changes : Nat) → Rt T O → Rt T O → Prop where
  | refl {s : Rt T O} (ready : s.core.p_state tp = .READY) : Waits idle tp 0 0 s s
  | step {k j : Nat} {s s' s'' : Rt T O} {c : Option (Call T O)} (waits : Waits idle tp k j s s')
      (careful : Careful c s') (step : Step idle c s' s'') (ready : s''.core.p_state tp = .READY)
      (prio : s''.prio tp = s'.prio tp) : Waits idle tp k (j + changes c) s s''
  | tick {k j : Nat} {s s' a b : Rt T O} (waits : Waits idle tp k j s s')
      (out : s'.pc s'.core.currp = .outside) (before : s'.Handles a)
      (after : Rt.Handles { a with core := a.core.tick } b)
      (low : s'.prio s'.core.currp ≤ s'.prio tp)
      (ready : b.core.epilogue.p_state tp = .READY) (prio : b.prio tp = s'.prio tp) :
      Waits idle tp (k + 1) j s { b with core := b.core.epilogue }

/-- What holds at every step of such a run. -/
structure Good (idle : T) (s : Rt T O) : Prop where
  whole : Whole idle s
  sliced : Sliced s
  strict : s.core.Ordered

theorem Good.step [Fintype T] {c : Option (Call T O)} (good : Good idle s) (careful : Careful c s)
    (step : Step idle c s s') : Good idle s' := by
  have chain := good.whole.step step
  have fine : Fine idle s := ⟨good.whole.inv, good.strict⟩
  exact ⟨chain.whole good.whole, chain.sliced good.sliced, (fine.step careful step).2⟩

/-- The end of a run, and what the threads before may still use there. -/
theorem Waits.bound [Fintype T] {k j : Nat} (waits : Waits idle tp k j s s')
    (good : Good idle s) :
    Good idle s' ∧ s'.core.p_state tp = .READY ∧
      k + s'.core.credit tp ≤ s.core.credit tp + CH_CFG_TIME_QUANTUM * j := by
  induction waits with
  | refl ready => exact ⟨good, ready, by omega⟩
  | @step k j s s' s'' c waits careful step ready prio ih =>
      obtain ⟨good', ready', le⟩ := ih good
      refine ⟨good'.step careful step, ready, ?_⟩
      have chain := good'.whole.step step
      have more := chain.credit good'.whole good'.sliced good'.strict ready' ready prio
      rw [Nat.mul_add]
      omega
  | @tick k j s s' a b waits out before after low ready prio ih =>
      obtain ⟨good', ready', le⟩ := ih good
      have before' := good'.whole.handles out before
      have ticked : Moves idle 0 a { a with core := a.core.tick } := (Move.tick a).one
      have whole := ticked.whole (before'.whole good'.whole)
      have out' : Rt.pc { a with core := a.core.tick } a.core.tick.currp = .outside := by
        rw [Core.tick_currp, before'.currp]
        exact before'.outside out
      have after' := whole.handles out' after
      have equal : s'.prio s'.core.currp = s'.prio tp := by
        have mem := mem_ready good'.whole.inv ready'
        have first := Core.le_firstprio good'.whole.inv.core.inv.sorted mem
        exact le_antisymm low (first.trans good'.strict)
      have less := credit_interrupt good'.whole good'.sliced ready' before' after' ready prio equal
      have handles : s'.Handles b :=
        (before.tail ⟨.tick, trivial, rfl⟩).trans after
      refine ⟨good'.step (c := none) (fun _ eq => absurd eq (by simp)) (.interrupt out handles), ready, ?_⟩
      change _ + b.core.epilogue.credit tp ≤ _
      omega

/-- Round robin. While a thread waits for its turn, the ticks that find a thread running which is
not above it are at most a time slice for each thread of its priority that runs or is ahead of it
when it starts to wait, and for each time the running thread may have changed its own priority. -/
theorem waits_for_slices [Fintype T] (idle tp : T) (s₀ s s' : Rt T O) (ticks changes : Nat)
    (start : Start idle s₀) (slices : ∀ t, s₀.core.p_preempt t ≤ CH_CFG_TIME_QUANTUM)
    (run : Relation.ReflTransGen (fun s s' => ∃ c, Careful c s ∧ Step idle c s s') s₀ s)
    (waits : Waits idle tp ticks changes s s') :
    ticks ≤ CH_CFG_TIME_QUANTUM * ((s.core.rivals tp).length + changes) := by
  have good : Good idle s := by
    clear waits
    induction run with
    | refl => exact ⟨start.whole, slices, start.ordered⟩
    | tail _ step ih =>
        obtain ⟨c, careful, step⟩ := step
        exact ih.step careful step
  have bound := (waits.bound good).2.2
  have credit : s.core.credit tp ≤ _ := Core.credit_le good.sliced
  rw [Nat.mul_add]
  omega

/-- The main thread and one that it started at its own priority, after a tick. -/
def sampleTicked : Rt (Fin 3) Unit :=
  { sampleStarted 128 with core := (sampleStarted 128).core.tick.epilogue }

theorem sampleTicked_waits :
    Waits 0 2 1 0 (sampleStarted 128) sampleTicked ∧
      1 ≤ CH_CFG_TIME_QUANTUM * (((sampleStarted 128).core.rivals 2).length + 0) := by
  have waits : Waits 0 2 1 0 (sampleStarted 128) sampleTicked :=
    .tick (.refl rfl) rfl .refl .refl (by decide) rfl rfl
  have created : Step 0 (some (.chThdCreateI 2 128)) sampleStart (sampleStart.chThdCreateI 2 128) :=
    .call _ rfl (by rintro ⟨⟩) ⟨.inl rfl, by decide⟩
  have started : Step 0 (some (.chThdStart 2)) (sampleStart.chThdCreateI 2 128)
      (sampleStarted 128) := .call _ rfl (by rintro ⟨⟩) rfl
  have first : Careful (some (.chThdCreateI 2 128)) sampleStart := fun _ eq => absurd eq (by simp)
  have second : Careful (some (.chThdStart 2)) (sampleStart.chThdCreateI 2 128) := by
    rintro tp ⟨⟩
    decide
  refine ⟨waits, waits_for_slices 0 2 sampleStart _ _ 1 0 sampleStart_start (fun _ => le_rfl) ?_ waits⟩
  exact (Relation.ReflTransGen.single ⟨_, first, created⟩).tail ⟨_, second, started⟩

end Rt

end LtcOs.Kernel
