import LtcOs.Kernel.Core

/-!
What the kernel does, as the objects threads wait for see it.

A semaphore, a queue or an event source does not look at the ready list. For it a step of
the kernel puts the current thread to sleep, wakes a thread with a message, or does
neither; which thread runs next is left open.
-/

namespace LtcOs.Kernel.Core

variable {T W : Type} {idle tp : T} {c c' : Core T W} {w : W} {msg : Int}

/-- The ready list is in order, and every priority is above `NOPRIO`. -/
structure Sound (idle : T) (c : Core T W) : Prop where
  inv : Inv idle c
  pos : ∀ t, NOPRIO < c.p_prio t

theorem Sound.of_inv (sound : Sound idle c) (inv : Inv idle c') (prio : c'.p_prio = c.p_prio) :
    Sound idle c' := by
  refine ⟨inv, ?_⟩
  intro t
  rw [prio]
  exact sound.pos t

variable [DecidableEq T]

/-- How often a thread has been put on the ready list by `chSchReadyI`. -/
def readied (c : Core T W) (t : T) : Nat := c.log.count (.readied t)

/-- No thread falls asleep and none wakes. -/
structure Quiet (idle : T) (c c' : Core T W) : Prop where
  sound : Sound idle c'
  waiting : c'.waiting = c.waiting
  rdymsg : c'.rdymsg = c.rdymsg
  readied : ∀ t, t ≠ c.currp → c'.readied t = c.readied t

/-- The thread `tp` wakes with the message `msg`: it goes on the ready list, or runs at
once. -/
structure Wakes (idle tp : T) (msg : Int) (c c' : Core T W) : Prop where
  sound : Sound idle c'
  waiting : c'.waiting = Function.update c.waiting tp none
  rdymsg : c'.rdymsg = Function.update c.rdymsg tp msg
  readied : ∀ t, t ≠ c.currp → t ≠ tp → c'.readied t = c.readied t
  woken : c'.readied tp = c.readied tp + if c'.currp = tp then 0 else 1

/-- The current thread falls asleep in the state `w`. -/
structure Sleeps (idle : T) (w : W) (c c' : Core T W) : Prop where
  sound : Sound idle c'
  waiting : c'.waiting = Function.update c.waiting c.currp (some w)
  rdymsg : c'.rdymsg = c.rdymsg
  readied : ∀ t, c'.readied t = c.readied t

/-! ### The operations -/

/-- What an interrupt handler on its way out and a thread do to the ready list while no
thread falls asleep or wakes. -/
inductive Switch (c : Core T W) : Core T W → Prop where
  | reschedule : Switch c c.chSchRescheduleS
  | yield : Switch c c.chSchDoYieldS
  | epilogue : Switch c c.epilogue

theorem readied_chSchReadyI_self (c : Core T W) (tp : T) :
    (c.chSchReadyI tp).readied tp = c.readied tp + 1 := by
  simp [readied, chSchReadyI]

theorem readied_chSchReadyI_of_ne {t : T} (c : Core T W) (other : t ≠ tp) :
    (c.chSchReadyI tp).readied t = c.readied t := by
  simp [readied, chSchReadyI, List.count_append, Ne.symm other]

theorem readied_dispatch (c : Core T W) (t : T) : c.dispatch.readied t = c.readied t := by
  unfold dispatch
  split
  · rfl
  · simp [readied, List.count_append]

theorem readied_behind {t : T} (c : Core T W) (other : t ≠ c.currp) :
    c.chSchDoRescheduleBehind.readied t = c.readied t := by
  rw [chSchDoRescheduleBehind, readied_chSchReadyI_of_ne _ other]
  exact readied_dispatch c t

theorem readied_ahead (c : Core T W) (t : T) : c.chSchDoRescheduleAhead.readied t = c.readied t :=
  readied_dispatch c t

theorem Sound.reschedule (sound : Sound idle c) : Quiet idle c c.chSchRescheduleS where
  sound := sound.of_inv sound.inv.chSchRescheduleS (by simp)
  waiting := sound.inv.waiting_chSchRescheduleS
  rdymsg := by simp
  readied t _ := by
    unfold chSchRescheduleS
    split
    · exact readied_ahead c t
    · rfl

theorem Sound.tick (sound : Sound idle c) : Quiet idle c c.tick where
  sound := sound.of_inv sound.inv.tick (by simp)
  waiting := waiting_tick c
  rdymsg := by simp
  readied t _ := by
    unfold Core.tick
    split <;> rfl

theorem Sound.yield (sound : Sound idle c) : Quiet idle c c.chSchDoYieldS where
  sound := sound.of_inv (sound.inv.chSchDoYieldS (sound.pos c.currp)) (by simp)
  waiting := sound.inv.waiting_chSchDoYieldS
  rdymsg := by simp
  readied t other := by
    unfold chSchDoYieldS
    split
    · exact readied_behind c other
    · rfl

theorem Sound.epilogue (sound : Sound idle c) : Quiet idle c c.epilogue where
  sound := sound.of_inv (sound.inv.epilogue (sound.pos c.currp)) (by simp)
  waiting := sound.inv.waiting_epilogue
  rdymsg := by simp
  readied t other := by
    unfold Core.epilogue chSchDoReschedule
    split_ifs
    · exact readied_behind c other
    · exact readied_ahead c t
    · rfl

theorem Sound.switch (sound : Sound idle c) (switch : Switch c c') : Quiet idle c c' := by
  cases switch with
  | reschedule => exact sound.reschedule
  | yield => exact sound.yield
  | epilogue => exact sound.epilogue

omit [DecidableEq T] in
/-- A thread that sleeps is not the current one. -/
theorem Sound.asleep_ne (sound : Sound idle c) (asleep : c.waiting tp ≠ none) : c.currp ≠ tp := by
  intro same
  rw [← same, sound.inv.waiting_currp] at asleep
  exact asleep rfl

/-- `chSchReadyI` after the message is set. -/
theorem Sound.setMsg_ready (sound : Sound idle c) (asleep : c.waiting tp ≠ none) (msg : Int) :
    Wakes idle tp msg c ((c.setMsg tp msg).chSchReadyI tp) where
  sound := sound.of_inv ((sound.inv.setMsg tp msg).chSchReadyI asleep) rfl
  waiting := by simp
  rdymsg := rfl
  readied t _ other := readied_chSchReadyI_of_ne _ other
  woken := by
    rw [chSchReadyI_currp, setMsg_currp, readied_chSchReadyI_self, if_neg (sound.asleep_ne asleep)]
    rfl

/-- `chSchReadyI` before the message is set. -/
theorem Sound.ready_setMsg (sound : Sound idle c) (asleep : c.waiting tp ≠ none) (msg : Int) :
    Wakes idle tp msg c ((c.chSchReadyI tp).setMsg tp msg) where
  sound := sound.of_inv ((sound.inv.chSchReadyI asleep).setMsg tp msg) rfl
  waiting := by simp
  rdymsg := rfl
  readied t _ other := readied_chSchReadyI_of_ne c other
  woken := by
    change (c.chSchReadyI tp).readied tp = _
    rw [setMsg_currp, chSchReadyI_currp, readied_chSchReadyI_self, if_neg (sound.asleep_ne asleep)]

theorem Sound.wakeup (sound : Sound idle c) (asleep : c.waiting tp ≠ none) (msg : Int) :
    Wakes idle tp msg c (c.chSchWakeupS tp msg) where
  sound := sound.of_inv (sound.inv.chSchWakeupS asleep msg) (by simp)
  waiting := sound.inv.waiting_chSchWakeupS tp msg
  rdymsg := by simp
  readied t current other := by
    unfold chSchWakeupS
    dsimp only
    split
    · exact readied_chSchReadyI_of_ne _ other
    · exact readied_chSchReadyI_of_ne (c.setMsg tp msg) current
  woken := by
    have ne := sound.asleep_ne asleep
    unfold chSchWakeupS
    dsimp only
    split
    · rw [chSchReadyI_currp, setMsg_currp, readied_chSchReadyI_self, if_neg ne]
      rfl
    · rw [if_pos rfl]
      exact readied_chSchReadyI_of_ne (c.setMsg tp msg) (Ne.symm ne)

theorem Sound.goSleep (sound : Sound idle c) (other : c.currp ≠ idle) (w : W) :
    Sleeps idle w c (c.chSchGoSleepS w) where
  sound := sound.of_inv (sound.inv.chSchGoSleepS other w) (by simp)
  waiting := sound.inv.waiting_chSchGoSleepS w
  rdymsg := by simp
  readied t := readied_dispatch _ t

/-- A thread that sleeps goes on to wait for something else. -/
theorem Sound.setWait (sound : Sound idle c) (asleep : c.waiting tp ≠ none) (w : W) :
    Sound idle (c.setState tp (.WAIT w)) := by
  have rest := sound.inv.without asleep
  have other : tp ≠ idle := by
    rintro rfl
    exact asleep sound.inv.awake
  have moved : Without idle tp (c.setState tp (.WAIT w)) := by
    refine ⟨rest.sorted, rest.nodup, rest.absent, rest.other, ?_, ?_, ?_⟩
    · intro t differs
      change t ∈ c.ready ↔ Function.update c.p_state tp _ t = _
      rw [Function.update_of_ne differs]
      exact rest.mem_ready t differs
    · intro t differs
      change Function.update c.p_state tp _ t = _ ↔ _
      rw [Function.update_of_ne differs]
      exact rest.current t differs
    · intro _
      rw [waiting_setState, Function.update_of_ne other.symm]
      exact sound.inv.awake
  exact sound.of_inv (moved.asleep (Function.update_self _ _ _) other) rfl

/-- The object of a thread that is not there, or at its end, is set up for a new one. -/
theorem Sound.init (sound : Sound idle c) (asleep : c.waiting tp ≠ none) {prio : Nat}
    (above : NOPRIO < prio) (w : W) (n : Nat) :
    Sound idle (((c.setPrio tp prio).setState tp (.WAIT w)).setPreempt tp n) ∧
      (((c.setPrio tp prio).setState tp (.WAIT w)).setPreempt tp n).waiting =
        Function.update c.waiting tp (some w) := by
  have off : tp ∉ c.ready := fun mem => asleep (sound.inv.waiting_ready mem)
  have set : (c.setPrio tp prio).Sound idle := by
    refine ⟨sound.inv.setPrio off prio, ?_⟩
    intro t
    change NOPRIO < Function.update c.p_prio tp prio t
    by_cases same : t = tp
    · rw [same, Function.update_self]
      exact above
    · rw [Function.update_of_ne same]
      exact sound.pos t
  have waits : ((c.setPrio tp prio).setState tp (.WAIT w)).Sound idle := set.setWait asleep w
  refine ⟨⟨waits.inv.setPreempt _ _, waits.pos⟩, ?_⟩
  rw [waiting_setPreempt, waiting_setState]
  rfl

end LtcOs.Kernel.Core
