import LtcOs.Kernel.Semaphore

/-!
Units of a semaphore that are granted and not used yet.

A thread that waited for a unit has been granted it when it is released, but it uses it
only when it runs. `supply` counts the units of a semaphore that are available or
granted; a signal adds one, and a unit used takes one away, whatever happens in between.
-/

namespace LtcOs.Kernel.Sems

variable {T S : Type}

variable [DecidableEq T] [DecidableEq S] {idle t tp : T} {sp sp' : S} {s s' : Sems T S}
  {units : S → Nat} {n : Nat} {log : List (SemEvent T S)}

/-! ### Threads granted a unit -/

/-- The threads released by a signal of `sp` that have not run since. -/
def granted (sp : S) (log : List (SemEvent T S)) : List T :=
  log.foldl (fun l e => match e with
    | .released tp sp' .signal => if sp' = sp then l ++ [tp] else l
    | .returned tp sp' _ => if sp' = sp then l.erase tp else l
    | _ => l) []

theorem granted_concat (sp : S) (log : List (SemEvent T S)) (e : SemEvent T S) :
    granted sp (log ++ [e]) = match e with
      | .released tp sp' .signal => if sp' = sp then granted sp log ++ [tp] else granted sp log
      | .returned tp sp' _ => if sp' = sp then (granted sp log).erase tp else granted sp log
      | _ => granted sp log := by
  rw [granted, List.foldl_append]
  rfl

/-- A history that breaks the rules for a thread is not mended. -/
theorem phase_broken (e : SemEvent T S) : (Phase.broken : Phase S).next t e = .broken := by
  cases e <;> simp [Phase.next]

theorem phase_prefix {e : SemEvent T S} (sound : phase t (log ++ [e]) ≠ .broken) :
    phase t log ≠ .broken := by
  intro broken
  rw [phase_concat, broken, phase_broken] at sound
  exact sound rfl

/-- A thread that enters a wait has not been granted a unit, before or after. -/
theorem released_iff_enter {e : SemEvent T S} {new : Phase S} (tp : T)
    (eq : ∀ t, (phase t log).next t e =
      if tp = t then (if phase t log = .outside then new else .broken) else phase t log)
    (other : new ≠ .released sp .signal) (sound : ∀ t, phase t (log ++ [e]) ≠ .broken) (t : T) :
    phase t (log ++ [e]) = .released sp .signal ↔ phase t log = .released sp .signal := by
  have now := sound t
  rw [phase_concat, eq] at now ⊢
  split_ifs at now ⊢ with same outside
  · rw [outside]
    simp [other]
  · exact absurd rfl now
  · rfl

/-- A thread that is released was on the queue. -/
theorem queued_of_released {cause : Cause}
    (now : phase tp (log ++ [.released tp sp' cause]) ≠ .broken) :
    phase tp log = .queued sp' := by
  rw [phase_concat] at now
  simp only [Phase.next, if_true] at now
  split_ifs at now with queued
  · exact queued
  · exact absurd rfl now

theorem released_iff_released {cause : Cause}
    (now : phase tp (log ++ [.released tp sp' cause]) ≠ .broken) :
    phase t (log ++ [.released tp sp' cause]) = .released sp .signal ↔
      (t = tp ∧ sp' = sp ∧ cause = .signal) ∨ phase t log = .released sp .signal := by
  have before := queued_of_released now
  rw [phase_concat]
  by_cases same : tp = t
  · subst same
    simp [Phase.next, before]
  · simp [Phase.next, same, Ne.symm same]

/-- A thread that returns after its sleep was released. -/
theorem released_of_returned {msg : Int} (now : phase tp (log ++ [.returned tp sp' msg]) ≠ .broken) :
    ∃ cause, phase tp log = .released sp' cause := by
  rw [phase_concat] at now
  simp only [Phase.next, if_true] at now
  split at now
  · next sp'' cause eq =>
      split_ifs at now with same
      · exact ⟨cause, same.1 ▸ eq⟩
      · exact absurd rfl now
  · exact absurd rfl now

theorem released_iff_returned {msg : Int} (now : phase tp (log ++ [.returned tp sp' msg]) ≠ .broken) :
    phase t (log ++ [.returned tp sp' msg]) = .released sp .signal ↔
      t ≠ tp ∧ phase t log = .released sp .signal := by
  obtain ⟨cause, before⟩ := released_of_returned now
  rw [phase_concat] at now ⊢
  by_cases same : tp = t
  · subst same
    simp only [Phase.next, if_true, before] at now ⊢
    split_ifs at now ⊢
    · simp
    · exact absurd rfl now
  · simp [Phase.next, same, Ne.symm same]

/-- The list of the granted threads is what the phases say. -/
theorem granted_spec (sound : ∀ t, phase t log ≠ .broken) (sp : S) :
    (granted sp log).Nodup ∧ ∀ t, t ∈ granted sp log ↔ phase t log = .released sp .signal := by
  induction log using List.reverseRecOn with
  | nil =>
      refine ⟨List.nodup_nil, ?_⟩
      intro t
      simp [granted, phase]
  | append_singleton log e ih =>
      obtain ⟨nodup, mem⟩ := ih fun t => phase_prefix (sound t)
      rw [granted_concat]
      cases e with
      | signal sp' => exact ⟨nodup, fun t => by rw [phase_concat]; exact mem t⟩
      | reset sp' n => exact ⟨nodup, fun t => by rw [phase_concat]; exact mem t⟩
      | passed tp sp' =>
          refine ⟨nodup, ?_⟩
          intro t
          exact (mem t).trans (released_iff_enter tp (fun _ => rfl) (by simp) sound t).symm
      | refused tp sp' =>
          refine ⟨nodup, ?_⟩
          intro t
          exact (mem t).trans (released_iff_enter tp (fun _ => rfl) (by simp) sound t).symm
      | queued tp sp' =>
          refine ⟨nodup, ?_⟩
          intro t
          exact (mem t).trans (released_iff_enter tp (fun _ => rfl) (by simp) sound t).symm
      | released tp sp' cause =>
          have fresh : tp ∉ granted sp log := by
            rw [mem, queued_of_released (sound tp)]
            simp
          simp only [released_iff_released (sound tp), ← mem]
          cases cause with
          | signal =>
              dsimp only
              split_ifs with here
              · refine ⟨List.nodup_append.mpr ⟨nodup, by simp, ?_⟩, ?_⟩
                · intro a there b last eq
                  rw [List.mem_singleton] at last
                  exact fresh (last ▸ eq ▸ there)
                · intro t
                  rw [List.mem_append, List.mem_singleton]
                  simp [here, or_comm]
              · refine ⟨nodup, ?_⟩
                intro t
                simp [here]
          | reset =>
              refine ⟨nodup, ?_⟩
              intro t
              simp
          | timer =>
              refine ⟨nodup, ?_⟩
              intro t
              simp
      | returned tp sp' msg =>
          simp only [released_iff_returned (sound tp), ← mem]
          split_ifs with here
          · refine ⟨nodup.erase tp, ?_⟩
            intro t
            rw [nodup.mem_erase_iff]
          · refine ⟨nodup, ?_⟩
            intro t
            constructor
            · intro there
              refine ⟨?_, there⟩
              rintro rfl
              obtain ⟨cause, before⟩ := released_of_returned (sound t)
              rw [mem, before] at there
              exact here (Phase.released.inj there).1
            · exact And.right

theorem Base.phase_ne_broken (base : Base idle s) (t : T) : phase t s.log ≠ .broken := by
  intro broken
  have holds := base.holds t
  rw [broken] at holds
  exact holds

/-- A granted thread is awake in its wait, with `MSG_OK`. -/
theorem Base.mem_granted (base : Base idle s) :
    t ∈ granted sp s.log ↔
      s.pc t = some sp ∧ s.core.waiting t = none ∧ s.core.rdymsg t = MSG_OK := by
  rw [(granted_spec base.phase_ne_broken sp).2]
  have holds := base.holds t
  cases eq : phase t s.log with
  | outside =>
      rw [eq] at holds
      simp [holds.1]
  | queued sp' =>
      rw [eq] at holds
      simp [holds.2]
  | released sp' cause =>
      rw [eq] at holds
      rw [holds.1, holds.2.1, holds.2.2]
      cases cause <;> simp [Cause.msg, MSG_OK, MSG_RESET, MSG_TIMEOUT]
  | broken => exact absurd eq (base.phase_ne_broken t)

theorem Base.granted_nodup (base : Base idle s) (sp : S) : (granted sp s.log).Nodup :=
  (granted_spec base.phase_ne_broken sp).1

/-! ### Supply -/

/-- The units of `sp` that are available or granted. -/
def supply (n : Nat) (sp : S) (log : List (SemEvent T S)) : Int :=
  account n sp log + (granted sp log).length

/-- No unit is lost on the way from the signal to the thread. -/
theorem supply_released (tp : T) (sp' : S) (cause : Cause) :
    supply n sp (log ++ [.released tp sp' cause]) = supply n sp log := by
  unfold supply
  rw [account_concat, granted_concat]
  cases cause with
  | signal =>
      simp only [credit]
      split_ifs
      · rw [List.length_append, List.length_singleton]
        push_cast
        omega
      · rfl
  | reset => rfl
  | timer => rfl

theorem supply_signal (sp' : S) :
    supply n sp (log ++ [.signal sp']) = supply n sp log + if sp' = sp then 1 else 0 := by
  unfold supply
  rw [account_concat, granted_concat]
  simp only [credit]
  split_ifs
  · omega
  · omega

theorem supply_passed (tp : T) (sp' : S) :
    supply n sp (log ++ [.passed tp sp']) = supply n sp log - if sp' = sp then 1 else 0 := by
  unfold supply
  rw [account_concat, granted_concat]
  simp only [credit]
  split_ifs
  · omega
  · omega

/-- A thread that returns uses the unit it was granted. -/
theorem supply_returned (tp : T) (sp' : S) (msg : Int) :
    supply n sp (log ++ [.returned tp sp' msg]) =
      supply n sp log - if sp' = sp ∧ tp ∈ granted sp log then 1 else 0 := by
  unfold supply
  rw [account_concat, granted_concat]
  simp only [credit]
  by_cases here : sp' = sp
  · rw [if_pos here]
    by_cases mem : tp ∈ granted sp log
    · have length := List.length_erase_of_mem mem
      have pos := List.length_pos_of_mem mem
      rw [if_pos ⟨here, mem⟩, length]
      omega
    · rw [if_neg (fun both => mem both.2), List.erase_of_not_mem mem]
      omega
  · rw [if_neg here, if_neg (fun both => here both.1)]
    omega

theorem supply_signalWith (wake : Core T (SemWait S) → T → Core T (SemWait S)) (s : Sems T S)
    (sp' : S) :
    supply n sp (s.signalWith wake sp').log = supply n sp s.log + if sp' = sp then 1 else 0 := by
  have given : supply n sp (s.give sp').log = supply n sp s.log + if sp' = sp then 1 else 0 := supply_signal sp'
  simp only [signalWith]
  split
  · split
    · exact given
    · exact (supply_released _ _ _).trans given
  · exact given

/-- The counter and the threads granted a unit make up the supply. -/
theorem Inv.supply_eq (inv : Inv idle units s) (sp : S) :
    supply (units sp) sp s.log = max 0 (s.s_cnt sp) + (granted sp s.log).length := by
  have length := (inv.counted sp).length
  have balance := (inv.counted sp).balance
  unfold supply
  omega

theorem Inv.supply_nonneg (inv : Inv idle units s) (sp : S) : 0 ≤ supply (units sp) sp s.log := by
  rw [inv.supply_eq]
  omega

/-- A wait uses a unit if it ends at once with `MSG_OK`. -/
theorem supply_wait (sp' : S) (time : Timeout) :
    supply n sp (s.chSemWaitTimeoutS sp' time).2.log =
      supply n sp s.log - if (s.chSemWaitTimeoutS sp' time).1 = some MSG_OK ∧ sp' = sp then 1 else 0 := by
  unfold chSemWaitTimeoutS
  dsimp only
  split
  · split
    · rw [if_neg (by simp [MSG_TIMEOUT, MSG_OK])]
      unfold supply
      simp only [take, account_concat, granted_concat, credit]
      omega
    · rw [if_neg (by simp)]
      unfold supply
      simp only [sleepOn, take, account_concat, granted_concat, credit]
      omega
  · refine (supply_passed _ _).trans ?_
    simp only [true_and]
    rfl

/-- The loop of a reset releases threads. -/
theorem supply_resetLoop (sp' : S) (rounds : Nat) (s : Sems T S) :
    supply n sp (resetLoop sp' rounds s).log = supply n sp s.log := by
  induction rounds generalizing s with
  | zero => rfl
  | succ rounds ih =>
      unfold resetLoop
      split
      · rfl
      · exact (ih _).trans (supply_released _ _ _)

/-- After a reset the units that were granted are still granted. -/
theorem supply_chSemResetI (sp' : S) (m : Nat) (s : Sems T S) :
    supply n sp (s.chSemResetI sp' m).log =
      if sp' = sp then (m : Int) + (granted sp s.log).length else supply n sp s.log := by
  unfold chSemResetI
  dsimp only
  rw [supply_resetLoop]
  unfold supply
  rw [account_concat, granted_concat]
  simp only [credit]
  split_ifs <;> rfl

theorem granted_resetLoop (sp' : S) (rounds : Nat) (s : Sems T S) :
    granted sp (resetLoop sp' rounds s).log = granted sp s.log := by
  induction rounds generalizing s with
  | zero => rfl
  | succ rounds ih =>
      unfold resetLoop
      split
      · rfl
      · refine (ih _).trans ?_
        rw [granted_concat]

theorem granted_chSemResetI (sp' : S) (m : Nat) (s : Sems T S) :
    granted sp (s.chSemResetI sp' m).log = granted sp s.log := by
  unfold chSemResetI
  dsimp only
  rw [granted_resetLoop, granted_concat]

theorem supply_isr (isr : Isr s s') : supply n sp s'.log = supply n sp s.log := by
  cases isr with
  | callback tp fired =>
      change supply n sp (s.wakeup tp).log = supply n sp s.log
      unfold wakeup
      split
      · rfl
      · exact supply_released _ _ _
      · rfl
  | _ => rfl

theorem supply_thread (thread : Thread idle s s') : supply n sp s'.log = supply n sp s.log := by
  cases thread <;> rfl

end LtcOs.Kernel.Sems
