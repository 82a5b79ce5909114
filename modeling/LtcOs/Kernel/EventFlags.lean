import LtcOs.Kernel.Events

/-!
The flags of event listeners.

A broadcast adds its flags to those that each listener of the source has not read yet, and signals
the thread of the listener if one of all these is among the flags that it waits for. So it depends
on the history what a broadcast does: `FlagRun` records the broadcasts, reads and registrations.
-/

namespace LtcOs.Kernel

open LtcOs.Mask

variable {T E L : Type}

/-- What is done to the flags: some are broadcast to the listeners that a source has then, a
listener is read, or it is registered. -/
inductive FlagEvent (L : Type) where
  | broadcast (listeners : List L) (flags : BitVec 32)
  | read (elp : L)
  | registered (elp : L)
deriving DecidableEq, Repr

def Listener.addFlags (l : Listener T) (flags : BitVec 32) : Listener T :=
  { l with el_flags := l.el_flags ||| flags }

namespace Events

section History

variable [DecidableEq L]

/-- What an event makes of the flags that were broadcast to a listener. -/
def sinceStep (elp : L) (since : List (BitVec 32)) : FlagEvent L → List (BitVec 32)
  | .broadcast listeners flags => if elp ∈ listeners then since ++ [flags] else since
  | .read other => if other = elp then [] else since
  | .registered other => if other = elp then [] else since

/-- The flags that were broadcast to a listener since it was read or registered. -/
def since (elp : L) (history : List (FlagEvent L)) : List (BitVec 32) :=
  history.foldl (sinceStep elp) []

theorem since_concat (elp : L) (history : List (FlagEvent L)) (e : FlagEvent L) :
    since elp (history ++ [e]) = sinceStep elp (since elp history) e := by
  rw [since, List.foldl_append]
  rfl

end History

/-! ### One broadcast -/

section Broadcast

variable [DecidableEq T] [DecidableEq L] {s s' : Events T E L} {elp : L} {flags : BitVec 32}

/-- The listener is signalled if there are no flags, or one of those it waits for is among them and
the ones it has not read. -/
def Told (unread : L → BitVec 32) (flags : BitVec 32) (el : L → Listener T) (elp : L) : Prop :=
  flags = 0 ∨ (unread elp ||| flags) &&& (el elp).el_wflags ≠ 0

instance (unread : L → BitVec 32) (flags : BitVec 32) (el : L → Listener T) :
    DecidablePred (Told unread flags el) := fun _ => inferInstanceAs (Decidable (_ ∨ _))

/-- The signals of a broadcast, one to each of these listeners. -/
def signals (unread : L → BitVec 32) (flags : BitVec 32) (el : L → Listener T)
    (listeners : List L) : List (EvEvent T) :=
  (listeners.filter fun elp => Told unread flags el elp).map fun elp =>
    .signalled (el elp).el_listener (el elp).el_events

omit [DecidableEq L] in
theorem chEvtSignalI_es_next (s : Events T E L) (tp : T) (events : BitVec 32) :
    (s.chEvtSignalI tp events).es_next = s.es_next := by
  simp only [chEvtSignalI]
  split_ifs <;> rfl

/-- The flags that the listener has by itself. -/
def own (s : Events T E L) (elp : L) : BitVec 32 := (s.el elp).el_flags

omit [DecidableEq T] [DecidableEq L] in
theorem signals_cons (unread : L → BitVec 32) (el : L → Listener T) (first : L) (rest : List L) :
    signals unread flags el (first :: rest) =
      signals unread flags el [first] ++ signals unread flags el rest := by
  rw [← List.singleton_append, signals, List.filter_append, List.map_append]
  rfl

omit [DecidableEq T] [DecidableEq L] in
/-- Flags added before are no others. -/
theorem signals_congr {unread unread' : L → BitVec 32} {el el' : L → Listener T}
    {listeners : List L}
    (same : ∀ elp ∈ listeners, unread' elp ||| flags = unread elp ||| flags)
    (el_same : ∀ elp ∈ listeners, ∃ new, el' elp = { el elp with el_flags := new }) :
    signals unread' flags el' listeners = signals unread flags el listeners := by
  have filtered : (listeners.filter fun elp => Told unread' flags el' elp) =
      listeners.filter fun elp => Told unread flags el elp := by
    apply List.filter_congr
    intro elp mem
    obtain ⟨new, eq⟩ := el_same elp mem
    apply decide_eq_decide.mpr
    rw [Told, Told, same elp mem, eq]
  rw [signals, filtered]
  apply List.map_congr_left
  intro elp mem
  obtain ⟨new, eq⟩ := el_same elp (List.mem_of_mem_filter mem)
  rw [eq]

theorem notify_log_eq (flags : BitVec 32) (s : Events T E L) (elp : L) :
    (s.notify flags elp).log = s.log ++ signals s.own flags s.el [elp] := by
  rw [signals, List.filter_singleton, notify]
  dsimp only
  split_ifs with told
  · have told : Told s.own flags s.el elp := told
    rw [decide_eq_true told]
    exact chEvtSignalI_log _ _ _
  · have untold : ¬ Told s.own flags s.el elp := told
    rw [decide_eq_false untold]
    exact (List.append_nil _).symm

/-- Each listener is notified by what it had before, however often it is found. -/
theorem broadcast_log_eq (flags : BitVec 32) (listeners : List L) (s : Events T E L) :
    (listeners.foldl (notify flags) s).log = s.log ++ signals s.own flags s.el listeners := by
  induction listeners generalizing s with
  | nil => exact (List.append_nil _).symm
  | cons first rest ih =>
      have later : signals (s.notify flags first).own flags (s.notify flags first).el rest =
          signals s.own flags s.el rest := by
        apply signals_congr
        · intro elp _
          simp only [own, notify_el_eq]
          by_cases same : elp = first
          · subst same
            rw [Function.update_self]
            exact or_or_self _ _
          · rw [Function.update_of_ne same]
        · exact fun elp _ => notify_el flags s first elp
      rw [List.foldl_cons, ih, later, notify_log_eq, List.append_assoc, ← signals_cons]

/-- Each listener gets the flags once, however often it is found. -/
theorem broadcast_el (flags : BitVec 32) (listeners : List L) (s : Events T E L) (elp : L) :
    (listeners.foldl (notify flags) s).el elp =
      if elp ∈ listeners then (s.el elp).addFlags flags else s.el elp := by
  induction listeners generalizing s with
  | nil => rfl
  | cons first rest ih =>
      rw [List.foldl_cons, ih, notify_el_eq]
      by_cases same : elp = first
      · subst same
        rw [Function.update_self, if_pos List.mem_cons_self]
        split_ifs
        · simp only [Listener.addFlags, or_or_self]
        · rfl
      · simp only [Function.update_of_ne same, List.mem_cons, same, false_or]

theorem notify_es_next (flags : BitVec 32) (s : Events T E L) (elp : L) :
    (s.notify flags elp).es_next = s.es_next := by
  unfold notify
  dsimp only
  split_ifs
  · exact chEvtSignalI_es_next _ _ _
  · rfl

theorem broadcast_es_next (flags : BitVec 32) (listeners : List L) (s : Events T E L) :
    (listeners.foldl (notify flags) s).es_next = s.es_next := by
  induction listeners generalizing s with
  | nil => rfl
  | cons first rest ih => rw [List.foldl_cons, ih, notify_es_next]

end Broadcast

/-! ### Runs with their history -/

section Runs

variable [DecidableEq T] [DecidableEq E] [DecidableEq L]

/-- A step with what it does to the flags. The steps that do nothing to them leave the listeners
and their lists as they are, or take one off its list. -/
inductive FlagStep (idle : T) : Events T E L → List (FlagEvent L) → Events T E L → Prop where
  | broadcastFlagsI {s : Events T E L} (esp : E) (flags : BitVec 32) (unlocked : s.Unlocked) :
      FlagStep idle s [.broadcast (s.es_next esp) flags] (s.chEvtBroadcastFlagsI esp flags)
  | broadcastFlags {s : Events T E L} (esp : E) (flags : BitVec 32) (running : s.Running) :
      FlagStep idle s [.broadcast (s.es_next esp) flags] (s.chEvtBroadcastFlags esp flags)
  | clearFlags {s : Events T E L} (elp : L) (running : s.Running) :
      FlagStep idle s [.read elp] (s.chEvtGetAndClearFlags elp).2
  | register {s : Events T E L} (esp : E) (elp : L) (events wflags : BitVec 32)
    (off : ∀ esp', elp ∉ s.es_next esp') (running : s.Running) :
      FlagStep idle s [.registered elp] (s.chEvtRegisterMaskWithFlags esp elp events wflags)
  | other {s s' : Events T E L} (step : Step idle s s') (el : s'.el = s.el)
    (es_next : ∀ esp, (s'.es_next esp).Sublist (s.es_next esp)) : FlagStep idle s [] s'

/-- The listeners on the lists have no flags at the start. -/
def FlagStart (s : Events T E L) : Prop :=
  ∀ esp, ∀ elp ∈ s.es_next esp, (s.el elp).el_flags = 0

inductive FlagRun (idle : T) (s₀ : Events T E L) : List (FlagEvent L) → Events T E L → Prop where
  | start : FlagRun idle s₀ [] s₀
  | step {history events : List (FlagEvent L)} {s s' : Events T E L}
    (run : FlagRun idle s₀ history s) (step : FlagStep idle s events s') :
      FlagRun idle s₀ (history ++ events) s'

variable {idle : T} {s s' s₀ : Events T E L} {elp : L} {history events : List (FlagEvent L)}

/-- The listener was on a list at the start, or has been registered. -/
def Known (s₀ : Events T E L) (history : List (FlagEvent L)) (elp : L) : Prop :=
  (∃ esp, elp ∈ s₀.es_next esp) ∨ .registered elp ∈ history

/-- The flags broadcast to a listener and not read. -/
def unread (history : List (FlagEvent L)) (elp : L) : BitVec 32 := union (since elp history)

structure FlagInv (s₀ : Events T E L) (history : List (FlagEvent L)) (s : Events T E L) : Prop where
  flags : ∀ elp, Known s₀ history elp → (s.el elp).el_flags = unread history elp
  known : ∀ esp, ∀ elp ∈ s.es_next esp, Known s₀ history elp

omit [DecidableEq T] [DecidableEq E] in
theorem FlagStart.inv (start : FlagStart s₀) : FlagInv s₀ [] s₀ := by
  constructor
  · rintro elp (⟨esp, mem⟩ | never)
    · exact start esp elp mem
    · exact absurd never List.not_mem_nil
  · exact fun esp elp mem => .inl ⟨esp, mem⟩

omit [DecidableEq T] [DecidableEq E] [DecidableEq L] in
/-- An event that is no registration makes no listener known. -/
theorem known_concat {e : FlagEvent L} (known : Known s₀ (history ++ [e]) elp) :
    Known s₀ history elp ∨ e = .registered elp := by
  rcases known with start | registered
  · exact .inl (.inl start)
  · rcases List.mem_append.mp registered with old | new
    · exact .inl (.inr old)
    · exact .inr (List.mem_singleton.mp new).symm

omit [DecidableEq T] [DecidableEq E] [DecidableEq L] in
theorem Known.concat (known : Known s₀ history elp) (e : FlagEvent L) :
    Known s₀ (history ++ [e]) elp :=
  known.imp_right fun registered => List.mem_append_left [e] registered

omit [DecidableEq E] in
theorem FlagInv.broadcast (inv : FlagInv s₀ history s) (esp : E) (flags : BitVec 32)
    (el : s'.el = (s.chEvtBroadcastFlagsI esp flags).el) (next : s'.es_next = s.es_next) :
    FlagInv s₀ (history ++ [.broadcast (s.es_next esp) flags]) s' := by
  constructor
  · intro elp known
    have known := (known_concat known).resolve_right (by simp)
    rw [el, chEvtBroadcastFlagsI, broadcast_el, unread, since_concat, sinceStep]
    split_ifs with listed
    · rw [union_concat]
      exact congrArg (· ||| flags) (inv.flags elp known)
    · exact inv.flags elp known
  · intro esp elp mem
    rw [next] at mem
    exact (inv.known esp elp mem).concat _

/-- A listener whose flags are cleared begins anew. -/
theorem unread_cleared {e : FlagEvent L} (clears : e = .read elp ∨ e = .registered elp) :
    unread (history ++ [e]) elp = 0 := by
  rw [unread, since_concat]
  rcases clears with rfl | rfl
  · rw [sinceStep, if_pos rfl]
    rfl
  · rw [sinceStep, if_pos rfl]
    rfl

/-- The others keep theirs. -/
theorem unread_kept {e : FlagEvent L} {other : L} (ne : other ≠ elp)
    (clears : e = .read other ∨ e = .registered other) :
    unread (history ++ [e]) elp = unread history elp := by
  rw [unread, since_concat]
  rcases clears with rfl | rfl
  · rw [sinceStep, if_neg ne]
    rfl
  · rw [sinceStep, if_neg ne]
    rfl

omit [DecidableEq T] [DecidableEq E] in
theorem FlagInv.clear (inv : FlagInv s₀ history s) (elp : L) :
    FlagInv s₀ (history ++ [.read elp]) (s.chEvtGetAndClearFlags elp).2 := by
  constructor
  · intro other known
    have known := (known_concat known).resolve_right (by simp)
    by_cases same : other = elp
    · subst same
      rw [unread_cleared (.inl rfl)]
      simp only [chEvtGetAndClearFlags, Function.update_self]
    · rw [unread_kept (Ne.symm same) (.inl rfl), ← inv.flags other known]
      simp only [chEvtGetAndClearFlags, Function.update_of_ne same]
  · exact fun esp other mem => (inv.known esp other mem).concat _

omit [DecidableEq T] in
theorem FlagInv.register (inv : FlagInv s₀ history s) (esp : E) (elp : L)
    (events wflags : BitVec 32) :
    FlagInv s₀ (history ++ [.registered elp])
      (s.chEvtRegisterMaskWithFlags esp elp events wflags) := by
  constructor
  · intro other known
    by_cases same : other = elp
    · subst same
      rw [unread_cleared (.inr rfl)]
      simp only [chEvtRegisterMaskWithFlags, Function.update_self]
    · have old := (known_concat known).resolve_right fun eq =>
        same (FlagEvent.registered.inj eq).symm
      rw [unread_kept (Ne.symm same) (.inr rfl), ← inv.flags other old]
      simp only [chEvtRegisterMaskWithFlags, Function.update_of_ne same]
  · intro esp' other mem
    have cases : other = elp ∨ other ∈ s.es_next esp' := by
      simp only [chEvtRegisterMaskWithFlags, Function.update_apply] at mem
      split_ifs at mem with here
      · rw [here]
        exact List.mem_cons.mp mem
      · exact .inr mem
    rcases cases with rfl | old
    · exact .inr (List.mem_append_right _ List.mem_cons_self)
    · exact (inv.known esp' other old).concat _

theorem FlagStep.inv (step : FlagStep idle s events s') (inv : FlagInv s₀ history s) :
    FlagInv s₀ (history ++ events) s' := by
  cases step with
  | broadcastFlagsI esp flags _ =>
      exact inv.broadcast esp flags rfl (broadcast_es_next _ _ _)
  | broadcastFlags esp flags _ =>
      exact inv.broadcast esp flags rfl (broadcast_es_next _ _ _)
  | clearFlags elp _ => exact inv.clear elp
  | register esp elp events wflags _ _ => exact inv.register esp elp events wflags
  | other _ el es_next =>
      rw [List.append_nil]
      constructor
      · intro elp known
        rw [el]
        exact inv.flags elp known
      · exact fun esp elp mem => inv.known esp elp ((es_next esp).subset mem)

theorem FlagRun.inv (run : FlagRun idle s₀ history s) (start : FlagStart s₀) :
    FlagInv s₀ history s := by
  induction run with
  | start => exact start.inv
  | step _ step ih => exact step.inv ih

/-! ### Every run has a history -/

/-- Nothing is done to the listeners. -/
def SameListeners (s s' : Events T E L) : Prop := s'.el = s.el ∧ s'.es_next = s.es_next

omit [DecidableEq E] [DecidableEq L] in
theorem sameListeners_signal (s : Events T E L) (tp : T) (events : BitVec 32) :
    SameListeners s (s.chEvtSignalI tp events) :=
  ⟨chEvtSignalI_el s tp events, chEvtSignalI_es_next s tp events⟩

omit [DecidableEq E] [DecidableEq L] in
theorem sameListeners_callback (s : Events T E L) (tp : T) : SameListeners s (s.callback tp) := by
  unfold callback wakeup
  split <;> exact ⟨rfl, rfl⟩

omit [DecidableEq E] [DecidableEq L] in
theorem sameListeners_untimed (s : Events T E L) (kind : EvKind) (events : BitVec 32) :
    SameListeners s (s.wait kind events).2 := by
  unfold Events.wait
  split_ifs <;> exact ⟨rfl, rfl⟩

omit [DecidableEq E] [DecidableEq L] in
theorem sameListeners_timed (s : Events T E L) (kind : EvKind) (events : BitVec 32)
    (time : Timeout) : SameListeners s (s.waitTimeout kind events time).2 := by
  unfold waitTimeout
  split_ifs <;> exact ⟨rfl, rfl⟩

omit [DecidableEq E] [DecidableEq L] in
theorem sameListeners_wait (wait : Wait s s') : SameListeners s s' := by
  cases wait with
  | one events => exact sameListeners_untimed s .one events
  | any events => exact sameListeners_untimed s .any events
  | all events => exact sameListeners_untimed s .all events
  | oneTimeout events time => exact sameListeners_timed s .one events time
  | anyTimeout events time => exact sameListeners_timed s .any events time
  | allTimeout events time => exact sameListeners_timed s .all events time

omit [DecidableEq E] [DecidableEq L] in
theorem sameListeners_resume (s : Events T E L) (call : EvCall) :
    SameListeners s (s.resume call).2 := by
  unfold resume
  dsimp only
  split_ifs <;> exact ⟨rfl, rfl⟩

theorem Step.same (step : Step idle s s') (same : SameListeners s s') :
    ∃ events, FlagStep idle s events s' :=
  ⟨[], .other step same.1 fun _ => same.2 ▸ List.Sublist.refl _⟩

theorem Step.flagStep (step : Step idle s s') : ∃ events, FlagStep idle s events s' := by
  have taken := step
  cases taken with
  | isr unlocked isr =>
      cases isr with
      | broadcastFlagsI esp flags => exact ⟨_, .broadcastFlagsI esp flags unlocked⟩
      | signalI tp events => exact step.same (sameListeners_signal s tp events)
      | callback tp fired => exact step.same (sameListeners_callback s tp)
      | expire | ready | tick => exact step.same ⟨rfl, rfl⟩
  | thread running thread =>
      cases thread with
      | broadcastFlags esp flags => exact ⟨_, .broadcastFlags esp flags running⟩
      | register esp elp events wflags off =>
          exact ⟨_, .register esp elp events wflags off running⟩
      | clearFlags elp => exact ⟨_, .clearFlags elp running⟩
      | unregister esp elp =>
          refine ⟨[], .other step rfl fun esp' => ?_⟩
          simp only [chEvtUnregister, Function.update_apply]
          split_ifs with here
          · rw [here]
            exact List.erase_sublist
          · exact List.Sublist.refl _
      | signal tp events => exact step.same (sameListeners_signal s tp events)
      | addEvents | clearEvents | sleep | wakeup | switch => exact step.same ⟨rfl, rfl⟩
  | wait _ _ wait => exact step.same (sameListeners_wait wait)
  | resume call => exact step.same (sameListeners_resume s call)

theorem exists_flagRun (run : Relation.ReflTransGen (Step idle) s₀ s) :
    ∃ history, FlagRun idle s₀ history s := by
  induction run with
  | refl => exact ⟨[], .start⟩
  | tail _ step ih =>
      obtain ⟨history, run⟩ := ih
      obtain ⟨events, labelled⟩ := step.flagStep
      exact ⟨history ++ events, run.step labelled⟩

/-! ### The filter -/

/-- A broadcast signals the listeners of the source that are told, in the order of the list. -/
def Signals (unread : L → BitVec 32) (s : Events T E L) : Prop :=
  ∀ esp flags,
    (s.chEvtBroadcastFlagsI esp flags).log = s.log ++ signals unread flags s.el (s.es_next esp) ∧
    (s.chEvtBroadcastFlags esp flags).log = s.log ++ signals unread flags s.el (s.es_next esp)

/-- The flags not read yet decide with the broadcast ones whom a broadcast signals, and they are
what a read returns. -/
structure Filtered (s₀ : Events T E L) (history : List (FlagEvent L)) (s : Events T E L) :
    Prop where
  signals : Signals (unread history) s
  read : ∀ elp, Known s₀ history elp → (s.chEvtGetAndClearFlags elp).1 = unread history elp

theorem flags_filtered (idle : T) (s₀ s : Events T E L) (history : List (FlagEvent L))
    (start : FlagStart s₀) (run : FlagRun idle s₀ history s) : Filtered s₀ history s := by
  have inv := run.inv start
  constructor
  · intro esp flags
    have same : signals s.own flags s.el (s.es_next esp) =
        signals (unread history) flags s.el (s.es_next esp) := by
      apply signals_congr
      · intro elp mem
        exact congrArg (· ||| flags) (inv.flags elp (inv.known esp elp mem))
      · exact fun elp _ => ⟨_, rfl⟩
    rw [← same]
    exact ⟨broadcast_log_eq flags _ s, broadcast_log_eq flags _ s⟩
  · exact inv.flags

end Runs

/-! ### An example -/

/-- A listener waits for one flag, which is broadcast. -/
def sampleTold : Events Bool Unit Unit :=
  (sampleStart.chEvtRegisterMaskWithFlags () () 4 1).chEvtBroadcastFlags () 1

theorem sampleTold_run :
    FlagRun false sampleStart [.registered (), .broadcast [()] 1] sampleTold := by
  have registered : FlagRun false sampleStart [.registered ()]
      (sampleStart.chEvtRegisterMaskWithFlags () () 4 1) :=
    FlagRun.step .start (.register () () 4 1 (by decide) ⟨rfl, rfl⟩)
  exact registered.step (.broadcastFlags () 1 ⟨rfl, rfl⟩)

theorem sampleStart_flags : FlagStart sampleStart := by
  intro esp elp mem
  exact absurd mem List.not_mem_nil

theorem sampleTold_filtered :
    Filtered sampleStart [.registered (), .broadcast [()] 1] sampleTold :=
  flags_filtered false sampleStart sampleTold _ sampleStart_flags sampleTold_run

/-- Before the listener reads its flag, a broadcast of another one signals it again: it is not the
flags of the broadcast alone that decide. -/
theorem sampleTold_again :
    FlagStart sampleStart ∧
      FlagRun false sampleStart [.registered (), .broadcast [()] 1] sampleTold ∧
      ¬ Signals (fun _ => 0) sampleTold := by
  refine ⟨sampleStart_flags, sampleTold_run, fun signals => ?_⟩
  have log := (signals () 2).1
  exact absurd log (by decide)

end Events

end LtcOs.Kernel
