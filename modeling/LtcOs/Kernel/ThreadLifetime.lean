import LtcOs.Kernel.ThreadRefs

/-!
Dynamic thread lifetime.

The working area of a thread from the heap is freed once, by the call that releases the last
reference after the exit. At that time the thread is on no list, and `chThdWait` has read its
exit code.
-/

namespace LtcOs.Kernel.Threads

open LtcOs.Lifetime
open LtcOs.Linked
open LtcOs.Waiting

variable {T : Type} [DecidableEq T] {idle : T} {s s' : Threads T} {l l' : Ledger T T Int}

/-! ### Exit -/

/-- Who sleeps after the exit of the current thread. -/
theorem Inv.exit_core (inv : Inv idle s l) (other : s.core.currp ≠ idle) :
    let c := (readyAll s.core (s.p_waiting s.core.currp)).chSchGoSleepS ThdWait.FINAL
    c.Sound idle ∧ ∀ t, c.waiting t =
      if t = s.core.currp then some .FINAL
      else if t ∈ s.p_waiting s.core.currp then none else s.core.waiting t := by
  have asleep : ∀ t ∈ s.p_waiting s.core.currp, s.core.waiting t ≠ none := by
    intro t mem
    rw [((inv.sleepers _ _).mp mem).2]
    simp
  obtain ⟨sound, currp, waiting⟩ := readyAll_spec inv.core (inv.nodup s.core.currp) asleep
  have sleeps := sound.goSleep (by rw [currp]; exact other) ThdWait.FINAL
  refine ⟨sleeps.sound, ?_⟩
  intro t
  rw [sleeps.waiting, currp]
  by_cases same : t = s.core.currp
  · rw [same, Function.update_self, if_pos rfl]
  · rw [Function.update_of_ne same, if_neg same, waiting]

theorem Inv.exit_registry (inv : Inv idle s l) (msg : Int) :
    ∃ reg : List T, Ring (s.chThdExitS msg).links none (reg.map some) ∧
      ∀ t, t ∈ reg ↔ if t = s.core.currp then (l.obj t).collected = true else listed (l.obj t) = true := by
  obtain ⟨reg, ring, mem⟩ := inv.registry
  have running := inv.current_running
  have here : s.core.currp ∈ reg := by
    rw [mem, listed, running]
  have flags := ((inv.obj _).running running).1.flags
  rw [Threads.chThdExitS]
  dsimp only
  cases collected : (l.obj s.core.currp).collected with
  | true =>
      rw [collected] at flags
      rw [if_neg (by rw [flags]; simp)]
      refine ⟨reg, ring, ?_⟩
      intro t
      by_cases same : t = s.core.currp
      · rw [if_pos same, same, collected]
        simp [here]
      · rw [if_neg same, mem]
  | false =>
      rw [collected] at flags
      rw [if_pos (by rw [flags]; simp)]
      obtain ⟨rest, ring, -, mem_rest⟩ := registry_remove ring here
      refine ⟨rest, ring, ?_⟩
      intro t
      rw [mem_rest]
      by_cases same : t = s.core.currp
      · rw [if_pos same, same, collected]
        simp
      · rw [if_neg same, mem]
        simp [same]

/-- A thread in `chThdWait` waits for one thread. -/
theorem Inv.awaited (inv : Inv idle s l) {t q tp : T} (eq : s.pc t = .waiting q)
    (mem : t ∈ s.p_waiting tp) : q = tp := by
  obtain ⟨same, -⟩ := (inv.sleepers _ _).mp mem
  rw [eq] at same
  cases same
  rfl

/-- The object of a thread that has exited. -/
def atEnd (l : Ledger T T Int) (tp : T) (msg : Int) : Obj Int :=
  ⟨.exited msg, (l.obj tp).refs, (l.obj tp).collected⟩

omit [DecidableEq T] in
/-- A thread in a call is not the current one, which is outside. -/
theorem busy_ne (out : s.pc s.core.currp = .outside) {t : T} (inside : s.pc t ≠ .outside) :
    t ≠ s.core.currp := by
  rintro rfl
  exact inside out

theorem Inv.exit_obj (inv : Inv idle s l) (other : s.core.currp ≠ idle) (msg : Int) (t : T) :
    Matches (s.chThdExitS msg) t
      ((l.set s.core.currp (atEnd l s.core.currp msg)).obj t) := by
  have running := inv.current_running
  have here := (inv.exit_core other).2 t
  by_cases same : t = s.core.currp
  · rw [if_pos same] at here
    subst same
    obtain ⟨⟨area, flags, refs⟩, -⟩ := (inv.obj _).running running
    rw [Ledger.set_self, Matches]
    exact ⟨⟨area, flags, refs⟩, here, Function.update_self _ _ _⟩
  · rw [if_neg same] at here
    rw [l.set_of_ne same]
    by_cases mem : t ∈ s.p_waiting s.core.currp
    · rw [if_pos mem] at here
      have inside : (l.obj t).life = .running := by
        apply inv.inside
        rw [((inv.sleepers _ _).mp mem).1]
        simp
      obtain ⟨⟨area, flags, refs⟩, -⟩ := (inv.obj t).running inside
      rw [Matches, inside]
      refine ⟨⟨area, flags, refs⟩, ?_, ?_⟩
      · intro eq
        cases here.symm.trans eq
      · intro eq
        cases here.symm.trans eq
    · rw [if_neg mem] at here
      exact (inv.obj t).congr rfl rfl rfl (Function.update_of_ne same _ _) here

/-- Nobody sleeps in `chThdWait` for a thread that has exited. -/
theorem Inv.exit_sleepers (inv : Inv idle s l) (out : s.pc s.core.currp = .outside)
    (other : s.core.currp ≠ idle) (msg : Int) (q t : T) :
    t ∈ (s.chThdExitS msg).p_waiting q ↔
      s.pc t = .waiting q ∧ (s.chThdExitS msg).core.waiting t = some .WTEXIT := by
  have waiting : (s.chThdExitS msg).core.waiting t = _ := (inv.exit_core other).2 t
  change t ∈ Function.update s.p_waiting s.core.currp [] q ↔ _
  rw [waiting]
  by_cases target : q = s.core.currp
  · rw [target, Function.update_self]
    refine iff_of_false List.not_mem_nil ?_
    rintro ⟨eq, asleep⟩
    rw [if_neg (busy_ne out (by rw [eq]; simp))] at asleep
    by_cases mem : t ∈ s.p_waiting s.core.currp
    · rw [if_pos mem] at asleep
      cases asleep
    · rw [if_neg mem] at asleep
      exact mem ((inv.sleepers _ _).mpr ⟨eq, asleep⟩)
  · rw [Function.update_of_ne target, inv.sleepers]
    apply and_congr_right
    intro eq
    have absent : t ∉ s.p_waiting s.core.currp := fun mem => target (inv.awaited eq mem)
    rw [if_neg (busy_ne out (by rw [eq]; simp)), if_neg absent]

/-- Who was in `chThdWait` for the thread is awake. -/
theorem Inv.exit_waits (inv : Inv idle s l) (out : s.pc s.core.currp = .outside)
    (other : s.core.currp ≠ idle) (msg : Int) {t q : T} (eq : s.pc t = .waiting q) :
    Waits (s.chThdExitS msg) (l.set s.core.currp (atEnd l s.core.currp msg)) t q := by
  have running := inv.current_running
  have here : (s.chThdExitS msg).core.waiting t = _ := (inv.exit_core other).2 t
  rw [if_neg (busy_ne out (by rw [eq]; simp))] at here
  rw [Waits, here]
  by_cases target : q = s.core.currp
  · subst target
    have mem : t ∈ s.p_waiting s.core.currp := by
      rcases inv.waits t _ eq with ⟨asleep, -⟩ | ⟨-, code, life⟩
      · exact (inv.sleepers _ _).mpr ⟨eq, asleep⟩
      · rw [running] at life
        cases life
    refine .inr ⟨if_pos mem, msg, ?_⟩
    rw [Ledger.set_self, atEnd]
  · have absent : t ∉ s.p_waiting s.core.currp := fun mem => target (inv.awaited eq mem)
    rw [if_neg absent, l.set_of_ne target]
    exact inv.waits t q eq

theorem Inv.exit (inv : Inv idle s l) {msg : Int} (out : s.pc s.core.currp = .outside)
    (other : s.core.currp ≠ idle) :
    Goes idle l s (s.chThdExitS msg) := by
  have running := inv.current_running
  obtain ⟨reg, ring, mem⟩ := inv.exit_registry msg
  refine goes_one rfl (if_pos running)
    { core := (inv.exit_core other).1
      obj := inv.exit_obj other msg
      got := inv.got
      inside := ?inside
      refs := ?refs
      sleepers := inv.exit_sleepers out other msg
      nodup := ?nodup
      waits := fun t q eq => inv.exit_waits out other msg eq
      freeing := ?freeing
      doomed := ?doomed
      registry := ?registry }
  case inside =>
    intro t inside
    rw [l.set_of_ne (busy_ne out inside)]
    exact inv.inside t inside
  case refs =>
    obtain ⟨owners, queued, refs⟩ := inv.refs
    refine ⟨owners, queued, ?_⟩
    intro t
    refine Eq.trans ?_ (refs t)
    by_cases same : t = s.core.currp
    · rw [same, Ledger.set_self]
    · rw [l.set_of_ne same]
  case nodup =>
    intro q
    change (Function.update s.p_waiting s.core.currp [] q).Nodup
    by_cases target : q = s.core.currp
    · rw [target, Function.update_self]
      exact List.nodup_nil
    · rw [Function.update_of_ne target]
      exact inv.nodup q
  case freeing =>
    intro t q m eq
    have doomed := inv.freeing t q m eq
    rw [l.set_of_ne]
    · exact doomed
    · rintro rfl
      rw [running] at doomed
      cases doomed
  case doomed =>
    intro q doomed
    have target : q ≠ s.core.currp := by
      rintro rfl
      rw [Ledger.set_self] at doomed
      cases doomed
    rw [l.set_of_ne target] at doomed
    exact inv.doomed q doomed
  case registry =>
    refine ⟨reg, ring, ?_⟩
    intro t
    rw [mem]
    by_cases same : t = s.core.currp
    · rw [if_pos same, same, Ledger.set_self, listed]
    · rw [if_neg same, l.set_of_ne same]

/-! ### Iteration -/

/-- The iteration is not at a static thread that has exited. Such a thread is in no list any
more, and its links are those it had at its exit. -/
def Anchored (s : Threads T) : Prop :=
  ∀ tp, s.cursor = some tp → s.p_flags tp = .STATIC → s.core.p_state tp ≠ .WAIT .FINAL

theorem Inv.listed_cursor (inv : Inv idle s l) {tp : T} (here : s.cursor = some tp)
    (anchored : s.Anchored) :
    listed (l.obj tp) = true := by
  obtain ⟨owners, -, refs⟩ := inv.refs
  have pos : 0 < (l.obj tp).refs := by
    rw [refs, total, if_pos here]
    omega
  obtain ⟨known, ⟨running, -⟩ | ⟨exited, final⟩⟩ := (inv.obj tp).of_refs pos
  · rw [listed, running]
  · rw [listed, exited]
    dsimp only
    by_contra static
    rw [Bool.not_eq_true] at static
    have flags := known.flags
    rw [static] at flags
    exact anchored tp here flags (Core.waiting_eq_some.mp final)

/-- The threads of the registry can be used. -/
theorem present_of_listed {o : Obj Int} (here : listed o = true) : o.present = true := by
  cases life : o.life with
  | absent => simp [listed, life] at here
  | running => exact present_of_running life
  | exited code => exact present_of_exited life
  | doomed => simp [listed, life] at here

omit [DecidableEq T] in
/-- The link of a node of the registry leads to a thread of the registry or back to the
header. -/
theorem next_listed {links : Links (Option T)} {reg : List T} {node : Option T} {tp : T}
    (ring : Ring links none (reg.map some)) (here : node ∈ none :: reg.map some)
    (next : links.next node = some tp) :
    tp ∈ reg := by
  have mem : links.next node ∈ (none :: reg.map some).map links.next := List.mem_map_of_mem here
  rw [ring.next, next] at mem
  simpa using mem

theorem Inv.first (inv : Inv idle s l) (out : s.pc s.core.currp = .outside)
    (ended : s.cursor = none) (few : ∀ tp, s.links.next none = some tp → (s.p_refs tp).toNat < 255) :
    Goes idle l s s.chRegFirstThread.noteVisit := by
  obtain ⟨owners, queued, refs⟩ := inv.refs
  unfold Threads.chRegFirstThread
  cases next : s.links.next none with
  | none =>
      have same : (s.visit none).noteVisit = s := by
        change { s with cursor := none } = s
        rw [← ended]
      rw [same]
      exact goes_none rfl inv
  | some tp =>
      obtain ⟨reg, ring, mem⟩ := inv.registry
      have present := present_of_listed ((mem tp).mp (next_listed ring List.mem_cons_self next))
      have pc : (s.visit (some tp)).pc = Function.update s.pc s.core.currp .outside := by
        rw [← out, Function.update_eq_self]
        rfl
      refine goes_one rfl (next_retained present)
        (inv.retain present (few tp next) ⟨rfl, rfl, rfl, rfl, rfl, rfl⟩ rfl pc ?_ ?_ ?_ ?_ ?_)
      · simp
      · simp [out]
      · simp
      · rw [out]
      · refine ⟨owners, queued, ?_⟩
        intro t
        rw [refs, total, total, ended]
        change s.held t + (owners t).length + (if some tp = some t then 1 else 0) = _
        simp only [Option.some.injEq, eq_comm, reduceCtorEq, if_false, add_zero]

theorem Inv.next (inv : Inv idle s l) {tp : T} (out : s.pc s.core.currp = .outside)
    (here : s.cursor = some tp) (anchored : s.Anchored)
    (few : ∀ ntp, s.links.next (some tp) = some ntp → (s.p_refs ntp).toNat < 255) :
    Goes idle l s (s.chRegNextThread tp).noteVisit := by
  obtain ⟨owners, queued, refs⟩ := inv.refs
  have arrived : Queued none (owns ∘ Function.update s.pc s.core.currp (.releasing tp none))
      (Function.update owners tp (s.core.currp :: owners tp)) :=
        owners_arrive queued (by rw [out]; rfl) rfl
  -- The reference of the iteration to the thread it was at is counted with the call.
  have moved : ∀ t, (Function.update owners tp (s.core.currp :: owners tp) t).length =
      (owners t).length + if some tp = some t then 1 else 0 := by
    intro t
    by_cases same : t = tp
    · rw [same, Function.update_self, if_pos rfl, List.length_cons]
    · rw [Function.update_of_ne same, if_neg (by simpa using Ne.symm same)]
      rfl
  unfold Threads.chRegNextThread
  cases next : s.links.next (some tp) with
  | none =>
      refine goes_none rfl (inv.recount rfl rfl rfl rfl ?_ ?_ ?_ ?_ ?_ ?_ ?_ ⟨_, arrived, ?_⟩)
      · simp
      · simp [out]
      · simp
      · intro t
        rfl
      · intro t
        rfl
      · intro t
        exact (inv.obj t).congr rfl rfl rfl rfl rfl
      · apply (Function.update_eq_self_iff.mpr _).symm
        rw [inv.got]
        change none = result (s.pc s.core.currp)
        rw [out]
        rfl
      · intro t
        rw [refs, total, total, here, moved]
        change _ = s.held t + _ + if (none : Option T) = some t then 1 else 0
        simp only [reduceCtorEq, if_false]
        omega
  | some ntp =>
      obtain ⟨reg, ring, mem⟩ := inv.registry
      have inside : some tp ∈ none :: reg.map some := by
        have there := (mem tp).mpr (inv.listed_cursor here anchored)
        simpa using there
      have present := present_of_listed ((mem ntp).mp (next_listed ring inside next))
      refine goes_one rfl (next_retained present)
        (inv.retain present (few ntp next) ⟨rfl, rfl, rfl, rfl, rfl, rfl⟩ rfl rfl ?_ ?_ ?_ ?_
          ⟨_, arrived, ?_⟩)
      · simp
      · simp [out]
      · simp
      · rw [out]
        rfl
      · intro t
        rw [refs, total, total, here, moved]
        change s.held t + _ + (if some ntp = some t then 1 else 0) = _
        simp only [Option.some.injEq, eq_comm]
        omega

/-! ### Runs -/

/-- The iteration goes on only from a thread of the registry, and no thread is created in the
area of the thread it is at. -/
def Steady (kind : Kind T) (s _s' : Threads T) : Prop :=
  match kind with
  | .create tp => s.cursor ≠ some tp
  | .walk => s.Anchored
  | .other => True

theorem Inv.step {kind : Kind T} (inv : Inv idle s l) (steady : Steady kind s s')
    (step : Step idle kind s s') :
    Goes idle l s s' := by
  cases step with
  | createFromHeap tp prio out pos free =>
      obtain ⟨l', next, inv'⟩ := inv.create (inv.free_of_area free) .HEAP pos
      exact goes_one rfl next inv'
  | createStatic tp prio out pos free =>
      have vacant : Free s l tp := by
        rcases free with area | ⟨flags, final, unheld, unowned⟩
        · exact inv.free_of_area area
        · exact inv.free_of_final flags final unheld unowned steady
      obtain ⟨l', next, inv'⟩ := inv.create vacant .STATIC pos
      exact goes_one rfl next inv'
  | addRef tp out known few => exact inv.addRef out known few
  | release tp out mine => exact inv.chThdRelease out mine
  | wait tp out mine other differs => exact inv.chThdWait out mine other
  | resume tp inside => exact inv.resume inside
  | releasing tp msg inside => exact inv.releasing inside
  | freeing tp msg inside => exact inv.freed inside
  | exit msg out other => exact inv.exit out other
  | first out ended few => exact inv.first out ended few
  | next tp out here few => exact inv.next out here steady few
  | other unlocked step =>
      obtain ⟨inv', log⟩ := inv.other step
      exact goes_none log inv'

theorem Start.inv {first : List T} (start : Start idle first s) :
    Inv idle s (Ledger.start first) := by
  have fresh : ∀ t, s.pc t = .outside := start.pc
  have member : ∀ t, t ∈ first →
      (Ledger.start first : Ledger T T Int).obj t = ⟨.running, 1, false⟩ :=
    fun t mem => if_pos mem
  have stranger : ∀ t, t ∉ first →
      (Ledger.start first : Ledger T T Int).obj t = ⟨.absent, 0, false⟩ :=
    fun t mem => if_neg mem
  refine
    { core := start.core
      obj := ?obj
      got := ?got
      inside := ?inside
      refs := ?refs
      sleepers := ?sleepers
      nodup := ?nodup
      waits := ?waits
      freeing := ?freeing
      doomed := ?doomed
      registry := ?registry }
  case obj =>
    intro t
    by_cases mem : t ∈ first
    · obtain ⟨area, flags, refs, -, waiting⟩ := start.there t mem
      rw [member t mem, Matches]
      refine ⟨⟨area, flags, by rw [refs]; rfl⟩, ?_, ?_⟩
      · rcases waiting with eq | eq <;> simp [eq]
      · rcases waiting with eq | eq <;> simp [eq]
    · obtain ⟨area, -, unused⟩ := start.absent t mem
      rw [stranger t mem, Matches]
      exact ⟨area, rfl, .inl unused⟩
  case got =>
    funext t
    change none = result (s.pc t)
    rw [fresh]
    rfl
  case inside =>
    intro t inside
    exact absurd (fresh t) inside
  case refs =>
    refine ⟨fun _ => [], ⟨?_, fun _ => List.nodup_nil⟩, ?_⟩
    · intro q t
      simp [fresh, owns]
    · intro t
      rw [total, start.cursor]
      by_cases mem : t ∈ first
      · obtain ⟨-, -, -, held, -⟩ := start.there t mem
        rw [member t mem, held]
        rfl
      · obtain ⟨-, held, -⟩ := start.absent t mem
        rw [stranger t mem, held]
        rfl
  case sleepers =>
    intro tp t
    rw [start.waiting, fresh]
    simp
  case nodup =>
    intro tp
    rw [start.waiting]
    exact List.nodup_nil
  case waits =>
    intro t tp eq
    rw [fresh] at eq
    cases eq
  case freeing =>
    intro t tp msg eq
    rw [fresh] at eq
    cases eq
  case doomed =>
    intro tp doomed
    by_cases mem : tp ∈ first
    · rw [member tp mem] at doomed
      cases doomed
    · rw [stranger tp mem] at doomed
      cases doomed
  case registry =>
    refine ⟨first, start.registry, ?_⟩
    intro t
    by_cases mem : t ∈ first
    · rw [member t mem]
      simp [listed, mem]
    · rw [stranger t mem]
      simp [listed, mem]

/-- The history of every run belongs to objects that are freed once, after their last
reference. -/
theorem Reach.tracked {first : List T} (reach : Reach Steady idle first s) :
    ∃ l, replay (Ledger.start first) s.log = some l ∧ Inv idle s l := by
  obtain ⟨s₀, start, run⟩ := reach
  induction run with
  | refl =>
      refine ⟨Ledger.start first, ?_, start.inv⟩
      rw [start.log]
      rfl
  | tail _ step ih =>
      obtain ⟨l, replayed, inv⟩ := ih
      obtain ⟨kind, steady, step⟩ := step
      obtain ⟨more, l', log, moved, inv'⟩ := inv.step steady step
      refine ⟨l', ?_, inv'⟩
      rw [log, replay_append, replayed]
      exact moved

/-! ### Dynamic threads -/

/-- The area of a thread is about to go back to the heap. The thread is at its end and on no
list, and nobody has a reference to it. -/
structure Detached (s : Threads T) (tp : T) : Prop where
  area : s.area tp = true
  heap : s.p_flags tp = .HEAP
  final : s.core.p_state tp = .WAIT .FINAL
  ready : tp ∉ s.core.ready
  waiting : ∀ q, tp ∉ s.p_waiting q
  registry : ∃ reg : List T, Ring s.links none (reg.map some) ∧ tp ∉ reg
  held : s.held tp = 0
  calls : ∀ t, owns (s.pc t) ≠ some tp
  cursor : s.cursor ≠ some tp

/-! ### What the calls do -/

/-- `chThdWait` has the exit code of the thread, and is before its `chThdRelease`. -/
structure Collects (s s' : Threads T) (tp : T) : Prop where
  final : s.core.p_state tp = .WAIT .FINAL
  inside : s'.pc s.core.currp = .releasing tp (some (s.exitcode tp))
  log : s'.log = s.log ++ [.read s.core.currp tp (s.exitcode tp)]

/-- `chThdWait` sleeps, on the list of the thread. -/
structure Awaits (s s' : Threads T) (tp : T) : Prop where
  running : s.core.p_state tp ≠ .WAIT .FINAL
  inside : s'.pc s.core.currp = .waiting tp
  asleep : s'.core.p_state s.core.currp = .WAIT .WTEXIT
  listed : s.core.currp ∈ s'.p_waiting tp
  log : s'.log = s.log

/-- `chThdRelease` takes one from the counter. It goes on to `chHeapFree` if there was one
reference, to a thread from the heap at its end, and returns otherwise. -/
structure Releases (s s' : Threads T) (tp : T) (msg : Option Int) (refs : Nat) : Prop where
  counter : (s'.p_refs tp).toNat + 1 = refs
  last : refs = 1 ∧ s.core.p_state tp = .WAIT .FINAL ∧ s.p_flags tp = .HEAP →
    s'.pc s.core.currp = .freeing tp msg ∧ s'.log = s.log
  more : ¬ (refs = 1 ∧ s.core.p_state tp = .WAIT .FINAL ∧ s.p_flags tp = .HEAP) →
    s'.pc s.core.currp = .outside ∧ s'.log = s.log ++ returns s.core.currp msg

/-- The area goes back to the heap, and the call returns. -/
structure Frees (s s' : Threads T) (tp : T) (msg : Option Int) : Prop where
  area : s'.area tp = false
  outside : s'.pc s.core.currp = .outside
  log : s'.log = s.log ++ .freed tp :: returns s.core.currp msg

/-- The thread is at its end with its exit code, and wakes who is in `chThdWait` for it. -/
structure Exits (s s' : Threads T) (msg : Int) : Prop where
  final : s'.core.p_state s.core.currp = .WAIT .FINAL
  exitcode : s'.exitcode s.core.currp = msg
  woken : ∀ t, s.pc t = .waiting s.core.currp → s'.core.waiting t = none
  log : s'.log = s.log ++ [.exited s.core.currp msg]

/-- The history of the threads is one of counted objects: an area is freed once for each time
it is taken from the heap, by the one call that released the last reference after the exit.
There are as many references as programs, calls and the iteration have; they lead to areas in
memory, and the counter of every thread in memory counts them. Who is in `chThdWait` sleeps as
long as the thread runs. The calls do and return what the history says. -/
structure Kept (idle : T) (first : List T) (s : Threads T) (l : Ledger T T Int) : Prop where
  history : replay (Ledger.start first) s.log = some l
  once : ∀ tp, s.log.count (.freed tp) + l.due tp = s.log.count (.created tp true)
  area : ∀ tp, s.area tp = false ↔ (l.obj tp).life = .absent
  final : ∀ tp, s.area tp = true → (s.core.p_state tp = .WAIT .FINAL ↔
    (l.obj tp).life = .doomed ∨ (l.obj tp).life = .exited (s.exitcode tp))
  passed : ∀ tp, (l.obj tp).life = .doomed ↔ ∃! t, ∃ msg, s.pc t = .freeing tp msg
  freeing : ∀ t tp msg, s.pc t = .freeing tp msg → (l.obj tp).life = .doomed ∧ Detached s tp
  references : ∃ owners, Queued none (owns ∘ s.pc) owners ∧
    ∀ tp, (l.obj tp).refs = s.held tp + (owners tp).length + if s.cursor = some tp then 1 else 0
  counter : ∀ tp, s.area tp = true → (s.p_refs tp).toNat = (l.obj tp).refs
  counted : ∀ tp, 0 < (l.obj tp).refs → s.area tp = true
  waits : ∀ t tp, s.pc t = .waiting tp →
    (s.core.p_state t = .WAIT .WTEXIT ∧ (l.obj tp).life = .running) ∨
      (s.core.waiting t = none ∧ (l.obj tp).life = .exited (s.exitcode tp))
  awaits : s.core.currp ≠ idle → ∀ tp,
    Collects s (s.chThdWait tp) tp ∨ Awaits s (s.chThdWait tp) tp
  resumes : ∀ tp, s.pc s.core.currp = .waiting tp → Collects s (s.collect tp) tp
  releases : ∀ tp msg, 0 < (l.obj tp).refs → Releases s (s.release tp msg) tp msg (l.obj tp).refs
  frees : ∀ tp msg, Frees s (s.chHeapFree tp msg) tp msg
  exits : s.core.currp ≠ idle → s.pc s.core.currp = .outside → ∀ msg, Exits s (s.chThdExitS msg) msg

theorem Inv.detached (inv : Inv idle s l) {tp : T} (doomed : (l.obj tp).life = .doomed) :
    Detached s tp := by
  have here := inv.obj tp
  rw [Matches, doomed] at here
  obtain ⟨area, heap, zero, final, -⟩ := here
  obtain ⟨owners, queued, refs⟩ := inv.refs
  have count := refs tp
  rw [zero, total] at count
  constructor
  · exact area
  · exact heap
  · exact Core.waiting_eq_some.mp final
  · intro mem
    rw [inv.core.inv.waiting_ready mem] at final
    cases final
  · intro q mem
    rw [((inv.sleepers q tp).mp mem).2] at final
    cases final
  · obtain ⟨reg, ring, mem⟩ := inv.registry
    refine ⟨reg, ring, ?_⟩
    rw [mem, listed, doomed]
    simp
  · omega
  · intro t eq
    have pos := List.length_pos_of_mem (queued.mem_iff.mpr eq)
    omega
  · intro eq
    rw [if_pos eq] at count
    omega

/-- The counter of a thread in memory counts its references. -/
theorem Inv.counter (inv : Inv idle s l) {tp : T} (area : s.area tp = true) :
    (s.p_refs tp).toNat = (l.obj tp).refs := by
  have here := inv.obj tp
  cases life : (l.obj tp).life with
  | absent =>
      rw [Matches, life] at here
      rw [here.1] at area
      cases area
  | running => exact (here.running life).1.refs
  | exited code => exact (here.exited life).1.refs
  | doomed =>
      rw [Matches, life] at here
      obtain ⟨-, -, refs, -, zero⟩ := here
      rw [zero, refs]
      rfl

/-- A thread in memory is at its end after its exit. -/
theorem Inv.final_iff (inv : Inv idle s l) {tp : T} (area : s.area tp = true) :
    s.core.p_state tp = .WAIT .FINAL ↔
      (l.obj tp).life = .doomed ∨ (l.obj tp).life = .exited (s.exitcode tp) := by
  have here := inv.obj tp
  rw [← Core.waiting_eq_some]
  cases life : (l.obj tp).life with
  | absent =>
      rw [Matches, life] at here
      rw [here.1] at area
      cases area
  | running => simp [(here.running life).2.2]
  | exited code => simp [(here.exited life).2.1, (here.exited life).2.2]
  | doomed =>
      rw [Matches, life] at here
      simp [here.2.2.2.1]

theorem Inv.awaits (inv : Inv idle s l) (other : s.core.currp ≠ idle) (tp : T) :
    Collects s (s.chThdWait tp) tp ∨ Awaits s (s.chThdWait tp) tp := by
  unfold Threads.chThdWait
  split
  · rename_i final
    exact .inl ⟨final, Function.update_self _ _ _, rfl⟩
  · rename_i running
    have listed : s.core.currp ∈ Function.update s.p_waiting tp (s.core.currp :: s.p_waiting tp) tp := by
      rw [Function.update_self]
      exact List.mem_cons_self
    exact .inr ⟨running, Function.update_self _ _ _,
      Core.waiting_eq_some.mp (inv.await_core other).2.1, listed, rfl⟩

theorem Inv.resumes (inv : Inv idle s l) {tp : T} (inside : s.pc s.core.currp = .waiting tp) :
    Collects s (s.collect tp) tp := by
  refine ⟨?_, Function.update_self _ _ _, rfl⟩
  rcases inv.waits _ _ inside with ⟨asleep, -⟩ | ⟨-, code, exited⟩
  · rw [inv.core.inv.waiting_currp] at asleep
    cases asleep
  · exact Core.waiting_eq_some.mp ((inv.obj tp).exited exited).2.1

theorem Inv.releases (inv : Inv idle s l) {tp : T} (pos : 0 < (l.obj tp).refs) (msg : Option Int) :
    Releases s (s.release tp msg) tp msg (l.obj tp).refs := by
  obtain ⟨count, zero⟩ := inv.last_iff pos
  have lowered : (Function.update s.p_refs tp (s.p_refs tp - 1) tp).toNat + 1 = (l.obj tp).refs := by
    rw [Function.update_self]
    exact count
  unfold Threads.release
  dsimp only
  split
  · rename_i last
    rw [zero] at last
    exact ⟨lowered, fun _ => ⟨Function.update_self _ _ _, rfl⟩, fun more => absurd last more⟩
  · rename_i more
    rw [zero] at more
    exact ⟨lowered, fun last => absurd last more,
      fun _ => ⟨Function.update_self _ _ _, leave_log _ msg⟩⟩

theorem frees (s : Threads T) (tp : T) (msg : Option Int) :
    Frees s (s.chHeapFree tp msg) tp msg := by
  refine ⟨Function.update_self _ _ _, Function.update_self _ _ _, ?_⟩
  refine (leave_log _ msg).trans ?_
  exact List.append_assoc s.log [.freed tp] _

theorem Inv.exits (inv : Inv idle s l) (out : s.pc s.core.currp = .outside)
    (other : s.core.currp ≠ idle) (msg : Int) :
    Exits s (s.chThdExitS msg) msg := by
  have waiting := (inv.exit_core other).2
  refine ⟨?_, Function.update_self _ _ _, ?_, rfl⟩
  · apply Core.waiting_eq_some.mp
    exact (waiting s.core.currp).trans (if_pos rfl)
  · intro t eq
    refine (waiting t).trans ?_
    rw [if_neg (busy_ne out (by rw [eq]; simp))]
    split
    · rfl
    · rename_i absent
      rcases inv.waits t _ eq with ⟨asleep, -⟩ | ⟨awake, -⟩
      · exact absurd ((inv.sleepers _ _).mpr ⟨eq, asleep⟩) absent
      · exact awake

theorem Inv.kept {first : List T} (inv : Inv idle s l)
    (history : replay (Ledger.start first) s.log = some l) :
    Kept idle first s l where
  history := history
  once := (freed_once history).2
  area tp := by
    constructor
    · intro area
      exact ((inv.obj tp).absent area).1
    · intro absent
      have here := inv.obj tp
      rw [Matches, absent] at here
      exact here.1
  final tp := inv.final_iff
  passed tp := by
    constructor
    · intro doomed
      obtain ⟨t, only⟩ := inv.doomed tp doomed
      exact ⟨t, (only t).mpr rfl, fun t' freeing => (only t').mp freeing⟩
    · rintro ⟨t, ⟨msg, freeing⟩, -⟩
      exact inv.freeing t tp msg freeing
  freeing t tp msg freeing :=
    ⟨inv.freeing t tp msg freeing, inv.detached (inv.freeing t tp msg freeing)⟩
  references := inv.refs
  counter tp := inv.counter
  counted tp pos := ((inv.obj tp).of_refs pos).1.area
  waits t tp waiting := by
    rcases inv.waits t tp waiting with ⟨asleep, running⟩ | ⟨awake, code, exited⟩
    · exact .inl ⟨Core.waiting_eq_some.mp asleep, running⟩
    · refine .inr ⟨awake, ?_⟩
      rw [((inv.obj tp).exited exited).2.2]
      exact exited
  awaits := inv.awaits
  resumes tp := inv.resumes
  releases tp msg pos := inv.releases pos msg
  frees := frees s
  exits other out := inv.exits out other

theorem release_cursor (s : Threads T) (tp : T) (msg : Option Int) :
    (s.release tp msg).cursor = s.cursor := by
  unfold Threads.release
  dsimp only
  split <;> rfl

/-- Only the iteration moves the iteration. -/
theorem Step.cursor {kind : Kind T} (step : Step idle kind s s') (other : kind ≠ .walk) :
    s'.cursor = s.cursor := by
  cases step with
  | createFromHeap tp prio out pos free => rfl
  | createStatic tp prio out pos free => rfl
  | addRef tp out known few => rfl
  | release tp out mine => exact release_cursor _ tp none
  | wait tp out mine other differs =>
      unfold Threads.chThdWait
      split <;> rfl
  | resume tp inside => rfl
  | releasing tp msg inside => exact release_cursor _ tp msg
  | freeing tp msg inside => rfl
  | exit msg out other => rfl
  | first out ended few => exact absurd rfl other
  | next tp out here few => exact absurd rfl other
  | other unlocked step => cases step <;> rfl

theorem Reach.steady {first : List T} (reach : Reach (fun kind _ _ => kind ≠ .walk) idle first s) :
    Reach Steady idle first s ∧ s.cursor = none := by
  obtain ⟨s₀, start, run⟩ := reach
  induction run with
  | refl => exact ⟨⟨s₀, start, .refl⟩, start.cursor⟩
  | tail _ step ih =>
      obtain ⟨⟨s₁, start₁, run₁⟩, idle_⟩ := ih
      obtain ⟨kind, other, step⟩ := step
      refine ⟨⟨s₁, start₁, run₁.tail ⟨kind, ?_, step⟩⟩, (step.cursor other).trans idle_⟩
      cases kind with
      | create tp =>
          rw [Steady, idle_]
          simp
      | walk => exact absurd rfl other
      | other => trivial

/-- Threads are created, run, exit and are waited for in any order, and references are added
and released. -/
theorem threads_kept (idle : T) (first : List T) (s : Threads T)
    (reach : Reach (fun kind _ _ => kind ≠ .walk) idle first s) :
    ∃ l, Kept idle first s l := by
  obtain ⟨l, history, inv⟩ := reach.steady.1.tracked
  exact ⟨l, inv.kept history⟩

/-- The idle thread and the main thread. -/
def sampleStart : Threads (Fin 4) where
  core :=
    { p_prio := ![ IDLEPRIO, 128, 127, 127]
      p_state := ![.READY, .CURRENT, .WAIT .UNUSED, .WAIT .UNUSED]
      p_preempt := fun _ => CH_CFG_TIME_QUANTUM
      rdymsg := fun _ => MSG_OK
      ready := [0]
      currp := 1
      log := [] }
  area := ![true, true, false, false]
  p_flags := fun _ => .STATIC
  p_refs := fun _ => 1
  p_waiting := fun _ => []
  exitcode := fun _ => 0
  links :=
    { next := fun node => if node = none then some 0 else if node = some 0 then some 1 else none
      prev := fun node => if node = none then some 1 else if node = some 1 then some 0 else none }
  held := ![1, 1, 0, 0]
  cursor := none
  pc := fun _ => .outside
  log := []

theorem sampleStart_start : Start 0 [0, 1] sampleStart where
  core :=
    { inv :=
        { sorted := by simp [Prio.Descending, sampleStart]
          nodup := by decide
          mem_ready := by decide
          current := by decide
          awake := by decide }
      pos := by decide }
  registry := ⟨by decide, by decide, by decide⟩
  there := by decide
  absent := by decide
  waiting _ := rfl
  cursor := rfl
  pc _ := rfl
  log := rfl

/-- The main thread creates a thread, adds a reference and waits for it; the thread exits with
7, and is freed when the main thread releases the other reference. -/
def sampleCollected : Threads (Fin 4) :=
  let s := (sampleStart.chThdCreateFromHeap 2 127).hold 2
  let s := ((s.chThdAddRef 2).hold 2).note (.retained 2)
  let s := (((s.handOver 2).chThdWait 2).chThdExitS 7).collect 2
  let s := (s.note (.released 2)).release 2 (some 7)
  (((s.handOver 2).note (.released 2)).chThdRelease 2).chHeapFree 2 none

theorem sampleCollected_reach : Reach (fun kind _ _ => kind ≠ .walk) 0 [0, 1] sampleCollected := by
  refine ⟨sampleStart, sampleStart_start, ?_⟩
  have created : Relation.ReflTransGen
    (fun s s' => ∃ kind, kind ≠ Kind.walk ∧ Step (0 : Fin 4) kind s s') sampleStart
      ((sampleStart.chThdCreateFromHeap 2 127).hold 2) :=
    .single ⟨_, by decide, .createFromHeap 2 127 rfl (by decide) rfl⟩
  have added := created.tail ⟨_, by decide, .addRef 2 rfl (.inl (by decide)) (by decide)⟩
  have waits := added.tail ⟨_, by decide, .wait 2 rfl (by decide) (by decide) (by decide)⟩
  have exits := waits.tail ⟨_, by decide, .exit 7 rfl (by decide)⟩
  have collects := exits.tail ⟨_, by decide, .resume 2 rfl⟩
  have releases := collects.tail ⟨_, by decide, .releasing 2 (some 7) rfl⟩
  have last := releases.tail ⟨_, by decide, .release 2 rfl (by decide)⟩
  exact last.tail ⟨_, by decide, .freeing 2 none rfl⟩

theorem sampleCollected_kept :
    (∃ l, Kept 0 [0, 1] sampleCollected l) ∧
      sampleCollected.log =
        [.created 2 true, .retained 2, .exited 2 7, .read 1 2 7, .released 2, .returned 1 7,
          .released 2, .freed 2] :=
  ⟨threads_kept 0 [0, 1] sampleCollected sampleCollected_reach, by decide⟩

end LtcOs.Kernel.Threads
