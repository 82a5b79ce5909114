import LtcOs.Kernel.Threads

/-!
References to threads.

The counter of a thread is the number of references to it: those of programs, of calls that
have not released theirs, and of the iteration. A call that decides to free an area is the
only one, and nobody else has the thread.
-/

namespace LtcOs.Kernel.Threads

open LtcOs.Lifetime
open LtcOs.Linked
open LtcOs.Waiting

variable {T : Type} [DecidableEq T] {idle : T} {s s' : Threads T} {l l' : Ledger T T Int}

/-! ### References of calls -/

section Owners

variable {pc : T → ThdPc T} {owners : T → List T} {c tp : T} {new : ThdPc T}

theorem owners_arrive (queued : Queued none (owns ∘ pc) owners) (off : owns (pc c) = none)
    (eq : owns new = some tp) :
    Queued none (owns ∘ Function.update pc c new) (Function.update owners tp (c :: owners tp)) := by
  rw [Function.comp_update, eq]
  apply queued.arrive off
  · intro t
    exact List.mem_cons
  · exact List.nodup_cons.mpr ⟨queued.not_mem off tp, queued.nodup tp⟩

theorem owners_depart (queued : Queued none (owns ∘ pc) owners) (here : owns (pc c) = some tp)
    (eq : owns new = none) :
    Queued none (owns ∘ Function.update pc c new)
      (Function.update owners tp ((owners tp).erase c)) := by
  rw [Function.comp_update, eq]
  exact queued.depart here

theorem owners_stay (queued : Queued none (owns ∘ pc) owners) (eq : owns new = owns (pc c)) :
    Queued none (owns ∘ Function.update pc c new) owners := by
  rw [Function.comp_update, eq]
  exact (Function.update_eq_self c (owns ∘ pc)).symm ▸ queued

theorem length_erase (queued : Queued none (owns ∘ pc) owners) (here : owns (pc c) = some tp) :
    ((owners tp).erase c).length + 1 = (owners tp).length := by
  have mem : c ∈ owners tp := queued.mem_iff.mpr here
  have pos := List.length_pos_of_mem mem
  rw [List.length_erase_of_mem mem]
  omega

/-- A step of one thread that has to do with no area that is freed. -/
theorem freeing_update (before : ∀ tp msg, pc c ≠ .freeing tp msg)
    (after : ∀ tp msg, new ≠ .freeing tp msg) (t q : T) (msg : Option Int) :
    Function.update pc c new t = .freeing q msg ↔ pc t = .freeing q msg := by
  by_cases same : t = c
  · rw [same, Function.update_self]
    exact iff_of_false (after q msg) (before q msg)
  · rw [Function.update_of_ne same]

end Owners

/-! ### The registry -/

theorem registry_insert {links : Links (Option T)} {reg : List T} {tp : T}
    (ring : Ring links none (reg.map some)) (fresh : tp ∉ reg) :
    Ring (REG_INSERT links tp) none ((reg ++ [tp]).map some) := by
  have ring' : Ring links none (reg.map some ++ []) := by
    rw [List.append_nil]
    exact ring
  rw [List.map_append]
  exact ring'.insertBefore (by simpa using fresh) rfl

theorem registry_remove {links : Links (Option T)} {reg : List T} {tp : T}
    (ring : Ring links none (reg.map some)) (here : tp ∈ reg) :
    ∃ rest : List T, Ring (REG_REMOVE links tp) none (rest.map some) ∧ rest.Sublist reg ∧
      ∀ t, t ∈ rest ↔ t ∈ reg ∧ t ≠ tp := by
  obtain ⟨xs, ys, rfl⟩ := List.append_of_mem here
  have nodup : (xs ++ tp :: ys).Nodup := List.Nodup.of_map _ (List.nodup_cons.mp ring.nodup).2
  have absent : tp ∉ xs ++ ys := (List.nodup_cons.mp (List.nodup_middle.mp nodup)).1
  refine ⟨xs ++ ys, ?_, ?_, ?_⟩
  · rw [List.map_append] at ring ⊢
    exact ring.unlink
  · exact (List.sublist_cons_self tp ys).append_left xs
  · intro t
    by_cases same : t = tp
    · subst same
      exact iff_of_false absent (by simp)
    · simp [same]

/-! ### The kernel -/

/-- Only the kernel changes, and the threads that wake or fall asleep have to do with something
else. -/
theorem Inv.core_congr (inv : Inv idle s l) {c : Core T ThdWait} (sound : c.Sound idle)
    (apart : ∀ t, c.waiting t = s.core.waiting t ∨
      ((∀ tp, s.pc t ≠ .waiting tp) ∧ (s.core.waiting t = none ∨ s.core.waiting t = some .OTHER) ∧
        (c.waiting t = none ∨ c.waiting t = some .OTHER))) : Inv idle { s with core := c } l where
  core := sound
  obj t := by
    rcases apart t with eq | ⟨-, old, new⟩
    · exact (inv.obj t).congr rfl rfl rfl rfl eq
    · have running : (l.obj t).life = .running := by
        apply (inv.obj t).of_awake
        · rcases old with eq | eq <;> simp [eq]
        · rcases old with eq | eq <;> simp [eq]
      obtain ⟨⟨area, flags, refs⟩, -⟩ := (inv.obj t).running running
      rw [Matches, running]
      refine ⟨⟨area, flags, refs⟩, ?_, ?_⟩
      · change c.waiting t ≠ _
        rcases new with eq | eq <;> simp [eq]
      · change c.waiting t ≠ _
        rcases new with eq | eq <;> simp [eq]
  got := inv.got
  inside := inv.inside
  refs := inv.refs
  sleepers tp t := by
    rw [inv.sleepers]
    apply and_congr_right
    intro waiting
    rcases apart t with eq | ⟨other, -⟩
    · change _ ↔ c.waiting t = _
      rw [eq]
    · exact absurd waiting (other tp)
  nodup := inv.nodup
  waits t tp waiting := by
    rcases apart t with eq | ⟨other, -⟩
    · unfold Waits
      change (c.waiting t = _ ∧ _) ∨ (c.waiting t = _ ∧ _)
      rw [eq]
      exact inv.waits t tp waiting
    · exact absurd waiting (other tp)
  freeing := inv.freeing
  doomed := inv.doomed
  registry := inv.registry

/-- A thread that waits for something else is not in `chThdWait`. -/
theorem Inv.not_waiting (inv : Inv idle s l) {t : T} (other : s.core.waiting t = some .OTHER)
    (tp : T) :
    s.pc t ≠ .waiting tp := by
  intro waiting
  rcases inv.waits t tp waiting with ⟨eq, -⟩ | ⟨eq, -⟩
  · rw [eq] at other
    cases other
  · rw [eq] at other
    cases other

theorem Inv.wakes (inv : Inv idle s l) {c : Core T ThdWait} {tp : T} {msg : Int}
    (waits : s.core.waiting tp = some .OTHER) (wakes : s.core.Wakes idle tp msg c) :
    Inv idle { s with core := c } l := by
  apply inv.core_congr wakes.sound
  intro t
  rw [wakes.waiting]
  by_cases same : t = tp
  · subst same
    exact .inr ⟨inv.not_waiting waits, .inr waits, .inl (Function.update_self _ _ _)⟩
  · exact .inl (Function.update_of_ne same _ _)

theorem Inv.quiet (inv : Inv idle s l) {c : Core T ThdWait} (quiet : s.core.Quiet idle c) :
    Inv idle { s with core := c } l := by
  apply inv.core_congr quiet.sound
  intro t
  left
  rw [quiet.waiting]

theorem Inv.other (inv : Inv idle s l) (step : Other idle s s') :
    Inv idle s' l ∧ s'.log = s.log := by
  cases step with
  | ready tp msg waits => exact ⟨inv.wakes waits (inv.core.setMsg_ready (by simp [waits]) msg), rfl⟩
  | tick => exact ⟨inv.quiet inv.core.tick, rfl⟩
  | sleep out other =>
      have sleeps := inv.core.goSleep other ThdWait.OTHER
      refine ⟨inv.core_congr sleeps.sound ?_, rfl⟩
      intro t
      rw [sleeps.waiting]
      by_cases same : t = s.core.currp
      · subst same
        exact .inr ⟨by simp [out], .inl inv.core.inv.waiting_currp,
          .inr (Function.update_self _ _ _)⟩
      · exact .inl (Function.update_of_ne same _ _)
  | wakeup tp msg waits => exact ⟨inv.wakes waits (inv.core.wakeup (by simp [waits]) msg), rfl⟩
  | switch switch => exact ⟨inv.quiet (inv.core.switch switch), rfl⟩

theorem Inv.current_running (inv : Inv idle s l) : (l.obj s.core.currp).life = .running := by
  have awake := inv.core.inv.waiting_currp
  exact (inv.obj _).of_awake (by simp [awake]) (by simp [awake])

/-- The threads in `chThdWait` for the current one become ready. -/
theorem readyAll_spec {c : Core T ThdWait} (sound : c.Sound idle) {list : List T}
    (nodup : list.Nodup) (asleep : ∀ t ∈ list, c.waiting t ≠ none) :
    (readyAll c list).Sound idle ∧ (readyAll c list).currp = c.currp ∧
      ∀ t, (readyAll c list).waiting t = if t ∈ list then none else c.waiting t := by
  induction list generalizing c with
  | nil => exact ⟨sound, rfl, fun t => by simp [readyAll]⟩
  | cons tp rest ih =>
      obtain ⟨fresh, nodup⟩ := List.nodup_cons.mp nodup
      have ready : (c.chSchReadyI tp).Sound idle :=
        sound.of_inv (sound.inv.chSchReadyI (asleep tp List.mem_cons_self)) rfl
      have others : ∀ t ∈ rest, (c.chSchReadyI tp).waiting t ≠ none := by
        intro t mem
        rw [Core.waiting_chSchReadyI, Function.update_of_ne]
        · exact asleep t (List.mem_cons_of_mem _ mem)
        · rintro rfl
          exact fresh mem
      obtain ⟨sound', currp, waiting⟩ := ih ready nodup others
      refine ⟨sound', currp, ?_⟩
      intro t
      rw [readyAll, waiting, Core.waiting_chSchReadyI]
      by_cases same : t = tp
      · subst same
        simp
      · simp [same]

/-- A thread that is not there, or at its end, is started. -/
theorem wakes_create {c : Core T ThdWait} (sound : c.Sound idle) {tp : T}
    (asleep : c.waiting tp ≠ none) {prio : Nat} (pos : NOPRIO < prio) :
    let c' := (((c.setPrio tp prio).setState tp (.WAIT .WTSTART)).setPreempt tp
      CH_CFG_TIME_QUANTUM).chSchWakeupS tp MSG_OK
    c'.Sound idle ∧ c'.waiting = Function.update c.waiting tp none := by
  obtain ⟨ready, start⟩ := sound.init asleep pos ThdWait.WTSTART CH_CFG_TIME_QUANTUM
  have wakes := ready.wakeup (by rw [start, Function.update_self]; simp) MSG_OK
  refine ⟨wakes.sound, ?_⟩
  rw [wakes.waiting, start, Function.update_idem]

/-! ### Creation -/

/-- What is known of an area in which a thread can be created. -/
structure Free (s : Threads T) (l : Ledger T T Int) (tp : T) : Prop where
  vacant : (l.obj tp).vacant = true
  refs : (l.obj tp).refs = 0
  running : (l.obj tp).life ≠ .running
  doomed : (l.obj tp).life ≠ .doomed
  asleep : s.core.waiting tp ≠ none
  off : listed (l.obj tp) = false

theorem Inv.free_of_area (inv : Inv idle s l) {tp : T} (area : s.area tp = false) :
    Free s l tp := by
  have here := inv.obj tp
  obtain ⟨life, refs⟩ := here.absent area
  rw [Matches, life] at here
  refine ⟨by simp [Obj.vacant, life], refs, by simp [life], by simp [life],
    ?_, by simp [listed, life]⟩
  rcases here.2.2 with eq | eq <;> simp [eq]

/-- The area of a static thread at its end, without references. -/
theorem Inv.free_of_final (inv : Inv idle s l) {tp : T} (flags : s.p_flags tp = .STATIC)
    (final : s.core.p_state tp = .WAIT .FINAL) (unheld : s.held tp = 0)
    (unowned : ∀ t, owns (s.pc t) ≠ some tp) (unvisited : s.cursor ≠ some tp) : Free s l tp := by
  have here := inv.obj tp
  have waiting : s.core.waiting tp = some .FINAL := Core.waiting_eq_some.mpr final
  cases area : s.area tp with
  | false => exact inv.free_of_area area
  | true =>
      cases life : (l.obj tp).life with
      | absent =>
          rw [Matches, life] at here
          rw [here.1] at area
          cases area
      | running => exact absurd waiting (here.running life).2.2
      | exited code =>
          obtain ⟨known, -, -⟩ := here.exited life
          have refs : (l.obj tp).refs = 0 := by
            obtain ⟨owners, queued, refs⟩ := inv.refs
            have empty : owners tp = [] := by
              apply List.eq_nil_iff_forall_not_mem.mpr
              intro t mem
              exact unowned t (queued.mem_iff.mp mem)
            rw [refs, total, unheld, empty, if_neg unvisited]
            rfl
          have collected : (l.obj tp).collected = false := by
            rw [Bool.eq_false_iff, ne_eq, known.collected_iff, flags]
            simp
          exact ⟨by simp [Obj.vacant, life, refs, collected],
            refs, by simp [life], by simp [life], by simp [waiting],
            by simp [listed, life, collected]⟩
      | doomed =>
          rw [Matches, life] at here
          rw [here.2.1] at flags
          cases flags

/-- Nobody has anything to do with a thread to which there are no references. -/
theorem Inv.unreferenced (inv : Inv idle s l) {tp : T} (none : (l.obj tp).refs = 0) :
    s.held tp = 0 ∧ (∀ t, owns (s.pc t) ≠ some tp) ∧ s.cursor ≠ some tp := by
  obtain ⟨owners, queued, refs⟩ := inv.refs
  have count := refs tp
  rw [none, total] at count
  refine ⟨by omega, ?_, ?_⟩
  · intro t eq
    have pos := List.length_pos_of_mem (queued.mem_iff.mpr eq)
    omega
  · intro eq
    rw [if_pos eq] at count
    omega

theorem Inv.free_outside (inv : Inv idle s l) {tp : T} (free : Free s l tp) :
    s.pc tp = .outside := by
  by_contra inside
  exact free.running (inv.inside tp inside)

theorem Inv.free_unawaited (inv : Inv idle s l) {tp : T} (free : Free s l tp) (t : T) :
    s.pc t ≠ .waiting tp := by
  intro eq
  apply (inv.unreferenced free.refs).2.1 t
  rw [eq]
  rfl

section Create

variable {tp : T} {mode : Mode} {prio : Nat}

/-- The new thread is awake, and the others are as they were. -/
theorem Inv.create_core (inv : Inv idle s l) (free : Free s l tp) (mode : Mode)
    (pos : NOPRIO < prio) :
    (s.create mode tp prio).core.Sound idle ∧ (s.create mode tp prio).core.waiting tp = none ∧
      ∀ t, t ≠ tp → (s.create mode tp prio).core.waiting t = s.core.waiting t := by
  obtain ⟨sound, waiting⟩ := wakes_create inv.core free.asleep pos
  refine ⟨sound, ?_, ?_⟩
  · exact (congrFun waiting tp).trans (Function.update_self _ _ _)
  · intro t differs
    exact (congrFun waiting t).trans (Function.update_of_ne differs _ _)

theorem Inv.create_obj (inv : Inv idle s l) (free : Free s l tp) (mode : Mode)
    (pos : NOPRIO < prio) (t : T) :
    Matches ((s.create mode tp prio).hold tp) t
      ((l.set tp ⟨.running, 1, mode == .HEAP⟩).obj t) := by
  obtain ⟨-, awake, others⟩ := inv.create_core free mode pos
  by_cases same : t = tp
  · subst same
    rw [Ledger.set_self, Matches]
    change Known _ t _ ∧ (s.create mode t prio).core.waiting t ≠ _ ∧
      (s.create mode t prio).core.waiting t ≠ _
    refine ⟨⟨Function.update_self _ _ _, ?_, ?_⟩, by simp [awake], by simp [awake]⟩
    · refine (Function.update_self _ _ _).trans ?_
      cases mode <;> rfl
    · change (Function.update s.p_refs t 1 t).toNat = 1
      rw [Function.update_self]
      rfl
  · rw [l.set_of_ne same]
    apply (inv.obj t).congr
    · exact Function.update_of_ne same _ _
    · exact Function.update_of_ne same _ _
    · exact Function.update_of_ne same _ _
    · rfl
    · exact others t same

/-- The creator has the one reference. -/
theorem Inv.create_refs (inv : Inv idle s l) (free : Free s l tp) (mode : Mode) (prio : Nat) :
    ∃ owners, Queued none (owns ∘ s.pc) owners ∧
      ∀ t, ((l.set tp ⟨.running, 1, mode == .HEAP⟩).obj t).refs =
        total ((s.create mode tp prio).hold tp) owners t := by
  obtain ⟨unheld, -, unvisited⟩ := inv.unreferenced free.refs
  obtain ⟨owners, queued, refs⟩ := inv.refs
  refine ⟨owners, queued, ?_⟩
  intro t
  change _ = Function.update s.held tp (s.held tp + 1) t + (owners t).length +
    if s.cursor = some t then 1 else 0
  by_cases same : t = tp
  · subst same
    have count := refs t
    rw [free.refs, total] at count
    rw [Ledger.set_self, Function.update_self, if_neg unvisited]
    change 1 = _
    omega
  · rw [l.set_of_ne same, Function.update_of_ne same]
    exact refs t

/-- Nobody is in `chThdWait` for the new thread. -/
theorem Inv.create_sleepers (inv : Inv idle s l) (free : Free s l tp) (mode : Mode)
    (pos : NOPRIO < prio) (q t : T) :
    t ∈ Function.update s.p_waiting tp [] q ↔
      s.pc t = .waiting q ∧ (s.create mode tp prio).core.waiting t = some .WTEXIT := by
  by_cases target : q = tp
  · subst target
    rw [Function.update_self]
    refine iff_of_false List.not_mem_nil ?_
    rintro ⟨eq, -⟩
    exact inv.free_unawaited free t eq
  · rw [Function.update_of_ne target, inv.sleepers]
    apply and_congr_right
    intro eq
    rw [(inv.create_core free mode pos).2.2]
    rintro rfl
    rw [inv.free_outside free] at eq
    cases eq

theorem Inv.create_waits (inv : Inv idle s l) (free : Free s l tp) (mode : Mode)
    (pos : NOPRIO < prio) {t q : T} (eq : s.pc t = .waiting q) :
    Waits ((s.create mode tp prio).hold tp) (l.set tp ⟨.running, 1, mode == .HEAP⟩) t q := by
  have target : q ≠ tp := by
    rintro rfl
    exact inv.free_unawaited free t eq
  have differs : t ≠ tp := by
    rintro rfl
    rw [inv.free_outside free] at eq
    cases eq
  have still := (inv.create_core free mode pos).2.2 t differs
  rw [Waits, l.set_of_ne target]
  change ((s.create mode tp prio).core.waiting t = _ ∧ _) ∨
    ((s.create mode tp prio).core.waiting t = _ ∧ _)
  rw [still]
  exact inv.waits t q eq

theorem Inv.create_registry (inv : Inv idle s l) (free : Free s l tp) (mode : Mode) :
    ∃ reg : List T, Ring (REG_INSERT s.links tp) none (reg.map some) ∧
      ∀ t, t ∈ reg ↔ listed ((l.set tp ⟨.running, 1, mode == .HEAP⟩).obj t) = true := by
  obtain ⟨reg, ring, mem⟩ := inv.registry
  have fresh : tp ∉ reg := by
    rw [mem, free.off]
    simp
  refine ⟨reg ++ [tp], registry_insert ring fresh, ?_⟩
  intro t
  rw [List.mem_append, List.mem_singleton, mem]
  by_cases same : t = tp
  · subst same
    rw [Ledger.set_self]
    simp [listed]
  · rw [l.set_of_ne same]
    simp [same]

end Create

theorem Inv.create (inv : Inv idle s l) {tp : T} (free : Free s l tp) (mode : Mode) {prio : Nat}
    (pos : NOPRIO < prio) :
    ∃ l', l.next (.created tp (mode == .HEAP)) = some l' ∧
      Inv idle ((s.create mode tp prio).hold tp) l' := by
  have others : ∀ {q}, (l.obj q).life = .doomed → q ≠ tp := by
    rintro q doomed rfl
    exact free.doomed doomed
  refine ⟨l.set tp ⟨.running, 1, mode == .HEAP⟩, if_pos free.vacant,
    { core := (inv.create_core free mode pos).1
      obj := inv.create_obj free mode pos
      got := inv.got
      inside := ?inside
      refs := inv.create_refs free mode prio
      sleepers := inv.create_sleepers free mode pos
      nodup := ?nodup
      waits := fun t q eq => inv.create_waits free mode pos eq
      freeing := ?freeing
      doomed := ?doomed
      registry := inv.create_registry free mode }⟩
  case inside =>
    intro t inside
    have differs : t ≠ tp := by
      rintro rfl
      exact inside (inv.free_outside free)
    rw [l.set_of_ne differs]
    exact inv.inside t inside
  case nodup =>
    intro q
    change (Function.update s.p_waiting tp [] q).Nodup
    by_cases target : q = tp
    · rw [target, Function.update_self]
      exact List.nodup_nil
    · rw [Function.update_of_ne target]
      exact inv.nodup q
  case freeing =>
    intro t q msg eq
    have doomed := inv.freeing t q msg eq
    rw [l.set_of_ne (others doomed)]
    exact doomed
  case doomed =>
    intro q doomed
    have target : q ≠ tp := by
      rintro rfl
      rw [Ledger.set_self] at doomed
      cases doomed
    rw [l.set_of_ne target] at doomed
    exact inv.doomed q doomed

/-! ### References -/

omit [DecidableEq T] in
/-- The references of an object that is there change. -/
theorem Matches.recount {t : T} {o : Obj Int} (here : Matches s t o) (present : o.present = true)
    {n : Nat} (refs : (s'.p_refs t).toNat = n) (area : s'.area t = s.area t)
    (flags : s'.p_flags t = s.p_flags t) (exitcode : s'.exitcode t = s.exitcode t)
    (waiting : s'.core.waiting t = s.core.waiting t) :
    Matches s' t ⟨o.life, n, o.collected⟩ := by
  have known : ∀ life, Known s t o → Known s' t ⟨life, n, o.collected⟩ := by
    rintro life ⟨a, f, -⟩
    exact ⟨area.trans a, flags.trans f, refs⟩
  cases life : o.life with
  | absent => simp [Obj.present, life] at present
  | running =>
      obtain ⟨there, unused, final⟩ := here.running life
      rw [Matches, waiting]
      exact ⟨known _ there, unused, final⟩
  | exited code =>
      obtain ⟨there, final, eq⟩ := here.exited life
      rw [Matches, waiting, exitcode]
      exact ⟨known _ there, final, eq⟩
  | doomed => simp [Obj.present, life] at present

/-- A step of the current thread that leaves the kernel alone and does not go to sleep. -/
theorem Inv.turn (inv : Inv idle s l) {new : ThdPc T} (core : s'.core = s.core)
    (sleeping : s'.p_waiting = s.p_waiting)
    (pc : s'.pc = Function.update s.pc s.core.currp new) (calm : ∀ tp, new ≠ .waiting tp)
    (runs : ∀ t, (l.obj t).life = .running → (l'.obj t).life = .running)
    (awaited : ∀ t tp, t ≠ s.core.currp → s.pc t = .waiting tp → (l'.obj tp).life = (l.obj tp).life)
    (obj : ∀ t, Matches s' t (l'.obj t))
      (got : l'.got = Function.update l.got s.core.currp (result new))
    (refs : ∃ owners, Queued none (owns ∘ s'.pc) owners ∧ ∀ t, (l'.obj t).refs = total s' owners t)
    (freeing : ∀ t tp msg, s'.pc t = .freeing tp msg → (l'.obj tp).life = .doomed)
    (doomed : ∀ tp, (l'.obj tp).life = .doomed →
      ∃ t, ∀ t', (∃ msg, s'.pc t' = .freeing tp msg) ↔ t' = t)
    (registry : ∃ reg : List T,
      Ring s'.links none (reg.map some) ∧ ∀ t, t ∈ reg ↔ listed (l'.obj t) = true) :
    Inv idle s' l' where
  core := core ▸ inv.core
  obj := obj
  got := by
    rw [got, pc, Function.comp_update, inv.got]
  inside t inside := by
    by_cases same : t = s.core.currp
    · rw [same]
      exact runs _ inv.current_running
    · rw [pc, Function.update_of_ne same] at inside
      exact runs t (inv.inside t inside)
  refs := refs
  sleepers tp t := by
    rw [sleeping, core, pc]
    by_cases same : t = s.core.currp
    · subst same
      rw [inv.sleepers, inv.core.inv.waiting_currp, Function.update_self]
      simp
    · rw [Function.update_of_ne same]
      exact inv.sleepers tp t
  nodup tp := by
    rw [sleeping]
    exact inv.nodup tp
  waits t tp waiting := by
    by_cases same : t = s.core.currp
    · rw [pc, same, Function.update_self] at waiting
      exact absurd waiting (calm tp)
    · rw [pc, Function.update_of_ne same] at waiting
      rw [Waits, core, awaited t tp same waiting]
      exact inv.waits t tp waiting
  freeing := freeing
  doomed := doomed
  registry := registry

/-- A step that changes references only. -/
theorem Inv.recount (inv : Inv idle s l) {new : ThdPc T} (core : s'.core = s.core)
    (sleeping : s'.p_waiting = s.p_waiting)
    (links : s'.links = s.links) (pc : s'.pc = Function.update s.pc s.core.currp new)
      (calm : ∀ tp, new ≠ .waiting tp)
    (before : ∀ tp msg, s.pc s.core.currp ≠ .freeing tp msg)
      (after : ∀ tp msg, new ≠ .freeing tp msg)
    (life : ∀ t, (l'.obj t).life = (l.obj t).life)
      (collected : ∀ t, (l'.obj t).collected = (l.obj t).collected)
    (obj : ∀ t, Matches s' t (l'.obj t))
      (got : l'.got = Function.update l.got s.core.currp (result new))
    (refs : ∃ owners,
      Queued none (owns ∘ s'.pc) owners ∧ ∀ t, (l'.obj t).refs = total s' owners t) :
      Inv idle s' l' := by
  have free : ∀ t tp msg, s'.pc t = .freeing tp msg ↔ s.pc t = .freeing tp msg := by
    rw [pc]
    exact freeing_update before after
  apply inv.turn core sleeping pc calm _ _ obj got refs
  · intro t tp msg eq
    rw [life]
    exact inv.freeing t tp msg ((free t tp msg).mp eq)
  · intro tp doomed
    rw [life] at doomed
    simp only [free]
    exact inv.doomed tp doomed
  · obtain ⟨reg, ring, mem⟩ := inv.registry
    refine ⟨reg, links ▸ ring, ?_⟩
    intro t
    rw [mem, listed, listed, life, collected]
  · intro t running
    rw [life]
    exact running
  · intro t tp _ _
    exact life tp

/-! ### More references -/

/-- A thread to which there is a reference. -/
theorem Inv.present (inv : Inv idle s l) {tp : T} (pos : 0 < (l.obj tp).refs) :
    (l.obj tp).present = true := by
  rcases ((inv.obj tp).of_refs pos).2 with ⟨running, -⟩ | ⟨exited, -⟩
  · exact present_of_running running
  · exact present_of_exited exited

theorem Inv.held_le (inv : Inv idle s l) (tp : T) : s.held tp ≤ (l.obj tp).refs := by
  obtain ⟨owners, -, refs⟩ := inv.refs
  rw [refs, total]
  omega

/-- Only references, calls and the log change. -/
structure OnlyRefs (s s' : Threads T) : Prop where
  core : s'.core = s.core
  sleeping : s'.p_waiting = s.p_waiting
  links : s'.links = s.links
  area : s'.area = s.area
  flags : s'.p_flags = s.p_flags
  exitcode : s'.exitcode = s.exitcode

/-- The number of references to one thread changes. -/
theorem Inv.setRefs (inv : Inv idle s l) {tp : T} {n : Nat} {new : ThdPc T}
    (present : (l.obj tp).present = true)
    (only : OnlyRefs s s') (count : (s'.p_refs tp).toNat = n)
      (same : ∀ t, t ≠ tp → s'.p_refs t = s.p_refs t)
    (pc : s'.pc = Function.update s.pc s.core.currp new) (calm : ∀ tp, new ≠ .waiting tp)
    (before : ∀ tp msg, s.pc s.core.currp ≠ .freeing tp msg)
      (after : ∀ tp msg, new ≠ .freeing tp msg)
    (refs : ∃ owners, Queued none (owns ∘ s'.pc) owners ∧
      ∀ t, total s' owners t = if t = tp then n else (l.obj t).refs) :
    Inv idle s' { l.set tp ⟨(l.obj tp).life, n, (l.obj tp).collected⟩ with
      got := Function.update l.got s.core.currp (result new) } := by
  refine inv.recount only.core only.sleeping only.links pc calm before after ?life ?collected ?obj
    rfl ?refs
  case life =>
    intro t
    dsimp only
    by_cases eq : t = tp
    · rw [eq, Ledger.set_self]
    · rw [l.set_of_ne eq]
  case collected =>
    intro t
    dsimp only
    by_cases eq : t = tp
    · rw [eq, Ledger.set_self]
    · rw [l.set_of_ne eq]
  case obj =>
    intro t
    dsimp only
    by_cases eq : t = tp
    · subst eq
      rw [Ledger.set_self]
      apply (inv.obj t).recount present count
      · rw [only.area]
      · rw [only.flags]
      · rw [only.exitcode]
      · rw [only.core]
    · rw [l.set_of_ne eq]
      apply (inv.obj t).congr
      · rw [only.area]
      · rw [only.flags]
      · exact same t eq
      · rw [only.exitcode]
      · rw [only.core]
  case refs =>
    obtain ⟨owners, queued, sum⟩ := refs
    refine ⟨owners, queued, ?_⟩
    intro t
    dsimp only
    rw [sum]
    by_cases eq : t = tp
    · rw [if_pos eq, eq, Ledger.set_self]
    · rw [if_neg eq, l.set_of_ne eq]

/-- A thread gets one reference more. -/
theorem Inv.retain (inv : Inv idle s l) {tp : T} {new : ThdPc T}
    (present : (l.obj tp).present = true)
    (few : (s.p_refs tp).toNat < 255) (only : OnlyRefs s s')
    (p_refs : s'.p_refs = Function.update s.p_refs tp (s.p_refs tp + 1))
    (pc : s'.pc = Function.update s.pc s.core.currp new) (calm : ∀ tp, new ≠ .waiting tp)
    (before : ∀ tp msg, s.pc s.core.currp ≠ .freeing tp msg)
      (after : ∀ tp msg, new ≠ .freeing tp msg)
    (same : result new = result (s.pc s.core.currp))
    (refs : ∃ owners, Queued none (owns ∘ s'.pc) owners ∧
      ∀ t, total s' owners t = (l.obj t).refs + if t = tp then 1 else 0) :
    Inv idle s' (l.set tp ⟨(l.obj tp).life, (l.obj tp).refs + 1, (l.obj tp).collected⟩) := by
  have count : (s'.p_refs tp).toNat = (l.obj tp).refs + 1 := by
    have old : (s.p_refs tp).toNat = (l.obj tp).refs := by
      cases life : (l.obj tp).life with
      | absent => simp [Obj.present, life] at present
      | running => exact ((inv.obj tp).running life).1.refs
      | exited code => exact ((inv.obj tp).exited life).1.refs
      | doomed => simp [Obj.present, life] at present
    rw [p_refs, Function.update_self, UInt8.toNat_add]
    change ((s.p_refs tp).toNat + 1) % 256 = _
    omega
  have got : Function.update l.got s.core.currp (result new) = l.got := by
    rw [same, inv.got]
    exact Function.update_eq_self _ _
  obtain ⟨owners, queued, sum⟩ := refs
  have retained := inv.setRefs present only count
    (fun t differs => by rw [p_refs, Function.update_of_ne differs]) pc calm
    before after ⟨owners, queued, ?_⟩
  · rw [got] at retained
    exact retained
  · intro t
    rw [sum]
    by_cases eq : t = tp
    · rw [if_pos eq, if_pos eq, eq]
    · rw [if_neg eq, if_neg eq]
      rfl

/-- A step adds events that belong there. -/
def Goes (idle : T) (l : Ledger T T Int) (s s' : Threads T) : Prop :=
  ∃ more l', s'.log = s.log ++ more ∧ replay l more = some l' ∧ Inv idle s' l'

theorem goes_one {e : ThdEvent T} (log : s'.log = s.log ++ [e]) (next : l.next e = some l')
    (inv : Inv idle s' l') :
    Goes idle l s s' := by
  refine ⟨[e], l', log, ?_, inv⟩
  simp [replay, next]

theorem goes_none (log : s'.log = s.log) (inv : Inv idle s' l) : Goes idle l s s' :=
  ⟨[], l, by rw [log, List.append_nil], rfl, inv⟩

theorem next_retained {tp : T} (present : (l.obj tp).present = true) :
    l.next (.retained tp) =
      some (l.set tp ⟨(l.obj tp).life, (l.obj tp).refs + 1, (l.obj tp).collected⟩) :=
  if_pos present

theorem Inv.addRef (inv : Inv idle s l) {tp : T} (out : s.pc s.core.currp = .outside)
    (known : 0 < s.held tp ∨ tp = s.core.currp) (few : (s.p_refs tp).toNat < 255) :
    Goes idle l s (((s.chThdAddRef tp).hold tp).note (.retained tp)) := by
  have present : (l.obj tp).present = true := by
    rcases known with pos | rfl
    · exact inv.present (lt_of_lt_of_le pos (inv.held_le tp))
    · exact present_of_running inv.current_running
  obtain ⟨owners, queued, refs⟩ := inv.refs
  have pc : s.pc = Function.update s.pc s.core.currp .outside := by
    rw [← out, Function.update_eq_self]
  refine goes_one rfl (next_retained present)
    (inv.retain present few ⟨rfl, rfl, rfl, rfl, rfl, rfl⟩ rfl pc ?_ ?_ ?_ ?_ ?_)
  · simp
  · simp [out]
  · simp
  · rw [out]
  · refine ⟨owners, queued, ?_⟩
    intro t
    rw [refs, total, total]
    change Function.update s.held tp (s.held tp + 1) t + (owners t).length +
      (if s.cursor = some t then 1 else 0) = _
    by_cases same : t = tp
    · rw [same, Function.update_self, if_pos rfl]
      omega
    · rw [Function.update_of_ne same, if_neg same]
      rfl

/-! ### Fewer references -/

/-- The events of the end of a call. -/
def returns (c : T) : Option Int → List (ThdEvent T)
  | some msg => [.returned c msg]
  | none => []

theorem leave_log (s : Threads T) (msg : Option Int) :
    (s.leave msg).log = s.log ++ returns s.core.currp msg := by
  cases msg with
  | none => exact (List.append_nil _).symm
  | some msg => rfl

theorem replay_returns {c : T} {msg : Option Int} (got : l.got c = msg) :
    replay l (returns c msg) = some { l with got := Function.update l.got c none } := by
  cases msg with
  | none =>
      rw [Function.update_eq_self_iff.mpr got.symm]
      rfl
  | some msg => simp [returns, replay, Ledger.next, got]

/-- A step that ends a call. -/
theorem goes_leave {e : ThdEvent T} {msg : Option Int} {l₁ : Ledger T T Int}
    (log : s'.log = s.log ++ [e]) (next : l.next e = some l₁) (got : l₁.got s'.core.currp = msg)
    (inv : Inv idle (s'.leave msg) { l₁ with got := Function.update l₁.got s'.core.currp none }) :
    Goes idle l s (s'.leave msg) := by
  refine ⟨[e] ++ returns s'.core.currp msg, _, ?_, ?_, inv⟩
  · rw [leave_log, log, List.append_assoc]
  · rw [replay_append]
    simp only [replay, List.foldlM_cons, List.foldlM_nil, next]
    exact replay_returns got

/-- Who is to free the area of an exited thread is new. -/
theorem Inv.not_freeing (inv : Inv idle s l) {tp : T} {code : Int}
    (life : (l.obj tp).life = .exited code) {t q : T} {msg : Option Int}
    (eq : s.pc t = .freeing q msg) :
    q ≠ tp := by
  rintro rfl
  have doomed := inv.freeing t q msg eq
  rw [life] at doomed
  cases doomed

/-- The current thread is to free the area, and nobody else is. -/
theorem Inv.doom_freeing (inv : Inv idle s l) {tp : T} {msg : Option Int} {code : Int}
    (life : (l.obj tp).life = .exited code)
    (before : ∀ tp msg, s.pc s.core.currp ≠ .freeing tp msg) (q : T)
    (doomed : ((l.set tp ⟨.doomed, 0, true⟩).obj q).life = .doomed) :
    ∃ t, ∀ t', (∃ m, Function.update s.pc s.core.currp (.freeing tp msg) t' = .freeing q m) ↔
      t' = t := by
  by_cases eq : q = tp
  · subst eq
    refine ⟨s.core.currp, ?_⟩
    intro t
    by_cases same : t = s.core.currp
    · rw [same, Function.update_self]
      exact iff_of_true ⟨msg, rfl⟩ rfl
    · rw [Function.update_of_ne same]
      refine iff_of_false ?_ same
      rintro ⟨m, eq⟩
      exact inv.not_freeing life eq rfl
  · rw [l.set_of_ne eq] at doomed
    obtain ⟨f, only⟩ := inv.doomed q doomed
    refine ⟨f, ?_⟩
    intro t
    rw [← only]
    by_cases same : t = s.core.currp
    · subst same
      rw [Function.update_self]
      apply iff_of_false
      · rintro ⟨m, here⟩
        cases here
        exact eq rfl
      · rintro ⟨m, here⟩
        exact before q m here
    · rw [Function.update_of_ne same]

/-- A thread from the heap leaves the registry with its last reference. -/
theorem Inv.doom_registry (inv : Inv idle s l) {tp : T} {code : Int}
    (life : (l.obj tp).life = .exited code) (collected : (l.obj tp).collected = true) :
    ∃ reg : List T, Ring (REG_REMOVE s.links tp) none (reg.map some) ∧
      ∀ t, t ∈ reg ↔ listed ((l.set tp ⟨.doomed, 0, true⟩).obj t) = true := by
  obtain ⟨reg, ring, mem⟩ := inv.registry
  have here : tp ∈ reg := by
    rw [mem, listed, life]
    exact collected
  obtain ⟨rest, ring, -, mem_rest⟩ := registry_remove ring here
  refine ⟨rest, ring, ?_⟩
  intro t
  rw [mem_rest]
  by_cases eq : t = tp
  · subst eq
    rw [Ledger.set_self]
    simp [listed]
  · rw [l.set_of_ne eq, ← mem]
    simp [eq]

/-- The last reference to a thread from the heap is released after its exit: it leaves the
registry, and the current thread is to free the area. -/
theorem Inv.doom (inv : Inv idle s l) {tp : T} {msg : Option Int} {held : T → Nat}
    {p_refs : T → UInt8} {log : List (ThdEvent T)} {code : Int}
    (life : (l.obj tp).life = .exited code)
    (collected : (l.obj tp).collected = true) (flags : s.p_flags tp = .HEAP)
    (zero : p_refs tp = 0) (same : ∀ t, t ≠ tp → p_refs t = s.p_refs t)
    (before : ∀ tp msg, s.pc s.core.currp ≠ .freeing tp msg)
    (mine : result (s.pc s.core.currp) = msg)
    (refs : ∃ owners, Queued none (owns ∘ Function.update s.pc s.core.currp .outside) owners ∧
      ∀ t, (if t = tp then 0 else (l.obj t).refs) =
        held t + (owners t).length + if s.cursor = some t then 1 else 0) :
    Inv idle
      { s with
        held := held
        p_refs := p_refs
        links := REG_REMOVE s.links tp
        pc := Function.update s.pc s.core.currp (.freeing tp msg)
        log := log } (l.set tp ⟨.doomed, 0, true⟩) := by
  obtain ⟨known, final, -⟩ := (inv.obj tp).exited life
  obtain ⟨owners, queued, count⟩ := refs
  have unowned : owners tp = [] := by
    have none := count tp
    rw [if_pos rfl] at none
    apply List.length_eq_zero_iff.mp
    omega
  have off : owns ∘ Function.update s.pc s.core.currp (.freeing tp msg) =
      owns ∘ Function.update s.pc s.core.currp .outside := by
    rw [Function.comp_update, Function.comp_update]
    rfl
  refine inv.turn rfl rfl rfl ?calm ?runs ?awaited ?obj ?got ?refs ?freeing
    (inv.doom_freeing life before) (inv.doom_registry life collected)
  case calm =>
    simp
  case runs =>
    intro t running
    rw [l.set_of_ne]
    · exact running
    · rintro rfl
      rw [life] at running
      cases running
  case awaited =>
    intro t q differs waiting
    rw [l.set_of_ne]
    rintro rfl
    have mem : t ∈ owners q := by
      rw [queued.mem_iff]
      change owns (Function.update s.pc s.core.currp .outside t) = _
      rw [Function.update_of_ne differs, waiting]
      rfl
    rw [unowned] at mem
    cases mem
  case obj =>
    intro t
    by_cases eq : t = tp
    · subst eq
      rw [Ledger.set_self, Matches]
      exact ⟨known.area, flags, rfl, final, zero⟩
    · rw [l.set_of_ne eq]
      exact (inv.obj t).congr rfl rfl (same t eq) rfl rfl
  case got =>
    change l.got = Function.update l.got s.core.currp msg
    rw [← mine, inv.got]
    exact (Function.update_eq_self _ _).symm
  case refs =>
    refine ⟨owners, off ▸ queued, ?_⟩
    intro t
    refine Eq.trans ?_ (count t)
    by_cases eq : t = tp
    · rw [eq, Ledger.set_self, if_pos rfl]
    · rw [l.set_of_ne eq, if_neg eq]
  case freeing =>
    intro t q m eq
    change Function.update s.pc s.core.currp (.freeing tp msg) t = _ at eq
    by_cases same : t = s.core.currp
    · rw [same, Function.update_self] at eq
      cases eq
      rw [Ledger.set_self]
    · rw [Function.update_of_ne same] at eq
      rw [l.set_of_ne (inv.not_freeing life eq)]
      exact inv.freeing t q m eq

/-- One reference less, and the call is over. -/
theorem Inv.settle (inv : Inv idle s l) {tp : T} {held : T → Nat} {p_refs : T → UInt8}
    {log : List (ThdEvent T)} {msg : Option Int}
    (pos : 0 < (l.obj tp).refs) (count : (p_refs tp).toNat = (l.obj tp).refs - 1)
    (same : ∀ t, t ≠ tp → p_refs t = s.p_refs t)
    (before : ∀ tp msg, s.pc s.core.currp ≠ .freeing tp msg)
    (refs : ∃ owners, Queued none (owns ∘ Function.update s.pc s.core.currp .outside) owners ∧
      ∀ t, (l.obj t).refs =
        (held t + (owners t).length + if s.cursor = some t then 1 else 0) + if t = tp then 1 else 0) :
    Inv idle (leave { s with held := held, p_refs := p_refs, log := log } msg)
      { l.set tp ⟨(l.obj tp).life, (l.obj tp).refs - 1, (l.obj tp).collected⟩ with
        got := Function.update l.got s.core.currp none } := by
  obtain ⟨owners, queued, sum⟩ := refs
  have only : OnlyRefs s (leave { s with held := held, p_refs := p_refs, log := log } msg) :=
    ⟨rfl, rfl, rfl, rfl, rfl, rfl⟩
  have pc : (leave { s with held := held, p_refs := p_refs, log := log } msg).pc =
      Function.update s.pc s.core.currp .outside := rfl
  refine inv.setRefs (inv.present pos) only count same pc (by simp) before (by simp)
    ⟨owners, queued, ?_⟩
  intro t
  have here := sum t
  change held t + (owners t).length + (if s.cursor = some t then 1 else 0) = _
  by_cases eq : t = tp
  · subst eq
    rw [if_pos rfl] at here ⊢
    omega
  · rw [if_neg eq] at here ⊢
    omega

/-- The counter reaches zero with the last reference. -/
theorem Inv.last_iff (inv : Inv idle s l) {tp : T} (pos : 0 < (l.obj tp).refs) :
    (s.p_refs tp - 1).toNat + 1 = (l.obj tp).refs ∧
      (s.p_refs tp - 1 = 0 ↔ (l.obj tp).refs = 1) := by
  have known := ((inv.obj tp).of_refs pos).1
  have one : 1 ≤ s.p_refs tp := by
    rw [UInt8.le_iff_toNat_le, known.refs]
    exact pos
  have count : (s.p_refs tp - 1).toNat = (l.obj tp).refs - 1 := by
    rw [UInt8.toNat_sub_of_le _ _ one, known.refs]
    rfl
  refine ⟨by omega, ?_⟩
  rw [← UInt8.toNat_inj, count]
  change _ - 1 = 0 ↔ _
  omega

/-- `chThdRelease` of a reference that is not counted any more. -/
theorem Inv.release (inv : Inv idle s l) {tp : T} {msg : Option Int} {held : T → Nat}
    (before : ∀ tp msg, s.pc s.core.currp ≠ .freeing tp msg)
    (mine : result (s.pc s.core.currp) = msg)
    (refs : ∃ owners, Queued none (owns ∘ Function.update s.pc s.core.currp .outside) owners ∧
      ∀ t, (l.obj t).refs =
        (held t + (owners t).length + if s.cursor = some t then 1 else 0) + if t = tp then 1 else 0) :
    Goes idle l s (Threads.release { s with held := held, log := s.log ++ [.released tp] } tp msg) := by
  have pos : 0 < (l.obj tp).refs := by
    obtain ⟨owners, -, sum⟩ := refs
    rw [sum, if_pos rfl]
    omega
  obtain ⟨known, life⟩ := (inv.obj tp).of_refs pos
  obtain ⟨count, zero⟩ := inv.last_iff pos
  have got : l.got s.core.currp = msg := by
    rw [inv.got, ← mine]
    rfl
  have next : l.next (.released tp) = some (l.set tp (l.obj tp).release) := if_pos pos
  unfold Threads.release
  dsimp only
  split
  · rename_i last
    obtain ⟨none, final, flags⟩ := last
    have collected : (l.obj tp).collected = true := known.collected_iff.mpr flags
    have exited : (l.obj tp).life = .exited (s.exitcode tp) := by
      rcases life with ⟨-, awake⟩ | ⟨exited, -⟩
      · exact absurd (Core.waiting_eq_some.mpr final) awake
      · exact exited
    have dooms : (l.obj tp).release = ⟨.doomed, 0, true⟩ :=
      if_pos ⟨zero.mp none, by rw [Obj.ended, exited], collected⟩
    rw [dooms] at next
    refine goes_one rfl
      next (inv.doom exited collected flags ((Function.update_self _ _ _).trans none)
        (fun t differs => Function.update_of_ne differs _ _) before mine ?_)
    obtain ⟨owners, queued, sum⟩ := refs
    refine ⟨owners, queued, ?_⟩
    intro t
    have here := sum t
    by_cases eq : t = tp
    · rw [if_pos eq] at here ⊢
      rw [eq, zero.mp none] at here
      rw [eq]
      omega
    · rw [if_neg eq] at here ⊢
      exact here
  · rename_i more
    have keeps : (l.obj tp).release =
        ⟨(l.obj tp).life, (l.obj tp).refs - 1, (l.obj tp).collected⟩ := by
      apply release_life
      by_contra doomed
      simp only [not_or, not_not, Bool.not_eq_false] at doomed
      obtain ⟨last, ended, collected⟩ := doomed
      refine more ⟨zero.mpr last, ?_, ?_⟩
      · rcases life with ⟨running, -⟩ | ⟨-, final⟩
        · rw [Obj.ended, running] at ended
          cases ended
        · exact Core.waiting_eq_some.mp final
      · exact known.collected_iff.mp collected
    rw [keeps] at next
    refine goes_leave rfl next got (inv.settle pos ?_ ?_ before refs)
    · rw [Function.update_self]
      omega
    · intro t differs
      exact Function.update_of_ne differs _ _

theorem Inv.chThdRelease (inv : Inv idle s l) {tp : T} (out : s.pc s.core.currp = .outside)
    (mine : 0 < s.held tp) :
    Goes idle l s (((s.handOver tp).note (.released tp)).chThdRelease tp) := by
  apply inv.release
  · simp [out]
  · rw [out]
    rfl
  · obtain ⟨owners, queued, refs⟩ := inv.refs
    refine ⟨owners, ?_, ?_⟩
    · apply owners_stay queued
      rw [out]
    · intro t
      rw [refs, total]
      change _ = Function.update s.held tp (s.held tp - 1) t + (owners t).length + _ + _
      by_cases same : t = tp
      · rw [same, Function.update_self, if_pos rfl]
        omega
      · rw [Function.update_of_ne same, if_neg same]
        rfl

/-- The release at the end of `chThdWait` and `chRegNextThread`. -/
theorem Inv.releasing (inv : Inv idle s l) {tp : T} {msg : Option Int}
    (inside : s.pc s.core.currp = .releasing tp msg) :
    Goes idle l s ((s.note (.released tp)).release tp msg) := by
  apply inv.release
  · simp [inside]
  · rw [inside]
    rfl
  · obtain ⟨owners, queued, refs⟩ := inv.refs
    have here : owns (s.pc s.core.currp) = some tp := by
      rw [inside]
      rfl
    refine ⟨_, owners_depart queued here rfl, ?_⟩
    intro t
    have length := length_erase queued here
    rw [refs, total]
    by_cases same : t = tp
    · rw [same, Function.update_self, if_pos rfl]
      omega
    · rw [Function.update_of_ne same, if_neg same]
      rfl

/-- No other thread is about to free the same area. -/
theorem Inv.freeing_alone (inv : Inv idle s l) {tp : T} {msg : Option Int}
    (inside : s.pc s.core.currp = .freeing tp msg) {t q : T} {m : Option Int}
    (differs : t ≠ s.core.currp) (eq : s.pc t = .freeing q m) : q ≠ tp := by
  rintro rfl
  obtain ⟨f, only⟩ := inv.doomed q (inv.freeing _ _ _ inside)
  rw [(only s.core.currp).mp ⟨msg, inside⟩] at differs
  exact differs ((only t).mp ⟨m, eq⟩)

/-- Nobody waits for a thread of which the area is freed. -/
theorem Inv.freeing_unawaited (inv : Inv idle s l) {tp : T} {msg : Option Int}
    (inside : s.pc s.core.currp = .freeing tp msg) {t q : T} (waiting : s.pc t = .waiting q) :
    q ≠ tp := by
  rintro rfl
  have life := inv.freeing _ _ _ inside
  rcases inv.waits t q waiting with ⟨-, running⟩ | ⟨-, code, exited⟩
  · rw [life] at running
    cases running
  · rw [life] at exited
    cases exited

/-- What is still to be freed is to be freed by the others. -/
theorem Inv.freed_doomed (inv : Inv idle s l) {tp : T} {msg : Option Int}
    (inside : s.pc s.core.currp = .freeing tp msg) {q : T} (other : q ≠ tp)
    (doomed : (l.obj q).life = .doomed) :
    ∃ t, ∀ t', (∃ m, Function.update s.pc s.core.currp .outside t' = .freeing q m) ↔ t' = t := by
  obtain ⟨g, only⟩ := inv.doomed q doomed
  refine ⟨g, ?_⟩
  intro t
  rw [← only]
  by_cases same : t = s.core.currp
  · subst same
    rw [Function.update_self, inside]
    apply iff_of_false
    · simp
    · rintro ⟨m, here⟩
      cases here
      exact other rfl
  · rw [Function.update_of_ne same]

/-- The area goes back to the heap. -/
theorem Inv.freed (inv : Inv idle s l) {tp : T} {msg : Option Int}
    (inside : s.pc s.core.currp = .freeing tp msg) :
    Goes idle l s (s.chHeapFree tp msg) := by
  have life := inv.freeing _ _ _ inside
  have there := inv.obj tp
  rw [Matches, life] at there
  obtain ⟨-, -, zero, final, -⟩ := there
  refine goes_leave rfl (if_pos life) (by rw [Ledger.set, inv.got]; exact congrArg result inside) ?_
  refine inv.turn rfl rfl rfl ?calm ?runs ?awaited ?here rfl ?refs ?freeing ?doomed ?registry
  case calm =>
    simp
  case runs =>
    intro t running
    dsimp only
    rw [l.set_of_ne]
    · exact running
    · rintro rfl
      rw [life] at running
      cases running
  case awaited =>
    intro t q differs waiting
    dsimp only
    rw [l.set_of_ne (inv.freeing_unawaited inside waiting)]
  case here =>
    intro t
    dsimp only
    by_cases eq : t = tp
    · subst eq
      rw [Ledger.set_self, Matches]
      exact ⟨Function.update_self _ _ _, rfl, .inr final⟩
    · rw [l.set_of_ne eq]
      exact (inv.obj t).congr (Function.update_of_ne eq _ _) rfl rfl rfl rfl
  case refs =>
    obtain ⟨owners, queued, refs⟩ := inv.refs
    refine ⟨owners, owners_stay queued ?_, ?_⟩
    · rw [inside]
      rfl
    · intro t
      refine Eq.trans ?_ (refs t)
      dsimp only
      by_cases eq : t = tp
      · rw [eq, Ledger.set_self, zero]
      · rw [l.set_of_ne eq]
  case freeing =>
    intro t q m eq
    change Function.update s.pc s.core.currp .outside t = _ at eq
    dsimp only
    by_cases same : t = s.core.currp
    · rw [same, Function.update_self] at eq
      cases eq
    · rw [Function.update_of_ne same] at eq
      rw [l.set_of_ne (inv.freeing_alone inside same eq)]
      exact inv.freeing t q m eq
  case doomed =>
    intro q doomed
    dsimp only at doomed
    have eq : q ≠ tp := by
      rintro rfl
      rw [Ledger.set_self] at doomed
      cases doomed
    rw [l.set_of_ne eq] at doomed
    exact inv.freed_doomed inside eq doomed
  case registry =>
    obtain ⟨reg, ring, mem⟩ := inv.registry
    refine ⟨reg, ring, ?_⟩
    intro t
    dsimp only
    by_cases eq : t = tp
    · subst eq
      rw [mem, Ledger.set_self, listed, life]
      simp [listed]
    · rw [l.set_of_ne eq, mem]

/-! ### Exit codes -/

/-- `chThdWait` reads the exit code; the reference of the caller is counted with the call from
here on. -/
theorem Inv.collect (inv : Inv idle s l) {tp : T} {held : T → Nat} {code : Int}
    (before : ∀ tp msg, s.pc s.core.currp ≠ .freeing tp msg)
      (exited : (l.obj tp).life = .exited code)
    (pos : 0 < (l.obj tp).refs)
    (refs : ∃ owners,
      Queued none (owns ∘ Function.update s.pc s.core.currp (.releasing tp (some (s.exitcode tp))))
        owners ∧
        ∀ t, (l.obj t).refs = held t + (owners t).length + if s.cursor = some t then 1 else 0) :
    Goes idle l s (Threads.collect { s with held := held } tp) := by
  obtain ⟨-, -, code_eq⟩ := (inv.obj tp).exited exited
  have next : l.next (.read s.core.currp tp (s.exitcode tp)) =
      some { l with got := Function.update l.got s.core.currp (some (s.exitcode tp)) } :=
    if_pos ⟨by rw [exited, code_eq], pos⟩
  refine goes_one rfl next (inv.recount rfl rfl rfl rfl ?_ before ?_ ?_ ?_ ?_ rfl refs)
  · simp
  · simp
  · intro t
    rfl
  · intro t
    rfl
  · intro t
    exact (inv.obj t).congr rfl rfl rfl rfl rfl

theorem Inv.resume (inv : Inv idle s l) {tp : T} (inside : s.pc s.core.currp = .waiting tp) :
    Goes idle l s (s.collect tp) := by
  obtain ⟨owners, queued, refs⟩ := inv.refs
  have here : owns (s.pc s.core.currp) = some tp := by
    rw [inside]
    rfl
  have pos : 0 < (l.obj tp).refs := by
    have mem := List.length_pos_of_mem (queued.mem_iff.mpr here)
    rw [refs, total]
    omega
  rcases inv.waits _ _ inside with ⟨asleep, -⟩ | ⟨-, code, exited⟩
  · rw [inv.core.inv.waiting_currp] at asleep
    cases asleep
  · refine inv.collect (by simp [inside]) exited pos ⟨owners, owners_stay queued ?_, refs⟩
    rw [here]
    rfl

section Await

variable {tp : T}

/-- The caller of `chThdWait` falls asleep; the others are as they were. -/
theorem Inv.await_core (inv : Inv idle s l) (other : s.core.currp ≠ idle) :
    (s.core.chSchGoSleepS ThdWait.WTEXIT).Sound idle ∧
      (s.core.chSchGoSleepS ThdWait.WTEXIT).waiting s.core.currp = some .WTEXIT ∧
      ∀ t, t ≠ s.core.currp →
        (s.core.chSchGoSleepS ThdWait.WTEXIT).waiting t = s.core.waiting t := by
  have sleeps := inv.core.goSleep other ThdWait.WTEXIT
  refine ⟨sleeps.sound, ?_, ?_⟩
  · rw [sleeps.waiting, Function.update_self]
  · intro t differs
    rw [sleeps.waiting, Function.update_of_ne differs]

/-- A thread outside is in `chThdWait` for nobody. -/
theorem Inv.not_asleep (inv : Inv idle s l) (out : s.pc s.core.currp = .outside) (q : T) :
    s.core.currp ∉ s.p_waiting q := by
  rw [inv.sleepers, out]
  simp

theorem Inv.await_sleepers (inv : Inv idle s l) (out : s.pc s.core.currp = .outside)
    (other : s.core.currp ≠ idle) (q t : T) :
    t ∈ Function.update s.p_waiting tp (s.core.currp :: s.p_waiting tp) q ↔
      Function.update s.pc s.core.currp (.waiting tp) t = .waiting q ∧
        (s.core.chSchGoSleepS ThdWait.WTEXIT).waiting t = some .WTEXIT := by
  obtain ⟨-, self, others⟩ := inv.await_core other
  by_cases same : t = s.core.currp
  · rw [same, Function.update_self, self]
    by_cases target : q = tp
    · rw [target, Function.update_self]
      simp
    · rw [Function.update_of_ne target]
      refine iff_of_false (inv.not_asleep out q) ?_
      rintro ⟨eq, -⟩
      cases eq
      exact target rfl
  · rw [Function.update_of_ne same, others t same, ← inv.sleepers]
    by_cases target : q = tp
    · rw [target, Function.update_self, List.mem_cons]
      simp [same]
    · rw [Function.update_of_ne target]

theorem Inv.await_nodup (inv : Inv idle s l) (out : s.pc s.core.currp = .outside) (q : T) :
    (Function.update s.p_waiting tp (s.core.currp :: s.p_waiting tp) q).Nodup := by
  by_cases target : q = tp
  · rw [target, Function.update_self]
    exact List.nodup_cons.mpr ⟨inv.not_asleep out tp, inv.nodup tp⟩
  · rw [Function.update_of_ne target]
    exact inv.nodup q

/-- The caller waits for a thread that runs. -/
theorem Inv.await_waits (inv : Inv idle s l) (other : s.core.currp ≠ idle)
    (running : (l.obj tp).life = .running) {t q : T}
    (waiting : Function.update s.pc s.core.currp (.waiting tp) t = .waiting q) :
    ((s.core.chSchGoSleepS ThdWait.WTEXIT).waiting t = some .WTEXIT ∧ (l.obj q).life = .running) ∨
      ((s.core.chSchGoSleepS ThdWait.WTEXIT).waiting t = none ∧
        ∃ code, (l.obj q).life = .exited code) := by
  obtain ⟨-, self, others⟩ := inv.await_core other
  by_cases same : t = s.core.currp
  · rw [same, Function.update_self] at waiting
    cases waiting
    exact .inl ⟨same ▸ self, running⟩
  · rw [Function.update_of_ne same] at waiting
    rw [others t same]
    exact inv.waits t q waiting

/-- The caller of `chThdWait` falls asleep, and its reference is counted with the call. -/
theorem Inv.await (inv : Inv idle s l) {held : T → Nat}
    (out : s.pc s.core.currp = .outside)
    (other : s.core.currp ≠ idle) (running : (l.obj tp).life = .running)
    (refs : ∃ owners, Queued none (owns ∘ Function.update s.pc s.core.currp (.waiting tp)) owners ∧
      ∀ t, (l.obj t).refs = held t + (owners t).length + if s.cursor = some t then 1 else 0) :
    Inv idle
      { s with
        held := held
        p_waiting := Function.update s.p_waiting tp (s.core.currp :: s.p_waiting tp)
        core := s.core.chSchGoSleepS .WTEXIT
        pc := Function.update s.pc s.core.currp (.waiting tp) } l := by
  obtain ⟨sound, self, others⟩ := inv.await_core other
  have free : ∀ t q m, Function.update s.pc s.core.currp (.waiting tp) t = .freeing q m ↔
      s.pc t = .freeing q m :=
    freeing_update (by simp [out]) (by simp)
  refine
    { core := sound
      obj := ?obj
      got := ?got
      inside := ?inside
      refs := refs
      sleepers := inv.await_sleepers out other
      nodup := inv.await_nodup out
      waits := fun t q waiting => inv.await_waits other running waiting
      freeing := fun t q m eq => inv.freeing t q m ((free t q m).mp eq)
      doomed := ?doomed
      registry := inv.registry }
  case obj =>
    intro t
    by_cases same : t = s.core.currp
    · rw [same]
      obtain ⟨⟨area, flags, refs⟩, -⟩ := (inv.obj _).running inv.current_running
      rw [Matches, inv.current_running]
      refine ⟨⟨area, flags, refs⟩, ?_, ?_⟩
      · change (s.core.chSchGoSleepS ThdWait.WTEXIT).waiting _ ≠ _
        simp [self]
      · change (s.core.chSchGoSleepS ThdWait.WTEXIT).waiting _ ≠ _
        simp [self]
    · exact (inv.obj t).congr rfl rfl rfl rfl (others t same)
  case got =>
    change _ = result ∘ Function.update s.pc s.core.currp (.waiting tp)
    rw [Function.comp_update, inv.got]
    apply (Function.update_eq_self_iff.mpr _).symm
    change none = result (s.pc s.core.currp)
    rw [out]
    rfl
  case inside =>
    intro t inside
    change Function.update s.pc s.core.currp (.waiting tp) t ≠ _ at inside
    by_cases same : t = s.core.currp
    · rw [same]
      exact inv.current_running
    · rw [Function.update_of_ne same] at inside
      exact inv.inside t inside
  case doomed =>
    intro q doomed
    simp only [free]
    exact inv.doomed q doomed

end Await

theorem Inv.chThdWait (inv : Inv idle s l) {tp : T} (out : s.pc s.core.currp = .outside)
    (mine : 0 < s.held tp) (other : s.core.currp ≠ idle) :
    Goes idle l s ((s.handOver tp).chThdWait tp) := by
  have pos : 0 < (l.obj tp).refs := lt_of_lt_of_le mine (inv.held_le tp)
  have refs : ∀ new, owns new = some tp →
    ∃ owners, Queued none (owns ∘ Function.update s.pc s.core.currp new) owners ∧
      ∀ t, (l.obj t).refs =
        Function.update s.held tp (s.held tp - 1) t + (owners t).length +
          if s.cursor = some t then 1 else 0 := by
    intro new eq
    obtain ⟨owners, queued, refs⟩ := inv.refs
    refine ⟨_, owners_arrive queued (by rw [out]; rfl) eq, ?_⟩
    intro t
    rw [refs, total]
    by_cases same : t = tp
    · rw [same, Function.update_self, Function.update_self, List.length_cons]
      omega
    · rw [Function.update_of_ne same, Function.update_of_ne same]
  obtain ⟨-, life⟩ := (inv.obj tp).of_refs pos
  unfold Threads.chThdWait
  split
  · rename_i final
    rcases life with ⟨-, awake⟩ | ⟨exited, -⟩
    · exact absurd (Core.waiting_eq_some.mpr final) awake
    · exact inv.collect (by simp [out]) exited pos (refs _ rfl)
  · rename_i final
    rcases life with ⟨running, -⟩ | ⟨-, ended⟩
    · exact goes_none rfl (inv.await out other running (refs _ rfl))
    · exact absurd (Core.waiting_eq_some.mp ended) final

end LtcOs.Kernel.Threads
