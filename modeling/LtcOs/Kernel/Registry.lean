import LtcOs.Kernel.ThreadLifetime

/-!
Iteration over the registry.

`chRegNextThread` follows a link of the thread the iteration is at, to which it has a
reference. A thread from the heap stays in the registry as long as there are references, so
the link leads to a thread of the registry. A static thread leaves the registry at its exit,
and keeps the link it had: from such a thread the iteration may go to an area that was freed.
-/

namespace LtcOs.Kernel.Threads

open LtcOs.Lifetime
open LtcOs.Linked
open LtcOs.Waiting

variable {T : Type} [DecidableEq T] {idle : T} {s s' s'' : Threads T} {l : Ledger T T Int}

/-! ### The registry -/

theorem Inv.mem_registry (inv : Inv idle s l) {reg : List T}
    (ring : Ring s.links none (reg.map some)) (t : T) :
    t ∈ reg ↔ listed (l.obj t) = true := by
  obtain ⟨reg', ring', mem⟩ := inv.registry
  have same : reg = reg' := (Option.some_injective T).list_map (ring.unique ring')
  rw [same]
  exact mem t

/-- The idle thread is in the registry, so there is a first thread. -/
theorem Inv.idle_listed (inv : Inv idle s l) : listed (l.obj idle) = true := by
  have awake := inv.core.inv.awake
  have running := (inv.obj idle).of_awake (by simp [awake]) (by simp [awake])
  rw [listed, running]

/-- A released thread leaves the registry, or the registry stays as it is. -/
theorem Inv.registry_release (inv : Inv idle s l) {held : T → Nat} {log : List (ThdEvent T)}
    {tp : T} {msg : Option Int}
    (pos : 0 < (l.obj tp).refs) {reg : List T} (ring : Ring s.links none (reg.map some)) :
    ∃ reg' : List T,
      Ring (Threads.release { s with held := held, log := log } tp msg).links none (reg'.map some) ∧
      reg'.Sublist reg := by
  unfold Threads.release
  dsimp only
  split
  · rename_i last
    obtain ⟨-, final, flags⟩ := last
    obtain ⟨known, ⟨-, awake⟩ | ⟨exited, -⟩⟩ := (inv.obj tp).of_refs pos
    · exact absurd (Core.waiting_eq_some.mpr final) awake
    · have here : tp ∈ reg := by
        rw [inv.mem_registry ring, listed, exited]
        exact known.collected_iff.mpr flags
      obtain ⟨rest, ring', sub, -⟩ := registry_remove ring here
      exact ⟨rest, ring', sub⟩
  · exact ⟨reg, ring, List.Sublist.refl reg⟩

/-- Without creations, the registry only loses threads. -/
theorem Inv.registry_step (inv : Inv idle s l) (step : Step idle .other s s') {reg : List T}
    (ring : Ring s.links none (reg.map some)) :
    ∃ reg' : List T, Ring s'.links none (reg'.map some) ∧ reg'.Sublist reg := by
  cases step with
  | addRef tp out known few => exact ⟨reg, ring, List.Sublist.refl reg⟩
  | release tp out mine => exact inv.registry_release (lt_of_lt_of_le mine (inv.held_le tp)) ring
  | wait tp out mine other differs =>
      refine ⟨reg, ?_, List.Sublist.refl reg⟩
      unfold Threads.chThdWait
      split <;> exact ring
  | resume tp inside => exact ⟨reg, ring, List.Sublist.refl reg⟩
  | releasing tp msg inside =>
      obtain ⟨owners, queued, refs⟩ := inv.refs
      have mem : s.core.currp ∈ owners tp := by
        rw [queued.mem_iff]
        exact congrArg owns inside
      have pos : 0 < (l.obj tp).refs := by
        have := List.length_pos_of_mem mem
        rw [refs, total]
        omega
      exact inv.registry_release pos ring
  | freeing tp msg inside => exact ⟨reg, ring, List.Sublist.refl reg⟩
  | exit msg out other =>
      unfold Threads.chThdExitS
      dsimp only
      split
      · have here : s.core.currp ∈ reg := by
          rw [inv.mem_registry ring, listed, inv.current_running]
        obtain ⟨rest, ring', sub, -⟩ := registry_remove ring here
        exact ⟨rest, ring', sub⟩
      · exact ⟨reg, ring, List.Sublist.refl reg⟩
  | other unlocked step =>
      refine ⟨reg, ?_, List.Sublist.refl reg⟩
      cases step <;> exact ring

/-! ### The way of the iteration -/

/-- There are at most `n` threads behind the one the iteration is at. -/
def Ahead (s : Threads T) (n : Nat) : Prop :=
  ∀ tp xs ys, s.cursor = some tp → Ring s.links none ((xs ++ tp :: ys).map some) → ys.length ≤ n

omit [DecidableEq T] in
theorem registry_once {links : Links (Option T)} {xs ys : List T} {tp : T}
    (ring : Ring links none ((xs ++ tp :: ys).map some)) : tp ∉ xs := by
  have nodup : (xs ++ tp :: ys).Nodup := List.Nodup.of_map _ (List.nodup_cons.mp ring.nodup).2
  rw [List.nodup_middle, List.nodup_cons, List.mem_append, not_or] at nodup
  exact nodup.1.1

theorem Inv.ahead_other (inv : Inv idle s l) (step : Step idle .other s s') {n : Nat}
    (ahead : Ahead s n) : Ahead s' n := by
  intro tp xs' ys' here ring'
  rw [step.cursor (by simp)] at here
  obtain ⟨reg, ring, mem⟩ := inv.registry
  obtain ⟨reg', ring'', sub⟩ := inv.registry_step step ring
  have same : xs' ++ tp :: ys' = reg' := (Option.some_injective T).list_map (ring'.unique ring'')
  rw [← same] at sub
  obtain ⟨xs, ys, rfl⟩ := List.append_of_mem (sub.subset (by simp : tp ∈ xs' ++ tp :: ys'))
  exact le_trans (length_after_le sub (registry_once ring)) (ahead tp xs ys here ring)

theorem Inv.ahead_next (inv : Inv idle s l) (step : Step idle .walk s s') (going : s.cursor ≠ none)
    (anchored : s.Anchored) {n : Nat} (ahead : Ahead s n) (more : s'.cursor ≠ none) :
    ∃ m, n = m + 1 ∧ Ahead s' m := by
  cases step with
  | first out ended few => exact absurd ended going
  | next tp out here few =>
      obtain ⟨reg, ring, mem⟩ := inv.registry
      obtain ⟨xs, ys, rfl⟩ := List.append_of_mem ((mem tp).mpr (inv.listed_cursor here anchored))
      have ring_map := ring
      rw [List.map_append, List.map_cons] at ring_map
      have next := ring_map.next_mem
      have bound := ahead tp xs ys here ring
      unfold Threads.chRegNextThread at more ⊢
      cases ys with
      | nil =>
          rw [← Option.some.inj next] at more
          exact absurd rfl more
      | cons ntp ys =>
          rw [← Option.some.inj next]
          refine ⟨n - 1, by simp at bound; omega, ?_⟩
          intro t xs' ys' cursor ring'
          cases cursor
          have same : (xs' ++ ntp :: ys') = (xs ++ [tp]) ++ ntp :: ys := by
            rw [List.append_assoc]
            exact (Option.some_injective T).list_map (ring'.unique ring)
          have once : ntp ∉ xs ++ [tp] := by
            apply registry_once
            rw [← same]
            exact ring'
          have sub : (xs' ++ ntp :: ys').Sublist ((xs ++ [tp]) ++ ntp :: ys) := by
            rw [same]
          have after := length_after_le sub once
          rw [List.length_cons] at bound
          omega

/-- A run without creations, with `n` steps of the iteration before it ends. -/
inductive Travel (idle : T) : Nat → Threads T → Threads T → Prop where
  | stay {s : Threads T} : Travel idle 0 s s
  | walk {n : Nat} {s s' s'' : Threads T} (before : Travel idle n s s') (going : s'.cursor ≠ none)
    (anchored : s'.Anchored)
      (step : Step idle .walk s' s'') : Travel idle (n + 1) s s''
  | other {n : Nat} {s s' s'' : Threads T} (before : Travel idle n s s')
    (step : Step idle .other s' s'') : Travel idle n s s''

theorem Travel.reach {first : List T} {n : Nat} (travel : Travel idle n s s')
    (reach : Reach Steady idle first s) :
    Reach Steady idle first s' := by
  induction travel with
  | stay => exact reach
  | walk _ _ anchored step ih =>
      obtain ⟨s₀, start, run⟩ := ih reach
      exact ⟨s₀, start, run.tail ⟨.walk, anchored, step⟩⟩
  | other _ step ih =>
      obtain ⟨s₀, start, run⟩ := ih reach
      exact ⟨s₀, start, run.tail ⟨.other, trivial, step⟩⟩

/-- Each step of the iteration leaves one thread behind. -/
theorem Travel.ahead {first : List T} {n m : Nat} (travel : Travel idle n s s')
    (reach : Reach Steady idle first s) (ahead : Ahead s m) (more : s'.cursor ≠ none) :
    ∃ k, m = n + k ∧ Ahead s' k := by
  induction travel with
  | stay => exact ⟨m, by omega, ahead⟩
  | walk before going anchored step ih =>
      obtain ⟨k, eq, here⟩ := ih reach ahead going
      obtain ⟨l, -, inv⟩ := (before.reach reach).tracked
      obtain ⟨k', eq', there⟩ := inv.ahead_next step going anchored here more
      exact ⟨k', by omega, there⟩
  | other before step ih =>
      rw [step.cursor (by simp)] at more
      obtain ⟨k, eq, here⟩ := ih reach ahead more
      obtain ⟨l, -, inv⟩ := (before.reach reach).tracked
      exact ⟨k, eq, inv.ahead_other step here⟩

/-! ### Safety -/

/-- The thread the iteration is at is in memory, and its counter has the reference of the
iteration with those of programs and calls. -/
def Visited (s : Threads T) : Prop :=
  ∀ tp, s.cursor = some tp → s.area tp = true ∧
    ∃ owners, Queued none (owns ∘ s.pc) owners ∧
      (s.p_refs tp).toNat = s.held tp + (owners tp).length + 1

/-- An iteration starts at a thread, and without creations ends after at most as many steps as
there are threads in the registry. -/
def Ends (idle : T) (s : Threads T) : Prop :=
  (∃ tp, s.links.next none = some tp) ∧
    ∃ reg : List T,
      Ring s.links none (reg.map some) ∧ ∀ n s', Travel idle n s s' → s'.cursor ≠ none →
      n < reg.length

theorem Inv.visited (inv : Inv idle s l) : Visited s := by
  intro tp here
  obtain ⟨owners, queued, refs⟩ := inv.refs
  have count := refs tp
  rw [total, if_pos here] at count
  obtain ⟨known, -⟩ := (inv.obj tp).of_refs (by omega)
  exact ⟨known.area, owners, queued, known.refs.trans count⟩

theorem Reach.ends {first : List T} (reach : Reach Steady idle first s) : Ends idle s := by
  obtain ⟨l, -, inv⟩ := reach.tracked
  obtain ⟨reg, ring, mem⟩ := inv.registry
  have listed := (mem idle).mpr inv.idle_listed
  constructor
  · have head := ring.next_header
    cases reg with
    | nil => cases listed
    | cons tp reg => exact ⟨tp, (Option.some.inj head).symm⟩
  · refine ⟨reg, ring, ?_⟩
    intro n s' travel more
    have ahead : Ahead s (reg.length - 1) := by
      intro tp xs ys _ ring'
      have same : xs ++ tp :: ys = reg := (Option.some_injective T).list_map (ring'.unique ring)
      rw [← same, List.length_append, List.length_cons]
      omega
    obtain ⟨k, eq, -⟩ := travel.ahead reach ahead more
    have pos := List.length_pos_of_mem listed
    omega

/-- The iteration is safe and ends in every run in which it does not go on from a static
thread that has exited, nor is a thread created in the area of the one it is at. -/
theorem iteration_safe (idle : T) (first : List T) (s : Threads T)
    (reach : Reach Steady idle first s) :
    Visited s ∧ Ends idle s := by
  obtain ⟨l, -, inv⟩ := reach.tracked
  exact ⟨inv.visited, reach.ends⟩

/-- The main thread, at high priority, and a static thread. -/
def sampleThree : Threads (Fin 4) where
  core :=
    { p_prio := ![ IDLEPRIO, 128, 127, 126]
      p_state := ![.READY, .CURRENT, .READY, .WAIT .UNUSED]
      p_preempt := fun _ => CH_CFG_TIME_QUANTUM
      rdymsg := fun _ => MSG_OK
      ready := [2, 0]
      currp := 1
      log := [] }
  area := ![true, true, true, false]
  p_flags := fun _ => .STATIC
  p_refs := fun _ => 1
  p_waiting := fun _ => []
  exitcode := fun _ => 0
  links :=
    { next := fun node =>
        if node = none then some 0 else if node = some 0 then some 1
        else if node = some 1 then some 2 else none
      prev := fun node =>
        if node = none then some 2 else if node = some 2 then some 1
        else if node = some 1 then some 0 else none }
  held := ![1, 1, 1, 0]
  cursor := none
  pc := fun _ => .outside
  log := []

theorem sampleThree_start : Start 0 [0, 1, 2] sampleThree where
  core :=
    { inv :=
        { sorted := by simp [Prio.Descending, sampleThree, IDLEPRIO]
          nodup := by decide
          mem_ready := by decide
          current := by decide
          awake := by decide }
      pos := by decide }
  registry := ⟨by decide, by decide, by decide⟩
  there := by decide
  absent := by decide
  waiting _ := rfl
  cursor := rfl
  pc _ := rfl
  log := rfl

/-- A thread is created from the heap, behind the static thread, and the iteration of the main
thread has come to the static thread. -/
def sampleVisit : Threads (Fin 4) :=
  let s := ((sampleThree.chThdCreateFromHeap 3 126).hold 3).chRegFirstThread.noteVisit
  let s := ((s.chRegNextThread 0).noteVisit.note (.released 0)).release 0 none
  ((s.chRegNextThread 1).noteVisit.note (.released 1)).release 1 none

/-- Few references, as a step asks for. -/
theorem sample_few {s : Threads (Fin 4)} (few : ∀ t, s.p_refs t < 255) (node : Option (Fin 4))
    (tp : Fin 4) (_next : s.links.next node = some tp) :
    (s.p_refs tp).toNat < 255 :=
  UInt8.lt_iff_toNat_lt.mp (few tp)

theorem sampleVisit_reach : Reach Steady 0 [0, 1, 2] sampleVisit := by
  refine ⟨sampleThree, sampleThree_start, ?_⟩
  have created : Relation.ReflTransGen
    (fun s s' => ∃ kind, Steady kind s s' ∧ Step (0 : Fin 4) kind s s') sampleThree
      ((sampleThree.chThdCreateFromHeap 3 126).hold 3) :=
    .single ⟨.create 3, by unfold Steady; decide, .createFromHeap 3 126 rfl (by decide) rfl⟩
  have first := created.tail ⟨.walk, by unfold Steady Anchored; decide,
    .first rfl rfl (sample_few (by decide) _)⟩
  have next₀ := first.tail ⟨.walk, by unfold Steady Anchored; decide,
    .next 0 rfl rfl (sample_few (by decide) _)⟩
  have release₀ := next₀.tail ⟨.other, trivial, .releasing 0 none rfl⟩
  have next₁ := release₀.tail ⟨.walk, by unfold Steady Anchored; decide,
    .next 1 rfl rfl (sample_few (by decide) _)⟩
  exact next₁.tail ⟨.other, trivial, .releasing 1 none rfl⟩

theorem sampleVisit_safe :
    (Visited sampleVisit ∧ Ends 0 sampleVisit) ∧ sampleVisit.cursor = some 2 ∧
      sampleVisit.p_refs 2 = 2 :=
  ⟨iteration_safe 0 [0, 1, 2] sampleVisit sampleVisit_reach, rfl, rfl⟩

/-- The main thread sleeps while the static thread and the thread from the heap exit. Then an
interrupt handler makes it ready. -/
def sampleEnded : Threads (Fin 4) :=
  let s := { sampleVisit with core := sampleVisit.core.chSchGoSleepS .OTHER }
  let s := (s.chThdExitS 0).chThdExitS 7
  { s with core := ((s.core.setMsg 1 MSG_OK).chSchReadyI 1).chSchRescheduleS }

/-- The main thread waits for the thread from the heap, which is freed; then the iteration goes
on. -/
def sampleStale : Threads (Fin 4) :=
  let s := (((sampleEnded.handOver 3).chThdWait 3).note (.released 3)).release 3 (some 7)
  ((s.chHeapFree 3 (some 7)).chRegNextThread 2).noteVisit

theorem sampleStale_reach : Reach (fun _ _ _ => True) 0 [0, 1, 2] sampleStale := by
  obtain ⟨s₀, start, run⟩ := sampleVisit_reach
  refine ⟨s₀, start, ?_⟩
  have unlocked : ∀ {s : Threads (Fin 4)}, s.pc s.core.currp = .outside → s.Unlocked := by
    intro s out tp
    simp [out]
  have visits : Relation.ReflTransGen (fun s s' => ∃ kind, True ∧ Step (0 : Fin 4) kind s s') s₀
      sampleVisit :=
    run.lift id fun s s' ⟨kind, _, step⟩ => ⟨kind, trivial, step⟩
  have sleeps := visits.tail ⟨_, trivial, .other (unlocked rfl) (.sleep rfl (by decide))⟩
  have exits₂ := sleeps.tail ⟨_, trivial, .exit 0 rfl (by decide)⟩
  have exits₃ := exits₂.tail ⟨_, trivial, .exit 7 rfl (by decide)⟩
  have readies := exits₃.tail ⟨_, trivial, .other (unlocked rfl) (.ready 1 MSG_OK rfl)⟩
  have wakes := readies.tail ⟨_, trivial, .other (unlocked rfl) (.switch .reschedule)⟩
  have waits := wakes.tail ⟨_, trivial, .wait 3 rfl (by decide) (by decide) (by decide)⟩
  have releases := waits.tail ⟨_, trivial, .releasing 3 (some 7) rfl⟩
  have frees := releases.tail ⟨_, trivial, .freeing 3 (some 7) rfl⟩
  exact frees.tail ⟨_, trivial, .next 2 rfl rfl (sample_few (by decide) _)⟩

/-- The link of a static thread that has exited leads to an area that was freed. -/
theorem iteration_unsafe :
    ¬ ∀ s : Threads (Fin 4), Reach (fun _ _ _ => True) 0 [0, 1, 2] s → Visited s ∧ Ends 0 s := by
  intro safe
  have here := ((safe sampleStale sampleStale_reach).1 3 rfl).1
  cases here

end LtcOs.Kernel.Threads
