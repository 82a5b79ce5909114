import Mathlib.Data.List.Basic
import Mathlib.Tactic

/-!
Queues of waiting clients.

Each client waits in at most one place, and the queue of a place holds the clients that
wait there, each once. A client on its way between two queues is outside of all of
them; with it, an operation on the queues is a step out of a queue and a step into
one.
-/

namespace LtcOs.Waiting

variable {T Q : Type}

/-- Every client but `out` is on the queue of its place, and on no other. -/
structure Queued (out : Option T) (place : T → Option Q) (queue : Q → List T) : Prop where
  mem : ∀ q t, t ∈ queue q ↔ some t ≠ out ∧ place t = some q
  nodup : ∀ q, (queue q).Nodup

variable {out : Option T} {place place' : T → Option Q} {queue : Q → List T} {tp t : T} {q q₀ : Q}

theorem Queued.inside (queued : Queued out place queue) (mem : t ∈ queue q) : some t ≠ out :=
  ((queued.mem q t).mp mem).1

theorem Queued.place_eq (queued : Queued out place queue) (mem : t ∈ queue q) : place t = some q :=
  ((queued.mem q t).mp mem).2

theorem Queued.absent (queued : Queued (some tp) place queue) (q : Q) : tp ∉ queue q :=
  fun mem => queued.inside mem rfl

theorem Queued.mem_iff (queued : Queued none place queue) : t ∈ queue q ↔ place t = some q := by
  rw [queued.mem]
  simp

/-- A client that waits nowhere is on no queue. -/
theorem Queued.not_mem (queued : Queued none place queue) (off : place t = none) (q : Q) :
    t ∉ queue q := by
  rw [queued.mem_iff, off]
  simp

/-- The place of a client outside does not matter. -/
theorem Queued.congr (queued : Queued out place queue)
    (same : ∀ t, some t ≠ out → place' t = place t) :
    Queued out place' queue := by
  refine ⟨?_, queued.nodup⟩
  intro q t
  rw [queued.mem]
  constructor
  · rintro ⟨other, here⟩
    exact ⟨other, (same t other).trans here⟩
  · rintro ⟨other, here⟩
    exact ⟨other, (same t other).symm.trans here⟩

/-- A client that waits nowhere is outside, or not. -/
theorem outside_iff (off : place tp = none) (q : Q) (t : T) :
    (some t ≠ none ∧ place t = some q) ↔ some t ≠ some tp ∧ place t = some q := by
  constructor
  · rintro ⟨-, here⟩
    refine ⟨?_, here⟩
    intro eq
    rw [Option.some.inj eq, off] at here
    cases here
  · rintro ⟨-, here⟩
    exact ⟨by simp, here⟩

theorem Queued.leave (queued : Queued none place queue) (off : place tp = none) :
    Queued (some tp) place queue :=
  ⟨fun q t => (queued.mem q t).trans (outside_iff off q t), queued.nodup⟩

theorem Queued.enter (queued : Queued (some tp) place queue) (off : place tp = none) :
    Queued none place queue :=
  ⟨fun q t => (queued.mem q t).trans (outside_iff off q t).symm, queued.nodup⟩

/-- The last client of a queue leaves it. -/
theorem dropLast_eq_erase [DecidableEq T] {l : List T} (nodup : l.Nodup)
    (last : l.getLast? = some tp) : l.dropLast = l.erase tp := by
  obtain ⟨rest, rfl⟩ := List.getLast?_eq_some_iff.mp last
  have absent : tp ∉ rest := fun mem => (List.nodup_append.mp nodup).2.2 tp mem tp (by simp) rfl
  rw [List.dropLast_concat, List.erase_append_right _ absent]
  simp

variable [DecidableEq Q]

/-- A client leaves its queue. -/
theorem Queued.remove [DecidableEq T] (queued : Queued none place queue) (here : place tp = some q₀) :
    Queued (some tp) place (Function.update queue q₀ ((queue q₀).erase tp)) := by
  constructor
  · intro q t
    by_cases same : q = q₀
    · subst same
      rw [Function.update_self, (queued.nodup q).mem_erase_iff, queued.mem_iff]
      simp
    · rw [Function.update_of_ne same, queued.mem_iff]
      constructor
      · intro there
        refine ⟨?_, there⟩
        intro eq
        rw [Option.some.inj eq, here, Option.some.injEq] at there
        exact same there.symm
      · exact And.right
  · intro q
    by_cases same : q = q₀
    · subst same
      rw [Function.update_self]
      exact (queued.nodup q).erase tp
    · rw [Function.update_of_ne same]
      exact queued.nodup q

/-- The client outside goes on the queue of its place, anywhere in it. -/
theorem Queued.insert (queued : Queued (some tp) place queue) (here : place tp = some q₀)
    {l : List T} (mem : ∀ t, t ∈ l ↔ t = tp ∨ t ∈ queue q₀) (nodup : l.Nodup) :
    Queued none place (Function.update queue q₀ l) := by
  constructor
  · intro q t
    by_cases same : q = q₀
    · subst same
      rw [Function.update_self, mem, queued.mem]
      constructor
      · rintro (rfl | ⟨-, there⟩)
        · exact ⟨by simp, here⟩
        · exact ⟨by simp, there⟩
      · rintro ⟨-, there⟩
        by_cases eq : t = tp
        · exact .inl eq
        · exact .inr ⟨by simpa using eq, there⟩
    · rw [Function.update_of_ne same, queued.mem]
      constructor
      · rintro ⟨-, there⟩
        exact ⟨by simp, there⟩
      · rintro ⟨-, there⟩
        refine ⟨?_, there⟩
        intro eq
        rw [Option.some.inj eq, here, Option.some.injEq] at there
        exact same there.symm
  · intro q
    by_cases same : q = q₀
    · subst same
      rw [Function.update_self]
      exact nodup
    · rw [Function.update_of_ne same]
      exact queued.nodup q

/-- A client leaves its queue and waits nowhere. -/
theorem Queued.depart [DecidableEq T] (queued : Queued none place queue) (here : place tp = some q₀) :
    Queued none (Function.update place tp none)
      (Function.update queue q₀ ((queue q₀).erase tp)) := by
  have moving : Queued (some tp) (Function.update place tp none)
      (Function.update queue q₀ ((queue q₀).erase tp)) := by
    apply (queued.remove here).congr
    intro t other
    exact Function.update_of_ne (by simpa using other) _ _
  exact moving.enter (Function.update_self _ _ _)

/-- A client that waits nowhere goes on a queue. -/
theorem Queued.arrive [DecidableEq T] (queued : Queued none place queue) (off : place tp = none)
    {l : List T} (mem : ∀ t, t ∈ l ↔ t = tp ∨ t ∈ queue q₀) (nodup : l.Nodup) :
    Queued none (Function.update place tp (some q₀)) (Function.update queue q₀ l) := by
  have moving : Queued (some tp) (Function.update place tp (some q₀)) queue := by
    apply (queued.leave off).congr
    intro t other
    exact Function.update_of_ne (by simpa using other) _ _
  exact moving.insert (Function.update_self _ _ _) mem nodup

end LtcOs.Waiting
