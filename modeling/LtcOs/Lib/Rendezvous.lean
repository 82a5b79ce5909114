import Mathlib.Data.List.Basic
import Mathlib.Tactic

/-!
Calls that are answered.

A client sends a message to a server and waits. The messages of a server queue up; the
server obtains them one by one, in the order in which they were sent, and answers each client
it has obtained when it likes. `replay` reads a history and gives up at the first event that
does not belong there.
-/

namespace LtcOs.Rendezvous

variable {C S M A : Type}

/-- Where a client is: outside, with a message in the queue of a server, with a message the
server has obtained, or with the answer. -/
inductive Phase (S M A : Type) where
  | idle
  | queued (server : S) (msg : M)
  | held (server : S) (msg : M)
  | answered (answer : A)
deriving DecidableEq, Repr

inductive Event (C S M A : Type) where
  | sent (client : C) (server : S) (msg : M)
  | obtained (server : S) (client : C) (msg : M)
  | released (server : S) (client : C) (answer : A)
  | returned (client : C) (answer : A)
deriving DecidableEq, Repr

structure Post (C S M A : Type) where
  phase : C → Phase S M A
  queue : S → List C

def Post.start : Post C S M A where
  phase := fun _ => .idle
  queue := fun _ => []

section Replay

variable [DecidableEq C] [DecidableEq S] [DecidableEq M] [DecidableEq A]

/-- One event. A client sends when it has no call under way; a server obtains the first client
of its queue, with the message it sent, and answers clients it has obtained; a call returns
with the answer given. -/
def Post.next (p : Post C S M A) : Event C S M A → Option (Post C S M A)
  | .sent c s msg =>
      if p.phase c = .idle then
        some ⟨Function.update p.phase c (.queued s msg),
          Function.update p.queue s (p.queue s ++ [c])⟩
      else none
  | .obtained s c msg =>
      if (p.queue s).head? = some c ∧ p.phase c = .queued s msg then
        some ⟨Function.update p.phase c (.held s msg), Function.update p.queue s (p.queue s).tail⟩
      else none
  | .released s c answer =>
      match p.phase c with
      | .held s' _ =>
          if s' = s then some ⟨Function.update p.phase c (.answered answer), p.queue⟩ else none
      | _ => none
  | .returned c answer =>
      if p.phase c = .answered answer then some ⟨Function.update p.phase c .idle, p.queue⟩ else none

def replay (log : List (Event C S M A)) : Option (Post C S M A) := log.foldlM Post.next .start

theorem replay_concat (log : List (Event C S M A)) (e : Event C S M A) :
    replay (log ++ [e]) = (replay log).bind fun p => p.next e := by
  simp [replay, List.foldlM_append]

end Replay

/-- The queue of a server holds the clients that wait in it, each once. -/
structure Queued (phase : C → Phase S M A) (queue : S → List C) : Prop where
  mem : ∀ s c, c ∈ queue s ↔ ∃ msg, phase c = .queued s msg
  nodup : ∀ s, (queue s).Nodup

theorem queued_start : Queued (fun _ => .idle : C → Phase S M A) (fun _ => []) := by
  constructor
  · intro s c
    simp
  · intro s
    exact List.nodup_nil

section Queued

variable {phase : C → Phase S M A} {queue : S → List C}

theorem Queued.off (queued : Queued phase queue) {c : C} (away : ∀ s msg, phase c ≠ .queued s msg)
    (s : S) :
    c ∉ queue s := by
  intro mem
  obtain ⟨msg, eq⟩ := (queued.mem s c).mp mem
  exact away s msg eq

variable [DecidableEq C]

/-- A client on no queue changes its phase. -/
theorem Queued.update (queued : Queued phase queue) {c : C} (off : ∀ s, c ∉ queue s)
    {new : Phase S M A} (away : ∀ s msg, new ≠ .queued s msg) :
    Queued (Function.update phase c new) queue := by
  refine ⟨?_, queued.nodup⟩
  intro s d
  by_cases same : d = c
  · subst same
    rw [Function.update_self]
    exact iff_of_false (off s) fun ⟨msg, eq⟩ => away s msg eq
  · rw [Function.update_of_ne same]
    exact queued.mem s d

variable [DecidableEq S]

theorem Queued.sent (queued : Queued phase queue) {c : C} (idle : phase c = .idle) (s : S) (msg : M) :
    Queued (Function.update phase c (.queued s msg))
      (Function.update queue s (queue s ++ [c])) := by
  have off := queued.off (c := c) (by simp [idle])
  constructor
  · intro s' d
    by_cases same : d = c
    · subst same
      rw [Function.update_self]
      by_cases here : s' = s
      · subst here
        simp
      · rw [Function.update_of_ne here]
        simp [off s', Ne.symm here]
    · rw [Function.update_of_ne same, ← queued.mem]
      by_cases here : s' = s
      · subst here
        simp [same]
      · rw [Function.update_of_ne here]
  · intro s'
    by_cases here : s' = s
    · subst here
      rw [Function.update_self]
      exact (queued.nodup s').append (List.nodup_singleton c) (by simpa using off s')
    · rw [Function.update_of_ne here]
      exact queued.nodup s'

theorem Queued.obtained (queued : Queued phase queue) {c : C} {s : S} {rest : List C} {msg : M}
    (first : queue s = c :: rest) (sent : phase c = .queued s msg) :
    Queued (Function.update phase c (.held s msg)) (Function.update queue s rest) := by
  have nodup := queued.nodup s
  rw [first, List.nodup_cons] at nodup
  constructor
  · intro s' d
    by_cases same : d = c
    · subst same
      rw [Function.update_self]
      refine iff_of_false ?_ (by simp)
      by_cases here : s' = s
      · subst here
        rw [Function.update_self]
        exact nodup.1
      · rw [Function.update_of_ne here]
        intro mem
        obtain ⟨msg', eq⟩ := (queued.mem s' d).mp mem
        rw [sent] at eq
        cases eq
        exact here rfl
    · rw [Function.update_of_ne same, ← queued.mem]
      by_cases here : s' = s
      · subst here
        simp [first, same]
      · rw [Function.update_of_ne here]
  · intro s'
    by_cases here : s' = s
    · subst here
      rw [Function.update_self]
      exact nodup.2
    · rw [Function.update_of_ne here]
      exact queued.nodup s'

end Queued

end LtcOs.Rendezvous
