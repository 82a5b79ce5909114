import Mathlib.Data.List.Infix

/-!
Results that report what a call has done.

Parties call, move items while they are in a call, and return with a result. A history has the
events of all parties in one order. The progress of a party is what its call under way has
moved so far; a history reports if every result agrees with the progress of its party.
-/

namespace LtcOs.Answers

variable {T E C B R : Type}

/-- What an event is for one party: its call begins, it moves items, it returns, everything is
reset, or the event does not concern it. -/
inductive Effect (C B : Type) where
  | called (call : C)
  | moved (items : List B)
  | returned
  | reset
  | other
deriving DecidableEq, Repr

/-- A call under way: what it was called with, the items it has moved, and whether there was a
reset meanwhile. -/
structure Progress (C B : Type) where
  call : C
  items : List B
  reset : Bool
deriving DecidableEq, Repr

def Progress.next (p : Option (Progress C B)) : Effect C B → Option (Progress C B)
  | .called call => some ⟨call, [], false⟩
  | .moved items => p.map fun p => { p with items := p.items ++ items }
  | .returned => none
  | .reset => p.map fun p => { p with reset := true }
  | .other => p

def progress (effect : E → Effect C B) (log : List E) : Option (Progress C B) :=
  log.foldl (fun p e => Progress.next p (effect e)) none

theorem progress_concat (effect : E → Effect C B) (log : List E) (e : E) :
    progress effect (log ++ [e]) = Progress.next (progress effect log) (effect e) := by
  simp [progress]

/-- Every result in a history agrees with what its call has done. -/
def Reports (effect : T → E → Effect C B) (returned : T → R → E) (answers : Progress C B → R → Prop)
    (log : List E) : Prop :=
  ∀ before tp result, before ++ [returned tp result] <+: log →
    ∃ p, progress (effect tp) before = some p ∧ answers p result

section Reports

variable {effect : T → E → Effect C B} {returned : T → R → E} {answers : Progress C B → R → Prop}
  {log : List E} {e : E}

theorem reports_nil : Reports effect returned answers [] := by
  intro before tp result first
  exact absurd (List.prefix_nil.mp first) (by simp)

theorem Reports.concat (reports : Reports effect returned answers log)
    (now : ∀ tp result, e = returned tp result →
      ∃ p, progress (effect tp) log = some p ∧ answers p result) :
    Reports effect returned answers (log ++ [e]) := by
  intro before tp result first
  rcases List.prefix_concat_iff.mp first with all | old
  · obtain ⟨rfl, eq⟩ := List.append_inj' all rfl
    exact now tp result (List.singleton_injective eq).symm
  · exact reports before tp result old

/-- What is not the return of a call needs no report. -/
theorem Reports.silent (reports : Reports effect returned answers log)
    (silent : ∀ tp result, e ≠ returned tp result) :
    Reports effect returned answers (log ++ [e]) :=
  reports.concat fun tp result eq => absurd eq (silent tp result)

end Reports

end LtcOs.Answers
