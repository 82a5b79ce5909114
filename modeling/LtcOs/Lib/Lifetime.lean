import Mathlib.Data.List.Basic
import Mathlib.Tactic

/-!
Objects that are counted and given back.

An object is created with one reference. It runs and then exits with a code, which callers
may read as long as there are references. A collected object is doomed when its last
reference is released after the exit, and a doomed object is freed. `replay` reads a history
and gives up at the first event that does not belong there.
-/

namespace LtcOs.Lifetime

variable {C O A : Type}

inductive Life (A : Type) where
  | absent
  | running
  | exited (code : A)
  | doomed
deriving DecidableEq, Repr

/-- An object with its references. -/
structure Obj (A : Type) where
  life : Life A
  refs : Nat
  collected : Bool
deriving DecidableEq, Repr

/-- Callers read the code of an object and later return it. -/
inductive Event (C O A : Type) where
  | created (o : O) (collected : Bool)
  | retained (o : O)
  | released (o : O)
  | exited (o : O) (code : A)
  | read (c : C) (o : O) (code : A)
  | returned (c : C) (code : A)
  | freed (o : O)
deriving DecidableEq, Repr

/-- The objects, and the codes that callers have read and not returned. -/
structure Ledger (C O A : Type) where
  obj : O → Obj A
  got : C → Option A

/-- The first objects are there, and are not collected. -/
def Ledger.start [DecidableEq O] (first : List O) : Ledger C O A where
  obj := fun o => if o ∈ first then ⟨.running, 1, false⟩ else ⟨.absent, 0, false⟩
  got := fun _ => none

namespace Obj

/-- Has come to its end, and is not doomed. -/
def ended (o : Obj A) : Bool :=
  match o.life with
  | .exited _ => true
  | _ => false

/-- Can be used. -/
def present (o : Obj A) : Bool :=
  match o.life with
  | .running => true
  | .exited _ => true
  | _ => false

/-- The place of an object can be used for a new one. -/
def vacant (o : Obj A) : Bool :=
  match o.life with
  | .absent => true
  | .exited _ => !o.collected && o.refs == 0
  | _ => false

/-- One reference less. -/
def release (o : Obj A) : Obj A :=
  if o.refs = 1 ∧ o.ended = true ∧ o.collected = true then ⟨.doomed, 0, true⟩
  else { o with refs := o.refs - 1 }

end Obj

section Replay

variable [DecidableEq O]

def Ledger.set (l : Ledger C O A) (o : O) (obj : Obj A) : Ledger C O A :=
  { l with obj := Function.update l.obj o obj }

theorem Ledger.set_self (l : Ledger C O A) (o : O) (obj : Obj A) : (l.set o obj).obj o = obj :=
  Function.update_self _ _ _

theorem Ledger.set_of_ne (l : Ledger C O A) {o o' : O} (differs : o' ≠ o) (obj : Obj A) :
    (l.set o obj).obj o' = l.obj o' :=
  Function.update_of_ne differs _ _

variable [DecidableEq C] [DecidableEq A]

def Ledger.next (l : Ledger C O A) : Event C O A → Option (Ledger C O A)
  | .created o collected =>
      if (l.obj o).vacant then some (l.set o ⟨.running, 1, collected⟩) else none
  | .retained o =>
      if (l.obj o).present then some (l.set o { l.obj o with refs := (l.obj o).refs + 1 }) else none
  | .released o => if 0 < (l.obj o).refs then some (l.set o (l.obj o).release) else none
  | .exited o code =>
      if (l.obj o).life = .running then some (l.set o { l.obj o with life := .exited code }) else none
  | .read c o code =>
      if (l.obj o).life = .exited code ∧ 0 < (l.obj o).refs then
        some { l with got := Function.update l.got c (some code) }
      else none
  | .returned c code =>
      if l.got c = some code then some { l with got := Function.update l.got c none } else none
  | .freed o => if (l.obj o).life = .doomed then some (l.set o ⟨.absent, 0, false⟩) else none

def replay (start : Ledger C O A) (log : List (Event C O A)) : Option (Ledger C O A) :=
  log.foldlM Ledger.next start

theorem replay_append (start : Ledger C O A) (log more : List (Event C O A)) :
    replay start (log ++ more) = (replay start log).bind fun l => replay l more := by
  simp [replay, List.foldlM_append]

end Replay

section Obj

variable {o : Obj A}

/-- The last reference after the exit dooms a collected object; nothing else does. -/
theorem release_life (one : o.refs ≠ 1 ∨ o.ended = false ∨ o.collected = false) :
    o.release = { o with refs := o.refs - 1 } := by
  apply if_neg
  rintro ⟨refs, ended, collected⟩
  rcases one with one | one | one
  · exact one refs
  · rw [one] at ended
    cases ended
  · rw [one] at collected
    cases collected

theorem present_of_running (running : o.life = .running) : o.present = true := by
  rw [Obj.present, running]

theorem present_of_exited {code : A} (exited : o.life = .exited code) : o.present = true := by
  rw [Obj.present, exited]

/-- The places of collected objects are used again only after the object was freed. -/
structure Tidy (o : Obj A) : Prop where
  absent : o.life = .absent → o.collected = false
  doomed : o.life = .doomed → o.collected = true

theorem Tidy.vacant (tidy : Tidy o) (vacant : o.vacant = true) : o.collected = false := by
  cases life : o.life with
  | absent => exact tidy.absent life
  | exited code =>
      rw [Obj.vacant, life] at vacant
      simp only [Bool.and_eq_true, Bool.not_eq_true'] at vacant
      exact vacant.1
  | running =>
      rw [Obj.vacant, life] at vacant
      cases vacant
  | doomed =>
      rw [Obj.vacant, life] at vacant
      cases vacant

theorem release_collected (o : Obj A) : o.release.collected = o.collected := by
  unfold Obj.release
  split
  · rename_i last
    exact last.2.2.symm
  · rfl

theorem Tidy.release (tidy : Tidy o) : Tidy o.release := by
  constructor
  · intro absent
    rw [release_collected]
    unfold Obj.release at absent
    split at absent
    · cases absent
    · exact tidy.absent absent
  · intro doomed
    rw [release_collected]
    unfold Obj.release at doomed
    split at doomed
    · rename_i last
      exact last.2.2
    · exact tidy.doomed doomed

end Obj

section Once

variable [DecidableEq C] [DecidableEq O] [DecidableEq A] {l l' : Ledger C O A}

/-- The object is there and collected. -/
def Ledger.due (l : Ledger C O A) (o : O) : Nat := if (l.obj o).collected then 1 else 0

/-- What an event does to one object. -/
structure Moves (l l' : Ledger C O A) (e : Event C O A) (o : O) : Prop where
  tidy : Tidy (l'.obj o)
  due : [e].count (.freed o) + l'.due o = l.due o + [e].count (.created o true)

theorem moves_keep {e : Event C O A} {o : O} (tidy : Tidy (l'.obj o))
    (same : (l'.obj o).collected = (l.obj o).collected) (freed : .freed o ≠ e)
    (created : .created o true ≠ e) : Moves l l' e o := by
  refine ⟨tidy, ?_⟩
  rw [List.count_eq_zero_of_not_mem (by simpa using freed),
    List.count_eq_zero_of_not_mem (by simpa using created),
    Ledger.due, same, Ledger.due]
  omega

/-- Other objects stay as they are. -/
theorem moves_other {e : Event C O A} {o o' : O} (tidy : ∀ o, Tidy (l.obj o)) (differs : o ≠ o')
    (new : Obj A) (freed : .freed o ≠ e) (created : .created o true ≠ e) :
    Moves l (l.set o' new) e o := by
  apply moves_keep _ _ freed created
  · rw [l.set_of_ne differs]
    exact tidy o
  · rw [l.set_of_ne differs]

/-- Events that leave the objects where they are. -/
theorem moves_set {e : Event C O A} {o o' : O} {new : Obj A} (tidy : ∀ o, Tidy (l.obj o))
    (tidy_new : Tidy new) (same : new.collected = (l.obj o').collected) (freed : .freed o ≠ e)
    (created : .created o true ≠ e) :
    Moves l (l.set o' new) e o := by
  by_cases eq : o = o'
  · subst eq
    apply moves_keep _ _ freed created
    · rw [Ledger.set_self]
      exact tidy_new
    · rw [Ledger.set_self]
      exact same
  · exact moves_other tidy eq new freed created

theorem Ledger.next_moves {e : Event C O A} (tidy : ∀ o, Tidy (l.obj o)) (next : l.next e = some l')
    (o : O) :
    Moves l l' e o := by
  cases e with
  | created o' c =>
      obtain ⟨vacant, eq⟩ := Option.ite_none_right_eq_some.mp next
      cases eq
      by_cases same : o = o'
      · subst same
        have old := (tidy o).vacant vacant
        constructor
        · rw [Ledger.set_self]
          exact ⟨nofun, nofun⟩
        · rw [Ledger.due, Ledger.due, Ledger.set_self, old]
          cases c <;> simp
      · exact moves_other tidy same _ (by simp) (by simp [same])
  | retained o' =>
      obtain ⟨-, eq⟩ := Option.ite_none_right_eq_some.mp next
      cases eq
      exact moves_set tidy ⟨(tidy o').absent, (tidy o').doomed⟩ rfl (by simp) (by simp)
  | released o' =>
      obtain ⟨-, eq⟩ := Option.ite_none_right_eq_some.mp next
      cases eq
      exact moves_set tidy (tidy o').release (release_collected _) (by simp) (by simp)
  | exited o' code =>
      obtain ⟨-, eq⟩ := Option.ite_none_right_eq_some.mp next
      cases eq
      exact moves_set tidy ⟨nofun, nofun⟩ rfl (by simp) (by simp)
  | read c o' code =>
      obtain ⟨-, eq⟩ := Option.ite_none_right_eq_some.mp next
      cases eq
      exact moves_keep (tidy o) rfl (by simp) (by simp)
  | returned c code =>
      obtain ⟨-, eq⟩ := Option.ite_none_right_eq_some.mp next
      cases eq
      exact moves_keep (tidy o) rfl (by simp) (by simp)
  | freed o' =>
      obtain ⟨doomed, eq⟩ := Option.ite_none_right_eq_some.mp next
      cases eq
      by_cases same : o = o'
      · subst same
        have old := (tidy o).doomed doomed
        constructor
        · rw [Ledger.set_self]
          exact ⟨fun _ => rfl, nofun⟩
        · rw [Ledger.due, Ledger.due, Ledger.set_self, old]
          simp
      · exact moves_other tidy same _ (by simp [same]) (by simp)

/-- A collected object is freed at most once for each time it is created. -/
theorem freed_once {first : List O} {log : List (Event C O A)}
    (replayed : replay (Ledger.start first) log = some l) :
    (∀ o, Tidy (l.obj o)) ∧ ∀ o, log.count (.freed o) + l.due o = log.count (.created o true) := by
  induction log using List.reverseRecOn generalizing l with
  | nil =>
      cases replayed
      have life : ∀ o, (Ledger.start first : Ledger C O A).obj o =
          if o ∈ first then ⟨.running, 1, false⟩ else ⟨.absent, 0, false⟩ := fun _ => rfl
      constructor
      · intro o
        rw [life]
        split
        · exact ⟨nofun, nofun⟩
        · exact ⟨fun _ => rfl, nofun⟩
      · intro o
        rw [Ledger.due, life]
        split <;> rfl
  | append_singleton log e ih =>
      rw [replay_append] at replayed
      obtain ⟨mid, before, last⟩ := Option.bind_eq_some_iff.mp replayed
      obtain ⟨tidy, due⟩ := ih before
      have next : mid.next e = some l := by
        simpa [replay] using last
      have moves := Ledger.next_moves tidy next
      refine ⟨fun o => (moves o).tidy, ?_⟩
      intro o
      have here := (moves o).due
      have count := due o
      rw [List.count_append, List.count_append]
      omega

end Once

end LtcOs.Lifetime
