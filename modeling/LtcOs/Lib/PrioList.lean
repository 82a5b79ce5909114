import Mathlib.Data.List.Sort
import Mathlib.Tactic

/-!
Lists in the order of a priority, highest first.

A new element goes behind its equals or ahead of them; both keep the order. What
stays in a list stays in its order, so behind its equals an element is served after
all that were there before.
-/

namespace LtcOs.Prio

variable {α : Type} {f : α → Nat} {l : List α} {a b x : α}

/-- The priorities go down along the list. -/
def Descending (f : α → Nat) (l : List α) : Prop := l.Pairwise fun a b => f b ≤ f a

/-- Insertion behind all elements of higher or equal priority. -/
def insertBehind (f : α → Nat) (x : α) (l : List α) : List α :=
  l.orderedInsert (fun a b => f b < f a) x

/-- Insertion behind all elements of higher priority, ahead of the equal ones. -/
def insertAhead (f : α → Nat) (x : α) (l : List α) : List α :=
  l.orderedInsert (fun a b => f b ≤ f a) x

theorem Descending.congr {g : α → Nat} (sorted : Descending f l) (same : ∀ a ∈ l, g a = f a) :
    Descending g l := by
  apply List.Pairwise.imp_of_mem _ sorted
  intro a b ha hb le
  rw [same a ha, same b hb]
  exact le

/-- The two parts of a list around the place of a new element. -/
structure Place (f : α → Nat) (n : Nat) (xs ys : List α) : Prop where
  before : ∀ a ∈ xs, n ≤ f a
  after : ∀ a ∈ ys, f a ≤ n

theorem Descending.insert {xs ys : List α} (sorted : Descending f (xs ++ ys))
    (place : Place f (f x) xs ys) :
    Descending f (xs ++ x :: ys) := by
  obtain ⟨left, right, across⟩ := List.pairwise_append.mp sorted
  apply List.pairwise_append.mpr
  refine ⟨left, List.pairwise_cons.mpr ⟨place.after, right⟩, ?_⟩
  intro a ha b hb
  rcases List.mem_cons.mp hb with rfl | hb
  · exact place.before a ha
  · exact across a ha b hb

/-- A list in order is cut where the priorities pass a value. -/
theorem Descending.dropWhile {p : α → Bool} (sorted : Descending f l)
    (closed : ∀ a b, f b ≤ f a → p a = false → p b = false) : ∀ a ∈ l.dropWhile p, p a = false := by
  induction l with
  | nil => simp
  | cons c l ih =>
      obtain ⟨first, rest⟩ := List.pairwise_cons.mp sorted
      cases here : p c with
      | true =>
          rw [List.dropWhile_cons_of_pos here]
          exact ih rest
      | false =>
          rw [List.dropWhile_cons_of_neg (by simp [here])]
          intro a ha
          rcases List.mem_cons.mp ha with rfl | ha
          · exact here
          · exact closed c a (first a ha) here

/-- Where an element goes behind its equals. -/
theorem insertBehind_eq (sorted : Descending f l) :
    ∃ xs ys, l = xs ++ ys ∧ insertBehind f x l = xs ++ x :: ys ∧
      (∀ a ∈ xs, f x ≤ f a) ∧ ∀ a ∈ ys, f a < f x := by
  refine ⟨l.takeWhile (fun b => decide (¬ f b < f x)), l.dropWhile (fun b => decide (¬ f b < f x)),
    ?_, ?_, ?_, ?_⟩
  · exact (List.takeWhile_append_dropWhile).symm
  · exact List.orderedInsert_eq_take_drop _ x l
  · intro a ha
    have := List.all_eq_true.mp List.all_takeWhile a ha
    simpa using this
  · intro a ha
    have := sorted.dropWhile (p := fun b => decide (¬ f b < f x)) (by simp; omega) a ha
    simpa using this

/-- Where an element goes ahead of its equals. -/
theorem insertAhead_eq (sorted : Descending f l) :
    ∃ xs ys, l = xs ++ ys ∧ insertAhead f x l = xs ++ x :: ys ∧
      (∀ a ∈ xs, f x < f a) ∧ ∀ a ∈ ys, f a ≤ f x := by
  refine ⟨l.takeWhile (fun b => decide (¬ f b ≤ f x)), l.dropWhile (fun b => decide (¬ f b ≤ f x)),
    ?_, ?_, ?_, ?_⟩
  · exact (List.takeWhile_append_dropWhile).symm
  · exact List.orderedInsert_eq_take_drop _ x l
  · intro a ha
    have := List.all_eq_true.mp List.all_takeWhile a ha
    simpa using this
  · intro a ha
    have := sorted.dropWhile (p := fun b => decide (¬ f b ≤ f x)) (by simp; omega) a ha
    simpa using this

theorem Descending.insertBehind (sorted : Descending f l) (x : α) :
    Descending f (insertBehind f x l) := by
  obtain ⟨xs, ys, rfl, eq, before, after⟩ := insertBehind_eq (x := x) sorted
  rw [eq]
  exact sorted.insert ⟨before, fun a ha => (after a ha).le⟩

theorem Descending.insertAhead (sorted : Descending f l) (x : α) :
    Descending f (insertAhead f x l) := by
  obtain ⟨xs, ys, rfl, eq, before, after⟩ := insertAhead_eq (x := x) sorted
  rw [eq]
  exact sorted.insert ⟨fun a ha => (before a ha).le, after⟩

@[simp]
theorem mem_insertBehind : a ∈ insertBehind f x l ↔ a = x ∨ a ∈ l := List.mem_orderedInsert _

@[simp]
theorem mem_insertAhead : a ∈ insertAhead f x l ↔ a = x ∨ a ∈ l := List.mem_orderedInsert _

theorem nodup_insertBehind (nodup : l.Nodup) (fresh : x ∉ l) : (insertBehind f x l).Nodup :=
  (List.perm_orderedInsert _ x l).nodup_iff.mpr (List.nodup_cons.mpr ⟨fresh, nodup⟩)

theorem nodup_insertAhead (nodup : l.Nodup) (fresh : x ∉ l) : (insertAhead f x l).Nodup :=
  (List.perm_orderedInsert _ x l).nodup_iff.mpr (List.nodup_cons.mpr ⟨fresh, nodup⟩)

theorem sublist_insertBehind (f : α → Nat) (x : α) (l : List α) : l.Sublist (insertBehind f x l) :=
  List.sublist_orderedInsert x l

theorem sublist_insertAhead (f : α → Nat) (x : α) (l : List α) : l.Sublist (insertAhead f x l) :=
  List.sublist_orderedInsert x l

/-- What was there with a priority as high is in front of an element inserted behind. -/
theorem before_insertBehind (sorted : Descending f l) (mem : a ∈ l) (le : f x ≤ f a) :
    [a, x].Sublist (insertBehind f x l) := by
  obtain ⟨xs, ys, rfl, eq, -, after⟩ := insertBehind_eq (x := x) sorted
  have left : a ∈ xs := by
    rcases List.mem_append.mp mem with h | h
    · exact h
    · exact absurd (after a h) (not_lt.mpr le)
  rw [eq]
  exact (List.singleton_sublist.mpr left).append (List.singleton_sublist.mpr List.mem_cons_self)

/-- An element above all others goes to the front. -/
theorem insertBehind_of_lt (highest : ∀ a ∈ l, f a < f x) : insertBehind f x l = x :: l := by
  cases l with
  | nil => rfl
  | cons a l => exact List.orderedInsert_cons_of_le _ _ (highest a List.mem_cons_self)

/-- The two places are the same exactly when there are no equals. -/
theorem insertBehind_eq_insertAhead (sorted : Descending f l) (fresh : x ∉ l) :
    insertBehind f x l = insertAhead f x l ↔ ∀ a ∈ l, f a ≠ f x := by
  induction l with
  | nil => simp [insertBehind, insertAhead]
  | cons b l ih =>
      obtain ⟨first, rest⟩ := List.pairwise_cons.mp sorted
      obtain ⟨other, fresh⟩ := not_or.mp (List.mem_cons.not.mp fresh)
      unfold insertBehind insertAhead
      rw [List.orderedInsert_cons, List.orderedInsert_cons, List.forall_mem_cons]
      rcases lt_trichotomy (f b) (f x) with lt | eq | gt
      · rw [if_pos lt, if_pos lt.le]
        simp only [true_iff]
        exact ⟨lt.ne, fun a ha => ((first a ha).trans_lt lt).ne⟩
      · rw [if_neg eq.ge.not_gt, if_pos eq.le, List.cons_eq_cons]
        simp [eq, Ne.symm other]
      · rw [if_neg gt.le.not_gt, if_neg gt.not_ge, List.cons_eq_cons]
        simp only [true_and]
        exact (ih rest fresh).trans (iff_and_self.mpr fun _ => gt.ne')

/-- Among equal priorities the older element comes first, where `g` is the time of its
insertion. -/
def Served (f g : α → Nat) (l : List α) : Prop :=
  l.Pairwise fun a b => f b < f a ∨ f b = f a ∧ g a < g b

theorem Served.descending {g : α → Nat} (served : Served f g l) : Descending f l := by
  apply served.imp
  intro a b h
  rcases h with h | h
  · exact h.le
  · exact h.1.le

theorem Served.congr {g f' g' : α → Nat} (served : Served f g l)
    (same : ∀ a ∈ l, f' a = f a ∧ g' a = g a) :
    Served f' g' l := by
  apply List.Pairwise.imp_of_mem _ served
  intro a b ha hb h
  rw [(same a ha).1, (same a ha).2, (same b hb).1, (same b hb).2]
  exact h

theorem Served.insertBehind {g : α → Nat} (served : Served f g l) (late : ∀ a ∈ l, g a < g x) :
    Served f g (insertBehind f x l) := by
  obtain ⟨xs, ys, rfl, eq, before, after⟩ := insertBehind_eq (x := x) served.descending
  obtain ⟨left, right, across⟩ := List.pairwise_append.mp served
  rw [eq]
  apply List.pairwise_append.mpr
  refine ⟨left, List.pairwise_cons.mpr ⟨fun a ha => .inl (after a ha), right⟩, ?_⟩
  intro a ha b hb
  rcases List.mem_cons.mp hb with rfl | hb
  · rcases (before a ha).lt_or_eq with h | h
    · exact .inl h
    · exact .inr ⟨h, late a (by simp [ha])⟩
  · exact across a ha b hb

/-- The first of a list in order has the highest priority. -/
theorem Descending.first {a : α} (sorted : Descending f (x :: l)) (mem : a ∈ x :: l) :
    f a ≤ f x := by
  rcases List.mem_cons.mp mem with rfl | mem
  · exact le_rfl
  · exact (List.pairwise_cons.mp sorted).1 a mem

end LtcOs.Prio
