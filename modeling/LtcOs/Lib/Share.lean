import LtcOs.Lib.PrioList

/-!
What stands before an element of a list.

The elements of some kind before an element have weights, which are added up. In a list in the
order of priorities, the sum over the elements of equal priority does not grow by an element
inserted behind its equals, and grows by the weight of an element inserted ahead of them.
-/

namespace LtcOs.Prio

variable {α : Type} {p q : α → Bool} {w v : α → Nat} {l l' xs ys : List α} {a x : α}

/-- The weights of the elements of a kind. -/
def share (p : α → Bool) (w : α → Nat) (l : List α) : Nat := ((l.filter p).map w).sum

theorem share_cons (p : α → Bool) (w : α → Nat) (x : α) (l : List α) :
    share p w (x :: l) = (if p x then w x else 0) + share p w l := by
  unfold share
  cases here : p x with
  | true => rw [List.filter_cons_of_pos here, List.map_cons, List.sum_cons, if_pos rfl]
  | false => rw [List.filter_cons_of_neg (by simp [here]), if_neg Bool.false_ne_true, Nat.zero_add]

theorem share_append (p : α → Bool) (w : α → Nat) (xs ys : List α) :
    share p w (xs ++ ys) = share p w xs + share p w ys := by
  unfold share
  rw [List.filter_append, List.map_append, List.sum_append]

theorem share_congr (kind : ∀ a ∈ l, p a = q a) (weight : ∀ a ∈ l, p a = true → w a = v a) :
    share p w l = share q v l := by
  unfold share
  rw [List.filter_congr kind]
  refine congrArg List.sum (List.map_congr_left fun a mem => ?_)
  obtain ⟨mem, here⟩ := List.mem_filter.mp mem
  exact weight a mem ((kind a mem).trans here)

theorem share_le_of_sublist (sub : l.Sublist l') : share p w l ≤ share p w l' :=
  ((sub.filter p).map w).sum_le_sum fun _ _ => Nat.zero_le _

theorem share_le_of_weight (le : ∀ a ∈ l, w a ≤ v a) : share p w l ≤ share p v l :=
  List.sum_le_sum fun a mem => le a (List.mem_filter.mp mem).1

variable [DecidableEq α]

/-- The elements before one. -/
def before (a : α) (l : List α) : List α := l.takeWhile fun b => decide (b ≠ a)

theorem before_cons_self (a : α) (l : List α) : before a (a :: l) = [] :=
  List.takeWhile_cons_of_neg (by simp)

theorem before_cons (other : x ≠ a) (l : List α) : before a (x :: l) = x :: before a l :=
  List.takeWhile_cons_of_pos (by simpa using other)

theorem before_append_of_mem (mem : a ∈ xs) (ys : List α) : before a (xs ++ ys) = before a xs := by
  induction xs with
  | nil => cases mem
  | cons x xs ih =>
      by_cases same : x = a
      · subst same
        rw [List.cons_append, before_cons_self, before_cons_self]
      · have mem : a ∈ xs := (List.mem_cons.mp mem).resolve_left (Ne.symm same)
        rw [List.cons_append, before_cons same, before_cons same, ih mem]

theorem before_append_of_not_mem (absent : a ∉ xs) (ys : List α) :
    before a (xs ++ ys) = xs ++ before a ys := by
  induction xs with
  | nil => rfl
  | cons x xs ih =>
      obtain ⟨other, absent⟩ := not_or.mp (List.mem_cons.not.mp absent)
      rw [List.cons_append, before_cons (Ne.symm other), ih absent, List.cons_append]

theorem before_sublist (a : α) (l : List α) : (before a l).Sublist l := List.takeWhile_sublist _

theorem before_erase (other : x ≠ a) (l : List α) : (before a (l.erase x)).Sublist (before a l) := by
  induction l with
  | nil => exact List.Sublist.refl _
  | cons b l ih =>
      by_cases same : b = x
      · subst same
        rw [List.erase_cons_head, before_cons other]
        exact List.sublist_cons_self _ _
      · rw [List.erase_cons_tail (by simpa using same)]
        by_cases here : b = a
        · subst here
          rw [before_cons_self, before_cons_self]
        · rw [before_cons here, before_cons here]
          exact ih.cons_cons b

variable {f : α → Nat}

/-- The elements of the same priority. -/
def equals (f : α → Nat) (a : α) : α → Bool := fun b => decide (f b = f a)

omit [DecidableEq α] in
theorem equals_congr {g : α → Nat} (self : g a = f a) (here : g x = f x) :
    equals g a x = equals f a x := by
  unfold equals
  rw [self, here]

/-- Behind its equals an element does not come before one of them. -/
theorem share_insertBehind (sorted : Descending f l) (mem : a ∈ l) (w : α → Nat) :
    share (equals f a) w (before a (insertBehind f x l)) = share (equals f a) w (before a l) := by
  obtain ⟨xs, ys, rfl, eq, above, below⟩ := insertBehind_eq (x := x) sorted
  rw [eq]
  by_cases left : a ∈ xs
  · rw [before_append_of_mem left, before_append_of_mem left]
  · have right : a ∈ ys := (List.mem_append.mp mem).resolve_left left
    have less : f a < f x := below a right
    have other : x ≠ a := by
      rintro rfl
      exact absurd less (lt_irrefl _)
    have kind : equals f a x = false := decide_eq_false less.ne'
    rw [before_append_of_not_mem left, before_append_of_not_mem left, before_cons other,
      share_append, share_append, share_cons, kind, if_neg Bool.false_ne_true, Nat.zero_add]

/-- Ahead of its equals an element comes before all of them. -/
theorem share_insertAhead (sorted : Descending f l) (mem : a ∈ l) (other : x ≠ a) (w : α → Nat) :
    share (equals f a) w (before a (insertAhead f x l)) =
      (if equals f a x then w x else 0) + share (equals f a) w (before a l) := by
  obtain ⟨xs, ys, rfl, eq, above, below⟩ := insertAhead_eq (x := x) sorted
  rw [eq]
  by_cases left : a ∈ xs
  · have kind : equals f a x = false := decide_eq_false (above a left).ne
    rw [before_append_of_mem left, before_append_of_mem left, kind, if_neg Bool.false_ne_true,
      Nat.zero_add]
  · rw [before_append_of_not_mem left, before_append_of_not_mem left, before_cons other,
      share_append, share_append, share_cons, Nat.add_left_comm]

end LtcOs.Prio
