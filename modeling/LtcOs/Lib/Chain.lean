import Mathlib.Tactic

/-!
Singly linked lists with a header.

`Path` follows the links from one node through a list of others, `Chain` does so up
to the null link. An update of one link is local: it concerns the path after the
node, and no node met once.
-/

namespace LtcOs.Linked

variable {α : Type}

/-- The links lead from `q` through the nodes of the list. -/
def Path (next : α → α) : α → List α → Prop
  | _, [] => True
  | q, x :: xs => next q = x ∧ Path next x xs

/-- The last node of a path. -/
def lastOf : α → List α → α
  | q, [] => q
  | _, x :: xs => lastOf x xs

/-- The links lead from `q` through the nodes of the list and end there. -/
def Chain (null : α) (next : α → α) (q : α) (xs : List α) : Prop :=
  Path next q xs ∧ next (lastOf q xs) = null

section Lemmas

variable {null q v : α} {next next' : α → α} {xs ys : List α}

theorem path_append : Path next q (xs ++ ys) ↔ Path next q xs ∧ Path next (lastOf q xs) ys := by
  induction xs generalizing q with
  | nil => simp [Path, lastOf]
  | cons x xs ih => simp [Path, lastOf, ih, and_assoc]

theorem lastOf_append : lastOf q (xs ++ ys) = lastOf (lastOf q xs) ys := by
  induction xs generalizing q with
  | nil => rfl
  | cons x xs ih => exact ih

theorem chain_append :
    Chain null next q (xs ++ ys) ↔ Path next q xs ∧ Chain null next (lastOf q xs) ys := by
  rw [Chain, Chain, path_append, lastOf_append, and_assoc]

theorem chain_nil : Chain null next q [] ↔ next q = null := by
  simp [Chain, Path, lastOf]

theorem chain_cons {x : α} : Chain null next q (x :: xs) ↔ next q = x ∧ Chain null next x xs := by
  simp [Chain, Path, lastOf, and_assoc]

theorem lastOf_mem (q : α) (xs : List α) : lastOf q xs ∈ q :: xs := by
  induction xs generalizing q with
  | nil => exact List.mem_cons_self
  | cons x xs ih => exact List.mem_cons_of_mem _ (ih x)

theorem lastOf_concat (q x : α) (xs : List α) : lastOf q (xs ++ [x]) = x := by
  rw [lastOf_append]
  rfl

/-- The link out of the last node is not part of a path. -/
theorem Path.congr (path : Path next q xs) (nodup : (q :: xs).Nodup)
    (same : ∀ x ∈ q :: xs, x ≠ lastOf q xs → next' x = next x) : Path next' q xs := by
  induction xs generalizing q with
  | nil => trivial
  | cons x xs ih =>
      obtain ⟨first, rest⟩ := path
      obtain ⟨fresh, nodup⟩ := List.nodup_cons.mp nodup
      constructor
      · rw [same q List.mem_cons_self, first]
        intro last
        exact fresh (last ▸ lastOf_mem x xs)
      · exact ih rest nodup fun y hy => same y (List.mem_cons_of_mem _ hy)

theorem Chain.congr (chain : Chain null next q xs) (same : ∀ x ∈ q :: xs, next' x = next x) :
    Chain null next' q xs := by
  induction xs generalizing q with
  | nil =>
      rw [chain_nil] at chain ⊢
      rw [same q List.mem_cons_self, chain]
  | cons x xs ih =>
      rw [chain_cons] at chain ⊢
      constructor
      · rw [same q List.mem_cons_self, chain.1]
      · exact ih chain.2 fun y hy => same y (List.mem_cons_of_mem _ hy)

/-- A chain that is entered from another node. -/
theorem Chain.relink {h : α} (chain : Chain null next h xs) (enter : next' q = next h)
    (same : ∀ x ∈ xs, next' x = next x) : Chain null next' q xs := by
  cases xs with
  | nil =>
      rw [chain_nil] at chain ⊢
      rw [enter, chain]
  | cons x xs =>
      rw [chain_cons] at chain ⊢
      exact ⟨enter.trans chain.1, chain.2.congr same⟩

end Lemmas

end LtcOs.Linked
