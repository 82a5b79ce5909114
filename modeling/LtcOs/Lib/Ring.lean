import Mathlib.Tactic

/-!
Circular doubly linked lists.

Nodes are the elements of a type, the links two functions on it. `Ring` relates the
links to the list of nodes met from the header on, as two equations between lists;
`Cut` is the same ring opened at one place, which is where a node is inserted or
removed.
-/

namespace LtcOs.Linked

variable {α : Type}

structure Links (α : Type) where
  next : α → α
  prev : α → α

namespace Links

variable [DecidableEq α]

/-- The header alone. -/
def empty (h : α) (k : Links α) : Links α :=
  { next := Function.update k.next h h, prev := Function.update k.prev h h }

/-- Link `x` in before `p`. -/
def insertBefore (k : Links α) (x p : α) : Links α :=
  let k : Links α := { k with next := Function.update k.next x p }
  let k : Links α := { k with prev := Function.update k.prev x (k.prev (k.next x)) }
  let k : Links α := { k with next := Function.update k.next (k.prev x) x }
  { k with prev := Function.update k.prev p x }

/-- Link `x` out. -/
def unlink (k : Links α) (x : α) : Links α :=
  let k : Links α := { k with next := Function.update k.next (k.prev x) (k.next x) }
  { k with prev := Function.update k.prev (k.next x) (k.prev x) }

end Links

/-- From `h` on, the nodes of `l` are met and then `h` again, in both directions. -/
structure Ring (k : Links α) (h : α) (l : List α) : Prop where
  next : (h :: l).map k.next = l ++ [h]
  prev : (l ++ [h]).map k.prev = h :: l
  nodup : (h :: l).Nodup

/-- The ring between `xs` and `ys`: the node `a` there is followed by `p`. -/
structure Cut (k : Links α) (h : α) (xs ys : List α) (a p : α) : Prop where
  before : ∃ xs', h :: xs = xs' ++ [a] ∧ xs'.map k.next = xs ∧ xs.map k.prev = xs'
  after : ∃ ys', ys ++ [h] = p :: ys' ∧ ys.map k.next = ys' ∧ ys'.map k.prev = ys

section Cut

variable {k : Links α} {h a p x : α} {xs ys : List α}

theorem exists_last (h : α) (xs : List α) : ∃ xs' a, h :: xs = xs' ++ [a] :=
  ⟨_, _, (List.dropLast_append_getLast (List.cons_ne_nil h xs)).symm⟩

theorem exists_first (h : α) (ys : List α) : ∃ p ys', ys ++ [h] = p :: ys' := by
  cases ys with
  | nil => exact ⟨h, [], rfl⟩
  | cons y ys => exact ⟨y, ys ++ [h], rfl⟩

theorem Ring.cut (ring : Ring k h (xs ++ ys)) :
    ∃ a p, Cut k h xs ys a p ∧ k.next a = p ∧ k.prev p = a := by
  obtain ⟨xs', a, first⟩ := exists_last h xs
  obtain ⟨p, ys', rest⟩ := exists_first h ys
  have length : xs'.length = xs.length := by
    have := congrArg List.length first
    simp only [List.length_cons, List.length_append, List.length_nil] at this
    omega
  have next := ring.next
  rw [← List.cons_append, first, List.append_assoc, List.append_assoc, rest,
    List.map_append] at next
  obtain ⟨next₁, next⟩ := List.append_inj next (by rw [List.length_map, length])
  obtain ⟨next₂, next₃⟩ := List.cons.inj next
  have prev := ring.prev
  rw [← List.cons_append, first, List.append_assoc, List.append_assoc, rest,
    List.map_append] at prev
  obtain ⟨prev₁, prev⟩ := List.append_inj prev (by rw [List.length_map, length])
  obtain ⟨prev₂, prev₃⟩ := List.cons.inj prev
  exact ⟨a, p, ⟨⟨xs', first, next₁, prev₁⟩, ⟨ys', rest, next₃, prev₃⟩⟩, next₂, prev₂⟩

/-- A cut whose two sides are linked is a ring. -/
theorem Cut.ring (cut : Cut k h xs ys a p) (next : k.next a = p) (prev : k.prev p = a)
    (nodup : (h :: (xs ++ ys)).Nodup) : Ring k h (xs ++ ys) := by
  obtain ⟨⟨xs', first, next₁, prev₁⟩, ⟨ys', rest, next₃, prev₃⟩⟩ := cut
  constructor
  · rw [← List.cons_append, first, List.append_assoc, List.append_assoc, rest, List.map_append,
      next₁]
    simp [next, next₃]
  · rw [← List.cons_append, first, List.append_assoc, List.append_assoc, rest, List.map_append,
      prev₁]
    simp [prev, prev₃]
  · exact nodup

/-- A cut with a node in it is a ring. -/
theorem Cut.ring_cons (cut : Cut k h xs ys a p) (next : k.next a = x) (prev : k.prev x = a)
    (next' : k.next x = p) (prev' : k.prev p = x) (nodup : (h :: (xs ++ x :: ys)).Nodup) :
    Ring k h (xs ++ x :: ys) := by
  obtain ⟨⟨xs', first, next₁, prev₁⟩, ⟨ys', rest, next₃, prev₃⟩⟩ := cut
  constructor
  · rw [← List.cons_append, first, List.append_assoc, List.append_assoc,
      show x :: ys ++ [h] = x :: (ys ++ [h]) from rfl, rest, List.map_append, next₁]
    simp [next, next', next₃]
  · rw [← List.cons_append, first, List.append_assoc, List.append_assoc,
      show x :: ys ++ [h] = x :: (ys ++ [h]) from rfl, rest, List.map_append, prev₁]
    simp [prev, prev', prev₃]
  · exact nodup

/-- A node of a ring, taken out. -/
theorem Ring.cut_at (ring : Ring k h (xs ++ x :: ys)) :
    ∃ a p, Cut k h xs ys a p ∧ k.next a = x ∧ k.prev x = a ∧ k.next x = p ∧ k.prev p = x := by
  obtain ⟨a, b, ⟨before, ⟨ys', rest, next, prev⟩⟩, to_x, from_x⟩ := ring.cut
  have rest : x :: (ys ++ [h]) = b :: ys' := rest
  obtain ⟨rfl, rfl⟩ := List.cons.inj rest
  obtain ⟨p, ys'', first⟩ := exists_first h ys
  rw [first] at next prev
  obtain ⟨next₁, next₂⟩ := List.cons.inj next
  obtain ⟨prev₁, prev₂⟩ := List.cons.inj prev
  exact ⟨a, p, ⟨before, ⟨ys'', first, next₂, prev₂⟩⟩, to_x, from_x, next₁, prev₁⟩

/-- Where the ends of a cut are. -/
theorem Cut.left_mem (cut : Cut k h xs ys a p) : a ∈ h :: xs := by
  obtain ⟨⟨xs', first, -⟩, -⟩ := cut
  rw [first]
  simp

theorem Cut.right_mem (cut : Cut k h xs ys a p) : p ∈ h :: ys := by
  obtain ⟨-, ⟨ys', rest, -⟩⟩ := cut
  have : p ∈ ys ++ [h] := by
    rw [rest]
    exact List.mem_cons_self
  simp only [List.mem_append, List.mem_cons, List.not_mem_nil, or_false] at this ⊢
  tauto

/-- Other links than those into and out of a cut do not matter to it, nor does a
node that is not in the ring. -/
theorem Cut.congr {k' : Links α} (cut : Cut k h xs ys a p) (nodup : (h :: (xs ++ ys)).Nodup)
    (next : ∀ b, b ∈ h :: (xs ++ ys) → b ≠ a → k'.next b = k.next b)
    (prev : ∀ b, b ∈ h :: (xs ++ ys) → b ≠ p → k'.prev b = k.prev b) : Cut k' h xs ys a p := by
  obtain ⟨⟨xs', first, next₁, prev₁⟩, ⟨ys', rest, next₂, prev₂⟩⟩ := cut
  have here : h :: (xs ++ ys) = xs' ++ a :: ys := by
    rw [← List.cons_append, first, List.append_assoc]
    rfl
  have there : (h :: (xs ++ ys)).Perm (xs ++ p :: ys') := by
    rw [← rest, ← List.append_assoc]
    exact (List.perm_append_singleton h (xs ++ ys)).symm
  have outside : a ∉ xs' ++ ys := by
    rw [here] at nodup
    exact (List.nodup_cons.mp (List.nodup_middle.mp nodup)).1
  have outside' : p ∉ xs ++ ys' := by
    have nodup := there.nodup_iff.mp nodup
    exact (List.nodup_cons.mp (List.nodup_middle.mp nodup)).1
  rw [List.mem_append, not_or] at outside outside'
  have next' : ∀ b, b ∈ xs' ∨ b ∈ ys → k'.next b = k.next b := by
    intro b hb
    apply next b
    · rw [here, List.mem_append, List.mem_cons]
      tauto
    · rintro rfl
      tauto
  have prev' : ∀ b, b ∈ xs ∨ b ∈ ys' → k'.prev b = k.prev b := by
    intro b hb
    apply prev b
    · rw [there.mem_iff, List.mem_append, List.mem_cons]
      tauto
    · rintro rfl
      tauto
  constructor
  · refine ⟨xs', first, ?_, ?_⟩
    · rw [← next₁]
      exact List.map_congr_left fun b hb => next' b (.inl hb)
    · rw [← prev₁]
      exact List.map_congr_left fun b hb => prev' b (.inl hb)
  · refine ⟨ys', rest, ?_, ?_⟩
    · rw [← next₂]
      exact List.map_congr_left fun b hb => next' b (.inr hb)
    · rw [← prev₂]
      exact List.map_congr_left fun b hb => prev' b (.inr hb)

/-- The node after the header is the first of the list, or the header. -/
theorem Ring.next_header {l : List α} (ring : Ring k h l) :
    (l ++ [h]).head? = some (k.next h) := by
  rw [← ring.next]
  rfl

/-- The node after the last of a first part is the first of the rest, or the header. -/
theorem Ring.next_last (ring : Ring k h (xs ++ ys)) (last : (h :: xs).getLast? = some a) :
    (ys ++ [h]).head? = some (k.next a) := by
  obtain ⟨a', p, cut, next, -⟩ := ring.cut
  obtain ⟨xs', first, -⟩ := cut.before
  obtain ⟨ys', rest, -⟩ := cut.after
  rw [first, List.getLast?_append_of_ne_nil _ (List.cons_ne_nil a' []), List.getLast?_singleton,
    Option.some.injEq] at last
  rw [rest, List.head?_cons, ← last, next]

theorem path_unique {next : α → α} {l l' : List α} (path : (a :: l).map next = l ++ [h])
    (path' : (a :: l').map next = l' ++ [h]) (end_ : h ∉ l) (end' : h ∉ l') : l = l' := by
  induction l generalizing a l' with
  | nil =>
      cases l' with
      | nil => rfl
      | cons y ys =>
          have here : next a = h := (List.cons.inj path).1
          have there : next a = y := (List.cons.inj path').1
          exact absurd List.mem_cons_self (here.symm.trans there ▸ end')
  | cons x xs ih =>
      have here : next a = x := (List.cons.inj path).1
      cases l' with
      | nil =>
          have there : next a = h := (List.cons.inj path').1
          exact absurd List.mem_cons_self (there.symm.trans here ▸ end_)
      | cons y ys =>
          have there : next a = y := (List.cons.inj path').1
          obtain rfl : x = y := here.symm.trans there
          have rest := ih (List.cons.inj path).2 (List.cons.inj path').2
            (fun mem => end_ (List.mem_cons_of_mem _ mem))
            fun mem => end' (List.mem_cons_of_mem _ mem)
          rw [rest]

/-- The links determine the list. -/
theorem Ring.unique {l l' : List α} (ring : Ring k h l) (ring' : Ring k h l') : l = l' :=
  path_unique ring.next ring'.next (List.nodup_cons.mp ring.nodup).1
    (List.nodup_cons.mp ring'.nodup).1

theorem Ring.prev_first (ring : Ring k h (x :: ys)) : k.prev x = h :=
  (List.cons.inj ring.prev).1

theorem Ring.next_mem (ring : Ring k h (xs ++ x :: ys)) :
    (ys ++ [h]).head? = some (k.next x) := by
  obtain ⟨a, p, cut, -, -, next, -⟩ := ring.cut_at
  obtain ⟨ys', rest, -⟩ := cut.after
  rw [rest, next]
  rfl

/-- What is left of a list has no more behind a member than the whole list. -/
theorem length_after_le {xs' ys' : List α} (sub : (xs' ++ x :: ys').Sublist (xs ++ x :: ys))
    (once : x ∉ xs) :
    ys'.length ≤ ys.length := by
  obtain ⟨left, right, eq, sub_left, sub_right⟩ := List.sublist_append_iff.mp sub
  have absent : x ∉ left := fun mem => once (sub_left.subset mem)
  have bound := sub_right.length_le
  rcases List.append_eq_append_iff.mp eq with ⟨more, rfl, rest⟩ | ⟨more, -, rest⟩
  · cases more with
    | nil =>
        rw [← List.nil_append right, ← rest] at bound
        simpa using bound
    | cons a more =>
        cases rest
        exact absurd (by simp) absent
  · rw [rest] at bound
    simp only [List.length_append, List.length_cons] at bound
    omega

end Cut

section Operations

variable [DecidableEq α] {k : Links α} {h x p : α} {xs ys : List α}

theorem ring_empty (k : Links α) (h : α) : Ring (k.empty h) h [] := by
  constructor
  · simp [Links.empty]
  · simp [Links.empty]
  · simp

theorem insertBefore_next (k : Links α) (x p : α) :
    (k.insertBefore x p).next = Function.update (Function.update k.next x p) (k.prev p) x := by
  simp [Links.insertBefore]

theorem insertBefore_prev (k : Links α) (x p : α) :
    (k.insertBefore x p).prev = Function.update (Function.update k.prev x (k.prev p)) p x := by
  simp [Links.insertBefore]

/-- A node linked in before `p` is in front of it. -/
theorem Ring.insertBefore (ring : Ring k h (xs ++ ys)) (fresh : x ∉ h :: (xs ++ ys))
    (first : (ys ++ [h]).head? = some p) : Ring (k.insertBefore x p) h (xs ++ x :: ys) := by
  obtain ⟨a, p', cut, next, prev⟩ := ring.cut
  obtain rfl : p' = p := by
    obtain ⟨ys', rest, -⟩ := cut.after
    rw [rest] at first
    exact Option.some.inj first
  have left : a ≠ x := by
    rintro rfl
    exact fresh (by simpa using Or.imp_right Or.inl (List.mem_cons.mp cut.left_mem))
  have right : p' ≠ x := by
    rintro rfl
    exact fresh (by simpa using Or.imp_right Or.inr (List.mem_cons.mp cut.right_mem))
  apply Cut.ring_cons (a := a) (p := p')
  · apply cut.congr ring.nodup
    · intro b hb other
      rw [insertBefore_next, prev, Function.update_of_ne other, Function.update_of_ne]
      rintro rfl
      exact fresh hb
    · intro b hb other
      rw [insertBefore_prev, Function.update_of_ne other, Function.update_of_ne]
      rintro rfl
      exact fresh hb
  · rw [insertBefore_next, prev, Function.update_self]
  · rw [insertBefore_prev, Function.update_of_ne right.symm, Function.update_self, prev]
  · rw [insertBefore_next, prev, Function.update_of_ne left.symm, Function.update_self]
  · rw [insertBefore_prev, Function.update_self]
  · rw [← List.cons_append, List.nodup_middle, List.cons_append]
    exact List.nodup_cons.mpr ⟨fresh, ring.nodup⟩

theorem unlink_next (k : Links α) (x : α) :
    (k.unlink x).next = Function.update k.next (k.prev x) (k.next x) := rfl

theorem unlink_prev (k : Links α) {x : α} (other : k.prev x ≠ x) :
    (k.unlink x).prev = Function.update k.prev (k.next x) (k.prev x) := by
  simp [Links.unlink, Function.update_of_ne other.symm]

/-- A node linked out is gone. -/
theorem Ring.unlink (ring : Ring k h (xs ++ x :: ys)) : Ring (k.unlink x) h (xs ++ ys) := by
  obtain ⟨a, p, cut, next, prev, next', prev'⟩ := ring.cut_at
  have middle : x ∉ h :: (xs ++ ys) ∧ (h :: (xs ++ ys)).Nodup := by
    have := ring.nodup
    rw [← List.cons_append, List.nodup_middle, List.cons_append] at this
    exact List.nodup_cons.mp this
  have left : a ≠ x := by
    rintro rfl
    exact middle.1 (by simpa using Or.imp_right Or.inl (List.mem_cons.mp cut.left_mem))
  have other : k.prev x ≠ x := by
    rw [prev]
    exact left
  apply Cut.ring (a := a) (p := p)
  · apply cut.congr middle.2
    · intro b _ hb
      rw [unlink_next, prev, Function.update_of_ne hb]
    · intro b _ hb
      rw [unlink_prev k other, next', Function.update_of_ne hb]
  · rw [unlink_next, prev, Function.update_self, next']
  · rw [unlink_prev k other, next', Function.update_self, prev]
  · exact middle.2

end Operations

end LtcOs.Linked
