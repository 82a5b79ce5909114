import LtcOs.Lib.Ring

/-!
Circular lists that share their links.

A node has one pair of links, and is on at most one list at a time. `Round` is the list
seen in one direction only, which is all that a singly linked one has. Every operation
on a list writes links of its own nodes and of the node that comes or goes, so the other
lists stay as they are.
-/

namespace LtcOs.Linked

variable {α : Type}

/-- From `h` on, the nodes of `l` are met and then `h` again. -/
structure Round (next : α → α) (h : α) (l : List α) : Prop where
  next : (h :: l).map next = l ++ [h]
  nodup : (h :: l).Nodup

/-- `while (p != h) { n++; p = p->next; }` with a bound on the rounds. -/
def count [DecidableEq α] (next : α → α) (h : α) : (fuel : Nat) → (p : α) → Option Nat
  | 0, _ => none
  | fuel + 1, p => if p = h then some 0 else (count next h fuel (next p)).map (· + 1)

section Rounds

variable {next next' : α → α} {k k' : Links α} {h x : α} {l xs : List α}

theorem Ring.round (ring : Ring k h l) : Round k.next h l := ⟨ring.next, ring.nodup⟩

/-- Backward the nodes are met in the opposite order. -/
theorem Ring.round_prev (ring : Ring k h l) : Round k.prev h l.reverse := by
  constructor
  · have back := congrArg List.reverse ring.prev
    rw [← List.map_reverse, List.reverse_append, List.reverse_cons] at back
    simpa using back
  · exact (List.perm_cons h |>.mpr (List.reverse_perm l)).nodup_iff.mpr ring.nodup

theorem Round.mem (round : Round next h l) {n : α} (here : n ∈ h :: l) : next n ∈ h :: l := by
  have image := List.mem_map_of_mem (f := next) here
  rw [round.next, List.mem_append, List.mem_singleton] at image
  exact List.mem_cons.mpr image.symm

theorem Ring.mem_next (ring : Ring k h l) {n : α} (here : n ∈ h :: l) : k.next n ∈ h :: l :=
  ring.round.mem here

theorem Ring.mem_prev (ring : Ring k h l) {n : α} (here : n ∈ h :: l) : k.prev n ∈ h :: l := by
  have mem := ring.round_prev.mem (n := n) (by rwa [List.mem_cons, List.mem_reverse, ← List.mem_cons])
  rwa [List.mem_cons, List.mem_reverse, ← List.mem_cons] at mem

theorem Ring.prev_ne (ys : List α) (ring : Ring k h (xs ++ x :: ys)) : k.prev x ≠ x := by
  obtain ⟨a, p, cut, -, prev, -⟩ := ring.cut_at
  have nodup := ring.nodup
  rw [← List.cons_append, List.nodup_middle] at nodup
  have outside := (List.nodup_cons.mp nodup).1
  rw [prev]
  rintro rfl
  exact outside (List.mem_append.mpr (.inl cut.left_mem))

theorem Round.congr (round : Round next h l) (same : ∀ n ∈ h :: l, next' n = next n) :
    Round next' h l := by
  refine ⟨?_, round.nodup⟩
  rw [← round.next]
  exact List.map_congr_left same

theorem Ring.congr (ring : Ring k h l) (next : ∀ n ∈ h :: l, k'.next n = k.next n)
    (prev : ∀ n ∈ h :: l, k'.prev n = k.prev n) : Ring k' h l := by
  refine ⟨(ring.round.congr next).next, ?_, ring.nodup⟩
  rw [← ring.prev]
  refine List.map_congr_left fun n mem => prev n ?_
  rw [List.mem_append, List.mem_singleton] at mem
  exact List.mem_cons.mpr mem.symm

theorem Round.first (round : Round next h (x :: l)) : next h = x :=
  (List.cons.inj round.next).1

theorem Round.nil_iff (round : Round next h l) : next h = h ↔ l = [] := by
  cases l with
  | nil => exact iff_of_true (List.cons.inj round.next).1 rfl
  | cons x l =>
      rw [round.first]
      refine iff_of_false ?_ (List.cons_ne_nil x l)
      rintro rfl
      exact (List.nodup_cons.mp round.nodup).1 List.mem_cons_self

/-- The last node, from the other direction. -/
theorem Ring.prev_header (ring : Ring k h (xs ++ [x])) : k.prev h = x := by
  have back := ring.round_prev
  rw [List.reverse_append, List.reverse_singleton] at back
  exact back.first

theorem Ring.next_end (ring : Ring k h (xs ++ [x])) : k.next x = h := by
  have next : (([] : List α) ++ [h]).head? = some (k.next x) := ring.next_mem
  exact (Option.some.inj next).symm

variable [DecidableEq α]

/-- A node pushed on top. -/
theorem Round.push (round : Round next h l) (fresh : x ∉ h :: l) :
    Round (Function.update (Function.update next x (next h)) h x) h (x :: l) := by
  obtain ⟨other, outside⟩ := not_or.mp (fun mem => fresh (List.mem_cons.mpr mem))
  constructor
  · rw [List.map_cons, Function.update_self, List.map_cons, Function.update_of_ne other,
      Function.update_self, List.cons_append]
    congr 1
    have rest : l.map (Function.update (Function.update next x (next h)) h x) = l.map next := by
      refine List.map_congr_left fun n mem => ?_
      rw [Function.update_of_ne, Function.update_of_ne]
      · rintro rfl
        exact outside mem
      · rintro rfl
        exact (List.nodup_cons.mp round.nodup).1 mem
    rw [rest]
    exact round.next
  · have nodup : (x :: h :: l).Nodup := List.nodup_cons.mpr ⟨fresh, round.nodup⟩
    exact (List.Perm.swap h x l).nodup_iff.mp nodup

/-- The node on top popped. -/
theorem Round.pop (round : Round next h (x :: l)) : Round (Function.update next h (next x)) h l := by
  obtain ⟨outside, nodup⟩ := List.nodup_cons.mp round.nodup
  constructor
  · have tail := (List.cons.inj round.next).2
    rw [List.map_cons] at tail
    have rest : l.map (Function.update next h (next x)) = l.map next := by
      refine List.map_congr_left fun n mem => Function.update_of_ne ?_ _ _
      rintro rfl
      exact outside (List.mem_cons_of_mem _ mem)
    rw [List.map_cons, Function.update_self, rest]
    exact tail
  · refine List.nodup_cons.mpr ⟨fun mem => outside (List.mem_cons_of_mem _ mem), ?_⟩
    exact (List.nodup_cons.mp nodup).2

theorem round_empty (next : α → α) (h : α) : Round (Function.update next h h) h [] := by
  constructor
  · rw [List.map_cons, Function.update_self]
    rfl
  · simp

/-- Counting from the node after `a` on. -/
theorem count_path {a : α} (path : (a :: l).map next = l ++ [h]) (outside : h ∉ l) {fuel : Nat}
    (enough : l.length < fuel) : count next h fuel (next a) = some l.length := by
  obtain ⟨fuel, rfl⟩ : ∃ j, fuel = j + 1 := ⟨fuel - 1, by omega⟩
  induction l generalizing a fuel with
  | nil =>
      have last : next a = h := (List.cons.inj path).1
      rw [count, if_pos last]
      rfl
  | cons x l ih =>
      obtain ⟨first, rest⟩ := List.cons.inj path
      rw [List.mem_cons, not_or] at outside
      rw [List.length_cons] at enough
      obtain ⟨fuel, rfl⟩ : ∃ j, fuel = j + 1 := ⟨fuel - 1, by omega⟩
      rw [count, first, if_neg (Ne.symm outside.1), ih rest outside.2 fuel (by omega)]
      rfl

/-- A count of the whole list, which comes to its end. -/
theorem Round.count (round : Round next h l) {fuel : Nat} (enough : l.length < fuel) :
    Linked.count next h fuel (next h) = some l.length :=
  count_path round.next (List.nodup_cons.mp round.nodup).1 enough

/-- Both directions count the same nodes. -/
theorem Ring.count_eq (ring : Ring k h l) {fuel : Nat} (enough : l.length < fuel) :
    Linked.count k.next h fuel (k.next h) = some l.length ∧
      Linked.count k.prev h fuel (k.prev h) = some l.length := by
  refine ⟨ring.round.count enough, ?_⟩
  rw [← List.length_reverse]
  exact ring.round_prev.count (by rwa [List.length_reverse])

end Rounds

end LtcOs.Linked
