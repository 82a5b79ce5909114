import Mathlib.Data.List.Basic
import Mathlib.Tactic

/-!
A circular buffer between a read and a write pointer.

The pointers are offsets from the start of the buffer. Equal pointers stand for an empty
buffer and for a full one; how many items are stored is for the owner of the buffer to
know. `Holds` says which items those are.
-/

namespace LtcOs.Circular

variable {α : Type}

structure Circ (α : Type) where
  size : Nat
  buffer : Nat → α
  rdptr : Nat
  wrptr : Nat

/-- `ptr++`, and back to the start at the top. -/
def next (size ptr : Nat) : Nat := if size ≤ ptr + 1 then 0 else ptr + 1

/-- `--ptr`, from the start to the top. -/
def previous (size ptr : Nat) : Nat := if ptr = 0 then size - 1 else ptr - 1

/-- Both pointers at the start. -/
def rewind (c : Circ α) : Circ α := { c with rdptr := 0, wrptr := 0 }

/-- An item is written at the tail. -/
def store (c : Circ α) (a : α) : Circ α :=
  { c with buffer := Function.update c.buffer c.wrptr a, wrptr := next c.size c.wrptr }

/-- An item is written at the head. -/
def storeAhead (c : Circ α) (a : α) : Circ α :=
  let rdptr := previous c.size c.rdptr
  { c with buffer := Function.update c.buffer rdptr a, rdptr := rdptr }

/-- The item at the head. -/
def first (c : Circ α) : α := c.buffer c.rdptr

/-- The item at the head is removed. -/
def drop (c : Circ α) : Circ α := { c with rdptr := next c.size c.rdptr }

/-- The place of the item number `i` from the head. -/
def slot (size head i : Nat) : Nat := if head + i < size then head + i else head + i - size

/-- The buffer has the items `l`, the oldest first. -/
structure Holds (c : Circ α) (l : List α) : Prop where
  head : c.rdptr < c.size
  room : l.length ≤ c.size
  tail : c.wrptr = slot c.size c.rdptr (if l.length = c.size then 0 else l.length)
  items : ∀ i a, l[i]? = some a → c.buffer (slot c.size c.rdptr i) = a

variable {c : Circ α} {l : List α} {a : α}

/-- The head is the place of the first item. -/
theorem slot_zero {size head : Nat} (inside : head < size) : slot size head 0 = head := by
  unfold slot
  rw [if_pos (by omega), Nat.add_zero]

/-- Equal pointers with nothing stored. -/
theorem holds_nil (head : c.rdptr < c.size) (same : c.wrptr = c.rdptr) : Holds c [] where
  head := head
  room := Nat.zero_le _
  tail := by
    rw [List.length_nil, if_neg (by omega), slot_zero head]
    exact same
  items i a item := by simp at item

theorem slot_ne {size head i j : Nat} (hi : i < size) (hj : j < size) (other : i ≠ j) :
    slot size head i ≠ slot size head j := by
  unfold slot
  split_ifs <;> omega

theorem slot_next {size head i : Nat} (inside : head < size) (hi : i + 1 < size) :
    slot size (next size head) i = slot size head (i + 1) := by
  unfold slot next
  split_ifs <;> omega

theorem slot_previous {size head i : Nat} (inside : head < size) (hi : i + 1 < size) :
    slot size (previous size head) (i + 1) = slot size head i := by
  unfold slot previous
  split_ifs <;> omega

theorem Holds.store (holds : Holds c l) (room : l.length < c.size) (a : α) :
    Holds (Circular.store c a) (l ++ [a]) := by
  have head := holds.head
  have tail : c.wrptr = slot c.size c.rdptr l.length := by
    rw [holds.tail, if_neg (by omega)]
  constructor
  · exact head
  · rw [List.length_append, List.length_singleton]
    exact room
  · simp only [Circular.store, tail, List.length_append, List.length_singleton]
    unfold slot next
    split_ifs <;> omega
  · intro i b item
    have inside : i < l.length + 1 := by
      have := (List.getElem?_eq_some_iff.mp item).1
      simpa using this
    change Function.update c.buffer c.wrptr a (slot c.size c.rdptr i) = b
    by_cases last : i = l.length
    · subst last
      rw [← tail, Function.update_self]
      simpa using item
    · have old : i < l.length := by omega
      rw [tail, Function.update_of_ne (slot_ne (by omega) room last)]
      rw [List.getElem?_append_left old] at item
      exact holds.items i b item

/-- The place of the next item may be written at any time. -/
theorem Holds.scribble (holds : Holds c l) (room : l.length < c.size) (a : α) :
    Holds { c with buffer := Function.update c.buffer c.wrptr a } l := by
  refine ⟨holds.head, holds.room, holds.tail, ?_⟩
  intro i b item
  have inside := (List.getElem?_eq_some_iff.mp item).1
  have tail : c.wrptr = slot c.size c.rdptr l.length := by
    rw [holds.tail, if_neg (by omega)]
  change Function.update c.buffer c.wrptr a (slot c.size c.rdptr i) = b
  rw [tail, Function.update_of_ne (slot_ne (by omega) room (by omega))]
  exact holds.items i b item

theorem Holds.storeAhead (holds : Holds c l) (room : l.length < c.size) (a : α) :
    Holds (Circular.storeAhead c a) (a :: l) := by
  have head := holds.head
  have before : previous c.size c.rdptr < c.size := by
    unfold previous
    split_ifs <;> omega
  constructor
  · exact before
  · rw [List.length_cons]
    exact room
  · simp only [Circular.storeAhead, holds.tail, List.length_cons]
    unfold slot previous
    split_ifs <;> omega
  · intro i b item
    change Function.update c.buffer (previous c.size c.rdptr) a
      (slot c.size (previous c.size c.rdptr) i) = b
    cases i with
    | zero =>
        rw [slot_zero before, Function.update_self]
        simpa using item
    | succ i =>
        have inside : i < l.length := by
          have := (List.getElem?_eq_some_iff.mp item).1
          simpa using this
        have away : slot c.size (previous c.size c.rdptr) (i + 1) ≠ previous c.size c.rdptr := by
          unfold slot
          split_ifs <;> omega
        rw [Function.update_of_ne away, slot_previous head (by omega)]
        exact holds.items i b (by simpa using item)

theorem Holds.first (holds : Holds c (a :: l)) : Circular.first c = a := by
  have item := holds.items 0 a rfl
  rw [slot_zero holds.head] at item
  exact item

theorem Holds.drop (holds : Holds c (a :: l)) : Holds (Circular.drop c) l := by
  have head := holds.head
  have room := holds.room
  rw [List.length_cons] at room
  constructor
  · change next c.size c.rdptr < c.size
    unfold next
    split_ifs <;> omega
  · exact Nat.le_of_succ_le room
  · simp only [Circular.drop, holds.tail, List.length_cons]
    unfold slot next
    split_ifs <;> omega
  · intro i b item
    change c.buffer (slot c.size (next c.size c.rdptr) i) = b
    have inside := (List.getElem?_eq_some_iff.mp item).1
    rw [slot_next head (by omega)]
    exact holds.items (i + 1) b (by simpa using item)

/-- Equal pointers mean empty or full. -/
theorem Holds.pointers (holds : Holds c l) : c.wrptr = c.rdptr ↔ l = [] ∨ l.length = c.size := by
  have head := holds.head
  have room := holds.room
  have nil : l = [] ↔ l.length = 0 := List.length_eq_zero_iff.symm
  rw [holds.tail, nil]
  unfold slot
  split_ifs <;> omega

end LtcOs.Circular
