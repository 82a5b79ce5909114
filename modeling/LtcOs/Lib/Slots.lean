import Mathlib.Order.Interval.Finset.Nat
import Mathlib.Tactic

/-!
Tables with a fixed number of slots, and how many of them have a property.
-/

namespace LtcOs.Slots

variable {α : Type} {p : α → Prop} [DecidablePred p] {t : Nat → α} {k n j : Nat}

/-- The slots from `k` up to `n` that have the property `p`. -/
def tally (p : α → Prop) [DecidablePred p] (t : Nat → α) (k n : Nat) : Nat :=
  ((Finset.Ico k n).filter fun j => p (t j)).card

/-- One slot against the rest of the table. -/
theorem tally_split (mem : k ≤ j ∧ j < n) :
    tally p t k n = (if p (t j) then 1 else 0) + (((Finset.Ico k n).erase j).filter fun i => p (t i)).card := by
  have inside : j ∈ Finset.Ico k n := Finset.mem_Ico.mpr mem
  rw [tally, ← Finset.insert_erase inside, Finset.filter_insert, Finset.erase_insert_eq_erase,
    Finset.erase_idem]
  split_ifs
  · rw [Finset.card_insert_of_notMem (by simp), add_comm]
  · rw [zero_add]

theorem tally_update (mem : k ≤ j ∧ j < n) (a : α) :
    tally p (Function.update t j a) k n + (if p (t j) then 1 else 0) = tally p t k n + if p a then 1 else 0 := by
  have rest : (((Finset.Ico k n).erase j).filter fun i => p (Function.update t j a i)) =
      ((Finset.Ico k n).erase j).filter fun i => p (t i) := by
    apply Finset.filter_congr
    intro i there
    rw [Function.update_of_ne (Finset.ne_of_mem_erase there)]
  rw [tally_split (t := Function.update t j a) mem, tally_split (t := t) mem, rest,
    Function.update_self]
  omega

theorem tally_congr {t' : Nat → α} (same : ∀ j, p (t j) ↔ p (t' j)) :
    tally p t k n = tally p t' k n := by
  unfold tally
  simp only [same]

theorem tally_update_outside (out : j < k ∨ n ≤ j) (a : α) :
    tally p (Function.update t j a) k n = tally p t k n := by
  unfold tally
  congr 1
  apply Finset.filter_congr
  intro i mem
  rw [Finset.mem_Ico] at mem
  rw [Function.update_of_ne (by omega)]

/-- Filling a slot that does not have the property loses nothing. -/
theorem tally_le_update (not : ¬ p (t j)) (a : α) :
    tally p t k n ≤ tally p (Function.update t j a) k n := by
  by_cases mem : k ≤ j ∧ j < n
  · have := tally_update (p := p) (t := t) mem a
    rw [if_neg not] at this
    omega
  · rw [tally_update_outside (by omega)]

/-- The first slot and those after it. -/
theorem tally_step (lt : k < n) :
    tally p t k n = (if p (t k) then 1 else 0) + tally p t (k + 1) n := by
  have rest : (Finset.Ico k n).erase k = Finset.Ico (k + 1) n := by
    ext i
    simp only [Finset.mem_erase, Finset.mem_Ico]
    omega
  rw [tally_split (p := p) (t := t) ⟨le_rfl, lt⟩, rest]
  rfl

theorem tally_end (le : n ≤ k) : tally p t k n = 0 := by
  rw [tally, Finset.Ico_eq_empty_of_le le]
  rfl

theorem tally_le (p : α → Prop) [DecidablePred p] (t : Nat → α) (k n : Nat) :
    tally p t k n ≤ n - k := by
  refine (Finset.card_filter_le _ _).trans ?_
  rw [Nat.card_Ico]

theorem tally_eq_zero (none : ∀ j, k ≤ j → j < n → ¬ p (t j)) : tally p t k n = 0 := by
  rw [tally, Finset.card_eq_zero, Finset.filter_eq_empty_iff]
  intro j mem
  rw [Finset.mem_Ico] at mem
  exact none j mem.1 mem.2

theorem of_tally_eq_zero (zero : tally p t k n = 0) (ge : k ≤ j) (lt : j < n) : ¬ p (t j) := by
  rw [tally, Finset.card_eq_zero, Finset.filter_eq_empty_iff] at zero
  exact zero (Finset.mem_Ico.mpr ⟨ge, lt⟩)

end LtcOs.Slots
