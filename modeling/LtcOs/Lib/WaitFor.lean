import Mathlib.Data.Fintype.Basic
import Mathlib.Logic.Relation
import Mathlib.Tactic

/-!
Who waits for whom.

If what a client waits for goes up along every chain of clients that wait for each other, no
client waits for itself, and among finitely many clients every chain ends with one that does not
wait.
-/

namespace LtcOs.WaitFor

open Relation

variable {α : Type} {r : α → α → Prop} {f : α → Nat}

/-- Along two edges the height goes up. -/
def Climbing (r : α → α → Prop) (f : α → Nat) : Prop := ∀ a b c, r a b → r b c → f a < f b

theorem Climbing.lt (climbing : Climbing r f) {a b : α} (chain : TransGen r a b) :
    ∀ c, r b c → f a < f b := by
  induction chain with
  | single first =>
      intro c next
      exact climbing _ _ c first next
  | tail _ last ih =>
      intro c next
      exact (ih _ last).trans (climbing _ _ c last next)

theorem Climbing.acyclic (climbing : Climbing r f) (a : α) : ¬ TransGen r a a := by
  intro cycle
  obtain ⟨b, first, -⟩ := TransGen.head'_iff.mp cycle
  exact lt_irrefl _ (climbing.lt cycle b first)

theorem Climbing.ends [Finite α] (climbing : Climbing r f) (a : α) :
    ∃ b, ReflTransGen r a b ∧ ∀ c, ¬ r b c := by
  obtain ⟨top, bound⟩ : ∃ top, ∀ b, f b ≤ top := by
    obtain ⟨top, bound⟩ := (Set.finite_range f).bddAbove
    exact ⟨top, fun b => bound (Set.mem_range_self b)⟩
  -- the height left above a client that waits for another one goes down
  induction left : top - f a using Nat.strong_induction_on generalizing a with
  | _ left' ih =>
      by_cases waits : ∃ b, r a b
      · obtain ⟨b, first⟩ := waits
        by_cases next : ∃ c, r b c
        · obtain ⟨c, second⟩ := next
          have up := climbing a b c first second
          have high := bound b
          obtain ⟨e, chain, stops⟩ := ih (top - f b) (by omega) b rfl
          exact ⟨e, chain.head first, stops⟩
        · exact ⟨b, .single first, not_exists.mp next⟩
      · exact ⟨a, .refl, not_exists.mp waits⟩

/-- What does not go down along an edge does not go down along a chain. -/
theorem le_of_chain {g : α → Nat} (mono : ∀ a b, r a b → g a ≤ g b) {a b : α}
    (chain : ReflTransGen r a b) : g a ≤ g b := by
  induction chain with
  | refl => exact le_rfl
  | tail _ last ih => exact ih.trans (mono _ _ last)

end LtcOs.WaitFor
