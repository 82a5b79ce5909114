import Mathlib.Tactic

/-!
Scans of a table for the entry with the least key.

The scan goes through the table once. It keeps the place of the best entry so far with its key,
and an admitted entry takes that place only if its key is strictly less.
-/

namespace LtcOs.Scan

variable {α β : Type} [LinearOrder β]

/-- The best key so far and the place of its entry. -/
structure Best (β : Type) where
  key : β
  place : Nat

/-- What an entry and its place make of the best one so far. -/
def consider (fits : α → Prop) [DecidablePred fits] (key : α → β) (best : Best β)
    (entry : α × Nat) : Best β :=
  if fits entry.1 then if key entry.1 < best.key then ⟨key entry.1, entry.2⟩ else best else best

def scan (fits : α → Prop) [DecidablePred fits] (key : α → β) (table : List α)
    (start : Best β) : Best β :=
  table.zipIdx.foldl (consider fits key) start

/-- The place is that of an admitted entry, and no other admitted one has a lesser key. -/
structure LeastAt (fits : α → Prop) (key : α → β) (table : List α) (best : Best β) (a : α) :
    Prop where
  entry : table[best.place]? = some a
  admitted : fits a
  key_eq : key a = best.key
  least : ∀ b ∈ table, fits b → key a ≤ key b

variable {fits : α → Prop} {key : α → β} {table : List α} {start best : Best β} {a b : α}

/-- An entry that does not beat the best one leaves it the least. -/
theorem LeastAt.keep (least : LeastAt fits key table best a) (worse : fits b → best.key ≤ key b) :
    LeastAt fits key (table ++ [b]) best a := by
  constructor
  · have bound : best.place < table.length := by
      by_contra beyond
      have missing := List.getElem?_eq_none (not_lt.mp beyond)
      rw [least.entry] at missing
      cases missing
    rw [List.getElem?_append_left bound]
    exact least.entry
  · exact least.admitted
  · exact least.key_eq
  · intro c mem admitted
    rcases List.mem_append.mp mem with old | new
    · exact least.least c old admitted
    · obtain rfl := List.mem_singleton.mp new
      rw [least.key_eq]
      exact worse admitted

/-- An entry that beats all of them is the least. -/
theorem leastAt_append (admitted : fits b) (better : ∀ c ∈ table, fits c → key b ≤ key c) :
    LeastAt fits key (table ++ [b]) ⟨key b, table.length⟩ b := by
  constructor
  · exact List.getElem?_concat_length
  · exact admitted
  · rfl
  · intro c mem admitted'
    rcases List.mem_append.mp mem with old | new
    · exact better c old admitted'
    · obtain rfl := List.mem_singleton.mp new
      exact le_rfl

variable [DecidablePred fits]

theorem consider_of_better {place : Nat} (admitted : fits b) (better : key b < best.key) :
    consider fits key best (b, place) = ⟨key b, place⟩ := by
  rw [consider, if_pos admitted, if_pos better]

theorem consider_of_worse {place : Nat} (worse : fits b → best.key ≤ key b) :
    consider fits key best (b, place) = best := by
  rw [consider]
  split_ifs with admitted better
  · exact absurd better (worse admitted).not_gt
  · rfl
  · rfl

theorem scan_append (b : α) :
    scan fits key (table ++ [b]) start =
      consider fits key (scan fits key table start) (b, table.length) := by
  simp only [scan, List.zipIdx_append, List.foldl_append, List.zipIdx_cons, List.zipIdx_nil,
    List.foldl_cons, List.foldl_nil, Nat.zero_add]

variable (fits key) in
/-- The scan ends at the least of the admitted entries, or where it started if none of them is
below the key it started with. -/
theorem scan_spec (table : List α) (start : Best β) :
    scan fits key table start = start ∧ (∀ b ∈ table, fits b → start.key ≤ key b) ∨
      ∃ a, key a < start.key ∧ LeastAt fits key table (scan fits key table start) a := by
  induction table using List.reverseRecOn with
  | nil => exact .inl ⟨rfl, fun b mem => absurd mem List.not_mem_nil⟩
  | append_singleton table b ih =>
      rw [scan_append]
      by_cases beats : fits b ∧ key b < (scan fits key table start).key
      · -- the new entry is below the key so far, which is at most the one of the start
        rw [consider_of_better beats.1 beats.2]
        refine .inr ⟨b, ?_, leastAt_append beats.1 ?_⟩
        · rcases ih with ⟨eq, -⟩ | ⟨a, below, least⟩
          · rw [eq] at beats
            exact beats.2
          · exact (beats.2.trans_eq least.key_eq.symm).trans below
        · rcases ih with ⟨eq, above⟩ | ⟨a, -, least⟩
          · rw [eq] at beats
            exact fun c mem admitted => beats.2.le.trans (above c mem admitted)
          · rw [← least.key_eq] at beats
            exact fun c mem admitted => beats.2.le.trans (least.least c mem admitted)
      · have worse : fits b → (scan fits key table start).key ≤ key b :=
          fun admitted => not_lt.mp fun less => beats ⟨admitted, less⟩
        rw [consider_of_worse worse]
        rcases ih with ⟨eq, above⟩ | ⟨a, below, least⟩
        · rw [eq] at worse
          refine .inl ⟨eq, fun c mem admitted => ?_⟩
          rcases List.mem_append.mp mem with old | new
          · exact above c old admitted
          · obtain rfl := List.mem_singleton.mp new
            exact worse admitted
        · exact .inr ⟨a, below, least.keep worse⟩

end LtcOs.Scan
