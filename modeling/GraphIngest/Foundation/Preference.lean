import Mathlib.Data.List.Basic

/-! # Preference by rules

Rules in an order narrow a list of items: the items that meet the first rule any
item meets are preferred, all of them when none meets any. The rank of an item is
the place of the first rule it meets, and the preferred items are those of the
lowest rank.
-/

namespace GraphIngest.Foundation

variable {α : Type*}

/-- The place of the first rule an item meets, their number when it meets none. -/
def rank (rules : List (α → Bool)) (item : α) : Nat := rules.findIdx fun rule => rule item

/-- The items that meet the first rule any of them meets. -/
def preferred : List (α → Bool) → List α → List α
  | [], items => items
  | rule :: rest, items =>
      if (items.filter rule).isEmpty then preferred rest items else items.filter rule

theorem rank_cons (rule : α → Bool) (rest : List (α → Bool)) (item : α) :
    rank (rule :: rest) item = if rule item then 0 else rank rest item + 1 := by
  rw [rank, List.findIdx_cons, rank]
  cases rule item <;> rfl

/-- The rank of an item that meets the first rule. -/
theorem rank_eq_zero {rule : α → Bool} {rest : List (α → Bool)} {item : α}
    (meets : rule item = true) : rank (rule :: rest) item = 0 := by
  rw [rank_cons, if_pos meets]

/-- **Preference.** The preferred items are those of the lowest rank. -/
theorem mem_preferred {rules : List (α → Bool)} {items : List α} {item : α} :
    item ∈ preferred rules items ↔
      item ∈ items ∧ ∀ other ∈ items, rank rules item ≤ rank rules other := by
  induction rules with
  | nil => exact ⟨fun listed => ⟨listed, fun _ _ => Nat.le_refl 0⟩, And.left⟩
  | cons rule rest ih =>
      rw [preferred]
      by_cases empty : (items.filter rule).isEmpty = true
      · have misses : ∀ other ∈ items, rule other = false := by
          rw [List.isEmpty_iff, List.filter_eq_nil_iff] at empty
          exact fun other listed => Bool.not_eq_true _ ▸ empty other listed
        rw [if_pos empty, ih]
        refine and_congr_right fun listed => forall₂_congr fun other present => ?_
        rw [rank_cons, rank_cons, misses item listed, misses other present]
        exact Nat.succ_le_succ_iff.symm
      · obtain ⟨first, found⟩ := List.exists_mem_of_ne_nil _ fun none =>
          empty (List.isEmpty_iff.mpr none)
        obtain ⟨among, meets⟩ := List.mem_filter.mp found
        rw [if_neg empty, List.mem_filter]
        refine and_congr_right fun _ => ⟨fun own other _ => ?_, fun lowest => ?_⟩
        · rw [rank_eq_zero own]
          exact Nat.zero_le _
        · have low := lowest first among
          rw [rank_eq_zero meets, rank_cons] at low
          by_contra misses
          rw [if_neg misses] at low
          omega

end GraphIngest.Foundation
