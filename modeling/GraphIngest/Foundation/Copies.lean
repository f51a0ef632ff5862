import Mathlib.Data.List.Flatten
import Mathlib.Data.List.Nodup
import Mathlib.Data.List.Count

/-! # Lists with copies

A list with further copies of its own items, anywhere. It has the same items, and what is
read off its items is again read off with copies. Nothing is read twice if and only if
nothing was and no item that anything is read off was copied.
-/

namespace GraphIngest.Foundation

variable {α β : Type*}

/-- The second list is the first with further copies of its items. -/
structure Copies (items more : List α) : Prop where
  kept : List.Sublist items more
  known : more ⊆ items

namespace Copies

variable {items more : List α}

theorem mem_iff (copies : Copies items more) (item : α) : item ∈ items ↔ item ∈ more :=
  ⟨fun listed => copies.kept.subset listed, fun listed => copies.known listed⟩

theorem flatMap (copies : Copies items more) (read : α → List β) :
    Copies (items.flatMap read) (more.flatMap read) where
  kept := copies.kept.flatMap read
  known := by
    intro value listed
    obtain ⟨item, placed, own⟩ := List.mem_flatMap.mp listed
    exact List.mem_flatMap.mpr ⟨item, copies.known placed, own⟩

/-- Items that nothing is read off do not count. -/
theorem flatMap_filter_isEmpty (read : α → List β) (items : List α) :
    (items.filter fun item => !(read item).isEmpty).flatMap read = items.flatMap read := by
  induction items with
  | nil => rfl
  | cons item rest ih =>
      cases empty : read item with
      | nil => simp only [List.filter_cons, empty, List.isEmpty_nil, Bool.not_true,
          Bool.false_eq_true, ↓reduceIte, ih, List.flatMap_cons, List.nil_append]
      | cons first others => simp only [List.filter_cons, empty, List.isEmpty_cons,
          Bool.not_false, ↓reduceIte, ih, List.flatMap_cons]

variable [DecidableEq α]

/-- What is read off the items of a list without repetition is read off a single one of each. -/
theorem count_le_one_of_nodup_flatMap {read : α → List β} (apart : (more.flatMap read).Nodup)
    {item : α} (bears : read item ≠ []) : more.count item ≤ 1 := by
  by_contra many
  have twice : List.Sublist (List.replicate 2 item) more :=
    List.replicate_sublist_iff.mpr (by omega)
  have repeated := (twice.flatMap read).nodup apart
  rw [List.replicate_succ, List.flatMap_cons, List.replicate_one, List.flatMap_singleton]
    at repeated
  obtain ⟨first, listed⟩ := List.exists_mem_of_ne_nil _ bears
  exact (List.nodup_append.mp repeated).2.2 first listed first listed rfl

/-- **Copies.** Nothing is read twice if and only if nothing was before and the items that
anything is read off were not copied. -/
theorem nodup_flatMap_iff (copies : Copies items more) (read : α → List β) :
    (more.flatMap read).Nodup ↔ (items.flatMap read).Nodup ∧
      ∀ item ∈ items, read item ≠ [] → more.count item = items.count item := by
  constructor
  · intro apart
    refine ⟨(copies.kept.flatMap read).nodup apart, fun item listed bears => ?_⟩
    have single := count_le_one_of_nodup_flatMap apart bears
    have present := List.count_pos_iff.mpr listed
    have fewer := copies.kept.count_le item
    omega
  · intro before
    have perm : (more.filter fun item => !(read item).isEmpty).Perm
        (items.filter fun item => !(read item).isEmpty) := by
      refine List.perm_iff_count.mpr fun item => ?_
      by_cases listed : item ∈ items
      · by_cases bears : read item = []
        · rw [List.count_eq_zero_of_not_mem, List.count_eq_zero_of_not_mem]
          · simp only [List.mem_filter, bears, List.isEmpty_nil, Bool.not_true,
              Bool.false_eq_true, and_false, not_false_eq_true]
          · simp only [List.mem_filter, bears, List.isEmpty_nil, Bool.not_true,
              Bool.false_eq_true, and_false, not_false_eq_true]
        · have full : (!(read item).isEmpty) = true := by
            rw [Bool.not_eq_true', List.isEmpty_eq_false_iff]
            exact bears
          have kept : ∀ list : List α,
              (list.filter fun item => !(read item).isEmpty).count item = list.count item :=
            fun list => List.count_filter full
          rw [kept, kept, before.2 item listed bears]
      · have gone := mt (copies.mem_iff item).mpr listed
        rw [List.count_eq_zero_of_not_mem fun held => gone (List.mem_of_mem_filter held),
          List.count_eq_zero_of_not_mem fun held => listed (List.mem_of_mem_filter held)]
    rw [← flatMap_filter_isEmpty, (perm.flatMap_right read).nodup_iff, flatMap_filter_isEmpty]
    exact before.1

end Copies

end GraphIngest.Foundation
