import Mathlib.Data.List.Dedup

/-! # Marking along edges, round by round

A set of marks spreads along the edges of a graph one hop a round, until a round
marks nothing or a guard on the number of rounds is met. What is marked in the
end is what a chain of at most as many edges reaches from the first marks
(`mem_saturate`): stopping early costs nothing, the guard costs the longer
chains.
-/

namespace GraphIngest.Foundation

/-- A chain of a given number of edges. -/
inductive Chain {α : Type*} (edge : α → α → Prop) : Nat → α → α → Prop
  | nil {first} : Chain edge 0 first first
  | cons {length first second last} (head : edge first second)
      (tail : Chain edge length second last) : Chain edge (length + 1) first last

namespace Chain

variable {α : Type*} {edge other : α → α → Prop}

/-- A chain goes on along one more edge. -/
theorem concat {length : Nat} {first middle last : α} (chain : Chain edge length first middle)
    (final : edge middle last) : Chain edge (length + 1) first last := by
  induction chain with
  | nil => exact .cons final .nil
  | cons head _ ih => exact .cons head (ih final)

/-- A chain goes on along another one. -/
theorem append {length further : Nat} {first middle last : α}
    (chain : Chain edge length first middle) (rest : Chain edge further middle last) :
    ∃ total, Chain edge total first last := by
  induction chain with
  | nil => exact ⟨further, rest⟩
  | cons head _ ih =>
      obtain ⟨total, joined⟩ := ih rest
      exact ⟨total + 1, .cons head joined⟩

/-- A chain read from its end. -/
theorem reverse {length : Nat} {first last : α}
    (chain : Chain (fun a b => edge b a) length first last) : Chain edge length last first := by
  induction chain with
  | nil => exact .nil
  | cons head _ ih => exact ih.concat head

/-- Chains run backwards are chains of the reversed edges. -/
theorem reverse_iff {length : Nat} {first last : α} :
    Chain (fun a b => edge b a) length first last ↔ Chain edge length last first :=
  ⟨reverse, fun chain => chain.reverse⟩

/-- A chain of fewer edges that are all of another kind. -/
theorem congr {length : Nat} {first last : α} (same : ∀ a b, edge a b ↔ other a b) :
    Chain edge length first last ↔ Chain other length first last := by
  have equal : edge = other := funext fun a => funext fun b => propext (same a b)
  rw [equal]

/-- What is closed under the edges holds along a chain. -/
theorem closed {holds : α → Prop} (step : ∀ a b, holds a → edge a b → holds b) {length : Nat}
    {first last : α} (chain : Chain edge length first last) (start : holds first) :
    holds last := by
  induction chain with
  | nil => exact start
  | cons head _ ih => exact ih (step _ _ start head)

end Chain

section Saturation

variable {α : Type*} [DecidableEq α] (edges : List (α × α))

/-- The ends one hop away from a marked beginning that are not marked yet. -/
def spread (marked : List α) : List α :=
  ((edges.filter fun edge => decide (edge.1 ∈ marked) && !decide (edge.2 ∈ marked)).map
    Prod.snd).dedup

/-- Spread the marks, at most as many rounds as the guard allows and no further
than the first round that marks nothing. -/
def saturate : Nat → List α → List α
  | 0, marked => marked
  | guard + 1, marked =>
      if (spread edges marked).isEmpty then marked
      else saturate guard (marked ++ spread edges marked)

variable {edges}

/-- One round marks the unmarked ends of edges with a marked beginning. -/
theorem mem_spread {marked : List α} {last : α} :
    last ∈ spread edges marked ↔ ∃ first ∈ marked, (first, last) ∈ edges ∧ last ∉ marked := by
  simp only [spread, List.mem_dedup, List.mem_map, List.mem_filter, Bool.and_eq_true,
    decide_eq_true_eq, Bool.not_eq_true', decide_eq_false_iff_not]
  constructor
  · rintro ⟨⟨first, last⟩, ⟨listed, marked, fresh⟩, rfl⟩
    exact ⟨first, marked, listed, fresh⟩
  · rintro ⟨first, marked, listed, fresh⟩
    exact ⟨(first, last), ⟨listed, marked, fresh⟩, rfl⟩

/-- Marks that a round does not extend are closed under the edges. -/
theorem closed_of_spread_isEmpty {marked : List α} (settled : (spread edges marked).isEmpty)
    (first last : α) (start : first ∈ marked) (edge : (first, last) ∈ edges) :
    last ∈ marked := by
  by_contra fresh
  have found : last ∈ spread edges marked := mem_spread.mpr ⟨first, start, edge, fresh⟩
  rw [List.isEmpty_iff.mp settled] at found
  exact List.not_mem_nil found

/-- **Saturation.** What is marked in the end is what a chain of at most as many
edges as the guard allows reaches from the first marks. -/
theorem mem_saturate {guard : Nat} {marked : List α} {last : α} :
    last ∈ saturate edges guard marked ↔
      ∃ first ∈ marked, ∃ length ≤ guard,
        Chain (fun a b => (a, b) ∈ edges) length first last := by
  induction guard generalizing marked with
  | zero =>
      constructor
      · exact fun present => ⟨last, present, 0, Nat.le_refl 0, .nil⟩
      · rintro ⟨first, present, length, within, chain⟩
        obtain rfl := Nat.le_zero.mp within
        cases chain
        exact present
  | succ guard ih =>
      unfold saturate
      split
      · next settled =>
          constructor
          · exact fun present => ⟨last, present, 0, Nat.zero_le _, .nil⟩
          · rintro ⟨first, present, length, _, chain⟩
            exact chain.closed (closed_of_spread_isEmpty settled) present
      · rw [ih]
        constructor
        · rintro ⟨first, present, length, within, chain⟩
          rcases List.mem_append.mp present with before | now
          · exact ⟨first, before, length, Nat.le_succ_of_le within, chain⟩
          · obtain ⟨earlier, before, edge, _⟩ := mem_spread.mp now
            exact ⟨earlier, before, length + 1, Nat.succ_le_succ within, .cons edge chain⟩
        · rintro ⟨first, present, length, within, chain⟩
          cases chain with
          | nil => exact ⟨last, List.mem_append_left _ present, 0, Nat.zero_le _, .nil⟩
          | @cons length _ second _ head tail =>
              refine ⟨second, ?_, length, Nat.le_of_succ_le_succ within, tail⟩
              by_cases before : second ∈ marked
              · exact List.mem_append_left _ before
              · exact List.mem_append_right _ (mem_spread.mpr ⟨first, present, head, before⟩)

end Saturation

end GraphIngest.Foundation
