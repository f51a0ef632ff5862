import Mathlib.Data.List.Basic
import Mathlib.Data.PNat.Defs

/-! # Splitting and rewriting sequences

Cutting a sequence at the last occurrence of a separator, rewriting every
non-overlapping occurrence of a pattern from left to right, and trimming both
ends. These are the operations a text-processing program performs on its
strings, stated over any alphabet with decidable equality. A sequence of
anything is cut into pieces of a size.
-/

namespace GraphIngest.Foundation

variable {α : Type*} [DecidableEq α]

/-- Cut a sequence at the last occurrence of a separator. -/
def rpartition (sep : α) : List α → Option (List α × List α)
  | [] => none
  | head :: rest =>
      match rpartition sep rest with
      | some (front, back) => some (head :: front, back)
      | none => if head = sep then some ([], rest) else none

/-- There is no cut exactly when the separator does not occur. -/
theorem rpartition_eq_none {sep : α} {word : List α} :
    rpartition sep word = none ↔ sep ∉ word := by
  induction word with
  | nil => simp only [rpartition, List.not_mem_nil, not_false_eq_true]
  | cons head rest ih =>
      cases tail : rpartition sep rest with
      | some cut =>
          have present : sep ∈ rest := by
            by_contra absent
            rw [ih.mpr absent] at tail
            cases tail
          simp only [rpartition, tail, reduceCtorEq, List.mem_cons, present, or_true, not_true]
      | none =>
          have absent := ih.mp tail
          by_cases same : head = sep
          · simp only [rpartition, tail, same, ↓reduceIte, reduceCtorEq, List.mem_cons, true_or,
              not_true]
          · simp only [rpartition, tail, same, ↓reduceIte, List.mem_cons, Ne.symm same, absent,
              or_self, not_false_eq_true]

/-- The cut returns the parts around the last separator. -/
theorem rpartition_eq_some {sep : α} {word front back : List α} :
    rpartition sep word = some (front, back) ↔ word = front ++ sep :: back ∧ sep ∉ back := by
  induction word generalizing front back with
  | nil =>
      simp only [rpartition, reduceCtorEq, List.nil_eq_append_iff, and_false, false_and]
  | cons head rest ih =>
      cases tail : rpartition sep rest with
      | some cut =>
          obtain ⟨inner, last⟩ := cut
          have split := ih.mp tail
          simp only [rpartition, tail, Option.some.injEq, Prod.mk.injEq]
          constructor
          · rintro ⟨rfl, rfl⟩
            exact ⟨by rw [split.1, List.cons_append], split.2⟩
          · rintro ⟨same, absent⟩
            cases front with
            | nil =>
                have restIs := (List.cons.inj same).2
                rw [← restIs, split.1] at absent
                exact (absent (List.mem_append_right _ List.mem_cons_self)).elim
            | cons first others =>
                obtain ⟨rfl, restIs⟩ := List.cons.inj same
                have found := tail.symm.trans (ih.mpr ⟨restIs, absent⟩)
                obtain ⟨rfl, rfl⟩ := Prod.mk.inj (Option.some.inj found)
                exact ⟨rfl, rfl⟩
      | none =>
          have absentRest := rpartition_eq_none.mp tail
          by_cases same : head = sep
          · simp only [rpartition, tail, same, ↓reduceIte, Option.some.injEq, Prod.mk.injEq]
            constructor
            · rintro ⟨rfl, rfl⟩
              exact ⟨rfl, absentRest⟩
            · rintro ⟨whole, absent⟩
              cases front with
              | nil => exact ⟨rfl, (List.cons.inj whole).2⟩
              | cons first others =>
                  rw [(List.cons.inj whole).2] at absentRest
                  exact (absentRest (List.mem_append_right _ List.mem_cons_self)).elim
          · simp only [rpartition, tail, same, ↓reduceIte, reduceCtorEq, false_iff, not_and]
            intro whole
            cases front with
            | nil => exact (same (List.cons.inj whole).1).elim
            | cons first others =>
                rw [(List.cons.inj whole).2] at absentRest
                exact (absentRest (List.mem_append_right _ List.mem_cons_self)).elim

omit [DecidableEq α] in
/-- The cut in front of the first separator is unique. -/
theorem append_cons_inj_left {sep : α} {front other back rest : List α} (absent : sep ∉ front)
    (missing : sep ∉ other) :
    front ++ sep :: back = other ++ sep :: rest ↔ front = other ∧ back = rest := by
  induction front generalizing other with
  | nil =>
      cases other with
      | nil => simp only [List.nil_append, List.cons.injEq, true_and]
      | cons head tail =>
          simp only [List.mem_cons, not_or] at missing
          simp only [List.nil_append, List.cons_append, List.cons.injEq, missing.1, false_and,
            List.nil_eq, reduceCtorEq]
  | cons head tail ih =>
      simp only [List.mem_cons, not_or] at absent
      cases other with
      | nil =>
          simp only [List.nil_append, List.cons_append, List.cons.injEq, Ne.symm absent.1,
            false_and, reduceCtorEq]
      | cons first others =>
          simp only [List.mem_cons, not_or] at missing
          simp only [List.cons_append, List.cons.injEq, ih absent.2 missing.2, and_assoc]

/-- The part after the last separator, the whole word when there is none. -/
def afterLast (sep : α) (word : List α) : List α :=
  match rpartition sep word with
  | some (_, back) => back
  | none => word

/-- The part before the last separator, the whole word when there is none. -/
def beforeLast (sep : α) (word : List α) : List α :=
  match rpartition sep word with
  | some (front, _) => front
  | none => word

/-- The letters of the last part are letters of the word. -/
theorem mem_of_mem_afterLast {sep letter : α} {word : List α}
    (member : letter ∈ afterLast sep word) : letter ∈ word := by
  unfold afterLast at member
  cases cut : rpartition sep word with
  | none => simpa only [cut] using member
  | some parts =>
      rw [(rpartition_eq_some.mp cut).1]
      simp only [cut] at member
      exact List.mem_append_right _ (List.mem_cons_of_mem _ member)

/-- Rewrite from left to right; `size` is the length of the match at the front of
a suffix, zero when there is none, and `skip` counts the letters still covered by
the last match. -/
def rewriteFrom (size : List α → Nat) (new : List α) : Nat → List α → List α
  | _, [] => []
  | skip + 1, _ :: rest => rewriteFrom size new skip rest
  | 0, head :: rest =>
      match size (head :: rest) with
      | 0 => head :: rewriteFrom size new 0 rest
      | matched + 1 => new ++ rewriteFrom size new matched rest

/-- Rewrite every non-overlapping occurrence of a nonempty pattern. -/
def replaceAll (old new word : List α) : List α :=
  rewriteFrom (fun suffix => if old.isPrefixOf suffix then old.length else 0) new 0 word

/-- The pieces between the separators, one more than there are separators. -/
def splitBy (sep : α) : List α → List (List α)
  | [] => [[]]
  | head :: rest =>
      if head = sep then [] :: splitBy sep rest
      else
        match splitBy sep rest with
        | [] => [[head]]
        | first :: others => (head :: first) :: others

def replaceLetter (old new : α) (word : List α) : List α :=
  word.map fun letter => if letter = old then new else letter

/-- Drop the letters satisfying a test from both ends. -/
def stripWhile (test : α → Bool) (word : List α) : List α :=
  (((word.dropWhile test).reverse).dropWhile test).reverse

theorem not_mem_replaceLetter {old new : α} (other : new ≠ old) (word : List α) :
    old ∉ replaceLetter old new word := by
  rw [replaceLetter, List.mem_map]
  intro made
  obtain ⟨letter, _, same⟩ := made
  split at same
  · exact other same
  · contradiction

/-- A letter that does not occur is not replaced. -/
theorem replaceLetter_of_not_mem {old new : α} {word : List α} (absent : old ∉ word) :
    replaceLetter old new word = word := by
  rw [replaceLetter]
  conv_rhs => rw [← List.map_id word]
  apply List.map_congr_left
  intro letter member
  have other : letter ≠ old := fun same => absent (same ▸ member)
  rw [if_neg other, id]

omit [DecidableEq α] in
theorem mem_of_mem_stripWhile {test : α → Bool} {word : List α} {letter : α}
    (member : letter ∈ stripWhile test word) : letter ∈ word := by
  have front := (List.dropWhile_sublist test).mem (List.mem_reverse.mp member)
  exact (List.dropWhile_sublist test).mem (List.mem_reverse.mp front)

section Chunks

variable {β : Type*}

/-- A sequence in pieces of a size, of which the last may be shorter. -/
def chunksOf (size : ℕ+) (items : List β) : List (List β) :=
  (List.range ((items.length + size - 1) / size)).map fun index =>
    (items.drop (index * size)).take size

theorem flatten_map_take_drop (size count : Nat) (items : List β) :
    ((List.range count).map fun index => (items.drop (index * size)).take size).flatten =
      items.take (count * size) := by
  induction count with
  | zero =>
      rw [Nat.zero_mul, List.take_zero]
      rfl
  | succ count ih =>
      rw [List.range_succ, List.map_append, List.flatten_append, ih, List.map_singleton,
        List.flatten_singleton, Nat.succ_mul, List.take_add]

/-- No piece is empty. -/
theorem ne_nil_of_mem_chunksOf {size : ℕ+} {items piece : List β}
    (listed : piece ∈ chunksOf size items) : piece ≠ [] := by
  obtain ⟨index, inside, rfl⟩ := List.mem_map.mp listed
  have positive := size.pos
  have before := Nat.mul_le_of_le_div size (index + 1) _ (List.mem_range.mp inside)
  rw [Nat.add_mul, Nat.one_mul] at before
  rw [← List.length_pos_iff, List.length_take, List.length_drop]
  omega

/-- The pieces make up the sequence. -/
theorem flatten_chunksOf (size : ℕ+) (items : List β) : (chunksOf size items).flatten = items := by
  unfold chunksOf
  rw [flatten_map_take_drop]
  apply List.take_of_length_le
  have positive := size.pos
  have division := Nat.div_add_mod (items.length + size - 1) size
  have remainder := Nat.mod_lt (items.length + size - 1) positive
  rw [Nat.mul_comm] at division
  omega

end Chunks

end GraphIngest.Foundation
