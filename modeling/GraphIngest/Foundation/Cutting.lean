import GraphIngest.Foundation.Sequence
import Mathlib.Data.List.DropRight
import Mathlib.Data.List.TakeWhile

/-! # Cutting sequences

What stands in front of the first occurrence of a separator, what stands behind the
last one, and what trimming leaves, for sequences put together from pieces.
-/

namespace GraphIngest.Foundation

variable {α : Type*} [DecidableEq α] {sep letter : α} {word front back : List α}

section Last

theorem afterLast_of_not_mem (absent : sep ∉ word) : afterLast sep word = word := by
  rw [afterLast, rpartition_eq_none.mpr absent]

theorem afterLast_append_cons (absent : sep ∉ back) :
    afterLast sep (front ++ sep :: back) = back := by
  rw [afterLast, rpartition_eq_some.mpr ⟨rfl, absent⟩]

/-- The last separator is one of the back, where the back has one. -/
theorem afterLast_append (present : sep ∈ back) :
    afterLast sep (front ++ back) = afterLast sep back := by
  cases cut : rpartition sep back with
  | none => exact (rpartition_eq_none.mp cut present).elim
  | some parts =>
      obtain ⟨inner, last⟩ := parts
      obtain ⟨rfl, absent⟩ := rpartition_eq_some.mp cut
      rw [← List.append_assoc, afterLast_append_cons absent, afterLast_append_cons absent]

/-- Another letter at the end is a letter of the last part. -/
theorem afterLast_concat (present : sep ∈ word) (other : letter ≠ sep) :
    afterLast sep (word ++ [letter]) = afterLast sep word ++ [letter] := by
  cases cut : rpartition sep word with
  | none => exact (rpartition_eq_none.mp cut present).elim
  | some parts =>
      obtain ⟨front, last⟩ := parts
      obtain ⟨rfl, absent⟩ := rpartition_eq_some.mp cut
      rw [List.append_assoc, List.cons_append, afterLast_append_cons absent]
      apply afterLast_append_cons
      rw [List.mem_append, List.mem_singleton]
      exact fun either => either.elim absent fun same => other same.symm

end Last

section First

theorem takeWhile_of_not_mem (absent : sep ∉ word) :
    (word.takeWhile fun other => other != sep) = word := by
  refine List.takeWhile_eq_self_iff.mpr fun other member => ?_
  exact bne_iff_ne.mpr fun same => absent (same ▸ member)

theorem takeWhile_append_cons (absent : sep ∉ front) :
    ((front ++ sep :: back).takeWhile fun other => other != sep) = front := by
  have whole : ∀ other ∈ front, (other != sep) = true := by
    intro other member
    exact bne_iff_ne.mpr fun same => absent (same ▸ member)
  rw [List.takeWhile_append_of_pos whole, List.takeWhile_cons, bne_self_eq_false,
    if_neg Bool.false_ne_true, List.append_nil]

/-- What comes behind a separator does not count. -/
theorem takeWhile_append_of_mem (present : sep ∈ front) :
    ((front ++ back).takeWhile fun other => other != sep) =
      front.takeWhile fun other => other != sep := by
  obtain ⟨before, after, rfl, absent⟩ := List.eq_append_cons_of_mem present
  rw [List.append_assoc, List.cons_append, takeWhile_append_cons absent,
    takeWhile_append_cons absent]

/-- A word without a letter is at the front of a text exactly if it is in front of the letter. -/
theorem isPrefixOf_append_cons (absent : sep ∉ word) :
    word.isPrefixOf (front ++ sep :: back) = word.isPrefixOf front := by
  induction word generalizing front with
  | nil => simp only [List.isPrefixOf_nil_left]
  | cons first rest ih =>
      obtain ⟨other, later⟩ := not_or.mp (List.mem_cons.not.mp absent)
      cases front with
      | nil =>
          rw [List.nil_append, List.isPrefixOf_cons_cons, List.isPrefixOf_cons_nil,
            beq_eq_false_iff_ne.mpr (Ne.symm other), Bool.false_and]
      | cons letter front =>
          rw [List.cons_append, List.isPrefixOf_cons_cons, List.isPrefixOf_cons_cons, ih later]

end First

section Trimming

variable {test : α → Bool}

omit [DecidableEq α] in
/-- A word without letters to trim is left as it is. -/
theorem stripWhile_of_forall (plain : ∀ letter ∈ word, test letter = false) :
    stripWhile test word = word := by
  have kept : ∀ word : List α, (∀ letter ∈ word, test letter = false) →
      word.dropWhile test = word := by
    intro word plain
    cases word with
    | nil => rfl
    | cons first rest => rw [List.dropWhile_cons, plain first List.mem_cons_self]; rfl
  rw [stripWhile, kept word plain, kept, List.reverse_reverse]
  exact fun letter member => plain letter (List.mem_reverse.mp member)

omit [DecidableEq α] in
/-- A letter that is not trimmed stays. -/
theorem mem_stripWhile (member : letter ∈ word) (plain : test letter = false) :
    letter ∈ stripWhile test word := by
  have kept : ∀ word : List α, letter ∈ word → letter ∈ word.dropWhile test := by
    intro word member
    rw [← List.takeWhile_append_dropWhile (p := test) (l := word), List.mem_append] at member
    refine member.resolve_left fun taken => ?_
    rw [List.mem_takeWhile_imp taken] at plain
    exact Bool.noConfusion plain
  exact List.mem_reverse.mpr (kept _ (List.mem_reverse.mpr (kept word member)))

omit [DecidableEq α] in
/-- What is trimmed are letters for trimming, at both ends. -/
theorem exists_stripWhile_eq (test : α → Bool) (word : List α) :
    ∃ front back, word = front ++ stripWhile test word ++ back ∧
      (∀ letter ∈ front, test letter = true) ∧ ∀ letter ∈ back, test letter = true := by
  have ends := List.takeWhile_append_dropWhile (p := test) (l := word)
  have turned := List.takeWhile_append_dropWhile (p := test) (l := (word.dropWhile test).reverse)
  refine ⟨word.takeWhile test, ((word.dropWhile test).reverse.takeWhile test).reverse, ?_, ?_, ?_⟩
  · conv_lhs => rw [← ends, ← List.reverse_reverse (word.dropWhile test), ← turned]
    rw [List.reverse_append, stripWhile, List.append_assoc]
  · exact fun letter member => List.mem_takeWhile_imp member
  · exact fun letter member => List.mem_takeWhile_imp (List.mem_reverse.mp member)

omit [DecidableEq α] in
/-- A word between letters that are not trimmed is what trimming leaves of it. -/
theorem stripWhile_append (front : List α) {back : List α} {first last : α} (inner : List α)
    (before : ∀ letter ∈ front, test letter = true) (behind : ∀ letter ∈ back, test letter = true)
    (starts : test first = false) (ends : test last = false) :
    stripWhile test (front ++ (first :: inner ++ last :: back)) = first :: inner ++ [last] := by
  have turned : ∀ letter ∈ back.reverse, test letter = true := fun letter member =>
    behind letter (List.mem_reverse.mp member)
  rw [stripWhile, List.dropWhile_append_of_pos before, List.cons_append, List.dropWhile_cons,
    starts]
  simp only [Bool.false_eq_true, ↓reduceIte, List.reverse_cons, List.reverse_append,
    List.append_assoc, List.singleton_append]
  rw [List.dropWhile_append_of_pos turned, List.cons_append, List.dropWhile_cons, ends]
  simp only [Bool.false_eq_true, ↓reduceIte, List.reverse_cons, List.reverse_append,
    List.reverse_reverse, List.reverse_nil, List.nil_append, List.cons_append]

omit [DecidableEq α] in
/-- What has been trimmed is left as it is. -/
theorem stripWhile_stripWhile (test : α → Bool) (word : List α) :
    stripWhile test (stripWhile test word) = stripWhile test word := by
  have front : (stripWhile test word).dropWhile test = stripWhile test word := by
    have part : stripWhile test word <+: word.dropWhile test := by
      rw [← List.reverse_suffix, stripWhile, List.reverse_reverse]
      exact List.dropWhile_suffix test
    cases left : stripWhile test word with
    | nil => rfl
    | cons letter rest =>
        rw [left] at part
        obtain ⟨back, whole⟩ := part
        have again := List.dropWhile_idempotent test word
        rw [← whole, List.cons_append, List.dropWhile_cons] at again
        split at again
        · have shorter := (List.dropWhile_sublist (l := rest ++ back) test).length_le
          rw [again, List.length_cons] at shorter
          omega
        · next plain => rw [List.dropWhile_cons, if_neg plain]
  rw [stripWhile, front, stripWhile, List.reverse_reverse, List.dropWhile_idempotent]

end Trimming

section Replacing

/-- A word without the first letter of a pattern has nothing to replace. -/
theorem replaceAll_of_not_mem {first : α} {rest new : List α} (absent : first ∉ word) :
    replaceAll (first :: rest) new word = word := by
  induction word with
  | nil => rfl
  | cons letter later ih =>
      obtain ⟨other, behind⟩ := not_or.mp (List.mem_cons.not.mp absent)
      have unmatched : (first :: rest).isPrefixOf (letter :: later) = false := by
        rw [List.isPrefixOf_cons_cons, beq_eq_false_iff_ne.mpr other, Bool.false_and]
      have tail := ih behind
      rw [replaceAll] at tail ⊢
      simp only [rewriteFrom, unmatched, Bool.false_eq_true, ↓reduceIte]
      rw [tail]

end Replacing

end GraphIngest.Foundation
