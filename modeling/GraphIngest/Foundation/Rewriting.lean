import GraphIngest.Foundation.Joining
import Mathlib.Data.List.DropRight
import Mathlib.Data.List.Infix

/-! # Rewriting matches

Rewriting replaces the matches found from left to right. A text without a match is
left as it is. Where no match reaches across a separator, the parts between the
separators are rewritten one by one. Rewriting to a mark keeps the other letters in
their order.
-/

namespace GraphIngest.Foundation

variable {α : Type*} [DecidableEq α] {sep mark : α} {size : List α → Nat} {new : List α}

omit [DecidableEq α] in
/-- The letters covered by the last match are passed over. -/
theorem rewriteFrom_drop (size : List α → Nat) (new : List α) (skip : Nat) (word : List α) :
    rewriteFrom size new skip word = rewriteFrom size new 0 (word.drop skip) := by
  induction skip generalizing word with
  | zero => rfl
  | succ skip ih =>
      cases word with
      | nil => rw [rewriteFrom, List.drop_nil, rewriteFrom]
      | cons head rest => rw [rewriteFrom, ih, List.drop_succ_cons]

omit [DecidableEq α] in
/-- A letter at which nothing matches stays. -/
theorem rewriteFrom_cons_of_zero {head : α} {rest : List α} (none : size (head :: rest) = 0) :
    rewriteFrom size new 0 (head :: rest) = head :: rewriteFrom size new 0 rest := by
  rw [rewriteFrom, none]

omit [DecidableEq α] in
/-- A match is replaced, and rewriting goes on behind it. -/
theorem rewriteFrom_cons_of_pos {head : α} {rest : List α} {matched : Nat}
    (found : size (head :: rest) = matched + 1) :
    rewriteFrom size new 0 (head :: rest) = new ++ rewriteFrom size new 0 (rest.drop matched) := by
  rw [rewriteFrom, found]
  exact congrArg (new ++ ·) (rewriteFrom_drop size new matched rest)

omit [DecidableEq α] in
theorem rewriteFrom_eq_self {word : List α} (none : ∀ suffix, suffix <:+ word → size suffix = 0) :
    rewriteFrom size new 0 word = word := by
  induction word with
  | nil => rfl
  | cons head rest ih =>
      rw [rewriteFrom_cons_of_zero (none _ (List.suffix_refl _)),
        ih fun suffix inside => none suffix (inside.trans (List.suffix_cons head rest))]

/-- No match reaches across a separator, and what stands behind one does not count. -/
structure WithinParts (sep : α) (size : List α → Nat) : Prop where
  border : ∀ rest, size (sep :: rest) = 0
  part : ∀ part rest, sep ∉ part → part ≠ [] → size (part ++ sep :: rest) = size part
  bounded : ∀ word, size word ≤ word.length

omit [DecidableEq α] in
theorem WithinParts.rewriteFrom_append (within : WithinParts sep size) {part : List α}
    (absent : sep ∉ part) (rest : List α) :
    rewriteFrom size new 0 (part ++ sep :: rest) =
      rewriteFrom size new 0 part ++ sep :: rewriteFrom size new 0 rest := by
  induction length : part.length using Nat.strong_induction_on generalizing part with
  | _ count ih =>
      cases part with
      | nil =>
          rw [List.nil_append, rewriteFrom_cons_of_zero (within.border rest)]
          rfl
      | cons head part =>
          have same := within.part (head :: part) rest absent (List.cons_ne_nil head part)
          rw [List.length_cons] at length
          cases found : size (head :: part) with
          | zero =>
              rw [found, List.cons_append] at same
              rw [rewriteFrom_cons_of_zero found, List.cons_append, List.cons_append,
                rewriteFrom_cons_of_zero same]
              have behind : sep ∉ part := fun inside => absent (List.mem_cons_of_mem _ inside)
              rw [ih part.length (by omega) behind rfl]
          | succ matched =>
              have fits := within.bounded (head :: part)
              rw [found, List.cons_append] at same
              rw [found, List.length_cons] at fits
              rw [rewriteFrom_cons_of_pos found, List.cons_append, rewriteFrom_cons_of_pos same,
                List.drop_append_of_le_length (by omega), List.append_assoc]
              have behind : sep ∉ part.drop matched := fun inside =>
                absent (List.mem_cons_of_mem _ (List.mem_of_mem_drop inside))
              rw [ih (part.drop matched).length (by rw [List.length_drop]; omega) behind rfl]

/-- What stands on the two sides of a separator is rewritten apart. -/
theorem WithinParts.rewriteFrom_append_cons (within : WithinParts sep size) (front rest : List α) :
    rewriteFrom size new 0 (front ++ sep :: rest) =
      rewriteFrom size new 0 front ++ sep :: rewriteFrom size new 0 rest := by
  induction length : front.length using Nat.strong_induction_on generalizing front with
  | _ count ih =>
      by_cases inside : sep ∈ front
      · obtain ⟨part, behind, rfl, absent⟩ := List.eq_append_cons_of_mem inside
        rw [List.length_append, List.length_cons] at length
        rw [List.append_assoc, List.cons_append, within.rewriteFrom_append absent,
          within.rewriteFrom_append absent, ih behind.length (by omega) behind rfl,
          List.append_assoc, List.cons_append]
      · exact within.rewriteFrom_append inside rest

omit [DecidableEq α] in
/-- The parts between separators are rewritten one by one. -/
theorem WithinParts.rewriteFrom_intercalate (within : WithinParts sep size)
    {parts : List (List α)} (absent : ∀ part ∈ parts, sep ∉ part) :
    rewriteFrom size new 0 ([sep].intercalate parts) =
      [sep].intercalate (parts.map (rewriteFrom size new 0)) := by
  induction parts with
  | nil => rfl
  | cons part rest ih =>
      obtain ⟨own, others⟩ := List.forall_mem_cons.mp absent
      by_cases last : rest = []
      · subst last
        rw [List.map_singleton, intercalate_singleton, intercalate_singleton]
      · have lastMapped : rest.map (rewriteFrom size new 0) ≠ [] := fun none =>
          last (List.map_eq_nil_iff.mp none)
        rw [intercalate_cons part last, within.rewriteFrom_append own, ih others, List.map_cons,
          intercalate_cons _ lastMapped]

omit [DecidableEq α] in
/-- No other letters come in than those of the replacement. -/
theorem mem_of_mem_rewriteFrom {letter : α} {word : List α}
    (inside : letter ∈ rewriteFrom size new 0 word) : letter ∈ new ∨ letter ∈ word := by
  induction length : word.length using Nat.strong_induction_on generalizing word with
  | _ count ih =>
      cases word with
      | nil => exact .inr inside
      | cons head rest =>
          rw [List.length_cons] at length
          cases found : size (head :: rest) with
          | zero =>
              rw [rewriteFrom_cons_of_zero found, List.mem_cons] at inside
              rcases inside with rfl | behind
              · exact .inr List.mem_cons_self
              · exact (ih rest.length (by omega) behind rfl).imp_right (List.mem_cons_of_mem head)
          | succ matched =>
              rw [rewriteFrom_cons_of_pos found, List.mem_append] at inside
              rcases inside with added | behind
              · exact .inl added
              · have shorter : (rest.drop matched).length < count := by
                  rw [List.length_drop]
                  omega
                exact (ih _ shorter behind rfl).imp_right fun kept =>
                  List.mem_cons_of_mem head (List.mem_of_mem_drop kept)

/-- Other letters than the mark keep their order. -/
theorem filter_rewriteFrom_sublist (size : List α → Nat) (mark : α) (word : List α) :
    ((rewriteFrom size [mark] 0 word).filter (· ≠ mark)).Sublist word := by
  induction length : word.length using Nat.strong_induction_on generalizing word with
  | _ count ih =>
      cases word with
      | nil => exact List.Sublist.slnil
      | cons head rest =>
          rw [List.length_cons] at length
          cases found : size (head :: rest) with
          | zero =>
              rw [rewriteFrom_cons_of_zero found, List.filter_cons]
              have behind := ih rest.length (by omega) rest rfl
              split
              · exact behind.cons_cons head
              · exact behind.cons head
          | succ matched =>
              have shorter : (rest.drop matched).length < count := by
                rw [List.length_drop]
                omega
              rw [rewriteFrom_cons_of_pos found, List.singleton_append, List.filter_cons_of_neg
                (by rw [decide_eq_true_eq, not_not])]
              exact ((ih _ shorter _ rfl).trans (List.drop_sublist matched rest)).cons head

/-- Other letters than the mark that stand in the rewritten text in some order stood so
before. -/
theorem sublist_of_sublist_rewriteFrom {letters word : List α}
    (others : ∀ letter ∈ letters, letter ≠ mark)
    (inside : letters.Sublist (rewriteFrom size [mark] 0 word)) : letters.Sublist word := by
  have kept := inside.filter (· ≠ mark)
  rw [List.filter_eq_self.mpr fun letter listed => decide_eq_true (others letter listed)] at kept
  exact kept.trans (filter_rewriteFrom_sublist size mark word)

omit [DecidableEq α] in
/-- The last letter stays, or the mark is the last. -/
theorem getLast?_rewriteFrom (size : List α → Nat) (mark : α) (word : List α) :
    (rewriteFrom size [mark] 0 word).getLast? = word.getLast? ∨
      (rewriteFrom size [mark] 0 word).getLast? = some mark := by
  induction length : word.length using Nat.strong_induction_on generalizing word with
  | _ count ih =>
      cases word with
      | nil => exact .inl rfl
      | cons head rest =>
          rw [List.length_cons] at length
          cases found : size (head :: rest) with
          | zero =>
              rw [rewriteFrom_cons_of_zero found, List.getLast?_cons, List.getLast?_cons]
              rcases ih rest.length (by omega) rest rfl with same | marked
              · exact .inl (by rw [same])
              · exact .inr (by rw [marked, Option.getD_some])
          | succ matched =>
              rw [rewriteFrom_cons_of_pos found, List.singleton_append, List.getLast?_cons,
                List.getLast?_cons]
              have shorter : (rest.drop matched).length < count := by
                rw [List.length_drop]
                omega
              rcases ih _ shorter _ rfl with same | marked
              · rw [same, List.getLast?_drop]
                split
                · exact .inr rfl
                · next within =>
                    refine .inl (congrArg some ?_)
                    cases last : rest.getLast? with
                    | none =>
                        rw [List.getLast?_eq_none_iff.mp last] at within
                        exact absurd (Nat.zero_le matched) within
                    | some letter => rfl
              · exact .inr (by rw [marked, Option.getD_some])

omit [DecidableEq α] in
/-- The last letter stays where no match reaches the end. -/
theorem getLast?_rewriteFrom_of_lt {word : List α}
    (short : ∀ suffix, suffix <:+ word → suffix ≠ [] → size suffix < suffix.length) :
    (rewriteFrom size new 0 word).getLast? = word.getLast? := by
  induction length : word.length using Nat.strong_induction_on generalizing word with
  | _ count ih =>
      cases word with
      | nil => rfl
      | cons head rest =>
          rw [List.length_cons] at length
          cases found : size (head :: rest) with
          | zero =>
              rw [rewriteFrom_cons_of_zero found, List.getLast?_cons, List.getLast?_cons,
                ih rest.length (by omega) (fun suffix inside =>
                  short suffix (inside.trans (List.suffix_cons head rest))) rfl]
          | succ matched =>
              have fits := short (head :: rest) List.suffix_rfl (List.cons_ne_nil head rest)
              rw [found, List.length_cons] at fits
              have shorter : (rest.drop matched).length < count := by
                rw [List.length_drop]
                omega
              have within := (List.drop_suffix matched rest).trans (List.suffix_cons head rest)
              rw [rewriteFrom_cons_of_pos found, List.getLast?_append, ih _ shorter
                (fun suffix inside => short suffix (inside.trans within)) rfl, List.getLast?_drop,
                if_neg (by omega), List.getLast?_cons]
              cases last : rest.getLast? with
              | none =>
                  rw [List.getLast?_eq_none_iff.mp last, List.length_nil] at fits
                  omega
              | some letter => rfl

/-- Separators at the end may be dropped before or behind rewriting. -/
theorem WithinParts.rdropWhile_rewriteFrom (within : WithinParts sep size) (other : mark ≠ sep)
    (word : List α) :
    (rewriteFrom size [mark] 0 word).rdropWhile (· == sep) =
      rewriteFrom size [mark] 0 (word.rdropWhile (· == sep)) := by
  induction word using List.reverseRecOn with
  | nil => rfl
  | append_singleton front letter ih =>
      by_cases same : letter = sep
      · subst same
        rw [List.rdropWhile_concat_pos (· == letter) front letter (beq_self_eq_true letter), ← ih,
          within.rewriteFrom_append_cons]
        exact List.rdropWhile_concat_pos (· == letter) _ letter (beq_self_eq_true letter)
      · rw [List.rdropWhile_concat_neg _ _ _ (by rwa [beq_iff_eq]), List.rdropWhile_eq_self_iff]
        intro filled ends
        rw [beq_iff_eq] at ends
        have last := List.getLast?_eq_some_getLast filled
        rw [ends] at last
        rcases getLast?_rewriteFrom size mark (front ++ [letter]) with kept | marked
        · rw [last, List.getLast?_concat] at kept
          exact same (Option.some.inj kept).symm
        · rw [last] at marked
          exact other (Option.some.inj marked).symm

end GraphIngest.Foundation
