import GraphIngest.Foundation.Sequence

/-! # Joining at a separator

Joining undoes splitting. Splitting what was joined cuts the pieces further, at
the separators they contain themselves.
-/

namespace GraphIngest.Foundation

variable {α : Type*} [DecidableEq α] {sep : α}

theorem splitBy_ne_nil (word : List α) : splitBy sep word ≠ [] := by
  cases word with
  | nil => exact List.cons_ne_nil _ _
  | cons head rest =>
      rw [splitBy]
      split
      · exact List.cons_ne_nil _ _
      · split <;> exact List.cons_ne_nil _ _

theorem splitBy_cons_of_ne {head : α} (other : head ≠ sep) (rest : List α) :
    ∃ first others, splitBy sep rest = first :: others ∧
      splitBy sep (head :: rest) = (head :: first) :: others := by
  cases pieces : splitBy sep rest with
  | nil => exact (splitBy_ne_nil rest pieces).elim
  | cons first others =>
      refine ⟨first, others, rfl, ?_⟩
      rw [splitBy, if_neg other, pieces]

theorem splitBy_cons_self (rest : List α) : splitBy sep (sep :: rest) = [] :: splitBy sep rest := by
  rw [splitBy, if_pos rfl]

/-- A separator between two words splits them. -/
theorem splitBy_append (front rest : List α) :
    splitBy sep (front ++ sep :: rest) = splitBy sep front ++ splitBy sep rest := by
  induction front with
  | nil => exact splitBy_cons_self rest
  | cons head tail ih =>
      by_cases same : head = sep
      · subst same
        rw [List.cons_append, splitBy_cons_self, ih, splitBy_cons_self, List.cons_append]
      · obtain ⟨first, others, pieces, split⟩ := splitBy_cons_of_ne same tail
        obtain ⟨begin, more, whole, joined⟩ := splitBy_cons_of_ne same (tail ++ sep :: rest)
        rw [ih, pieces, List.cons_append, List.cons.injEq] at whole
        rw [List.cons_append, joined, split, List.cons_append, whole.1, whole.2]

/-- A word has one piece more than separators. -/
theorem length_splitBy (word : List α) : (splitBy sep word).length = word.count sep + 1 := by
  induction word with
  | nil => rfl
  | cons head rest ih =>
      by_cases same : head = sep
      · subst same
        rw [splitBy_cons_self, List.length_cons, ih, List.count_cons_self]
      · obtain ⟨first, others, pieces, split⟩ := splitBy_cons_of_ne same rest
        rw [split, List.length_cons, List.count_cons_of_ne same, ← ih, pieces, List.length_cons]

/-- A word without separators is one piece. -/
theorem splitBy_of_not_mem {word : List α} (absent : sep ∉ word) : splitBy sep word = [word] := by
  induction word with
  | nil => rfl
  | cons head rest ih =>
      rw [List.mem_cons, not_or] at absent
      rw [splitBy, if_neg (Ne.symm absent.1), ih absent.2]

omit [DecidableEq α] in
theorem intercalate_cons (piece : List α) {pieces : List (List α)} (some : pieces ≠ []) :
    [sep].intercalate (piece :: pieces) = piece ++ sep :: [sep].intercalate pieces := by
  cases pieces with
  | nil => exact (some rfl).elim
  | cons next rest => rfl

omit [DecidableEq α] in
theorem intercalate_singleton (piece : List α) : [sep].intercalate [piece] = piece :=
  List.append_nil piece

/-- Joining undoes splitting. -/
theorem intercalate_splitBy (word : List α) : [sep].intercalate (splitBy sep word) = word := by
  induction word with
  | nil => rfl
  | cons head rest ih =>
      by_cases same : head = sep
      · subst same
        rw [splitBy_cons_self, intercalate_cons [] (splitBy_ne_nil rest), ih, List.nil_append]
      · obtain ⟨first, others, pieces, split⟩ := splitBy_cons_of_ne same rest
        rw [pieces] at ih
        rw [split]
        cases others with
        | nil =>
            rw [intercalate_singleton] at ih ⊢
            rw [ih]
        | cons next more =>
            rw [intercalate_cons _ (List.cons_ne_nil _ _)] at ih ⊢
            rw [List.cons_append, ih]

/-- Splitting what is joined splits the pieces. -/
theorem splitBy_intercalate {pieces : List (List α)} (some : pieces ≠ []) :
    splitBy sep ([sep].intercalate pieces) = pieces.flatMap (splitBy sep) := by
  induction pieces with
  | nil => exact (some rfl).elim
  | cons piece rest ih =>
      by_cases last : rest = []
      · subst last
        rw [intercalate_singleton, List.flatMap_cons, List.flatMap_nil, List.append_nil]
      · rw [intercalate_cons piece last, splitBy_append, ih last, List.flatMap_cons]

omit [DecidableEq α] in
theorem intercalate_ne_nil {pieces : List (List α)} (some : pieces ≠ [])
    (filled : ∀ piece ∈ pieces, piece ≠ []) : [sep].intercalate pieces ≠ [] := by
  cases pieces with
  | nil => exact (some rfl).elim
  | cons piece rest =>
      have first := filled piece List.mem_cons_self
      by_cases last : rest = []
      · subst last
        rw [intercalate_singleton]
        exact first
      · rw [intercalate_cons piece last]
        exact List.append_ne_nil_of_left_ne_nil first _

/-- No piece has a separator. -/
theorem not_mem_of_mem_splitBy {word piece : List α} (listed : piece ∈ splitBy sep word) :
    sep ∉ piece := by
  induction word generalizing piece with
  | nil =>
      rw [List.mem_singleton.mp listed]
      exact List.not_mem_nil
  | cons head rest ih =>
      by_cases same : head = sep
      · subst same
        rw [splitBy_cons_self] at listed
        cases List.mem_cons.mp listed with
        | inl empty => rw [empty]; exact List.not_mem_nil
        | inr later => exact ih later
      · obtain ⟨first, others, pieces, split⟩ := splitBy_cons_of_ne same rest
        rw [pieces] at ih
        rw [split] at listed
        cases List.mem_cons.mp listed with
        | inl begin =>
            rw [begin, List.mem_cons, not_or]
            exact ⟨Ne.symm same, ih List.mem_cons_self⟩
        | inr later => exact ih (List.mem_cons_of_mem _ later)

/-- Cutting pieces further before they are joined changes nothing. -/
theorem intercalate_flatMap_splitBy (pieces : List (List α)) :
    [sep].intercalate (pieces.flatMap (splitBy sep)) = [sep].intercalate pieces := by
  cases pieces with
  | nil => rfl
  | cons piece rest =>
      rw [← splitBy_intercalate (List.cons_ne_nil piece rest), intercalate_splitBy]

/-- Pieces without separators are not split. -/
theorem flatMap_splitBy_of_free {pieces : List (List α)} (free : ∀ piece ∈ pieces, sep ∉ piece) :
    pieces.flatMap (splitBy sep) = pieces := by
  induction pieces with
  | nil => rfl
  | cons piece rest ih =>
      rw [List.flatMap_cons, splitBy_of_not_mem (free piece List.mem_cons_self),
        ih fun other later => free other (List.mem_cons_of_mem _ later)]
      rfl

/-- Cutting nonempty pieces never leaves one empty piece. -/
theorem flatMap_splitBy_ne {pieces : List (List α)} (filled : ∀ piece ∈ pieces, piece ≠ []) :
    pieces.flatMap (splitBy sep) ≠ [[]] := by
  intro empty
  have joined : [sep].intercalate (pieces.flatMap (splitBy sep)) = [sep].intercalate pieces :=
    intercalate_flatMap_splitBy pieces
  rw [empty, intercalate_singleton] at joined
  by_cases none : pieces = []
  · rw [none] at empty
    cases empty
  · exact intercalate_ne_nil none filled joined.symm

/-- Pieces without separators are read off what they join to; only no piece and
one empty piece join to the same. -/
theorem intercalate_inj {pieces others : List (List α)} (free : ∀ piece ∈ pieces, sep ∉ piece)
    (freeToo : ∀ piece ∈ others, sep ∉ piece) (filled : pieces ≠ [[]]) (filledToo : others ≠ [[]]) :
    [sep].intercalate pieces = [sep].intercalate others ↔ pieces = others := by
  have read : ∀ {items : List (List α)}, items ≠ [] → (∀ piece ∈ items, sep ∉ piece) →
      splitBy sep ([sep].intercalate items) = items := by
    intro items some free
    rw [splitBy_intercalate some, flatMap_splitBy_of_free free]
  have empty : splitBy sep ([sep].intercalate []) = [[]] := rfl
  constructor
  · intro same
    have pieceByPiece := congrArg (splitBy sep) same
    by_cases none : pieces = []
    · by_cases noneToo : others = []
      · rw [none, noneToo]
      · rw [none, empty, read noneToo freeToo] at pieceByPiece
        exact (filledToo pieceByPiece.symm).elim
    · by_cases noneToo : others = []
      · rw [noneToo, empty, read none free] at pieceByPiece
        exact (filled pieceByPiece).elim
      · rw [read none free, read noneToo freeToo] at pieceByPiece
        exact pieceByPiece
  · exact congrArg _

omit [DecidableEq α] in
/-- Two lists of pieces are joined with a separator between them. -/
theorem intercalate_append {front back : List (List α)} (some : front ≠ []) (more : back ≠ []) :
    [sep].intercalate (front ++ back) = [sep].intercalate front ++ sep :: [sep].intercalate back := by
  induction front with
  | nil => exact (some rfl).elim
  | cons piece rest ih =>
      by_cases alone : rest = []
      · subst alone
        rw [intercalate_singleton, List.singleton_append, intercalate_cons _ more]
      · rw [List.cons_append, intercalate_cons _ (List.append_ne_nil_of_left_ne_nil alone _),
          ih alone, intercalate_cons _ alone, List.append_assoc, List.cons_append]

omit [DecidableEq α] in
theorem intercalate_concat {pieces : List (List α)} (some : pieces ≠ []) (last : List α) :
    [sep].intercalate (pieces ++ [last]) = [sep].intercalate pieces ++ sep :: last := by
  rw [intercalate_append some (List.cons_ne_nil _ _), intercalate_singleton]

omit [DecidableEq α] in
/-- Joining adds separators only. -/
theorem mem_of_mem_intercalate {pieces : List (List α)} {letter : α} (other : letter ≠ sep)
    (member : letter ∈ [sep].intercalate pieces) : ∃ piece ∈ pieces, letter ∈ piece := by
  induction pieces with
  | nil => cases member
  | cons piece rest ih =>
      by_cases last : rest = []
      · subst last
        rw [intercalate_singleton] at member
        exact ⟨piece, List.mem_cons_self, member⟩
      · rw [intercalate_cons piece last, List.mem_append, List.mem_cons] at member
        obtain inside | same | later := member
        · exact ⟨piece, List.mem_cons_self, inside⟩
        · exact (other same).elim
        · obtain ⟨found, listed, inside⟩ := ih later
          exact ⟨found, List.mem_cons_of_mem _ listed, inside⟩

/-- The part behind the last separator is the last piece. -/
theorem afterLast_of_splitBy {word back : List α} {front : List (List α)}
    (split : splitBy sep word = front ++ [back]) : afterLast sep word = back := by
  have absent : sep ∉ back := by
    apply @not_mem_of_mem_splitBy _ _ _ word
    rw [split]
    exact List.mem_append_right front List.mem_cons_self
  have joined := @intercalate_splitBy _ _ sep word
  rw [split] at joined
  unfold afterLast
  by_cases alone : front = []
  · subst alone
    rw [List.nil_append, intercalate_singleton] at joined
    rw [← joined, rpartition_eq_none.mpr absent]
  · rw [intercalate_concat alone] at joined
    rw [rpartition_eq_some.mpr ⟨joined.symm, absent⟩]

/-- A piece behind the first is what stands behind a separator, up to the next separator or
to the end. -/
theorem mem_tail_splitBy_iff {word piece : List α} (free : sep ∉ piece) :
    piece ∈ (splitBy sep word).tail ↔
      sep :: piece ++ [sep] <:+: word ∨ sep :: piece <:+ word := by
  constructor
  · intro listed
    obtain ⟨first, others, pieces⟩ := List.exists_cons_of_ne_nil (@splitBy_ne_nil _ _ sep word)
    rw [pieces, List.tail_cons] at listed
    obtain ⟨before, after, rfl⟩ := List.append_of_mem listed
    have joined := @intercalate_splitBy _ _ sep word
    rw [pieces, ← List.cons_append,
      intercalate_append (List.cons_ne_nil _ _) (List.cons_ne_nil _ _)] at joined
    by_cases last : after = []
    · rw [last, intercalate_singleton] at joined
      exact .inr ⟨_, joined⟩
    · rw [intercalate_cons piece last] at joined
      refine .inl ⟨[sep].intercalate (first :: before), [sep].intercalate after, ?_⟩
      rw [← joined, List.append_assoc, List.append_assoc]
      rfl
  · have behind : ∀ front rest : List α,
        piece ∈ splitBy sep rest → piece ∈ (splitBy sep (front ++ sep :: rest)).tail := by
      intro front rest listed
      rw [splitBy_append, List.tail_append_of_ne_nil (splitBy_ne_nil front)]
      exact List.mem_append_right _ listed
    intro placed
    obtain ⟨front, back, rfl⟩ | ⟨front, rfl⟩ := placed
    · rw [List.append_assoc, List.append_assoc]
      apply behind front (piece ++ sep :: back)
      rw [splitBy_append, splitBy_of_not_mem free]
      exact List.mem_cons_self
    · apply behind
      rw [splitBy_of_not_mem free]
      exact List.mem_cons_self

theorem mem_of_mem_splitBy {word piece : List α} {letter : α} (listed : piece ∈ splitBy sep word)
    (member : letter ∈ piece) : letter ∈ word := by
  have joined : ∀ pieces : List (List α), piece ∈ pieces → letter ∈ [sep].intercalate pieces := by
    intro pieces listed
    induction pieces with
    | nil => cases listed
    | cons head rest ih =>
        by_cases last : rest = []
        · subst last
          rw [intercalate_singleton]
          rwa [← List.mem_singleton.mp listed]
        · rw [intercalate_cons head last, List.mem_append, List.mem_cons]
          cases List.mem_cons.mp listed with
          | inl same =>
              rw [← same]
              exact .inl member
          | inr later => exact .inr (.inr (ih later))
  rw [← @intercalate_splitBy _ _ sep word]
  exact joined _ listed

end GraphIngest.Foundation
