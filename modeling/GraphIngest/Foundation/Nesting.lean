import Mathlib.Data.List.Basic

/-! # Nested text

Text in which every opening letter is answered by its closing one, and a quoted piece
hides what is inside it. A nested text in front of a closing letter is determined by
the whole: no other cut of the same text leaves a nested text in front of a closing
letter.
-/

namespace GraphIngest.Foundation

/-- The opening letters with the letters that close them, and how pieces are quoted. -/
structure Delimiters (α : Type*) where
  closing : α → Option α
  quote : α
  escape : α
  quote_closing : closing quote = none
  escape_ne : escape ≠ quote
  closed : ∀ opening close, closing opening = some close → close ≠ quote ∧ closing close = none

namespace Delimiters

variable {α : Type*} (marks : Delimiters α)

/-- A letter that closes. -/
def Closes (letter : α) : Prop := ∃ opening, marks.closing opening = some letter

/-- A letter that stands for itself. -/
def Plain (letter : α) : Prop :=
  letter ≠ marks.quote ∧ marks.closing letter = none ∧ ¬ marks.Closes letter

/-- The inside of a quoted piece. -/
inductive Quoted : List α → Prop
  | nil : Quoted []
  | letter {letter : α} {rest : List α} (unquoted : letter ≠ marks.quote)
      (unescaped : letter ≠ marks.escape) (later : Quoted rest) : Quoted (letter :: rest)
  | escaped (letter : α) {rest : List α} (later : Quoted rest) :
      Quoted (marks.escape :: letter :: rest)

/-- A text in which everything opened is closed. -/
inductive Nested : List α → Prop
  | nil : Nested []
  | plain {letter : α} {rest : List α} (itself : marks.Plain letter) (later : Nested rest) :
      Nested (letter :: rest)
  | quoted {inner rest : List α} (hidden : marks.Quoted inner) (later : Nested rest) :
      Nested (marks.quote :: inner ++ marks.quote :: rest)
  | group {opening close : α} {inner rest : List α} (pair : marks.closing opening = some close)
      (inside : Nested inner) (later : Nested rest) :
      Nested (opening :: inner ++ close :: rest)

variable {marks}

/-- A quoted piece ends at the first mark that is not escaped. -/
theorem Quoted.unique {inner other back rest : List α} (hidden : marks.Quoted inner)
    (covered : marks.Quoted other)
    (same : inner ++ marks.quote :: back = other ++ marks.quote :: rest) :
    inner = other ∧ back = rest := by
  induction hidden generalizing other with
  | nil =>
      cases covered with
      | nil => exact ⟨rfl, (List.cons.inj same).2⟩
      | letter unquoted _ _ => exact (unquoted (List.cons.inj same).1.symm).elim
      | escaped letter _ => exact (marks.escape_ne (List.cons.inj same).1.symm).elim
  | letter unquoted unescaped _ ih =>
      cases covered with
      | nil => exact (unquoted (List.cons.inj same).1).elim
      | letter _ _ later =>
          obtain ⟨rfl, tails⟩ := List.cons.inj same
          obtain ⟨rfl, behind⟩ := ih later tails
          exact ⟨rfl, behind⟩
      | escaped letter _ => exact (unescaped (List.cons.inj same).1).elim
  | escaped letter _ ih =>
      cases covered with
      | nil => exact (marks.escape_ne (List.cons.inj same).1).elim
      | letter _ unescaped _ => exact (unescaped (List.cons.inj same).1.symm).elim
      | escaped other later =>
          obtain ⟨rfl, tails⟩ := List.cons.inj (List.cons.inj same).2
          obtain ⟨rfl, behind⟩ := ih later tails
          exact ⟨rfl, behind⟩

theorem quoted_of_forall {inner : List α}
    (plain : ∀ letter ∈ inner, letter ≠ marks.quote ∧ letter ≠ marks.escape) :
    marks.Quoted inner := by
  induction inner with
  | nil => exact .nil
  | cons letter rest ih =>
      obtain ⟨⟨unquoted, unescaped⟩, later⟩ := List.forall_mem_cons.mp plain
      exact .letter unquoted unescaped (ih later)

theorem not_closes_of_closing {opening close : α} (pair : marks.closing opening = some close) :
    ¬ marks.Closes opening := by
  rintro ⟨other, closes⟩
  rw [(marks.closed other opening closes).2] at pair
  cases pair

theorem not_closes_quote : ¬ marks.Closes marks.quote := by
  rintro ⟨other, closes⟩
  exact (marks.closed other marks.quote closes).1 rfl

/-- **Unique nesting.** What is nested in front of a closing letter is determined by the whole
text. -/
theorem Nested.unique {body other back rest : List α} {close last : α}
    (nested : marks.Nested body) (nesting : marks.Nested other) (closes : marks.Closes close)
    (closing : marks.Closes last) (same : body ++ close :: back = other ++ last :: rest) :
    body = other ∧ close = last ∧ back = rest := by
  induction nested generalizing other close last back rest with
  | nil =>
      cases nesting with
      | nil => exact ⟨rfl, List.cons.inj same⟩
      | plain itself _ => exact (itself.2.2 ((List.cons.inj same).1 ▸ closes)).elim
      | quoted _ _ => exact (not_closes_quote ((List.cons.inj same).1 ▸ closes)).elim
      | group pair _ _ => exact (not_closes_of_closing pair ((List.cons.inj same).1 ▸ closes)).elim
  | plain itself _ ih =>
      cases nesting with
      | nil => exact (itself.2.2 ((List.cons.inj same).1 ▸ closing)).elim
      | plain _ later =>
          obtain ⟨rfl, tails⟩ := List.cons.inj same
          obtain ⟨rfl, ends⟩ := ih later closes closing tails
          exact ⟨rfl, ends⟩
      | quoted _ _ => exact (itself.1 (List.cons.inj same).1).elim
      | group pair _ _ =>
          rw [← (List.cons.inj same).1, itself.2.1] at pair
          cases pair
  | @quoted inner front hidden _ ih =>
      cases nesting with
      | nil => exact (not_closes_quote ((List.cons.inj same).1 ▸ closing)).elim
      | plain itself _ => exact (itself.1 (List.cons.inj same).1.symm).elim
      | @quoted covered behind cover later =>
          simp only [List.cons_append, List.append_assoc, List.cons.injEq, true_and] at same
          obtain ⟨rfl, onward⟩ := hidden.unique cover same
          obtain ⟨rfl, ends⟩ := ih later closes closing onward
          exact ⟨rfl, ends⟩
      | group pair _ _ =>
          rw [← (List.cons.inj same).1, marks.quote_closing] at pair
          cases pair
  | @group opening own inner front pair _ _ insideIh ih =>
      cases nesting with
      | nil => exact (not_closes_of_closing pair ((List.cons.inj same).1 ▸ closing)).elim
      | plain itself _ =>
          rw [(List.cons.inj same).1, itself.2.1] at pair
          cases pair
      | quoted _ _ =>
          rw [(List.cons.inj same).1, marks.quote_closing] at pair
          cases pair
      | @group _ closer covered behind paired inside later =>
          simp only [List.cons_append, List.append_assoc, List.cons.injEq] at same
          obtain ⟨rfl, tails⟩ := same
          obtain ⟨rfl, rfl, onward⟩ := insideIh inside ⟨_, pair⟩ ⟨_, paired⟩ tails
          obtain ⟨rfl, ends⟩ := ih later closes closing onward
          exact ⟨rfl, ends⟩

end Delimiters

end GraphIngest.Foundation
