import GraphIngest.Foundation.Joining
import GraphIngest.Foundation.Json
import Mathlib.Data.List.Infix

/-! # Words in written values

A value is written as one text, and a reader may look in it for a word in quotation marks. The
word occurs exactly where some string of the value, a name of a member included, is the word or
ends in a quotation mark and the word: a quotation mark inside a string is written too.
-/

namespace GraphIngest.Foundation

section Infix

variable {α : Type*} {pattern front back : List α} {sep : α}

/-- What holds no separator lies on one side of it. -/
theorem infix_append_cons_iff (absent : sep ∉ pattern) :
    pattern <:+: front ++ sep :: back ↔ pattern <:+: front ∨ pattern <:+: back := by
  constructor
  · intro inside
    obtain ⟨before, behind, split⟩ := inside
    rw [List.append_assoc] at split
    cases List.append_eq_append_iff.mp split with
    | inl later =>
        obtain ⟨middle, rfl, rest⟩ := later
        cases List.append_eq_append_iff.mp rest with
        | inl beyond =>
            obtain ⟨more, rfl, tail⟩ := beyond
            exact .inl ⟨before, more, by rw [List.append_assoc]⟩
        | inr across =>
            obtain ⟨more, rfl, tail⟩ := across
            cases more with
            | nil => exact .inl ⟨before, [], by rw [List.append_nil, List.append_nil]⟩
            | cons first others =>
                obtain ⟨rfl, _⟩ := List.cons.inj tail
                exact (absent (List.mem_append_right _ List.mem_cons_self)).elim
    | inr earlier =>
        obtain ⟨middle, rfl, rest⟩ := earlier
        cases middle with
        | nil =>
            cases pattern with
            | nil => exact .inl List.nil_infix
            | cons first others =>
                obtain ⟨rfl, _⟩ := List.cons.inj rest
                exact (absent List.mem_cons_self).elim
        | cons first others =>
            obtain ⟨_, rfl⟩ := List.cons.inj rest
            exact .inr ⟨others, behind, List.append_assoc _ _ _⟩
  · intro either
    cases either with
    | inl inside => exact inside.trans (List.prefix_append front _).isInfix
    | inr inside => exact inside.trans ((List.suffix_cons sep back).trans
        (List.suffix_append front _)).isInfix

/-- A pattern without the separator does not begin at it. -/
theorem infix_cons_of_absent (absent : sep ∉ pattern) (filled : pattern ≠ []) :
    pattern <:+: sep :: back ↔ pattern <:+: back := by
  have split := @infix_append_cons_iff _ pattern [] back sep absent
  rwa [List.nil_append, List.infix_nil, or_iff_right filled] at split

theorem infix_concat_of_absent (absent : sep ∉ pattern) (filled : pattern ≠ []) :
    pattern <:+: front ++ [sep] ↔ pattern <:+: front := by
  have split := @infix_append_cons_iff _ pattern front [] sep absent
  rwa [List.infix_nil, or_iff_left filled] at split

/-- What begins with a letter does not begin among others. -/
theorem infix_append_of_head_absent {head : α} (absent : head ∉ front) :
    head :: pattern <:+: front ++ back ↔ head :: pattern <:+: back := by
  induction front with
  | nil => rfl
  | cons letter rest ih =>
      obtain ⟨other, later⟩ := not_or.mp (List.mem_cons.not.mp absent)
      rw [List.cons_append, List.infix_cons_iff, List.cons_prefix_cons, ih later]
      exact or_iff_right fun begins => other begins.1

/-- Among texts with a separator between them, a pattern lies in one of them. -/
theorem infix_intercalate_iff (absent : sep ∉ pattern) (filled : pattern ≠ [])
    {pieces : List (List α)} :
    pattern <:+: [sep].intercalate pieces ↔ ∃ piece ∈ pieces, pattern <:+: piece := by
  induction pieces with
  | nil =>
      refine iff_of_false (fun inside => filled (List.infix_nil.mp inside)) fun some => ?_
      obtain ⟨_, member, _⟩ := some
      exact List.not_mem_nil member
  | cons piece rest ih =>
      rw [List.exists_mem_cons_iff]
      by_cases last : rest = []
      · subst last
        rw [intercalate_singleton, or_iff_left fun some => List.not_mem_nil some.choose_spec.1]
      · rw [intercalate_cons piece last, infix_append_cons_iff absent, ih]

end Infix

namespace Json

section Parts

mutual

/-- The strings of a value, the names of members among them. -/
def strings : Json → List (List Char)
  | null => []
  | bool _ => []
  | int _ => []
  | real _ => []
  | string text => [text]
  | array items => stringsItems items
  | object members => stringsMembers members

def stringsItems : List Json → List (List Char)
  | [] => []
  | item :: rest => strings item ++ stringsItems rest

def stringsMembers : List (List Char × Json) → List (List Char)
  | [] => []
  | (name, value) :: rest => name :: (strings value ++ stringsMembers rest)

end

mutual

/-- The literals of the numbers of a value that are known by their literal. -/
def literals : Json → List (List Char)
  | null => []
  | bool _ => []
  | int _ => []
  | real literal => [literal]
  | string _ => []
  | array items => literalsItems items
  | object members => literalsMembers members

def literalsItems : List Json → List (List Char)
  | [] => []
  | item :: rest => literals item ++ literalsItems rest

def literalsMembers : List (List Char × Json) → List (List Char)
  | [] => []
  | (_, value) :: rest => literals value ++ literalsMembers rest

end

/-- No literal of a number has a quotation mark in it. -/
def PlainNumbers (value : Json) : Prop := ∀ literal ∈ literals value, quote ∉ literal

variable {name text : List Char}

theorem mem_stringsItems {items : List Json} {item : Json} (member : item ∈ items)
    (inside : text ∈ strings item) : text ∈ stringsItems items := by
  induction items with
  | nil => exact (List.not_mem_nil member).elim
  | cons first rest ih =>
      rw [stringsItems, List.mem_append]
      cases List.mem_cons.mp member with
      | inl same => exact .inl (same ▸ inside)
      | inr later => exact .inr (ih later)

/-- The strings of a member are strings of the object. -/
theorem mem_strings_of_get? {value found : Json} (held : value.get? name = some found)
    (inside : text ∈ strings found) : text ∈ strings value := by
  cases value with
  | object members =>
      obtain ⟨front, back, rfl, fresh⟩ := List.lookup_eq_some_iff.mp held
      rw [strings]
      clear held fresh
      induction front with
      | nil =>
          rw [List.nil_append, stringsMembers]
          exact List.mem_cons_of_mem _ (List.mem_append_left _ inside)
      | cons field front ih =>
          rw [List.cons_append, stringsMembers]
          exact List.mem_cons_of_mem _ (List.mem_append_right _ ih)
  | _ => cases held

end Parts

section Letters

/-- What stands around and between written values and strings. -/
def punctuation : List Char :=
  ['[', ']', Char.ofNat 123, Char.ofNat 125, ',', ':', quote, backslash]

/-- A letter that is written as itself and is no punctuation. -/
def Plain (letter : Char) : Prop := escape letter = [letter] ∧ letter ∉ punctuation

theorem escape_quote : escape quote = [backslash, quote] := rfl

/-- No other letter is written with a quotation mark. -/
theorem quote_not_mem_escape {letter : Char} (other : letter ≠ quote) : quote ∉ escape letter := by
  have digits (number : Nat) : Nat.digitChar number ≠ quote := Nat.digitChar_ne quote (by decide)
  have unit (number : Nat) : quote ∉ escapeUnit number := by
    unfold escapeUnit
    simp only [List.mem_cons, List.not_mem_nil, or_false, not_or]
    exact ⟨by decide, by decide, (digits _).symm, (digits _).symm, (digits _).symm,
      (digits _).symm⟩
  unfold escape
  dsimp only
  split_ifs
  · simp only [List.mem_cons, List.not_mem_nil, or_false, not_or]
    exact ⟨by decide, other.symm⟩
  · decide
  · decide
  · decide
  · decide
  · decide
  · rw [List.mem_singleton]
    exact other.symm
  · exact unit _
  · rw [List.mem_append, not_or]
    exact ⟨unit _, unit _⟩

/-- A letter is written as itself, or with a backslash in front. -/
theorem escape_cases (letter : Char) :
    escape letter = [letter] ∨ ∃ tail, escape letter = backslash :: tail := by
  unfold escape escapeUnit
  dsimp only
  split_ifs
  all_goals first | exact .inl rfl | exact .inr ⟨_, rfl⟩

end Letters

section Words

/-- A word in quotation marks. -/
def quoted (word : List Char) : List Char := quote :: word ++ [quote]

variable {word : List Char}

theorem quoted_ne_nil : quoted word ≠ [] := List.cons_ne_nil _ _

/-- A quoted word begins at a quote where the word and a quote follow. -/
theorem quoted_prefix_cons_iff {rest : List Char} :
    quoted word <+: quote :: rest ↔ word ++ [quote] <+: rest := by
  unfold quoted
  rw [List.cons_append, List.cons_prefix_cons, and_iff_right rfl]

/-- A plain word in front of a quotation mark begins a written string exactly when it is the
string. -/
theorem prefix_written_iff (plain : ∀ letter ∈ word, Plain letter) {text : List Char} :
    word ++ [quote] <+: text.flatMap escape ++ [quote] ↔ text = word := by
  induction word generalizing text with
  | nil =>
      cases text with
      | nil => exact iff_of_true (List.prefix_refl _) rfl
      | cons letter rest =>
          refine iff_of_false (fun begins => ?_) (List.cons_ne_nil _ _)
          rw [List.flatMap_cons, List.append_assoc] at begins
          cases escape_cases letter with
          | inl itself =>
              rw [itself] at begins
              have same := (List.cons_prefix_cons.mp begins).1
              rw [← same, escape_quote] at itself
              cases itself
          | inr escaped =>
              obtain ⟨tail, written⟩ := escaped
              rw [written] at begins
              have same := (List.cons_prefix_cons.mp begins).1
              revert same
              decide
  | cons first word ih =>
      obtain ⟨⟨itself, apart⟩, others⟩ := List.forall_mem_cons.mp plain
      cases text with
      | nil =>
          refine iff_of_false (fun begins => ?_) (List.cons_ne_nil _ _).symm
          have same := (List.cons_prefix_cons.mp begins).1
          rw [same] at apart
          exact apart (by decide)
      | cons letter rest =>
          rw [List.flatMap_cons, List.append_assoc]
          by_cases same : letter = first
          · subst same
            rw [itself, List.cons_append, List.singleton_append, List.cons_prefix_cons,
              and_iff_right rfl, ih others, List.cons.injEq, and_iff_right rfl]
          · refine iff_of_false (fun begins => ?_) fun equal => same (List.cons.inj equal).1
            cases escape_cases letter with
            | inl alone =>
                rw [alone] at begins
                exact same (List.cons_prefix_cons.mp begins).1.symm
            | inr escaped =>
                obtain ⟨tail, written⟩ := escaped
                rw [written] at begins
                rw [(List.cons_prefix_cons.mp begins).1] at apart
                exact apart (by decide)

/-- A plain word in quotation marks occurs behind the opening mark of a written string exactly
when the string ends in a quotation mark and the word. -/
theorem quoted_infix_written_iff (plain : ∀ letter ∈ word, Plain letter) {text : List Char} :
    quoted word <:+: text.flatMap escape ++ [quote] ↔ quote :: word <:+ text := by
  induction text with
  | nil =>
      refine iff_of_false (fun inside => ?_) fun ends => ?_
      · have short := inside.length_le
        rw [List.flatMap_nil, List.nil_append, List.length_singleton, quoted, List.length_append,
          List.length_cons, List.length_singleton] at short
        omega
      · exact List.cons_ne_nil _ _ (List.suffix_nil.mp ends)
  | cons letter rest ih =>
      rw [List.flatMap_cons, List.append_assoc, List.suffix_cons_iff, List.cons.injEq, ← ih]
      by_cases same : letter = quote
      · subst same
        have behind : quoted word <:+: escape quote ++ (rest.flatMap escape ++ [quote]) ↔
            quoted word <:+: quote :: (rest.flatMap escape ++ [quote]) :=
          @infix_append_of_head_absent _ _ [backslash] _ quote (by decide)
        rw [behind, List.infix_cons_iff, quoted_prefix_cons_iff, prefix_written_iff plain,
          and_iff_right rfl, eq_comm]
      · have other : ¬ (quote = letter ∧ word = rest) := fun equal => same equal.1.symm
        rw [or_iff_right other]
        exact infix_append_of_head_absent (quote_not_mem_escape same)

/-- A quoted word stands in a dumped text where the text ends in it behind a quote. -/
theorem quoted_infix_dumpsText_iff (plain : ∀ letter ∈ word, Plain letter) {text : List Char} :
    quoted word <:+: dumpsText text ↔ quote :: word <:+ quote :: text := by
  unfold dumpsText
  rw [List.cons_append, List.infix_cons_iff, quoted_prefix_cons_iff, prefix_written_iff plain,
    quoted_infix_written_iff plain, List.suffix_cons_iff, List.cons.injEq, and_iff_right rfl,
    eq_comm]

/-- What is written without a quotation mark holds no word in quotation marks. -/
theorem quoted_infix_leaf_iff {text : List Char} (absent : quote ∉ text) :
    quoted word <:+: text ↔ ∃ text ∈ ([] : List (List Char)), quote :: word <:+ quote :: text := by
  refine iff_of_false (fun inside => absent (inside.subset List.mem_cons_self)) fun some => ?_
  obtain ⟨_, member, _⟩ := some
  exact List.not_mem_nil member

theorem quote_not_mem_int (value : Int) : quote ∉ (toString value).toList := by
  have digits (number : Nat) : quote ∉ number.repr.toList := by
    rw [Nat.toList_repr]
    intro member
    have digit := Nat.isDigit_of_mem_toDigits (by decide) (by decide) member
    revert digit
    decide
  rw [Int.toString_eq_repr]
  cases value with
  | ofNat number => exact digits number
  | negSucc number =>
      change quote ∉ ("-" ++ (number + 1).repr).toList
      rw [String.toList_append, List.mem_append, not_or]
      exact ⟨by decide, digits _⟩

/-- No punctuation stands in a quoted word. -/
theorem not_mem_quoted (plain : ∀ letter ∈ word, Plain letter) {sep : Char}
    (listed : sep ∈ punctuation) (other : sep ≠ quote) : sep ∉ quoted word := by
  intro member
  rw [quoted, List.cons_append, List.mem_cons, List.mem_append, List.mem_singleton] at member
  rcases member with same | inside | same
  · exact other same
  · exact (plain sep inside).2 listed
  · exact other same

mutual

/-- **Words in written values.** A plain word in quotation marks occurs in a written value exactly
when a string of the value is the word, or ends in a quotation mark and the word. -/
theorem quoted_infix_dumps_iff (plain : ∀ letter ∈ word, Plain letter) :
    (value : Json) → value.PlainNumbers →
      (quoted word <:+: dumps value ↔ ∃ text ∈ strings value, quote :: word <:+ quote :: text)
  | null, _ => by
      rw [dumps, strings]
      exact quoted_infix_leaf_iff (by decide)
  | bool value, _ => by
      rw [dumps, strings]
      apply quoted_infix_leaf_iff
      cases value <;> decide
  | int value, _ => by
      rw [dumps, strings]
      exact quoted_infix_leaf_iff (quote_not_mem_int value)
  | real literal, numbers => by
      rw [dumps, strings]
      apply quoted_infix_leaf_iff
      apply numbers
      rw [literals]
      exact List.mem_singleton_self literal
  | string text, _ => by
      rw [dumps, strings, quoted_infix_dumpsText_iff plain]
      simp only [List.mem_singleton, exists_eq_left]
  | array items, numbers => by
      rw [dumps, strings, ← quoted_infix_dumpsItems_iff plain items numbers, List.cons_append,
        infix_cons_of_absent (not_mem_quoted plain (by decide) (by decide)) quoted_ne_nil,
        infix_concat_of_absent (not_mem_quoted plain (by decide) (by decide)) quoted_ne_nil,
        infix_intercalate_iff (not_mem_quoted plain (by decide) (by decide)) quoted_ne_nil]
  | object members, numbers => by
      rw [dumps, strings, ← quoted_infix_dumpsMembers_iff plain members numbers]
      rw [List.cons_append,
        infix_cons_of_absent (not_mem_quoted plain (by decide) (by decide)) quoted_ne_nil,
        infix_concat_of_absent (not_mem_quoted plain (by decide) (by decide)) quoted_ne_nil,
        infix_intercalate_iff (not_mem_quoted plain (by decide) (by decide)) quoted_ne_nil]
      simp only [List.mem_map, exists_exists_and_eq_and, List.mem_insertionSort,
        infix_append_cons_iff (not_mem_quoted plain (show ':' ∈ punctuation by decide)
          (by decide))]

/-- A quoted word stands in dumped items where it stands in a text of them. -/
theorem quoted_infix_dumpsItems_iff (plain : ∀ letter ∈ word, Plain letter) :
    (items : List Json) → (∀ literal ∈ literalsItems items, quote ∉ literal) →
      ((∃ piece ∈ dumpsItems items, quoted word <:+: piece) ↔
        ∃ text ∈ stringsItems items, quote :: word <:+ quote :: text)
  | [], _ => by
      simp only [dumpsItems, stringsItems, List.not_mem_nil, false_and, exists_false]
  | item :: rest, numbers => by
      rw [literalsItems, List.forall_mem_append] at numbers
      rw [dumpsItems, stringsItems, List.exists_mem_cons_iff,
        quoted_infix_dumps_iff plain item numbers.1,
        quoted_infix_dumpsItems_iff plain rest numbers.2]
      simp only [List.mem_append, or_and_right, exists_or]

/-- A quoted word stands in dumped members where it stands in a text of them. -/
theorem quoted_infix_dumpsMembers_iff (plain : ∀ letter ∈ word, Plain letter) :
    (members : List (List Char × Json)) →
      (∀ literal ∈ literalsMembers members, quote ∉ literal) →
        ((∃ field ∈ dumpsMembers members,
            quoted word <:+: dumpsText field.1 ∨ quoted word <:+: field.2) ↔
          ∃ text ∈ stringsMembers members, quote :: word <:+ quote :: text)
  | [], _ => by
      simp only [dumpsMembers, stringsMembers, List.not_mem_nil, false_and, exists_false]
  | (name, value) :: rest, numbers => by
      rw [literalsMembers, List.forall_mem_append] at numbers
      rw [dumpsMembers, stringsMembers, List.exists_mem_cons_iff, List.exists_mem_cons_iff,
        quoted_infix_dumpsText_iff plain, quoted_infix_dumps_iff plain value numbers.1,
        quoted_infix_dumpsMembers_iff plain rest numbers.2, or_assoc]
      simp only [List.mem_append, or_and_right, exists_or]

end

end Words

end Json

end GraphIngest.Foundation
