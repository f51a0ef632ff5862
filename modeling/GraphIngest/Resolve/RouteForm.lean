import GraphIngest.Foundation.Cutting
import GraphIngest.Foundation.Rewriting
import GraphIngest.Foundation.WrittenWords
import GraphIngest.Resolve.Endpoints
import GraphIngest.Resolve.Step
import Mathlib.Data.List.DropRight
import Mathlib.Data.List.TakeWhile

/-! # The normal form of routes

The route of an endpoint is normalized when the endpoint is extracted and again when
it is indexed, that of a caller once. Collapsing parameters is done after one time,
segment by segment, but trimming is not: white space and quotes that only come to
stand at the end when the trailing slashes are dropped are left for the next time.
Normalizing is idempotent, and an endpoint found under the route it was declared
with, exactly when none come to stand there.
-/

namespace GraphIngest.Resolve

open Foundation Text Graph

section Matches

variable {opening closing : Char}

theorem bracketSize_of_ne {head : Char} (other : head ≠ opening) (rest : Str) :
    bracketSize opening closing (head :: rest) = 0 :=
  if_neg other

/-- A bracket that is closed within the segment. -/
theorem bracketSize_closed {inner : Str} (absent : '/' ∉ inner) (unclosed : closing ∉ inner)
    (rest : Str) :
    bracketSize opening closing (opening :: (inner ++ closing :: rest)) = inner.length + 2 := by
  have taken : (inner ++ closing :: rest).takeWhile
      (fun letter => letter != '/' && letter != closing) = inner := by
    rw [List.takeWhile_append_of_pos, List.takeWhile_cons, bne_self_eq_false, Bool.and_false,
      if_neg Bool.false_ne_true, List.append_nil]
    intro letter listed
    rw [Bool.and_eq_true, bne_iff_ne, bne_iff_ne]
    exact ⟨fun same => absent (same ▸ listed), fun same => unclosed (same ▸ listed)⟩
  rw [bracketSize, if_pos rfl]
  simp only [taken, List.drop_left, List.head?_cons, ↓reduceIte]

/-- A bracket that is not closed within the segment. -/
theorem bracketSize_unclosed {part : Str} (absent : '/' ∉ part) (unclosed : closing ∉ part)
    {rest : Str} (ends : rest = [] ∨ rest.head? = some '/') (foreign : closing ≠ '/') :
    bracketSize opening closing (opening :: (part ++ rest)) = 0 := by
  have taken : (part ++ rest).takeWhile
      (fun letter => letter != '/' && letter != closing) = part := by
    rw [List.takeWhile_append_of_pos]
    · cases rest with
      | nil => exact List.append_nil part
      | cons head rest =>
          obtain rfl := Option.some.inj (ends.resolve_left (List.cons_ne_nil head rest))
          rw [List.takeWhile_cons, bne_self_eq_false, Bool.false_and, if_neg Bool.false_ne_true,
            List.append_nil]
    · intro letter listed
      rw [Bool.and_eq_true, bne_iff_ne, bne_iff_ne]
      exact ⟨fun same => absent (same ▸ listed), fun same => unclosed (same ▸ listed)⟩
  rw [bracketSize, if_pos rfl]
  simp only [taken, List.drop_left]
  rcases ends with rfl | slash
  · rfl
  · rw [slash]
    exact if_neg fun same => foreign (Option.some.inj same).symm

/-- What a bracket matches. -/
theorem exists_of_bracketSize {head : Char} {rest : Str}
    (found : bracketSize opening closing (head :: rest) ≠ 0) :
    head = opening ∧ ∃ inner behind, rest = inner ++ closing :: behind ∧ '/' ∉ inner ∧
      bracketSize opening closing (head :: rest) = inner.length + 2 := by
  rw [bracketSize] at found ⊢
  by_cases same : head = opening
  · rw [if_pos same] at found ⊢
    dsimp only at found ⊢
    split at found
    · next closes =>
        rw [if_pos closes]
        have split := List.takeWhile_append_dropWhile
          (p := fun letter => letter != '/' && letter != closing) (l := rest)
        generalize taken : rest.takeWhile (fun letter => letter != '/' && letter != closing) =
          inner at *
        rw [← split, List.drop_left] at closes
        obtain ⟨behind, tail⟩ := List.head?_eq_some_iff.mp closes
        refine ⟨same, inner, behind, by rw [← tail, split], ?_, rfl⟩
        rw [← taken]
        intro inside
        have kept := List.mem_takeWhile_imp inside
        rw [bne_self_eq_false, Bool.false_and] at kept
        exact Bool.false_ne_true kept
    · exact absurd rfl found
  · rw [if_neg same] at found
    exact absurd rfl found

/-- A parameter in brackets does not reach over a slash. -/
theorem withinParts_bracketSize (foreign : opening ≠ '/') (other : closing ≠ '/') :
    WithinParts '/' (bracketSize opening closing) where
  border rest := bracketSize_of_ne (Ne.symm foreign) rest
  part part rest absent some := by
    cases part with
    | nil => exact absurd rfl some
    | cons head part =>
        have behind : '/' ∉ part := fun inside => absent (List.mem_cons_of_mem head inside)
        by_cases same : head = opening
        · subst same
          by_cases closes : closing ∈ part
          · obtain ⟨inner, tail, rfl, unclosed⟩ := List.eq_append_cons_of_mem closes
            have own : '/' ∉ inner := fun inside => behind (List.mem_append_left _ inside)
            rw [List.cons_append, List.append_assoc, List.cons_append,
              bracketSize_closed own unclosed, bracketSize_closed own unclosed]
          · have alone := @bracketSize_unclosed head closing part behind closes [] (.inl rfl) other
            rw [List.append_nil] at alone
            rw [alone, List.cons_append]
            exact bracketSize_unclosed behind closes (.inr rfl) other
        · rw [bracketSize_of_ne same, List.cons_append, bracketSize_of_ne same]
  bounded word := by
    cases word with
    | nil => exact Nat.zero_le 0
    | cons head rest =>
        by_cases found : bracketSize opening closing (head :: rest) = 0
        · omega
        · obtain ⟨-, inner, behind, rfl, -, size⟩ := exists_of_bracketSize found
          rw [size, List.length_cons, List.length_append, List.length_cons]
          omega

theorem colonSize_of_ne {head : Char} (other : head ≠ ':') (rest : Str) :
    colonSize (head :: rest) = 0 :=
  if_neg other

/-- A colon in a segment takes all of the segment behind it. -/
theorem colonSize_part {part : Str} (absent : '/' ∉ part) (some : part ≠ []) {rest : Str}
    (ends : rest = [] ∨ rest.head? = Option.some '/') :
    colonSize (':' :: (part ++ rest)) = part.length + 1 := by
  have taken : (part ++ rest).takeWhile (fun letter => letter != '/') = part := by
    rw [List.takeWhile_append_of_pos]
    · cases rest with
      | nil => exact List.append_nil part
      | cons head rest =>
          obtain rfl := Option.some.inj (ends.resolve_left (List.cons_ne_nil head rest))
          rw [List.takeWhile_cons, bne_self_eq_false, if_neg Bool.false_ne_true, List.append_nil]
    · exact fun letter listed => bne_iff_ne.mpr fun same => absent (same ▸ listed)
  rw [colonSize, if_pos rfl]
  simp only [taken, if_neg some]

/-- A colon at the end of a segment is no parameter. -/
theorem colonSize_last {rest : Str} (ends : rest = [] ∨ rest.head? = some '/') :
    colonSize (':' :: rest) = 0 := by
  rw [colonSize, if_pos rfl]
  cases rest with
  | nil => rfl
  | cons head rest =>
      obtain rfl := Option.some.inj (ends.resolve_left (List.cons_ne_nil head rest))
      rfl

/-- A parameter behind a colon ends at the next slash. -/
theorem withinParts_colonSize : WithinParts '/' colonSize where
  border rest := colonSize_of_ne (by decide) rest
  part part rest absent some := by
    cases part with
    | nil => exact absurd rfl some
    | cons head part =>
        have behind : '/' ∉ part := fun inside => absent (List.mem_cons_of_mem head inside)
        by_cases same : head = ':'
        · subst same
          cases part with
          | nil => rw [colonSize_last (.inl rfl)]; exact colonSize_last (.inr rfl)
          | cons next part =>
              have filled := List.cons_ne_nil next part
              have alone := @colonSize_part (next :: part) behind filled [] (.inl rfl)
              rw [List.append_nil] at alone
              rw [alone, List.cons_append]
              exact colonSize_part behind filled (.inr rfl)
        · rw [colonSize_of_ne same, List.cons_append, colonSize_of_ne same]
  bounded word := by
    cases word with
    | nil => exact Nat.zero_le 0
    | cons head rest =>
        rw [colonSize]
        have shorter := (List.takeWhile_prefix (fun letter => letter != '/') (l := rest)).length_le
        split
        · dsimp only
          split
          · exact Nat.zero_le _
          · rw [List.length_cons]
            omega
        · exact Nat.zero_le _

end Matches

section Collapsing

/-- Parameters in braces and in angle brackets collapsed. -/
def collapseBrackets (text : Str) : Str :=
  rewriteFrom (bracketSize '<' '>') ['*'] 0 (rewriteFrom (bracketSize '{' '}') ['*'] 0 text)

/-- All parameters collapsed. -/
def collapse (text : Str) : Str := rewriteFrom colonSize ['*'] 0 (collapseBrackets text)

/-- A part of a segment in which nothing is left to collapse. -/
structure Plain (part : Str) : Prop where
  braces : ¬ ['{', '}'].Sublist part
  angles : ¬ ['<', '>'].Sublist part
  colons : ∀ letter, ¬ [':', letter].Sublist part

/-- A text in whose segments nothing is left to collapse. -/
def Settled (text : Str) : Prop := ∀ part, '/' ∉ part → part <:+: text → Plain part

/-- A part of a settled text is settled. -/
theorem Settled.of_infix {text part : Str} (settled : Settled text) (inside : part <:+: text) :
    Settled part :=
  fun own absent within => settled own absent (within.trans inside)

theorem Plain.sublist {part own : Str} (plain : Plain part) (inside : own.Sublist part) :
    Plain own :=
  ⟨fun braces => plain.braces (braces.trans inside),
    fun angles => plain.angles (angles.trans inside),
    fun letter colon => plain.colons letter (colon.trans inside)⟩

/-- A slash in front keeps a text settled. -/
theorem Settled.cons_slash {text : Str} (settled : Settled text) : Settled ('/' :: text) := by
  intro part absent inside
  by_cases empty : part = []
  · subst empty
    exact settled [] absent List.nil_infix
  · exact settled part absent ((infix_cons_of_absent absent empty).mp inside)

/-- No bracket matches in a settled text. -/
theorem Settled.bracketSize_eq_zero {text : Str} {opening closing : Char}
    (free : ∀ part, '/' ∉ part → part <:+: text → ¬ [opening, closing].Sublist part)
    (foreign : opening ≠ '/') (other : closing ≠ '/') :
    ∀ suffix, suffix <:+ text → bracketSize opening closing suffix = 0 := by
  intro suffix behind
  by_contra found
  cases suffix with
  | nil => exact found rfl
  | cons head rest =>
      obtain ⟨rfl, inner, tail, rfl, absent, -⟩ := exists_of_bracketSize found
      apply free (head :: (inner ++ [closing]))
      · simp only [List.mem_cons, List.mem_append, List.not_mem_nil, or_false, not_or]
        exact ⟨Ne.symm foreign, absent, Ne.symm other⟩
      · have front : head :: (inner ++ [closing]) <+: head :: (inner ++ closing :: tail) :=
          ⟨tail, by simp only [List.cons_append, List.append_assoc, List.nil_append]⟩
        exact front.isInfix.trans behind.isInfix
      · exact (List.sublist_append_right inner [closing]).cons_cons head

/-- No colon matches in a settled text. -/
theorem Settled.colonSize_eq_zero {text : Str} (settled : Settled text) :
    ∀ suffix, suffix <:+ text → colonSize suffix = 0 := by
  intro suffix behind
  cases suffix with
  | nil => rfl
  | cons head rest =>
      by_cases colon : head = ':'
      · subst colon
        cases rest with
        | nil => rfl
        | cons next rest =>
            by_cases slash : next = '/'
            · exact colonSize_last (.inr (congrArg some slash))
            · exfalso
              have front : [':', next] <+: ':' :: next :: rest := ⟨rest, rfl⟩
              have absent : '/' ∉ [':', next] := by
                simp only [List.mem_cons, List.not_mem_nil, or_false, not_or]
                exact ⟨by decide, Ne.symm slash⟩
              exact (settled _ absent (front.isInfix.trans behind.isInfix)).colons next
                (List.Sublist.refl _)
      · exact colonSize_of_ne colon rest

/-- A settled text is left as it is. -/
theorem Settled.collapse_eq {text : Str} (settled : Settled text) : collapse text = text := by
  have braces := Settled.bracketSize_eq_zero (fun part absent inside =>
    (settled part absent inside).braces) (by decide) (by decide)
  have angles := Settled.bracketSize_eq_zero (fun part absent inside =>
    (settled part absent inside).angles) (by decide) (by decide)
  rw [collapse, collapseBrackets, rewriteFrom_eq_self braces, rewriteFrom_eq_self angles,
    rewriteFrom_eq_self settled.colonSize_eq_zero]

/-- In a rewritten segment no bracket stands in front of one that closes it. -/
theorem not_sublist_rewriteFrom {opening closing : Char} (different : opening ≠ '*')
    (distinct : closing ≠ '*') (foreign : closing ≠ '/') {part : Str} (absent : '/' ∉ part) :
    ¬ [opening, closing].Sublist (rewriteFrom (bracketSize opening closing) ['*'] 0 part) := by
  induction length : part.length using Nat.strong_induction_on generalizing part with
  | _ count ih =>
      cases part with
      | nil =>
          intro inside
          rw [rewriteFrom, List.sublist_nil] at inside
          exact List.cons_ne_nil _ _ inside
      | cons head rest =>
          rw [List.length_cons] at length
          have behind : '/' ∉ rest := fun inside => absent (List.mem_cons_of_mem head inside)
          have later := @ih rest.length (by omega) rest behind rfl
          by_cases same : head = opening
          · subst same
            by_cases closes : closing ∈ rest
            · obtain ⟨inner, tail, rfl, unclosed⟩ := List.eq_append_cons_of_mem closes
              have own : '/' ∉ inner := fun inside => behind (List.mem_append_left _ inside)
              have past : '/' ∉ tail := fun inside =>
                behind (List.mem_append_right _ (List.mem_cons_of_mem closing inside))
              have dropped : (inner ++ closing :: tail).drop (inner.length + 1) = tail := by
                rw [← List.drop_drop, List.drop_left, List.drop_one, List.tail_cons]
              rw [rewriteFrom_cons_of_pos (bracketSize_closed own unclosed tail), dropped]
              rw [List.length_append, List.length_cons] at length
              intro inside
              exact ih tail.length (by omega) past rfl (inside.of_cons_of_ne different)
            · have none := @bracketSize_unclosed head closing rest behind closes [] (.inl rfl)
                foreign
              rw [List.append_nil] at none
              rw [rewriteFrom_cons_of_zero none, List.cons_sublist_cons, List.singleton_sublist]
              intro inside
              rcases mem_of_mem_rewriteFrom inside with mark | listed
              · exact distinct (List.mem_singleton.mp mark)
              · exact closes listed
          · rw [rewriteFrom_cons_of_zero (bracketSize_of_ne same rest)]
            exact fun inside => later (inside.of_cons_of_ne (Ne.symm same))

/-- A segment whose colons are collapsed: it ends behind its first colon, or with the mark
in the place of all that stood there. -/
theorem rewriteFrom_colonSize {front behind : Str} (first : ':' ∉ front) (absent : '/' ∉ behind) :
    rewriteFrom colonSize ['*'] 0 (front ++ ':' :: behind) =
      front ++ [if behind = [] then ':' else '*'] := by
  induction front with
  | nil =>
      rw [List.nil_append, List.nil_append]
      by_cases last : behind = []
      · rw [if_pos last, last]
        rfl
      · have size := @colonSize_part behind absent last [] (.inl rfl)
        rw [List.append_nil] at size
        rw [if_neg last, rewriteFrom_cons_of_pos size, List.drop_length]
        rfl
  | cons head front ih =>
      have other : head ≠ ':' := fun same => first (same ▸ List.mem_cons_self)
      rw [List.cons_append, rewriteFrom_cons_of_zero (colonSize_of_ne other _),
        ih fun inside => first (List.mem_cons_of_mem head inside), List.cons_append]

/-- In a segment whose colons are collapsed nothing stands behind a colon. -/
theorem not_sublist_rewriteFrom_colonSize {part : Str} (absent : '/' ∉ part) (letter : Char) :
    ¬ [':', letter].Sublist (rewriteFrom colonSize ['*'] 0 part) := by
  by_cases colon : ':' ∈ part
  · obtain ⟨front, behind, rfl, first⟩ := List.eq_append_cons_of_mem colon
    rw [rewriteFrom_colonSize first fun inside =>
      absent (List.mem_append_right _ (List.mem_cons_of_mem ':' inside))]
    clear absent colon
    induction front with
    | nil =>
        intro inside
        have short := inside.length_le
        simp only [List.nil_append, List.length_cons, List.length_nil] at short
        omega
    | cons head front ih =>
        intro inside
        have other : ':' ≠ head := fun same => first (same ▸ List.mem_cons_self)
        exact ih (fun inside => first (List.mem_cons_of_mem head inside))
          (inside.of_cons_of_ne other)
  · intro inside
    rcases mem_of_mem_rewriteFrom (inside.subset List.mem_cons_self) with mark | listed
    · exact absurd (List.mem_singleton.mp mark) (by decide)
    · exact colon listed

/-- Nothing is left to collapse in a collapsed segment. -/
theorem plain_collapse {part : Str} (absent : '/' ∉ part) : Plain (collapse part) := by
  have kept : ∀ {size : Str → Nat} {word : Str}, '/' ∉ word →
      '/' ∉ rewriteFrom size ['*'] 0 word := by
    intro size word outside inside
    rcases mem_of_mem_rewriteFrom inside with mark | listed
    · exact absurd (List.mem_singleton.mp mark) (by decide)
    · exact outside listed
  have marks : ∀ {opening closing : Char}, opening ≠ '*' → closing ≠ '*' →
      ∀ letter ∈ [opening, closing], letter ≠ '*' := by
    intro opening closing first second letter listed
    rcases List.mem_cons.mp listed with rfl | rest
    · exact first
    · exact (List.mem_singleton.mp rest) ▸ second
  refine ⟨fun braces => ?_, fun angles => ?_, fun letter => ?_⟩
  · have before := sublist_of_sublist_rewriteFrom (marks (by decide) (by decide)) braces
    exact not_sublist_rewriteFrom (by decide) (by decide) (by decide) absent
      (sublist_of_sublist_rewriteFrom (marks (by decide) (by decide)) before)
  · have before := sublist_of_sublist_rewriteFrom (marks (by decide) (by decide)) angles
    exact not_sublist_rewriteFrom (by decide) (by decide) (by decide) (kept absent) before
  · exact not_sublist_rewriteFrom_colonSize (kept (kept absent)) letter

/-- The parameters of a route collapse part by part. -/
theorem collapse_intercalate {parts : List Str} (absent : ∀ part ∈ parts, '/' ∉ part) :
    collapse (['/'].intercalate parts) = ['/'].intercalate (parts.map collapse) := by
  have braces := withinParts_bracketSize (show '{' ≠ '/' by decide) (show '}' ≠ '/' by decide)
  have angles := withinParts_bracketSize (show '<' ≠ '/' by decide) (show '>' ≠ '/' by decide)
  have kept : ∀ {size : Str → Nat} {parts : List Str}, (∀ part ∈ parts, '/' ∉ part) →
      ∀ part ∈ parts.map (rewriteFrom size ['*'] 0), '/' ∉ part := by
    intro size parts outside part listed inside
    obtain ⟨own, member, rfl⟩ := List.mem_map.mp listed
    rcases mem_of_mem_rewriteFrom inside with mark | held
    · exact absurd (List.mem_singleton.mp mark) (by decide)
    · exact outside own member held
  rw [collapse, collapseBrackets, braces.rewriteFrom_intercalate absent,
    angles.rewriteFrom_intercalate (kept absent),
    withinParts_colonSize.rewriteFrom_intercalate (kept (kept absent)), List.map_map, List.map_map]
  rfl

/-- Nothing is left to collapse in a collapsed text. -/
theorem settled_collapse (text : Str) : Settled (collapse text) := by
  have parts : ∀ part ∈ splitBy '/' text, '/' ∉ part := fun part listed =>
    not_mem_of_mem_splitBy listed
  rw [← @intercalate_splitBy _ _ '/' text, collapse_intercalate parts]
  intro part absent inside
  by_cases empty : part = []
  · subst empty
    exact ⟨by simp, by simp, by simp⟩
  · obtain ⟨piece, listed, within⟩ := (infix_intercalate_iff absent empty).mp inside
    obtain ⟨own, member, rfl⟩ := List.mem_map.mp listed
    exact (plain_collapse (parts own member)).sublist within.sublist

end Collapsing

section Trimming

/-- A letter that is trimmed from the ends of a route: white space or a quote. -/
def isEdge (letter : Char) : Bool :=
  inRanges spaceRanges letter || (letter.toNat == 39 || letter.toNat == 34)

/-- Whether a text ends in white space or a quote. -/
def endsRough (text : Str) : Bool := text.getLast?.any isEdge

/-- A text cut at its last slash ends as what stands behind it. -/
theorem endsRough_append_slash (front behind : Str) :
    endsRough (front ++ '/' :: behind) = endsRough behind := by
  rw [endsRough, endsRough, List.getLast?_append_cons, List.getLast?_cons]
  cases behind.getLast? with
  | none => decide
  | some letter => rfl

theorem endsRough_cons_slash (behind : Str) : endsRough ('/' :: behind) = endsRough behind :=
  endsRough_append_slash [] behind

/-- Whether a text ends rough is left alone by collapsing brackets. -/
theorem endsRough_rewriteFrom {opening closing : Char} (smooth : isEdge closing = false)
    (word : Str) :
    endsRough (rewriteFrom (bracketSize opening closing) ['*'] 0 word) = endsRough word := by
  cases rough : endsRough word with
  | false =>
      rw [endsRough] at rough ⊢
      rcases getLast?_rewriteFrom (bracketSize opening closing) '*' word with same | marked
      · rw [same, rough]
      · rw [marked]
        decide
  | true =>
      -- A match that reached the end would end in a bracket.
      rw [endsRough, getLast?_rewriteFrom_of_lt, ← rough, endsRough]
      intro suffix inside filled
      by_contra long
      cases suffix with
      | nil => exact filled rfl
      | cons head rest =>
          have found : bracketSize opening closing (head :: rest) ≠ 0 := fun none =>
            long (by rw [none]; exact Nat.succ_pos rest.length)
          obtain ⟨rfl, inner, behind, rfl, -, size⟩ := exists_of_bracketSize found
          rw [size, List.length_cons, List.length_append, List.length_cons] at long
          have last : behind = [] := List.length_eq_zero_iff.mp (by omega)
          obtain ⟨front, rfl⟩ := inside
          rw [last, endsRough, List.getLast?_append_cons, ← List.cons_append,
            List.getLast?_concat] at rough
          exact Bool.false_ne_true (smooth.symm.trans rough)

/-- A collapsed segment ends rough when the segment does, unless a colon that stands
outside of brackets takes its end. -/
theorem endsRough_collapse_part {part : Str} (absent : '/' ∉ part) :
    endsRough (collapse part) = (endsRough part && decide (':' ∉ collapseBrackets part)) := by
  have brackets : endsRough (collapseBrackets part) = endsRough part := by
    rw [collapseBrackets, endsRough_rewriteFrom (by decide), endsRough_rewriteFrom (by decide)]
  have kept : '/' ∉ collapseBrackets part := by
    intro inside
    rcases mem_of_mem_rewriteFrom inside with mark | before
    · exact absurd (List.mem_singleton.mp mark) (by decide)
    · rcases mem_of_mem_rewriteFrom before with mark | listed
      · exact absurd (List.mem_singleton.mp mark) (by decide)
      · exact absent listed
  by_cases colon : ':' ∈ collapseBrackets part
  · rw [decide_eq_false (not_not_intro colon), Bool.and_false, collapse]
    obtain ⟨front, behind, split, first⟩ := List.eq_append_cons_of_mem colon
    rw [split] at kept ⊢
    rw [rewriteFrom_colonSize first fun inside =>
      kept (List.mem_append_right _ (List.mem_cons_of_mem ':' inside)), endsRough,
      List.getLast?_concat]
    split <;> decide
  · rw [decide_eq_true colon, Bool.and_true, ← brackets, collapse, rewriteFrom_eq_self]
    intro suffix inside
    cases suffix with
    | nil => rfl
    | cons head rest =>
        have other : head ≠ ':' := fun same =>
          colon (same ▸ inside.subset List.mem_cons_self)
        exact colonSize_of_ne other rest

/-- A collapsed text ends as its last segment does. -/
theorem endsRough_collapse (text : Str) :
    endsRough (collapse text) =
      (endsRough text && decide (':' ∉ collapseBrackets (afterLast '/' text))) := by
  cases cut : rpartition '/' text with
  | none =>
      have absent := rpartition_eq_none.mp cut
      rw [afterLast_of_not_mem absent, endsRough_collapse_part absent]
  | some parts =>
      obtain ⟨front, behind⟩ := parts
      obtain ⟨rfl, absent⟩ := rpartition_eq_some.mp cut
      have braces := withinParts_bracketSize (show '{' ≠ '/' by decide) (show '}' ≠ '/' by decide)
      have angles := withinParts_bracketSize (show '<' ≠ '/' by decide) (show '>' ≠ '/' by decide)
      have split : collapse (front ++ '/' :: behind) =
          collapse front ++ '/' :: collapse behind := by
        rw [collapse, collapseBrackets, braces.rewriteFrom_append_cons,
          angles.rewriteFrom_append_cons, withinParts_colonSize.rewriteFrom_append_cons]
        rfl
      rw [split, endsRough_append_slash, endsRough_append_slash, afterLast_append_cons absent,
        endsRough_collapse_part absent]

/-- Dropping the slashes at the end and collapsing commute. -/
theorem rdropWhile_collapse (text : Str) :
    (collapse text).rdropWhile (· == '/') = collapse (text.rdropWhile (· == '/')) := by
  have braces := withinParts_bracketSize (show '{' ≠ '/' by decide) (show '}' ≠ '/' by decide)
  have angles := withinParts_bracketSize (show '<' ≠ '/' by decide) (show '>' ≠ '/' by decide)
  have other : '*' ≠ '/' := by decide
  rw [collapse, collapseBrackets, withinParts_colonSize.rdropWhile_rewriteFrom other,
    angles.rdropWhile_rewriteFrom other, braces.rdropWhile_rewriteFrom other]
  rfl

end Trimming

section Normalizing

variable {test : Char → Bool} {head : Char}

/-- Stripping goes on at the end alone where the first letter stays. -/
theorem stripWhile_cons (plain : test head = false) (rest : Str) :
    stripWhile test (head :: rest) = (head :: rest).rdropWhile test := by
  rw [stripWhile, List.dropWhile_cons, plain, if_neg Bool.false_ne_true]
  rfl

theorem exists_rdropWhile_cons (plain : test head = false) (rest : Str) :
    ∃ kept, (head :: rest).rdropWhile test = head :: kept ∧ kept <+: rest := by
  have part := List.rdropWhile_prefix test (head :: rest)
  cases left : (head :: rest).rdropWhile test with
  | nil =>
      have dropped := List.rdropWhile_eq_nil_iff.mp left head List.mem_cons_self
      exact absurd (plain.symm.trans dropped) Bool.false_ne_true
  | cons first kept =>
      rw [left] at part
      obtain ⟨same, within⟩ := List.cons_prefix_cons.mp part
      exact ⟨kept, by rw [same], within⟩

/-- Nothing is dropped exactly where the last letter stays. -/
theorem rdropWhile_eq_self_iff (word : Str) :
    word.rdropWhile test = word ↔ word.getLast?.any test = false := by
  rw [List.rdropWhile_eq_self_iff]
  cases last : word.getLast? with
  | none =>
      rw [List.getLast?_eq_none_iff] at last
      subst last
      exact iff_of_true (fun filled => absurd rfl filled) rfl
  | some letter =>
      obtain ⟨front, rfl⟩ := List.getLast?_eq_some_iff.mp last
      simp only [List.getLast_append_singleton, Option.any_some, Bool.not_eq_true]
      have filled := List.append_ne_nil_of_right_ne_nil front (List.cons_ne_nil letter [])
      exact ⟨fun kept => kept filled, fun kept _ => kept⟩

/-- What is trimmed from a route that begins with a slash stands at its end. -/
theorem unquote_cons_slash (rest : Str) :
    ∃ kept, unquote ('/' :: rest) = '/' :: kept ∧ kept <+: rest ∧
      (kept = rest ↔ endsRough ('/' :: rest) = false) := by
  obtain ⟨spaced, bare, first⟩ :=
    exists_rdropWhile_cons (show inRanges spaceRanges '/' = false by decide) rest
  obtain ⟨kept, quoted, second⟩ := @exists_rdropWhile_cons
    (fun letter => letter.toNat == 39 || letter.toNat == 34) '/' (by decide) spaced
  refine ⟨kept, ?_, second.trans first, ?_⟩
  · rw [unquote, strip, stripWhile_cons (by decide), bare, stripWhile_cons (by decide), quoted]
  · have parts : endsRough ('/' :: rest) = false ↔
        ('/' :: rest).rdropWhile (inRanges spaceRanges) = '/' :: rest ∧
          ('/' :: rest).rdropWhile (fun letter => letter.toNat == 39 || letter.toNat == 34) =
            '/' :: rest := by
      rw [rdropWhile_eq_self_iff, rdropWhile_eq_self_iff, endsRough]
      cases ('/' :: rest).getLast? with
      | none => exact iff_of_true rfl ⟨rfl, rfl⟩
      | some letter => exact Bool.or_eq_false_iff
    rw [parts, bare]
    constructor
    · rintro rfl
      obtain rfl := first.eq_of_length_le second.length_le
      exact ⟨rfl, quoted⟩
    · rintro ⟨same, unchanged⟩
      rw [List.cons.injEq] at same
      rw [same.2, unchanged, List.cons.injEq] at quoted
      exact quoted.2.symm

/-- A collapsed route made to begin with a slash. -/
def root (collapsed : Str) : Str :=
  if collapsed.head? = some '/' then collapsed else '/' :: collapsed

/-- A route without the slashes at its end. -/
def dropSlashes (rooted : Str) : Str :=
  if 1 < rooted.length ∧ rooted.getLast? = some '/' then rooted.rdropWhile (· == '/') else rooted

/-- A route with a text is unquoted, collapsed, rooted and freed of its last slashes. -/
theorem normalizeRoute_eq {route : Str} (filled : unquote route ≠ []) :
    normalizeRoute route = dropSlashes (root (collapse (unquote route))) :=
  if_neg filled

theorem isPrefix_dropSlashes (rooted : Str) : dropSlashes rooted <+: rooted := by
  rw [dropSlashes]
  split
  · exact List.rdropWhile_prefix _ rooted
  · exact List.prefix_rfl

/-- The slashes at the end are dropped once. -/
theorem dropSlashes_dropSlashes (rooted : Str) :
    dropSlashes (dropSlashes rooted) = dropSlashes rooted := by
  by_cases slashes : 1 < rooted.length ∧ rooted.getLast? = some '/'
  · rw [show dropSlashes rooted = rooted.rdropWhile (· == '/') from if_pos slashes]
    refine if_neg fun again => ?_
    have kept := (rdropWhile_eq_self_iff (rooted.rdropWhile (· == '/'))).mp
      (List.rdropWhile_idempotent _ rooted)
    rw [again.2] at kept
    exact absurd kept (by decide)
  · rw [show dropSlashes rooted = rooted from if_neg slashes]
    exact if_neg slashes

theorem endsRough_dropSlashes (rooted : Str) :
    endsRough (dropSlashes rooted) = endsRough (rooted.rdropWhile (· == '/')) := by
  rw [dropSlashes]
  split
  · rfl
  · next whole =>
      by_cases slash : rooted.getLast? = some '/'
      · have short : rooted.length ≤ 1 := Nat.le_of_not_lt fun long => whole ⟨long, slash⟩
        cases rooted with
        | nil => rfl
        | cons letter rest =>
            have none : rest = [] := List.length_eq_zero_iff.mp (by simpa using short)
            subst none
            obtain rfl := Option.some.inj slash
            decide
      · rw [(rdropWhile_eq_self_iff rooted).mpr]
        cases last : rooted.getLast? with
        | none => rfl
        | some letter =>
            exact beq_eq_false_iff_ne.mpr fun same => slash (last.trans (congrArg some same))

/-- Rooting a route does not change how it ends. -/
theorem endsRough_root (collapsed : Str) :
    endsRough ((root collapsed).rdropWhile (· == '/')) =
      endsRough (collapsed.rdropWhile (· == '/')) := by
  rw [root]
  split
  · rfl
  · clear * -
    induction collapsed using List.reverseRecOn with
    | nil => decide
    | append_singleton front letter ih =>
        rw [← List.cons_append]
        by_cases same : letter = '/'
        · subst same
          rw [List.rdropWhile_concat_pos (· == '/') _ '/' rfl,
            List.rdropWhile_concat_pos (· == '/') _ '/' rfl, ih]
        · have other : ¬ (letter == '/') = true := fun equal => same (beq_iff_eq.mp equal)
          rw [List.rdropWhile_concat_neg (· == '/') _ letter other,
            List.rdropWhile_concat_neg (· == '/') _ letter other, List.cons_append,
            endsRough_cons_slash]

end Normalizing

section NormalForm

variable (route : Str)

/-- A route that, trimmed of white space and of quotes and then of its trailing slashes,
ends in white space or a quote again, without a colon outside of brackets in its last
segment. -/
def RoughEnd : Prop :=
  let bare := (unquote route).rdropWhile (· == '/')
  endsRough bare = true ∧ ':' ∉ collapseBrackets (afterLast '/' bare)

instance : Decidable (RoughEnd route) := inferInstanceAs (Decidable (_ ∧ _))

/-- The normal form ends rough where the route has a rough end. -/
theorem endsRough_normalizeRoute :
    endsRough (normalizeRoute route) = true ↔ RoughEnd route := by
  have ends : endsRough (normalizeRoute route) =
      endsRough ((collapse (unquote route)).rdropWhile (· == '/')) := by
    by_cases filled : unquote route = []
    · rw [normalizeRoute, if_pos filled, filled]
      decide
    · rw [normalizeRoute_eq filled, endsRough_dropSlashes, endsRough_root]
  rw [ends, rdropWhile_collapse, endsRough_collapse, Bool.and_eq_true, decide_eq_true_eq, RoughEnd]

/-- A normal form is empty, or it begins with a slash and nothing is left to collapse or to
drop in it. -/
theorem normalizeRoute_shape :
    normalizeRoute route = [] ∨ ∃ rest, normalizeRoute route = '/' :: rest ∧
      Settled ('/' :: rest) ∧ dropSlashes ('/' :: rest) = '/' :: rest := by
  by_cases filled : unquote route = []
  · exact .inl (if_pos filled)
  · rw [normalizeRoute_eq filled]
    have settled : Settled (root (collapse (unquote route))) := by
      rw [root]
      split
      · exact settled_collapse _
      · exact (settled_collapse _).cons_slash
    have slash : ∃ rest, root (collapse (unquote route)) = '/' :: rest := by
      rw [root]
      split
      · next own => exact List.head?_eq_some_iff.mp own
      · exact ⟨_, rfl⟩
    obtain ⟨behind, rooted⟩ := slash
    rw [rooted] at settled ⊢
    have part := isPrefix_dropSlashes ('/' :: behind)
    have fixed := dropSlashes_dropSlashes ('/' :: behind)
    cases kept : dropSlashes ('/' :: behind) with
    | nil => exact .inl rfl
    | cons first rest =>
        rw [kept] at part fixed
        obtain ⟨rfl, -⟩ := List.cons_prefix_cons.mp part
        exact .inr ⟨rest, rfl, settled.of_infix part.isInfix, fixed⟩

/-- A normal form stays the same when it does not end rough. -/
theorem normalizeRoute_eq_self_iff {rest : Str} (settled : Settled ('/' :: rest))
    (whole : dropSlashes ('/' :: rest) = '/' :: rest) :
    normalizeRoute ('/' :: rest) = '/' :: rest ↔ endsRough ('/' :: rest) = false := by
  obtain ⟨kept, bare, part, smooth⟩ := unquote_cons_slash rest
  have filled : unquote ('/' :: rest) ≠ [] := fun none =>
    List.cons_ne_nil _ _ (bare.symm.trans none)
  have inside : '/' :: kept <+: '/' :: rest := List.cons_prefix_cons.mpr ⟨rfl, part⟩
  rw [normalizeRoute_eq filled, bare, (settled.of_infix inside.isInfix).collapse_eq,
    show root ('/' :: kept) = '/' :: kept from if_pos rfl, ← smooth]
  constructor
  · intro same
    have shorter := (isPrefix_dropSlashes ('/' :: kept)).length_le
    rw [same, List.length_cons, List.length_cons] at shorter
    exact part.eq_of_length_le (Nat.le_of_succ_le_succ shorter)
  · rintro rfl
    exact whole

/-- **Idempotence.** Normalizing twice is normalizing once except at a rough end. -/
theorem normalizeRoute_normalizeRoute_iff :
    normalizeRoute (normalizeRoute route) = normalizeRoute route ↔ ¬ RoughEnd route := by
  rw [← endsRough_normalizeRoute, Bool.not_eq_true]
  rcases normalizeRoute_shape route with none | ⟨rest, shape, settled, whole⟩
  · rw [none]
    decide
  · rw [shape]
    exact normalizeRoute_eq_self_iff settled whole

/-- `emit_endpoint`, with the rows of the annotation. -/
def emitEndpoint (makeId : Str → Str → Str → NodeId) (repo relpath : Str) (rows : Int × Int)
    (method : Str) : Node where
  id := endpointId makeId repo method route []
  label := .endpoint
  name := endpointDisplay method route []
  fqn := endpointFqn method route []
  repo := repo
  kind := .endpoint
  lang := .java
  file := relpath
  startLine := rows.1 + 1
  endLine := rows.2 + 1
  method := upper method
  route := normalizeRoute route
  extractor := "tree-sitter"

theorem toUpper_of_lower {letter : Char}
    (lower : 'a'.val ≤ letter.val ∧ letter.val ≤ 'z'.val) : ¬ 'a'.val ≤ letter.toUpper.val := by
  have raised : letter.toUpper = _ := dif_pos lower
  rw [raised]
  obtain ⟨low, high⟩ := lower
  grind

theorem toUpper_toUpper (letter : Char) : letter.toUpper.toUpper = letter.toUpper := by
  by_cases lower : 'a'.val ≤ letter.val ∧ letter.val ≤ 'z'.val
  · exact dif_neg fun again => toUpper_of_lower lower again.1
  · have same : letter.toUpper = letter := dif_neg lower
    rw [same, same]

/-- A text in upper case stays as it is. -/
theorem upper_upper (text : Str) : upper (upper text) = upper text := by
  rw [upper, upper, List.map_map]
  exact List.map_congr_left fun letter _ => toUpper_toUpper letter

/-- The verb of a method does not depend on its case. -/
theorem verbOf_upper (method : Str) : verbOf (upper method) = verbOf method := by
  rw [verbOf, verbOf]
  by_cases none : method = []
  · subst none
    rfl
  · have filled : upper method ≠ [] := fun empty => none (List.map_eq_nil_iff.mp empty)
    rw [if_neg filled, if_neg none, upper_upper]

/-- The normal form of a route is one: it stays the same, it is empty or begins with a
slash, and wherever an endpoint is declared with the route, a call of the same verb and
route finds it. -/
structure NormalForm : Prop where
  idempotent : normalizeRoute (normalizeRoute route) = normalizeRoute route
  rooted : normalizeRoute route = [] ∨ (normalizeRoute route).head? = some '/'
  found : ∀ makeId repo relpath rows method nodes,
    emitEndpoint route makeId repo relpath rows method ∈ nodes →
      ∀ ref : RawRef, ref.httpMethod = method → ref.targetName = route →
        emitEndpoint route makeId repo relpath rows method ∈
          (endpointIndex nodes).lookup (refVerb ref) (normalizeRoute ref.targetName)

/-- **Route normal form.** Routes have a normal form exactly when they do not end rough. -/
theorem normalForm_iff : NormalForm route ↔ ¬ RoughEnd route := by
  rw [← normalizeRoute_normalizeRoute_iff]
  refine ⟨NormalForm.idempotent, fun same => ⟨same, ?_, ?_⟩⟩
  · rcases normalizeRoute_shape route with none | ⟨rest, shape, -, -⟩
    · exact .inl none
    · exact .inr (by rw [shape, List.head?_cons])
  · intro makeId repo relpath rows method nodes listed ref verb target
    rw [lookup_eq, matchEndpoints_eq, target, refVerb, verb]
    have own : emitEndpoint route makeId repo relpath rows method ∈
        exactHits nodes (verbOf method) (normalizeRoute route) :=
      mem_exactHits.mpr ⟨⟨listed, rfl⟩, verbOf_upper method, same⟩
    rwa [if_pos (List.ne_nil_of_mem own)]

/-- A blank in front of the trailing slash. -/
theorem blank_before_slash_is_left : ¬ NormalForm "/users /".toList := by
  intro normal
  exact absurd normal.idempotent (by decide +kernel)

end NormalForm

end GraphIngest.Resolve
