import GraphIngest.Foundation.Joining
import GraphIngest.Ingest.Discovery
import Mathlib.Data.List.Forall2

/-! # The namespace of a source file

The fqn of everything a script or a page declares begins with a name made of the
path of its file. Scripts drop the extension and some segments, pages replace
what no identifier may hold. Which paths get one name is read off the paths
themselves, segment by segment and letter by letter.
-/

namespace GraphIngest.Ingest

open Foundation Text Graph

section Scripts

/-- The path of `os.path.splitext`. -/
def withoutExtension (path : Str) : Str := path.take (path.length - (extension path).length)

/-- The segments of a path that a module name is made of. -/
def moduleParts (skipped path : Str) : List Str :=
  (splitBy '/' (withoutExtension path)).filter fun part => part ≠ [] && part ≠ skipped

/-- `_module_fqn` of the Python extractor. -/
def pythonModuleFqn (path : Str) : Str := ['.'].intercalate (moduleParts "__init__" path)

/-- `_module_fqn` of the JavaScript extractor: a path of index files alone keeps
the last. -/
def javascriptModuleFqn (path : Str) : Str :=
  let fqn := ['.'].intercalate (moduleParts "index" path)
  if fqn = [] then withoutExtension (afterLast '/' path) else fqn

end Scripts

section Pages

/-- An ASCII digit. -/
def isAsciiDigit (letter : Char) : Bool := '0' ≤ letter && letter ≤ '9'

/-- An ASCII letter or digit. -/
def isPlain (letter : Char) : Bool :=
  isAsciiDigit letter || ('A' ≤ letter && letter ≤ 'Z') || ('a' ≤ letter && letter ≤ 'z')

/-- `_IDENT_SAFE_RE` replaces what is neither plain nor an underscore. -/
def safeLetter (letter : Char) : Char := if isPlain letter || letter = '_' then letter else '_'

/-- An underscore in front of a leading digit; nothing but ASCII is left here. -/
def escapeDigit : Str → Str
  | [] => []
  | letter :: rest => if isAsciiDigit letter then '_' :: letter :: rest else letter :: rest

/-- The directories of a page that its package is made of; empty segments fall
out, so trailing slashes need not be stripped first. -/
def packageParts (path : Str) : List Str :=
  match rpartition '/' (replaceLetter (Char.ofNat 92) '/' path) with
  | none => []
  | some (directory, _) =>
      (splitBy '/' directory).filter fun part => part ≠ [] && part ≠ ['.'] && part ≠ ['.', '.']

/-- The basename of a page without its extension. -/
def pageStem (path : Str) : Str :=
  withoutExtension (afterLast '/' (replaceLetter (Char.ofNat 92) '/' path))

/-- `_class_identity`: package and class of a page. -/
def classIdentity (path : Str) : Str × Str :=
  (['.'].intercalate ((packageParts path).map fun part => escapeDigit (part.map safeLetter)),
    escapeDigit ((pageStem path).map safeLetter ++ "_jsp".toList))

/-- The fqn of the class of a page. -/
def pageFqn (path : Str) : Str :=
  if (classIdentity path).1 = [] then (classIdentity path).2
  else (classIdentity path).1 ++ '.' :: (classIdentity path).2

end Pages

/-- The name that the fqns of a file begin with, by its language. -/
def namespaceOf (path : Str) : Option Str :=
  match sourceLang path with
  | some .python => some (pythonModuleFqn path)
  | some .javascript | some .typescript | some .tsx => some (javascriptModuleFqn path)
  | some .jsp => some (pageFqn path)
  | _ => none

section Letters

/-- Letters a page name does not tell apart. -/
def Folded (letter other : Char) : Prop :=
  letter = other ∨ isPlain letter = false ∧ isPlain other = false

/-- Whether a segment begins with a digit. -/
def DigitLed (segment : Str) : Prop := ∃ letter rest, segment = letter :: rest ∧
  isAsciiDigit letter = true

/-- A segment that begins with a digit, and another that has in front of it
what becomes the underscore the digit gets. -/
def EscapedAs (segment other : Str) : Prop :=
  DigitLed segment ∧ ∃ letter rest, other = letter :: rest ∧ isPlain letter = false ∧
    List.Forall₂ Folded segment rest

/-- Segments a page name does not tell apart. -/
def SameSegment (segment other : Str) : Prop :=
  List.Forall₂ Folded segment other ∨ EscapedAs segment other ∨ EscapedAs other segment

/-- A letter of a name stands for a letter of a page's path. -/
def Stands (letter written : Char) : Prop :=
  if isPlain written then letter = written else letter = '_'

/-- A name spells a segment of a page's path. -/
def Spells (name segment : Str) : Prop :=
  ¬ DigitLed segment ∧ List.Forall₂ Stands name segment ∨
    DigitLed segment ∧ ∃ rest, name = '_' :: rest ∧ List.Forall₂ Stands rest segment

theorem safeLetter_of_plain {letter : Char} (plain : isPlain letter = true) :
    safeLetter letter = letter := by
  rw [safeLetter, plain, Bool.true_or, if_pos rfl]

theorem safeLetter_of_not_plain {letter : Char} (folded : isPlain letter = false) :
    safeLetter letter = '_' := by
  unfold safeLetter
  split
  · next safe =>
      rw [folded, Bool.false_or, decide_eq_true_eq] at safe
      exact safe
  · rfl

/-- Two letters are written alike where they are folded together. -/
theorem safeLetter_eq_iff {letter other : Char} :
    safeLetter letter = safeLetter other ↔ Folded letter other := by
  have under : isPlain '_' = false := by decide
  unfold Folded
  cases plain : isPlain letter with
  | true =>
      cases plainToo : isPlain other with
      | true =>
          rw [safeLetter_of_plain plain, safeLetter_of_plain plainToo]
          exact ⟨Or.inl, fun same => same.resolve_right fun folded => Bool.noConfusion folded.1⟩
      | false =>
          rw [safeLetter_of_plain plain, safeLetter_of_not_plain plainToo]
          constructor
          · intro same
            rw [same, under] at plain
            cases plain
          · intro same
            cases same with
            | inl same =>
                rw [same, plainToo] at plain
                cases plain
            | inr folded => cases folded.1
  | false =>
      cases plainToo : isPlain other with
      | true =>
          rw [safeLetter_of_not_plain plain, safeLetter_of_plain plainToo]
          constructor
          · intro same
            rw [← same, under] at plainToo
            cases plainToo
          · intro same
            cases same with
            | inl same =>
                rw [same, plainToo] at plain
                cases plain
            | inr folded => cases folded.2
      | false =>
          rw [safeLetter_of_not_plain plain, safeLetter_of_not_plain plainToo]
          exact iff_of_true rfl (Or.inr ⟨rfl, rfl⟩)

theorem eq_safeLetter_iff {letter written : Char} :
    letter = safeLetter written ↔ Stands letter written := by
  unfold Stands
  cases plain : isPlain written with
  | true => rw [safeLetter_of_plain plain, if_pos rfl]
  | false => rw [safeLetter_of_not_plain plain, if_neg Bool.false_ne_true]

/-- Two segments are written alike letter by letter. -/
theorem map_safeLetter_eq_iff {segment other : Str} :
    segment.map safeLetter = other.map safeLetter ↔ List.Forall₂ Folded segment other := by
  rw [← List.forall₂_eq_eq_eq, List.forall₂_map_left_iff, List.forall₂_map_right_iff]
  simp only [safeLetter_eq_iff]

theorem eq_map_safeLetter_iff {name segment : Str} :
    name = segment.map safeLetter ↔ List.Forall₂ Stands name segment := by
  rw [← List.forall₂_eq_eq_eq, List.forall₂_map_right_iff]
  simp only [eq_safeLetter_iff]

end Letters

section Segments

/-- Folding keeps digits and makes none. -/
theorem isAsciiDigit_safeLetter (letter : Char) :
    isAsciiDigit (safeLetter letter) = isAsciiDigit letter := by
  cases plain : isPlain letter with
  | true => rw [safeLetter_of_plain plain]
  | false =>
      have digitless : isAsciiDigit letter = false := by
        unfold isPlain at plain
        rw [Bool.or_eq_false_iff, Bool.or_eq_false_iff] at plain
        exact plain.1.1
      rw [safeLetter_of_not_plain plain, digitless]
      decide

/-- A segment with a digit in front is escaped. -/
theorem escapeDigit_of_digitLed {segment : Str} (led : DigitLed segment) :
    escapeDigit (segment.map safeLetter) = '_' :: segment.map safeLetter := by
  obtain ⟨letter, rest, rfl, digit⟩ := led
  rw [List.map_cons, escapeDigit, isAsciiDigit_safeLetter, digit, if_pos rfl]

theorem escapeDigit_of_not_digitLed {segment : Str} (unled : ¬ DigitLed segment) :
    escapeDigit (segment.map safeLetter) = segment.map safeLetter := by
  cases segment with
  | nil => rfl
  | cons letter rest =>
      have digitless : ¬ isAsciiDigit letter = true := fun digit =>
        unled ⟨letter, rest, rfl, digit⟩
      rw [List.map_cons, escapeDigit, isAsciiDigit_safeLetter, if_neg digitless]

/-- Segments of one spelling begin alike. -/
theorem digitLed_of_folded {segment other : Str} (folded : List.Forall₂ Folded segment other)
    (led : DigitLed segment) : DigitLed other := by
  obtain ⟨letter, rest, rfl, digit⟩ := led
  cases folded with
  | cons same others =>
      refine ⟨_, _, rfl, ?_⟩
      rw [← isAsciiDigit_safeLetter, ← safeLetter_eq_iff.mpr same, isAsciiDigit_safeLetter]
      exact digit

/-- An escaped segment and one that is not are the same when an underscore, or
what becomes one, stands where the digit gets its own. -/
theorem cons_map_safeLetter_eq_iff {segment other : Str} :
    '_' :: segment.map safeLetter = other.map safeLetter ↔
      ∃ letter rest, other = letter :: rest ∧ isPlain letter = false ∧
        List.Forall₂ Folded segment rest := by
  cases other with
  | nil =>
      refine iff_of_false (List.cons_ne_nil _ _) ?_
      exact fun ⟨_, _, impossible, _⟩ => (List.cons_ne_nil _ _ impossible.symm).elim
  | cons letter rest =>
      have under : '_' = safeLetter letter ↔ isPlain letter = false := by
        cases plain : isPlain letter with
        | false => exact iff_of_true (safeLetter_of_not_plain plain).symm rfl
        | true =>
            rw [safeLetter_of_plain plain]
            refine iff_of_false (fun same => ?_) Bool.true_eq_false.mp
            rw [← same] at plain
            revert plain
            decide
      rw [List.map_cons, List.cons.injEq, map_safeLetter_eq_iff, under]
      constructor
      · exact fun ⟨folded, same⟩ => ⟨letter, rest, rfl, folded, same⟩
      · intro ⟨first, others, whole, folded, same⟩
        obtain ⟨rfl, rfl⟩ := List.cons.inj whole
        exact ⟨folded, same⟩

/-- What is the escape of another segment has no digit in front. -/
theorem not_digitLed_of_escapedAs {segment other : Str} (escaped : EscapedAs segment other) :
    ¬ DigitLed other := by
  obtain ⟨_, letter, rest, rfl, folded, _⟩ := escaped
  intro ⟨first, others, whole, digit⟩
  obtain ⟨rfl, rfl⟩ := List.cons.inj whole
  unfold isPlain at folded
  rw [digit, Bool.true_or, Bool.true_or] at folded
  cases folded

/-- Two segments get one name where they are the same segment or one is the escape of the other. -/
theorem escapeDigit_eq_iff {segment other : Str} :
    escapeDigit (segment.map safeLetter) = escapeDigit (other.map safeLetter) ↔
      SameSegment segment other := by
  unfold SameSegment
  by_cases led : DigitLed segment
  · have unescaped : ¬ EscapedAs other segment := fun escaped =>
      not_digitLed_of_escapedAs escaped led
    by_cases ledToo : DigitLed other
    · have plain : ¬ EscapedAs segment other := fun escaped =>
        not_digitLed_of_escapedAs escaped ledToo
      rw [escapeDigit_of_digitLed led, escapeDigit_of_digitLed ledToo, List.cons.injEq,
        map_safeLetter_eq_iff, or_iff_left (not_or.mpr ⟨plain, unescaped⟩),
        and_iff_right rfl]
    · have apart : ¬ List.Forall₂ Folded segment other := fun folded =>
        ledToo (digitLed_of_folded folded led)
      rw [escapeDigit_of_digitLed led, escapeDigit_of_not_digitLed ledToo,
        cons_map_safeLetter_eq_iff, or_iff_right apart, or_iff_left unescaped, EscapedAs,
        and_iff_right led]
  · have unescaped : ¬ EscapedAs segment other := fun escaped => led escaped.1
    by_cases ledToo : DigitLed other
    · have apart : ¬ List.Forall₂ Folded segment other := by
        intro folded
        rw [← map_safeLetter_eq_iff] at folded
        exact led (digitLed_of_folded (map_safeLetter_eq_iff.mp folded.symm) ledToo)
      rw [escapeDigit_of_not_digitLed led, escapeDigit_of_digitLed ledToo, eq_comm,
        cons_map_safeLetter_eq_iff, or_iff_right apart, or_iff_right unescaped, EscapedAs,
        and_iff_right ledToo]
    · have plain : ¬ EscapedAs other segment := fun escaped => ledToo escaped.1
      rw [escapeDigit_of_not_digitLed led, escapeDigit_of_not_digitLed ledToo,
        map_safeLetter_eq_iff, or_iff_left (not_or.mpr ⟨unescaped, plain⟩)]

theorem eq_escapeDigit_iff {name segment : Str} :
    name = escapeDigit (segment.map safeLetter) ↔ Spells name segment := by
  unfold Spells
  by_cases led : DigitLed segment
  · rw [escapeDigit_of_digitLed led, or_iff_right fun spelled => spelled.1 led,
      and_iff_right led]
    constructor
    · exact fun same => ⟨_, same, eq_map_safeLetter_iff.mp rfl⟩
    · intro ⟨rest, same, stands⟩
      rw [same, eq_map_safeLetter_iff.mpr stands]
  · rw [escapeDigit_of_not_digitLed led, or_iff_left fun spelled => led spelled.1,
      and_iff_right led, eq_map_safeLetter_iff]

theorem map_escapeDigit_eq_iff {dirs others : List Str} :
    (dirs.map fun part => escapeDigit (part.map safeLetter)) =
        (others.map fun part => escapeDigit (part.map safeLetter)) ↔
      List.Forall₂ SameSegment dirs others := by
  rw [← List.forall₂_eq_eq_eq, List.forall₂_map_left_iff, List.forall₂_map_right_iff]
  simp only [escapeDigit_eq_iff]

/-- Names are those of directories where they spell them one by one. -/
theorem eq_map_escapeDigit_iff {names dirs : List Str} :
    names = (dirs.map fun part => escapeDigit (part.map safeLetter)) ↔
      List.Forall₂ Spells names dirs := by
  rw [← List.forall₂_eq_eq_eq, List.forall₂_map_right_iff]
  simp only [eq_escapeDigit_iff]

/-- The suffix of a page class keeps out of the escape. -/
theorem escapeDigit_suffix (stem : Str) :
    escapeDigit (stem.map safeLetter ++ "_jsp".toList) =
      escapeDigit (stem.map safeLetter) ++ "_jsp".toList := by
  cases stem with
  | nil => rfl
  | cons letter rest =>
      rw [List.map_cons, List.cons_append, escapeDigit, escapeDigit]
      split <;> rfl

/-- A name has no dot, so a dotted name tells its parts. -/
theorem dot_not_mem_escapeDigit (segment : Str) :
    '.' ∉ escapeDigit (segment.map safeLetter) := by
  have safe : '.' ∉ segment.map safeLetter := by
    intro listed
    obtain ⟨letter, _, dot⟩ := List.mem_map.mp listed
    cases plain : isPlain letter with
    | false =>
        rw [safeLetter_of_not_plain plain] at dot
        revert dot
        decide
    | true =>
        rw [safeLetter_of_plain plain] at dot
        rw [dot] at plain
        revert plain
        decide
  by_cases led : DigitLed segment
  · rw [escapeDigit_of_digitLed led, List.mem_cons, not_or]
    exact ⟨by decide, safe⟩
  · rw [escapeDigit_of_not_digitLed led]
    exact safe

end Segments

section Paths

/-- What a path says about the namespace of its file: the names of a module, or
the directories and the stem of a page. -/
inductive Written
  | module (names : List Str)
  | page (dirs : List Str) (stem : Str)

/-- The segments of a script, the stem alone where nothing else is left. -/
def scriptParts (path : Str) : List Str :=
  if moduleParts "index" path = [] then
    [withoutExtension (afterLast '/' path)].filter fun part => part ≠ []
  else moduleParts "index" path

/-- What is written in a path, slashes and dots taken alike in a module. -/
def written (path : Str) : Option Written :=
  match sourceLang path with
  | some .python => some (.module ((moduleParts "__init__" path).flatMap (splitBy '.')))
  | some .javascript | some .typescript | some .tsx =>
      some (.module ((scriptParts path).flatMap (splitBy '.')))
  | some .jsp => some (.page (packageParts path) (pageStem path))
  | _ => none

/-- Two paths that are written differently and name one namespace: modules of
the same names, pages of the same segments, or a module whose names spell the
segments of a page. -/
def Confused : Written → Written → Prop
  | .module names, .module others => names = others
  | .page dirs stem, .page others last =>
      List.Forall₂ SameSegment dirs others ∧ SameSegment stem last
  | .module names, .page dirs stem | .page dirs stem, .module names =>
      ∃ front last, names = front ++ [last ++ "_jsp".toList] ∧
        List.Forall₂ Spells front dirs ∧ Spells last stem

/-- The names a namespace is joined of. -/
def spelled : Written → List Str
  | .module names => names
  | .page dirs stem => (dirs.map fun part => escapeDigit (part.map safeLetter)) ++
      [escapeDigit (stem.map safeLetter) ++ "_jsp".toList]

/-- A module is spelled like a page where its last name ends in `_jsp` behind the stem. -/
theorem spelled_module_eq_page {names dirs : List Str} {stem : Str} :
    names = spelled (.page dirs stem) ↔
      ∃ front last, names = front ++ [last ++ "_jsp".toList] ∧
        List.Forall₂ Spells front dirs ∧ Spells last stem := by
  constructor
  · intro same
    exact ⟨_, _, same, eq_map_escapeDigit_iff.mp rfl, eq_escapeDigit_iff.mp rfl⟩
  · intro ⟨front, last, same, dirsSpelled, stemSpelled⟩
    rw [same, eq_map_escapeDigit_iff.mpr dirsSpelled, eq_escapeDigit_iff.mpr stemSpelled]
    rfl

/-- Two paths are spelled alike exactly where they are confused. -/
theorem spelled_eq_iff (one other : Written) :
    spelled one = spelled other ↔ Confused one other := by
  cases one with
  | module names =>
      cases other with
      | module others => exact Iff.rfl
      | page dirs stem => exact spelled_module_eq_page
  | page dirs stem =>
      cases other with
      | module names => exact eq_comm.trans spelled_module_eq_page
      | page others last =>
          rw [Confused, ← map_escapeDigit_eq_iff, ← escapeDigit_eq_iff]
          constructor
          · intro same
            obtain ⟨front, back⟩ := List.append_inj' same rfl
            exact ⟨front, List.append_cancel_right (List.singleton_inj.mp back)⟩
          · intro ⟨front, back⟩
            rw [spelled, spelled, front, back]

/-- The parts of a module's name are not empty. -/
theorem filled_moduleParts {skipped path : Str} :
    ∀ part ∈ moduleParts skipped path, part ≠ [] := by
  intro part listed
  have kept := (List.mem_filter.mp listed).2
  rw [Bool.and_eq_true, decide_eq_true_eq] at kept
  exact kept.1

theorem filled_scriptParts {path : Str} : ∀ part ∈ scriptParts path, part ≠ [] := by
  intro part listed
  unfold scriptParts at listed
  split at listed
  · exact of_decide_eq_true (List.mem_filter.mp listed).2
  · exact filled_moduleParts part listed

theorem javascriptModuleFqn_eq (path : Str) :
    javascriptModuleFqn path = ['.'].intercalate (scriptParts path) := by
  unfold javascriptModuleFqn scriptParts
  by_cases none : moduleParts "index" path = []
  · rw [if_pos none, none]
    by_cases empty : withoutExtension (afterLast '/' path) = []
    · rw [empty]
      rfl
    · simp only [List.filter_cons, ne_eq, empty, not_false_eq_true, decide_true, ↓reduceIte,
        List.filter_nil, intercalate_singleton]
      rfl
  · rw [if_neg none]
    dsimp only
    rw [if_neg (intercalate_ne_nil none filled_moduleParts)]

/-- The name of a page joins what it is spelled with. -/
theorem pageFqn_eq (path : Str) :
    pageFqn path = ['.'].intercalate (spelled (.page (packageParts path) (pageStem path))) := by
  unfold pageFqn classIdentity spelled
  dsimp only
  rw [escapeDigit_suffix]
  by_cases none : packageParts path = []
  · rw [none]
    exact (intercalate_singleton _).symm
  · have some : ((packageParts path).map fun part => escapeDigit (part.map safeLetter)) ≠ [] := by
      rw [Ne, List.map_eq_nil_iff]
      exact none
    have filled : ∀ part ∈ (packageParts path).map fun part => escapeDigit (part.map safeLetter),
        part ≠ [] := by
      intro part listed
      obtain ⟨segment, kept, rfl⟩ := List.mem_map.mp listed
      have nonempty : segment ≠ [] := by
        unfold packageParts at kept
        split at kept
        · cases kept
        · have test := (List.mem_filter.mp kept).2
          rw [Bool.and_eq_true, Bool.and_eq_true, decide_eq_true_eq] at test
          exact test.1.1
      cases segment with
      | nil => exact (nonempty rfl).elim
      | cons letter rest =>
          rw [List.map_cons, escapeDigit]
          split <;> exact List.cons_ne_nil _ _
    rw [if_neg (intercalate_ne_nil some filled), intercalate_concat some]

/-- The namespace of a path is joined of what is written in it. -/
theorem namespaceOf_eq (path : Str) :
    namespaceOf path = (written path).map fun one => ['.'].intercalate (spelled one) := by
  unfold namespaceOf written
  have python : pythonModuleFqn path = ['.'].intercalate
      ((moduleParts "__init__" path).flatMap (splitBy '.')) :=
    (intercalate_flatMap_splitBy _).symm
  have script : javascriptModuleFqn path = ['.'].intercalate
      ((scriptParts path).flatMap (splitBy '.')) :=
    (javascriptModuleFqn_eq path).trans (intercalate_flatMap_splitBy _).symm
  split
  · exact congrArg some python
  · exact congrArg some script
  · exact congrArg some script
  · exact congrArg some script
  · exact congrArg some (pageFqn_eq path)
  · rfl

/-- What is written in a path can be read off the namespace. -/
theorem spelled_of_written {path : Str} {one : Written} (writes : written path = some one) :
    (∀ name ∈ spelled one, '.' ∉ name) ∧ spelled one ≠ [[]] := by
  have names : ∀ parts : List Str, (∀ part ∈ parts, part ≠ []) →
      (∀ name ∈ parts.flatMap (splitBy '.'), '.' ∉ name) ∧ parts.flatMap (splitBy '.') ≠ [[]] := by
    intro parts filled
    refine ⟨?_, flatMap_splitBy_ne filled⟩
    intro name listed
    obtain ⟨part, _, piece⟩ := List.mem_flatMap.mp listed
    exact not_mem_of_mem_splitBy piece
  have page : ∀ dirs stem, (∀ name ∈ spelled (.page dirs stem), '.' ∉ name) ∧
      spelled (.page dirs stem) ≠ [[]] := by
    intro dirs stem
    constructor
    · intro name listed
      rw [spelled, List.mem_append, List.mem_singleton] at listed
      cases listed with
      | inl dir =>
          obtain ⟨part, _, rfl⟩ := List.mem_map.mp dir
          exact dot_not_mem_escapeDigit part
      | inr last =>
          rw [last, List.mem_append, not_or]
          exact ⟨dot_not_mem_escapeDigit stem, by decide⟩
    · intro empty
      have last := congrArg List.getLast? empty
      rw [spelled, List.getLast?_concat] at last
      have nothing : escapeDigit (stem.map safeLetter) ++ "_jsp".toList = [] :=
        Option.some.inj last
      exact List.append_ne_nil_of_right_ne_nil _ (by decide) nothing
  unfold written at writes
  split at writes
  · rw [← Option.some.inj writes]
    exact names _ filled_moduleParts
  · rw [← Option.some.inj writes]
    exact names _ filled_scriptParts
  · rw [← Option.some.inj writes]
    exact names _ filled_scriptParts
  · rw [← Option.some.inj writes]
    exact names _ filled_scriptParts
  · rw [← Option.some.inj writes]
    exact page _ _
  · cases writes

/-- Two paths that are confused. -/
def Confusable (path other : Str) : Prop :=
  ∃ one, written path = some one ∧ ∃ another, written other = some another ∧
    Confused one another

/-- Two files get one namespace exactly when their paths are confused. -/
theorem namespaceOf_shared_iff (path other : Str) :
    (∃ name, namespaceOf path = some name ∧ namespaceOf other = some name) ↔
      Confusable path other := by
  unfold Confusable
  rw [namespaceOf_eq, namespaceOf_eq]
  cases here : written path with
  | none =>
      refine iff_of_false ?_ ?_
      · exact fun ⟨_, impossible, _⟩ => Option.some_ne_none _ impossible.symm
      · exact fun ⟨_, impossible, _⟩ => Option.some_ne_none _ impossible.symm
  | some one =>
      cases there : written other with
      | none =>
          refine iff_of_false ?_ ?_
          · exact fun ⟨_, _, impossible⟩ => Option.some_ne_none _ impossible.symm
          · exact fun ⟨_, _, _, impossible, _⟩ => Option.some_ne_none _ impossible.symm
      | some another =>
          obtain ⟨free, filled⟩ := spelled_of_written here
          obtain ⟨freeToo, filledToo⟩ := spelled_of_written there
          have read := intercalate_inj free freeToo filled filledToo
          simp only [Option.map_some, Option.some.injEq, exists_eq_left', ← spelled_eq_iff]
          rw [eq_comm, read]

end Paths

end GraphIngest.Ingest
