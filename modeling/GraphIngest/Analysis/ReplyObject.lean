import GraphIngest.Foundation.Cutting
import GraphIngest.Foundation.Json
import GraphIngest.Foundation.Nesting
import GraphIngest.Text

/-! # The object in a reply

A reply of a model without an enforced schema is text around an object. Three pieces
of it are tried in turn: the whole text, what stands in a code fence, and what stands
between the outermost braces. The fence is searched in the whole text, the strings of
the object included, so that a fence in a string is tried before the object itself.
-/

namespace GraphIngest.Analysis

open Foundation Text

section Reader

def openBrace : Char := Char.ofNat 123

def closeBrace : Char := Char.ofNat 125

/-- The brackets and strings of JSON text. -/
def jsonMarks : Delimiters Char where
  closing letter :=
    if letter = '[' then some ']' else if letter = openBrace then some closeBrace else none
  quote := Json.quote
  escape := Json.backslash
  quote_closing := rfl
  escape_ne := by decide
  closed := by
    intro opening close pair
    split at pair
    · cases pair
      decide
    · split at pair
      · cases pair
        decide
      · cases pair

/-- A pair of braces around nested text. -/
def ObjectText (text : Str) : Prop :=
  ∃ body, text = openBrace :: body ++ [closeBrace] ∧ jsonMarks.Nested body

/-- `json.loads`, of which the pass relies on this: what is read as an object is, but for blanks
around it, a pair of braces around nested text. -/
structure JsonReader where
  loads : Str → Option Json
  nested : ∀ text members, loads text = some (.object members) → ObjectText (strip text)

/-- The members of a text that is read as an object. -/
def JsonReader.object (reader : JsonReader) (text : Str) : Option (List (Str × Json)) :=
  match reader.loads text with
  | some (.object members) => some members
  | _ => none

end Reader

section Candidates

/-- Three backticks. -/
def fence : Str := List.replicate 3 (Char.ofNat 96)

def isBlank (letter : Char) : Bool := inRanges spaceRanges letter

/-- The word that may follow an opening fence. -/
def dropWord (text : Str) : Str := if "json".toList.isPrefixOf text then text.drop 4 else text

/-- What follows the brace behind an opening fence at the front of a text. -/
def openedBy (text : Str) : Option Str :=
  if fence.isPrefixOf text then
    match (dropWord (text.drop 3)).dropWhile isBlank with
    | [] => none
    | letter :: inner => if letter = openBrace then some inner else none
  else none

/-- Whether a closing fence follows, but for blanks. -/
def closes (text : Str) : Bool := fence.isPrefixOf (text.dropWhile isBlank)

/-- The shortest text in front of a brace that a closing fence follows. -/
def closedBy : Str → Option Str
  | [] => none
  | letter :: rest =>
      if letter = closeBrace ∧ closes rest = true then some []
      else (closedBy rest).map fun body => letter :: body

/-- What a fence at the front of a text encloses. -/
def fencedHere (text : Str) : Option Str :=
  ((openedBy text).bind closedBy).map fun body => openBrace :: body ++ [closeBrace]

/-- The group of the first match of the fence pattern. -/
def fenced : Str → Option Str
  | [] => none
  | letter :: rest => (fencedHere (letter :: rest)).or (fenced rest)

/-- From the first opening brace to the last closing one behind it. -/
def outermost (text : Str) : Option Str :=
  (rpartition closeBrace (text.dropWhile fun letter => letter != openBrace)).map fun parts =>
    parts.1 ++ [closeBrace]

/-- `_json_candidates`. -/
def jsonCandidates (text : Str) : List Str :=
  strip text :: (fenced text).toList ++ (outermost text).toList

/-- `extract_json`. -/
def extractJson (reader : JsonReader) (text : Str) : Option (List (Str × Json)) :=
  if text = [] then none else (jsonCandidates text).findSome? reader.object

/-- What a call of the model came to: whether there is a text and no error, and the object that was
extracted from it. -/
structure LLMResult where
  ok : Bool
  parsed : Option (List (Str × Json))
  inputTokens : Nat := 0
  outputTokens : Nat := 0
  cacheReadTokens : Nat := 0
  cacheWriteTokens : Nat := 0
  throttled : Bool := false

end Candidates

section Fences

/-- Whether a text is an opening fence: backticks, the word or not, blanks. -/
def isOpening (text : Str) : Bool := fence.isPrefixOf text && (dropWord (text.drop 3)).all isBlank

/-- Whether a text ends in an opening fence. -/
def opensFence : Str → Bool
  | [] => false
  | letter :: rest => isOpening (letter :: rest) || opensFence rest

variable {front back text : Str}

/-- What is dropped stands in front of the brace. -/
theorem dropWord_append : dropWord (front ++ openBrace :: back) =
    dropWord front ++ openBrace :: back := by
  unfold dropWord
  rw [isPrefixOf_append_cons (by decide)]
  split
  · next word =>
      have long := (List.isPrefixOf_iff_prefix.mp word).length_le
      exact List.drop_append_of_le_length long
  · rfl

theorem mem_of_mem_dropWord {letter : Char} (member : letter ∈ dropWord text) : letter ∈ text := by
  unfold dropWord at member
  split at member
  · exact List.mem_of_mem_drop member
  · exact member

/-- In front of a brace an opening fence is a text without the brace that is one. -/
theorem openedBy_append (plain : openBrace ∉ front) :
    openedBy (front ++ openBrace :: back) = if isOpening front = true then some back else none := by
  unfold openedBy isOpening
  rw [isPrefixOf_append_cons (by decide)]
  cases fenced : fence.isPrefixOf front with
  | false => rfl
  | true =>
      have long : 3 ≤ front.length := (List.isPrefixOf_iff_prefix.mp fenced).length_le
      have bare : openBrace ∉ front.drop 3 := fun member => plain (List.mem_of_mem_drop member)
      have solid : isBlank openBrace = false := by decide
      rw [List.drop_append_of_le_length long, dropWord_append, List.dropWhile_append]
      simp only [↓reduceIte, Bool.true_and]
      cases left : (dropWord (front.drop 3)).dropWhile isBlank with
      | nil =>
          have blank : (dropWord (front.drop 3)).all isBlank = true :=
            List.all_eq_true.mpr (List.dropWhile_eq_nil_iff.mp left)
          simp only [List.isEmpty_nil, ↓reduceIte, List.dropWhile_cons, solid, Bool.false_eq_true,
            blank]
      | cons letter rest =>
          have kept : letter ∈ dropWord (front.drop 3) :=
            (List.dropWhile_sublist _).mem (left ▸ List.mem_cons_self)
          have other : letter ≠ openBrace := fun same => bare (mem_of_mem_dropWord (same ▸ kept))
          have unblank : (dropWord (front.drop 3)).all isBlank = false := by
            rw [Bool.eq_false_iff, Ne, List.all_eq_true, ← List.dropWhile_eq_nil_iff, left]
            exact List.cons_ne_nil letter rest
          simp only [List.isEmpty_cons, Bool.false_eq_true, ↓reduceIte, List.cons_append, other,
            unblank]

/-- Behind an opening fence is a later part of the text. -/
theorem suffix_of_openedBy {inner : Str} (opened : openedBy text = some inner) :
    inner <:+ text := by
  unfold openedBy at opened
  split at opened
  · have whole : (dropWord (text.drop 3)).dropWhile isBlank <:+ text := by
      refine (List.dropWhile_suffix _).trans (List.IsSuffix.trans ?_ (List.drop_suffix 3 text))
      unfold dropWord
      split
      · exact List.drop_suffix 4 _
      · exact List.suffix_rfl
    split at opened
    · cases opened
    · next letter rest left =>
        split at opened
        · rw [← Option.some.inj opened]
          rw [left] at whole
          exact (List.suffix_cons letter rest).trans whole
        · cases opened
  · cases opened

/-- The shortest text is in front of a brace. -/
theorem eq_append_of_closedBy {body : Str} (closed : closedBy text = some body) :
    ∃ rest, text = body ++ closeBrace :: rest := by
  induction text generalizing body with
  | nil => cases closed
  | cons letter rest ih =>
      rw [closedBy] at closed
      split at closed
      · next here =>
          cases closed
          exact ⟨rest, by rw [here.1, List.nil_append]⟩
      · obtain ⟨inner, later, rfl⟩ := Option.map_eq_some_iff.mp closed
        obtain ⟨behind, rfl⟩ := ih later
        exact ⟨behind, rfl⟩

/-- What closes a later part closes the text. -/
theorem closedBy_of_suffix {later : Str} (part : later <:+ text) (open_ : closedBy text = none) :
    closedBy later = none := by
  obtain ⟨before, rfl⟩ := part
  induction before with
  | nil => exact open_
  | cons letter rest ih =>
      rw [List.cons_append, closedBy] at open_
      split at open_
      · cases open_
      · exact ih (Option.map_eq_none_iff.mp open_)

/-- Where nothing closes, nothing is fenced. -/
theorem fenced_of_closedBy (open_ : closedBy text = none) : fenced text = none := by
  have anywhere : ∀ later, later <:+ text → fenced later = none := by
    intro later
    induction later with
    | nil => exact fun _ => rfl
    | cons letter rest ih =>
        intro part
        have here : fencedHere (letter :: rest) = none := by
          rw [fencedHere, Option.map_eq_none_iff, Option.bind_eq_none_iff]
          exact fun inner opened =>
            closedBy_of_suffix ((suffix_of_openedBy opened).trans part) open_
        rw [fenced, here, Option.none_or, ih ((List.suffix_cons letter rest).trans part)]
  exact anywhere text List.suffix_rfl

/-- What is fenced in a text without a brace in front of a first one: a fence at its end opens at
that brace, else the first span behind it is found. -/
theorem fenced_append (plain : openBrace ∉ front) :
    fenced (front ++ openBrace :: back) =
      if opensFence front = true then
        (closedBy back).map fun body => openBrace :: body ++ [closeBrace]
      else fenced back := by
  induction front with
  | nil =>
      rw [fenced.eq_def]
      have here : fencedHere (openBrace :: back) = none := by
        rw [fencedHere, ← List.nil_append (openBrace :: back), openedBy_append plain]
        rfl
      change (fencedHere (openBrace :: back)).or (fenced back) = _
      rw [here, Option.none_or]
      rfl
  | cons letter rest ih =>
      have later := ih fun member => plain (List.mem_cons_of_mem letter member)
      rw [List.cons_append, fenced, later, fencedHere, ← List.cons_append, openedBy_append plain,
        opensFence]
      cases isOpening (letter :: rest) with
      | false => rfl
      | true =>
          simp only [↓reduceIte, Option.bind_some, Bool.true_or]
          cases closed : closedBy back with
          | some body => rfl
          | none =>
              rw [fenced_of_closedBy closed]
              simp only [Option.map_none, ite_self, Option.or_none]

end Fences

section Extraction

/-- A text without braces. -/
abbrev Braceless (text : Str) : Prop := openBrace ∉ text ∧ closeBrace ∉ text

/-- A text that is read as the object. Blanks around it belong to the text around. -/
structure Serialization (reader : JsonReader) (members : List (Str × Json)) (text : Str) :
    Prop where
  reads : reader.loads text = some (.object members)
  tight : strip text = text

/-- That the text around is blank or ends in an opening fence, or that the first fenced span that
begins inside the object is not by itself another object. -/
def Undisturbed (reader : JsonReader) (members : List (Str × Json)) (before text behind : Str) :
    Prop :=
  (before.all isBlank ∧ behind.all isBlank) ∨ opensFence before ∨
    ∀ span ∈ fenced (text.tail ++ behind), ∀ found ∈ reader.object span, found = members

variable {reader : JsonReader} {members found : List (Str × Json)} {before behind body text : Str}

/-- A text is read as an object where the reader loads one. -/
theorem object_eq_some : reader.object text = some found ↔
    reader.loads text = some (.object found) := by
  unfold JsonReader.object
  split
  · next same => rw [same, Option.some.injEq, Option.some.injEq, Json.object.injEq]
  · next other => exact ⟨nofun, fun held => (other found held).elim⟩

theorem braceless_of_blank {around : Str} (blank : ∀ letter ∈ around, isBlank letter = true) :
    Braceless around := by
  constructor
  · intro member
    exact absurd (blank openBrace member) (by decide)
  · intro member
    exact absurd (blank closeBrace member) (by decide)

/-- A text around braces is cut at its first and last brace in one way. -/
theorem cut_unique {front back inner : Str} (leading : Braceless before)
    (trailing : Braceless behind) (first : Braceless front) (last : Braceless back)
    (same : before ++ openBrace :: (body ++ closeBrace :: behind) =
      front ++ openBrace :: (inner ++ closeBrace :: back)) :
    before = front ∧ body = inner ∧ behind = back := by
  obtain ⟨ahead, rest⟩ := (append_cons_inj_left leading.1 first.1).mp same
  have here : rpartition closeBrace (body ++ closeBrace :: behind) = some (body, behind) :=
    rpartition_eq_some.mpr ⟨rfl, trailing.2⟩
  rw [rpartition_eq_some.mpr ⟨rest, last.2⟩] at here
  obtain ⟨within, ends⟩ := Prod.mk.inj (Option.some.inj here)
  exact ⟨ahead, within.symm, ends.symm⟩

/-- The whole text is read as an object only if nothing but blanks is around the braces. -/
theorem blank_of_objectText (leading : Braceless before) (trailing : Braceless behind)
    (whole : ObjectText (strip (before ++ openBrace :: (body ++ closeBrace :: behind)))) :
    before.all isBlank = true ∧ behind.all isBlank = true := by
  obtain ⟨inner, shape, _⟩ := whole
  obtain ⟨front, back, cut, blank, empty⟩ :=
    exists_stripWhile_eq isBlank (before ++ openBrace :: (body ++ closeBrace :: behind))
  rw [show stripWhile isBlank _ = strip _ from rfl, shape] at cut
  simp only [List.append_assoc, List.cons_append, List.nil_append] at cut
  obtain ⟨rfl, _, rfl⟩ := cut_unique leading trailing (braceless_of_blank blank)
    (braceless_of_blank empty) cut
  exact ⟨List.all_eq_true.mpr blank, List.all_eq_true.mpr empty⟩

/-- Blanks around a text in braces are stripped. -/
theorem strip_of_blank (blank : before.all isBlank = true) (empty : behind.all isBlank = true) :
    strip (before ++ openBrace :: (body ++ closeBrace :: behind)) =
      openBrace :: body ++ [closeBrace] :=
  stripWhile_append before body (List.all_eq_true.mp blank) (List.all_eq_true.mp empty)
    (by decide) (by decide)

theorem strip_braces (body : Str) :
    strip (openBrace :: body ++ [closeBrace]) = openBrace :: body ++ [closeBrace] :=
  @strip_of_blank [] [] body rfl rfl

/-- The outermost braces are found between texts without any. -/
theorem outermost_append (leading : Braceless before) (trailing : Braceless behind) :
    outermost (before ++ openBrace :: (body ++ closeBrace :: behind)) =
      some (openBrace :: body ++ [closeBrace]) := by
  have ahead : ∀ letter ∈ before, (letter != openBrace) = true := fun letter member =>
    bne_iff_ne.mpr fun same => leading.1 (same ▸ member)
  rw [outermost, List.dropWhile_append_of_pos ahead, List.dropWhile_cons,
    if_neg (by decide), ← List.cons_append, rpartition_eq_some.mpr ⟨rfl, trailing.2⟩]
  rfl

/-- The braces of an object read at the front of another one are those of the other one. -/
theorem span_unique {inner rest : Str} (nested : jsonMarks.Nested body)
    (span : ObjectText (openBrace :: inner ++ [closeBrace]))
    (same : body ++ closeBrace :: behind = inner ++ closeBrace :: rest) : inner = body := by
  obtain ⟨other, shape, nesting⟩ := span
  obtain rfl : inner = other := (List.append_inj (List.cons.inj shape).2 (by
    have lengths := congrArg List.length shape
    simp only [List.length_append, List.length_cons] at lengths
    omega)).1
  have ends : jsonMarks.Closes closeBrace := ⟨openBrace, by decide⟩
  exact (nested.unique nesting ends ends same).1.symm

theorem findSome?_toList {α β : Type} (read : α → Option β) (item : Option α) :
    item.toList.findSome? read = item.bind read := by
  cases item with
  | none => rfl
  | some item => rw [Option.toList_some, List.findSome?_singleton, Option.bind_some]

/-- The three pieces in turn. -/
theorem extractJson_eq (filled : text ≠ []) :
    extractJson reader text = (reader.object (strip text)).or
      (((fenced text).bind reader.object).or ((outermost text).bind reader.object)) := by
  rw [extractJson, if_neg filled, jsonCandidates, List.findSome?_append, ← List.singleton_append,
    List.findSome?_append, List.findSome?_singleton, findSome?_toList, findSome?_toList,
    Option.or_assoc]

/-- **Extraction.** The object is found if and only if the text is undisturbed. -/
theorem extractJson_iff (serial : Serialization reader members text) (leading : Braceless before)
    (trailing : Braceless behind) :
    extractJson reader (before ++ text ++ behind) = some members ↔
      Undisturbed reader members before text behind := by
  have own := object_eq_some.mpr serial.reads
  obtain ⟨body, shape, nested⟩ := reader.nested text members serial.reads
  rw [serial.tight] at shape
  have whole : before ++ text ++ behind =
      before ++ openBrace :: (body ++ closeBrace :: behind) := by
    rw [shape]
    simp only [List.append_assoc, List.cons_append, List.nil_append]
  have inside : text.tail ++ behind = body ++ closeBrace :: behind := by
    rw [shape]
    simp only [List.cons_append, List.tail_cons, List.append_assoc, List.nil_append]
  have filled : before ++ text ++ behind ≠ [] := by
    rw [whole]
    exact List.append_ne_nil_of_right_ne_nil before (List.cons_ne_nil _ _)
  have tries : extractJson reader (before ++ text ++ behind) =
      (reader.object (strip (before ++ text ++ behind))).or
        (((fenced (before ++ text ++ behind)).bind reader.object).or (some members)) := by
    rw [extractJson_eq filled, whole, outermost_append leading trailing, ← whole, ← shape,
      Option.bind_some, own]
  rw [tries]
  by_cases around : before.all isBlank = true ∧ behind.all isBlank = true
  · rw [whole, strip_of_blank around.1 around.2, ← shape, own, Option.some_or]
    exact iff_of_true rfl (.inl around)
  · have apart : reader.object (strip (before ++ text ++ behind)) = none := by
      rw [Option.eq_none_iff_forall_ne_some]
      intro found read
      have object := reader.nested _ found (object_eq_some.mp read)
      rw [strip, strip, stripWhile_stripWhile, whole] at object
      exact around (blank_of_objectText leading trailing object)
    rw [apart, Option.none_or, Undisturbed, or_iff_right around, inside, whole,
      fenced_append leading.1]
    cases opened : opensFence before with
    | true =>
        refine iff_of_true ?_ (.inl rfl)
        rw [if_pos rfl]
        cases closed : closedBy (body ++ closeBrace :: behind) with
        | none => rfl
        | some inner =>
            rw [Option.map_some, Option.bind_some]
            cases read : reader.object (openBrace :: inner ++ [closeBrace]) with
            | none => rfl
            | some found =>
                obtain ⟨rest, same⟩ := eq_append_of_closedBy closed
                have span := reader.nested _ found (object_eq_some.mp read)
                rw [strip_braces] at span
                rw [span_unique nested span same, ← shape, own] at read
                rw [← read]
                rfl
    | false =>
        simp only [Bool.false_eq_true, ↓reduceIte, false_or]
        cases fenced (body ++ closeBrace :: behind) with
        | none => exact iff_of_true rfl nofun
        | some span =>
            rw [Option.bind_some]
            simp only [Option.mem_some_iff, forall_eq']
            cases reader.object span with
            | none => exact iff_of_true rfl nofun
            | some found =>
                rw [Option.some_or, Option.some.injEq]
                exact ⟨fun same other held => (Option.some.inj held) ▸ same,
                  fun each => each found rfl⟩

end Extraction

section Example

/-- A member whose string is an empty object in a fence. -/
def fencedString : Str := fence ++ [openBrace, closeBrace] ++ fence

def memberText : Str :=
  Json.quote :: ['a'] ++ Json.quote :: ':' :: (Json.quote :: fencedString ++ [Json.quote])

def sampleText : Str := openBrace :: memberText ++ [closeBrace]

def sampleMembers : List (Str × Json) := [(['a'], .string fencedString)]

theorem quoted_of_all {word : Str}
    (plain : word.all fun letter => letter != jsonMarks.quote && letter != jsonMarks.escape) :
    jsonMarks.Quoted word := by
  apply Delimiters.quoted_of_forall
  intro letter listed
  have both := List.all_eq_true.mp plain letter listed
  rw [Bool.and_eq_true, bne_iff_ne, bne_iff_ne] at both
  exact both

theorem nested_memberText : jsonMarks.Nested memberText := by
  have first : jsonMarks.Quoted ['a'] := quoted_of_all (by decide)
  have second : jsonMarks.Quoted fencedString := quoted_of_all (by decide)
  refine .quoted first (.plain ⟨by decide, by decide, ?_⟩ (.quoted second .nil))
  rintro ⟨opening, closes⟩
  simp only [jsonMarks] at closes
  split at closes
  · exact absurd (Option.some.inj closes) (by decide)
  · split at closes
    · exact absurd (Option.some.inj closes) (by decide)
    · cases closes

/-- A reader of the texts below. -/
def sampleReader : JsonReader where
  loads text :=
    if strip text = [openBrace, closeBrace] then some (.object [])
    else if strip text = sampleText then some (.object sampleMembers)
    else none
  nested := by
    intro text members read
    split at read
    · next empty => exact ⟨[], empty, .nil⟩
    · split at read
      · next whole => exact ⟨memberText, whole, nested_memberText⟩
      · cases read

theorem sampleText_serial : Serialization sampleReader sampleMembers sampleText where
  reads := by rfl
  tight := by decide

/-- The empty object in the string is found instead of the object. -/
theorem sampleText_disturbed : Serialization sampleReader sampleMembers sampleText ∧
    Braceless ['x'] ∧ Braceless [] ∧
      extractJson sampleReader (['x'] ++ sampleText ++ []) = some [] ∧
        extractJson sampleReader (['x'] ++ sampleText ++ []) ≠ some sampleMembers := by
  have empty : extractJson sampleReader (['x'] ++ sampleText ++ []) = some [] := by rfl
  refine ⟨sampleText_serial, by decide, by decide, empty, ?_⟩
  rw [empty]
  intro same
  cases same

/-- The same object is found where it stands in a fence of its own. -/
theorem extractJson_iff_fenced :
    extractJson sampleReader (fence ++ sampleText ++ fence) = some sampleMembers :=
  (extractJson_iff sampleText_serial (by decide) (by decide)).mpr (.inr (.inl (by decide)))

end Example

end GraphIngest.Analysis
