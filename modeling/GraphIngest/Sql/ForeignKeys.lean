import GraphIngest.Foundation.Utf8
import GraphIngest.Graph.Record
import GraphIngest.Jsp.Markup

/-! # Tables and foreign keys

Table definitions are found in the text of a file as it is, the clauses that refer to a table in
a copy without the line comments. A table is known by its name alone. A clause is given to the
last definition in front of it.
-/

namespace GraphIngest.Sql

open Foundation Text Graph

/-- The letters of `\w` and lower case, as the text tables of the runtime have them. -/
structure Letters where
  word : Char → Bool
  lower : Str → Str

section Patterns

open Pattern Jsp

variable (letters : Letters)

/-- A pattern, if it matches. -/
def optionally (pattern : Pattern Char) : Pattern Char := either pattern nothing

/-- A keyword and white space. -/
def keyword (text : Str) : Pattern Char := seq (caseless text) (several isSpace)

/-- A backquote and a quote, each if it is there. -/
def quotes : Pattern Char := seq (optional (· == Char.ofNat 0x60)) (optional (· == '"'))

/-- A name with what quotes it. -/
def quotedName : Pattern Char := inOrder [quotes, group (several letters.word), quotes]

/-- A schema with its dot, if it is there; if not, the group is empty. -/
def schemaPart : Pattern Char :=
  either (seq (quotedName letters) (letter (· == '.'))) (group nothing)

/-- `_CREATE_TABLE_RE`. -/
def createTableRe : Pattern Char :=
  inOrder
    [keyword "CREATE".toList, optionally (seq (keyword "OR".toList) (keyword "REPLACE".toList)),
     optionally
      (inOrder [caseless "TEMP".toList, optionally (caseless "ORARY".toList), several isSpace]),
     keyword "TABLE".toList,
     optionally (inOrder [keyword "IF".toList, keyword "NOT".toList, keyword "EXISTS".toList]),
     schemaPart letters, quotedName letters, many isSpace, letter (· == '(')]

/-- `_FK_RE`. -/
def fkRe : Pattern Char :=
  inOrder [keyword "REFERENCES".toList, schemaPart letters, quotedName letters]

/-- A line comment. -/
def commentRe : Pattern Char := seq (word "--".toList) (many (· != '\n'))

end Patterns

section Tables

variable (letters : Letters)

/-- The matches of `_CREATE_TABLE_RE`. -/
def statements (text : Str) : List Match := (createTableRe letters).findIter text

/-- The schema of a match, empty if it has none. -/
def schemaOf (text : Str) (found : Match) : Str := letters.lower (found.group text 1)

/-- The name of a match. -/
def nameOf (text : Str) (found : Match) : Str := letters.lower (found.group text 2)

/-- The number of letters up to and with the parenthesis that closes the last of those open. -/
def closing : Str → Nat → Nat
  | [], _ => 0
  | _ :: _, 0 => 0
  | letter :: rest, depth + 1 =>
      closing rest
        (if letter = '(' then depth + 2 else if letter = ')' then depth else depth + 1) + 1

/-- The end of the body of a table. -/
def bodyStop (text : Str) (found : Match) : Nat :=
  found.stop + closing (text.drop found.stop) 1

/-- The line of a place, counted from one. -/
def lineOf (text : Str) (place : Nat) : Nat := (text.take place).count '\n' + 1

/-- What `_find_tables` returns of a table. -/
structure FoundTable where
  name : Str
  lineNo : Nat
  schema : Str
  body : Str
deriving DecidableEq, Repr

/-- `_find_tables`. -/
def findTables (src : Str) : List FoundTable :=
  (statements letters src).map fun found =>
    { name := nameOf letters src found
      lineNo := lineOf src found.start
      schema := schemaOf letters src found
      body := slice src found.stop (bodyStop src found - 1) }

/-- The places outside of the line comments. -/
def keptPlaces (src : Str) : List Nat :=
  let comments := commentRe.findIter src
  (List.range src.length).filter fun place =>
    comments.all fun comment => place < comment.start || comment.stop ≤ place

/-- The text without its line comments. -/
def stripComments (src : Str) : Str := (keptPlaces src).filterMap fun place => src[place]?

/-- The place in the text of a place in the text without its line comments. -/
def placeIn (src : Str) (place : Nat) : Nat := (keptPlaces src)[place]?.getD src.length

end Tables

/-- A file that has been read. -/
structure SqlFile where
  relpath : Str
  source : List UInt8

/-- The text of a file. -/
def SqlFile.text (file : SqlFile) : Str := Utf8.decode file.source

section Extraction

variable (letters : Letters) (makeId : Str → Str → Str → NodeId) (repo : Str)

/-- `EXTRACTOR`. -/
def extractorName : Str := "sql-ddl".toList

/-- The qualified name of a table. -/
def fqnOf (schema name : Str) : Str :=
  ['.'].intercalate (repo :: (if schema = [] then [] else [schema]) ++ [name])

/-- The node of a table. -/
def tableNode (file : SqlFile) (table : FoundTable) : Node where
  id := makeId repo (fqnOf repo table.schema table.name) "Table".toList
  label := .table
  name := table.name
  fqn := fqnOf repo table.schema table.name
  repo := repo
  kind := .table
  file := file.relpath
  package := table.schema
  startLine := table.lineNo
  extractor := extractorName
  confidence := .extracted

/-- `table_id_by_name`. -/
def tableIdByName (file : SqlFile) : Dict Str NodeId :=
  (findTables letters file.text).foldl
    (fun ids table => ids.set table.name (tableNode makeId repo file table).id) Dict.empty

/-- The clauses that refer to a table. -/
def clauses (file : SqlFile) : List Match := (fkRe letters).findIter (stripComments file.text)

/-- The edge for a clause, if both tables are known. -/
def referencesEdge (file : SqlFile) (clause : Match) : Option Edge :=
  let src := file.text
  let stripped := stripComments src
  let ids := tableIdByName letters makeId repo file
  let pre := stripped.take clause.start
  (ids.get? (nameOf letters stripped clause)).bind fun refId =>
    (statements letters pre).getLast?.bind fun lastCt =>
      (ids.get? (nameOf letters pre lastCt)).map fun srcId =>
        { type := .references
          src := srcId
          dst := refId
          confidence := .extracted
          origin := .extracted
          extractor := extractorName
          evidenceFile := file.relpath
          evidenceLine := lineOf src clause.start }

/-- `extract`: the nodes and the edges of a file; there are no references left open. -/
def extract (file : SqlFile) : List Node × List Edge :=
  ((findTables letters file.text).map (tableNode makeId repo file),
   (clauses letters file).filterMap (referencesEdge letters makeId repo file))

end Extraction

section Declared

variable (letters : Letters) (repo : Str)

/-- The qualified name of the table of a match. -/
def qualifiedName (text : Str) (found : Match) : Str :=
  fqnOf repo (schemaOf letters text found) (nameOf letters text found)

/-- The last table definition of a name in a text, comments not left out. -/
def lastNamed (src name : Str) : Option Match :=
  (statements letters src).reverse.find? fun found => decide (nameOf letters src found = name)

/-- Whether a place is in the body of a table. -/
def Contains (text : Str) (found : Match) (place : Nat) : Prop :=
  found.stop ≤ place ∧ place < bodyStop text found

/-- Whether a clause names a table: the schema counts if the clause gives one. -/
def Names (text : Str) (clause found : Match) : Prop :=
  nameOf letters text found = nameOf letters text clause ∧
    (schemaOf letters text clause = [] ∨
      schemaOf letters text found = schemaOf letters text clause)

instance (text : Str) (found : Match) (place : Nat) : Decidable (Contains text found place) :=
  inferInstanceAs (Decidable (_ ∧ _))

instance (text : Str) (clause found : Match) : Decidable (Names letters text clause found) :=
  inferInstanceAs (Decidable (_ ∧ _))

/-- The name of the last table in front of a clause. -/
def lastBefore (file : SqlFile) (clause : Match) : Option Str :=
  let pre := (stripComments file.text).take clause.start
  (statements letters pre).getLast?.map (nameOf letters pre)

/-- Whether a table of the file is called like one that contains the clause. -/
def Owns (file : SqlFile) (clause source : Match) : Prop :=
  ∃ found ∈ statements letters (stripComments file.text),
    Contains (stripComments file.text) found clause.start ∧
      qualifiedName letters repo file.text source =
        qualifiedName letters repo (stripComments file.text) found

/-- Whether a table of the file is called like one that the clause names. -/
def Meets (file : SqlFile) (clause target : Match) : Prop :=
  ∃ found ∈ statements letters (stripComments file.text),
    Names letters (stripComments file.text) clause found ∧
      qualifiedName letters repo file.text target =
        qualifiedName letters repo (stripComments file.text) found

instance (file : SqlFile) (clause source : Match) :
    Decidable (Owns letters repo file clause source) :=
  inferInstanceAs (Decidable (∃ found ∈ statements letters (stripComments file.text),
    Contains (stripComments file.text) found clause.start ∧
      qualifiedName letters repo file.text source =
        qualifiedName letters repo (stripComments file.text) found))

instance (file : SqlFile) (clause target : Match) :
    Decidable (Meets letters repo file clause target) :=
  inferInstanceAs (Decidable (∃ found ∈ statements letters (stripComments file.text),
    Names letters (stripComments file.text) clause found ∧
      qualifiedName letters repo file.text target =
        qualifiedName letters repo (stripComments file.text) found))

variable (makeId : Str → Str → Str → NodeId)

/-- What an edge for a clause should be: from the table whose definition contains the clause to
a table that the clause names, both defined outside of comments, with the line of the clause in
the file. -/
structure Faithful (file : SqlFile) (clause : Match) (edge : Edge) : Prop where
  source : ∃ found ∈ statements letters (stripComments file.text),
    Contains (stripComments file.text) found clause.start ∧
      edge.src =
        makeId repo (qualifiedName letters repo (stripComments file.text) found) "Table".toList
  target : ∃ found ∈ statements letters (stripComments file.text),
    Names letters (stripComments file.text) clause found ∧
      edge.dst =
        makeId repo (qualifiedName letters repo (stripComments file.text) found) "Table".toList
  line : edge.evidenceLine = lineOf file.text (placeIn file.text clause.start)

/-- When a clause is treated right: the last table of the file that is called like the last one
in front of the clause is the one that contains the clause; the last table of the file that is
called like the one the clause names is one it names; and there is no line end between the place
of the clause in the text without comments and its place in the file. -/
def Placed (file : SqlFile) (clause : Match) : Prop :=
  ∀ owner ∈ lastBefore letters file clause,
  ∀ source ∈ lastNamed letters file.text owner,
  ∀ target ∈ lastNamed letters file.text (nameOf letters (stripComments file.text) clause),
    Owns letters repo file clause source ∧ Meets letters repo file clause target ∧
      '\n' ∉ slice file.text clause.start (placeIn file.text clause.start)

instance (file : SqlFile) (clause : Match) : Decidable (Placed letters repo file clause) :=
  inferInstanceAs (Decidable (∀ owner ∈ lastBefore letters file clause,
    ∀ source ∈ lastNamed letters file.text owner,
    ∀ target ∈ lastNamed letters file.text (nameOf letters (stripComments file.text) clause),
      Owns letters repo file clause source ∧ Meets letters repo file clause target ∧
        '\n' ∉ slice file.text clause.start (placeIn file.text clause.start)))

end Declared

section Places

/-- Numbers that rise are at least their places. -/
theorem le_getElem_of_pairwise_lt {numbers : List Nat} (rising : numbers.Pairwise (· < ·))
    {place : Nat} (inside : place < numbers.length) : place ≤ numbers[place] := by
  induction place with
  | zero => exact Nat.zero_le _
  | succ place ih =>
      have before := ih (Nat.lt_of_succ_lt inside)
      have less := List.pairwise_iff_getElem.mp rising place (place + 1)
        (Nat.lt_of_succ_lt inside) inside (Nat.lt_succ_self place)
      exact Nat.succ_le_of_lt (Nat.lt_of_le_of_lt before less)

theorem le_placeIn {src : Str} {place : Nat} (inside : place ≤ (stripComments src).length) :
    place ≤ placeIn src place := by
  rw [placeIn]
  by_cases listed : place < (keptPlaces src).length
  · rw [List.getElem?_eq_getElem listed, Option.getD_some]
    exact le_getElem_of_pairwise_lt (List.pairwise_lt_range.filter _) listed
  · rw [List.getElem?_eq_none (Nat.le_of_not_lt listed), Option.getD_none]
    have kept : (keptPlaces src).length ≤ src.length :=
      (List.length_filter_le _ _).trans List.length_range.le
    exact inside.trans ((List.length_filterMap_le _ _).trans kept)

theorem lineOf_eq_iff {src : Str} {first second : Nat} (ordered : first ≤ second) :
    lineOf src first = lineOf src second ↔ '\n' ∉ slice src first second := by
  rw [lineOf, lineOf, ← take_append_slice src ordered, List.count_append, ← List.count_eq_zero]
  omega

/-- Matches of a text begin within it. -/
theorem start_le_of_mem_findIter {pattern : Pattern Char} {text : Str} {found : Match}
    (listed : found ∈ pattern.findIter text) : found.start ≤ text.length := by
  have within : ∀ rounds place, ∀ found ∈ pattern.matchesFrom text rounds place,
      found.start ≤ text.length := by
    intro rounds
    induction rounds with
    | zero =>
        intro place found listed
        cases listed
    | succ rounds ih =>
        intro place found listed
        rw [Pattern.matchesFrom] at listed
        cases first : pattern.firstMatch text place with
        | none =>
            rw [first] at listed
            cases listed
        | some next =>
            rw [first] at listed
            rcases List.mem_cons.mp listed with rfl | later
            · exact (Pattern.firstMatch_start first).2
            · exact ih _ found later
  exact within _ _ found listed

end Places

section Edges

variable {letters : Letters} {makeId : Str → Str → Str → NodeId} {repo : Str} {file : SqlFile}
  {clause : Match}

/-- A name is looked up in the last table of that name. -/
theorem get?_tableIdByName (name : Str) :
    (tableIdByName letters makeId repo file).get? name =
      (lastNamed letters file.text name).map fun found =>
        makeId repo (qualifiedName letters repo file.text found) "Table".toList := by
  have last := Dict.get?_foldl_set (fun _ => true) (nameOf letters file.text)
    (fun found => makeId repo (qualifiedName letters repo file.text found) "Table".toList)
    (statements letters file.text) Dict.empty name
  simp only [↓reduceIte, Bool.true_and, Dict.get?_empty, Option.or_none] at last
  rw [tableIdByName, findTables, List.foldl_map]
  exact last

theorem referencesEdge_eq_some {edge : Edge} :
    referencesEdge letters makeId repo file clause = some edge ↔
      ∃ owner ∈ lastBefore letters file clause,
      ∃ source ∈ lastNamed letters file.text owner,
      ∃ target ∈ lastNamed letters file.text (nameOf letters (stripComments file.text) clause),
        edge =
          { type := .references
            src := makeId repo (qualifiedName letters repo file.text source) "Table".toList
            dst := makeId repo (qualifiedName letters repo file.text target) "Table".toList
            confidence := .extracted
            origin := .extracted
            extractor := extractorName
            evidenceFile := file.relpath
            evidenceLine := lineOf file.text clause.start } := by
  rw [referencesEdge, Option.bind_eq_some_iff]
  simp only [get?_tableIdByName, Option.bind_eq_some_iff, Option.map_eq_some_iff]
  constructor
  · intro found
    obtain ⟨_, ⟨target, named, rfl⟩, lastCt, last, _, ⟨source, called, rfl⟩, rfl⟩ := found
    exact ⟨_, Option.map_eq_some_iff.mpr ⟨lastCt, last, rfl⟩, source, called, target, named, rfl⟩
  · intro found
    obtain ⟨_, before, source, called, target, named, rfl⟩ := found
    obtain ⟨lastCt, last, rfl⟩ := Option.map_eq_some_iff.mp before
    exact ⟨_, ⟨target, named, rfl⟩, lastCt, last, _, ⟨source, called, rfl⟩, rfl⟩

/-- The letters of ASCII. -/
def asciiLetters : Letters where
  word := Jsp.isIdent
  lower := lower

/-- An id that spells the qualified name. -/
def spelledId (_ fqn _ : Str) : NodeId := ⟨'#' :: fqn, List.cons_ne_nil '#' fqn⟩

/-- A table that refers to itself. -/
def selfReference : SqlFile where
  relpath := "tree.sql".toList
  source := "CREATE TABLE a(REFERENCES a)".toUTF8.toList

/-- A comment, and a table that refers to itself. -/
def commented : SqlFile where
  relpath := "shop.sql".toList
  source := "-- all the tables of the shop\nCREATE TABLE a(\nREFERENCES a)".toUTF8.toList

end Edges

end GraphIngest.Sql
