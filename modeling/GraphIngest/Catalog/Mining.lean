import GraphIngest.Catalog.Positions
import GraphIngest.Foundation.KeyedLog
import Mathlib.Data.Char
import Mathlib.Data.List.Lex

/-! # Mining the taint rules

The upstream rule files are read line by line: a line is skipped, warned about, or
read as a sink, a source, a safe method or a propagator. The positions of sinks are
collected by owner and method over all files, but one category is recorded for an
owner, that of the first file to name it. All sinks keep the categories of their
files exactly when no owner is named by files of two categories.
-/

namespace GraphIngest.Catalog

open Foundation Text

/-- The characters of `\w`, lower case, and the numbers that `int` reads, as the
text tables of the runtime have them. -/
structure Characters where
  word : Char → Bool
  lower : Str → Str
  number : Str → Option Int

section Lines

/-- `SINK_CATEGORY`. -/
def sinkCategories : List (Str × Str) :=
  [("command", "CWE-78/command-injection"),
   ("sql-jdbc", "CWE-89/sql-injection"),
   ("sql-hibernate", "CWE-89/sql-injection"),
   ("sql-jpa", "CWE-89/sql-injection"),
   ("ldap", "CWE-90/ldap-injection"),
   ("path-traversal-in", "CWE-22/path-traversal"),
   ("path-traversal-out", "CWE-22/path-traversal"),
   ("xss-servlet", "CWE-79/xss"),
   ("xss-jsp", "CWE-79/xss"),
   ("response-splitting", "CWE-113/response-splitting"),
   ("el", "CWE-917/el-injection"),
   ("spel", "CWE-917/el-injection"),
   ("script-engine", "CWE-94/code-injection"),
   ("formatter", "CWE-134/format-string"),
   ("beans", "CWE-915/bean-property-injection"),
   ("urlconnection-ssrf", "CWE-918/ssrf"),
   ("xpath-javax", "CWE-643/xpath-injection"),
   ("xpath-apache", "CWE-643/xpath-injection"),
   ("xslt", "CWE-611/xslt-injection"),
   ("smtp", "CWE-93/smtp-header-injection"),
   ("http-parameter-pollution", "CWE-235/parameter-pollution"),
   ("requestdispatcher-file-disclosure", "CWE-552/file-disclosure"),
   ("trust-boundary-violation-value", "CWE-501/trust-boundary"),
   ("crlf-logs", "CWE-117/log-injection"),
   ("sql-spring", "CWE-89/sql-injection"),
   ("sql-turbine", "CWE-89/sql-injection"),
   ("seam-el", "CWE-917/el-injection"),
   ("aws", "CWE-99/resource-injection")]

/-- The groups of `_LINE`. -/
structure LineMatch where
  owner : Str
  method : Str
  params : Str
  ret : Str
  tag : Str
deriving DecidableEq, Repr

/-- What an optional letter takes off the front of a text. -/
def optional (letter : Char) (text : Str) : Str × Str :=
  if text.head? = some letter then ([letter], text.tail) else ([], text)

variable (characters : Characters)

/-- `_LINE` behind the opening parenthesis: the parameters, the result and the tag
behind the last colon. -/
def matchSignature (owner method text : Str) : Option LineMatch :=
  let params := text.takeWhile fun letter => letter != ')'
  match text.drop params.length with
  | [] => none
  | _ :: rest =>
      match rpartition ':' rest with
      | none => none
      | some (ret, tag) =>
          if ret.all (fun letter => !inRanges spaceRanges letter) ∧ tag ≠ [] ∧
              tag.all (fun letter => characters.word letter || letter == ',') then
            some { owner, method, params, ret, tag }
          else none

/-- `_LINE` behind the dot: a method name, which may stand in angle brackets. -/
def matchMethod (owner text : Str) : Option LineMatch :=
  let (opening, rest) := optional '<' text
  let name := rest.takeWhile characters.word
  let (closing, rest) := optional '>' (rest.drop name.length)
  if name ≠ [] ∧ rest.head? = some '(' then
    matchSignature characters owner (opening ++ name ++ closing) rest.tail
  else none

/-- `_LINE`, on a line without white space at its ends. -/
def matchLine (line : Str) : Option LineMatch :=
  let owner := line.takeWhile fun letter =>
    characters.word letter || letter == '/' || letter == '$'
  let rest := line.drop owner.length
  if owner ≠ [] ∧ rest.head? = some '.' then matchMethod characters owner rest.tail else none

/-- `binary_to_fqn`. -/
def binaryToFqn (owner : Str) : Str := replaceLetter '/' '.' owner

/-- What is warned about. -/
inductive Warning
  | unparsed (file : Str) (line : Nat) (text : Str)
  | params (file : Str) (line : Nat) (desc : Str)
  | tag (file : Str) (line : Nat) (tag : Str)
  | category (file : Str)
  | outside (file : Str) (line : Nat) (indices : List Int) (params : Nat) (text : Str)
deriving DecidableEq, Repr

/-- A rule about a method of an owner. -/
structure Rule where
  owner : Str
  method : Str
  positions : List Int
deriving DecidableEq, Repr

/-- What a line says. -/
inductive Reading
  | skipped
  | warned (warning : Warning)
  | safe (owner method : Str)
  | source (owner method : Str)
  | sink (rule : Rule) (category : Str)
  | propagator (rule : Rule)
deriving DecidableEq, Repr

/-- Kind and name in the name of a rule file: in front of and behind the first
underscore of the stem. -/
def kindAndName (file : Str) : Str × Str :=
  let stem := file.take (file.length - 4)
  let kind := beforeFirst '_' stem
  (kind, stem.drop (kind.length + 1))

/-- A line with a numeric tag. -/
def readIndices (file : Str) (number : Nat) (line owner method : Str) (params : List Str)
    (indices : List Int) : Reading :=
  let positions := toPositions indices params
  if (kindAndName file).1 = "is".toList then
    match sinkCategories.lookup (kindAndName file).2 with
    | none => .warned (.category file)
    | some category =>
        if positions = [] then .warned (.outside file number indices params.length line)
        else .sink ⟨owner, method, positions⟩ category
  else if positions = [] then .skipped
  else .propagator ⟨owner, method, positions⟩

/-- A line of the form of a rule. -/
def readRule (file : Str) (number : Nat) (line : Str) (found : LineMatch) : Reading :=
  let owner := binaryToFqn found.owner
  let method := characters.lower found.method
  match parseParams found.params with
  | none => .warned (.params file number found.params)
  | some params =>
      if found.tag = "SAFE".toList then .safe owner method
      else if found.tag = "TAINTED".toList then .source owner method
      else
        match (splitBy ',' found.tag).mapM characters.number with
        | none => .warned (.tag file number found.tag)
        | some indices => readIndices file number line owner method params indices

/-- One line of a rule file. -/
def readLine (file : Str) (raw : Str × Nat) : Reading :=
  let line := strip raw.1
  if line = [] ∨ line.head? = some '-' ∨ '(' ∉ line ∨ ":UNKNOWN".toList.isSuffixOf line ∨
      '#' ∈ line then .skipped
  else
    match matchLine characters line with
    | none => .warned (.unparsed file raw.2 line)
    | some found => readRule characters file raw.2 line found

end Lines

section Tables

/-- Positions by owner and method. -/
abbrev Table := Dict Str (Dict Str (List Int))

namespace Table

/-- The positions of a method of an owner. -/
def positions (table : Table) (owner method : Str) : List Int :=
  (table.getD owner Dict.empty).getD method []

/-- Add positions to those of a method of an owner. -/
def add (table : Table) (rule : Rule) : Table :=
  let methods := table.getD rule.owner Dict.empty
  table.set rule.owner
    (methods.set rule.method ((methods.getD rule.method [] ++ rule.positions).dedup))

/-- Only the owners that have methods. -/
def nonempty (table : Table) : Table := table.filter fun _ methods => !methods.entries.isEmpty

end Table

/-- A rule file: its name and its lines. -/
structure RuleFile where
  name : Str
  lines : List Str

/-- What the loop over the files has collected. -/
structure Mined where
  sinks : Table := Dict.empty
  categories : Dict Str Str := Dict.empty
  sources : Table := Dict.empty
  propagators : Table := Dict.empty
  safe : List (Str × Str) := []
  warnings : List Warning := []

namespace Mined

/-- What a line adds. -/
def apply (mined : Mined) : Reading → Mined
  | .skipped => mined
  | .warned warning => { mined with warnings := mined.warnings ++ [warning] }
  | .safe owner method => { mined with safe := mined.safe ++ [(owner, method)] }
  | .source owner method =>
      { mined with sources := mined.sources.add ⟨owner, method, [catalogReceiver]⟩ }
  | .sink rule category =>
      { mined with
        sinks := mined.sinks.add rule
        categories := mined.categories.setdefault rule.owner category }
  | .propagator rule => { mined with propagators := mined.propagators.add rule }

/-- The sources without the methods marked safe. -/
def unsafeSources (mined : Mined) : Table :=
  mined.sources.mapValues fun owner methods =>
    methods.filter fun method _ => !mined.safe.contains (owner, method)

end Mined

variable (characters : Characters)

/-- One file; only text files are read. -/
def mineFile (mined : Mined) (file : RuleFile) : Mined :=
  if ".txt".toList.isSuffixOf file.name then
    (file.lines.zipIdx 1).foldl (fun mined raw => mined.apply (readLine characters file.name raw))
      mined
  else mined

/-- `mine`, on the files of a directory in the order of their names. -/
def mine (files : List RuleFile) : Mined :=
  let mined := (files.insertionSort fun file other => file.name ≤ other.name).foldl
    (mineFile characters) {}
  { mined with
    sinks := mined.sinks.nonempty
    sources := mined.unsafeSources.nonempty
    propagators := mined.propagators.nonempty }

/-- The rows of a table, by name. -/
abbrev Rows (α : Type) := List (Str × α)

def sortRows {α : Type} (rows : Rows α) : Rows α :=
  rows.insertionSort fun row other => row.1 ≤ other.1

/-- `inner`: the methods of an owner. -/
def inner (methods : Dict Str (List Int)) : Rows (List Int) :=
  sortRows (methods.entries.map fun method => (method.1, method.2.insertionSort (· ≤ ·)))

/-- `fmt`: the rows of a table of positions. -/
def fmt (table : Table) : Rows (Rows (List Int)) :=
  sortRows (table.entries.map fun entry => (entry.1, inner entry.2))

/-- The tables of the generated module. -/
structure Emitted where
  sinks : Rows (Rows (List Int))
  sinkCategory : Rows Str
  sources : Rows (Rows (List Int))
  propagators : Rows (Rows (List Int))
deriving DecidableEq, Repr

/-- `emit`. -/
def emit (mined : Mined) : Emitted where
  sinks := fmt mined.sinks
  sinkCategory := sortRows mined.categories.entries
  sources := fmt mined.sources
  propagators := fmt mined.propagators

end Tables

section Keeping

namespace Table

/-- The table has the positions of a rule. -/
def Holds (rule : Rule) (table : Table) : Prop :=
  ∃ methods held, table.get? rule.owner = some methods ∧ methods.get? rule.method = some held ∧
    ∀ position ∈ rule.positions, position ∈ held

theorem holds_add (table : Table) (rule : Rule) : (table.add rule).Holds rule := by
  refine ⟨_, _, Dict.get?_set_self table _ _, Dict.get?_set_self _ _ _, ?_⟩
  exact fun position listed => List.mem_dedup.mpr (List.mem_append_right _ listed)

/-- Adding to a table takes no position away. -/
theorem Holds.add {table : Table} {rule : Rule} (holds : table.Holds rule) (other : Rule) :
    (table.add other).Holds rule := by
  obtain ⟨methods, held, known, found, all⟩ := holds
  rw [Table.add]
  by_cases sameOwner : rule.owner = other.owner
  · rw [Dict.getD, ← sameOwner, known, Option.getD_some]
    by_cases sameMethod : rule.method = other.method
    · rw [← sameMethod]
      refine ⟨_, _, Dict.get?_set_self table _ _, Dict.get?_set_self _ _ _, ?_⟩
      intro position listed
      rw [Dict.getD, found]
      exact List.mem_dedup.mpr (List.mem_append_left _ (all position listed))
    · refine ⟨_, held, Dict.get?_set_self table _ _, ?_, all⟩
      rw [Dict.get?_set, if_neg sameMethod, found]
  · refine ⟨methods, held, ?_, found, all⟩
    rw [Dict.get?_set, if_neg sameOwner, known]

theorem Holds.nonempty {table : Table} {rule : Rule} (holds : table.Holds rule) :
    table.nonempty.Holds rule := by
  obtain ⟨methods, held, known, found, all⟩ := holds
  refine ⟨methods, held, ?_, found, all⟩
  have some : methods.entries.isEmpty = false := by
    cases empty : methods.entries with
    | nil => rw [Dict.get?, empty] at found; cases found
    | cons _ _ => rfl
  rw [Table.nonempty, Dict.get?_filter, known, Option.filter_some, some]
  rfl

end Table

/-- The rule and the category of an accepted sink line. -/
def Reading.sink? : Reading → Option (Rule × Str)
  | sink rule category => some (rule, category)
  | _ => none

/-- What the lines of a file say, nothing when it is no text file. -/
def RuleFile.readings (characters : Characters) (file : RuleFile) : List Reading :=
  if ".txt".toList.isSuffixOf file.name then
    (file.lines.zipIdx 1).map (readLine characters file.name)
  else []

/-- The accepted sink lines of some files, each with the category of its file. -/
def sinkEntries (characters : Characters) (files : List RuleFile) : List (Rule × Str) :=
  (files.flatMap (RuleFile.readings characters)).filterMap Reading.sink?

/-- What the loop leaves of the sinks and their categories is determined by the
accepted sink lines. -/
theorem foldl_apply (readings : List Reading) (mined : Mined) :
    (readings.foldl Mined.apply mined).sinks =
        (readings.filterMap Reading.sink?).foldl (fun table entry => table.add entry.1)
          mined.sinks ∧
      (readings.foldl Mined.apply mined).categories =
        (readings.filterMap Reading.sink?).foldl
          (fun categories entry => categories.setdefault entry.1.owner entry.2)
          mined.categories := by
  induction readings generalizing mined with
  | nil => exact ⟨rfl, rfl⟩
  | cons reading rest ih =>
      rw [List.foldl_cons]
      cases reading <;> exact ih _

theorem foldl_mineFile (characters : Characters) (files : List RuleFile) (mined : Mined) :
    files.foldl (mineFile characters) mined =
      (files.flatMap (RuleFile.readings characters)).foldl Mined.apply mined := by
  induction files generalizing mined with
  | nil => rfl
  | cons file rest ih =>
      rw [List.foldl_cons, ih, List.flatMap_cons, List.foldl_append, mineFile, RuleFile.readings]
      split
      · rw [List.foldl_map]
      · rfl

/-- The files in the order in which they are read. -/
def inOrder (files : List RuleFile) : List RuleFile :=
  files.insertionSort fun file other => file.name ≤ other.name

theorem mine_sinks (characters : Characters) (files : List RuleFile) :
    (mine characters files).sinks =
      ((sinkEntries characters (inOrder files)).foldl (fun table entry => table.add entry.1)
        Dict.empty : Table).nonempty := by
  have all := (foldl_apply ((inOrder files).flatMap (RuleFile.readings characters)) {}).1
  rw [← foldl_mineFile] at all
  exact congrArg Table.nonempty all

theorem mine_categories (characters : Characters) (files : List RuleFile) :
    (mine characters files).categories =
      (sinkEntries characters (inOrder files)).foldl
        (fun categories entry => categories.setdefault entry.1.owner entry.2) Dict.empty := by
  have all := (foldl_apply ((inOrder files).flatMap (RuleFile.readings characters)) {}).2
  rwa [← foldl_mineFile] at all

theorem mem_sinkEntries_inOrder {characters : Characters} {files : List RuleFile}
    {entry : Rule × Str} :
    entry ∈ sinkEntries characters (inOrder files) ↔ entry ∈ sinkEntries characters files := by
  simp only [sinkEntries, inOrder, List.mem_filterMap, List.mem_flatMap, List.mem_insertionSort]

/-- The category of an owner is that of the first accepted line that names it. -/
theorem get?_categories (characters : Characters) (files : List RuleFile) (owner : Str) :
    (mine characters files).categories.get? owner =
      ((sinkEntries characters (inOrder files)).find? fun entry =>
        decide (entry.1.owner = owner)).map Prod.snd := by
  have first := Dict.get?_foldl_setdefault (fun _ => true)
    (fun entry : Rule × Str => entry.1.owner) Prod.snd
    (sinkEntries characters (inOrder files)) Dict.empty owner
  simp only [↓reduceIte, Bool.true_and, Dict.get?_empty, Option.none_or] at first
  rw [mine_categories, first]

theorem mem_sortRows {α : Type} {rows : Rows α} {row : Str × α} :
    row ∈ sortRows rows ↔ row ∈ rows :=
  List.mem_insertionSort _

/-- An accepted sink line is in the emitted tables, under an owner with its
category. -/
structure Kept (emitted : Emitted) (rule : Rule) (category : Str) : Prop where
  row : ∃ methods positions, (rule.owner, methods) ∈ emitted.sinks ∧
    (rule.method, positions) ∈ methods ∧ ∀ position ∈ rule.positions, position ∈ positions
  category : (rule.owner, category) ∈ emitted.sinkCategory

/-- The positions of every accepted sink line are emitted. -/
theorem emitted_row {characters : Characters} {files : List RuleFile} {rule : Rule}
    {category : Str} (accepted : (rule, category) ∈ sinkEntries characters files) :
    ∃ methods positions, (rule.owner, methods) ∈ (emit (mine characters files)).sinks ∧
      (rule.method, positions) ∈ methods ∧ ∀ position ∈ rule.positions, position ∈ positions := by
  have holds : (mine characters files).sinks.Holds rule := by
    rw [mine_sinks]
    apply Table.Holds.nonempty
    exact foldl_acquires (Table.Holds rule) (mem_sinkEntries_inOrder.mpr accepted)
      (fun table => table.holds_add rule) (fun _ entry held => held.add entry.1) Dict.empty
  obtain ⟨methods, held, known, found, all⟩ := holds
  refine ⟨inner methods, held.insertionSort (· ≤ ·), ?_, ?_, ?_⟩
  · exact mem_sortRows.mpr (List.mem_map.mpr
      ⟨_, (Dict.mem_entries_iff _ _ _).mpr known, rfl⟩)
  · exact mem_sortRows.mpr (List.mem_map.mpr
      ⟨_, (Dict.mem_entries_iff _ _ _).mpr found, rfl⟩)
  · exact fun position listed => (List.mem_insertionSort _).mpr (all position listed)

theorem mem_sinkCategory {characters : Characters} {files : List RuleFile} {owner category : Str} :
    (owner, category) ∈ (emit (mine characters files)).sinkCategory ↔
      ((sinkEntries characters (inOrder files)).find? fun entry =>
        decide (entry.1.owner = owner)).map Prod.snd = some category := by
  rw [← get?_categories, ← Dict.mem_entries_iff]
  exact mem_sortRows

/-- **Categories.** All accepted sink lines keep the category of their file exactly
when no two of them name one owner from files of different categories. -/
theorem all_kept_iff (characters : Characters) (files : List RuleFile) :
    (∀ entry ∈ sinkEntries characters files,
        Kept (emit (mine characters files)) entry.1 entry.2) ↔
      ∀ first ∈ sinkEntries characters files, ∀ second ∈ sinkEntries characters files,
        first.1.owner = second.1.owner → first.2 = second.2 := by
  constructor
  · intro kept first firstListed second secondListed same
    have one := mem_sinkCategory.mp (kept first firstListed).category
    have other := mem_sinkCategory.mp (kept second secondListed).category
    rw [same, other] at one
    exact (Option.some.inj one).symm
  · intro consistent entry listed
    refine ⟨emitted_row listed, mem_sinkCategory.mpr ?_⟩
    cases found : (sinkEntries characters (inOrder files)).find? fun other =>
        decide (other.1.owner = entry.1.owner) with
    | none =>
        have absent := List.find?_eq_none.mp found entry (mem_sinkEntries_inOrder.mpr listed)
        exact absurd (decide_eq_true rfl) absent
    | some first =>
        have test := List.find?_some found
        have same := of_decide_eq_true test
        have known := mem_sinkEntries_inOrder.mp (List.mem_of_find?_eq_some found)
        exact congrArg some (consistent first known entry listed same)

/-- The text tables on ASCII. -/
def asciiCharacters : Characters where
  word letter := letter.isAlphanum || letter == '_'
  lower := lower
  number text := (decimal text).map Int.ofNat

/-- Two files with sinks of one owner. -/
def responseFiles : List RuleFile :=
  [⟨"is_xss-servlet.txt", ["demo/Response.write(Ljava/lang/String;)V:0\n".toList]⟩,
   ⟨"is_response-splitting.txt",
    ["demo/Response.addHeader(Ljava/lang/String;Ljava/lang/String;)V:0,1\n".toList]⟩]

example : sinkEntries asciiCharacters responseFiles =
    [(⟨"demo.Response".toList, "write".toList, [0]⟩, "CWE-79/xss".toList),
     (⟨"demo.Response".toList, "addheader".toList, [0, 1]⟩,
      "CWE-113/response-splitting".toList)] := by decide +kernel

/-- A sink of the second file is emitted under the category of the first. -/
theorem second_category_is_lost :
    ∃ entry ∈ sinkEntries asciiCharacters responseFiles,
      ¬ Kept (emit (mine asciiCharacters responseFiles)) entry.1 entry.2 := by
  refine ⟨(⟨"demo.Response".toList, "write".toList, [0]⟩, "CWE-79/xss".toList),
    by decide +kernel, fun kept => ?_⟩
  have emitted : (emit (mine asciiCharacters responseFiles)).sinkCategory =
      [("demo.Response".toList, "CWE-113/response-splitting".toList)] := by decide +kernel
  have listed := kept.category
  rw [emitted] at listed
  exact absurd listed (by decide +kernel)

end Keeping

end GraphIngest.Catalog
