import GraphIngest.Analysis.Contract
import GraphIngest.Analysis.Graph
import GraphIngest.Foundation.Fallible
import Mathlib.Data.List.ReduceOption

/-! # Findings of single bodies

A summary carries findings that its function's body alone decides. The harvest
reads them off the stored summaries, keeps the kinds that need no path, asks for
a confidence in one of three words, and grades what is left by kind and
confidence. The schema names no confidence: it asks for a certainty.
-/

namespace GraphIngest.Analysis

open Foundation Text Graph

/-- Severities. -/
inductive Severity
  | critical | high | medium | low | none
deriving DecidableEq, Repr

/-- `_SEVERITY_RANK`: the smaller, the more severe. -/
def Severity.rank : Severity → Nat
  | critical => 0
  | high => 1
  | medium => 2
  | low => 3
  | none => 4

/-- `SINGLE_FILE_KINDS`. -/
def singleFileKinds : List Str := ["resource_leak", "error_handling", "concurrency", "correctness"]

/-- `_MIN_CONFIDENCE`. -/
def minConfidence : List Str := ["high", "medium", "low"]

/-- `_MAX_SEVERITY_BY_KIND`, with its default. -/
def maxSeverityByKind (kind : Str) : Severity :=
  if kind = "resource_leak".toList ∨ kind = "concurrency".toList ∨ kind = "correctness".toList then
    .high
  else .medium

/-- The word in a confidence member: no other value is spelled like one of the
words that count. -/
def confidenceWord : Option Json → Str
  | some (.string text) => lower text
  | _ => []

/-- What a confidence is good for. -/
def severityByConfidence (word : Str) : Severity :=
  if word = "high".toList then .high else if word = "medium".toList then .medium else .low

/-- `_severity`: the lower of the two caps. -/
def severityOf (kind : Str) (confidence : Option Json) : Severity :=
  let ceiling := maxSeverityByKind kind
  let supported := severityByConfidence (confidenceWord confidence)
  if ceiling.rank < supported.rank then supported else ceiling

/-- An anchor of a finding. -/
structure Evidence where
  function : Str
  line : Json
  what : Json

/-- A finding in the shape of those of the path pass. -/
structure Finding where
  kind : Str
  severity : Severity
  entry : Str
  sink : Str
  file : Str
  line : Json
  pathIds : List NodeId
  pathFqns : List Str
  hops : Nat
  exploitable : Bool
  isDefect : Bool
  reasoning : Json
  evidence : List Evidence
  confidence : Option Json
  source : Str
  needSourceFor : List Str

/-- What a summary of an unforeseen shape ends the harvest with. -/
inductive Fault
  | attributeError | typeError
deriving DecidableEq, Repr

/-- The first member when it counts as true, else the other value. -/
def orElse (found : Option Json) (other : Json) : Json :=
  match found with
  | some value => if value.truthy then value else other
  | none => other

/-- The function, file and line a finding of a function is reported at. -/
def CodeGraph.place (graph : CodeGraph) (id : NodeId) : Str × Str × Json :=
  match graph.store.nodes.get? id with
  | some node => (node.fqn, node.file, if node.startLine = 0 then .null else .int node.startLine)
  | none => ([], [], .null)

/-- The finding made of an entry's members. -/
def CodeGraph.reportEntry (graph : CodeGraph) (id : NodeId) (kind : Str)
    (members : List (Str × Json)) : Finding :=
  let (fqn, file, startLine) := graph.place id
  let line := orElse (members.lookup "line".toList) startLine
  let detail := orElse (members.lookup "detail".toList) (.string [])
  { kind := kind
    severity := severityOf kind (members.lookup "confidence".toList)
    entry := fqn
    sink := fqn
    file := file
    line := line
    pathIds := [id]
    pathFqns := [fqn]
    hops := 0
    exploitable := false
    isDefect := true
    reasoning := detail
    evidence := [⟨fqn, line, detail⟩]
    confidence := members.lookup "confidence".toList
    source := "file_pass"
    needSourceFor := [] }

/-- Whether a member's confidence is in one of the words that count. -/
def confident (members : List (Str × Json)) : Bool :=
  decide (confidenceWord (members.lookup "confidence".toList) ∈ minConfidence)

/-- One entry of a summary. -/
def CodeGraph.harvestEntry (graph : CodeGraph) (kinds : List Str) (id : NodeId) :
    Json → Except Fault (Option Finding)
  | .object members =>
      match members.lookup "kind".toList with
      | some (.string kind) =>
          .ok (if kind ∈ kinds ∧ confident members = true then
            some (graph.reportEntry id kind members) else none)
      | some (.array _) => .error .typeError
      | some (.object _) => .error .typeError
      | _ => .ok none
  | _ => .error .attributeError

/-- `summary.get("findings") or []`, as what is iterated over. -/
def findingsOf : Json → Except Fault (List Json)
  | .object members =>
      match members.lookup "findings".toList with
      | none => .ok []
      | some found =>
          if !found.truthy then .ok []
          else
            match found with
            | .array entries => .ok entries
            | .string text => .ok (text.map fun letter => .string [letter])
            | .object inner => .ok (inner.map fun field => .string field.1)
            | _ => .error .typeError
  | _ => .error .attributeError

section Harvest

variable (loads : Str → Option Json) (graph : CodeGraph) (kinds : List Str)

/-- The functions of the repository with a summary of their current body. -/
def CodeGraph.freshFunctions : List NodeId :=
  graph.functions.filter fun id =>
    (graph.reading id).summaryJson.isSome && (graph.reading id).summaryHash.isSome &&
      decide ((graph.reading id).summaryHash = (graph.reading id).bodyHash)

/-- The stored summary of a function, as far as it is read. -/
def CodeGraph.summary? (id : NodeId) : Option Json := (graph.reading id).summaryJson.bind loads

/-- The findings of one function. -/
def CodeGraph.harvestFunction (id : NodeId) : Except Fault (List Finding) :=
  match graph.summary? loads id with
  | none => .ok []
  | some summary => do
      let entries ← findingsOf summary
      let found ← entries.mapM (graph.harvestEntry kinds id)
      return found.reduceOption

/-- `harvest`. -/
def CodeGraph.harvest : Except Fault (List Finding) := do
  let found ← graph.freshFunctions.mapM (graph.harvestFunction loads kinds)
  return found.flatten

end Harvest

section Completeness

/-- The entries of a summary's `findings` array. -/
def findingsArray : Json → List Json
  | .object members =>
      match members.lookup "findings".toList with
      | some (.array entries) => entries
      | _ => []
  | _ => []

/-- The kind and the members of an entry of one of the kinds. -/
def ofKinds (kinds : List Str) : Json → Option (Str × List (Str × Json))
  | .object members =>
      match members.lookup "kind".toList with
      | some (.string kind) => if kind ∈ kinds then some (kind, members) else none
      | _ => none
  | _ => none

/-- A summary whose findings are objects with a kind. -/
def Shaped (summary : Json) : Prop :=
  ∃ members entries, summary = .object members ∧
    members.lookup "findings".toList = some (.array entries) ∧
      ∀ entry ∈ entries, ∃ inner kind, entry = .object inner ∧
        inner.lookup "kind".toList = some (.string kind)

namespace CodeGraph

variable (loads : Str → Option Json) (graph : CodeGraph) (kinds : List Str)

/-- The entries of the wanted kinds in the summary of a function. -/
def findingEntriesOf (id : NodeId) : List (NodeId × Str × List (Str × Json)) :=
  match graph.summary? loads id with
  | some summary => ((findingsArray summary).filterMap (ofKinds kinds)).map fun entry => (id, entry)
  | none => []

/-- The entries of the wanted kinds in all fresh summaries. -/
def findingEntries : List (NodeId × Str × List (Str × Json)) :=
  graph.freshFunctions.flatMap (graph.findingEntriesOf loads kinds)

/-- Every fresh summary is of the shape the harvest expects. -/
def SummariesShaped : Prop :=
  ∀ id ∈ graph.freshFunctions, ∀ summary ∈ graph.summary? loads id, Shaped summary

/-- Every fresh summary can be read and conforms to the contract. -/
def SummariesConform : Prop :=
  ∀ id ∈ graph.freshFunctions, ∃ summary ∈ graph.summary? loads id,
    summarySchema.conforms summary = true

/-- The harvest has one finding for every entry of its kinds, and none is more
severe than the ceiling of its kind. -/
def NoFindingLost : Prop :=
  ∃ findings, graph.harvest loads singleFileKinds = .ok findings ∧
    List.Forall₂ (fun entry finding => finding.pathIds = [entry.1] ∧ finding.kind = entry.2.1)
      (graph.findingEntries loads singleFileKinds) findings ∧
    ∀ finding ∈ findings, (maxSeverityByKind finding.kind).rank ≤ finding.severity.rank

variable {loads graph kinds}

/-- The harvest keeps the entries with a confidence it knows. -/
theorem harvestFunction_eq {id : NodeId}
    (shaped : ∀ summary ∈ graph.summary? loads id, Shaped summary) :
    graph.harvestFunction loads kinds id =
      .ok (((graph.findingEntriesOf loads kinds id).filter fun entry => confident entry.2.2).map
        fun entry => graph.reportEntry entry.1 entry.2.1 entry.2.2) := by
  unfold harvestFunction findingEntriesOf
  cases stored : graph.summary? loads id with
  | none => rfl
  | some summary =>
      obtain ⟨members, listed, rfl, found, each⟩ := shaped summary stored
      have whole : findingsOf (.object members) = .ok listed := by
        cases listed with
        | nil => simp only [findingsOf, found, Json.truthy, List.isEmpty_nil, Bool.not_true,
            Bool.not_false, ↓reduceIte]
        | cons head tail => simp only [findingsOf, found, Json.truthy, List.isEmpty_cons,
            Bool.not_false, Bool.not_true, Bool.false_eq_true, ↓reduceIte]
      have stepped : ∀ entry ∈ listed, graph.harvestEntry kinds id entry =
          .ok (((ofKinds kinds entry).filter fun entry => confident entry.2).map
            fun entry => graph.reportEntry id entry.1 entry.2) := by
        intro entry present
        obtain ⟨inner, kind, rfl, named⟩ := each entry present
        simp only [harvestEntry, ofKinds, named]
        by_cases wanted : kind ∈ kinds
        · cases sure : confident inner <;>
            simp only [wanted, sure, true_and, ↓reduceIte, Option.filter_some, Option.map_some,
              Bool.false_eq_true, Option.map_none]
        · simp only [wanted, false_and, ↓reduceIte, Option.filter_none, Option.map_none]
      simp only [whole, mapM_eq_ok stepped, bind, Except.bind, pure, Except.pure, findingsArray,
        found, Except.ok.injEq]
      rw [List.filter_map, List.map_map, List.filter_filterMap, List.map_filterMap,
        List.reduceOption, List.filterMap_map]
      rfl

/-- The harvest of a well-shaped store is that of its entries. -/
theorem harvest_eq (shaped : graph.SummariesShaped loads) :
    graph.harvest loads kinds =
      .ok (((graph.findingEntries loads kinds).filter fun entry => confident entry.2.2).map
        fun entry => graph.reportEntry entry.1 entry.2.1 entry.2.2) := by
  unfold harvest
  rw [mapM_eq_ok fun id fresh => harvestFunction_eq (shaped id fresh), findingEntries,
    List.filter_flatMap, List.map_flatMap, List.flatMap_def]
  rfl

/-- The code never grades above the ceiling of a kind. -/
theorem rank_le_severityOf (kind : Str) (confidence : Option Json) :
    (maxSeverityByKind kind).rank ≤ (severityOf kind confidence).rank := by
  simp only [severityOf]
  split
  · next lower => exact lower.le
  · exact le_rfl

/-- In a well-shaped store no finding is lost exactly when every entry of the kinds
has a confidence that counts. -/
theorem noFindingLost_iff_confident (shaped : graph.SummariesShaped loads) :
    graph.NoFindingLost loads ↔
      ∀ entry ∈ graph.findingEntries loads singleFileKinds, confident entry.2.2 = true := by
  unfold NoFindingLost
  rw [harvest_eq shaped]
  constructor
  · rintro ⟨findings, returned, matched, _⟩
    cases returned
    have full := matched.length_eq
    rw [List.length_map] at full
    exact List.length_filter_eq_length_iff.mp full.symm
  · intro sure
    refine ⟨_, rfl, ?_, ?_⟩
    · rw [List.filter_eq_self.mpr sure, List.forall₂_map_right_iff, List.forall₂_same]
      exact fun entry _ => ⟨rfl, rfl⟩
    · intro finding reported
      obtain ⟨entry, _, rfl⟩ := List.mem_map.mp reported
      exact rank_le_severityOf _ _

theorem shaped_of_conforms {summary : Json} (conforming : summarySchema.conforms summary = true) :
    Shaped summary := by
  obtain ⟨members, entries, rfl, found, each⟩ := findings_of_conforms conforming
  refine ⟨members, entries, rfl, found, fun entry listed => ?_⟩
  obtain ⟨inner, kind, rfl, named, _⟩ := entry_of_conforms (each entry listed)
  exact ⟨inner, kind, rfl, named⟩

theorem SummariesConform.shaped (conform : graph.SummariesConform loads) :
    graph.SummariesShaped loads := by
  intro id fresh summary stored
  obtain ⟨other, same, conforming⟩ := conform id fresh
  rw [Option.mem_unique stored same]
  exact shaped_of_conforms conforming

/-- The entries of a conforming store have no confidence. -/
theorem unsure_of_mem_findingEntries (conform : graph.SummariesConform loads)
    {entry : NodeId × Str × List (Str × Json)} (listed : entry ∈ graph.findingEntries loads kinds) :
    confident entry.2.2 = false := by
  obtain ⟨id, fresh, held⟩ := List.mem_flatMap.mp listed
  obtain ⟨summary, stored, conforming⟩ := conform id fresh
  obtain ⟨members, found, rfl, present, each⟩ := findings_of_conforms conforming
  rw [findingEntriesOf, stored] at held
  obtain ⟨pair, kept, rfl⟩ := List.mem_map.mp held
  obtain ⟨source, raw, wanted⟩ := List.mem_filterMap.mp kept
  simp only [findingsArray, present] at raw
  obtain ⟨inner, kind, rfl, named, silent⟩ := entry_of_conforms (each source raw)
  simp only [ofKinds, named] at wanted
  split at wanted
  · cases wanted
    rw [confident, silent]
    decide
  · cases wanted

/-- **Findings of single bodies.** Where the summaries conform to the contract, no
finding is lost exactly when there is none to harvest. -/
theorem noFindingLost_iff_no_entry (conform : graph.SummariesConform loads) :
    graph.NoFindingLost loads ↔ graph.findingEntries loads singleFileKinds = [] := by
  rw [noFindingLost_iff_confident conform.shaped, List.eq_nil_iff_forall_not_mem]
  refine forall_congr' fun entry => imp_congr_right fun listed => ?_
  rw [unsure_of_mem_findingEntries conform listed]
  simp only [Bool.false_eq_true]

end CodeGraph

section Sample

/-- A summary with some findings, as the contract asks for it. -/
def contractSummary (findings : List Json) : Json :=
  .object
    [("id".toList, .string "f".toList),
     ("does".toList, .string "reads a row".toList),
     ("contracts".toList, .object
       [("may_return_null".toList, .bool false),
        ("null_condition".toList, .string []),
        ("returns_sentinel".toList, .string []),
        ("unguarded_calls".toList, .array []),
        ("swallowed_exception_calls".toList, .array [])]),
     ("db".toList, .object
       [("acquires".toList, .bool true),
        ("releases".toList, .bool false),
        ("released_in_finally".toList, .bool false),
        ("executes_sql".toList, .bool true),
        ("sql_is_dynamic".toList, .bool false),
        ("resources_leaked".toList, .array [.string "conn".toList]),
        ("throws_between_acquire_and_release".toList, .bool false),
        ("resource_types".toList, .array [.string "Connection".toList])]),
     ("touches".toList, .array [.string "sql".toList]),
     ("source".toList, .object
       [("is_entry_point".toList, .bool false),
        ("reads_untrusted".toList, .bool false),
        ("kinds".toList, .array [])]),
     ("guards".toList, .object
       [("is_sanitizer".toList, .bool false),
        ("authenticates".toList, .bool false),
        ("authorizes".toList, .bool false),
        ("validates_input".toList, .bool false),
        ("sanitizers_called".toList, .array [])]),
     ("findings".toList, .array findings)]

/-- A summary with one leak. -/
def leakSummary : Json :=
  contractSummary
    [.object
      [("kind".toList, .string "resource_leak".toList),
       ("line".toList, .int 12),
       ("detail".toList, .string "conn is not closed".toList),
       ("certainty".toList, .string "demonstrated".toList),
       ("impact".toList, .string "integrity".toList)]]

/-- The id of the one function. -/
def leakId : NodeId := ⟨"f".toList, by decide⟩

/-- The reader of the one stored text. -/
def loadsOf (summary : Json) (text : Str) : Option Json :=
  if text = summary.dumps then some summary else none

/-- A graph of one function with a summary of its current body. -/
def summarizedGraph (summary : Json) : CodeGraph where
  repo := "demo"
  store := sampleStore [sampleFunction leakId] []
  taint := fun _ => {}
  reading := fun _ =>
    { bodyHash := some "b".toList
      summaryHash := some "b".toList
      summaryJson := some summary.dumps }

/-- The text reads as the summary it was written from. -/
theorem summarizedGraph_summary? (summary : Json) (id : NodeId) :
    (summarizedGraph summary).summary? (loadsOf summary) id = some summary := by
  simp only [CodeGraph.summary?, summarizedGraph, Option.bind_some, loadsOf, ↓reduceIte]

/-- The summary of the sample conforms. -/
theorem leak_conforms : (summarizedGraph leakSummary).SummariesConform (loadsOf leakSummary) :=
  fun id _ => ⟨leakSummary, summarizedGraph_summary? leakSummary id, by decide +kernel⟩

/-- The leak is not reported. -/
theorem leak_lost : (summarizedGraph leakSummary).SummariesConform (loadsOf leakSummary) ∧
    ¬ (summarizedGraph leakSummary).NoFindingLost (loadsOf leakSummary) := by
  refine ⟨leak_conforms, fun complete => ?_⟩
  have sure := (CodeGraph.noFindingLost_iff_confident leak_conforms.shaped).mp complete
  have fresh : leakId ∈ (summarizedGraph leakSummary).freshFunctions := by
    refine List.mem_filter.mpr ⟨by decide +kernel, ?_⟩
    simp only [summarizedGraph, Option.isSome_some, Bool.and_self, decide_true]
  obtain ⟨entry, listed⟩ : ∃ entry, entry ∈
      (summarizedGraph leakSummary).findingEntriesOf (loadsOf leakSummary) singleFileKinds
        leakId := by
    rw [← List.isEmpty_eq_false_iff_exists_mem, CodeGraph.findingEntriesOf,
      summarizedGraph_summary?]
    decide +kernel
  have harvested : entry ∈
      (summarizedGraph leakSummary).findingEntries (loadsOf leakSummary) singleFileKinds :=
    List.mem_flatMap.mpr ⟨leakId, fresh, listed⟩
  have unsure := CodeGraph.unsure_of_mem_findingEntries leak_conforms harvested
  rw [sure entry harvested] at unsure
  cases unsure

/-- Nothing is lost where the summary has no finding. -/
theorem noFindingLost_without_findings :
    (summarizedGraph (contractSummary [])).SummariesConform (loadsOf (contractSummary [])) ∧
      (summarizedGraph (contractSummary [])).NoFindingLost (loadsOf (contractSummary [])) := by
  have conform : (summarizedGraph (contractSummary [])).SummariesConform
      (loadsOf (contractSummary [])) :=
    fun id _ => ⟨_, summarizedGraph_summary? _ id, by decide +kernel⟩
  refine ⟨conform, (CodeGraph.noFindingLost_iff_no_entry conform).mpr ?_⟩
  refine List.flatMap_eq_nil_iff.mpr fun id _ => ?_
  rw [CodeGraph.findingEntriesOf, summarizedGraph_summary?]
  rfl

end Sample

end Completeness

end GraphIngest.Analysis
