import GraphIngest.Analysis.Graph
import GraphIngest.Foundation.Gathering

/-! # Reachability marks

The step between ingest and path enumeration: functions that can reach a
dangerous operation are marked backward from three sources of seeds, functions
that an entry point can reach forward from five. Both run one hop a round over
trusted calls, at most fifty rounds. A third loop collects which kinds of sinks a
function can reach.
-/

namespace GraphIngest.Analysis

open Foundation Text Graph External

/-- `DANGEROUS_KINDS`. -/
def dangerousKinds : List ExternalKind :=
  [.dbExecute, .dbOther, .exec, .fileWrite, .deserialize, .response, .reflection]

/-- `SUMMARY_SINKS`. -/
def summarySinks : List Str := ["sql", "exec", "file", "deserialize", "response", "reflection"]

/-- `ENTRY_ANNOTATIONS`. -/
def entryAnnotations : List Str :=
  ["WebService", "WebMethod", "Path", "GET", "POST", "PUT", "DELETE", "RequestMapping",
   "GetMapping", "PostMapping", "PutMapping", "DeleteMapping", "RestController", "Controller"]

/-- `_MAX_ITERATIONS`. -/
def maxIterations : Nat := 50

/-- A word in quotation marks (code point 34). -/
def quoted (word : Str) : Str := Char.ofNat 34 :: word ++ [Char.ofNat 34]

/-- The marks on the functions of a graph: `reaches_sink`, `sink_kinds`,
`reaches_sink_kinds` and `from_entry`, an absent list being empty. -/
structure Marks where
  reachesSink : List NodeId := []
  sinkKinds : NodeId → List ExternalKind := fun _ => []
  reachesSinkKinds : NodeId → List ExternalKind := fun _ => []
  fromEntry : List NodeId := []

namespace CodeGraph

variable (graph : CodeGraph)

section Seeds

/-- The wanted kinds of external targets that a function calls. -/
def callKinds (kinds : List ExternalKind) (id : NodeId) : List ExternalKind :=
  (((graph.targets .callsExternal id).filterMap graph.externalKind).filter (· ∈ kinds)).dedup

/-- Whether a fresh summary names a sink. -/
def summarised (id : NodeId) : Bool :=
  match (graph.reading id).summaryJson with
  | some json =>
      decide ((graph.reading id).summaryHash.isSome ∧
        (graph.reading id).summaryHash = (graph.reading id).bodyHash) &&
        summarySinks.any fun sink => decide (quoted sink <:+: json)
  | none => false

/-- The kinds of the categories the catalog marked a function with. -/
def catalogKinds (id : NodeId) : List ExternalKind :=
  (graph.taint id).categories.map categoryKind

/-- Whether a function carries an entry annotation. -/
def annotated (annotations : List Str) (id : NodeId) : Bool :=
  (graph.targets .annotatedWith id).any fun target =>
    match graph.store.nodes.get? target with
    | some node => decide (NodeLabel.annotation ∈ node.labels) && decide (node.name ∈ annotations)
    | none => false

/-- Whether a function exposes an endpoint. -/
def exposed (id : NodeId) : Bool :=
  (graph.targets .exposes id).any (graph.hasLabel .endpoint)

/-- Whether a function is the service method of a page. -/
def jspService (id : NodeId) : Bool :=
  match graph.store.nodes.get? id with
  | some node => decide (node.lang = .jsp) && decide (node.name = "_jspService".toList)
  | none => false

/-- The tests for entry points, in their order. -/
def entryTests (annotations : List Str) : List (NodeId → Bool) :=
  [graph.annotated annotations, graph.exposed, graph.jspService,
   fun id => (graph.taint id).source, fun id => (graph.reading id).sigEntry]

end Seeds

section Passes

/-- `clear_marks`. -/
def clearMarks (marks : Marks) : Marks :=
  let cleared := fun id => graph.isOwn id && (decide (id ∈ marks.reachesSink) ||
    decide (id ∈ marks.fromEntry) || !(marks.reachesSinkKinds id).isEmpty)
  { reachesSink := marks.reachesSink.filter fun id => !cleared id
    sinkKinds := fun id => if cleared id then [] else marks.sinkKinds id
    reachesSinkKinds := fun id => if cleared id then [] else marks.reachesSinkKinds id
    fromEntry := marks.fromEntry.filter fun id => !cleared id }

/-- Seed from the classified external calls. -/
def seedCalls (kinds : List ExternalKind) (marks : Marks) : Marks :=
  let seeds := graph.functions.filter fun id => !(graph.callKinds kinds id).isEmpty
  { marks with
    reachesSink := marks.reachesSink ++ seeds
    sinkKinds := fun id => if id ∈ seeds then graph.callKinds kinds id else marks.sinkKinds id }

def seedSummaries (marks : Marks) : Marks :=
  let seeds := graph.functions.filter fun id =>
    graph.summarised id && decide (id ∉ marks.reachesSink)
  { marks with reachesSink := marks.reachesSink ++ seeds }

def seedCatalog (marks : Marks) : Marks :=
  let seeds := graph.functions.filter fun id =>
    !(graph.catalogKinds id).isEmpty && decide (id ∉ marks.reachesSink)
  { marks with
    reachesSink := marks.reachesSink ++ seeds
    sinkKinds := fun id => if id ∈ seeds then graph.catalogKinds id else marks.sinkKinds id }

/-- The calls in reverse. -/
def callersOf : List (NodeId × NodeId) := graph.trustedCalls.map Prod.swap

/-- The seeds of `mark_reaches_sink`. -/
def seedSinks (kinds : List ExternalKind) (marks : Marks) : Marks :=
  graph.seedCatalog (graph.seedSummaries (graph.seedCalls kinds marks))

/-- `mark_reaches_sink`, with summaries. -/
def markReachesSink (kinds : List ExternalKind) (marks : Marks) : Marks :=
  let seeded := graph.seedSinks kinds marks
  { seeded with reachesSink := saturate graph.callersOf maxIterations seeded.reachesSink }

/-- What the functions hold when kinds start to be collected. -/
def seedKinds (marks : Marks) (id : NodeId) : List ExternalKind :=
  if graph.isOwn id && !(marks.sinkKinds id).isEmpty && (marks.reachesSinkKinds id).isEmpty then
    marks.sinkKinds id
  else marks.reachesSinkKinds id

/-- `mark_reaches_sink_kinds`. -/
def markReachesSinkKinds (marks : Marks) : Marks :=
  { marks with
    reachesSinkKinds := settle graph.trustedCalls maxIterations (graph.seedKinds marks) }

/-- Seed the functions that pass one test and are not marked yet. -/
def seedEntry (marked : List NodeId) (test : NodeId → Bool) : List NodeId :=
  marked ++ graph.functions.filter fun id => test id && decide (id ∉ marked)

/-- `mark_from_entry`. -/
def markFromEntry (annotations : List Str) (marks : Marks) : Marks :=
  { marks with
    fromEntry := saturate graph.trustedCalls maxIterations
      ((graph.entryTests annotations).foldl graph.seedEntry marks.fromEntry) }

/-- The kinds a run asks for: an empty list asks for the dangerous ones. -/
def wantedKinds (kinds : List ExternalKind) : List ExternalKind :=
  if kinds = [] then dangerousKinds else kinds

/-- `mark_all`. -/
def markAll (kinds : List ExternalKind) (marks : Marks) : Marks :=
  graph.markFromEntry entryAnnotations
    (graph.markReachesSinkKinds
      (graph.markReachesSink (wantedKinds kinds) (graph.clearMarks marks)))

end Passes

/-- Marks of earlier runs, as far as they stand on functions of the repository alone;
sink kinds are recorded only beside another mark. -/
structure Leftover where
  marks : Marks := {}
  sinks : ∀ id ∈ marks.reachesSink, graph.isOwn id = true := by
    exact fun _ listed => (List.not_mem_nil listed).elim
  entries : ∀ id ∈ marks.fromEntry, graph.isOwn id = true := by
    exact fun _ listed => (List.not_mem_nil listed).elim
  kinds : ∀ id, marks.reachesSinkKinds id ≠ [] → graph.isOwn id = true := by
    exact fun _ present => (present rfl).elim
  recorded : ∀ id, marks.sinkKinds id ≠ [] → graph.isOwn id = true ∧
      (id ∈ marks.reachesSink ∨ id ∈ marks.fromEntry ∨ marks.reachesSinkKinds id ≠ []) := by
    exact fun _ present => (present rfl).elim

/-- A function that seeds the backward pass. -/
def SinkSeed (kinds : List ExternalKind) (id : NodeId) : Prop :=
  graph.isOwn id = true ∧
    (graph.callKinds kinds id ≠ [] ∨ graph.summarised id = true ∨ graph.catalogKinds id ≠ [])

/-- A function that seeds the forward pass. -/
def EntrySeed (id : NodeId) : Prop :=
  graph.isOwn id = true ∧ ∃ test ∈ graph.entryTests entryAnnotations, test id = true

variable {graph}

section Clearing

theorem clearMarks_leftover (left : graph.Leftover) : graph.clearMarks left.marks = {} := by
  obtain ⟨marks, sinks, entries, kinds, recorded⟩ := left
  have cleared : ∀ id, graph.isOwn id = true →
      (id ∈ marks.reachesSink ∨ id ∈ marks.fromEntry ∨ marks.reachesSinkKinds id ≠ []) →
        (graph.isOwn id && (decide (id ∈ marks.reachesSink) || decide (id ∈ marks.fromEntry) ||
          !(marks.reachesSinkKinds id).isEmpty)) = true := by
    intro id own marked
    simpa only [own, Bool.true_and, Bool.or_eq_true, decide_eq_true_eq, Bool.not_eq_true',
      List.isEmpty_eq_false_iff, or_assoc] using marked
  unfold clearMarks
  dsimp only
  congr 1
  · refine List.filter_eq_nil_iff.mpr fun id listed => ?_
    rw [cleared id (sinks id listed) (Or.inl listed)]
    exact Bool.false_ne_true
  · funext id
    split
    · rfl
    · next kept =>
        by_contra present
        exact kept (cleared id (recorded id present).1 (recorded id present).2)
  · funext id
    split
    · rfl
    · next kept =>
        by_contra present
        exact kept (cleared id (kinds id present) (Or.inr (Or.inr present)))
  · refine List.filter_eq_nil_iff.mpr fun id listed => ?_
    rw [cleared id (entries id listed) (Or.inr (Or.inl listed))]
    exact Bool.false_ne_true

end Clearing

section Backward

variable {kinds : List ExternalKind}

/-- The seeds of the backward pass, with what was marked before. -/
theorem mem_seedSinks {marks : Marks} {id : NodeId} :
    id ∈ (graph.seedSinks kinds marks).reachesSink ↔
      id ∈ marks.reachesSink ∨ graph.SinkSeed kinds id := by
  simp only [seedSinks, seedCatalog, seedSummaries, seedCalls, SinkSeed,
    List.mem_append, List.mem_filter, mem_functions, Bool.and_eq_true, Bool.not_eq_true',
    List.isEmpty_eq_false_iff, decide_eq_true_eq, ne_eq]
  tauto

theorem chain_callersOf {length : Nat} {first last : NodeId} :
    Chain (fun a b => (a, b) ∈ graph.callersOf) length first last ↔
      graph.TrustedChain length last first := by
  rw [← Chain.reverse_iff]
  refine Chain.congr fun a b => ?_
  rw [callersOf, List.mem_map]
  constructor
  · rintro ⟨⟨caller, callee⟩, listed, same⟩
    obtain ⟨rfl, rfl⟩ := Prod.mk.inj same
    exact listed
  · exact fun listed => ⟨(a, b), listed, rfl⟩

/-- **Backward marks.** A function is marked exactly when a chain of trusted
calls, no longer than the guard, leads from it to a seed. -/
theorem mem_reachesSink {left : graph.Leftover} {id : NodeId} :
    id ∈ (graph.markAll kinds left.marks).reachesSink ↔
      ∃ seed, graph.SinkSeed (wantedKinds kinds) seed ∧
        ∃ length ≤ maxIterations, graph.TrustedChain length id seed := by
  rw [markAll, clearMarks_leftover]
  change id ∈ saturate graph.callersOf maxIterations
    (graph.seedSinks (wantedKinds kinds) {}).reachesSink ↔ _
  rw [mem_saturate]
  simp only [mem_seedSinks, List.not_mem_nil, false_or, chain_callersOf]

end Backward

section Forward

/-- Seeding test by test marks what passes some test. -/
theorem mem_foldl_seedEntry {tests : List (NodeId → Bool)} {marked : List NodeId} {id : NodeId} :
    id ∈ tests.foldl graph.seedEntry marked ↔
      id ∈ marked ∨ graph.isOwn id = true ∧ ∃ test ∈ tests, test id = true := by
  induction tests generalizing marked with
  | nil => simp only [List.foldl_nil, List.not_mem_nil, false_and, exists_false, and_false, or_false]
  | cons test tests ih =>
      rw [List.foldl_cons, ih]
      simp only [seedEntry, List.mem_append, List.mem_filter, mem_functions, Bool.and_eq_true,
        decide_eq_true_eq, List.mem_cons, exists_eq_or_imp]
      tauto

/-- **Forward marks.** A function is marked exactly when a chain of trusted
calls, no longer than the guard, leads to it from a seed. -/
theorem mem_fromEntry {kinds : List ExternalKind} {left : graph.Leftover} {id : NodeId} :
    id ∈ (graph.markAll kinds left.marks).fromEntry ↔
      ∃ seed, graph.EntrySeed seed ∧
        ∃ length ≤ maxIterations, graph.TrustedChain length seed id := by
  rw [markAll, clearMarks_leftover]
  change id ∈ saturate graph.trustedCalls maxIterations
    ((graph.entryTests entryAnnotations).foldl graph.seedEntry []) ↔ _
  rw [mem_saturate]
  simp only [mem_foldl_seedEntry, List.not_mem_nil, false_or, EntrySeed]

end Forward

end CodeGraph

end GraphIngest.Analysis
