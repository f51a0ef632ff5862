import GraphIngest.Analysis.Priority

/-! # Scoring stored summaries again

The summary pass asks for the functions whose summary is of another body or of an older shape.
Scoring stored summaries again writes their signals, the version of the schema among them, and
so has a say in what the pass asks for.
-/

namespace GraphIngest.Analysis

open Foundation Graph

/-- A graph with the signals of its functions. -/
structure ScoredGraph extends CodeGraph where
  signals : NodeId → Option Signals

/-- What the summary pass reads of a function. -/
structure FunctionRow where
  id : NodeId
  name : Str
  fqn : Str
  signature : Str
  startLine : Int
  endLine : Int
  bodyHash : Option Str
  kind : NodeKind
  summaryHash : Option Str
  sigSchemaVersion : Option Int

/-- A file with its functions. -/
structure FileRow where
  file : Str
  lang : Lang
  functions : List FunctionRow

/-- Whether a function needs a summary: its content or its shape is stale. -/
def FunctionRow.stale (row : FunctionRow) : Bool :=
  row.bodyHash.getD [] != [] &&
    (row.summaryHash != row.bodyHash || decide (row.sigSchemaVersion.getD 0 < schemaVersion))

/-- `needs_summary`. -/
def needsSummary (functions : List FunctionRow) : List FunctionRow :=
  functions.filter FunctionRow.stale

namespace ScoredGraph

section Selection

variable (graph : ScoredGraph) (langs : List Lang)

/-- The row of a function. -/
def functionRow (id : NodeId) (node : StoredNode) : FunctionRow where
  id := id
  name := node.name
  fqn := node.fqn
  signature := node.signature
  startLine := node.startLine
  endLine := node.endLine
  bodyHash := (graph.reading id).bodyHash
  kind := node.kind
  summaryHash := (graph.reading id).summaryHash
  sigSchemaVersion := (graph.signals id).map Signals.schemaVersion

/-- Whether the query for files takes a function. -/
def taken (id : NodeId) (node : StoredNode) : Bool :=
  node.file != [] && (graph.reading id).bodyHash.isSome &&
    (langs.isEmpty || (node.lang != .none && langs.contains node.lang))

/-- What the query for files has of a function, with the file and the language. -/
def queried (id : NodeId) : Option ((Str × Lang) × FunctionRow) :=
  (graph.store.nodes.get? id).bind fun node =>
    if graph.taken langs id node then some ((node.file, node.lang), graph.functionRow id node)
    else none

/-- `files_with_functions`. -/
def filesWithFunctions : List FileRow :=
  let files := (grouped Prod.fst (graph.functions.filterMap (graph.queried langs))).entries
  (files.map fun entry =>
    { file := entry.1.1
      lang := entry.1.2
      functions := (entry.2.map Prod.snd).insertionSort fun row other =>
        row.startLine ≤ other.startLine : FileRow }).insertionSort fun row other =>
          row.file ≤ other.file

/-- The functions that the summary pass asks for. -/
def pending : List NodeId :=
  (graph.filesWithFunctions langs).flatMap fun entry =>
    (needsSummary entry.functions).map FunctionRow.id

end Selection

section Backfill

variable (loads : Str → Option Json) (pyStr : Json → Str) (sortNumbers : List Json → List Json)
variable (graph : ScoredGraph)

/-- `SET f += row.sig`. -/
def setSignals (entry : NodeId × Signals) : ScoredGraph where
  repo := graph.repo
  store := graph.store
  taint := graph.taint
  reading := fun id =>
    if id = entry.1 then { graph.reading id with sigEntry := entry.2.entry } else graph.reading id
  signals := fun id => if id = entry.1 then some entry.2 else graph.signals id

/-- The functions of the repository with a stored summary that can be read. -/
def summarised : List (NodeId × Json) :=
  graph.functions.filterMap fun id => (graph.summary? loads id).map fun summary => (id, summary)

/-- The signals that are written. -/
def payload : Except Fault (List (NodeId × Signals)) :=
  (graph.summarised loads).mapM fun entry =>
    (deriveSignals pyStr sortNumbers entry.2).map fun signals => (entry.1, signals)

/-- `backfill_signals`: the graph, and the number of functions written. -/
def backfillSignals : Except Fault (ScoredGraph × Nat) :=
  (graph.payload loads pyStr sortNumbers).map fun rows => (rows.foldl setSignals graph, rows.length)

/-- The graph behind a backfill; one that fails has written nothing. -/
def backfilled : ScoredGraph :=
  match graph.backfillSignals loads pyStr sortNumbers with
  | .ok out => out.1
  | .error _ => graph

end Backfill

section Frame

variable {graph : ScoredGraph} {langs : List Lang}

/-- A function that the query for files takes and whose row is stale. -/
def Pending (graph : ScoredGraph) (langs : List Lang) (id : NodeId) : Prop :=
  graph.isOwn id = true ∧ ∃ node, graph.store.nodes.get? id = some node ∧
    graph.taken langs id node = true ∧ (graph.functionRow id node).stale = true

theorem queried_eq_some {id : NodeId} {entry : (Str × Lang) × FunctionRow} :
    graph.queried langs id = some entry ↔ ∃ node, graph.store.nodes.get? id = some node ∧
      graph.taken langs id node = true ∧
        entry = ((node.file, node.lang), graph.functionRow id node) := by
  unfold queried
  rw [Option.bind_eq_some_iff]
  constructor
  · intro found
    obtain ⟨node, held, made⟩ := found
    split at made
    case isTrue taken => exact ⟨node, held, taken, (Option.some.inj made).symm⟩
    case isFalse => cases made
  · intro found
    obtain ⟨node, held, taken, rfl⟩ := found
    exact ⟨node, held, if_pos taken⟩

/-- The pass asks for exactly the functions with a stale row. -/
theorem mem_pending {id : NodeId} : id ∈ graph.pending langs ↔ graph.Pending langs id := by
  unfold pending filesWithFunctions
  simp only [List.mem_flatMap, List.mem_insertionSort, List.mem_map, needsSummary, List.mem_filter]
  constructor
  · intro asked
    obtain ⟨_, ⟨⟨key, group⟩, listed, rfl⟩, row, ⟨member, stale⟩, rfl⟩ := asked
    rw [List.mem_insertionSort, List.mem_map] at member
    obtain ⟨entry, inside, rfl⟩ := member
    obtain ⟨rfl, _⟩ := mem_entries_grouped.mp listed
    obtain ⟨found, own, queried⟩ := List.mem_filterMap.mp (List.mem_filter.mp inside).1
    obtain ⟨node, held, taken, rfl⟩ := queried_eq_some.mp queried
    exact ⟨CodeGraph.mem_functions.mp own, node, held, taken, stale⟩
  · intro pending
    obtain ⟨own, node, held, taken, stale⟩ := pending
    have asked : ((node.file, node.lang), graph.functionRow id node) ∈
        graph.functions.filterMap (graph.queried langs) :=
      List.mem_filterMap.mpr ⟨id, CodeGraph.mem_functions.mpr own,
        queried_eq_some.mpr ⟨node, held, taken, rfl⟩⟩
    have inside : ((node.file, node.lang), graph.functionRow id node) ∈
        (graph.functions.filterMap (graph.queried langs)).filter fun entry =>
          decide (entry.1 = (node.file, node.lang)) :=
      List.mem_filter.mpr ⟨asked, decide_eq_true rfl⟩
    refine ⟨_, ⟨_, mem_entries_grouped.mpr ⟨rfl, List.ne_nil_of_mem inside⟩, rfl⟩,
      graph.functionRow id node, ⟨?_, stale⟩, rfl⟩
    rw [List.mem_insertionSort]
    exact List.mem_map_of_mem inside

variable {loads : Str → Option Json} {pyStr : Json → Str} {sortNumbers : List Json → List Json}

/-- What is left alone by the signals of some functions. -/
theorem foldl_setSignals (rows : List (NodeId × Signals)) (graph : ScoredGraph) :
    (rows.foldl setSignals graph).repo = graph.repo ∧
      (rows.foldl setSignals graph).store = graph.store ∧
        ∀ id, ((rows.foldl setSignals graph).reading id).bodyHash = (graph.reading id).bodyHash ∧
          ((rows.foldl setSignals graph).reading id).summaryHash =
            (graph.reading id).summaryHash := by
  induction rows generalizing graph with
  | nil => exact ⟨rfl, rfl, fun _ => ⟨rfl, rfl⟩⟩
  | cons entry rest ih =>
      obtain ⟨repo, store, reading⟩ := ih (graph.setSignals entry)
      refine ⟨repo, store, fun id => ?_⟩
      rw [List.foldl_cons, (reading id).1, (reading id).2]
      unfold setSignals
      dsimp only
      split <;> exact ⟨rfl, rfl⟩

/-- The version behind the signals of some functions, all of them of the present schema. -/
theorem version_foldl_setSignals {rows : List (NodeId × Signals)}
    (present : ∀ entry ∈ rows, entry.2.schemaVersion = schemaVersion) (graph : ScoredGraph)
    (id : NodeId) :
    ((rows.foldl setSignals graph).signals id).map Signals.schemaVersion =
      if id ∈ rows.map Prod.fst then some schemaVersion
      else (graph.signals id).map Signals.schemaVersion := by
  induction rows generalizing graph with
  | nil => rfl
  | cons entry rest ih =>
      obtain ⟨first, later⟩ := List.forall_mem_cons.mp present
      rw [List.foldl_cons, ih later, List.map_cons]
      by_cases member : id ∈ rest.map Prod.fst
      · rw [if_pos member, if_pos (List.mem_cons_of_mem _ member)]
      · rw [if_neg member]
        unfold setSignals
        dsimp only
        by_cases same : id = entry.1
        · rw [if_pos same, if_pos (same ▸ List.mem_cons_self), Option.map_some, first]
        · rw [if_neg same, if_neg (List.not_mem_cons_of_ne_of_not_mem same member)]

/-- The functions written are those with a summary that can be read, and all of them get the
present version. -/
theorem payload_spec {rows : List (NodeId × Signals)}
    (written : graph.payload loads pyStr sortNumbers = .ok rows) :
    (∀ entry ∈ rows, entry.2.schemaVersion = schemaVersion) ∧
      rows.map Prod.fst = (graph.summarised loads).map Prod.fst := by
  have each := forall₂_of_mapM written
  clear written
  generalize graph.summarised loads = items at each ⊢
  induction each with
  | nil => exact ⟨fun _ member => (List.not_mem_nil member).elim, rfl⟩
  | @cons item row items rows here _ ih =>
      obtain ⟨signals, derived, rfl⟩ := map_eq_ok.mp here
      refine ⟨List.forall_mem_cons.mpr ⟨schemaVersion_of_deriveSignals derived, ih.1⟩, ?_⟩
      rw [List.map_cons, List.map_cons, ih.2]

/-- Every summary that can be read has the shape that the signals need. -/
def AllScorable (loads : Str → Option Json) (graph : ScoredGraph) : Prop :=
  ∀ id ∈ graph.functions, ∀ summary ∈ graph.summary? loads id, ScorableSummary summary

theorem runs_payload :
    Runs (graph.payload loads pyStr sortNumbers) ↔ graph.AllScorable loads := by
  unfold payload summarised AllScorable
  rw [runs_mapM]
  constructor
  · intro runs id own summary found
    have member : (id, summary) ∈ graph.functions.filterMap fun id =>
        (graph.summary? loads id).map fun summary => (id, summary) :=
      List.mem_filterMap.mpr ⟨id, own, by rw [Option.mem_def.mp found, Option.map_some]⟩
    exact runs_deriveSignals.mp (runs_map.mp (runs _ member))
  · intro scorable entry member
    obtain ⟨id, own, made⟩ := List.mem_filterMap.mp member
    obtain ⟨summary, found, rfl⟩ := Option.map_eq_some_iff.mp made
    exact runs_map.mpr (runs_deriveSignals.mpr (scorable id own summary found))

theorem mem_summarised {id : NodeId} : id ∈ (graph.summarised loads).map Prod.fst ↔
    graph.isOwn id = true ∧ graph.summary? loads id ≠ none := by
  unfold summarised
  rw [List.mem_map, Option.ne_none_iff_exists']
  constructor
  · intro listed
    obtain ⟨entry, member, rfl⟩ := listed
    obtain ⟨id, own, made⟩ := List.mem_filterMap.mp member
    obtain ⟨summary, found, rfl⟩ := Option.map_eq_some_iff.mp made
    exact ⟨CodeGraph.mem_functions.mp own, summary, found⟩
  · intro held
    obtain ⟨own, summary, found⟩ := held
    refine ⟨(id, summary), List.mem_filterMap.mpr ⟨id, CodeGraph.mem_functions.mpr own, ?_⟩, rfl⟩
    rw [found, Option.map_some]

theorem stale_functionRow {id : NodeId} {node : StoredNode} :
    (graph.functionRow id node).stale = true ↔ (graph.reading id).bodyHash.getD [] ≠ [] ∧
      ((graph.reading id).summaryHash ≠ (graph.reading id).bodyHash ∨
        ((graph.signals id).map Signals.schemaVersion).getD 0 < schemaVersion) := by
  simp only [FunctionRow.stale, functionRow, Bool.and_eq_true, Bool.or_eq_true, bne_iff_ne]
  exact and_congr_right' (or_congr_right decide_eq_true_iff)

/-- Where nothing is raised, a function is asked for as before, unless its summary is of the
current body and can be read. -/
theorem pending_backfilled {id : NodeId} (scorable : graph.AllScorable loads) :
    (graph.backfilled loads pyStr sortNumbers).Pending langs id ↔
      graph.Pending langs id ∧ ((graph.reading id).summaryHash ≠ (graph.reading id).bodyHash ∨
        graph.summary? loads id = none) := by
  obtain ⟨rows, written⟩ := (@runs_payload graph loads pyStr sortNumbers).mpr scorable
  obtain ⟨present, ids⟩ := payload_spec written
  obtain ⟨repo, store, reading⟩ := foldl_setSignals rows graph
  have version := version_foldl_setSignals present graph id
  rw [ids] at version
  have unfolded : graph.backfilled loads pyStr sortNumbers = rows.foldl setSignals graph := by
    unfold backfilled backfillSignals
    rw [written]
    rfl
  have own : (rows.foldl setSignals graph).isOwn id = graph.isOwn id := by
    unfold CodeGraph.isOwn
    rw [store, repo]
  have taken (node : StoredNode) :
      (rows.foldl setSignals graph).taken langs id node = graph.taken langs id node := by
    unfold ScoredGraph.taken
    rw [(reading id).1]
  rw [unfolded]
  unfold Pending
  simp only [stale_functionRow, own, store, taken, (reading id).1, (reading id).2, version]
  by_cases listed : id ∈ (graph.summarised loads).map Prod.fst
  · obtain ⟨_, readable⟩ := mem_summarised.mp listed
    rw [if_pos listed, Option.getD_some, or_iff_left readable, or_iff_left (lt_irrefl _)]
    constructor
    · intro asked
      obtain ⟨mine, node, held, kept, body, changed⟩ := asked
      exact ⟨⟨mine, node, held, kept, body, .inl changed⟩, changed⟩
    · intro asked
      obtain ⟨⟨mine, node, held, kept, body, _⟩, changed⟩ := asked
      exact ⟨mine, node, held, kept, body, changed⟩
  · rw [if_neg listed]
    refine (and_iff_left_of_imp fun asked => .inr ?_).symm
    rw [mem_summarised, not_and, not_not] at listed
    exact listed asked.1

/-- The summary pass asks for the same functions behind a backfill as in front of it. -/
def SelectionKept (loads : Str → Option Json) (pyStr : Json → Str)
    (sortNumbers : List Json → List Json) (graph : ScoredGraph) (langs : List Lang) : Prop :=
  ∀ id, id ∈ (graph.backfilled loads pyStr sortNumbers).pending langs ↔ id ∈ graph.pending langs

/-- **Scoring again.** It keeps what the summary pass asks for exactly where it fails, or where no
function with a summary of its current body and of an older shape has one that can be read. -/
theorem selectionKept_iff (loads : Str → Option Json) (pyStr : Json → Str)
    (sortNumbers : List Json → List Json) (graph : ScoredGraph) (langs : List Lang) :
    graph.SelectionKept loads pyStr sortNumbers langs ↔
      ¬ graph.AllScorable loads ∨ ∀ id ∈ graph.pending langs,
        (graph.reading id).summaryHash = (graph.reading id).bodyHash →
          graph.summary? loads id = none := by
  unfold SelectionKept
  simp only [mem_pending]
  by_cases scorable : graph.AllScorable loads
  · rw [or_iff_right (not_not.mpr scorable)]
    apply forall_congr'
    intro id
    rw [pending_backfilled scorable, and_iff_left_iff_imp]
    apply imp_congr_right
    intro _
    exact Decidable.or_iff_not_imp_left.trans (imp_congr_left not_not)
  · have raised : graph.backfilled loads pyStr sortNumbers = graph := by
      unfold backfilled backfillSignals
      cases written : graph.payload loads pyStr sortNumbers with
      | ok rows => exact (scorable (runs_payload.mp ⟨rows, written⟩)).elim
      | error fault => rfl
    rw [raised]
    exact iff_of_true (fun _ => Iff.rfl) (.inl scorable)

/-- A function whose summary is of its current body and of the fourth version. -/
def olderGraph : ScoredGraph where
  repo := "demo"
  store := sampleStore [{ sampleFunction sampleId with file := "F.java".toList }] []
  taint := fun _ => {}
  reading := fun _ =>
    { bodyHash := some "h", summaryHash := some "h", summaryJson := some "\x7b\x7d" }
  signals := fun _ =>
    some { (⟨[], [], [], [], 0, [], [], [], []⟩ : Observed).signals fun _ => [] with
      schemaVersion := 4 }

/-- Scoring it again hides that it is of an older shape. -/
theorem olderGraph_hidden :
    ¬ olderGraph.SelectionKept
      (fun text => if text = "\x7b\x7d".toList then some (.object []) else none)
      (fun _ => []) (fun marks => marks) [] := by
  intro kept
  have before : sampleId ∈ olderGraph.pending [] := by decide +kernel
  have behind := (kept sampleId).mpr before
  revert behind
  decide +kernel

end Frame

end ScoredGraph

end GraphIngest.Analysis
