import GraphIngest.Analysis.Reach
import GraphIngest.Foundation.Trails
import Mathlib.Data.List.Perm.Subperm
import Mathlib.Data.List.Sort

/-! # Enumerating paths to sinks

Paths start at functions marked forward, follow trusted calls through functions
marked backward, and end at a function with a classified external call. Functions
that are marked backward because of a summary or of the catalog alone end no
path: where no classified call can be reached, the marks promise a path that the
enumeration does not have.
-/

namespace GraphIngest.Analysis

open Foundation Graph External

/-- What is asked of the enumeration. -/
structure PathQuery where
  sinkKinds : List ExternalKind := []
  maxDepth : Nat := 8
  limit : Nat := 20000
  hubIds : List NodeId := []
  minDepth : Nat := 0
  fromTaintSource : Bool := false

/-- What a row tells of one path. -/
structure PathRow where
  ids : List NodeId
  fqns : List Str
  entryFqn : Str
  entryFile : Str
  sinkFqn : Str
  sinkFile : Str
  sinkLine : Int
  sinkKinds : List ExternalKind
  sinkNames : List Str
  hops : Nat
  strategies : List Str
  confidences : List Confidence
  hasSanitizer : Bool

/-- Rows are ordered by their hops, then by where they start. -/
def PathRow.Before (row other : PathRow) : Prop :=
  row.hops < other.hops ∨ row.hops = other.hops ∧ ¬ other.entryFqn < row.entryFqn

instance : DecidableRel PathRow.Before :=
  fun row other => inferInstanceAs (Decidable (row.hops < other.hops ∨ _ ∧ _))

namespace CodeGraph

variable (graph : CodeGraph)

section Rows

/-- The calls of a trusted strategy, whatever their ends. -/
def callSteps : List (NodeId × NodeId) :=
  (graph.store.relationships.entries.filter fun entry =>
    decide (entry.1.1 = EdgeType.calls) && trusted entry.2.strategy).map fun entry => entry.1.2

/-- A property of a node, a default when there is no such node. -/
def property {α : Type} (read : StoredNode → α) (absent : α) (id : NodeId) : α :=
  ((graph.store.nodes.get? id).map read).getD absent

def relationshipsAlong (path : List NodeId) : List Relationship :=
  (path.zip path.tail).filterMap fun step =>
    graph.store.relationships.get? (.calls, step.1, step.2)

/-- The names of the external targets of the wanted kinds that a function calls. -/
def sinkNames (kinds : List ExternalKind) (id : NodeId) : List Str :=
  (((graph.targets .callsExternal id).filter fun target =>
    (graph.externalKind target).any (· ∈ kinds)).map (graph.property StoredNode.name [])).dedup

/-- The row of a path between two functions. -/
def pathRow (kinds : List ExternalKind) (entry sink : NodeId) (path : List NodeId) : PathRow where
  ids := path
  fqns := path.map (graph.property StoredNode.fqn [])
  entryFqn := graph.property StoredNode.fqn [] entry
  entryFile := graph.property StoredNode.file [] entry
  sinkFqn := graph.property StoredNode.fqn [] sink
  sinkFile := graph.property StoredNode.file [] sink
  sinkLine := graph.property StoredNode.startLine 0 sink
  sinkKinds := graph.callKinds kinds sink
  sinkNames := graph.sinkNames kinds sink
  hops := path.length - 1
  strategies := (graph.relationshipsAlong path).map Relationship.strategy
  confidences := (graph.relationshipsAlong path).map Relationship.confidence
  hasSanitizer := path.any fun id => (graph.taint id).sanitizer

/-- Whether a path keeps to functions marked backward and avoids hubs. -/
def allowed (marks : Marks) (hubIds path : List NodeId) : Bool :=
  path.all fun id => decide (id ∈ marks.reachesSink) && decide (id ∉ hubIds)

/-- Whether a path may end at a node. -/
def endsPath (kinds : List ExternalKind) (sink : NodeId) : Bool :=
  graph.hasLabel .function sink && !(graph.callKinds kinds sink).isEmpty

/-- The rows of the paths that start at a function. -/
def rowsFrom (marks : Marks) (query : PathQuery) (entry : NodeId) : List PathRow :=
  (trailsFrom graph.callSteps query.maxDepth [] entry).filterMap fun path =>
    match path.getLast? with
    | none => none
    | some sink =>
        if query.minDepth ≤ path.length - 1 ∧ allowed marks query.hubIds path = true ∧
            graph.endsPath (wantedKinds query.sinkKinds) sink = true then
          some (graph.pathRow (wantedKinds query.sinkKinds) entry sink path)
        else none

/-- The functions a path may start at. -/
def entries (marks : Marks) (query : PathQuery) : List NodeId :=
  graph.functions.filter fun id => decide (id ∈ marks.fromEntry) &&
    (!query.fromTaintSource || (graph.taint id).source)

/-- `sink_paths`. -/
def sinkPaths (marks : Marks) (query : PathQuery) : List PathRow :=
  (((graph.entries marks query).flatMap (graph.rowsFrom marks query)).insertionSort
    PathRow.Before).take query.limit

end Rows

section Statement

variable (kinds : List ExternalKind)

/-- With a depth and a limit that are large enough, every function with both marks
lies on a path. -/
def PathsCover (left : graph.Leftover) : Prop :=
  ∃ deep, ∀ depth ≥ deep, ∃ many, ∀ limit ≥ many,
    ∀ id ∈ (graph.markAll kinds left.marks).fromEntry,
      id ∈ (graph.markAll kinds left.marks).reachesSink →
        ∃ row ∈ graph.sinkPaths (graph.markAll kinds left.marks)
          { sinkKinds := kinds, maxDepth := depth, limit := limit }, id ∈ row.ids

/-- A function from which a chain of trusted calls within the guard leads to a
seed. -/
def Sinkward (id : NodeId) : Prop :=
  ∃ seed, graph.SinkSeed (wantedKinds kinds) seed ∧
    ∃ length ≤ maxIterations, graph.TrustedChain length id seed

/-- A function to which a chain of trusted calls within the guard leads from a
seed. -/
def FromEntry (id : NodeId) : Prop :=
  ∃ seed, graph.EntrySeed seed ∧
    ∃ length ≤ maxIterations, graph.TrustedChain length seed id

/-- From every function between an entry and a seed, trusted calls through such
functions lead to a classified external call. -/
def ClassifiedAhead : Prop :=
  ∀ id, graph.FromEntry id → graph.Sinkward kinds id →
    ∃ sink length,
      Chain (fun caller callee => (caller, callee) ∈ graph.trustedCalls ∧
        graph.Sinkward kinds callee) length id sink ∧
      graph.callKinds (wantedKinds kinds) sink ≠ []

end Statement

variable {graph} {kinds : List ExternalKind}

theorem hasLabel_of_isOwn {id : NodeId} (own : graph.isOwn id = true) :
    graph.hasLabel .function id = true := by
  unfold isOwn at own
  unfold hasLabel
  cases found : graph.store.nodes.get? id with
  | none =>
      rw [found] at own
      cases own
  | some node =>
      rw [found, Bool.and_eq_true] at own
      exact own.1

/-- Only functions of the repository are marked backward. -/
theorem isOwn_of_sinkward {id : NodeId} (ahead : graph.Sinkward kinds id) :
    graph.isOwn id = true := by
  obtain ⟨seed, known, length, _, chain⟩ := ahead
  cases chain with
  | nil => exact known.1
  | cons head _ => exact (mem_trustedCalls.mp head).2.1

theorem mem_callSteps {src dst : NodeId} :
    (src, dst) ∈ graph.callSteps ↔ ∃ relationship,
      graph.store.relationships.get? (.calls, src, dst) = some relationship ∧
        trusted relationship.strategy = true := by
  simp only [callSteps, List.mem_map, List.mem_filter, Bool.and_eq_true, decide_eq_true_eq,
    ← Dict.mem_entries_iff]
  constructor
  · rintro ⟨⟨⟨type, _, _⟩, relationship⟩, ⟨listed, rfl, fits⟩, same⟩
    obtain ⟨rfl, rfl⟩ := Prod.mk.inj same
    exact ⟨relationship, listed, fits⟩
  · rintro ⟨relationship, listed, fits⟩
    exact ⟨((.calls, src, dst), relationship), ⟨listed, rfl, fits⟩, rfl⟩

/-- A row stands for a path of calls through functions marked backward that ends
at a classified external call. -/
theorem path_of_mem_sinkPaths {marks : Marks} {query : PathQuery} {row : PathRow}
    (listed : row ∈ graph.sinkPaths marks query) :
    ∃ sink, row.ids.getLast? = some sink ∧
      row.ids.IsChain (fun a b => (a, b) ∈ graph.callSteps) ∧
      (∀ id ∈ row.ids, id ∈ marks.reachesSink) ∧
      graph.callKinds (wantedKinds query.sinkKinds) sink ≠ [] := by
  have sorted := (List.mem_insertionSort PathRow.Before).mp (List.mem_of_mem_take listed)
  obtain ⟨entry, _, found⟩ := List.mem_flatMap.mp sorted
  obtain ⟨path, trail, made⟩ := List.mem_filterMap.mp found
  cases ends : path.getLast? with
  | none =>
      rw [ends] at made
      cases made
  | some sink =>
      rw [ends] at made
      dsimp only at made
      split at made
      · next admitted =>
          rw [← Option.some.inj made]
          obtain ⟨_, clear, final⟩ := admitted
          refine ⟨sink, ends, (linked_of_mem_trailsFrom trail).2, ?_, ?_⟩
          · intro id member
            have marked := List.all_eq_true.mp clear id member
            rw [Bool.and_eq_true, decide_eq_true_eq] at marked
            exact marked.1
          · rw [endsPath, Bool.and_eq_true, Bool.not_eq_true', List.isEmpty_eq_false_iff] at final
            exact final.2
      · cases made

/-- With no hub and room for all rows, a path of this kind that meets no function
twice has a row. -/
theorem exists_row {marks : Marks} {depth limit : Nat} {entry sink : NodeId}
    {rest : List NodeId} (own : graph.isOwn entry = true) (starts : entry ∈ marks.fromEntry)
    (simple : (entry :: rest).Nodup)
    (linked : (entry :: rest).IsChain fun a b => (a, b) ∈ graph.callSteps)
    (marked : ∀ id ∈ entry :: rest, id ∈ marks.reachesSink) (short : rest.length ≤ depth)
    (ends : (entry :: rest).getLast? = some sink) (final : graph.hasLabel .function sink = true)
    (classified : graph.callKinds (wantedKinds kinds) sink ≠ [])
    (room : ((graph.entries marks { sinkKinds := kinds, maxDepth := depth, limit := limit }).flatMap
      (graph.rowsFrom marks { sinkKinds := kinds, maxDepth := depth, limit := limit })).length ≤
        limit) :
    ∃ row ∈ graph.sinkPaths marks { sinkKinds := kinds, maxDepth := depth, limit := limit },
      row.ids = entry :: rest := by
  refine ⟨graph.pathRow (wantedKinds kinds) entry sink (entry :: rest), ?_, rfl⟩
  rw [sinkPaths, List.take_of_length_le (by rwa [List.length_insertionSort]),
    List.mem_insertionSort]
  refine List.mem_flatMap.mpr ⟨entry, ?_, List.mem_filterMap.mpr ⟨entry :: rest, ?_, ?_⟩⟩
  · refine List.mem_filter.mpr ⟨mem_functions.mpr own, ?_⟩
    simp only [starts, decide_true, Bool.not_false, Bool.true_or, Bool.and_self]
  · exact mem_trailsFrom_of_nodup simple linked (fun _ _ _ used => List.not_mem_nil used) short
  · have clear : allowed marks [] (entry :: rest) = true := by
      refine List.all_eq_true.mpr fun id member => ?_
      simp only [marked id member, decide_true, List.not_mem_nil, not_false_eq_true, Bool.and_self]
    have last : graph.endsPath (wantedKinds kinds) sink = true := by
      rw [endsPath, final, Bool.true_and, Bool.not_eq_true', List.isEmpty_eq_false_iff]
      exact classified
    rw [ends]
    exact if_pos ⟨Nat.zero_le _, clear, last⟩

/-- **Paths.** The enumeration has a path through every function with both marks
exactly when a classified external call lies ahead of each of them. -/
theorem pathsCover_iff (graph : CodeGraph) (kinds : List ExternalKind) (left : graph.Leftover) :
    graph.PathsCover kinds left ↔ graph.ClassifiedAhead kinds := by
  let marks := graph.markAll kinds left.marks
  have sinkward : ∀ id, id ∈ marks.reachesSink ↔ graph.Sinkward kinds id :=
    fun _ => mem_reachesSink
  have entered : ∀ id, id ∈ marks.fromEntry ↔ graph.FromEntry id := fun _ => mem_fromEntry
  constructor
  · rintro ⟨deep, covers⟩ id reached ahead
    obtain ⟨many, complete⟩ := covers deep (Nat.le_refl _)
    obtain ⟨row, listed, member⟩ := complete many (Nat.le_refl _) id ((entered id).mpr reached)
      ((sinkward id).mpr ahead)
    obtain ⟨sink, ends, linked, marked, classified⟩ := path_of_mem_sinkPaths listed
    have followed : row.ids.IsChain fun caller callee =>
        (caller, callee) ∈ graph.trustedCalls ∧ graph.Sinkward kinds callee := by
      refine linked.imp_of_mem_imp fun caller callee before after step => ?_
      have ahead := (sinkward callee).mp (marked callee after)
      exact ⟨mem_trustedCalls.mpr ⟨mem_callSteps.mp step,
        isOwn_of_sinkward ((sinkward caller).mp (marked caller before)),
        hasLabel_of_isOwn (isOwn_of_sinkward ahead)⟩, ahead⟩
    obtain ⟨length, chain⟩ := chain_of_mem_path followed member ends
    exact ⟨sink, length, chain, classified⟩
  · intro classified
    refine ⟨marks.reachesSink.length, fun depth deep =>
      ⟨((graph.entries marks { sinkKinds := kinds, maxDepth := depth }).flatMap
        (graph.rowsFrom marks { sinkKinds := kinds, maxDepth := depth })).length, ?_⟩⟩
    intro limit many id starts reaches
    have ahead := (sinkward id).mp reaches
    obtain ⟨sink, length, chain, wanted⟩ := classified id ((entered id).mp starts) ahead
    obtain ⟨rest, simple, linked, ends⟩ := exists_path_of_chain chain
    have onward : ∀ point ∈ id :: rest, graph.Sinkward kinds point := by
      intro point member
      rcases List.mem_cons.mp member with rfl | later
      · exact ahead
      · exact holds_of_isChain (fun _ _ step => step.2) linked point later
    have marked : ∀ point ∈ id :: rest, point ∈ marks.reachesSink :=
      fun point member => (sinkward point).mpr (onward point member)
    have short : rest.length ≤ depth := by
      have fits := (List.subperm_of_subset simple marked).length_le
      rw [List.length_cons] at fits
      omega
    have final : graph.hasLabel .function sink = true :=
      hasLabel_of_isOwn (isOwn_of_sinkward (onward sink (List.mem_of_getLast? ends)))
    have room : ((graph.entries marks
        { sinkKinds := kinds, maxDepth := depth, limit := limit }).flatMap (graph.rowsFrom marks
          { sinkKinds := kinds, maxDepth := depth, limit := limit })).length ≤ limit := many
    obtain ⟨row, listed, same⟩ := exists_row (isOwn_of_sinkward ahead) starts simple
      (linked.imp fun _ _ step => mem_callSteps.mpr (mem_trustedCalls.mp step.1).1) marked short
      ends final wanted room
    exact ⟨row, listed, same ▸ List.mem_cons_self⟩

/-- One function that reads a request and, as its fresh summary says, touches a
database by a call that nothing classifies. -/
def unclassifiedGraph : CodeGraph where
  repo := "demo"
  store := sampleStore [sampleFunction sampleId] []
  taint := fun _ => { source := true }
  reading := fun _ =>
    { bodyHash := some "1f".toList
      summaryHash := some "1f".toList
      summaryJson := some ("\x7b".toList ++ quoted "touches" ++ ":[".toList ++ quoted "sql" ++
        "]\x7d".toList) }

/-- The function has both marks, and no path at all is returned. -/
theorem unclassified_uncovered : ¬ ∀ (graph : CodeGraph) (kinds : List ExternalKind)
    (left : graph.Leftover), graph.PathsCover kinds left := by
  intro covered
  let id : NodeId := ⟨"f".toList, List.cons_ne_nil _ _⟩
  have entered : id ∈ (unclassifiedGraph.markAll [] {}).fromEntry := by decide +kernel
  have marked : id ∈ (unclassifiedGraph.markAll [] {}).reachesSink := by decide +kernel
  obtain ⟨deep, covers⟩ := covered unclassifiedGraph [] {}
  obtain ⟨many, complete⟩ := covers deep (Nat.le_refl _)
  obtain ⟨row, listed, _⟩ := complete many (Nat.le_refl _) id entered marked
  obtain ⟨sink, _, _, _, classified⟩ := path_of_mem_sinkPaths listed
  exact classified rfl

end CodeGraph

end GraphIngest.Analysis
