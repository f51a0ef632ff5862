import GraphIngest.Foundation.Upsert
import GraphIngest.Pipeline.Persistence

/-! # Validation

What there is to check about the edges of a run is counted while they are made, stage by stage
and batch by batch, each against the ids heard of at that moment. The counts end up being those
of one scan over all edges that are handed to the store, with every id known; so a run can fail
its validation on the line ranges of its nodes only.
-/

namespace GraphIngest.Pipeline

open Foundation Text Graph

section Stats

/-- `EdgeStats`. -/
structure EdgeStats where
  relCounts : Dict EdgeType Nat := .empty
  dangling : Nat := 0
  total : Nat := 0

namespace EdgeStats

/-- One round of the loop of `EdgeStats.add`. -/
def count (nodeIds : List NodeId) (stats : EdgeStats) (edge : Edge) : EdgeStats where
  relCounts := stats.relCounts.bump edge.type 1
  dangling := if edge.src ∉ nodeIds ∨ edge.dst ∉ nodeIds then stats.dangling + 1 else stats.dangling
  total := stats.total + 1

/-- `EdgeStats.add`. -/
def add (stats : EdgeStats) (edges : List Edge) (nodeIds : List NodeId) : EdgeStats :=
  edges.foldl (count nodeIds) stats

/-- `EdgeStats.add_count`. -/
def addCount (stats : EdgeStats) (type : EdgeType) (n : Nat) : EdgeStats :=
  if n = 0 then stats
  else { stats with relCounts := stats.relCounts.bump type n, total := stats.total + n }

/-- The stats are those of a scan over edges of some types, each with both its ends. -/
structure Scans (stats : EdgeStats) (types : List EdgeType) : Prop where
  relCounts : ∀ type, stats.relCounts.getD type 0 = types.count type
  dangling : stats.dangling = 0
  total : stats.total = types.length

/-- Edges that have their ends are counted and nothing else. -/
theorem Scans.add {stats : EdgeStats} {types : List EdgeType} (scans : stats.Scans types)
    {edges : List Edge} {nodeIds : List NodeId} (joined : ∀ edge ∈ edges, Joined nodeIds edge) :
    (stats.add edges nodeIds).Scans (types ++ edges.map Edge.type) := by
  unfold EdgeStats.add
  induction edges generalizing stats types with
  | nil => rwa [List.map_nil, List.append_nil]
  | cons edge rest ih =>
      obtain ⟨now, later⟩ := List.forall_mem_cons.mp joined
      have counted : (stats.count nodeIds edge).Scans (types ++ [edge.type]) := by
        refine ⟨fun type => ?_, ?_, ?_⟩
        · rw [EdgeStats.count, Dict.getD_bump, scans.relCounts, List.count_append,
            List.count_singleton']
        · dsimp only [EdgeStats.count]
          rw [if_neg fun free => free.elim (fun src => src now.src) fun dst => dst now.dst,
            scans.dangling]
        · rw [EdgeStats.count, scans.total, List.length_append, List.length_singleton]
      have whole := ih counted later
      rwa [List.append_assoc] at whole

theorem Scans.addCount {stats : EdgeStats} {types : List EdgeType} (scans : stats.Scans types)
    (type : EdgeType) (n : Nat) :
    (stats.addCount type n).Scans (types ++ List.replicate n type) := by
  unfold EdgeStats.addCount
  split
  · next none =>
      subst none
      rwa [List.replicate_zero, List.append_nil]
  · refine ⟨fun other => ?_, scans.dangling, ?_⟩
    · dsimp only
      rw [Dict.getD_bump, scans.relCounts, List.count_append, List.count_replicate]
      simp only [beq_iff_eq]
    · dsimp only
      rw [scans.total, List.length_append, List.length_replicate]

end EdgeStats

end Stats

section Checks

/-- What `validate_graph` finds wrong. -/
inductive ValidationError
  | duplicateIds (ids redundant : Nat)
  | danglingEdges (edges : Nat)
  | invalidRanges (nodes : Nat)
deriving DecidableEq

/-- The result of `validate_graph`; a warning names a required relation without edges. -/
structure Validation where
  ok : Bool
  errors : List ValidationError
  warnings : List EdgeType
  nodes : Nat
  edges : Nat
  functions : Nat
  danglingEdges : Nat
  invalidRanges : Nat
  relations : Dict EdgeType Nat

/-- `REQUIRED_RELATIONS`, sorted. -/
def requiredRelations : List EdgeType := [.calls, .contains]

/-- A node with both lines given, in the wrong order. -/
def badRange (node : Node) : Bool :=
  decide (node.startLine ≠ 0) && decide (node.endLine ≠ 0) && decide (node.endLine < node.startLine)

/-- The ids that come up more than once. -/
def dupes (nodes : List Node) : List NodeId :=
  (nodes.map Node.id).dedup.filter fun id => 1 < (nodes.map Node.id).count id

/-- The errors of `validate_graph`, in order. -/
def validationErrors (nodes : List Node) (stats : EdgeStats) : List ValidationError :=
  let redundant := nodes.length - (nodes.map Node.id).dedup.length
  (if redundant = 0 then [] else [.duplicateIds (dupes nodes).length redundant]) ++
    (if stats.dangling = 0 then [] else [.danglingEdges stats.dangling]) ++
    (if nodes.countP badRange = 0 then [] else [.invalidRanges (nodes.countP badRange)])

/-- `validate_graph`. -/
def validateGraph (nodes : List Node) (stats : EdgeStats) : Validation where
  ok := (validationErrors nodes stats).isEmpty
  errors := validationErrors nodes stats
  warnings := requiredRelations.filter fun type => stats.relCounts.getD type 0 = 0
  nodes := nodes.length
  edges := stats.total
  functions := nodes.countP fun node => node.label = .function
  danglingEdges := stats.dangling
  invalidRanges := nodes.countP badRange
  relations := stats.relCounts

end Checks

namespace ReportedRun

variable (run : ReportedRun)

/-- The stats behind the extraction. -/
def extractionStats : EdgeStats :=
  EdgeStats.add {} run.input.extraction.edges (run.input.extraction.nodes.map Node.id)

/-- `resolve_sink`, as far as the ids heard of and the stats go. -/
def sinkStep (state : Registry Node.id × EdgeStats) (batch : Chunk Node Edge) :
    Registry Node.id × EdgeStats :=
  let known := state.1.announce (batch.declares.map Node.id)
  (known, state.2.add batch.links known.known)

/-- The ids and the stats behind the resolver. -/
def sinkStats : Registry Node.id × EdgeStats :=
  run.toRun.resolution.handed.foldl sinkStep (run.toRun.afterBytecode, run.extractionStats)

/-- The stats behind the precise passes. -/
def preciseStats : EdgeStats :=
  (run.sinkStats.2.add run.toRun.bytecodeEdges run.toRun.afterResolve.known).add
    run.toRun.javacEdges run.toRun.afterResolve.known

/-- The stats behind the derive passes. -/
def derivedStats : EdgeStats :=
  let overrides := deriveOverrides run.withheld run.toRun.afterResolve.items run.toRun.edgesInMemory
  ((run.preciseStats.add overrides run.toRun.afterResolve.known).add
    run.toRun.packageTree.edges.entries run.toRun.finalNodes.known).add
      (deriveSqlLinks run.sql run.toRun.finalNodes.items) run.toRun.finalNodes.known

/-- The validation of a run, given how many calls and how many acquires the database says it
has created. -/
def validation (polymorphic acquires : Nat) : Validation :=
  validateGraph run.toRun.finalNodes.items
    ((run.derivedStats.addCount .calls polymorphic).addCount .callsExternal acquires)

variable {run}

/-- The ends of extraction's edges are extracted. -/
theorem joined_extraction {walks : List FileWalk} (merges : run.input.extraction.Merges walks) :
    ∀ edge ∈ run.input.extraction.edges,
      Joined (run.input.extraction.nodes.map Node.id) edge := by
  have closed : (mergeBundles (walks.map FileWalk.extract)).Closed := by
    apply closed_mergeBundles
    intro bundle listed
    obtain ⟨walk, _, rfl⟩ := List.mem_map.mp listed
    exact closed_extract walk
  rw [merges.nodes, merges.edges]
  exact fun edge member => ⟨closed.src edge member, closed.dst edge member⟩

/-- Behind each batch of the sink the stats are those of a scan over all edges so far. -/
theorem scans_foldl_sinkStep {batches : List (Chunk Node Edge)} {known : Registry Node.id}
    {stats : EdgeStats} {types : List EdgeType} (scans : stats.Scans types)
    (joined : ∀ front batch back, batches = front ++ batch :: back → ∀ edge ∈ batch.links,
      Joined (known.known ++ ((front ++ [batch]).flatMap Chunk.declares).map Node.id) edge) :
    (batches.foldl sinkStep (known, stats)).2.Scans
      (types ++ (batches.flatMap Chunk.links).map Edge.type) := by
  induction batches generalizing known stats types with
  | nil => rwa [List.flatMap_nil, List.map_nil, List.append_nil]
  | cons batch rest ih =>
      rw [List.foldl_cons, List.flatMap_cons, List.map_append, ← List.append_assoc]
      refine ih (scans.add ?_) ?_
      · have now := joined [] batch rest rfl
        rwa [List.nil_append, List.flatMap_singleton] at now
      · intro front later back split edge carried
        have heard := joined (batch :: front) later back (congrArg (batch :: ·) split) edge carried
        rwa [List.cons_append, List.flatMap_cons, List.map_append, ← List.append_assoc] at heard

theorem scans_sinkStats {walks : List FileWalk} (merges : run.input.extraction.Merges walks) :
    run.sinkStats.2.Scans (run.input.extraction.edges.map Edge.type ++
      (Resolve.emitted run.toRun.resolveSettings run.toRun.corpus).map Edge.type) := by
  have extracted : run.extractionStats.Scans (run.input.extraction.edges.map Edge.type) :=
    (EdgeStats.Scans.mk (fun _ => rfl) rfl rfl : EdgeStats.Scans {} []).add
      (joined_extraction merges)
  refine scans_foldl_sinkStep extracted fun front batch back split edge carried => ?_
  refine (IndexRun.joined_of_handed split carried).mono fun id listed => ?_
  refine (List.mem_append.mp listed).elim (fun before => ?_) (List.mem_append_right _)
  exact List.mem_append_left _ (IndexRun.mem_known_afterBytecode.mpr before)

theorem mem_known_afterResolve_of_before {id : NodeId} (listed : id ∈ run.toRun.idsBefore) :
    id ∈ run.toRun.afterResolve.known :=
  IndexRun.mem_known_afterResolve.mpr (IndexRun.mem_known_afterSink.mpr (.inl listed))

/-- Every id that the store is handed has been heard of in the end. -/
theorem mem_known_finalNodes {id : NodeId} (written : id ∈ run.toRun.idsWritten) :
    id ∈ run.toRun.finalNodes.known := by
  rw [IndexRun.finalNodes, Registry.mem_known_extend, IndexRun.mem_known_afterResolve,
    IndexRun.mem_known_afterSink]
  rw [IndexRun.idsWritten, IndexRun.idsResolved, List.mem_append, List.mem_append,
    show run.toRun.resolution.handed.flatMap Chunk.declares = run.toRun.resolution.extraNodes from
      Resolve.declares_handed _ _, IndexRun.lateNodes, List.map_append, List.mem_append] at written
  rcases written with (before | handed) | extra | tree
  · exact .inl (.inl before)
  · exact .inl (.inr handed)
  · exact .inl (.inr (mem_map_accepted.mp extra).1)
  · exact .inr (mem_map_accepted.mp tree).1

/-- The stats of a run are those of a scan over all edges that the store is handed. -/
theorem scans_derivedStats {walks : List FileWalk} (merges : run.input.extraction.Merges walks) :
    run.derivedStats.Scans
      ((run.toRun.producedEdges run.sql run.withheld run.toRun.javacEdges).map Edge.type) := by
  have pending : ∀ edge ∈ run.toRun.pending, Joined run.toRun.afterResolve.known edge :=
    fun edge member => (IndexRun.joined_of_pending member).mono
      fun _ => mem_known_afterResolve_of_before
  have derived : ∀ edge ∈ run.toRun.deriveEdges run.sql run.withheld,
      Joined run.toRun.finalNodes.known edge :=
    fun edge member => (IndexRun.joined_of_derived member).mono fun _ => mem_known_finalNodes
  have overrides : ∀ edge ∈ deriveOverrides run.withheld run.toRun.afterResolve.items
      run.toRun.edgesInMemory, Joined run.toRun.afterResolve.known edge := by
    intro edge member
    obtain ⟨node, own, method, other, rfl⟩ := (addable_of_mem_deriveOverrides member).joins
    exact ⟨run.toRun.afterResolve.registered node own,
      run.toRun.afterResolve.registered method other⟩
  have precise := ((scans_sinkStats merges).add
    fun edge member => pending edge (List.mem_append_left _ member)).add
    fun edge member => pending edge (List.mem_append_right _ member)
  have whole := ((precise.add overrides).add
    fun edge member => derived edge (List.mem_append_left _ (List.mem_append_right _ member))).add
    fun edge member => derived edge (List.mem_append_right _ member)
  simp only [IndexRun.producedEdges, IndexRun.deriveEdges, List.map_append, List.append_assoc]
  simp only [List.append_assoc] at whole
  exact whole

end ReportedRun

/-- What the validation of a run says, of the edges of its calls of the store and those created
in the database. -/
structure ReportsCalls (report : Validation) (nodes : List Node) (types : List EdgeType) :
    Prop where
  ok : report.ok = true ↔ ∀ node ∈ nodes, badRange node = false
  errors : ∀ error ∈ report.errors, error = .invalidRanges (nodes.countP badRange)
  dangling : report.danglingEdges = 0
  warnings : ∀ type, type ∈ report.warnings ↔ type ∈ requiredRelations ∧ type ∉ types
  nodes : report.nodes = nodes.length
  edges : report.edges = types.length
  relations : ∀ type, report.relations.getD type 0 = types.count type

/-- Without repeated ids and dangling edges there are errors of one kind. -/
theorem reportsCalls_of_scans {nodes : List Node} (distinct : (nodes.map Node.id).Nodup)
    {stats : EdgeStats} {types : List EdgeType} (scans : stats.Scans types) :
    ReportsCalls (validateGraph nodes stats) nodes types := by
  have errors : validationErrors nodes stats =
      if nodes.countP badRange = 0 then [] else [.invalidRanges (nodes.countP badRange)] := by
    rw [validationErrors, distinct.dedup, List.length_map, Nat.sub_self, if_pos rfl,
      scans.dangling, if_pos rfl]
    rfl
  refine ⟨?_, ?_, scans.dangling, fun type => ?_, rfl, scans.total, scans.relCounts⟩
  · dsimp only [validateGraph]
    rw [errors, List.isEmpty_iff]
    constructor
    · intro none node listed
      rw [ite_eq_left_iff] at none
      have zero : nodes.countP badRange = 0 := by
        by_contra some
        exact List.cons_ne_nil _ _ (none some)
      exact (Bool.not_eq_true _).mp (List.countP_eq_zero.mp zero node listed)
    · intro fine
      refine if_pos (List.countP_eq_zero.mpr fun node listed => ?_)
      rw [fine node listed]
      exact Bool.false_ne_true
  · intro error found
    rw [validateGraph, errors] at found
    split at found
    · exact absurd found List.not_mem_nil
    · exact List.mem_singleton.mp found
  · rw [validateGraph, List.mem_filter, decide_eq_true_eq, scans.relCounts, List.count_eq_zero]

/-- **Validation.** Once a run is past the wait for its writer, its report counts the edges that
the store was handed, in all and by type, together with those that the database created; it
never reports a repeated id or an edge without its ends, whatever the interleaving. -/
theorem reportsCalls_validation (run : ReportedRun) {walks : List FileWalk}
    (merges : run.input.extraction.Merges walks) {state : WorkQueue.State WriteItem StoreCall}
    (reachable : WriterReachable run.input.extraction.edges run.toRun.resolution.handed state)
    (passed : state.producer = .passed) (polymorphic acquires : Nat) :
    ReportsCalls (run.validation polymorphic acquires) run.toRun.finalNodes.items
      (((run.toRun.storeCalls run.sql run.withheld (state.performed.map Prod.fst)).flatMap
          StoreCall.edges).map Edge.type ++
        (List.replicate polymorphic .calls ++ List.replicate acquires .callsExternal)) := by
  rw [IndexRun.storeCalls_of_passed run.sql run.withheld reachable passed,
    run.toRun.edges_wholeCalls, ← List.append_assoc]
  exact reportsCalls_of_scans run.toRun.finalNodes.distinct
    (((ReportedRun.scans_derivedStats merges).addCount _ _).addCount _ _)

/-- The run whose class file and javac both speak for one file. -/
theorem reportsCalls_nestedRun : ∃ state : WorkQueue.State WriteItem StoreCall,
    ReportsCalls (nestedRun.validation 0 2) nestedRun.toRun.finalNodes.items
      (((nestedRun.toRun.storeCalls nestedRun.sql nestedRun.withheld
          (state.performed.map Prod.fst)).flatMap StoreCall.edges).map Edge.type ++
        (List.replicate 0 .calls ++ List.replicate 2 .callsExternal)) := by
  obtain ⟨state, reachable, passed⟩ :=
    @exists_passed nestedRun.input.extraction.edges (by decide +kernel)
  exact ⟨state, reportsCalls_validation nestedRun merges_nestedRun reachable passed 0 2⟩

end GraphIngest.Pipeline
