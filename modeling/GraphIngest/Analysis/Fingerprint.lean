import GraphIngest.Analysis.Subpaths
import GraphIngest.Analysis.Verdicts

/-! # What a fingerprint follows

A fingerprint is to change with the body of the function a finding names as its sink,
and with nothing else in the store. It hashes the last function of the path. On a path
below an acquiring function the finding names the first.
-/

namespace GraphIngest.Analysis

open Foundation Graph

/-- Two stores give a finding one fingerprint exactly when they agree on the body hash
of a function. -/
def Tracks (digest : Str → Str) (finding : FindingRow) (named : NodeId) : Prop :=
  ∀ store other : CodeGraph, store.bodyHash named = other.bodyHash named ↔
    store.fingerprint digest finding = other.fingerprint digest finding

namespace Subject

/-- The function whose name is given as the sink of the findings. -/
def named : Subject → Option NodeId
  | path (.sink row) => row.ids.getLast?
  | path (.leak row) => some row.acquireId
  | neighborhood target => some target.id

/-- The row of a path that leads from an acquiring function to another one. -/
def LeavesAcquirer : Subject → Prop
  | path (.leak row) => row.ids.getLast? ≠ some row.acquireId
  | _ => False

end Subject

namespace CodeGraph

/-- A finding names a function as its sink, and its fingerprint follows the body of that
function. -/
def TracksSink (digest : Str → Str) (graph : CodeGraph) (subject : Subject) (verdict : Json) :
    Prop :=
  ∃ named, subject.named = some named ∧
    (subject.finding verdict).sink = graph.property StoredNode.fqn [] named ∧
      Tracks digest (subject.finding verdict) named

end CodeGraph

section Tracking

/-- A store that has a function of one body hash, and no other. -/
def hashedStore (id : NodeId) (hash : Str) : CodeGraph where
  repo := "demo"
  store := sampleStore [sampleFunction id] []
  taint := fun _ => {}
  reading := fun _ => { bodyHash := some hash }

theorem bodyHash_hashedStore (id other : NodeId) (hash : Str) :
    (hashedStore id hash).bodyHash other = if other = id then hash else [] := by
  have stored := get?_foldl_mergeNode [sampleFunction id] Dict.empty other
  have named : (sampleFunction id).id = id := rfl
  change (hashedStore id hash).store.nodes.get? other = _ at stored
  rw [CodeGraph.bodyHash, stored, List.filter_cons, named]
  by_cases same : other = id
  · rw [if_pos same, decide_eq_true same.symm]
    rfl
  · rw [if_neg same, decide_eq_false (Ne.symm same)]
    rfl

variable {digest : Str → Str}

/-- Under an injective digest, two fingerprints of a finding are the same exactly when
the hashes are. -/
theorem fingerprint_eq_iff (injective : Function.Injective digest) {finding : FindingRow}
    {store other : CodeGraph} :
    store.fingerprint digest finding = other.fingerprint digest finding ↔
      store.sinkHash finding = other.sinkHash finding := by
  unfold CodeGraph.fingerprint
  rw [injective.eq_iff]
  constructor
  · intro same
    simp only [CodeGraph.fingerprintKey, List.intercalate, List.intersperse, List.flatten_cons,
      List.flatten_nil, List.append_nil, List.append_cancel_left_eq] at same
    exact same
  · intro same
    rw [CodeGraph.fingerprintKey, CodeGraph.fingerprintKey, same]

theorem tracks_iff (injective : Function.Injective digest) {finding : FindingRow}
    {named : NodeId} : Tracks digest finding named ↔ finding.pathIds.getLast? = some named := by
  unfold Tracks
  simp only [fingerprint_eq_iff injective]
  constructor
  · intro tracks
    have apart : "1".toList ≠ "2".toList := by decide
    cases last : finding.pathIds.getLast? with
    | none =>
        have same := (tracks (hashedStore named "1") (hashedStore named "2")).mpr
          (by rw [CodeGraph.sinkHash, CodeGraph.sinkHash, last])
        rw [bodyHash_hashedStore, bodyHash_hashedStore, if_pos rfl, if_pos rfl] at same
        exact absurd same apart
    | some id =>
        refine congrArg some (Decidable.byContradiction fun other => ?_)
        have same := (tracks (hashedStore id "1") (hashedStore id "2")).mp
          (by rw [bodyHash_hashedStore, bodyHash_hashedStore, if_neg (Ne.symm other),
            if_neg (Ne.symm other)])
        rw [CodeGraph.sinkHash, CodeGraph.sinkHash, last] at same
        dsimp only at same
        rw [bodyHash_hashedStore, bodyHash_hashedStore, if_pos rfl, if_pos rfl] at same
        exact apart same
  · intro last store other
    rw [CodeGraph.sinkHash, CodeGraph.sinkHash, last]

end Tracking

section Listing

namespace CodeGraph

variable {graph : CodeGraph}

/-- A row of a path to a sink is about the last function of the path. -/
theorem exists_pathRow {marks : Marks} {query : PathQuery} {row : PathRow}
    (listed : row ∈ graph.sinkPaths marks query) :
    ∃ kinds entry sink path, path.getLast? = some sink ∧
      row = graph.pathRow kinds entry sink path := by
  have sorted := (List.mem_insertionSort PathRow.Before).mp (List.mem_of_mem_take listed)
  obtain ⟨entry, _, found⟩ := List.mem_flatMap.mp sorted
  obtain ⟨path, _, made⟩ := List.mem_filterMap.mp found
  split at made
  · cases made
  · next sink last =>
    split at made
    · exact ⟨_, entry, sink, path, last, (Option.some.inj made).symm⟩
    · cases made

theorem exists_leakRow {maxDepth limit : Nat} {hubIds : List NodeId} {row : LeakRow}
    (listed : row ∈ graph.leakPaths maxDepth limit hubIds) :
    ∃ acquire path, row = graph.leakRow acquire path := by
  have sorted := (List.mem_insertionSort LeakRow.Before).mp (List.mem_of_mem_take listed)
  obtain ⟨acquire, _, found⟩ := List.mem_flatMap.mp sorted
  obtain ⟨path, _, made⟩ := List.mem_filterMap.mp found
  split at made
  · cases made
  · split at made
    · exact ⟨acquire, path, (Option.some.inj made).symm⟩
    · cases made

theorem exists_neighborhood {hops : Nat} {target : Target}
    (listed : target ∈ graph.judgedFunctions hops) :
    ∃ id, target = graph.neighborhoodOf hops id := by
  have sorted := (List.mem_insertionSort _).mp (List.mem_filter.mp listed).1
  obtain ⟨id, _, rfl⟩ := List.mem_map.mp sorted
  exact ⟨id, rfl⟩

/-- Every finding has the name of a function as its sink. -/
theorem exists_named {marks : Marks} {query : PathQuery} {hops : Nat} {subject : Subject}
    (listed : subject ∈ graph.subjects marks query hops) (verdict : Json) :
    ∃ named, subject.named = some named ∧
      (subject.finding verdict).sink = graph.property StoredNode.fqn [] named := by
  rcases List.mem_append.mp listed with onPath | around
  · obtain ⟨path, judged, rfl⟩ := List.mem_map.mp onPath
    rcases List.mem_append.mp (mem_of_mem_dedupePaths judged) with toSink | below
    · obtain ⟨row, enumerated, rfl⟩ := List.mem_map.mp toSink
      obtain ⟨kinds, entry, sink, path, last, rfl⟩ := exists_pathRow enumerated
      exact ⟨sink, last, rfl⟩
    · obtain ⟨row, enumerated, rfl⟩ := List.mem_map.mp below
      obtain ⟨acquire, path, rfl⟩ := exists_leakRow enumerated
      exact ⟨acquire, rfl, rfl⟩
  · obtain ⟨target, judged, rfl⟩ := List.mem_map.mp around
    obtain ⟨id, rfl⟩ := exists_neighborhood judged
    exact ⟨id, rfl, rfl⟩

end CodeGraph

/-- The function named as the sink ends the path, but on the rows that lead from an
acquiring function to another one. -/
theorem Subject.getLast?_pathIds_iff {subject : Subject} {named : NodeId}
    (names : subject.named = some named) (verdict : Json) :
    (subject.finding verdict).pathIds.getLast? = some named ↔ ¬ subject.LeavesAcquirer := by
  match subject, names with
  | .path (.sink row), last => exact ⟨fun _ leaves => leaves, fun _ => last⟩
  | .path (.leak row), same =>
      obtain rfl := Option.some.inj same
      exact not_not.symm
  | .neighborhood target, same => exact ⟨fun _ leaves => leaves, fun _ => same⟩

end Listing

/-- **Fingerprints.** The fingerprint of a finding follows the body of the function that
the finding names as its sink, but for the findings of paths that lead from an acquiring
function to another one. -/
theorem CodeGraph.tracksSink_iff {digest : Str → Str} (injective : Function.Injective digest)
    {graph : CodeGraph} {marks : Marks} {query : PathQuery} {hops : Nat} {subject : Subject}
    (listed : subject ∈ graph.subjects marks query hops) (verdict : Json) :
    graph.TracksSink digest subject verdict ↔ ¬ subject.LeavesAcquirer := by
  obtain ⟨named, names, sink⟩ := exists_named listed verdict
  rw [← subject.getLast?_pathIds_iff names verdict, ← tracks_iff injective]
  constructor
  · intro ⟨other, same, _, tracks⟩
    obtain rfl := Option.some.inj (names.symm.trans same)
    exact tracks
  · intro tracks
    exact ⟨named, names, sink, tracks⟩

section Sample

/-- The function that is handed the connection. -/
def useId : NodeId := ⟨"use".toList, by decide⟩

/-- The library call that opens it. -/
def connectionId : NodeId := ⟨"ext:getConnection".toList, by decide⟩

/-- A graph in which the connection is opened and handed on. -/
def handingGraph (openHash : Str) : CodeGraph where
  repo := "demo"
  store := sampleStore
    [sampleFunction openId, sampleFunction useId,
      { id := connectionId, label := .external, name := "getConnection",
        fqn := "java.sql.DriverManager.getConnection", repo := "demo",
        kind := .external .dbAcquire }]
    [{ type := .calls, src := openId, dst := useId, strategy := "bytecode" },
      { type := .callsExternal, src := openId, dst := connectionId, strategy := "bytecode" }]
  taint := fun _ => {}
  reading := fun id => { bodyHash := some (if id = openId then openHash else "a1".toList) }

/-- The path from the one function to the other. -/
def handingPath : Subject :=
  .path (.leak ((handingGraph "a0").leakRow openId [openId, useId]))

/-- The verdict that the connection leaks. -/
def leakVerdict : Json :=
  .object
    [("path_index".toList, .int 0),
     ("exploitable".toList, .bool false),
     ("is_defect".toList, .bool true),
     ("kind".toList, .string "resource_leak".toList),
     ("certainty".toList, .string "demonstrated".toList),
     ("impact".toList, .string "integrity".toList),
     ("sanitized_at".toList, .string []),
     ("reasoning".toList, .string "the connection is not closed when use throws".toList),
     ("evidence".toList, .array []),
     ("need_source_for".toList, .array [])]

theorem handingPath_listed : handingPath ∈ (handingGraph "a0").subjects {} {} 2 := by decide +kernel

theorem openDigest_injective : Function.Injective openDigest := by
  intro text other same
  unfold openDigest at same
  split at same <;> split at same
  · next first second => exact first.trans second.symm
  · cases same
  · cases same
  · exact List.cons_inj_right _ |>.mp same

/-- The finding that the acquiring function leaks by itself names its own body. -/
def openPath : Subject :=
  .path (.leak ((handingGraph "a0").leakRow openId [openId]))

/-- That finding follows the function. -/
theorem tracksSink_openPath :
    (handingGraph "a0").TracksSink openDigest openPath leakVerdict :=
  (CodeGraph.tracksSink_iff openDigest_injective
    (show openPath ∈ (handingGraph "a0").subjects {} {} 2 by decide +kernel) leakVerdict).mpr
      fun leaves => leaves rfl

/-- The fingerprint of that leak stays when the function that opens the connection is
edited. -/
theorem handing_untracked : ¬ ∀ (digest : Str → Str) (graph : CodeGraph) (marks : Marks)
    (query : PathQuery) (hops : Nat) (subject : Subject) (verdict : Json),
    Function.Injective digest → subject ∈ graph.subjects marks query hops →
      graph.TracksSink digest subject verdict := by
  intro tracked
  obtain ⟨named, same, _, tracks⟩ := tracked openDigest (handingGraph "a0") {} {} 2 handingPath
    leakVerdict openDigest_injective handingPath_listed
  obtain rfl := Option.some.inj same
  have edited : (handingGraph "a0").bodyHash openId = (handingGraph "b0").bodyHash openId :=
    (tracks _ _).mpr (by decide +kernel)
  revert edited
  decide +kernel

end Sample

end GraphIngest.Analysis
