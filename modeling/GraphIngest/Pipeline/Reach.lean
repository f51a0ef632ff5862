import GraphIngest.Analysis.Reach
import GraphIngest.Pipeline.StoredGraph

/-! # Marks on the graph of a run

The marks follow trusted calls, at most as many as the guard allows. A call that
javac has bound stands in the graph as certain, yet its strategy is not a trusted
one: a function all of whose chains to a seed use such a call stays unmarked.
-/

namespace GraphIngest.Pipeline

open Foundation Text Graph External Analysis

section Statement

variable (graph : CodeGraph) (kinds : List ExternalKind)

/-- Every function with a chain of certain calls to a seed is marked backward, and
every function that such a chain leads to from an entry is marked forward. -/
def ReachFollows (left : graph.Leftover) : Prop :=
  (∀ id seed length, graph.isOwn id = true → graph.SinkSeed (CodeGraph.wantedKinds kinds) seed →
      graph.ExtractedChain length id seed →
        id ∈ (graph.markAll kinds left.marks).reachesSink) ∧
    ∀ id seed length, graph.hasLabel .function id = true → graph.EntrySeed seed →
      graph.ExtractedChain length seed id → id ∈ (graph.markAll kinds left.marks).fromEntry

/-- Every function with a chain of certain calls to a seed has a chain of trusted
calls to some seed, of no more calls than the guard; and the same from entries. -/
def TrustedWithin : Prop :=
  (∀ id seed length, graph.isOwn id = true → graph.SinkSeed (CodeGraph.wantedKinds kinds) seed →
      graph.ExtractedChain length id seed →
        ∃ other, graph.SinkSeed (CodeGraph.wantedKinds kinds) other ∧
          ∃ within ≤ maxIterations, graph.TrustedChain within id other) ∧
    ∀ id seed length, graph.hasLabel .function id = true → graph.EntrySeed seed →
      graph.ExtractedChain length seed id →
        ∃ other, graph.EntrySeed other ∧
          ∃ within ≤ maxIterations, graph.TrustedChain within other id

end Statement

namespace IndexRun

/-- **Reach.** On the graph of a run the marks follow every chain of certain calls
exactly when trusted calls within the guard do as well. -/
theorem reachFollows_iff (run : IndexRun) (reading : NodeId → Reading)
    (kinds : List ExternalKind) (left : (run.graph reading).Leftover) :
    ReachFollows (run.graph reading) kinds left ↔ TrustedWithin (run.graph reading) kinds := by
  refine and_congr ?_ ?_
  · refine forall₃_congr fun id seed length => ?_
    refine imp_congr_right fun _ => imp_congr_right fun _ => imp_congr_right fun _ => ?_
    exact CodeGraph.mem_reachesSink
  · refine forall₃_congr fun id seed length => ?_
    refine imp_congr_right fun _ => imp_congr_right fun _ => imp_congr_right fun _ => ?_
    exact CodeGraph.mem_fromEntry

/-- The call `statement.executeQuery(sql)` in the body of `B.g()`. -/
def queryingCall : RawRef where
  type := .calls
  src := (Bytecode.sampleMethod "demo.B" "g" "()" [] "B.java" .method).id
  targetName := "executeQuery"
  kindHint := .call
  recv := "statement"
  recvType := "Statement"
  refFile := "B.java"
  refLine := 4
  callArity := 1

/-- `A.java` declares `A` with `f()`, which calls `B.g()`; `B.java` declares `B`
with `g()`, which runs a query. -/
def queryingExtraction : Extraction where
  nodes := twoClasses
  edges := []
  refs := [queryingCall]
  javaFilesSeen := 2
  distinct := distinct_twoClasses
  sourced := by decide +kernel
  structural := structural_nil
  raw := by decide +kernel

/-- A run in which javac attributes `A.java` and binds its call of `B.g()`. -/
def queryingRun : IndexRun where
  input :=
    { options := { sampleOptions with javac := true }
      extraction := queryingExtraction
      classes := []
      oracle := some
        { invocationsSeen := 1
          resolvedInRepo := 1
          lines :=
            ["@FILE\tA.java".toList, "demo.A\tf\t0\tdemo.B\tg\t0\tA.java\t3".toList] } }
  bytecode := none
  ran := rfl

/-- The call is certain and `B.g()` is a seed, but `A.f()` is not marked. -/
theorem querying_unmarked : ¬ ∀ (run : IndexRun) (reading : NodeId → Reading)
    (kinds : List ExternalKind) (left : (run.graph reading).Leftover),
      ReachFollows (run.graph reading) kinds left := by
  intro follows
  let graph := queryingRun.graph fun _ => {}
  let caller := (Bytecode.sampleMethod "demo.A" "f" "()" [] "A.java" .method).id
  let callee := (Bytecode.sampleMethod "demo.B" "g" "()" [] "B.java" .method).id
  -- decided together, so that the run is evaluated once
  have facts : graph.isOwn caller = true ∧ graph.isOwn callee = true ∧
      graph.callKinds (CodeGraph.wantedKinds []) callee ≠ [] ∧
      (graph.store.relationships.get? (.calls, caller, callee)).map
        Relationship.confidence = some .extracted ∧
      caller ∉ (graph.markAll [] {}).reachesSink := by
    decide +kernel
  obtain ⟨own, known, calls, held, unmarked⟩ := facts
  have seed : graph.SinkSeed (CodeGraph.wantedKinds []) callee := ⟨known, Or.inl calls⟩
  have call : graph.ExtractedCall caller callee := by
    obtain ⟨relationship, found, certain⟩ := Option.map_eq_some_iff.mp held
    exact ⟨relationship, found, certain⟩
  exact unmarked ((follows queryingRun (fun _ => {}) [] {}).1 caller callee 1 own seed
    (.cons call .nil))

end IndexRun

end GraphIngest.Pipeline
