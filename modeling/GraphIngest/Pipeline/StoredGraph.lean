import GraphIngest.Analysis.Graph
import GraphIngest.Pipeline.Run

/-! # What a run leaves in the store

The nodes and relationships of the finished graph, written in the order of the
run's writes; what the queries after the last write create stands behind them.
Every edge the store has taken is traced back to the stage that produced it, and
the calls that stand in the graph as certain are those a precise tier bound.
-/

namespace GraphIngest.Pipeline

open Foundation Text Graph External

namespace IndexRun

variable (run : IndexRun)

/-- The external nodes the acquires go to. -/
def acquireNodes : List Node :=
  (run.afterBytecode.items.filter fun node =>
    node.label = .function ∧ node.repo = run.input.options.repo ∧
      node.returnType ∈ connectionTypes.map Prod.snd).map fun node =>
    { id := acquireId node.fqn, label := .external, name := node.name, fqn := node.fqn,
      repo := "external", kind := .external .dbAcquire, lang := node.lang }

/-- `MERGE` a node that gets its properties on creation only. -/
def createNode (nodes : Dict NodeId StoredNode) (node : Node) : Dict NodeId StoredNode :=
  nodes.setdefault node.id node.props

/-- `MERGE` a relationship that gets its properties on creation only. -/
def createEdge (relationships : Dict EdgeKey Relationship) (edge : Edge) :
    Dict EdgeKey Relationship :=
  relationships.setdefault edge.key edge.props

/-- What a run leaves in an empty store. -/
def graphStore : GraphStore where
  nodes := run.acquireNodes.foldl createNode
    ((run.writes.flatMap Chunk.declares).foldl mergeNode Dict.empty)
  relationships := (run.polymorphicCalls ++ run.acquires).foldl createEdge
    (run.stored.links.foldl mergeEdge Dict.empty)

/-- The graph of a run under analysis, given what a model that read its
functions has left on them. -/
def graph (reading : NodeId → Analysis.Reading) : Analysis.CodeGraph where
  repo := run.input.options.repo
  store := run.graphStore
  taint := run.finalTaint
  reading := reading

variable {run}

section Origins

theorem contains_addFile {makeId : Str → Str → Str → NodeId} {repo : Str} {tree : Tree}
    (file : Node) (before : ∀ edge ∈ tree.edges.entries, edge.type = .contains) :
    ∀ edge ∈ (addFile makeId repo tree file).edges.entries, edge.type = .contains := by
  have grown : ∀ (entries : List (Str × Str)) (state : Tree × NodeId),
      (∀ edge ∈ state.1.edges.entries, edge.type = .contains) →
        ∀ edge ∈ (entries.foldl (addPackage makeId repo file.lang) state).1.edges.entries,
          edge.type = .contains := by
    intro entries state held
    refine foldl_preserves (fun state : Tree × NodeId =>
      ∀ edge ∈ state.1.edges.entries, edge.type = .contains) entries ?_ state held
    intro state entry _ held edge member
    rcases KeyedLog.mem_of_mem_emit member with earlier | rfl
    · exact held edge earlier
    · rfl
  intro edge member
  unfold addFile at member
  rcases KeyedLog.mem_of_mem_emit member with earlier | rfl
  · exact grown _ _ before edge earlier
  · rfl

theorem contains_of_mem_packageTree {edge : Edge} (member : edge ∈ run.packageTree.edges.entries) :
    edge.type = .contains :=
  foldl_preserves (fun tree : Tree => ∀ edge ∈ tree.edges.entries, edge.type = .contains) _
    (fun _ file _ held => contains_addFile file held) _
    (fun _ present => (List.not_mem_nil present).elim) edge member

/-- Every edge of the store comes from extraction, from some reference, from a
precise tier or from the last stages. -/
theorem origin_of_mem_stored {edge : Edge} (member : edge ∈ run.stored.links) :
    edge ∈ run.input.extraction.edges ∨
      edge ∈ (Resolve.chunksFrom run.resolveSettings run.corpus {} run.corpus.refs).flatMap
        Chunk.links ∨
      edge ∈ run.bytecodeEdges ∨ edge ∈ run.javacEdges ∨
      edge ∈ run.input.derived.edges ∨ edge.type = .contains := by
  rcases Ledger.mem_of_mem_foldl_write member with before | written
  · exact (List.not_mem_nil before).elim
  · simp only [writes, List.cons_append, List.flatMap_cons, List.flatMap_append, List.flatMap_nil,
      List.append_nil, List.mem_append] at written
    rcases written with structural | handed | precise | late
    · exact Or.inl structural
    · have batched : run.resolution.handed.flatMap Chunk.links =
          (Resolve.chunksFrom run.resolveSettings run.corpus {} run.corpus.refs).flatMap
            Chunk.links := flatMap_links_batches Resolve.sinkBatch {} _
      exact Or.inr (Or.inl (batched ▸ handed))
    · rcases List.mem_append.mp precise with bytecode | javac
      · exact Or.inr (Or.inr (Or.inl bytecode))
      · exact Or.inr (Or.inr (Or.inr (Or.inl javac)))
    · rcases List.mem_append.mp late with derived | tree
      · exact Or.inr (Or.inr (Or.inr (Or.inr (Or.inl derived))))
      · exact Or.inr (Or.inr (Or.inr (Or.inr (Or.inr (contains_of_mem_packageTree tree)))))

/-- The edges of the precise tier that compiles are calls. -/
theorem calls_of_mem_javacEdges {edge : Edge} (member : edge ∈ run.javacEdges) :
    edge.type = .calls := by
  unfold javacEdges IndexRun.javac at member
  have bound := (List.mem_filter.mp member).1
  split at bound
  · obtain ⟨row, same⟩ := Javac.bound_of_mem bound
    rw [same]
    rfl
  · exact (List.not_mem_nil bound).elim

end Origins

section Certain

/-- What is certain among the stored calls was bound by a precise tier. -/
theorem bound_of_mem_stored {edge : Edge} (member : edge ∈ run.stored.links)
    (call : edge.type = .calls) (certain : edge.confidence = .extracted) :
    edge ∈ run.bytecodeEdges ++ run.javacEdges := by
  rcases origin_of_mem_stored member with structural | resolved | bytecode | javac | derived | tree
  · rcases run.input.extraction.structural edge structural with same | same | same <;>
      cases call.symm.trans same
  · exact (Resolve.confidence_of_call resolved call certain).elim
  · exact List.mem_append_left _ bytecode
  · exact List.mem_append_right _ javac
  · rcases run.input.derived.typed edge derived with same | same | same <;>
      cases call.symm.trans same
  · cases call.symm.trans tree

/-- The calls created after the last write are not certain. -/
theorem uncertain_of_created {edge : Edge} (member : edge ∈ run.polymorphicCalls ++ run.acquires)
    (call : edge.type = .calls) : edge.confidence ≠ .extracted := by
  rcases List.mem_append.mp member with dispatched | acquired
  · unfold polymorphicCalls at dispatched
    split at dispatched
    · obtain ⟨override, _, calling⟩ := List.mem_flatMap.mp dispatched
      obtain ⟨caller, _, rfl⟩ := List.mem_map.mp calling
      exact Confidence.noConfusion
    · exact (List.not_mem_nil dispatched).elim
  · obtain ⟨node, _, rfl⟩ := List.mem_map.mp acquired
    cases call

/-- **Certain calls.** A call that stands in the graph as certain was bound by the
bytecode pass or by javac. -/
theorem bound_of_extractedCall {reading : NodeId → Analysis.Reading} {caller callee : NodeId}
    (certain : (run.graph reading).ExtractedCall caller callee) :
    ∃ edge ∈ run.bytecodeEdges ++ run.javacEdges, edge.key = (.calls, caller, callee) := by
  obtain ⟨relationship, held, extracted⟩ := certain
  let Bound (record : Relationship) : Prop := record.confidence = .extracted →
    ∃ edge ∈ run.bytecodeEdges ++ run.javacEdges, edge.key = (.calls, caller, callee)
  have written : ∀ record ∈ (run.stored.links.foldl mergeEdge Dict.empty).get?
      (.calls, caller, callee), Bound record := by
    have keeps : ∀ old new : Relationship, Bound old → Bound new → Bound (old.over new) :=
      fun _ _ _ newer => newer
    rw [get?_foldl_mergeEdge]
    refine settled_preserves keeps (fun _ held => (Option.not_mem_none _ held).elim) ?_
    intro record listed certain
    obtain ⟨edge, kept, rfl⟩ := List.mem_map.mp listed
    obtain ⟨stored, keyed⟩ := List.mem_filter.mp kept
    have same : edge.key = (.calls, caller, callee) := of_decide_eq_true keyed
    exact ⟨edge, bound_of_mem_stored stored (congrArg Prod.fst same) certain, same⟩
  have final : ∀ record ∈ run.graphStore.relationships.get? (.calls, caller, callee),
      Bound record := by
    refine foldl_preserves (fun dict : Dict EdgeKey Relationship =>
      ∀ record ∈ dict.get? (.calls, caller, callee), Bound record) _ ?_ _ written
    intro dict edge created before record found
    rw [createEdge, Dict.get?_setdefault] at found
    split at found
    · next same =>
        obtain rfl := Option.some.inj (Option.mem_def.mp found)
        rw [← same]
        cases earlier : dict.get? (.calls, caller, callee) with
        | some old => exact before old earlier
        | none =>
            intro certain
            exact (uncertain_of_created created (congrArg Prod.fst same.symm) certain).elim
    · exact before record found
  exact final relationship held extracted

end Certain

end IndexRun

end GraphIngest.Pipeline
