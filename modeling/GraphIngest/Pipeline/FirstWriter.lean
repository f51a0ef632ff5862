import GraphIngest.Pipeline.NodeSet
import GraphIngest.Pipeline.StoredGraph

/-! # The first writer of a node

The node list takes a node only under an id it has not heard of, and what is
written late is taken from the list. The nodes the name resolver synthesizes go to
the store by another way: the sink writes them as they come, also under the id of
a node that extraction or the bytecode pass has made, whose properties they
replace.
-/

namespace GraphIngest.Pipeline

open Foundation Text Graph External

namespace IndexRun

variable (run : IndexRun)

/-- The nodes handed to the store, producer by producer in the order of their
writes. -/
def enqueued : List (List Node) :=
  [run.input.extraction.nodes,
   accepted Node.id (run.input.extraction.nodes.map Node.id) run.synthesized,
   run.resolution.handed.flatMap Chunk.declares,
   accepted Node.id run.afterSink.known run.resolution.extraNodes,
   accepted Node.id run.afterResolve.known run.packageTree.nodes.entries]

/-- No node of the later ones carries the id of an earlier one. -/
def Apart (earlier later : List Node) : Prop :=
  ∀ old ∈ earlier, ∀ node ∈ later, old.id ≠ node.id

/-- No producer's node is handed to the store under an id that an earlier producer
has handed over, and the nodes there before resolution keep their properties. -/
def FirstWriterWins : Prop :=
  run.enqueued.Pairwise Apart ∧
    ∀ node ∈ run.afterBytecode.items, run.graphStore.nodes.get? node.id = some node.props

/-- No reference asks for a node that is extracted or synthesized by the bytecode
pass already. -/
def NothingOldAsked : Prop :=
  ∀ ref ∈ run.input.extraction.refs, ∀ id,
    Resolve.synthesizedId run.resolveSettings run.corpus ref = some id →
      id ∉ run.input.extraction.nodes.map Node.id ∧ id ∉ run.synthesized.map Node.id

variable {run}

theorem apart_of_not_mem {earlier later : List Node}
    (fresh : ∀ node ∈ later, node.id ∉ earlier.map Node.id) : Apart earlier later :=
  fun _ before node after same => fresh node after (same ▸ List.mem_map_of_mem before)

/-- The sink is handed what the references ask for. -/
theorem mem_handed {id : NodeId} :
    id ∈ (run.resolution.handed.flatMap Chunk.declares).map Node.id ↔
      ∃ ref ∈ run.input.extraction.refs,
        Resolve.synthesizedId run.resolveSettings run.corpus ref = some id := by
  have same : run.resolution.handed.flatMap Chunk.declares = run.resolution.extraNodes :=
    Resolve.declares_handed run.resolveSettings run.corpus
  rw [same]
  exact Resolve.mem_extraNodes_iff run.resolveSettings run.corpus id

/-- A node before resolution whose id is not handed over again keeps its
properties. -/
theorem get?_graphStore {node : Node} (listed : node ∈ run.afterBytecode.items)
    (alone : ∀ other ∈ run.resolution.handed.flatMap Chunk.declares ++ run.lateNodes,
      node.id ≠ other.id) :
    run.graphStore.nodes.get? node.id = some node.props := by
  have later : (run.resolution.handed.flatMap Chunk.declares ++ run.lateNodes).filter
      (fun other => other.id = node.id) = [] :=
    List.filter_eq_nil_iff.mpr fun other handed same =>
      alone other handed (of_decide_eq_true same).symm
  have found : ((run.writes.flatMap Chunk.declares).foldl mergeNode Dict.empty).get? node.id =
      some node.props := by
    rw [get?_foldl_mergeNode, declares_writes, List.filter_append, later,
      filter_name_eq run.afterBytecode.distinct listed]
    rfl
  refine foldl_preserves (fun dict : Dict NodeId StoredNode =>
    dict.get? node.id = some node.props) run.acquireNodes ?_ _ found
  intro dict acquired _ held
  rw [createNode, Dict.get?_setdefault]
  split
  · next same => rw [← same, held, Option.getD_some]
  · exact held

/-- The nodes of the late writes carry ids nobody has announced. -/
theorem unheard_of_mem_lateNodes {node : Node} (late : node ∈ run.lateNodes) :
    node.id ∉ run.afterSink.known := by
  rcases List.mem_append.mp late with extra | package
  · exact (mem_map_accepted.mp (List.mem_map_of_mem extra)).2
  · intro heard
    refine (mem_map_accepted.mp (List.mem_map_of_mem package)).2 ?_
    exact mem_known_afterResolve.mpr heard

/-- **First writer.** The first writer of every node wins exactly when no reference
asks for a node that is there before resolution. -/
theorem firstWriterWins_iff (run : IndexRun) : run.FirstWriterWins ↔ run.NothingOldAsked := by
  constructor
  · rintro ⟨apart, _⟩ ref listed id asked
    simp only [enqueued, List.pairwise_cons, List.mem_cons, forall_eq_or_imp] at apart
    obtain ⟨handed, made, same⟩ := List.mem_map.mp (mem_handed.mpr ⟨ref, listed, asked⟩)
    have unextracted : id ∉ run.input.extraction.nodes.map Node.id := by
      intro extracted
      obtain ⟨old, before, named⟩ := List.mem_map.mp extracted
      exact apart.1.2.1 old before handed made (named.trans same.symm)
    refine ⟨unextracted, fun synthesized => ?_⟩
    obtain ⟨old, before, named⟩ := List.mem_map.mp
      (mem_map_accepted.mpr ⟨synthesized, unextracted⟩)
    exact apart.2.1.1 old before handed made (named.trans same.symm)
  · intro nothing
    have before : ∀ node ∈ run.resolution.handed.flatMap Chunk.declares,
        node.id ∉ run.afterBytecode.items.map Node.id := by
      intro node made
      obtain ⟨ref, listed, asked⟩ := mem_handed.mp (List.mem_map_of_mem made)
      rw [mem_afterBytecode, not_or]
      exact nothing ref listed node.id asked
    have unlisted : ∀ node : Node, node.id ∉ run.afterSink.known →
        node.id ∉ run.afterBytecode.items.map Node.id ∧
          node.id ∉ (run.resolution.handed.flatMap Chunk.declares).map Node.id := by
      intro node unheard
      rw [mem_known_afterSink, not_or] at unheard
      have same : run.resolution.handed.flatMap Chunk.declares = run.resolution.extraNodes :=
        Resolve.declares_handed run.resolveSettings run.corpus
      exact ⟨unheard.1, same ▸ unheard.2⟩
    have extracted : ∀ node : Node, node.id ∉ run.afterBytecode.items.map Node.id →
        node.id ∉ run.input.extraction.nodes.map Node.id :=
      fun node absent present => absent (mem_afterBytecode.mpr (Or.inl present))
    have synthesized : ∀ node : Node, node.id ∉ run.afterBytecode.items.map Node.id →
        node.id ∉ (accepted Node.id (run.input.extraction.nodes.map Node.id)
          run.synthesized).map Node.id :=
      fun node absent present => absent
        (mem_afterBytecode.mpr (Or.inr (mem_map_accepted.mp present).1))
    have extra : ∀ node ∈ accepted Node.id run.afterSink.known run.resolution.extraNodes,
        node.id ∉ run.afterSink.known :=
      fun node listed => unheard_of_mem_lateNodes (List.mem_append_left _ listed)
    have package : ∀ node ∈ accepted Node.id run.afterResolve.known
        run.packageTree.nodes.entries, node.id ∉ run.afterSink.known :=
      fun node listed => unheard_of_mem_lateNodes (List.mem_append_right _ listed)
    constructor
    · simp only [enqueued, List.pairwise_cons, List.mem_cons, forall_eq_or_imp,
        List.not_mem_nil, false_implies, implies_true, and_true, List.Pairwise.nil]
      refine ⟨⟨?_, ?_, ?_, ?_⟩, ⟨?_, ?_, ?_⟩, ⟨?_, ?_⟩, ?_⟩ <;> refine apart_of_not_mem ?_
      · exact fun node listed => (mem_map_accepted.mp (List.mem_map_of_mem listed)).2
      · exact fun node made => extracted node (before node made)
      · exact fun node late => extracted node (unlisted node (extra node late)).1
      · exact fun node late => extracted node (unlisted node (package node late)).1
      · exact fun node made => synthesized node (before node made)
      · exact fun node late => synthesized node (unlisted node (extra node late)).1
      · exact fun node late => synthesized node (unlisted node (package node late)).1
      · exact fun node late => (unlisted node (extra node late)).2
      · exact fun node late => (unlisted node (package node late)).2
      · intro node late listed
        refine package node late (mem_known_afterSink.mpr (Or.inr ?_))
        exact (mem_map_accepted.mp listed).1
    · intro node listed
      refine get?_graphStore listed fun other later same => ?_
      have present : other.id ∈ run.afterBytecode.items.map Node.id :=
        same ▸ List.mem_map_of_mem listed
      rcases List.mem_append.mp later with made | late
      · exact before other made present
      · exact (unlisted other (unheard_of_mem_lateNodes late)).1 present

/-- The call `source.borrow()` in the body of `B.g()`. -/
def borrowingCall : RawRef where
  type := .calls
  src := (Bytecode.sampleMethod "demo.B" "g" "()" [] "B.java" .method).id
  targetName := "borrow"
  kindHint := .call
  recv := "source"
  recvType := "DataSource"
  refFile := "B.java"
  refLine := 4
  callArity := 0

/-- `A.java` declares `A` with `f()`, `B.java` declares `B` with `g()`; both borrow
a connection from a `DataSource` of the unnamed package. -/
def borrowingInput : Input where
  options := { sampleOptions with bytecode := true }
  extraction :=
    { nodes := twoClasses
      edges := []
      refs := [borrowingCall]
      javaFilesSeen := 2
      distinct := distinct_twoClasses
      sourced := by decide +kernel
      structural := structural_nil
      raw := by decide +kernel }
  classes :=
    [Bytecode.sampleInfo "demo.A" "java.lang.Object" []
      [{ name := "f", descriptor := "()V", accessFlags := 0x0001, startLine := 3, endLine := 3,
         invocations :=
          [{ opcode := .invokevirtual, owner := "DataSource", name := "borrow",
             descriptor := "()Ljava/sql/Connection;", line := 3 }] }]]
  oracle := none

/-- The run over it: the class file of `A` alone is found. -/
def borrowingRun : IndexRun where
  input := borrowingInput
  bytecode := some (Bytecode.keptOutcome borrowingInput.bytecodeSettings
    borrowingInput.extraction.nodes borrowingInput.classes)
  ran := Input.bytecodeStage_of_guards rfl (by decide +kernel)

/-- The bytecode pass makes the target an acquire, and the resolver's node makes
it another database call. -/
theorem borrowing_replaced : ¬ ∀ run : IndexRun, run.FirstWriterWins := by
  intro wins
  have kinds : borrowingRun.afterBytecode.items.all (fun node =>
      (borrowingRun.graphStore.nodes.get? node.id).map StoredNode.kind == some node.kind) =
        false := by
    decide +kernel
  obtain ⟨node, listed, different⟩ := List.all_eq_false.mp kinds
  rw [(wins borrowingRun).2 node listed] at different
  exact different (BEq.rfl)

end IndexRun

end GraphIngest.Pipeline
