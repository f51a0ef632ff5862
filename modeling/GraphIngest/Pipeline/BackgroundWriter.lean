import GraphIngest.Foundation.WorkQueue
import GraphIngest.Pipeline.Run

/-! # The background writer

While references are resolved, a thread of its own writes what has been handed over: the
structural edges first, then the batches of the sink, each with its nodes before its
edges. The queue between the two holds three of them. A run goes on behind the resolver
only when all of it has been written, and then the store holds what writing the batches in
turn leaves in it.
-/

namespace GraphIngest.Pipeline

open Foundation Text Graph External

/-- What is put into the queue of the writer. -/
structure WriteItem where
  nodes : List Node
  edges : List Edge
deriving DecidableEq, Repr

/-- A call of the store. -/
inductive StoreCall
  | writeNodes (batch : List Node)
  | writeEdges (batch : List Edge)
deriving DecidableEq, Repr

/-- The calls of `_writer_loop` for an item: nothing is written of an empty batch. -/
def WriteItem.calls (item : WriteItem) : List StoreCall :=
  (if item.nodes.isEmpty then [] else [.writeNodes item.nodes]) ++
    if item.edges.isEmpty then [] else [.writeEdges item.edges]

/-- **Calls of an item.** Its nodes are written before its edges, each of the two at most once. -/
theorem calls_nodes_first (item : WriteItem) :
    item.calls.Pairwise (fun first second =>
        first = .writeNodes item.nodes ∧ second = .writeEdges item.edges) ∧
      ∀ call, call ∈ item.calls ↔ call = .writeNodes item.nodes ∧ item.nodes ≠ [] ∨
        call = .writeEdges item.edges ∧ item.edges ≠ [] := by
  obtain ⟨nodes, edges⟩ := item
  unfold WriteItem.calls
  cases nodes <;> cases edges <;> simp

/-- The size of the queue. -/
def writeQueueSize : Nat := 3

/-- What is enqueued: the structural edges, if there are any, before resolution, then every
batch of the sink that has nodes or edges. -/
def writerJob (structural : List Edge) (batches : List (Chunk Node Edge)) :
    WorkQueue.Job WriteItem where
  opening := if structural.isEmpty then none else some ⟨[], structural⟩
  plan := (batches.filter fun chunk => !chunk.isEmpty).map fun chunk => ⟨chunk.declares, chunk.links⟩

/-- The states of the producer and the writer, from the start of the thread on. -/
abbrev WriterReachable (structural : List Edge) (batches : List (Chunk Node Edge)) :=
  WorkQueue.Reachable WriteItem.calls writeQueueSize (writerJob structural batches)

section Store

/-- What the store knows after a call, some edges being refused. -/
def StoreCall.apply (accepts : List NodeId → Edge → Bool) (ledger : Ledger NodeId Edge) :
    StoreCall → Ledger NodeId Edge
  | .writeNodes batch => { ledger with known := ledger.known ++ batch.map Node.id }
  | .writeEdges batch => { ledger with links := ledger.links ++ batch.filter (accepts ledger.known) }

variable (accepts : List NodeId → Edge → Bool)

/-- The calls for an item write its nodes and then its edges. -/
theorem foldl_calls (chunk : Chunk Node Edge) (ledger : Ledger NodeId Edge) :
    (WriteItem.calls ⟨chunk.declares, chunk.links⟩).foldl (StoreCall.apply accepts) ledger =
      Ledger.write Node.id accepts ledger chunk := by
  obtain ⟨declares, links⟩ := chunk
  unfold WriteItem.calls Ledger.write
  cases declares <;> cases links <;>
    simp only [List.isEmpty_nil, List.isEmpty_cons, Bool.false_eq_true, ↓reduceIte, List.foldl_nil,
      List.nil_append, List.append_nil, List.foldl_cons, List.foldl_append, StoreCall.apply,
      List.map_nil, List.filter_nil]

/-- Nothing is written of a chunk without nodes and edges. -/
theorem foldl_write_filter (batches : List (Chunk Node Edge)) (ledger : Ledger NodeId Edge) :
    (batches.filter fun chunk => !chunk.isEmpty).foldl (Ledger.write Node.id accepts) ledger =
      batches.foldl (Ledger.write Node.id accepts) ledger := by
  rw [List.foldl_filter]
  congr 1
  funext ledger chunk
  cases idle : chunk.isEmpty with
  | false => rfl
  | true =>
      rw [Chunk.isEmpty, Bool.and_eq_true, List.isEmpty_iff, List.isEmpty_iff] at idle
      simp only [Bool.not_true, Bool.false_eq_true, ↓reduceIte, Ledger.write, idle, List.map_nil,
        List.append_nil, List.filter_nil]

/-- Going through the items of a job writes the structural edges and then the batches in turn. -/
theorem foldl_items_writerJob (structural : List Edge) (batches : List (Chunk Node Edge))
    (ledger : Ledger NodeId Edge) :
    ((writerJob structural batches).items.flatMap WriteItem.calls).foldl
        (StoreCall.apply accepts) ledger =
      ({ links := structural } :: batches).foldl (Ledger.write Node.id accepts) ledger := by
  have each : ∀ (items : List (Chunk Node Edge)) (ledger : Ledger NodeId Edge),
      ((items.map fun chunk => (⟨chunk.declares, chunk.links⟩ : WriteItem)).flatMap
        WriteItem.calls).foldl (StoreCall.apply accepts) ledger =
      items.foldl (Ledger.write Node.id accepts) ledger := by
    intro items ledger
    rw [List.flatMap_map, List.foldl_flatMap]
    congr 1
    funext ledger chunk
    exact foldl_calls accepts chunk ledger
  rw [WorkQueue.Job.items, List.flatMap_append, List.foldl_append, List.foldl_cons]
  rw [← foldl_write_filter, ← each]
  congr 1
  rw [← foldl_calls, writerJob]
  cases structural with
  | nil => rfl
  | cons edge rest => rfl

end Store

/-- **Background writer.** Whoever steps and whatever fails, the store is called in the
order of the puts, for each item once, and the run gets past the wait only when every item
was put and written without failure. -/
theorem writer_safe (structural : List Edge) (batches : List (Chunk Node Edge))
    {state : WorkQueue.State WriteItem StoreCall}
    (reachable : WriterReachable structural batches state) :
    WorkQueue.InOrder WriteItem.calls state ∧
      (state.producer = .passed → state.enqueued = (writerJob structural batches).items ∧
        state.performed = (state.enqueued.flatMap WriteItem.calls).map fun call => (call, true)) := by
  refine ⟨WorkQueue.inOrder_of_reachable reachable, fun passed => ?_⟩
  obtain ⟨enqueued, performed⟩ := WorkQueue.performed_of_passed reachable passed
  exact ⟨enqueued, by rw [enqueued, performed]⟩

/-- Behind the wait, every call for the items has been made. -/
theorem performed_calls {structural : List Edge} {batches : List (Chunk Node Edge)}
    {state : WorkQueue.State WriteItem StoreCall}
    (reachable : WriterReachable structural batches state) (passed : state.producer = .passed) :
    state.performed.map Prod.fst =
      (writerJob structural batches).items.flatMap WriteItem.calls := by
  rw [(WorkQueue.performed_of_passed reachable passed).2, List.map_map]
  exact List.map_id _

/-- A structural edge. -/
def containing : Edge where
  type := .contains
  src := Resolve.letterId 'a'
  dst := Resolve.letterId 'b'

/-- A batch of the sink: a node and an edge to it. -/
def annotating (letter : Char) : Chunk Node Edge where
  declares :=
    [{ id := Resolve.letterId letter, label := NodeLabel.annotation, name := [letter]
       fqn := ['@', letter], repo := "demo", kind := NodeKind.annotation }]
  links := [{ type := .annotatedWith, src := Resolve.letterId 'b', dst := Resolve.letterId letter }]

/-- Two runs of both threads over a flushed edge and two batches. In the first the queue fills
while the writer is in the edge, and all is written, nodes before edges. In the second the nodes
of the first batch fail; its edges are left, the second batch is written, and the run raises. -/
theorem writer_safe_annotating :
    (∃ state, WriterReachable [containing] [annotating 'x', annotating 'y'] state ∧
      state.producer = .passed ∧ WorkQueue.InOrder WriteItem.calls state ∧
        state.performed =
          [(.writeEdges [containing], true),
           (.writeNodes (annotating 'x').declares, true),
           (.writeEdges (annotating 'x').links, true),
           (.writeNodes (annotating 'y').declares, true),
           (.writeEdges (annotating 'y').links, true)]) ∧
      ∃ state, WriterReachable [containing] [annotating 'x', annotating 'y'] state ∧
        state.producer = .aborted ∧ WorkQueue.InOrder WriteItem.calls state ∧
          state.performed =
            [(.writeEdges [containing], true),
             (.writeNodes (annotating 'x').declares, false),
             (.writeNodes (annotating 'y').declares, true),
             (.writeEdges (annotating 'y').links, true)] := by
  have started : WriterReachable [containing] [annotating 'x', annotating 'y']
      (WorkQueue.start _) := .start
  have flushed := (started.producer (.acceptOpening rfl rfl)).producer (.putOpening rfl (by decide))
  have taken := flushed.worker (.take rfl rfl)
  have first := (taken.producer (.accept rfl rfl)).producer (.put rfl (by decide))
  have second := (first.producer (.accept rfl rfl)).producer (.put rfl (by decide))
  have written := (second.worker (.succeed rfl)).worker (.finish rfl)
  have closed := (written.producer (.finish rfl)).producer (.close rfl (by decide))
  have begun := closed.worker (.take rfl rfl)
  refine ⟨?_, ?_⟩
  · have finished := ((begun.worker (.succeed rfl)).worker (.succeed rfl)).worker (.finish rfl)
    have last := (finished.worker (.take rfl rfl)).worker (.succeed rfl)
    have drained := (last.worker (.succeed rfl)).worker (.finish rfl)
    have passed := (drained.worker (.stop rfl rfl)).producer (.pass rfl rfl rfl)
    obtain ⟨ordered, whole⟩ := writer_safe _ _ passed
    exact ⟨_, passed, rfl, ordered, (whole rfl).2⟩
  · have failed := begun.worker (.fail rfl)
    have last := (failed.worker (.take rfl rfl)).worker (.succeed rfl)
    have drained := (last.worker (.succeed rfl)).worker (.finish rfl)
    have raised := (drained.worker (.stop rfl rfl)).producer
      (.reraise rfl rfl (List.cons_ne_nil _ _))
    exact ⟨_, raised, rfl, (writer_safe _ _ raised).1, rfl⟩

namespace IndexRun

variable {run : IndexRun}

/-- **Store behind the wait.** What the two threads have made of the store of a run is what its
first write and the batches, written in turn, leave in it. -/
theorem foldl_performed {state : WorkQueue.State WriteItem StoreCall}
    (reachable : WriterReachable run.input.extraction.edges run.resolution.handed state)
    (passed : state.producer = .passed) :
    (state.performed.map Prod.fst).foldl (StoreCall.apply accepts)
        { known := run.afterBytecode.items.map Node.id } =
      (run.firstWrite :: run.resolution.handed).foldl (Ledger.write Node.id accepts) {} := by
  rw [performed_calls reachable passed, foldl_items_writerJob, List.foldl_cons, List.foldl_cons]
  congr 1
  simp only [Ledger.write, firstWrite, List.map_nil, List.append_nil, List.nil_append]

end IndexRun

end GraphIngest.Pipeline
