import GraphIngest.Bytecode.EdgeEnds
import GraphIngest.Graph.Extractor
import GraphIngest.Pipeline.Discard
import GraphIngest.Pipeline.NodeSet
import GraphIngest.Resolve.Sink

/-! # Every edge once, after its endpoints

The store matches the endpoints of an edge and drops the edge without a word where one of
them is missing. Edges reach it by four ways: extraction's in front of the batches of the
sink, those of the precise passes when the background writer is done, and the derived ones
at the end, behind the nodes made late. On each way an edge comes when both its endpoints
have been written, and it comes on one of them only.
-/

namespace GraphIngest.Pipeline

open Foundation Text Graph External

section Calls

/-- The nodes a call hands to the store. -/
def StoreCall.nodes : StoreCall → List Node
  | .writeNodes batch => batch
  | .writeEdges _ => []

/-- The edges a call hands to the store. -/
def StoreCall.edges : StoreCall → List Edge
  | .writeNodes _ => []
  | .writeEdges batch => batch

/-- Both ends of an edge are among some ids. -/
structure Joined (known : List NodeId) (edge : Edge) : Prop where
  src : edge.src ∈ known
  dst : edge.dst ∈ known

/-- Each edge of some calls is written when its ends are there, before all of the calls or
by one in front of it. -/
def AfterEnds : List NodeId → List StoreCall → Prop
  | _, [] => True
  | known, .writeNodes batch :: rest => AfterEnds (known ++ batch.map Node.id) rest
  | known, .writeEdges batch :: rest => (∀ edge ∈ batch, Joined known edge) ∧ AfterEnds known rest

/-- Each of some edges that the store does not drop by its type is handed over once, and
every edge handed over is so after its ends. -/
structure Persists (calls : List StoreCall) (produced : List Edge) : Prop where
  once : ∀ edge ∈ produced, Resolve.dropped edge.type = false →
    (calls.flatMap StoreCall.edges).count edge = produced.count edge
  ends : ∀ before batch after, calls = before ++ .writeEdges batch :: after → ∀ edge ∈ batch,
    Joined ((before.flatMap StoreCall.nodes).map Node.id) edge

theorem Joined.mono {known more : List NodeId} (included : ∀ id ∈ known, id ∈ more) {edge : Edge}
    (joined : Joined known edge) : Joined more edge :=
  ⟨included _ joined.src, included _ joined.dst⟩

theorem afterEnds_append {known : List NodeId} {first second : List StoreCall} :
    AfterEnds known (first ++ second) ↔ AfterEnds known first ∧
      AfterEnds (known ++ (first.flatMap StoreCall.nodes).map Node.id) second := by
  induction first generalizing known with
  | nil => simp only [List.nil_append, List.flatMap_nil, List.map_nil, List.append_nil, AfterEnds,
      true_and]
  | cons call rest ih =>
      cases call with
      | writeNodes batch =>
          rw [List.cons_append, AfterEnds, ih, AfterEnds, List.flatMap_cons, List.map_append,
            ← List.append_assoc]
          rfl
      | writeEdges batch =>
          rw [List.cons_append, AfterEnds, ih, AfterEnds, List.flatMap_cons, and_assoc]
          rfl

/-- What the split says of the calls in front of a batch. -/
theorem AfterEnds.joined {known : List NodeId} {before after : List StoreCall} {batch : List Edge}
    (ordered : AfterEnds known (before ++ .writeEdges batch :: after)) {edge : Edge}
    (written : edge ∈ batch) :
    Joined (known ++ (before.flatMap StoreCall.nodes).map Node.id) edge :=
  (afterEnds_append.mp ordered).2.1 edge written

theorem nodes_calls (item : WriteItem) : item.calls.flatMap StoreCall.nodes = item.nodes := by
  obtain ⟨nodes, edges⟩ := item
  cases nodes <;> cases edges <;>
    simp only [WriteItem.calls, StoreCall.nodes, List.isEmpty_nil, List.isEmpty_cons,
      Bool.false_eq_true, ↓reduceIte, List.nil_append, List.append_nil, List.flatMap_nil,
      List.flatMap_cons, List.singleton_append]

theorem edges_calls (item : WriteItem) : item.calls.flatMap StoreCall.edges = item.edges := by
  obtain ⟨nodes, edges⟩ := item
  cases nodes <;> cases edges <;>
    simp only [WriteItem.calls, StoreCall.edges, List.isEmpty_nil, List.isEmpty_cons,
      Bool.false_eq_true, ↓reduceIte, List.nil_append, List.append_nil, List.flatMap_nil,
      List.flatMap_cons, List.singleton_append]

/-- The calls for an item are in order when the ends of its edges are there with its nodes. -/
theorem afterEnds_calls {known : List NodeId} {item : WriteItem}
    (joined : ∀ edge ∈ item.edges, Joined (known ++ item.nodes.map Node.id) edge) :
    AfterEnds known item.calls := by
  obtain ⟨nodes, edges⟩ := item
  have written : AfterEnds (known ++ nodes.map Node.id)
      (if edges.isEmpty then [] else [.writeEdges edges]) := by
    split
    · trivial
    · exact ⟨joined, trivial⟩
  unfold WriteItem.calls
  cases nodes with
  | nil =>
      rw [List.map_nil, List.append_nil] at written
      exact written
  | cons node rest => exact written

/-- The calls for the job of the writer: for the structural edges, then for every batch. -/
theorem flatMap_items_writerJob (structural : List Edge) (batches : List (Chunk Node Edge)) :
    (writerJob structural batches).items.flatMap WriteItem.calls =
      WriteItem.calls ⟨[], structural⟩ ++
        batches.flatMap fun chunk => WriteItem.calls ⟨chunk.declares, chunk.links⟩ := by
  have planned : ((batches.filter fun chunk => !chunk.isEmpty).map fun chunk =>
      (⟨chunk.declares, chunk.links⟩ : WriteItem)).flatMap WriteItem.calls =
        batches.flatMap fun chunk => WriteItem.calls ⟨chunk.declares, chunk.links⟩ := by
    rw [List.flatMap_map]
    induction batches with
    | nil => rfl
    | cons chunk rest ih =>
        rw [List.filter_cons, List.flatMap_cons]
        split
        · rw [List.flatMap_cons, ih]
        · next idle =>
            rw [Bool.not_eq_true', Bool.not_eq_false, Chunk.isEmpty, Bool.and_eq_true,
              List.isEmpty_iff, List.isEmpty_iff] at idle
            rw [ih, idle.1, idle.2]
            rfl
  rw [WorkQueue.Job.items, List.flatMap_append]
  refine congrArg₂ (· ++ ·) ?_ planned
  cases structural with
  | nil => rfl
  | cons edge rest => exact List.append_nil _

/-- Batches are written in order when the ends of each edge are there with the nodes of its
batch. -/
theorem afterEnds_batches {known : List NodeId} {batches : List (Chunk Node Edge)}
    (joined : ∀ before batch after, batches = before ++ batch :: after → ∀ edge ∈ batch.links,
      Joined (known ++ ((before ++ [batch]).flatMap Chunk.declares).map Node.id) edge) :
    AfterEnds known
      (batches.flatMap fun chunk => WriteItem.calls ⟨chunk.declares, chunk.links⟩) := by
  induction batches generalizing known with
  | nil => trivial
  | cons first rest ih =>
      rw [List.flatMap_cons, afterEnds_append, nodes_calls]
      constructor
      · apply afterEnds_calls
        have now := joined [] first rest rfl
        rwa [List.nil_append, List.flatMap_singleton] at now
      · apply ih
        intro before batch after split edge carried
        have later := joined (first :: before) batch after (congrArg (first :: ·) split) edge carried
        rwa [List.cons_append, List.flatMap_cons, List.map_append, ← List.append_assoc] at later

end Calls

/-- What extraction hands over is the merge of what the walks through the files emit. -/
structure Extraction.Merges (extraction : Extraction) (walks : List FileWalk) : Prop where
  nodes : extraction.nodes = (mergeBundles (walks.map FileWalk.extract)).nodes
  edges : extraction.edges = (mergeBundles (walks.map FileWalk.extract)).edges
  refs : extraction.refs = (mergeBundles (walks.map FileWalk.extract)).refs

namespace IndexRun

variable (run : IndexRun) (sql : SqlScan) (withheld : Withheld)

/-- The edges of all stages, given those of javac. -/
def producedEdges (javac : List Edge) : List Edge :=
  run.input.extraction.edges ++ Resolve.emitted run.resolveSettings run.corpus ++
    run.bytecodeEdges ++ javac ++ run.deriveEdges sql withheld

/-- The calls of a run whose background writer did its whole job. -/
def wholeCalls : List StoreCall :=
  run.storeCalls sql withheld
    ((writerJob run.input.extraction.edges run.resolution.handed).items.flatMap WriteItem.calls)

/-- The ids that the store is handed before resolution. -/
def idsBefore : List NodeId := run.afterBytecode.items.map Node.id

/-- The ids that the store is handed up to the wait for the writer. -/
def idsResolved : List NodeId :=
  run.idsBefore ++ (run.resolution.handed.flatMap Chunk.declares).map Node.id

/-- The ids that the store is handed. -/
def idsWritten : List NodeId := run.idsResolved ++ run.lateNodes.map Node.id

variable {run} in
/-- Behind the wait, the writer did its whole job. -/
theorem storeCalls_of_passed {state : WorkQueue.State WriteItem StoreCall}
    (reachable : WriterReachable run.input.extraction.edges run.resolution.handed state)
    (passed : state.producer = .passed) :
    run.storeCalls sql withheld (state.performed.map Prod.fst) = run.wholeCalls sql withheld := by
  rw [performed_calls reachable passed]
  rfl

/-- The store is handed the edges of the stages, in this order, of javac those outside the
files that bytecode owns. -/
theorem edges_wholeCalls :
    (run.wholeCalls sql withheld).flatMap StoreCall.edges =
      run.producedEdges sql withheld run.javacEdges := by
  have closing : (run.closingCalls sql withheld).flatMap StoreCall.edges =
      run.bytecodeEdges ++ run.javacEdges ++ run.deriveEdges sql withheld := by
    rw [closingCalls, List.flatMap_append]
    refine congrArg₂ (· ++ ·) ?_ (List.append_nil _)
    split
    · next none => exact (List.isEmpty_iff.mp none).symm
    · exact List.append_nil _
  have batched : (run.resolution.handed.flatMap fun chunk =>
      WriteItem.calls ⟨chunk.declares, chunk.links⟩).flatMap StoreCall.edges =
        Resolve.emitted run.resolveSettings run.corpus := by
    rw [List.flatMap_assoc]
    exact List.flatMap_congr fun chunk _ => edges_calls ⟨chunk.declares, chunk.links⟩
  rw [wholeCalls, storeCalls, flatMap_items_writerJob, List.flatMap_cons, List.flatMap_append,
    List.flatMap_append, edges_calls, batched, closing]
  simp only [producedEdges, StoreCall.edges, List.nil_append, List.append_assoc]

section Ends

variable {run} {sql} {withheld}

/-- The ends of extraction's edges are there before resolution. -/
theorem joined_of_extracted {walks : List FileWalk} (merges : run.input.extraction.Merges walks)
    {edge : Edge} (member : edge ∈ run.input.extraction.edges) : Joined run.idsBefore edge := by
  have closed : (mergeBundles (walks.map FileWalk.extract)).Closed := by
    apply closed_mergeBundles
    intro bundle listed
    obtain ⟨walk, _, rfl⟩ := List.mem_map.mp listed
    exact closed_extract walk
  have extracted : ∀ id ∈ (mergeBundles (walks.map FileWalk.extract)).nodes.map Node.id,
      id ∈ run.idsBefore := by
    intro id listed
    rw [← merges.nodes] at listed
    exact mem_afterBytecode.mpr (Or.inl listed)
  rw [merges.edges] at member
  exact ⟨extracted _ (closed.src edge member), extracted _ (closed.dst edge member)⟩

/-- The ends of a batch of the sink are there with its nodes. -/
theorem joined_of_handed {before after : List (Chunk Node Edge)} {batch : Chunk Node Edge}
    (split : run.resolution.handed = before ++ batch :: after) {edge : Edge}
    (carried : edge ∈ batch.links) :
    Joined (run.idsBefore ++ ((before ++ [batch]).flatMap Chunk.declares).map Node.id) edge := by
  obtain ⟨⟨ref, listed, src⟩, dst⟩ := Resolve.endsKnown_of_batches split carried
  constructor
  · rw [src]
    apply List.mem_append_left
    exact mem_afterBytecode.mpr (Or.inl (run.input.extraction.sourced ref listed))
  · rcases dst with ⟨node, known, same⟩ | ⟨node, handed, same⟩
    · exact List.mem_append_left _ (same ▸ List.mem_map_of_mem known)
    · exact List.mem_append_right _ (same ▸ List.mem_map_of_mem handed)

/-- The ends of the edges of the precise passes are there before resolution. -/
theorem joined_of_pending {edge : Edge} (member : edge ∈ run.pending) :
    Joined run.idsBefore edge := by
  rcases List.mem_append.mp member with bytecode | javac
  · unfold bytecodeEdges at bytecode
    cases present : run.bytecode with
    | none =>
        rw [present] at bytecode
        exact (List.not_mem_nil bytecode).elim
    | some outcome =>
        rw [present] at bytecode
        have made : run.synthesized = outcome.synthesized := by rw [synthesized, present]
        have there : ∀ id, (∃ node ∈ run.input.extraction.nodes ++ outcome.synthesized,
            node.id = id) → id ∈ run.idsBefore := by
          rintro id ⟨node, listed, rfl⟩
          refine mem_afterBytecode.mpr ((List.mem_append.mp listed).imp List.mem_map_of_mem ?_)
          rw [made]
          exact List.mem_map_of_mem
        obtain ⟨src, dst⟩ := (kept_of_bytecode present).present bytecode
        exact ⟨there _ src, there _ dst⟩
  · have bound := List.mem_of_mem_filter javac
    unfold IndexRun.javac at bound
    split at bound
    · obtain ⟨⟨caller, listed, src⟩, callee, known, dst⟩ := Javac.ends_of_mem bound
      exact ⟨src ▸ List.mem_map_of_mem listed, dst ▸ List.mem_map_of_mem known⟩
    · exact (List.not_mem_nil bound).elim

theorem mem_idsWritten_of_before {id : NodeId} (listed : id ∈ run.idsBefore) :
    id ∈ run.idsWritten :=
  List.mem_append_left _ (List.mem_append_left _ listed)

/-- The nodes of the package tree are written, late ones or not. -/
theorem mem_idsWritten_of_tree {id : NodeId} (made : run.packageTree.nodes.Has id) :
    id ∈ run.idsWritten := by
  obtain ⟨node, listed, rfl⟩ := made
  by_cases heard : node.id ∈ run.afterResolve.known
  · rcases mem_known_afterSink.mp (mem_known_afterResolve.mp heard) with before | handed
    · exact mem_idsWritten_of_before before
    · rw [← show run.resolution.handed.flatMap Chunk.declares = run.resolution.extraNodes from
        Resolve.declares_handed run.resolveSettings run.corpus] at handed
      exact List.mem_append_left _ (List.mem_append_right _ handed)
  · apply List.mem_append_right
    rw [lateNodes, List.map_append]
    exact List.mem_append_right _ (mem_map_accepted.mpr ⟨List.mem_map_of_mem listed, heard⟩)

theorem mem_idsWritten_of_final {node : Node} (listed : node ∈ run.finalNodes.items) :
    node.id ∈ run.idsWritten := by
  rcases mem_finalNodes.mp (List.mem_map_of_mem listed) with before | ⟨package, _⟩
  · exact mem_idsWritten_of_before before
  · obtain ⟨made, entered, same⟩ := List.mem_map.mp package
    exact mem_idsWritten_of_tree ⟨made, entered, same⟩

/-- The ends of the derived edges are there when the late nodes are. -/
theorem joined_of_derived {edge : Edge} (member : edge ∈ run.deriveEdges sql withheld) :
    Joined run.idsWritten edge := by
  have listed : ∀ node ∈ run.afterResolve.items, node.id ∈ run.idsWritten := by
    intro node member
    rw [items_afterResolve] at member
    exact mem_idsWritten_of_before (List.mem_map_of_mem member)
  unfold deriveEdges at member
  rcases List.mem_append.mp member with earlier | linked
  · rcases List.mem_append.mp earlier with override | tree
    · obtain ⟨node, own, method, other, rfl⟩ := (addable_of_mem_deriveOverrides override).joins
      exact ⟨listed node own, listed method other⟩
    · obtain ⟨src, dst⟩ := joins_buildPackageTree _ _ _ edge tree
      refine ⟨mem_idsWritten_of_tree src, ?_⟩
      rcases dst with package | ⟨file, member, same⟩
      · exact mem_idsWritten_of_tree package
      · exact same ▸ listed file member
  · obtain ⟨_, ⟨node, own, src⟩, table, other, dst⟩ := ends_of_mem_deriveSqlLinks sql linked
    exact ⟨src ▸ mem_idsWritten_of_final own, dst ▸ mem_idsWritten_of_final other⟩

/-- Everything is written in order. -/
theorem afterEnds_wholeCalls {walks : List FileWalk} (merges : run.input.extraction.Merges walks) :
    AfterEnds [] (run.wholeCalls sql withheld) := by
  have structural : AfterEnds run.idsBefore (WriteItem.calls ⟨[], run.input.extraction.edges⟩) := by
    apply afterEnds_calls
    intro edge member
    rw [List.map_nil, List.append_nil]
    exact joined_of_extracted merges member
  have resolved : AfterEnds run.idsBefore (run.resolution.handed.flatMap fun chunk =>
      WriteItem.calls ⟨chunk.declares, chunk.links⟩) :=
    afterEnds_batches fun _ _ _ split _ carried => joined_of_handed split carried
  have closing : AfterEnds run.idsResolved (run.closingCalls sql withheld) := by
    have late : AfterEnds run.idsResolved
        [.writeNodes run.lateNodes, .writeEdges (run.deriveEdges sql withheld)] :=
      ⟨fun _ => joined_of_derived, trivial⟩
    unfold closingCalls
    split
    · exact late
    · refine ⟨fun edge member => ?_, late⟩
      exact (joined_of_pending member).mono fun _ => List.mem_append_left _
  have nodes : (run.resolution.handed.flatMap fun chunk =>
      WriteItem.calls ⟨chunk.declares, chunk.links⟩).flatMap StoreCall.nodes =
        run.resolution.handed.flatMap Chunk.declares := by
    rw [List.flatMap_assoc]
    exact List.flatMap_congr fun chunk _ => nodes_calls ⟨chunk.declares, chunk.links⟩
  rw [wholeCalls, storeCalls, AfterEnds, List.nil_append, flatMap_items_writerJob,
    afterEnds_append, List.flatMap_append, nodes_calls, nodes, List.nil_append, afterEnds_append,
    nodes_calls, List.map_nil, List.append_nil]
  exact ⟨⟨structural, resolved⟩, closing⟩

end Ends

end IndexRun

/-- **Persistence.** Once a run is past the wait for its writer, each edge of its stages is
handed to the store once, of javac those outside the files that bytecode owns, and every
edge after both its ends. -/
theorem persists_storeCalls (run : ReportedRun) {walks : List FileWalk}
    (merges : run.input.extraction.Merges walks) {state : WorkQueue.State WriteItem StoreCall}
    (reachable : WriterReachable run.input.extraction.edges run.toRun.resolution.handed state)
    (passed : state.producer = .passed) :
    Persists (run.toRun.storeCalls run.sql run.withheld (state.performed.map Prod.fst))
      (run.toRun.producedEdges run.sql run.withheld run.toRun.javacEdges) := by
  rw [IndexRun.storeCalls_of_passed run.sql run.withheld reachable passed]
  constructor
  · intro edge _ _
    rw [run.toRun.edges_wholeCalls]
  · intro before batch after split edge written
    have ordered := @IndexRun.afterEnds_wholeCalls run.toRun run.sql run.withheld _ merges
    rw [split] at ordered
    exact ordered.joined written

section Sample

/-- Both threads run through when there are structural edges only. -/
theorem exists_passed {structural : List Edge} (edges : structural.isEmpty = false) :
    ∃ state, WriterReachable structural [] state ∧ state.producer = .passed := by
  have opening : (writerJob structural []).opening = some ⟨[], structural⟩ := by
    rw [writerJob, edges]
    rfl
  have calls : WriteItem.calls ⟨[], structural⟩ = [.writeEdges structural] := by
    rw [WriteItem.calls, edges]
    rfl
  have started : WriterReachable structural [] (WorkQueue.start _) := .start
  rw [WorkQueue.start, opening] at started
  have put := (started.producer (.acceptOpening rfl rfl)).producer (.putOpening rfl (Nat.succ_pos 2))
  have taken := put.worker (.take rfl rfl)
  rw [calls] at taken
  have written := (taken.worker (.succeed rfl)).worker (.finish rfl)
  have closed := (written.producer (.finish rfl)).producer (.close rfl (Nat.succ_pos 2))
  have stopped := closed.worker (.stop rfl rfl)
  exact ⟨_, stopped.producer (.pass rfl rfl rfl), rfl⟩

/-- The node of a file. -/
def sampleFile (path : Str) : Node where
  id := Bytecode.plainId "demo" path "file"
  label := .file
  name := path
  fqn := path
  repo := "demo"
  lang := .java
  file := path

/-- `A.java` declares `A` with `f()` and `B` with `g()`; `C.java` declares nothing. -/
def nestedWalks : List FileWalk :=
  [.code "tree-sitter" "A.java" (sampleFile "A.java")
    [.enter 0 (Bytecode.sampleClass "demo.A" "A.java") ⟨1, 0⟩,
     .enter 0 (Bytecode.sampleMethod "demo.A" "f" "()" [] "A.java" .method) ⟨2, 2⟩, .leave, .leave,
     .enter 0 (Bytecode.sampleClass "demo.B" "A.java") ⟨5, 0⟩,
     .enter 0 (Bytecode.sampleMethod "demo.B" "g" "()" [] "A.java" .method) ⟨6, 2⟩, .leave, .leave],
   .code "tree-sitter" "C.java" (sampleFile "C.java") []]

/-- The merge of both files. -/
def nestedBundle : Bundle := mergeBundles (nestedWalks.map FileWalk.extract)

theorem structural_nestedBundle : ∀ edge ∈ nestedBundle.edges,
    edge.type = .contains ∨ edge.type = .exposes ∨ edge.type = .references := by
  decide +kernel

theorem distinct_nestedBundle : (nestedBundle.nodes.map Node.id).Nodup := by decide +kernel

/-- What extraction hands over of them. -/
def nestedExtraction : Extraction where
  nodes := nestedBundle.nodes
  edges := nestedBundle.edges
  refs := []
  javaFilesSeen := 2
  distinct := distinct_nestedBundle
  sourced := sourced_nil _
  structural := structural_nestedBundle
  raw := raw_nil

/-- Both class files are found, and the call of `A.f()` in `B.g()` is bound by its instruction and
by javac. -/
def nestedInput : Input where
  options := { sampleOptions with bytecode := true, javac := true }
  extraction := nestedExtraction
  classes :=
    [Bytecode.sampleInfo "demo.A" "java.lang.Object" []
      [{ name := "f", descriptor := "()V", accessFlags := 0x0001, startLine := 2, endLine := 2 }],
     Bytecode.sampleInfo "demo.B" "java.lang.Object" []
      [{ name := "g", descriptor := "()V", accessFlags := 0x0001, startLine := 6, endLine := 8
         invocations := [⟨.invokevirtual, "demo.A", "f", "()V", 7⟩] }]]
  oracle := some
    { invocationsSeen := 1
      resolvedInRepo := 1
      lines :=
        ["@FILE\tA.java".toList, "demo.B\tg\t0\tdemo.A\tf\t0\tA.java\t7".toList] }

/-- The run over it. -/
def nestedRun : ReportedRun where
  input := nestedInput
  sql := noSql
  pass := some (Bytecode.keptOutcome nestedInput.bytecodeSettings nestedInput.extraction.nodes
    nestedInput.classes)
  ran := Input.bytecodePass_of_guards rfl (by decide +kernel)

theorem merges_nestedRun : nestedRun.input.extraction.Merges nestedWalks :=
  ⟨rfl, rfl, by decide +kernel⟩

/-- The edge that javac has for the call. -/
def nestedCall : Edge :=
  Javac.javacEdge (Bytecode.sampleMethod "demo.B" "g" "()" [] "A.java" .method).id
    (Bytecode.sampleMethod "demo.A" "f" "()" [] "A.java" .method).id
    ⟨"demo.B", "g", 0, "demo.A", "f", 0, "A.java", 7⟩

/-- The instruction makes an edge between the same functions. The edge of javac is in a file that
bytecode owns and is not handed over. -/
theorem persists_fails_nested :
    (∃ edge ∈ nestedRun.toRun.bytecodeEdges, edge.key = nestedCall.key ∧ edge ≠ nestedCall) ∧
      ¬ ∀ (run : ReportedRun) (walks : List FileWalk)
        (state : WorkQueue.State WriteItem StoreCall), run.input.extraction.Merges walks →
          WriterReachable run.input.extraction.edges run.toRun.resolution.handed state →
            state.producer = .passed →
              Persists (run.toRun.storeCalls run.sql run.withheld (state.performed.map Prod.fst))
                (run.toRun.producedEdges run.sql run.withheld run.toRun.javac.1) := by
  refine ⟨by decide +kernel, fun persists => ?_⟩
  obtain ⟨state, reachable, passed⟩ :=
    @exists_passed nestedRun.input.extraction.edges (by decide +kernel)
  have bound : nestedCall ∈ nestedRun.toRun.javac.1 := by decide +kernel
  have unhanded : nestedCall ∉ nestedRun.toRun.producedEdges nestedRun.sql nestedRun.withheld
      nestedRun.toRun.javacEdges := by
    decide +kernel
  have produced : nestedCall ∈ nestedRun.toRun.producedEdges nestedRun.sql nestedRun.withheld
      nestedRun.toRun.javac.1 :=
    List.mem_append_left _ (List.mem_append_right _ bound)
  have once := (persists nestedRun nestedWalks state merges_nestedRun reachable passed).once
    nestedCall produced rfl
  rw [IndexRun.storeCalls_of_passed nestedRun.sql nestedRun.withheld reachable passed,
    nestedRun.toRun.edges_wholeCalls, List.count_eq_zero_of_not_mem unhanded] at once
  exact absurd (List.count_pos_iff.mpr produced) (by omega)

/-- The run, past the wait for its writer. -/
theorem persists_nestedRun : ∃ state : WorkQueue.State WriteItem StoreCall,
    state.producer = .passed ∧
      Persists (nestedRun.toRun.storeCalls nestedRun.sql nestedRun.withheld
          (state.performed.map Prod.fst))
        (nestedRun.toRun.producedEdges nestedRun.sql nestedRun.withheld
          nestedRun.toRun.javacEdges) := by
  obtain ⟨state, reachable, passed⟩ :=
    @exists_passed nestedRun.input.extraction.edges (by decide +kernel)
  exact ⟨state, passed, persists_storeCalls nestedRun merges_nestedRun reachable passed⟩

end Sample

end GraphIngest.Pipeline
