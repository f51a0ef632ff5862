import GraphIngest.Analysis.PassChunks
import Mathlib.Data.List.Flatten

/-! # What a summary pass leaves

A function stands in one chunk of one file. What the files bring is therefore stored under
different functions, and the order in which they come back does not show; a function that got a
summary is not asked for again, the others are.
-/

namespace GraphIngest.Analysis

open Foundation Graph

section Reports

namespace PassReport

instance : Add PassReport where
  add first second :=
    { filesSeen := first.filesSeen + second.filesSeen
      filesSkippedFresh := first.filesSkippedFresh + second.filesSkippedFresh
      functionsSummarized := first.functionsSummarized + second.functionsSummarized
      functionsSkippedFresh := first.functionsSkippedFresh + second.functionsSkippedFresh
      callsMade := first.callsMade + second.callsMade
      rereads := first.rereads + second.rereads
      chunksRejected := first.chunksRejected + second.chunksRejected
      throttledCalls := first.throttledCalls + second.throttledCalls
      unknownCallees := first.unknownCallees + second.unknownCallees
      claimedCallees := first.claimedCallees + second.claimedCallees
      inputTokens := first.inputTokens + second.inputTokens
      outputTokens := first.outputTokens + second.outputTokens
      cacheReadTokens := first.cacheReadTokens + second.cacheReadTokens
      cacheWriteTokens := first.cacheWriteTokens + second.cacheWriteTokens
      errors := first.errors ++ second.errors }

theorem add_assoc (first second third : PassReport) :
    first + second + third = first + (second + third) := by
  refine PassReport.ext ?_ ?_ ?_ ?_ ?_ ?_ ?_ ?_ ?_ ?_ ?_ ?_ ?_ ?_ (List.append_assoc _ _ _)
  all_goals exact Nat.add_assoc _ _ _

/-- A report without the errors. -/
def counted (report : PassReport) : PassReport := { report with errors := [] }

theorem counted_add (first second : PassReport) :
    (first + second).counted = first.counted + second.counted := rfl

/-- The counts of two files can change places. -/
theorem counted_right_comm (first second third : PassReport) :
    (first + second + third).counted = (first + third + second).counted := by
  refine PassReport.ext ?_ ?_ ?_ ?_ ?_ ?_ ?_ ?_ ?_ ?_ ?_ ?_ ?_ ?_ rfl
  all_goals exact Nat.add_right_comm _ _ _

/-- What one call adds. -/
def ofCall (res : LLMResult) : PassReport := ({} : PassReport).addCall res

/-- A call adds the report of its result. -/
theorem addCall_eq (report : PassReport) (res : LLMResult) :
    report.addCall res = report + ofCall res := by
  refine PassReport.ext ?_ ?_ ?_ ?_ ?_ ?_ ?_ ?_ ?_ ?_ ?_ ?_ ?_ ?_ (List.append_nil _).symm
  all_goals first | rfl | exact congrArg (_ + ·) (Nat.zero_add _).symm

/-- What a report held before is added in front. -/
theorem foldl_addCall (results : List LLMResult) (report more : PassReport) :
    results.foldl addCall (report + more) = report + results.foldl addCall more := by
  induction results generalizing more with
  | nil => rfl
  | cons res rest ih =>
      rw [List.foldl_cons, List.foldl_cons, addCall_eq, add_assoc, ih, ← addCall_eq]

/-- What the outcome of a file adds. -/
def ofOutcome : Except FileError FileOutcome → PassReport
  | .error error => { errors := [error] }
  | .ok out => { ({} : PassReport).addFile out with functionsSummarized := out.rows.length }

/-- What is done with the outcome of a file, where its summaries can be stored. -/
theorem addFile_eq (report : PassReport) (out : FileOutcome) :
    { report.addFile out with
      functionsSummarized := (report.addFile out).functionsSummarized + out.rows.length } =
      report + ofOutcome (.ok out) := by
  have base : report.addFile out = report + ({} : PassReport).addFile out := by
    refine Eq.trans ?_ (foldl_addCall out.results report _)
    refine congrArg (out.results.foldl addCall) ?_
    refine PassReport.ext ?_ ?_ ?_ ?_ ?_ ?_ ?_ ?_ ?_ ?_ ?_ ?_ ?_ ?_ (List.append_nil _).symm
    all_goals first | rfl | exact congrArg (_ + ·) (Nat.zero_add _).symm
  have unchanged : ∀ (results : List LLMResult) (report : PassReport),
      (results.foldl addCall report).functionsSummarized = report.functionsSummarized := by
    intro results
    induction results with
    | nil => exact fun _ => rfl
    | cons res rest ih => exact fun report => (ih _).trans rfl
  rw [base]
  refine PassReport.ext rfl rfl ?_ rfl rfl rfl rfl rfl rfl rfl rfl rfl rfl rfl rfl
  exact congrArg (· + out.rows.length) (congrArg (report.functionsSummarized + ·)
    (unchanged out.results _))

end PassReport

end Reports

section Gathering

variable {context : PassContext}

/-- What is written for a row. -/
structure Scored (context : PassContext) (row : SummaryRow) (entry : SummaryRow × Signals) :
    Prop where
  same : entry.1 = row
  derived : deriveSignals context.pyStr context.sortNumbers row.summary = .ok entry.2

/-- The rows that a job brings. -/
def rowsOf (context : PassContext) (store : GraphStore) (job : Job) : List SummaryRow :=
  match doFile context store job with
  | .ok out => out.rows
  | .error _ => []

/-- Setting summaries leaves the stored graph. -/
theorem store_foldl_setSummary (payload : List (SummaryRow × Signals)) (graph : ScoredGraph) :
    (payload.foldl ScoredGraph.setSummary graph).store = graph.store ∧
      (payload.foldl ScoredGraph.setSummary graph).repo = graph.repo := by
  induction payload generalizing graph with
  | nil => exact ⟨rfl, rfl⟩
  | cons entry rest ih =>
      have kept : (graph.setSummary entry).store = graph.store ∧
          (graph.setSummary entry).repo = graph.repo := by
        unfold ScoredGraph.setSummary
        split <;> exact ⟨rfl, rfl⟩
      obtain ⟨store, repo⟩ := ih (graph.setSummary entry)
      exact ⟨store.trans kept.1, repo.trans kept.2⟩

/-- Storing rows that can be scored. -/
theorem writeSummaries_eq_ok {graph : ScoredGraph} {rows : List SummaryRow}
    {out : ScoredGraph × Nat} :
    graph.writeSummaries context.pyStr context.sortNumbers rows = .ok out ↔
      ∃ payload, List.Forall₂ (Scored context) rows payload ∧
        out = (payload.foldl ScoredGraph.setSummary graph, rows.length) := by
  rw [ScoredGraph.writeSummaries, map_eq_ok]
  constructor
  · intro written
    obtain ⟨payload, made, rfl⟩ := written
    have each := forall₂_of_mapM made
    refine ⟨payload, each.imp fun row entry derived => ?_, by rw [each.length_eq]⟩
    obtain ⟨signals, found, rfl⟩ := map_eq_ok.mp derived
    exact ⟨rfl, found⟩
  · intro written
    obtain ⟨payload, each, rfl⟩ := written
    refine ⟨payload, mapM_of_forall₂ (each.imp fun row entry scored => ?_), by
      rw [each.length_eq]⟩
    obtain ⟨rfl, derived⟩ := scored
    exact map_eq_ok.mpr ⟨entry.2, derived, rfl⟩

/-- What a worker hands back is stored, also where that is nothing. -/
theorem settle_of_written {graph : ScoredGraph} (report : PassReport) {out : FileOutcome}
    {result : ScoredGraph × Nat}
    (written : graph.writeSummaries context.pyStr context.sortNumbers out.rows = .ok result) :
    settle context graph report (.ok out) = (result.1, .ok { report.addFile out with
      functionsSummarized := (report.addFile out).functionsSummarized + result.2 }) := by
  unfold settle
  dsimp only
  cases empty : out.rows with
  | nil =>
      rw [empty] at written
      cases written
      rfl
  | cons row rest =>
      rw [← empty, written, empty]
      rfl

theorem settle_of_failed {graph : ScoredGraph} (report : PassReport) {out : FileOutcome}
    {fault : Fault}
    (failed : graph.writeSummaries context.pyStr context.sortNumbers out.rows = .error fault) :
    settle context graph report (.ok out) = (graph, .error fault) := by
  unfold settle
  dsimp only
  cases empty : out.rows with
  | nil =>
      rw [empty] at failed
      cases failed
  | cons row rest =>
      rw [← empty, failed, empty]
      rfl

/-- One file that comes back to a pass that goes on. -/
theorem gather_ok {graph : ScoredGraph} {report : PassReport} {job : Job} {after : ScoredGraph}
    {later : PassReport} :
    gather context (graph, .ok report) job = (after, .ok later) ↔
      ∃ payload, List.Forall₂ (Scored context) (rowsOf context graph.store job) payload ∧
        after = payload.foldl ScoredGraph.setSummary graph ∧
          later = report + .ofOutcome (doFile context graph.store job) := by
  unfold gather rowsOf
  dsimp only
  cases done : doFile context graph.store job with
  | error error =>
      constructor
      · intro settled
        cases settled
        exact ⟨[], .nil, rfl, rfl⟩
      · intro settled
        obtain ⟨payload, each, rfl, rfl⟩ := settled
        cases each
        rfl
  | ok out =>
      cases written : graph.writeSummaries context.pyStr context.sortNumbers out.rows with
      | error fault =>
          rw [settle_of_failed report written]
          refine iff_of_false (fun settled => by cases settled) fun settled => ?_
          obtain ⟨payload, each, _⟩ := settled
          rw [writeSummaries_eq_ok.mpr ⟨payload, each, rfl⟩] at written
          cases written
      | ok result =>
          obtain ⟨payload, each, rfl⟩ := writeSummaries_eq_ok.mp written
          rw [settle_of_written report written, PassReport.addFile_eq]
          constructor
          · intro settled
            cases settled
            exact ⟨payload, each, rfl, rfl⟩
          · intro settled
            obtain ⟨others, again, rfl, rfl⟩ := settled
            have same : graph.writeSummaries context.pyStr context.sortNumbers out.rows =
                .ok (others.foldl ScoredGraph.setSummary graph, out.rows.length) :=
              writeSummaries_eq_ok.mpr ⟨others, again, rfl⟩
            rw [written] at same
            exact congrArg (fun graph => (graph, _)) (Prod.mk.inj (Except.ok.inj same)).1

/-- What is there behind files that came back to a pass that went on. -/
structure Gathered (context : PassContext) (graph : ScoredGraph) (report : PassReport)
    (order : List Job) (after : ScoredGraph) (later : PassReport) : Prop where
  stored : ∃ payload,
    List.Forall₂ (Scored context) (order.flatMap (rowsOf context graph.store)) payload ∧
      after = payload.foldl ScoredGraph.setSummary graph
  report : later = order.foldl (fun report job =>
    report + .ofOutcome (doFile context graph.store job)) report

/-- Behind a fault nothing is gathered. -/
theorem foldl_gather_error (order : List Job) (graph : ScoredGraph) (fault : Fault) :
    order.foldl (gather context) (graph, .error fault) = (graph, .error fault) := by
  induction order with
  | nil => rfl
  | cons job rest ih => exact ih

/-- A pass that goes on to its end has stored the rows of all files. -/
theorem foldl_gather_ok {order : List Job} {graph : ScoredGraph} {report : PassReport}
    {after : ScoredGraph} {later : PassReport} :
    order.foldl (gather context) (graph, .ok report) = (after, .ok later) ↔
      Gathered context graph report order after later := by
  induction order generalizing graph report with
  | nil =>
      constructor
      · intro same
        cases same
        exact ⟨⟨[], .nil, rfl⟩, rfl⟩
      · intro gathered
        obtain ⟨⟨payload, each, rfl⟩, rfl⟩ := gathered
        cases each
        rfl
  | cons job rest ih =>
      rw [List.foldl_cons]
      constructor
      · intro ran
        obtain ⟨next, result⟩ : ∃ next, gather context (graph, .ok report) job = next := ⟨_, rfl⟩
        rw [result] at ran
        obtain ⟨graph', outcome⟩ := next
        cases outcome with
        | error fault =>
            rw [foldl_gather_error] at ran
            cases ran
        | ok next =>
            obtain ⟨payload, each, rfl, rfl⟩ := gather_ok.mp result
            obtain ⟨⟨more, others, rfl⟩, rfl⟩ := ih.mp ran
            rw [(store_foldl_setSummary payload graph).1] at others ⊢
            refine ⟨⟨payload ++ more, ?_, (List.foldl_append).symm⟩, rfl⟩
            rw [List.flatMap_cons]
            exact List.rel_append each others
      · intro gathered
        obtain ⟨⟨payload, each, rfl⟩, rfl⟩ := gathered
        rw [List.flatMap_cons] at each
        obtain ⟨own, others, rfl, first, later⟩ :
            ∃ own others, payload = own ++ others ∧
              List.Forall₂ (Scored context) (rowsOf context graph.store job) own ∧
              List.Forall₂ (Scored context) (rest.flatMap (rowsOf context graph.store)) others := by
          have taken := List.forall₂_take (rowsOf context graph.store job).length each
          have dropped := List.forall₂_drop (rowsOf context graph.store job).length each
          rw [List.take_left] at taken
          rw [List.drop_left] at dropped
          exact ⟨_, _, (List.take_append_drop _ payload).symm, taken, dropped⟩
        rw [gather_ok.mpr ⟨own, first, rfl, rfl⟩, ih]
        refine ⟨⟨others, ?_, List.foldl_append⟩, ?_⟩
        · rw [(store_foldl_setSummary own graph).1]
          exact later
        · rw [(store_foldl_setSummary own graph).1]
          rfl

/-- A file that fails leaves the graph. -/
theorem gather_error {graph after : ScoredGraph} {report : PassReport} {job : Job} {fault : Fault}
    (failed : gather context (graph, .ok report) job = (after, .error fault)) : after = graph := by
  unfold gather at failed
  dsimp only at failed
  cases done : doFile context graph.store job with
  | error error =>
      rw [done] at failed
      cases failed
  | ok out =>
      rw [done] at failed
      cases written : graph.writeSummaries context.pyStr context.sortNumbers out.rows with
      | error other =>
          rw [settle_of_failed report written] at failed
          cases failed
          rfl
      | ok result =>
          rw [settle_of_written report written] at failed
          cases failed

/-- A pass that is stopped has stored the rows of the files in front. -/
theorem exists_gathered (order : List Job) (graph : ScoredGraph) (report : PassReport) :
    ∃ done later, done <+: order ∧
      Gathered context graph report done
        (order.foldl (gather context) (graph, .ok report)).1 later ∧
      ((order.foldl (gather context) (graph, .ok report)).2 = .ok later ∧ done = order ∨
        ∃ fault, (order.foldl (gather context) (graph, .ok report)).2 = .error fault) := by
  induction order generalizing graph report with
  | nil => exact ⟨[], report, List.prefix_rfl, ⟨⟨[], .nil, rfl⟩, rfl⟩, .inl ⟨rfl, rfl⟩⟩
  | cons job rest ih =>
      obtain ⟨next, result⟩ : ∃ next, gather context (graph, .ok report) job = next := ⟨_, rfl⟩
      rw [List.foldl_cons, result]
      obtain ⟨graph', outcome⟩ := next
      cases outcome with
      | error fault =>
          rw [foldl_gather_error, gather_error result]
          exact ⟨[], report, List.nil_prefix, ⟨⟨[], .nil, rfl⟩, rfl⟩, .inr ⟨fault, rfl⟩⟩
      | ok next =>
          obtain ⟨done, later, front, gathered, outcome⟩ := ih graph' next
          refine ⟨job :: done, later, List.cons_prefix_cons.mpr ⟨rfl, front⟩, ?_,
            outcome.imp_left fun both => ⟨both.1, congrArg (job :: ·) both.2⟩⟩
          refine foldl_gather_ok.mp ?_
          rw [List.foldl_cons, result, foldl_gather_ok.mpr gathered]

end Gathering

section Storing

/-- What a summary leaves of what is read of its function. -/
def summarized (entry : SummaryRow × Signals) (reading : Reading) : Reading :=
  { reading with
    sigEntry := entry.2.entry
    summaryJson := some entry.1.summary.dumps
    summaryHash := some entry.1.bodyHash }

/-- A summary of a node that is there changes the reading of this node alone. -/
theorem setSummary_of_held {graph : ScoredGraph} {entry : SummaryRow × Signals}
    (held : (graph.store.nodes.get? entry.1.id).isSome) : graph.setSummary entry =
      { graph with
        reading := fun id =>
          if id = entry.1.id then summarized entry (graph.reading id) else graph.reading id
        signals := fun id => if id = entry.1.id then some entry.2 else graph.signals id } := by
  rw [ScoredGraph.setSummary, if_pos held]
  refine congrArg (fun reading => ({ graph with
    reading := reading
    signals := fun id => if id = entry.1.id then some entry.2 else graph.signals id } :
      ScoredGraph)) (funext fun id => ?_)
  by_cases same : id = entry.1.id
  · simp only [if_pos same, ScoredGraph.setSignals, summarized]
  · simp only [if_neg same, ScoredGraph.setSignals]

/-- Summaries of different functions are stored in any order. -/
theorem setSummary_comm (graph : ScoredGraph) {first second : SummaryRow × Signals}
    (other : first.1.id ≠ second.1.id) :
    (graph.setSummary first).setSummary second = (graph.setSummary second).setSummary first := by
  have kept : ∀ entry : SummaryRow × Signals, (graph.setSummary entry).store = graph.store :=
    fun entry => (store_foldl_setSummary [entry] graph).1
  have one' := congrArg (fun store : GraphStore => (store.nodes.get? first.1.id).isSome)
    (kept second)
  have two' := congrArg (fun store : GraphStore => (store.nodes.get? second.1.id).isSome)
    (kept first)
  by_cases one : (graph.store.nodes.get? first.1.id).isSome
  · by_cases two : (graph.store.nodes.get? second.1.id).isSome
    · rw [setSummary_of_held (two'.trans two), setSummary_of_held (one'.trans one),
        setSummary_of_held one, setSummary_of_held two]
      have readings : (fun id => if id = second.1.id then
          summarized second (if id = first.1.id then summarized first (graph.reading id)
            else graph.reading id)
          else if id = first.1.id then summarized first (graph.reading id) else graph.reading id) =
          fun id => if id = first.1.id then
            summarized first (if id = second.1.id then summarized second (graph.reading id)
              else graph.reading id)
            else if id = second.1.id then summarized second (graph.reading id)
              else graph.reading id := by
        funext id
        by_cases same : id = first.1.id
        · rw [if_pos same, if_neg (same ▸ other), if_pos same, if_neg (same ▸ other)]
        · rw [if_neg same, if_neg same]
      have signals : (fun id => if id = second.1.id then some second.2
          else if id = first.1.id then some first.2 else graph.signals id) =
          fun id => if id = first.1.id then some first.2
            else if id = second.1.id then some second.2 else graph.signals id := by
        funext id
        by_cases same : id = first.1.id
        · rw [if_pos same, if_neg (same ▸ other), if_pos same]
        · rw [if_neg same, if_neg same]
      dsimp only
      rw [readings, signals]
    · have left : (graph.setSummary first).setSummary second = graph.setSummary first :=
        if_neg fun present => two (two'.symm.trans present)
      exact left.trans (congrArg (ScoredGraph.setSummary · first) (if_neg two).symm)
  · have right : (graph.setSummary second).setSummary first = graph.setSummary second :=
      if_neg fun present => one (one'.symm.trans present)
    exact (congrArg (ScoredGraph.setSummary · second) (if_neg one)).trans right.symm

/-- What stands under an id behind some summaries of different functions. -/
theorem reading_foldl_setSummary {payload : List (SummaryRow × Signals)}
    (distinct : (payload.map fun entry => entry.1.id).Nodup) {graph : ScoredGraph}
    (held : ∀ entry ∈ payload, (graph.store.nodes.get? entry.1.id).isSome) (id : NodeId) :
    (∀ entry ∈ payload, entry.1.id = id →
      (payload.foldl ScoredGraph.setSummary graph).reading id =
          summarized entry (graph.reading id) ∧
        (payload.foldl ScoredGraph.setSummary graph).signals id = some entry.2) ∧
    (id ∉ (payload.map fun entry => entry.1.id) →
      (payload.foldl ScoredGraph.setSummary graph).reading id = graph.reading id ∧
        (payload.foldl ScoredGraph.setSummary graph).signals id = graph.signals id) := by
  induction payload generalizing graph with
  | nil => exact ⟨fun _ listed => (List.not_mem_nil listed).elim, fun _ => ⟨rfl, rfl⟩⟩
  | cons first rest ih =>
      obtain ⟨fresh, others⟩ := List.nodup_cons.mp distinct
      obtain ⟨own, later⟩ := List.forall_mem_cons.mp held
      have kept := (store_foldl_setSummary [first] graph).1
      obtain ⟨written, alone⟩ := @ih others (graph.setSummary first) fun entry listed =>
        (congrArg (fun store : GraphStore => (store.nodes.get? entry.1.id).isSome) kept).trans
          (later entry listed)
      have here := setSummary_of_held own
      refine ⟨fun entry listed same => ?_, fun absent => ?_⟩
      · rcases List.mem_cons.mp listed with rfl | listed
        · obtain ⟨reading, signals⟩ := alone (same ▸ fresh)
          rw [List.foldl_cons, reading, signals, here]
          exact ⟨if_pos same.symm, if_pos same.symm⟩
        · have away : id ≠ first.1.id := by
            intro equal
            exact fresh (List.mem_map.mpr ⟨entry, listed, same.trans equal⟩)
          obtain ⟨reading, signals⟩ := written entry listed same
          rw [List.foldl_cons, reading, signals, here]
          exact ⟨congrArg (summarized entry) (if_neg away), rfl⟩
      · rw [List.map_cons, List.mem_cons, not_or] at absent
        obtain ⟨reading, signals⟩ := alone absent.2
        rw [List.foldl_cons, reading, signals, here]
        exact ⟨if_neg absent.1, if_neg absent.1⟩

end Storing

section Files

variable {graph : ScoredGraph} {langs : List Lang}

/-- The rows of the files are those of the query, in some order. -/
theorem functions_perm : ((graph.filesWithFunctions langs).flatMap FileRow.functions).Perm
    ((graph.functions.filterMap (graph.queried langs)).map Prod.snd) := by
  have regrouped := (@flatMap_grouped_perm _ _ _ Prod.fst
    (graph.functions.filterMap (graph.queried langs))).map Prod.snd
  refine ((List.perm_insertionSort _ _).flatMap_right _).trans (List.Perm.trans ?_ regrouped)
  rw [List.flatMap_map, List.map_flatMap]
  refine List.Perm.flatMap_left _ fun entry _ => ?_
  exact List.perm_insertionSort _ _

theorem id_queried {id : NodeId} {entry : (Str × Lang) × FunctionRow}
    (found : graph.queried langs id = some entry) : entry.2.id = id := by
  obtain ⟨node, _, _, rfl⟩ := ScoredGraph.queried_eq_some.mp found
  rfl

/-- A function stands in one file. -/
theorem distinct_functions :
    (((graph.filesWithFunctions langs).flatMap FileRow.functions).map FunctionRow.id).Nodup := by
  rw [(functions_perm.map _).nodup_iff, List.map_map, List.map_filterMap]
  refine List.Nodup.filterMap ?_ (graph.store.nodes.keys_nodup.sublist List.filter_sublist)
  intro first second id one two
  obtain ⟨entry, found, rfl⟩ := Option.map_eq_some_iff.mp (Option.mem_def.mp one)
  obtain ⟨other, found', same⟩ := Option.map_eq_some_iff.mp (Option.mem_def.mp two)
  exact (id_queried found).symm.trans (same.symm.trans (id_queried found'))

/-- A row of a file is that of a function of the graph. -/
theorem row_of_mem {row : FunctionRow}
    (listed : row ∈ (graph.filesWithFunctions langs).flatMap FileRow.functions) :
    ∃ node, graph.store.nodes.get? row.id = some node ∧ graph.isOwn row.id = true ∧
      graph.taken langs row.id node = true ∧ row = graph.functionRow row.id node := by
  obtain ⟨entry, inside, rfl⟩ := List.mem_map.mp (functions_perm.mem_iff.mp listed)
  obtain ⟨id, own, found⟩ := List.mem_filterMap.mp inside
  obtain ⟨node, held, taken, rfl⟩ := ScoredGraph.queried_eq_some.mp found
  exact ⟨node, held, CodeGraph.mem_functions.mp own, taken, rfl⟩

/-- The functions of the jobs are those that need a summary. -/
theorem flatMap_jobsOf (files : List FileRow) : (jobsOf files).flatMap Job.pending =
    files.flatMap fun entry => needsSummary entry.functions := by
  unfold jobsOf
  induction files with
  | nil => rfl
  | cons entry rest ih =>
      rw [List.map_cons, List.flatMap_cons, ← ih]
      by_cases empty : needsSummary entry.functions = []
      · rw [List.filter_cons_of_neg (by simp only [empty, List.isEmpty_nil, Bool.not_true,
          Bool.false_eq_true, not_false_iff]), empty, List.nil_append]
      · rw [List.filter_cons_of_pos (by simpa only [Bool.not_eq_true', List.isEmpty_eq_false_iff]
          using empty), List.flatMap_cons]

/-- The files of a pass with a limit are among all files. -/
theorem passFiles_sublist (limit : Option Nat) :
    (passFiles graph langs limit).Sublist (graph.filesWithFunctions langs) := by
  unfold passFiles
  split
  · exact List.take_sublist _ _
  · exact .refl _

variable {limit : Option Nat} {order : List Job}

/-- The functions that need a summary are among those of the files, in order. -/
theorem pending_files_sublist :
    ((passFiles graph langs limit).flatMap fun entry => needsSummary entry.functions).Sublist
      ((graph.filesWithFunctions langs).flatMap FileRow.functions) :=
  (List.Sublist.flatMap_right _ fun _ _ => List.filter_sublist).trans
    ((passFiles_sublist limit).flatMap _)

/-- Some files of a pass, in any order, ask for different functions, all of them in need. -/
theorem distinct_order (among : order.Subperm (jobsOf (passFiles graph langs limit))) :
    ((order.flatMap Job.pending).map FunctionRow.id).Nodup := by
  obtain ⟨some, perm, inside⟩ := among
  rw [← ((perm.flatMap_right Job.pending).map FunctionRow.id).nodup_iff]
  refine List.Nodup.sublist ((inside.flatMap Job.pending).map _) ?_
  rw [flatMap_jobsOf]
  exact distinct_functions.sublist (pending_files_sublist.map _)

/-- What is pending in an order is a pending function of the graph, with the row read of it. -/
theorem pending_of_order (among : order.Subperm (jobsOf (passFiles graph langs limit)))
    {row : FunctionRow} (listed : row ∈ order.flatMap Job.pending) :
    ∃ node, graph.store.nodes.get? row.id = some node ∧ row = graph.functionRow row.id node ∧
      graph.Pending langs row.id := by
  obtain ⟨some, perm, inside⟩ := among
  have asked := (inside.flatMap Job.pending).subset
    ((perm.flatMap_right Job.pending).mem_iff.mpr listed)
  rw [flatMap_jobsOf] at asked
  obtain ⟨node, held, own, taken, same⟩ := row_of_mem (pending_files_sublist.subset asked)
  obtain ⟨entry, _, member⟩ := List.mem_flatMap.mp asked
  have stale := (List.mem_filter.mp member).2
  exact ⟨node, held, same, own, node, held, taken, same ▸ stale⟩

end Files

section Leaving

variable {context : PassContext} {graph : ScoredGraph} {langs : List Lang} {limit : Option Nat}
  {order : List Job}

/-- The rows of a file are those of some functions of its job. -/
theorem handed_rowsOf {job : Job} (distinct : (job.pending.map FunctionRow.id).Nodup) :
    ((rowsOf context graph.store job).map SummaryRow.id).Nodup ∧
      ∀ row ∈ rowsOf context graph.store job, StoredOf job.pending row := by
  unfold rowsOf
  cases done : doFile context graph.store job with
  | error error => exact ⟨List.nodup_nil, fun _ listed => (List.not_mem_nil listed).elim⟩
  | ok out =>
      have handed := handed_doFile distinct done
      exact ⟨handed.distinct, handed.stored⟩

/-- Over distinct functions, the rows stored are distinct and each belongs to one of them. -/
theorem rows_sublist {jobs : List Job}
    (distinct : ((jobs.flatMap Job.pending).map FunctionRow.id).Nodup) :
    ((jobs.flatMap (rowsOf context graph.store)).map SummaryRow.id).Nodup ∧
      ∀ row ∈ jobs.flatMap (rowsOf context graph.store),
        StoredOf (jobs.flatMap Job.pending) row := by
  induction jobs with
  | nil => exact ⟨List.nodup_nil, fun _ listed => (List.not_mem_nil listed).elim⟩
  | cons job rest ih =>
      rw [List.flatMap_cons, List.map_append, List.nodup_append] at distinct
      obtain ⟨own, others, apart⟩ := distinct
      obtain ⟨first, here⟩ := @handed_rowsOf context graph job own
      obtain ⟨later, there⟩ := ih others
      rw [List.flatMap_cons, List.flatMap_cons, List.map_append, List.nodup_append]
      refine ⟨⟨first, later, fun id one id' two => ?_⟩, fun row listed => ?_⟩
      · obtain ⟨row, listed, rfl⟩ := List.mem_map.mp one
        obtain ⟨row', listed', rfl⟩ := List.mem_map.mp two
        obtain ⟨asked, inside, same, _⟩ := (here row listed).known
        obtain ⟨asked', inside', same', _⟩ := (there row' listed').known
        rw [same, same']
        exact apart _ (List.mem_map_of_mem inside) _ (List.mem_map_of_mem inside')
      · rcases List.mem_append.mp listed with one | two
        · obtain ⟨asked, inside, same⟩ := (here row one).known
          exact ⟨asked, List.mem_append_left _ inside, same⟩
        · obtain ⟨asked, inside, same⟩ := (there row two).known
          exact ⟨asked, List.mem_append_right _ inside, same⟩

variable {after : ScoredGraph} {report : PassReport}

/-- What a pass leaves: under every function that got a summary, that summary with the hash of the
present body, everything else as it was, and still to be asked for what got none. -/
structure Passed (context : PassContext) (graph : ScoredGraph) (langs : List Lang)
    (order : List Job) (after : ScoredGraph) : Prop where
  written : ∀ job ∈ order, ∀ row ∈ rowsOf context graph.store job,
    (after.reading row.id).summaryJson = some row.summary.dumps ∧
      (after.reading row.id).summaryHash = (graph.reading row.id).bodyHash
  others : ∀ id, (∀ job ∈ order, id ∉ (rowsOf context graph.store job).map SummaryRow.id) →
    after.reading id = graph.reading id ∧ after.signals id = graph.signals id
  pending : ∀ id, id ∈ after.pending langs ↔ id ∈ graph.pending langs ∧
    ∀ job ∈ order, id ∉ (rowsOf context graph.store job).map SummaryRow.id

theorem rows_of_scored {rows : List SummaryRow} {payload : List (SummaryRow × Signals)}
    (each : List.Forall₂ (Scored context) rows payload) : payload.map Prod.fst = rows ∧
      ∀ entry ∈ payload, entry.2.schemaVersion = schemaVersion := by
  induction each with
  | nil => exact ⟨rfl, fun _ listed => (List.not_mem_nil listed).elim⟩
  | cons scored _ ih =>
      rw [List.map_cons, ih.1, scored.same]
      exact ⟨rfl, List.forall_mem_cons.mpr ⟨schemaVersion_of_deriveSignals scored.derived, ih.2⟩⟩

/-- The hash of a row is that of the present body. -/
theorem bodyHash_of_stored (among : order.Subperm (jobsOf (passFiles graph langs limit)))
    {row : SummaryRow} (stored : StoredOf (order.flatMap Job.pending) row) :
    (graph.store.nodes.get? row.id).isSome ∧
      some row.bodyHash = (graph.reading row.id).bodyHash := by
  obtain ⟨asked, listed, same, hash⟩ := stored.known
  obtain ⟨node, held, made, _, _, _, taken, _⟩ := pending_of_order among listed
  unfold ScoredGraph.taken at taken
  rw [Bool.and_eq_true, Bool.and_eq_true] at taken
  obtain ⟨body, some⟩ := Option.isSome_iff_exists.mp taken.1.2
  have own : asked.bodyHash = (graph.reading asked.id).bodyHash :=
    (congrArg FunctionRow.bodyHash made).trans rfl
  rw [hash, own, same, held, some]
  exact ⟨rfl, rfl⟩

/-- What has gathered an order has passed it. -/
theorem passed_of_gathered (among : order.Subperm (jobsOf (passFiles graph langs limit)))
    {base : PassReport} (gathered : Gathered context graph base order after report) :
    Passed context graph langs order after := by
  obtain ⟨distinct, stored⟩ := @rows_sublist context graph order (distinct_order among)
  obtain ⟨payload, each, rfl⟩ := gathered.stored
  obtain ⟨rows, versions⟩ := rows_of_scored each
  have ids : (payload.map fun entry => entry.1.id) =
      (order.flatMap (rowsOf context graph.store)).map SummaryRow.id := by
    rw [← rows, List.map_map]
    rfl
  have known : ∀ entry ∈ payload, StoredOf (order.flatMap Job.pending) entry.1 := by
    intro entry listed
    exact stored entry.1 (rows ▸ List.mem_map_of_mem listed)
  have placed := @reading_foldl_setSummary payload (ids ▸ distinct) graph fun entry listed =>
    (bodyHash_of_stored among (known entry listed)).1
  have member : ∀ id, id ∈ (payload.map fun entry => entry.1.id) ↔
      ¬ ∀ job ∈ order, id ∉ (rowsOf context graph.store job).map SummaryRow.id := by
    intro id
    rw [ids, List.map_flatMap, List.mem_flatMap]
    simp only [not_forall, not_not, exists_prop]
  refine ⟨fun job inside row listed => ?_, fun id absent => ?_, fun id => ?_⟩
  · have present : row ∈ payload.map Prod.fst := rows ▸ List.mem_flatMap.mpr ⟨job, inside, listed⟩
    obtain ⟨entry, inPayload, rfl⟩ := List.mem_map.mp present
    obtain ⟨reading, _⟩ := (placed entry.1.id).1 entry inPayload rfl
    rw [reading]
    exact ⟨rfl, (bodyHash_of_stored among (known entry inPayload)).2⟩
  · exact (placed id).2 fun listed => (member id).mp listed absent
  · obtain ⟨store, repo⟩ := store_foldl_setSummary payload graph
    rw [ScoredGraph.mem_pending, ScoredGraph.mem_pending]
    by_cases listed : id ∈ payload.map fun entry => entry.1.id
    · refine iff_of_false (fun pending => ?_) fun both => (member id).mp listed both.2
      obtain ⟨_, node, _, _, stale⟩ := pending
      obtain ⟨entry, inPayload, rfl⟩ := List.mem_map.mp listed
      obtain ⟨reading, signals⟩ := (placed entry.1.id).1 entry inPayload rfl
      obtain ⟨_, changed | older⟩ := ScoredGraph.stale_functionRow.mp stale
      · rw [reading] at changed
        exact changed (bodyHash_of_stored among (known entry inPayload)).2
      · rw [signals, Option.map_some, Option.getD_some, versions entry inPayload] at older
        exact lt_irrefl _ older
    · rw [and_iff_left (not_not.mp ((member id).not.mp listed))]
      obtain ⟨reading, signals⟩ := (placed id).2 listed
      unfold ScoredGraph.Pending
      simp only [ScoredGraph.stale_functionRow, CodeGraph.isOwn, ScoredGraph.taken, store, repo,
        reading, signals]

/-- **A pass fills gaps and nothing else.** Whatever files of a pass come back, in whatever order,
and also where it is stopped by a summary that cannot be scored: the summaries of the files in
front are stored with the hashes of the present bodies, all else stays, and the next pass asks for
exactly the functions that are left. -/
theorem runFilePass_fills (context : PassContext)
    (among : order.Subperm (jobsOf (passFiles graph langs limit))) :
    ∃ done, done <+: order ∧
      Passed context graph langs done
        (runFilePass context graph (passFiles graph langs limit) order).1 ∧
      ((∀ fault, (runFilePass context graph (passFiles graph langs limit) order).2 ≠ .error fault) →
        done = order) := by
  obtain ⟨done, later, front, gathered, outcome⟩ := @exists_gathered context order graph
    ((passFiles graph langs limit).foldl PassReport.count {})
  refine ⟨done, front, passed_of_gathered (front.sublist.subperm.trans among) gathered, ?_⟩
  intro sound
  obtain ⟨_, whole⟩ | ⟨fault, failed⟩ := outcome
  · exact whole
  · exact (sound fault failed).elim

/-- Two functions without a summary, in a file each. -/
def passGraph : ScoredGraph where
  repo := "demo".toList
  store := sampleStore [
    { sampleFunction sampleId with file := "F.java".toList },
    { sampleFunction calleeId with file := "G.java".toList }] []
  taint := fun _ => {}
  reading := fun _ => { bodyHash := some "h".toList }
  signals := fun _ => none

/-- A reply with one summary. -/
def passReply (id : Str) : List (Str × Json) :=
  [("summaries".toList, .array [.object [("id".toList, .string id),
    ("source".toList, .object []), ("guards".toList, .object []), ("db".toList, .object []),
    ("contracts".toList, .object [])]])]

/-- A client that is throttled at the first attempt at one file and gets a reply at the second;
for the other file it gets one at once. -/
def passContext : PassContext where
  readSource := fun _ => some []
  complete := fun file _ _ attempt =>
    if file = "F.java".toList then
      if attempt = 1 then { ok := false, parsed := none, inputTokens := 10, throttled := true }
      else
        { ok := true, parsed := passReply "f".toList, inputTokens := 10, outputTokens := 5 }
    else { ok := true, parsed := passReply "g".toList, inputTokens := 10, outputTokens := 5 }
  pyStr := fun _ => []
  sortNumbers := id
  perCall := 20

/-- The files of the sample as they come back, the second one first. -/
def passJobs : List Job := (jobsOf (passFiles passGraph [] none)).reverse

theorem passJobs_perm : passJobs.Perm (jobsOf (passFiles passGraph [] none)) :=
  List.reverse_perm _

/-- Both files come back, and both functions have a summary after. -/
theorem runFilePass_fills_passGraph :
    passJobs.map (fun job => job.entry.file) = ["G.java".toList, "F.java".toList] ∧
    Passed passContext passGraph [] passJobs
      (runFilePass passContext passGraph (passFiles passGraph [] none) passJobs).1 := by
  obtain ⟨done, _, passed, whole⟩ := runFilePass_fills passContext passJobs_perm.subperm
  refine ⟨rfl, ?_⟩
  rw [whole fun _ failed => nomatch failed] at passed
  exact passed

end Leaving

end GraphIngest.Analysis
