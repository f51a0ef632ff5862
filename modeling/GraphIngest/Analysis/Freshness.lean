import GraphIngest.Analysis.Judging
import GraphIngest.Analysis.Legibility
import GraphIngest.Foundation.Sequence

/-! # Summaries of older bodies

The queries that choose what is summarised, and whose neighbourhood is judged, compare the body
that a summary was made of with the present one. What stands beside the chosen function, in a path
or in a neighbourhood, has its summary loaded by its id alone. When a summary of an older body gets
before a judge is read off the store.
-/

namespace GraphIngest.Analysis

open Foundation Graph

section Batches

/-- What a path is grouped by: its sink, or the function where a leak begins. -/
def JudgedPath.anchor : JudgedPath → Str
  | sink row => row.sinkFqn
  | leak row => row.acquireFqn

/-- `batch_paths`. -/
def batchPaths (rows : List JudgedPath) (perBatch : ℕ+) : List (List JudgedPath) :=
  (grouped JudgedPath.anchor rows).values.flatMap (chunksOf perBatch)

/-- Every path is in a batch, and nothing else is. -/
theorem mem_batchPaths {rows : List JudgedPath} {perBatch : ℕ+} {row : JudgedPath} :
    (∃ batch ∈ batchPaths rows perBatch, row ∈ batch) ↔ row ∈ rows := by
  unfold batchPaths
  simp only [List.mem_flatMap]
  constructor
  · intro held
    obtain ⟨batch, ⟨group, listed, piece⟩, member⟩ := held
    obtain ⟨⟨key, _⟩, found, rfl⟩ := List.mem_map.mp listed
    have inside := List.mem_flatten_of_mem piece member
    rw [flatten_chunksOf, (mem_entries_grouped.mp found).1] at inside
    exact (List.mem_filter.mp inside).1
  · intro member
    have inside : row ∈ rows.filter fun other => decide (other.anchor = row.anchor) :=
      List.mem_filter.mpr ⟨member, decide_eq_true rfl⟩
    rw [← flatten_chunksOf perBatch (rows.filter _)] at inside
    obtain ⟨batch, piece, held⟩ := List.mem_flatten.mp inside
    have filled := List.ne_nil_of_mem (List.mem_flatten_of_mem piece held)
    rw [flatten_chunksOf] at filled
    exact ⟨batch, ⟨_, List.mem_map_of_mem (mem_entries_grouped.mpr ⟨rfl, filled⟩), piece⟩, held⟩

end Batches

section Report

/-- What comes back for a batch of paths. -/
abbrev PathOutcome : Type := Except JudgeFault (Outcome (Json × JudgedPath) (List Nat))

structure PassBReport where
  pathsConsidered : Nat := 0
  pathsJudged : Nat := 0
  pathsMissingSummaries : Nat := 0
  callsMade : Nat := 0
  batchesRejected : Nat := 0
  exploitable : Nat := 0
  defectsNotExploitable : Nat := 0
  needsExpansion : Nat := 0
  inputTokens : Nat := 0
  outputTokens : Nat := 0
  findings : List FindingRow := []
  errors : List JudgeFault := []

namespace PassBReport

/-- A verdict with its path, in the report. -/
def note (report : PassBReport) (entry : Json × JudgedPath) : PassBReport :=
  let exploitable := truthOf (entry.1.get? "exploitable")
  { report with
    pathsJudged := report.pathsJudged + 1
    needsExpansion := report.needsExpansion + (truthOf (entry.1.get? "need_source_for")).toNat
    exploitable := report.exploitable + exploitable.toNat
    defectsNotExploitable := report.defectsNotExploitable +
      (truthOf (entry.1.get? "is_defect") && !exploitable).toNat
    findings := report.findings ++
      if carriedForward entry.1 then [pathFinding entry.1 entry.2] else [] }

/-- A batch that came back. -/
def receive (report : PassBReport) : PathOutcome → PassBReport
  | .error fault => { report with errors := report.errors ++ [fault] }
  | .ok out =>
      let seen :=
        { report with
          callsMade := report.callsMade + out.results.length
          pathsMissingSummaries := report.pathsMissingSummaries + out.skipped.length
          inputTokens := report.inputTokens + (out.results.map LLMResult.inputTokens).sum
          outputTokens := report.outputTokens + (out.results.map LLMResult.outputTokens).sum }
      if out.verdicts.isEmpty then { seen with batchesRejected := seen.batchesRejected + 1 }
      else out.verdicts.foldl note seen

end PassBReport

/-- The paths that were skipped in a batch that came back. -/
def skippedIn : PathOutcome → List Nat
  | .error _ => []
  | .ok out => out.skipped

theorem pathsMissingSummaries_note (report : PassBReport) (verdicts : List (Json × JudgedPath)) :
    (verdicts.foldl PassBReport.note report).pathsMissingSummaries =
      report.pathsMissingSummaries := by
  induction verdicts generalizing report with
  | nil => rfl
  | cons entry rest ih => exact ih (report.note entry)

theorem pathsMissingSummaries_receive (report : PassBReport) (outcome : PathOutcome) :
    (report.receive outcome).pathsMissingSummaries =
      report.pathsMissingSummaries + (skippedIn outcome).length := by
  cases outcome with
  | error fault => rfl
  | ok out =>
      unfold PassBReport.receive
      dsimp only
      split
      case isTrue => rfl
      case isFalse => rw [pathsMissingSummaries_note]; rfl

/-- The report counts what was skipped in the batches that came back. -/
theorem pathsMissingSummaries_foldl (arrived : List PathOutcome) (report : PassBReport) :
    (arrived.foldl PassBReport.receive report).pathsMissingSummaries =
      report.pathsMissingSummaries + (arrived.flatMap skippedIn).length := by
  induction arrived generalizing report with
  | nil => rfl
  | cons outcome rest ih =>
      rw [List.foldl_cons, ih, pathsMissingSummaries_receive, List.flatMap_cons,
        List.length_append, Nat.add_assoc]

end Report

section Judged

variable {pyStr : Json → Str} {known : Dict Str (List Str)} {bodies : NodeId → Str}
  {summaries : Dict NodeId Json} {client : Str → Nat → LLMResult} {batch : List JudgedPath}

/-- A batch comes back exactly when every path of it that has its frames can be put into text. -/
theorem runs_judgeBatch :
    Runs (judgeBatch pyStr known bodies summaries client batch) ↔
      ∀ path ∈ batch, ∀ frames, framesOf summaries path = some frames →
        ∀ frame ∈ frames, FrameShaped frame.summary := by
  have loop : Runs (batch.foldlM (showPath pyStr known bodies summaries batch) {}) ↔
      ∀ path ∈ batch, ∀ frames, framesOf summaries path = some frames →
        ∀ frame ∈ frames, FrameShaped frame.summary := by
    apply runs_foldlM
    intro shown path
    exact runs_map.trans runs_renderPath
  rw [← loop]
  constructor
  · intro came
    obtain ⟨out, judged⟩ := came
    cases run : batch.foldlM (showPath pyStr known bodies summaries batch) {} with
    | error fault =>
        rw [judgeBatch_of_fault run] at judged
        cases judged
    | ok shown => exact runs_ok shown
  · intro runs
    obtain ⟨shown, run⟩ := runs
    obtain ⟨out, judged, _⟩ := @judgeBatch_of_run _ _ _ _ client _ _ run
    exact ⟨out, judged⟩

/-- A batch that comes back has skipped the paths that lack a frame. -/
theorem idxOf_mem_skipped {out : Outcome (Json × JudgedPath) (List Nat)} {row : JudgedPath}
    (judged : judgeBatch pyStr known bodies summaries client batch = .ok out)
    (member : row ∈ batch) :
    batch.idxOf row ∈ out.skipped ↔ ¬ complete summaries row = true := by
  rcases @judgeBatch_spec pyStr known bodies summaries client batch with
    ⟨fault, failed⟩ | ⟨other, same, _, skipped⟩
  · rw [failed] at judged
    cases judged
  · obtain rfl := Except.ok.inj (same.symm.trans judged)
    rw [skipped, List.mem_map, Bool.not_eq_true]
    constructor
    · intro listed
      obtain ⟨path, held, place⟩ := listed
      obtain ⟨inside, lacking⟩ := List.mem_filter.mp held
      rw [← (List.idxOf_inj inside).mp place]
      exact (Bool.not_eq_true' _).mp lacking
    · intro lacking
      exact ⟨row, List.mem_filter.mpr ⟨member, (Bool.not_eq_true' _).mpr lacking⟩, rfl⟩

end Judged

namespace CodeGraph

section Passes

variable (loads : Str → Option Json) (graph : CodeGraph)

/-- The summaries of the functions on some paths. -/
def pathSummaries (rows : List JudgedPath) : Dict NodeId Json :=
  graph.loadSummaries loads (rows.flatMap JudgedPath.ids).dedup

/-- The summaries of the functions that are judged with their neighbourhoods, and of those they
call. -/
def neighborSummaries (hops : Nat) : Dict NodeId Json :=
  let work := graph.judgedFunctions hops
  graph.loadSummaries loads
    (work.map Target.id ++ work.flatMap fun target => target.callees.map Callee.id).dedup

variable (pyStr : Json → Str) (known : Dict Str (List Str)) (bodies : NodeId → Str)
variable (client : Str → Nat → LLMResult)

/-- What comes back for the batches of the path pass. -/
def pathOutcomes (rows : List JudgedPath) (perBatch : ℕ+) : List PathOutcome :=
  (batchPaths rows perBatch).map
    (judgeBatch pyStr known bodies (graph.pathSummaries loads rows) client)

/-- The report of `run_path_pass`, for an order in which the batches come back. -/
def pathReport (rows : List JudgedPath) (arrived : List PathOutcome) : PassBReport :=
  arrived.foldl PassBReport.receive { pathsConsidered := rows.length }

end Passes

section Freshness

variable (loads : Str → Option Json) (graph : CodeGraph)

/-- A function whose summary is of its present body. -/
def Fresh (id : NodeId) : Prop :=
  (graph.reading id).summaryHash.isSome = true ∧
    (graph.reading id).summaryHash = (graph.reading id).bodyHash

/-- A function with a summary of another body. -/
def Stale (id : NodeId) : Prop := (graph.reading id).summaryJson.isSome = true ∧ ¬ graph.Fresh id

/-- A path with a stale frame. -/
def HasStale (row : JudgedPath) : Prop := ∃ id ∈ row.ids, graph.Stale id

/-- A path with frames, all of them with a stored summary that can be read. -/
def Readable (row : JudgedPath) : Prop :=
  row.ids ≠ [] ∧ ∀ id ∈ row.ids, (graph.summary? loads id).isSome = true

/-- A stored summary that can be read and counts as true. -/
def filledSummary? (id : NodeId) : Option Json := (graph.summary? loads id).filter Json.truthy

/-- Only fresh summaries are put before a judge, by either pass, and every path with a stale frame
is skipped by its batch, which the report counts. -/
structure OnlyFreshJudged (loads : Str → Option Json) (graph : CodeGraph) (pyStr : Json → Str)
    (known told : Dict Str (List Str)) (bodies : NodeId → Str) (client : Str → Nat → LLMResult)
    (rows : List JudgedPath) (perBatch : ℕ+) (hops : Nat) : Prop where
  paths : ∀ row ∈ rows, ∀ index text,
    renderPath pyStr known bodies (graph.pathSummaries loads rows) index row = .ok (some text) →
      ∀ id ∈ row.ids, graph.Fresh id
  skipped : ∀ batch ∈ batchPaths rows perBatch, ∀ row ∈ batch, graph.HasStale row →
    ∃ out, judgeBatch pyStr known bodies (graph.pathSummaries loads rows) client batch = .ok out ∧
      batch.idxOf row ∈ out.skipped
  counted : ∀ arrived,
    arrived.Perm (graph.pathOutcomes loads pyStr known bodies client rows perBatch) →
      (pathReport rows arrived).pathsMissingSummaries =
        ((graph.pathOutcomes loads pyStr known bodies client rows perBatch).flatMap
          skippedIn).length
  neighborhoods : ∀ target ∈ graph.judgedFunctions hops, ∀ text,
    renderNeighborhood pyStr told (graph.neighborSummaries loads hops) target = .ok (some text) →
      graph.Fresh target.id ∧
        ∀ entry ∈ calleesShown (graph.neighborSummaries loads hops) target, graph.Fresh entry.1.id

/-- A path whose summaries can all be read has no other summaries than fresh ones. -/
def PathsReadFresh (rows : List JudgedPath) : Prop :=
  ∀ row ∈ rows, graph.Readable loads row → ∀ id ∈ row.ids, graph.Fresh id

/-- The batch of a path with a stale frame has summaries of the shape that frames are made of. -/
def BatchesShaped (rows : List JudgedPath) (perBatch : ℕ+) : Prop :=
  ∀ batch ∈ batchPaths rows perBatch, (∃ row ∈ batch, graph.HasStale row) →
    ∀ row ∈ batch, graph.Readable loads row →
      ∀ id ∈ row.ids, ∀ summary ∈ graph.summary? loads id, FrameShaped summary

/-- A neighbourhood whose summaries have the shape for it has fresh ones beside its function. -/
def CalleesReadFresh (hops : Nat) : Prop :=
  ∀ target ∈ graph.judgedFunctions hops, ∀ own ∈ graph.filledSummary? loads target.id,
    BlockShaped own →
      (∀ callee ∈ target.callees, ∀ summary ∈ graph.filledSummary? loads callee.id,
        BlockShaped summary) →
          ∀ callee ∈ target.callees, (graph.filledSummary? loads callee.id).isSome = true →
            graph.Fresh callee.id

variable {loads graph} {rows : List JudgedPath} {perBatch : ℕ+} {hops : Nat}

theorem get?_pathSummaries {row : JudgedPath} (listed : row ∈ rows) {id : NodeId}
    (member : id ∈ row.ids) :
    (graph.pathSummaries loads rows).get? id = graph.summary? loads id := by
  apply get?_loadSummaries
  exact List.mem_dedup.mpr (List.mem_flatMap.mpr ⟨row, listed, member⟩)

/-- A path has its frames when all their summaries can be read. -/
theorem complete_pathSummaries {row : JudgedPath} (listed : row ∈ rows) :
    complete (graph.pathSummaries loads rows) row = true ↔ graph.Readable loads row := by
  unfold complete Readable
  rw [isSome_framesOf]
  apply and_congr_right
  intro _
  apply forall₂_congr
  intro id member
  rw [get?_pathSummaries listed member]

theorem shaped_pathSummaries {row : JudgedPath} (listed : row ∈ rows) :
    (∀ frames, framesOf (graph.pathSummaries loads rows) row = some frames →
        ∀ frame ∈ frames, FrameShaped frame.summary) ↔
      (graph.Readable loads row →
        ∀ id ∈ row.ids, ∀ summary ∈ graph.summary? loads id, FrameShaped summary) := by
  rw [← complete_pathSummaries listed]
  unfold complete
  cases found : framesOf (graph.pathSummaries loads rows) row with
  | none => exact iff_of_true (fun _ same => by cases same) fun same => by cases same
  | some frames =>
      simp only [Option.some.injEq, forall_eq', Option.isSome_some, forall_const]
      rw [forall_mem_framesOf found]
      apply forall₂_congr
      intro id member
      rw [get?_pathSummaries listed member]

/-- A readable path that has a frame with no fresh summary has a stale frame. -/
theorem hasStale_of_readable {row : JudgedPath} (readable : graph.Readable loads row) {id : NodeId}
    (member : id ∈ row.ids) (older : ¬ graph.Fresh id) : graph.HasStale row := by
  obtain ⟨summary, found⟩ := Option.isSome_iff_exists.mp (readable.2 id member)
  obtain ⟨text, stored, _⟩ := Option.bind_eq_some_iff.mp found
  exact ⟨id, member, Option.isSome_iff_exists.mpr ⟨text, stored⟩, older⟩

theorem summaryIn_neighborSummaries {target : Target} (listed : target ∈ graph.judgedFunctions hops)
    {id : NodeId} (near : id = target.id ∨ ∃ callee ∈ target.callees, callee.id = id) :
    summaryIn (graph.neighborSummaries loads hops) id = graph.filledSummary? loads id := by
  unfold summaryIn filledSummary? neighborSummaries
  rw [get?_loadSummaries]
  rw [List.mem_dedup, List.mem_append]
  cases near with
  | inl same => exact .inl (same ▸ List.mem_map_of_mem listed)
  | inr called =>
      obtain ⟨callee, member, rfl⟩ := called
      exact .inr (List.mem_flatMap.mpr ⟨target, listed, List.mem_map_of_mem member⟩)

/-- The callees that are shown are those with a summary that can be read and counts as true. -/
theorem mem_calleesShown {target : Target} (listed : target ∈ graph.judgedFunctions hops)
    {entry : Callee × Json} :
    entry ∈ calleesShown (graph.neighborSummaries loads hops) target ↔
      entry.1 ∈ target.callees ∧ graph.filledSummary? loads entry.1.id = some entry.2 := by
  unfold calleesShown
  rw [List.mem_filterMap]
  constructor
  · intro shown
    obtain ⟨callee, member, made⟩ := shown
    rw [summaryIn_neighborSummaries listed (.inr ⟨callee, member, rfl⟩)] at made
    obtain ⟨summary, found, rfl⟩ := Option.map_eq_some_iff.mp made
    exact ⟨member, found⟩
  · intro held
    refine ⟨entry.1, held.1, ?_⟩
    rw [summaryIn_neighborSummaries listed (.inr ⟨entry.1, held.1, rfl⟩), held.2]
    rfl

/-- Only a function with a fresh summary is judged with its neighbourhood. -/
theorem fresh_of_mem_judgedFunctions {target : Target}
    (listed : target ∈ graph.judgedFunctions hops) : graph.Fresh target.id := by
  have sorted := (List.mem_filter.mp listed).1
  obtain ⟨id, chosen, rfl⟩ := List.mem_map.mp ((List.mem_insertionSort _).mp sorted)
  have tested := (List.mem_filter.mp chosen).2
  rw [Bool.and_eq_true, Bool.and_eq_true, decide_eq_true_eq] at tested
  exact ⟨tested.1.2, tested.2⟩

/-- A neighbourhood is rendered when its function has a summary and the summaries that are shown
have the shape for it. -/
theorem exists_renderNeighborhood {pyStr : Json → Str} {known : Dict Str (List Str)}
    {target : Target} (listed : target ∈ graph.judgedFunctions hops) :
    (∃ text, renderNeighborhood pyStr known (graph.neighborSummaries loads hops) target =
        .ok (some text)) ↔
      ∃ own ∈ graph.filledSummary? loads target.id, BlockShaped own ∧
        ∀ callee ∈ target.callees, ∀ summary ∈ graph.filledSummary? loads callee.id,
          BlockShaped summary := by
  have near := @summaryIn_neighborSummaries loads graph hops target listed target.id (.inl rfl)
  have each : (∀ entry ∈ calleesShown (graph.neighborSummaries loads hops) target,
      BlockShaped entry.2) ↔ ∀ callee ∈ target.callees,
        ∀ summary ∈ graph.filledSummary? loads callee.id, BlockShaped summary := by
    constructor
    · intro shaped callee member summary found
      exact shaped (callee, summary) ((mem_calleesShown listed).mpr ⟨member, found⟩)
    · intro shaped entry shown
      obtain ⟨member, found⟩ := (mem_calleesShown listed).mp shown
      exact shaped entry.1 member entry.2 found
  constructor
  · intro rendered
    obtain ⟨text, rendered⟩ := rendered
    have there := (summed_of_renderNeighborhood rendered).1
    rw [summed, near, Option.isSome_some, Option.isSome_iff_exists] at there
    obtain ⟨own, found⟩ := there
    refine ⟨own, found, ?_⟩
    rw [← each]
    exact runs_renderNeighborhood.mp ⟨_, rendered⟩ own (near.trans found)
  · intro shaped
    obtain ⟨own, found, shaped⟩ := shaped
    rw [← each] at shaped
    have runs : Runs (renderNeighborhood pyStr known (graph.neighborSummaries loads hops) target) :=
      runs_renderNeighborhood.mpr fun other same =>
        Option.some.inj ((near.trans found).symm.trans same) ▸ shaped
    obtain ⟨text, rendered⟩ := runs
    have there := (summed_of_renderNeighborhood rendered).1
    rw [summed, near, Option.mem_def.mp found, Option.isSome_some] at there
    obtain ⟨shown, rfl⟩ := Option.isSome_iff_exists.mp there.symm
    exact ⟨shown, rendered⟩

variable {pyStr : Json → Str} {known : Dict Str (List Str)} {bodies : NodeId → Str}
  {client : Str → Nat → LLMResult}

/-- Every path with a stale frame is skipped where no path is readable with an older summary, and
no batch fails that has one to skip. -/
theorem skipped_iff :
    (∀ batch ∈ batchPaths rows perBatch, ∀ row ∈ batch, graph.HasStale row →
      ∃ out, judgeBatch pyStr known bodies (graph.pathSummaries loads rows) client batch = .ok out ∧
        batch.idxOf row ∈ out.skipped) ↔
      graph.PathsReadFresh loads rows ∧ graph.BatchesShaped loads rows perBatch := by
  constructor
  · intro skips
    refine ⟨fun row listed readable id member => ?_, fun batch batched stale row held => ?_⟩
    · by_contra older
      obtain ⟨batch, batched, held⟩ := (@mem_batchPaths rows perBatch row).mpr listed
      have stale := hasStale_of_readable readable member older
      obtain ⟨out, judged, skipped⟩ := skips batch batched row held stale
      apply (idxOf_mem_skipped judged held).mp skipped
      exact (complete_pathSummaries listed).mpr readable
    · obtain ⟨other, beside, stale⟩ := stale
      obtain ⟨out, judged, _⟩ := skips batch batched other beside stale
      have listed := mem_batchPaths.mp ⟨batch, batched, held⟩
      exact (shaped_pathSummaries listed).mp (runs_judgeBatch.mp ⟨out, judged⟩ row held)
  · intro held batch batched row member stale
    obtain ⟨fresh, shaped⟩ := held
    have listed := mem_batchPaths.mp ⟨batch, batched, member⟩
    have lacking : ¬ complete (graph.pathSummaries loads rows) row = true := by
      rw [complete_pathSummaries listed]
      intro readable
      obtain ⟨id, inside, _, older⟩ := stale
      exact older (fresh row listed readable id inside)
    have runs : Runs
        (judgeBatch pyStr known bodies (graph.pathSummaries loads rows) client batch) := by
      apply runs_judgeBatch.mpr
      intro other near
      have there := mem_batchPaths.mp ⟨batch, batched, near⟩
      exact (shaped_pathSummaries there).mpr (shaped batch batched ⟨row, member, stale⟩ other near)
    obtain ⟨out, judged⟩ := runs
    exact ⟨out, judged, (idxOf_mem_skipped judged member).mpr lacking⟩

/-- What a neighbourhood shows is fresh where its callees are. -/
theorem neighborhoods_iff :
    (∀ target ∈ graph.judgedFunctions hops, ∀ text,
      renderNeighborhood pyStr known (graph.neighborSummaries loads hops) target =
          .ok (some text) → graph.Fresh target.id ∧
        ∀ entry ∈ calleesShown (graph.neighborSummaries loads hops) target,
          graph.Fresh entry.1.id) ↔ graph.CalleesReadFresh loads hops := by
  constructor
  · intro shows target listed own found shaped each callee member filled
    obtain ⟨text, rendered⟩ :=
      (@exists_renderNeighborhood loads graph hops pyStr known target listed).mpr
        ⟨own, found, shaped, each⟩
    obtain ⟨summary, here⟩ := Option.isSome_iff_exists.mp filled
    apply (shows target listed text rendered).2 (callee, summary)
    exact (mem_calleesShown listed).mpr ⟨member, here⟩
  · intro fresh target listed text rendered
    refine ⟨fresh_of_mem_judgedFunctions listed, fun entry shown => ?_⟩
    obtain ⟨member, found⟩ := (mem_calleesShown listed).mp shown
    obtain ⟨own, stored, self, each⟩ := (exists_renderNeighborhood listed).mp ⟨text, rendered⟩
    apply fresh target listed own stored self each entry.1 member
    exact Option.isSome_iff_exists.mpr ⟨entry.2, found⟩

/-- **Freshness.** Only fresh summaries are judged, and paths with a stale frame are skipped and
counted, exactly where three things hold: a path whose summaries can all be read has fresh ones
only; the batch of a path with a stale frame has summaries of the shape that frames are made of;
and a neighbourhood that can be put into text shows fresh summaries beside its function. -/
theorem onlyFreshJudged_iff (loads : Str → Option Json) (graph : CodeGraph) (pyStr : Json → Str)
    (known told : Dict Str (List Str)) (bodies : NodeId → Str) (client : Str → Nat → LLMResult)
    (rows : List JudgedPath) (perBatch : ℕ+) (hops : Nat) :
    graph.OnlyFreshJudged loads pyStr known told bodies client rows perBatch hops ↔
      graph.PathsReadFresh loads rows ∧ graph.BatchesShaped loads rows perBatch ∧
        graph.CalleesReadFresh loads hops := by
  rw [← and_assoc, ← @skipped_iff loads graph rows perBatch pyStr known bodies client,
    ← @neighborhoods_iff loads graph hops pyStr told]
  constructor
  · intro only
    exact ⟨only.skipped, only.neighborhoods⟩
  · intro held
    have fresh := (skipped_iff.mp held.1).1
    exact
      { paths := fun row listed index text rendered => by
          have whole := complete_of_renderPath rendered
          exact fresh row listed ((complete_pathSummaries listed).mp whole)
        skipped := held.1
        counted := fun arrived same => by
          unfold pathReport
          rw [pathsMissingSummaries_foldl, Nat.zero_add]
          exact (same.flatMap_right skippedIn).length_eq
        neighborhoods := held.2 }

/-- A function whose body has changed behind its summary. -/
def changedGraph : CodeGraph where
  repo := "demo"
  store := sampleStore [sampleFunction sampleId] []
  taint := fun _ => {}
  reading := fun _ =>
    { bodyHash := some "new", summaryHash := some "old", summaryJson := some "\x7b\x7d" }

/-- A path through it is put before the judge. -/
theorem changedGraph_judged :
    ¬ changedGraph.OnlyFreshJudged
      (fun text => if text = "\x7b\x7d".toList then some (.object []) else none)
      (fun _ => []) .empty .empty (fun _ => []) (fun _ _ => { ok := false, parsed := none })
      [lonePath sampleId] 3 2 := by
  intro only
  have fresh := only.paths (lonePath sampleId) List.mem_cons_self 0 _ rfl sampleId
    List.mem_cons_self
  have same := Option.some.inj fresh.2
  cases same

end Freshness

end CodeGraph

end GraphIngest.Analysis
