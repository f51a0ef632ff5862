import GraphIngest.Analysis.PassOrder
import Mathlib.Data.List.Perm.Basic

/-! # The report of a summary pass

The numbers of a pass do not depend on the order in which its files come back either, and they
balance: every file has been looked at, kept or failed, every call beyond the first of a file is
a second look, and the summaries counted are the functions that the next pass no longer asks for.
-/

namespace GraphIngest.Analysis

open Foundation Graph

section Order

variable {context : PassContext} {graph : ScoredGraph} {langs : List Lang} {limit : Option Nat}
  {first second : List Job} {after : ScoredGraph} {report : PassReport}

/-- The numbers of outcomes are added up in any order. -/
theorem counted_foldl_perm (outcome : Job → PassReport) (same : first.Perm second)
    (base : PassReport) :
    (first.foldl (fun report job => report + outcome job) base).counted =
      (second.foldl (fun report job => report + outcome job) base).counted := by
  induction same generalizing base with
  | nil => rfl
  | cons job _ ih => exact ih (base + outcome job)
  | swap one other rest =>
      have alike : ∀ (rest : List Job) (one other : PassReport), one.counted = other.counted →
          (rest.foldl (fun report job => report + outcome job) one).counted =
            (rest.foldl (fun report job => report + outcome job) other).counted := by
        intro rest
        induction rest with
        | nil => exact fun _ _ same => same
        | cons job rest ih =>
            intro one other same
            refine ih _ _ ?_
            rw [PassReport.counted_add, PassReport.counted_add, same]
      exact alike rest _ _ (PassReport.counted_right_comm base _ _)
  | trans _ _ ih₁ ih₂ => exact (ih₁ base).trans (ih₂ base)

theorem errors_foldl (outcome : Job → PassReport) (order : List Job) (base : PassReport) :
    (order.foldl (fun report job => report + outcome job) base).errors =
      base.errors ++ order.flatMap fun job => (outcome job).errors := by
  induction order generalizing base with
  | nil => exact (List.append_nil _).symm
  | cons job rest ih => exact (ih (base + outcome job)).trans (List.append_assoc _ _ _)

/-- **The order of the files.** Where a pass goes through in one order of its files, it does in
every other: the same summaries are stored, the numbers of the report are the same and so are the
errors, up to their order. -/
theorem runFilePass_perm (perm : first.Perm (jobsOf (passFiles graph langs limit)))
    (other : second.Perm (jobsOf (passFiles graph langs limit)))
    (ran : runFilePass context graph (passFiles graph langs limit) first = (after, .ok report)) :
    ∃ later, runFilePass context graph (passFiles graph langs limit) second = (after, .ok later) ∧
      later.counted = report.counted ∧ later.errors.Perm report.errors := by
  have swapped := other.trans perm.symm
  obtain ⟨⟨payload, each, rfl⟩, rfl⟩ := foldl_gather_ok.mp ran
  have rows := swapped.flatMap_right (rowsOf context graph.store)
  obtain ⟨moved, again, listed⟩ := List.perm_comp_forall₂ rows each
  obtain ⟨distinct, _⟩ := @rows_sublist context graph second (distinct_order other.subperm)
  have ids : (moved.map fun entry => entry.1.id).Nodup := by
    have mapped := congrArg (List.map SummaryRow.id) (rows_of_scored again).1
    rw [List.map_map] at mapped
    exact mapped ▸ distinct
  have stored : moved.foldl ScoredGraph.setSummary graph =
      payload.foldl ScoredGraph.setSummary graph := by
    refine listed.foldl_eq' (fun one inside other inside' state => ?_) graph
    by_cases same : one.1.id = other.1.id
    · rw [List.inj_on_of_nodup_map ids inside inside' same]
    · exact setSummary_comm state same
  refine ⟨_, foldl_gather_ok.mpr ⟨⟨moved, again, stored.symm⟩, rfl⟩,
    counted_foldl_perm _ swapped _, ?_⟩
  rw [errors_foldl, errors_foldl]
  exact (swapped.flatMap_right _).append_left _

/-- The report of the sample. -/
def summaryReport : PassReport where
  filesSeen := 2
  functionsSummarized := 2
  callsMade := 3
  rereads := 1
  throttledCalls := 1
  inputTokens := 30
  outputTokens := 10

/-- What the sample leaves. -/
def passAfter : ScoredGraph :=
  (runFilePass passContext passGraph (passFiles passGraph [] none) passJobs).1

theorem runFilePass_passGraph : runFilePass passContext passGraph (passFiles passGraph [] none)
    passJobs = (passAfter, .ok summaryReport) :=
  Prod.ext rfl rfl

/-- The two files of the sample in the other order. -/
theorem runFilePass_perm_passGraph : passJobs ≠ passJobs.reverse ∧ ∃ later,
    runFilePass passContext passGraph (passFiles passGraph [] none) passJobs.reverse =
        (passAfter, .ok later) ∧
      later.counted = summaryReport.counted ∧ later.errors.Perm summaryReport.errors := by
  refine ⟨fun same => ?_, runFilePass_perm passJobs_perm
    ((List.reverse_perm _).trans passJobs_perm) runFilePass_passGraph⟩
  have files := congrArg (List.map fun job => job.entry.file) same
  exact absurd files (by decide)

end Order

section Accounts

variable {context : PassContext} {graph : ScoredGraph} {langs : List Lang}

/-- The calls of a file leave the other numbers alone. -/
theorem foldl_addCall_keeps (results : List LLMResult) (report : PassReport) :
    (results.foldl PassReport.addCall report).filesSeen = report.filesSeen ∧
      (results.foldl PassReport.addCall report).callsMade = report.callsMade ∧
      (results.foldl PassReport.addCall report).rereads = report.rereads ∧
      (results.foldl PassReport.addCall report).chunksRejected = report.chunksRejected ∧
      (results.foldl PassReport.addCall report).errors = report.errors ∧
      (results.foldl PassReport.addCall report).filesSkippedFresh = report.filesSkippedFresh ∧
      (results.foldl PassReport.addCall report).functionsSkippedFresh =
        report.functionsSkippedFresh := by
  induction results generalizing report with
  | nil => exact ⟨rfl, rfl, rfl, rfl, rfl, rfl, rfl⟩
  | cons res rest ih => exact ih (report.addCall res)

theorem ofOutcome_ok (out : FileOutcome) :
    (PassReport.ofOutcome (.ok out)).filesSeen = 1 ∧
      (PassReport.ofOutcome (.ok out)).callsMade = out.calls ∧
      (PassReport.ofOutcome (.ok out)).rereads = out.rereads ∧
      (PassReport.ofOutcome (.ok out)).chunksRejected = out.rejected ∧
      (PassReport.ofOutcome (.ok out)).errors = [] ∧
      (PassReport.ofOutcome (.ok out)).filesSkippedFresh = 0 ∧
      (PassReport.ofOutcome (.ok out)).functionsSkippedFresh = 0 := by
  obtain ⟨seen, calls, rereads, rejected, errors, skipped⟩ := foldl_addCall_keeps out.results
    { filesSeen := 0 + 1, callsMade := 0 + out.calls, rereads := 0 + out.rereads,
      chunksRejected := 0 + out.rejected, unknownCallees := 0 + out.unknown,
      claimedCallees := 0 + out.claimed }
  exact ⟨seen, calls.trans (Nat.zero_add _), rereads.trans (Nat.zero_add _),
    rejected.trans (Nat.zero_add _), errors, skipped⟩

/-- What one file adds. -/
structure FileAccount (context : PassContext) (store : GraphStore) (job : Job)
    (added : PassReport) : Prop where
  files : added.filesSeen + added.errors.length = 1
  calls : added.callsMade = added.rereads + added.filesSeen
  most : added.callsMade ≤ 2 * (chunksOf context.perCall job.pending).length
  summarized : added.functionsSummarized = (rowsOf context store job).length
  whole : added.chunksRejected = 0 ∧ added.errors = [] ↔
    ((rowsOf context store job).map SummaryRow.id).Perm (job.pending.map FunctionRow.id)
  skipped : added.filesSkippedFresh = 0 ∧ added.functionsSkippedFresh = 0

theorem fileAccount_ofOutcome {store : GraphStore} {job : Job}
    (distinct : (job.pending.map FunctionRow.id).Nodup) (filled : job.pending ≠ []) :
    FileAccount context store job (.ofOutcome (doFile context store job)) := by
  cases done : doFile context store job with
  | error error =>
      have none : rowsOf context store job = [] := by rw [rowsOf, done]
      refine ⟨rfl, rfl, Nat.zero_le _, by rw [none]; rfl, ?_, rfl, rfl⟩
      rw [none]
      refine iff_of_false (fun clean => List.cons_ne_nil _ _ clean.2) fun perm => ?_
      exact filled (List.map_eq_nil_iff.mp (List.nil_perm.mp perm))
  | ok out =>
      have handed := handed_doFile distinct done
      have rows : rowsOf context store job = out.rows := by rw [rowsOf, done]
      obtain ⟨seen, calls, rereads, rejected, errors, skipped⟩ := ofOutcome_ok out
      refine ⟨?_, ?_, ?_, congrArg List.length rows.symm, ?_, skipped⟩
      · rw [seen, errors, List.length_nil]
      · rw [calls, rereads, seen, handed.rereads filled]
      · rw [calls]
        exact handed.most
      · rw [rejected, errors, and_iff_left rfl, rows]
        exact handed.rejected

/-- What a report says behind some files, in terms of what it said in front. -/
structure Tallied (context : PassContext) (store : GraphStore) (order : List Job)
    (base report : PassReport) : Prop where
  files : report.filesSeen + report.errors.length =
    base.filesSeen + base.errors.length + order.length
  calls : base.callsMade = base.rereads + base.filesSeen →
    report.callsMade = report.rereads + report.filesSeen
  most : report.callsMade ≤ base.callsMade +
    2 * (order.flatMap fun job => chunksOf context.perCall job.pending).length
  summarized : report.functionsSummarized =
    base.functionsSummarized + (order.flatMap (rowsOf context store)).length
  kept : report.filesSkippedFresh = base.filesSkippedFresh ∧
    report.functionsSkippedFresh = base.functionsSkippedFresh
  whole : report.chunksRejected = 0 ∧ report.errors = [] ↔
    (base.chunksRejected = 0 ∧ base.errors = []) ∧ ∀ job ∈ order,
      ((rowsOf context store job).map SummaryRow.id).Perm (job.pending.map FunctionRow.id)

theorem tallied_foldl {store : GraphStore} {order : List Job}
    (sound : ∀ job ∈ order, (job.pending.map FunctionRow.id).Nodup ∧ job.pending ≠ [])
    (base : PassReport) : Tallied context store order base
      (order.foldl (fun report job => report + .ofOutcome (doFile context store job)) base) := by
  induction order generalizing base with
  | nil =>
      refine ⟨rfl, id, le_refl _, rfl, ⟨rfl, rfl⟩, ?_⟩
      exact (and_iff_left fun _ listed => (List.not_mem_nil listed).elim).symm
  | cons job rest ih =>
      obtain ⟨⟨distinct, filled⟩, others⟩ := List.forall_mem_cons.mp sound
      have account := @fileAccount_ofOutcome context store job distinct filled
      rw [List.foldl_cons]
      generalize PassReport.ofOutcome (doFile context store job) = added at account
      have later := ih others (base + added)
      have seen : (base + added).filesSeen = base.filesSeen + added.filesSeen := rfl
      have calls : (base + added).callsMade = base.callsMade + added.callsMade := rfl
      have rereads : (base + added).rereads = base.rereads + added.rereads := rfl
      have errors : (base + added).errors = base.errors ++ added.errors := rfl
      have rejected : (base + added).chunksRejected =
        base.chunksRejected + added.chunksRejected := rfl
      have summarized : (base + added).functionsSummarized =
        base.functionsSummarized + added.functionsSummarized := rfl
      refine ⟨?_, fun even => ?_, ?_, ?_, ?_, ?_⟩
      · have files := later.files
        have own := account.files
        rw [seen, errors, List.length_append] at files
        rw [List.length_cons]
        omega
      · apply later.calls
        rw [calls, rereads, seen, even, account.calls]
        omega
      · have most := later.most
        have own := account.most
        rw [calls] at most
        rw [List.flatMap_cons, List.length_append]
        omega
      · rw [later.summarized, summarized, account.summarized, List.flatMap_cons, List.length_append,
          Nat.add_assoc]
      · obtain ⟨files, functions⟩ := account.skipped
        refine ⟨later.kept.1.trans ?_, later.kept.2.trans ?_⟩
        · exact congrArg (base.filesSkippedFresh + ·) files
        · exact congrArg (base.functionsSkippedFresh + ·) functions
      · rw [later.whole, errors, rejected, List.append_eq_nil_iff, Nat.add_eq_zero_iff,
          List.forall_mem_cons, ← account.whole, and_and_and_comm, and_assoc]

/-- What is known before a file is read: the files and the functions that are kept. -/
theorem foldl_count (files : List FileRow) (base : PassReport) :
    (files.foldl PassReport.count base).filesSkippedFresh + (jobsOf files).length =
        base.filesSkippedFresh + files.length ∧
      (files.foldl PassReport.count base).functionsSkippedFresh +
          (files.flatMap fun entry => needsSummary entry.functions).length =
        base.functionsSkippedFresh + (files.flatMap FileRow.functions).length ∧
      (files.foldl PassReport.count base).filesSeen = base.filesSeen ∧
      (files.foldl PassReport.count base).functionsSummarized = base.functionsSummarized ∧
      (files.foldl PassReport.count base).callsMade = base.callsMade ∧
      (files.foldl PassReport.count base).rereads = base.rereads ∧
      (files.foldl PassReport.count base).chunksRejected = base.chunksRejected ∧
      (files.foldl PassReport.count base).errors = base.errors := by
  induction files generalizing base with
  | nil => exact ⟨rfl, rfl, rfl, rfl, rfl, rfl, rfl, rfl⟩
  | cons entry rest ih =>
      obtain ⟨files, functions, same⟩ := ih (base.count entry)
      have fewer : (needsSummary entry.functions).length ≤ entry.functions.length :=
        List.length_filter_le _ _
      have skipped : (base.count entry).filesSkippedFresh = base.filesSkippedFresh +
          if (needsSummary entry.functions).isEmpty then 1 else 0 := rfl
      have kept : (base.count entry).functionsSkippedFresh = base.functionsSkippedFresh +
          (entry.functions.length - (needsSummary entry.functions).length) := rfl
      have jobs : (jobsOf (entry :: rest)).length = (jobsOf rest).length +
          if (needsSummary entry.functions).isEmpty then 0 else 1 := by
        rw [jobsOf, List.map_cons, List.filter_cons]
        cases (needsSummary entry.functions).isEmpty <;> rfl
      rw [skipped] at files
      rw [kept] at functions
      rw [List.foldl_cons, jobs, List.length_cons, List.flatMap_cons, List.flatMap_cons,
        List.length_append, List.length_append]
      refine ⟨?_, ?_, same⟩
      · by_cases empty : (needsSummary entry.functions).isEmpty = true
        · rw [if_pos empty] at files ⊢
          omega
        · rw [if_neg empty] at files ⊢
          omega
      · omega

/-- How the report of a pass balances, with what the pass leaves. -/
structure Balanced (context : PassContext) (graph : ScoredGraph) (langs : List Lang)
    (files : List FileRow) (after : ScoredGraph) (report : PassReport) : Prop where
  counted : report.filesSeen + report.errors.length + report.filesSkippedFresh = files.length
  functions : report.functionsSkippedFresh + ((jobsOf files).flatMap Job.pending).length =
    (files.flatMap FileRow.functions).length
  calls : report.callsMade = report.rereads + report.filesSeen
  most : report.callsMade ≤
    2 * ((jobsOf files).flatMap fun job => chunksOf context.perCall job.pending).length
  summarized : report.functionsSummarized + (after.pending langs).length =
    (graph.pending langs).length

theorem pending_nodup (graph : ScoredGraph) (langs : List Lang) : (graph.pending langs).Nodup := by
  unfold ScoredGraph.pending
  rw [← List.map_flatMap]
  refine (@distinct_functions graph langs).sublist (List.Sublist.map _ ?_)
  exact List.Sublist.flatMap_right _ fun _ _ => List.filter_sublist

variable {limit : Option Nat} {order : List Job} {after : ScoredGraph} {report : PassReport}

theorem sound_of_perm (perm : order.Perm (jobsOf (passFiles graph langs limit))) :
    ∀ job ∈ order, (job.pending.map FunctionRow.id).Nodup ∧ job.pending ≠ [] := by
  have apart := distinct_order perm.subperm
  rw [List.map_flatMap, List.nodup_flatMap] at apart
  intro job listed
  refine ⟨apart.1 job listed, fun empty => ?_⟩
  have filled := (List.mem_filter.mp (perm.mem_iff.mp listed)).2
  rw [empty] at filled
  cases filled

/-- A function is asked for in one file. -/
theorem job_unique (among : order.Subperm (jobsOf (passFiles graph langs limit))) {one other : Job}
    (first : one ∈ order) (second : other ∈ order) {id : NodeId}
    (asked : id ∈ one.pending.map FunctionRow.id) (also : id ∈ other.pending.map FunctionRow.id) :
    one = other := by
  by_contra different
  have apart := distinct_order among
  rw [List.map_flatMap, List.nodup_flatMap] at apart
  have symmetric : Std.Symm (Function.onFun List.Disjoint fun job : Job =>
      job.pending.map FunctionRow.id) := ⟨fun _ _ disjoint => disjoint.symm⟩
  exact apart.2.forall first second different asked also

/-- The functions that got a summary are those that are no longer asked for. -/
theorem length_pending (among : order.Subperm (jobsOf (passFiles graph langs limit)))
    (passed : Passed context graph langs order after) :
    (order.flatMap (rowsOf context graph.store)).length + (after.pending langs).length =
      (graph.pending langs).length := by
  obtain ⟨distinct, stored⟩ := @rows_sublist context graph order (distinct_order among)
  have answered : ∀ id, id ∈ (order.flatMap (rowsOf context graph.store)).map SummaryRow.id ↔
      ¬ ∀ job ∈ order, id ∉ (rowsOf context graph.store job).map SummaryRow.id := by
    intro id
    rw [List.map_flatMap, List.mem_flatMap]
    simp only [not_forall, not_not, exists_prop]
  have asked : ∀ id ∈ (order.flatMap (rowsOf context graph.store)).map SummaryRow.id,
      id ∈ graph.pending langs := by
    intro id listed
    obtain ⟨row, member, rfl⟩ := List.mem_map.mp listed
    obtain ⟨own, inside, same, _⟩ := (stored row member).known
    obtain ⟨_, _, _, pending⟩ := pending_of_order among inside
    exact same ▸ ScoredGraph.mem_pending.mpr pending
  have split : (graph.pending langs).Perm
      ((order.flatMap (rowsOf context graph.store)).map SummaryRow.id ++ after.pending langs) := by
    refine (List.perm_ext_iff_of_nodup (pending_nodup graph langs) ?_).mpr fun id => ?_
    · refine List.nodup_append.mpr ⟨distinct, pending_nodup after langs, ?_⟩
      intro id one id' two same
      exact (answered id).mp one (same ▸ ((passed.pending id').mp two).2)
    · rw [List.mem_append, passed.pending, answered]
      constructor
      · intro listed
        by_cases left : ∀ job ∈ order, id ∉ (rowsOf context graph.store job).map SummaryRow.id
        · exact .inr ⟨listed, left⟩
        · exact .inl left
      · rintro (some | rest)
        · exact asked id ((answered id).mpr some)
        · exact rest.1
  rw [split.length_eq, List.length_append, List.length_map]

/-- **The report.** Of every pass that goes through, in whatever order its files come back: each
file is counted once, as seen, failed or fresh; each call but the first of a file is a reread, and
there are at most two for a chunk; and the summaries counted are as many as the functions that the
next pass has less to ask for. -/
theorem balanced_runFilePass (context : PassContext)
    (perm : order.Perm (jobsOf (passFiles graph langs limit)))
    (ran : runFilePass context graph (passFiles graph langs limit) order = (after, .ok report)) :
    Balanced context graph langs (passFiles graph langs limit) after report := by
  have gathered := foldl_gather_ok.mp ran
  have passed := passed_of_gathered perm.subperm gathered
  obtain ⟨kept, fresh, seen, summarized, calls, rereads, rejected, errors⟩ :=
    foldl_count (passFiles graph langs limit) {}
  have tallied := @tallied_foldl context graph.store order (sound_of_perm perm)
    ((passFiles graph langs limit).foldl PassReport.count {})
  rw [← gathered.report] at tallied
  have least := length_pending perm.subperm passed
  have jobs := perm.length_eq
  refine ⟨?_, ?_, ?_, ?_, ?_⟩
  · have files := tallied.files
    rw [seen, errors, List.length_nil] at files
    rw [files, tallied.kept.1, jobs]
    dsimp only at kept ⊢
    omega
  · rw [tallied.kept.2, flatMap_jobsOf, fresh]
    exact Nat.zero_add _
  · apply tallied.calls
    rw [calls, rereads, seen]
    rfl
  · have most := tallied.most
    rw [calls, (perm.flatMap_right _).length_eq] at most
    exact most.trans (Nat.zero_add _).le
  · rw [tallied.summarized, summarized, ← least]
    exact congrArg (· + _) (Nat.zero_add _)

theorem balanced_passGraph :
    Balanced passContext passGraph [] (passFiles passGraph [] none) passAfter summaryReport :=
  balanced_runFilePass passContext passJobs_perm runFilePass_passGraph

/-- **A clean report.** Over all files of a repository: nothing is left to ask for exactly when no
chunk was rejected and no file failed. -/
theorem pending_eq_nil_iff (context : PassContext)
    (perm : order.Perm (jobsOf (passFiles graph langs none)))
    (ran : runFilePass context graph (passFiles graph langs none) order = (after, .ok report)) :
    after.pending langs = [] ↔ report.chunksRejected = 0 ∧ report.errors = [] := by
  have gathered := foldl_gather_ok.mp ran
  have passed := passed_of_gathered perm.subperm gathered
  obtain ⟨_, _, _, _, _, _, rejected, errors⟩ := foldl_count (passFiles graph langs none) {}
  have tallied := @tallied_foldl context graph.store order (sound_of_perm perm)
    ((passFiles graph langs none).foldl PassReport.count {})
  rw [← gathered.report] at tallied
  rw [tallied.whole, rejected, errors, and_iff_right ⟨rfl, rfl⟩]
  constructor
  · intro none job listed
    obtain ⟨distinct, _⟩ := sound_of_perm perm job listed
    obtain ⟨own, stored⟩ := @handed_rowsOf context graph job distinct
    refine (List.perm_ext_iff_of_nodup own distinct).mpr fun id =>
      ⟨fun answered => ?_, fun asked => ?_⟩
    · obtain ⟨row, inside, rfl⟩ := List.mem_map.mp answered
      obtain ⟨asked, member, same, _⟩ := (stored row inside).known
      exact List.mem_map.mpr ⟨asked, member, same.symm⟩
    · by_contra unanswered
      obtain ⟨row, member, rfl⟩ := List.mem_map.mp asked
      obtain ⟨_, _, _, pending⟩ := pending_of_order perm.subperm
        (List.mem_flatMap.mpr ⟨job, listed, member⟩)
      refine List.not_mem_nil (none ▸ (passed.pending row.id).mpr
        ⟨ScoredGraph.mem_pending.mpr pending, fun other listed' answered => ?_⟩)
      obtain ⟨distinct', _⟩ := sound_of_perm perm other listed'
      obtain ⟨summary, inside, same⟩ := List.mem_map.mp answered
      obtain ⟨asked', member', same', _⟩ :=
        ((@handed_rowsOf context graph other distinct').2 summary inside).known
      have one := job_unique perm.subperm listed listed' asked
        (List.mem_map.mpr ⟨asked', member', same'.symm.trans same⟩)
      exact unanswered (one ▸ answered)
  · intro whole
    refine List.eq_nil_iff_forall_not_mem.mpr fun id listed => ?_
    obtain ⟨asked, unanswered⟩ := (passed.pending id).mp listed
    unfold ScoredGraph.pending at asked
    rw [← List.map_flatMap] at asked
    obtain ⟨row, member, rfl⟩ := List.mem_map.mp asked
    have inOrder := (perm.flatMap_right Job.pending).mem_iff.mpr
      ((flatMap_jobsOf (passFiles graph langs .none)).symm ▸ member)
    obtain ⟨job, inside, found⟩ := List.mem_flatMap.mp inOrder
    exact unanswered job inside ((whole job inside).mem_iff.mpr (List.mem_map_of_mem found))

/-- Both functions were asked for, and the report is clean. -/
theorem pending_passGraph :
    (passGraph.pending []).length = 2 ∧ passAfter.pending [] = [] :=
  ⟨rfl, (pending_eq_nil_iff passContext passJobs_perm runFilePass_passGraph).mpr ⟨rfl, rfl⟩⟩

end Accounts

end GraphIngest.Analysis
