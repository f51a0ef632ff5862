import GraphIngest.Analysis.Review

/-! # Entry points in the report

A row of the report counts the entry points from which its defect is reached. The
count is made when findings are collapsed, from the findings at hand, and findings
are collapsed twice: before the panel rules on them, and once more together with the
findings of single bodies when the report is assembled. The second time the rows of
the first are findings with one entry point each.
-/

namespace GraphIngest.Analysis

open Foundation Graph

/-- The distinct entry points of some findings. -/
def entryPoints (findings : List FindingRow) : List Str :=
  ((findings.map FindingRow.entry).filter (· ≠ [])).dedup

theorem mem_entryPoints {findings : List FindingRow} {entry : Str} :
    entry ∈ entryPoints findings ↔
      entry ≠ [] ∧ ∃ finding ∈ findings, finding.entry = entry := by
  rw [entryPoints, List.mem_dedup, List.mem_filter, List.mem_map, decide_eq_true_eq, and_comm]

theorem nodup_entryPoints (findings : List FindingRow) : (entryPoints findings).Nodup :=
  List.nodup_dedup _

/-- A row counts the distinct entry points of its group. -/
theorem reachableFromCount_merged (group : List FindingRow) (lead : FindingRow) :
    (merged group lead).reachableFromCount = (entryPoints group).length :=
  List.length_insertionSort _ _

/-- Fewer entry points are as many exactly when they are all of them. -/
theorem length_entryPoints_eq_iff {some all : List FindingRow}
    (within : ∀ entry ∈ entryPoints some, entry ∈ entryPoints all) :
    (entryPoints some).length = (entryPoints all).length ↔
      ∀ entry ∈ entryPoints all, entry ∈ entryPoints some := by
  have part : (entryPoints some).Subperm (entryPoints all) :=
    (nodup_entryPoints some).subperm within
  constructor
  · intro alike entry listed
    exact (part.perm_of_length_le alike.ge).mem_iff.mpr listed
  · intro every
    apply Nat.le_antisymm part.length_le
    exact ((nodup_entryPoints all).subperm every).length_le

namespace CodeGraph

variable {digest : Str → Str} {graph : CodeGraph}

section Twice

theorem fingerprintOf_merged (group : List FindingRow) (lead : FindingRow) :
    graph.fingerprintOf digest (merged group (graph.stamp digest lead)) =
      graph.fingerprintOf digest lead :=
  fingerprintOf_eq_of_stamped rfl rfl

/-- Findings have distinct fingerprints when no two share one. -/
theorem nodup_fingerprints_iff {findings : List FindingRow} :
    (findings.map (graph.fingerprintOf digest)).Nodup ↔
      ∀ print, (sharing digest graph findings print).length ≤ 1 := by
  rw [List.nodup_iff_count_le_one]
  refine forall_congr' fun print => ?_
  have alike : findings.countP ((· == print) ∘ graph.fingerprintOf digest) =
      findings.countP fun finding => decide (graph.fingerprintOf digest finding = print) :=
    List.countP_congr fun finding _ => by
      rw [Function.comp_apply, beq_iff_eq, decide_eq_true_eq]
  rw [List.count, List.countP_map, alike, sharing, ← List.countP_eq_length_filter]

/-- Findings with distinct fingerprints are rows of their own, in their order. -/
theorem dedupe_of_nodup {findings : List FindingRow}
    (distinct : (findings.map (graph.fingerprintOf digest)).Nodup) :
    graph.dedupe digest findings =
      findings.map fun finding =>
        merged [graph.stamp digest finding] (graph.stamp digest finding) := by
  have stamped : ((findings.map (graph.stamp digest)).map fun finding =>
      finding.fingerprint.getD []).Nodup := by
    rw [List.map_map]
    exact distinct
  rw [dedupe, values_grouped_of_nodup stamped, List.map_map, List.filterMap_map]
  exact congrFun (@List.filterMap_eq_map' _ _ fun finding =>
    merged [graph.stamp digest finding] (graph.stamp digest finding)) findings

/-- The rows have distinct fingerprints. -/
theorem nodup_dedupe (findings : List FindingRow) :
    ((graph.dedupe digest findings).map (graph.fingerprintOf digest)).Nodup := by
  have keyed : ∀ entries : List (Str × List FindingRow),
      (∀ entry ∈ entries, ∃ row, collapse entry.2 = some row ∧
        graph.fingerprintOf digest row = entry.1) →
      ((entries.map Prod.snd).filterMap collapse).map (graph.fingerprintOf digest) =
        entries.map Prod.fst := by
    intro entries
    induction entries with
    | nil => exact fun _ => rfl
    | cons entry rest ih =>
        intro each
        obtain ⟨row, collapsed, printed⟩ := each entry List.mem_cons_self
        rw [List.map_cons, List.filterMap_cons_some collapsed, List.map_cons, printed,
          ih fun other listed => each other (List.mem_cons_of_mem _ listed), List.map_cons]
  rw [dedupe, Dict.values, keyed]
  · exact Dict.keys_nodup _
  · rintro ⟨print, group⟩ entry
    obtain ⟨whole, filled⟩ := mem_entries_grouped.mp entry
    obtain ⟨lead, leads⟩ := @exists_first _ pathLength _ filled
    refine ⟨merged group lead, ?_, ?_⟩
    · rw [collapse, head?_insertionSort_iff.mpr leads, Option.map_some]
    · have member := leads.mem
      rw [whole, List.mem_filter, List.mem_map] at member
      obtain ⟨⟨finding, _, rfl⟩, printed⟩ := member
      exact (fingerprintOf_merged group finding).trans (of_decide_eq_true printed)

/-- Collapsing once more leaves a row alone exactly when its group is a single
finding. -/
theorem merged_again_iff {group : List FindingRow} {lead : FindingRow}
    (member : graph.stamp digest lead ∈ group) :
    merged [graph.stamp digest (merged group (graph.stamp digest lead))]
        (graph.stamp digest (merged group (graph.stamp digest lead))) =
      merged group (graph.stamp digest lead) ↔ group.length ≤ 1 := by
  constructor
  · intro same
    have paths : 0 = group.length - 1 := congrArg FindingRow.duplicatePaths same
    omega
  · intro short
    obtain ⟨only, rfl⟩ := List.length_eq_one_iff.mp
      (le_antisymm short (List.length_pos_of_mem member))
    obtain rfl := List.mem_singleton.mp member
    have again : graph.stamp digest (merged [graph.stamp digest lead] (graph.stamp digest lead)) =
        merged [graph.stamp digest lead] (graph.stamp digest lead) := by
      have print := @fingerprintOf_merged digest graph [graph.stamp digest lead] lead
      rw [stamp, print]
      rfl
    rw [again]
    rfl

/-- Collapsing twice is collapsing once exactly when there was nothing to
collapse. -/
theorem dedupe_dedupe_iff (findings : List FindingRow) :
    graph.dedupe digest (graph.dedupe digest findings) = graph.dedupe digest findings ↔
      (findings.map (graph.fingerprintOf digest)).Nodup := by
  have fixed : graph.dedupe digest (graph.dedupe digest findings) =
      graph.dedupe digest findings ↔ ∀ row ∈ graph.dedupe digest findings,
        merged [graph.stamp digest row] (graph.stamp digest row) = row := by
    rw [dedupe_of_nodup (nodup_dedupe findings)]
    conv_lhs => rhs; rw [← List.map_id (graph.dedupe digest findings)]
    exact List.map_inj_left
  rw [fixed, nodup_fingerprints_iff]
  constructor
  · intro unchanged print
    by_cases filled : sharing digest graph findings print = []
    · rw [filled]
      exact Nat.zero_le _
    · obtain ⟨lead, leads⟩ := @exists_first _ pathLength _ filled
      have same := unchanged _ (mem_dedupe.mpr ⟨print, lead, leads, rfl⟩)
      have short := (merged_again_iff (List.mem_map_of_mem leads.mem)).mp same
      rwa [List.length_map] at short
  · intro short row listed
    obtain ⟨print, lead, leads, rfl⟩ := mem_dedupe.mp listed
    apply (merged_again_iff (List.mem_map_of_mem leads.mem)).mpr
    rw [List.length_map]
    exact short print

end Twice

end CodeGraph

/-- What comes to the panel and to the report: the findings of paths and of
neighbourhoods, those of single bodies, and the votes of the panel. -/
structure Assessment where
  graph : CodeGraph
  found : List FindingRow
  direct : List FindingRow
  votes : FindingRow → List Vote
  dismissals : Dismissals
  now : Nat
  persist : Bool

/-- The assessment at the end of a review. -/
def Review.assessment (review : Review) : Assessment where
  graph := review.graph
  found := review.found
  direct := review.direct
  votes := review.votes
  dismissals := review.dismissals
  now := review.now
  persist := review.persist

namespace Assessment

variable (digest : Str → Str) (assessment : Assessment)

/-- The row of the findings of paths and neighbourhoods that a finding leads. -/
def candidate (print : Str) (lead : FindingRow) : FindingRow :=
  merged ((CodeGraph.sharing digest assessment.graph assessment.found print).map
    (assessment.graph.stamp digest)) (assessment.graph.stamp digest lead)

/-- What the panel makes of the collapsed findings. -/
def ruling : Ruling :=
  runAdversarialPass assessment.votes true (assessment.graph.dedupe digest assessment.found)

/-- The report at the end. -/
def reported : Reported :=
  assessment.graph.report digest assessment.now assessment.dismissals
    ((assessment.ruling digest).confirmed ++ assessment.direct) (assessment.ruling digest).killed
    assessment.persist

/-- Every reported row counts the distinct entry points among all findings with its
fingerprint. -/
def EntriesCounted : Prop :=
  ∀ row ∈ (assessment.reported digest).report.findings, ∀ print, row.fingerprint = some print →
    row.reachableFromCount = (entryPoints (CodeGraph.sharing digest assessment.graph
      (assessment.found ++ assessment.direct) print)).length

/-- The finding of a shortest path to a defect is classified, and the panel lets its
row stand. -/
structure Leads (print : Str) (lead : FindingRow) : Prop where
  first : First pathLength lead
    (CodeGraph.sharing digest assessment.graph assessment.found print)
  live : lead.dismissed = false
  standing : killedBy true (assessment.votes (assessment.candidate digest print lead)) = false
  known : classified lead = true

/-- The findings whose entry points are counted: the one that leads, and those of single
bodies. -/
def Counted (print : Str) (finding : FindingRow) : Prop :=
  assessment.Leads digest print finding ∨
    finding ∈ assessment.direct ∧ classified finding = true ∧
      assessment.graph.fingerprintOf digest finding = print

/-- Every entry point of a reported defect is that of a finding that is counted. -/
def EntriesKept : Prop :=
  ∀ print, assessment.dismissals.get? print = none →
    (∃ finding, assessment.Counted digest print finding) →
      ∀ finding ∈ assessment.found ++ assessment.direct,
        assessment.graph.fingerprintOf digest finding = print → finding.entry ≠ [] →
          ∃ other, assessment.Counted digest print other ∧ other.entry = finding.entry

variable {digest assessment}

/-- The assessment of a review reports what the review reports. -/
theorem reported_assessment (review : Review) :
    review.assessment.reported digest = review.reported digest := rfl

/-- The rows that stand before the panel. -/
theorem mem_confirmed_iff {row : FindingRow} :
    row ∈ (assessment.ruling digest).confirmed ↔
      ∃ print lead, First pathLength lead
          (CodeGraph.sharing digest assessment.graph assessment.found print) ∧
        lead.dismissed = false ∧
        killedBy true (assessment.votes (assessment.candidate digest print lead)) = false ∧
        row = confirm (assessment.votes (assessment.candidate digest print lead))
          (assessment.candidate digest print lead) := by
  constructor
  · intro stands
    obtain ⟨collapsed, kept, rfl⟩ := List.mem_map.mp stands
    obtain ⟨live, lives⟩ := List.mem_filter.mp kept
    obtain ⟨listed, undismissed⟩ := List.mem_filter.mp live
    obtain ⟨print, lead, leads, rfl⟩ := CodeGraph.mem_dedupe.mp listed
    exact ⟨print, lead, leads, (Bool.not_eq_true' _).mp undismissed,
      (Bool.not_eq_true' _).mp lives, rfl⟩
  · intro ⟨print, lead, leads, live, lives, made⟩
    subst made
    refine List.mem_map.mpr ⟨assessment.candidate digest print lead, ?_, rfl⟩
    refine List.mem_filter.mpr ⟨List.mem_filter.mpr ⟨?_, ?_⟩, ?_⟩
    · exact CodeGraph.mem_dedupe.mpr ⟨print, lead, leads, rfl⟩
    · exact (Bool.not_eq_true' _).mpr live
    · exact (Bool.not_eq_true' _).mpr lives

/-- The findings that the report collapses under a fingerprint. -/
theorem exists_sharing_iff {print : Str} {entry : Str} :
    (∃ source ∈ CodeGraph.sharing digest assessment.graph
        (((assessment.ruling digest).confirmed ++ assessment.direct).filter classified) print,
          source.entry = entry) ↔
      ∃ finding, assessment.Counted digest print finding ∧ finding.entry = entry := by
  constructor
  · intro ⟨source, shared, entered⟩
    obtain ⟨kept, printed⟩ := CodeGraph.mem_sharing.mp shared
    obtain ⟨given, known⟩ := List.mem_filter.mp kept
    rcases List.mem_append.mp given with confirmed | single
    · obtain ⟨front, lead, leads, live, lives, rfl⟩ := mem_confirmed_iff.mp confirmed
      have same : front = print := by
        rw [← printed, candidate, Review.fingerprintOf_confirm_merged]
        exact (CodeGraph.mem_sharing.mp leads.mem).2.symm
      subst same
      exact ⟨lead, .inl ⟨leads, live, lives, known⟩, entered⟩
    · exact ⟨source, .inr ⟨single, known, printed⟩, entered⟩
  · intro ⟨finding, counted, entered⟩
    rcases counted with leads | ⟨single, known, printed⟩
    · refine ⟨confirm (assessment.votes (assessment.candidate digest print finding))
        (assessment.candidate digest print finding), CodeGraph.mem_sharing.mpr ⟨?_, ?_⟩, entered⟩
      · refine List.mem_filter.mpr ⟨List.mem_append_left _ ?_, leads.known⟩
        exact mem_confirmed_iff.mpr ⟨print, finding, leads.first, leads.live, leads.standing, rfl⟩
      · rw [candidate, Review.fingerprintOf_confirm_merged]
        exact (CodeGraph.mem_sharing.mp leads.first.mem).2
    · refine ⟨finding, CodeGraph.mem_sharing.mpr ⟨?_, printed⟩, entered⟩
      exact List.mem_filter.mpr ⟨List.mem_append_right _ single, known⟩

/-- A finding that is counted is one of those found. -/
theorem Counted.mem_sharing {print : Str} {finding : FindingRow}
    (counted : assessment.Counted digest print finding) :
    finding ∈ CodeGraph.sharing digest assessment.graph
      (assessment.found ++ assessment.direct) print := by
  rcases counted with leads | ⟨single, _, printed⟩
  · obtain ⟨listed, printed⟩ := CodeGraph.mem_sharing.mp leads.first.mem
    exact CodeGraph.mem_sharing.mpr ⟨List.mem_append_left _ listed, printed⟩
  · exact CodeGraph.mem_sharing.mpr ⟨List.mem_append_right _ single, printed⟩

/-- The rows of the report, with what they count. -/
theorem mem_reported {row : FindingRow}
    (listed : row ∈ (assessment.reported digest).report.findings) :
    ∃ print, row.fingerprint = some print ∧ assessment.dismissals.get? print = none ∧
      (∃ finding, assessment.Counted digest print finding) ∧
      row.reachableFromCount = (entryPoints (CodeGraph.sharing digest assessment.graph
        (((assessment.ruling digest).confirmed ++ assessment.direct).filter classified)
          print)).length := by
  obtain ⟨collapsed, free⟩ := CodeGraph.mem_findings_report.mp listed
  obtain ⟨print, lead, leads, rfl⟩ := CodeGraph.mem_dedupe.mp collapsed
  have printed := (CodeGraph.mem_sharing.mp leads.mem).2
  have carried : (merged ((CodeGraph.sharing digest assessment.graph
      (((assessment.ruling digest).confirmed ++ assessment.direct).filter classified) print).map
        (assessment.graph.stamp digest)) (assessment.graph.stamp digest lead)).fingerprint =
      some print := congrArg some printed
  obtain ⟨finding, counted, _⟩ := exists_sharing_iff.mp ⟨lead, leads.mem, rfl⟩
  refine ⟨print, carried, ?_, ⟨finding, counted⟩, ?_⟩
  · rwa [priorOf, carried] at free
  · rw [reachableFromCount_merged, entryPoints, List.map_map]
    rfl

/-- Every defect with a finding that is counted is reported, unless it was dismissed
before. -/
theorem exists_mem_reported {print : Str} {finding : FindingRow}
    (counted : assessment.Counted digest print finding)
    (free : assessment.dismissals.get? print = none) :
    ∃ row ∈ (assessment.reported digest).report.findings, row.fingerprint = some print := by
  obtain ⟨source, shared, _⟩ := exists_sharing_iff.mpr ⟨finding, counted, rfl⟩
  obtain ⟨kept, printed⟩ := CodeGraph.mem_sharing.mp shared
  obtain ⟨row, collapsed, carried⟩ :=
    @CodeGraph.exists_mem_dedupe digest assessment.graph _ _ kept
  rw [printed] at carried
  refine ⟨row, CodeGraph.mem_findings_report.mpr ⟨collapsed, ?_⟩, carried⟩
  rw [priorOf, carried]
  exact free

/-- The report counts all entry points exactly when each is that of a finding that is
counted. -/
theorem entriesCounted_iff :
    assessment.EntriesCounted digest ↔ assessment.EntriesKept digest := by
  have kept_iff : ∀ print, (entryPoints (CodeGraph.sharing digest assessment.graph
        (((assessment.ruling digest).confirmed ++ assessment.direct).filter classified)
          print)).length =
      (entryPoints (CodeGraph.sharing digest assessment.graph
        (assessment.found ++ assessment.direct) print)).length ↔
      ∀ entry ∈ entryPoints (CodeGraph.sharing digest assessment.graph
        (assessment.found ++ assessment.direct) print),
          ∃ other, assessment.Counted digest print other ∧ other.entry = entry := by
    intro print
    rw [length_entryPoints_eq_iff]
    · refine forall₂_congr fun entry listed => ?_
      rw [mem_entryPoints, exists_sharing_iff, and_iff_right (mem_entryPoints.mp listed).1]
    · intro entry listed
      obtain ⟨filled, entered⟩ := mem_entryPoints.mp listed
      obtain ⟨finding, counted, same⟩ := exists_sharing_iff.mp entered
      exact mem_entryPoints.mpr ⟨filled, finding, counted.mem_sharing, same⟩
  constructor
  · intro counts print free ⟨finding, counted⟩ other listed printed filled
    obtain ⟨row, reported, carried⟩ := exists_mem_reported counted free
    obtain ⟨front, carries, _, _, length⟩ := mem_reported reported
    obtain rfl := Option.some.inj (carries.symm.trans carried)
    have every := (kept_iff front).mp (length.symm.trans (counts row reported front carried))
    refine every other.entry (mem_entryPoints.mpr ⟨filled, other, ?_, rfl⟩)
    exact CodeGraph.mem_sharing.mpr ⟨listed, printed⟩
  · intro kept row reported print carried
    obtain ⟨front, carries, free, some, length⟩ := mem_reported reported
    obtain rfl := Option.some.inj (carries.symm.trans carried)
    rw [length, kept_iff]
    intro entry entered
    obtain ⟨filled, finding, shared, rfl⟩ := mem_entryPoints.mp entered
    obtain ⟨listed, printed⟩ := CodeGraph.mem_sharing.mp shared
    exact kept front free some finding listed printed filled

/-- **Entry points under collapsing.** Collapsing is idempotent on a list exactly when no
two of its findings share a fingerprint, and the report counts every entry point of its
defects exactly when none is known only from a finding that does not lead its group. -/
theorem entryPoints_iff (digest : Str → Str) :
    (∀ (graph : CodeGraph) (findings : List FindingRow),
      graph.dedupe digest (graph.dedupe digest findings) = graph.dedupe digest findings ↔
        (findings.map (graph.fingerprintOf digest)).Nodup) ∧
    ∀ assessment : Assessment,
      assessment.EntriesCounted digest ↔ assessment.EntriesKept digest :=
  ⟨fun _ => CodeGraph.dedupe_dedupe_iff, fun _ => entriesCounted_iff⟩

end Assessment

section Sample

/-- Two handlers. -/
def saveId : NodeId := ⟨"save".toList, by decide⟩

def loadId : NodeId := ⟨"load".toList, by decide⟩

/-- What is found on a path from a handler to the function that opens a connection. -/
def handlerFinding (handler : NodeId) : FindingRow where
  kind := "injection".toList
  severity := "high".toList
  entry := handler.val
  sink := "open".toList
  pathIds := [handler, openId]
  pathFqns := [handler.val, "open".toList]
  hops := 1

/-- The connection is opened from two handlers, and the panel lets that stand. -/
def handlersAssessment : Assessment where
  graph := openGraph
  found := [handlerFinding saveId, handlerFinding loadId]
  direct := []
  votes := fun _ => [⟨"reachability".toList, false, "high".toList, []⟩]
  dismissals := Dict.empty
  now := 1
  persist := true

/-- Collapsing once more changes the row of the connection, and the report counts one of
its two handlers. -/
theorem handlers_miscounted :
    (¬ ∀ (digest : Str → Str) (graph : CodeGraph) (findings : List FindingRow),
      graph.dedupe digest (graph.dedupe digest findings) = graph.dedupe digest findings) ∧
    ¬ ∀ (digest : Str → Str) (assessment : Assessment), assessment.EntriesCounted digest := by
  refine ⟨fun stable => ?_, fun counted => ?_⟩
  · have same := stable openDigest openGraph handlersAssessment.found
    have counts : (openGraph.dedupe openDigest
        (openGraph.dedupe openDigest handlersAssessment.found)).map
          FindingRow.reachableFromCount ≠
        (openGraph.dedupe openDigest handlersAssessment.found).map
          FindingRow.reachableFromCount := by decide +kernel
    exact counts (congrArg _ same)
  · have all := counted openDigest handlersAssessment
    have short : ∃ row ∈ (handlersAssessment.reported openDigest).report.findings,
        row.fingerprint = some (openGraph.fingerprintOf openDigest
          (handlerFinding saveId)) ∧ row.reachableFromCount = 1 := by decide +kernel
    obtain ⟨row, listed, carried, one⟩ := short
    have two : (entryPoints (CodeGraph.sharing openDigest openGraph
        (handlersAssessment.found ++ handlersAssessment.direct)
          (openGraph.fingerprintOf openDigest (handlerFinding saveId)))).length = 2 := by
      decide +kernel
    have length := all row listed _ carried
    have both := one.symm.trans (length.trans two)
    exact absurd both (by decide)

end Sample

end GraphIngest.Analysis
