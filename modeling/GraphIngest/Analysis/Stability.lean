import GraphIngest.Analysis.Findings

/-! # Reports of the same findings

A report records dismissals of the killed findings, and the next report obeys them.
The confirmed findings of the first report were never asked about: one that shares
its fingerprint with a killed finding is returned once, and hidden from then on.
-/

namespace GraphIngest.Analysis

open Foundation Graph

namespace CodeGraph

section Statement

variable (digest : Str → Str) (graph : CodeGraph)

/-- What a report returns, a report of the same lists over what the first has left
returns again. -/
def ReportStable (now later : Nat) (dismissals : Dismissals)
    (confirmed killed : List FindingRow) : Prop :=
  let first := graph.report digest now dismissals confirmed killed true
  let second := graph.report digest later first.dismissals first.confirmed first.killed true
  ∀ finding ∈ first.report.findings, finding ∈ second.report.findings

/-- Whether a killed finding is dismissed under a fingerprint. -/
def DismissedAs (killed : FindingRow) (print : Str) : Prop :=
  killed.dismissed = true ∧ print ≠ [] ∧
    killed.fingerprint.getD (graph.fingerprint digest killed) = print

/-- No classified finding that is not dismissed already has the fingerprint of a
killed finding that is. -/
def Unopposed (dismissals : Dismissals) (confirmed killed : List FindingRow) : Prop :=
  ∀ finding ∈ confirmed, classified finding = true →
    dismissals.get? (graph.fingerprintOf digest finding) = none →
      ∀ kill ∈ killed, ¬ graph.DismissedAs digest kill (graph.fingerprintOf digest finding)

end Statement

variable {digest : Str → Str} {graph : CodeGraph}

theorem classified_stamp (finding : FindingRow) :
    classified (graph.stamp digest finding) = classified finding := rfl

/-- The list the next report is given collapses to the same rows. -/
theorem dedupe_confirmed_report {now : Nat} {dismissals : Dismissals}
    {confirmed killed : List FindingRow} {persist : Bool} :
    graph.dedupe digest ((graph.report digest now dismissals confirmed killed
        persist).confirmed.filter classified) =
      graph.dedupe digest (confirmed.filter classified) := by
  have marked : (graph.report digest now dismissals confirmed killed
      persist).confirmed.filter classified =
        (confirmed.filter classified).map (graph.stamp digest) := by
    change (confirmed.map _).filter classified = _
    induction confirmed with
    | nil => rfl
    | cons finding rest ih =>
        rw [List.map_cons]
        cases known : classified finding with
        | true =>
            rw [if_pos rfl, List.filter_cons_of_pos ((classified_stamp finding).trans known), ih,
              List.filter_cons_of_pos known, List.map_cons]
        | false =>
            have unknown : ¬ classified finding = true := Bool.eq_false_iff.mp known
            rw [if_neg Bool.false_ne_true, List.filter_cons_of_neg unknown, ih,
              List.filter_cons_of_neg unknown]
  rw [marked, dedupe_map_stamp]

/-- After a report that persists, a fingerprint is free when it was and no killed
finding is dismissed under it. -/
theorem get?_dismissals_report {now : Nat} {dismissals : Dismissals}
    {confirmed killed : List FindingRow} {print : Str} :
    (graph.report digest now dismissals confirmed killed true).dismissals.get? print = none ↔
      dismissals.get? print = none ∧ ∀ kill ∈ killed, ¬ graph.DismissedAs digest kill print := by
  change (saveDismissals dismissals (killed.map (graph.stampKilled digest)) _ now).1.get? print =
    none ↔ _
  rw [get?_saveDismissals_eq_none]
  refine and_congr_right fun _ => ?_
  constructor
  · intro clear kill listed ⟨dismissed, filled, carried⟩
    exact clear _ (List.mem_map_of_mem listed) ⟨dismissed, filled, congrArg some carried⟩
  · rintro clear _ listed ⟨dismissed, filled, carried⟩
    obtain ⟨kill, present, rfl⟩ := List.mem_map.mp listed
    exact clear kill present ⟨dismissed, filled, Option.some.inj carried⟩

/-- **Reports of the same findings.** Everything reported is reported again exactly
when no killed finding is dismissed under the fingerprint of a finding that is to be
reported. -/
theorem reportStable_iff (digest : Str → Str) (graph : CodeGraph) (now later : Nat)
    (dismissals : Dismissals) (confirmed killed : List FindingRow) :
    graph.ReportStable digest now later dismissals confirmed killed ↔
      graph.Unopposed digest dismissals confirmed killed := by
  unfold ReportStable
  simp only [mem_findings_report, dedupe_confirmed_report, priorOf, get?_dismissals_report]
  constructor
  · intro stable finding listed known free
    obtain ⟨row, collapsed, carried⟩ := @exists_mem_dedupe digest graph _ _
      (List.mem_filter.mpr ⟨listed, known⟩)
    have same : row.fingerprint.getD [] = graph.fingerprintOf digest finding := by
      rw [carried, Option.getD_some]
    have again := stable row ⟨collapsed, by rw [same, free]⟩
    rw [same] at again
    exact again.2.2
  · rintro unopposed row ⟨collapsed, free⟩
    obtain ⟨finding, listed, carried⟩ := exists_of_mem_dedupe collapsed
    obtain ⟨present, known⟩ := List.mem_filter.mp listed
    refine ⟨collapsed, free, ?_⟩
    rw [carried, Option.getD_some] at free ⊢
    exact unopposed finding present known free

section Sample

/-- A leak read off the body. -/
def directLeak : FindingRow where
  kind := "resource_leak"
  severity := "high"
  isDefect := true
  entry := "open"
  sink := "open"
  pathIds := [openId]
  pathFqns := ["open".toList]
  reasoning := "the connection is not closed"
  source := "file_pass"

/-- What the panel refuted about the same function. -/
def killedLeak : FindingRow where
  kind := "resource_leak"
  severity := []
  isDefect := true
  entry := "open"
  sink := "open"
  pathIds := [openId]
  pathFqns := ["open".toList]
  reasoning := "the caller may not close the connection"
  source := "neighborhood"
  dismissed := true
  dismissedBecause := "every caller closes it"

/-- The leak is reported once. -/
theorem directLeak_hidden : ¬ ∀ (digest : Str → Str) (graph : CodeGraph) (now later : Nat)
    (dismissals : Dismissals) (confirmed killed : List FindingRow),
    graph.ReportStable digest now later dismissals confirmed killed := by
  intro stable
  let first := openGraph.report openDigest 1 Dict.empty [directLeak] [killedLeak] true
  let second := openGraph.report openDigest 2 first.dismissals first.confirmed first.killed true
  have returned : first.report.findings.isEmpty = false := by decide +kernel
  have hidden : second.report.findings.isEmpty = true := by decide +kernel
  obtain ⟨row, listed⟩ := List.isEmpty_eq_false_iff_exists_mem.mp returned
  have again := stable openDigest openGraph 1 2 Dict.empty [directLeak] [killedLeak] row listed
  rw [List.isEmpty_iff] at hidden
  exact List.not_mem_nil (hidden ▸ again)

end Sample

end CodeGraph

end GraphIngest.Analysis
