import GraphIngest.Analysis.Fingerprint
import GraphIngest.Analysis.Panel

/-! # Defects of a review

A review judges paths and neighbourhoods, collapses what both found, has the panel rule
on it, and reports what stands beside the findings of single bodies. The report wants a
severity of every finding. A finding of the neighbourhood pass has none, so it is only
reported through another finding with its fingerprint.
-/

namespace GraphIngest.Analysis

open Foundation Graph

/-- A review of a graph, from the replies of the model on. The replies and the votes are
those that arrived, the findings of single bodies those that were harvested. -/
structure Review where
  graph : CodeGraph
  marks : Marks
  query : PathQuery
  hops : Nat
  pathsFound : graph.judgedPaths marks query ≠ []
  pathReplies : List (Reply (graph.judgedPaths marks query))
  replies : List (Reply (graph.judgedFunctions hops))
  votes : FindingRow → List Vote
  direct : List FindingRow
  dismissals : Dismissals
  now : Nat
  persist : Bool

namespace Review

variable (digest : Str → Str) (review : Review)

/-- The findings of the path pass. -/
def pathFindings : List FindingRow := findingsOfReplies pathFinding review.pathReplies

/-- The findings of the neighbourhood pass. -/
def neighborhoodFindings : List FindingRow :=
  findingsOfReplies neighborhoodFinding review.replies

/-- What both passes found. -/
def found : List FindingRow := review.pathFindings ++ review.neighborhoodFindings

/-- What the panel makes of it, once collapsed. -/
def ruling : Ruling :=
  runAdversarialPass review.votes true (review.graph.dedupe digest review.found)

/-- The report at the end. -/
def reported : Reported :=
  review.graph.report digest review.now review.dismissals
    ((review.ruling digest).confirmed ++ review.direct) (review.ruling digest).killed review.persist

/-- The verdict names a defect of some kind, and a severity comes of its certainty and
impact. -/
def NamesDefect (verdict : Json) : Prop :=
  truthOf (verdict.get? "is_defect") = true ∧ textOf (verdict.get? "kind") ≠ "none".toList ∧
    severity (textOf (verdict.get? "certainty")) (textOf (verdict.get? "impact")) ≠ "none".toList

/-- The fingerprint of a finding is that of one the panel let stand, and nothing is
stored under it. -/
def Stands (print : Str) : Prop :=
  (∃ row ∈ (review.ruling digest).confirmed, row.fingerprint = some print) ∧
    review.dismissals.get? print = none

/-- The fingerprint of the finding that a verdict on a function makes. -/
def printOf (entry : Json × Target) : Str :=
  review.graph.fingerprintOf digest (neighborhoodFinding entry.1 entry.2)

/-- The verdicts of the neighbourhood pass, with the functions they are about. -/
def judged : List (Json × Target) := review.replies.flatMap Reply.judged

/-- Every defect that stands is in the report, in a row with its fingerprint. -/
def NoDefectLost : Prop :=
  ∀ entry ∈ review.judged, NamesDefect entry.1 →
    review.Stands digest (review.printOf digest entry) →
      ∃ row ∈ (review.reported digest).report.findings,
        row.fingerprint = some (review.printOf digest entry)

/-- A fingerprint leads the group of a classified finding of the path pass, or is that
of a classified finding of a single body. -/
def Carried (print : Str) : Prop :=
  (∃ lead ∈ review.pathFindings, classified lead = true ∧
      First pathLength lead (CodeGraph.sharing digest review.graph review.found print)) ∨
    ∃ other ∈ review.direct, classified other = true ∧
      review.graph.fingerprintOf digest other = print

variable {digest review}

theorem exists_of_mem_findingsOfReplies {ι : Type} {work : List ι}
    {finding : Json → ι → FindingRow} {replies : List (Reply work)} {row : FindingRow}
    (made : row ∈ findingsOfReplies finding replies) :
    ∃ entry ∈ replies.flatMap Reply.judged, row = finding entry.1 entry.2 := by
  obtain ⟨entry, judged, found⟩ := List.mem_filterMap.mp made
  split at found
  · exact ⟨entry, judged, (Option.some.inj found).symm⟩
  · cases found

theorem conforms_of_mem_judged {ι : Type} {work : List ι} {replies : List (Reply work)}
    {entry : Json × ι} (judged : entry ∈ replies.flatMap Reply.judged) :
    pathVerdictSchema.conforms entry.1 = true := by
  obtain ⟨reply, _, listed⟩ := List.mem_flatMap.mp judged
  obtain ⟨verdict, given, paired⟩ := List.mem_filterMap.mp listed
  obtain ⟨item, _, rfl⟩ := Option.map_eq_some_iff.mp paired
  exact reply.conforming verdict given

/-- No verdict has a severity. -/
theorem severity_neighborhoodFinding {verdict : Json}
    (conforming : pathVerdictSchema.conforms verdict = true) (target : Target) :
    (neighborhoodFinding verdict target).severity = [] := by
  have absent : verdict.get? "severity".toList = none := Schema.get?_eq_none conforming (by decide)
  change textOf (verdict.get? "severity".toList) = []
  rw [absent]
  rfl

/-- No finding of the neighbourhood pass is classified. -/
theorem unclassified_of_mem {row : FindingRow} (listed : row ∈ review.neighborhoodFindings) :
    classified row = false := by
  obtain ⟨entry, judged, rfl⟩ := exists_of_mem_findingsOfReplies listed
  rw [classified, severity_neighborhoodFinding (conforms_of_mem_judged judged)]
  exact Bool.and_false _

theorem fingerprintOf_confirm_merged {graph : CodeGraph} (votes : List Vote)
    (group : List FindingRow) (lead : FindingRow) :
    graph.fingerprintOf digest (confirm votes (merged group (graph.stamp digest lead))) =
      graph.fingerprintOf digest lead :=
  CodeGraph.fingerprintOf_eq_of_stamped rfl rfl

/-- What stands under a fingerprint was led by the leading finding of those that share
it. -/
theorem mem_confirmed {row : FindingRow} (stands : row ∈ (review.ruling digest).confirmed) :
    ∃ print lead, First pathLength lead (CodeGraph.sharing digest review.graph review.found print) ∧
      row.fingerprint = some print ∧ review.graph.fingerprintOf digest row = print ∧
        classified row = classified lead := by
  obtain ⟨candidate, collapsed, rfl⟩ := exists_of_mem_confirmed stands
  obtain ⟨print, lead, leads, rfl⟩ := CodeGraph.mem_dedupe.mp collapsed
  have shared := (CodeGraph.mem_sharing.mp leads.mem).2
  refine ⟨print, lead, leads, congrArg some shared, ?_, rfl⟩
  rw [fingerprintOf_confirm_merged, shared]

/-- **Defects of the neighbourhood pass.** No defect that stands is lost exactly when each
of their fingerprints is carried by a classified finding of another pass. -/
theorem noDefectLost_iff (digest : Str → Str) (review : Review) :
    review.NoDefectLost digest ↔
      ∀ entry ∈ review.judged, NamesDefect entry.1 →
        review.Stands digest (review.printOf digest entry) →
          review.Carried digest (review.printOf digest entry) := by
  refine forall_congr' fun entry => forall_congr' fun judged => forall_congr' fun defect =>
    forall_congr' fun stands => ?_
  generalize review.printOf digest entry = print at stands ⊢
  obtain ⟨⟨standing, kept, carries⟩, free⟩ := stands
  constructor
  · intro ⟨row, listed, carried⟩
    obtain ⟨collapsed, _⟩ := CodeGraph.mem_findings_report.mp listed
    obtain ⟨source, present, same⟩ := CodeGraph.exists_of_mem_dedupe collapsed
    obtain rfl := Option.some.inj (carried.symm.trans same)
    obtain ⟨given, known⟩ := List.mem_filter.mp present
    rcases List.mem_append.mp given with confirmed | direct
    · obtain ⟨print, lead, leads, _, print_eq, alike⟩ := mem_confirmed confirmed
      rw [print_eq]
      rw [alike] at known
      rcases List.mem_append.mp (CodeGraph.mem_sharing.mp leads.mem).1 with onPath | around
      · exact .inl ⟨lead, onPath, known, leads⟩
      · rw [unclassified_of_mem around] at known
        cases known
    · exact .inr ⟨source, direct, known, rfl⟩
  · intro carried
    have reports : ∀ source ∈ (review.ruling digest).confirmed ++ review.direct,
        classified source = true → review.graph.fingerprintOf digest source = print →
          ∃ row ∈ (review.reported digest).report.findings, row.fingerprint = some print := by
      intro source listed known same
      obtain ⟨row, collapsed, carried⟩ := @CodeGraph.exists_mem_dedupe digest review.graph _ _
        (List.mem_filter.mpr ⟨listed, known⟩)
      rw [same] at carried
      refine ⟨row, CodeGraph.mem_findings_report.mpr ⟨collapsed, ?_⟩, carried⟩
      rw [priorOf, carried, Option.getD_some, free]
    rcases carried with ⟨lead, _, known, leads⟩ | ⟨other, direct, known, same⟩
    · obtain ⟨other, front, first, stamped, print_eq, alike⟩ := mem_confirmed kept
      obtain rfl := Option.some.inj (stamped.symm.trans carries)
      have one : front = lead := Option.some.inj
        ((head?_insertionSort_iff.mpr first).symm.trans (head?_insertionSort_iff.mpr leads))
      subst one
      exact reports standing (List.mem_append_left _ kept) (alike.trans known) print_eq
    · exact reports other (List.mem_append_right _ direct) known same

end Review

section Sample

/-- The graph in which a connection is handed on, with a summary of both functions. -/
def summedGraph : CodeGraph :=
  { handingGraph "a1" with
    reading := fun _ =>
      { bodyHash := some "a1".toList
        summaryHash := some "a1".toList
        summaryJson := some leakSummary.dumps } }

/-- The function that opens the connection, with the one it calls. -/
def openTarget : Target := summedGraph.neighborhoodOf 2 openId

/-- The reply that says that the connection leaks. -/
def leakReply : Reply (summedGraph.judgedFunctions 2) where
  kept := [openTarget]
  shown := by decide +kernel
  verdicts := [leakVerdict]
  conforming := by decide +kernel
  accepted := rfl

/-- A review in which no path could be judged, one neighbourhood leaks, and no lens of the
panel refutes that. -/
def leakReview : Review where
  graph := summedGraph
  marks := {}
  query := {}
  hops := 2
  pathsFound := by decide +kernel
  pathReplies := []
  replies := [leakReply]
  votes := fun _ =>
    [⟨"leak_control_flow", false, "high", "use can throw"⟩,
     ⟨"resource_ownership", false, "high", "open owns it"⟩,
     ⟨"reachability", false, "medium", "called from outside"⟩]
  direct := []
  dismissals := Dict.empty
  now := 1
  persist := true

/-- The leak stands and is not reported. -/
theorem leakReview_loses : ¬ ∀ (digest : Str → Str) (review : Review),
    review.NoDefectLost digest := by
  intro kept
  let entry : Json × Target := (leakVerdict, openTarget)
  have judged : entry ∈ leakReview.judged := List.mem_singleton.mpr rfl
  have defect : Review.NamesDefect leakVerdict := ⟨by decide, by decide, by decide +kernel⟩
  have stands : leakReview.Stands openDigest (leakReview.printOf openDigest entry) := by
    refine ⟨List.mem_map.mp ?_, rfl⟩
    decide +kernel
  obtain ⟨row, listed, _⟩ := kept openDigest leakReview entry judged defect stands
  have silent : (leakReview.reported openDigest).report.findings.isEmpty = true := by
    decide +kernel
  rw [List.isEmpty_iff] at silent
  exact List.not_mem_nil (silent ▸ listed)

end Sample

end GraphIngest.Analysis
