import GraphIngest.Analysis.Graph
import GraphIngest.Foundation.Grouping
import GraphIngest.Foundation.Json
import Mathlib.Data.Char
import Mathlib.Data.List.Lex
import Mathlib.Data.Prod.Lex

/-! # The report

What the passes found is collapsed by fingerprint, freed of what was dismissed
before, and ranked. A fingerprint is the digest of a kind, a sink and the body hash
of the last function of a path. A dismissal is stored under a fingerprint, and
outlives the run that recorded it.
-/

namespace GraphIngest.Analysis

open Foundation Graph Text

/-- One lens of the adversarial panel, answered. -/
structure Vote where
  lens : Str
  refuted : Bool
  confidence : Str
  reason : Str
deriving DecidableEq, Repr

/-- What the panel noted on a finding. -/
structure Adjudication where
  votes : List Vote
  unverified : Bool := false
  refutes : Nat := 0
  total : Nat := 0
deriving DecidableEq, Repr

/-- A stored dismissal. -/
structure Dismissal where
  fingerprint : Str
  reason : Str
  ruledBy : Str
  ruledAt : Nat
deriving DecidableEq, Repr

/-- A finding on its way to the report. An empty text, a false flag and the number
zero stand for a member that is absent or null: nobody tells them apart. -/
structure FindingRow where
  kind : Str
  certainty : Str := []
  impact : Str := []
  severity : Str
  exploitable : Bool := false
  isDefect : Bool := false
  entry : Str := []
  sink : Str := []
  sinkKinds : List ExternalKind := []
  file : Str := []
  line : Int := 0
  pathIds : List NodeId := []
  pathFqns : List Str := []
  hops : Nat := 0
  reasoning : Str := []
  evidence : List Json := []
  sanitizedAt : Str := []
  needSourceFor : List Str := []
  source : Str := []
  fingerprint : Option Str := none
  dismissed : Bool := false
  dismissedBecause : Str := []
  adjudication : Option Adjudication := none
  previouslyDismissed : Option Dismissal := none
  reachableFromCount : Nat := 0
  alsoReachableFrom : List Str := []
  duplicatePaths : Nat := 0

/-- The dismissals of a repository, under their fingerprints. -/
abbrev Dismissals := Dict Str Dismissal

/-- The body hash of a function, empty when the store has none of it. -/
def CodeGraph.bodyHash (graph : CodeGraph) (id : NodeId) : Str :=
  match graph.store.nodes.get? id with
  | some _ => (graph.reading id).bodyHash.getD []
  | none => []

section Fingerprints

variable (digest : Str → Str) (graph : CodeGraph)

/-- The body hash that goes into a fingerprint: that of the last function of the
path. -/
def CodeGraph.sinkHash (finding : FindingRow) : Str :=
  match finding.pathIds.getLast? with
  | some id => graph.bodyHash id
  | none => []

/-- What is digested. -/
def CodeGraph.fingerprintKey (finding : FindingRow) : Str :=
  [Char.ofNat 0].intercalate
    [finding.kind, if finding.sink = [] then finding.file else finding.sink, graph.sinkHash finding]

/-- `fingerprint`. -/
def CodeGraph.fingerprint (finding : FindingRow) : Str := digest (graph.fingerprintKey finding)

/-- The fingerprint a finding carries, or else the one it gets. -/
def CodeGraph.fingerprintOf (finding : FindingRow) : Str :=
  match finding.fingerprint with
  | some (letter :: rest) => letter :: rest
  | _ => graph.fingerprint digest finding

/-- A finding with its fingerprint on it. -/
def CodeGraph.stamp (finding : FindingRow) : FindingRow :=
  { finding with fingerprint := some (graph.fingerprintOf digest finding) }

/-- `setdefault` of a fingerprint. -/
def CodeGraph.stampKilled (finding : FindingRow) : FindingRow :=
  { finding with
    fingerprint := some (finding.fingerprint.getD (graph.fingerprint digest finding)) }

end Fingerprints

section Dedupe

/-- What stands for a group: its leading finding, with the entry points of all. -/
def merged (group : List FindingRow) (lead : FindingRow) : FindingRow :=
  let entries := ((group.map FindingRow.entry).filter (· ≠ [])).dedup.insertionSort (· ≤ ·)
  { lead with
    reachableFromCount := entries.length
    alsoReachableFrom := (entries.filter (· ≠ lead.entry)).take 20
    duplicatePaths := group.length - 1 }

/-- The length by which the findings of a group are compared. -/
def pathLength (finding : FindingRow) : Nat := finding.pathIds.length

/-- The row of a group: that of a shortest path. -/
def collapse (group : List FindingRow) : Option FindingRow :=
  (group.insertionSort fun finding other => pathLength finding ≤ pathLength other).head?.map
    (merged group)

variable (digest : Str → Str) (graph : CodeGraph)

/-- `dedupe`. -/
def CodeGraph.dedupe (findings : List FindingRow) : List FindingRow :=
  (grouped (fun finding => finding.fingerprint.getD [])
    (findings.map (graph.stamp digest))).values.filterMap collapse

end Dedupe

section Ranking

/-- `_SEVERITY_ORDER`, with its default. -/
def severityOrder (severity : Str) : Nat :=
  let word := lower severity
  if word = "critical".toList then 0
  else if word = "high".toList then 1
  else if word = "medium".toList then 2
  else if word = "low".toList then 3
  else 4

/-- The key of a finding in the ranking. -/
def rankKey (finding : FindingRow) : Nat ×ₗ Int ×ₗ Nat ×ₗ Str ×ₗ Int :=
  toLex (severityOrder finding.severity, toLex (-(finding.reachableFromCount : Int),
    toLex (pathLength finding, toLex (finding.file, finding.line))))

/-- `rank`. -/
def rank (findings : List FindingRow) : List FindingRow :=
  findings.insertionSort fun finding other => rankKey finding ≤ rankKey other

end Ranking

section Dismissing

/-- A vote as it is written into a reason. -/
def Vote.dumps (vote : Vote) : Str :=
  let field (name value : Str) : Str := Json.dumpsText name ++ ": ".toList ++ value
  Char.ofNat 123 :: (", ".toList).intercalate
    [field "lens" (Json.dumpsText vote.lens),
     field "refuted" (if vote.refuted then "true".toList else "false".toList),
     field "confidence" (Json.dumpsText vote.confidence),
     field "reason" (Json.dumpsText vote.reason)] ++ [Char.ofNat 125]

/-- Why a finding was dismissed. -/
def reasonOf (finding : FindingRow) : Str :=
  if finding.dismissedBecause ≠ [] then finding.dismissedBecause
  else
    match finding.adjudication with
    | some { votes := vote :: rest, .. } =>
        ('[' :: (", ".toList).intercalate ((vote :: rest).map Vote.dumps) ++ [']']).take 600
    | _ => "dismissed"

/-- The dismissal to be stored of a finding. -/
def dismissalRow (ruledBy : Str) (now : Nat) (finding : FindingRow) : Option Dismissal :=
  match finding.dismissed, finding.fingerprint with
  | true, some (letter :: rest) =>
      some { fingerprint := letter :: rest, reason := reasonOf finding, ruledBy, ruledAt := now }
  | _, _ => none

/-- `save_dismissals`: the store after it, and how many rows it wrote. -/
def saveDismissals (dismissals : Dismissals) (findings : List FindingRow) (ruledBy : Str)
    (now : Nat) : Dismissals × Nat :=
  let rows := findings.filterMap (dismissalRow ruledBy now)
  (rows.foldl (fun stored row => stored.set row.fingerprint row) dismissals, rows.length)

/-- The dismissal that applies to a finding. -/
def priorOf (dismissals : Dismissals) (finding : FindingRow) : Option Dismissal :=
  dismissals.get? (finding.fingerprint.getD [])

/-- `apply_dismissals`. -/
def applyDismissals (findings : List FindingRow) (dismissals : Dismissals) :
    List FindingRow × List FindingRow :=
  (findings.filter fun finding => (priorOf dismissals finding).isNone,
   (findings.filter fun finding => (priorOf dismissals finding).isSome).map fun finding =>
     { finding with previouslyDismissed := priorOf dismissals finding })

end Dismissing

section Reporting

/-- The word under which an absent value is counted or tested. -/
def wordOr (default word : Str) : Str := if word = [] then default else word

/-- Whether the model that judged a finding named a kind, and a severity came of
it. -/
def classified (finding : FindingRow) : Bool :=
  wordOr "none" finding.kind != "none".toList && wordOr "none" finding.severity != "none".toList

/-- How many findings have each word. -/
def tally (word : FindingRow → Str) (findings : List FindingRow) : Dict Str Nat :=
  findings.foldl (fun counts finding =>
    counts.set (word finding) (counts.getD (word finding) 0 + 1)) Dict.empty

/-- The report. -/
structure Report where
  findings : List FindingRow
  reported : Nat
  dedupedAway : Nat
  suppressedByPriorDismissal : Nat
  killedThisRun : Nat
  dismissalsRecorded : Nat
  bySeverity : Dict Str Nat
  byKind : Dict Str Nat

/-- The report, with what it leaves behind: the stored dismissals, and the two lists
it was given, whose findings now carry fingerprints. -/
structure Reported where
  report : Report
  dismissals : Dismissals
  confirmed : List FindingRow
  killed : List FindingRow

variable (digest : Str → Str) (graph : CodeGraph)

/-- `report`. -/
def CodeGraph.report (now : Nat) (dismissals : Dismissals) (confirmed killed : List FindingRow)
    (persist : Bool) : Reported :=
  let kept := confirmed.filter classified
  let deduped := graph.dedupe digest kept
  let stamped := killed.map (graph.stampKilled digest)
  let (keep, suppressed) := applyDismissals deduped dismissals
  let ranked := rank keep
  let (stored, saved) :=
    if persist then saveDismissals dismissals stamped "adversarial_pass" now else (dismissals, 0)
  { report :=
      { findings := ranked
        reported := ranked.length
        dedupedAway := kept.length - deduped.length
        suppressedByPriorDismissal := suppressed.length
        killedThisRun := killed.length
        dismissalsRecorded := saved
        bySeverity := tally (fun finding => wordOr "none" finding.severity) ranked
        byKind := tally (fun finding => wordOr "other" finding.kind) ranked }
    dismissals := stored
    confirmed := confirmed.map fun finding =>
      if classified finding then graph.stamp digest finding else finding
    killed := stamped }

end Reporting

namespace CodeGraph

variable {digest : Str → Str} {graph : CodeGraph}

theorem fingerprintOf_eq_of_stamped {finding other : FindingRow}
    (same : graph.fingerprint digest other = graph.fingerprint digest finding)
    (stamped : other.fingerprint = some (graph.fingerprintOf digest finding)) :
    graph.fingerprintOf digest other = graph.fingerprintOf digest finding := by
  rw [fingerprintOf, stamped]
  cases found : graph.fingerprintOf digest finding with
  | cons letter rest => rfl
  | nil =>
      rw [fingerprintOf] at found
      split at found
      · cases found
      · exact same.trans found

/-- Stamping once more changes nothing. -/
theorem fingerprintOf_stamp (finding : FindingRow) :
    graph.fingerprintOf digest (graph.stamp digest finding) = graph.fingerprintOf digest finding :=
  fingerprintOf_eq_of_stamped rfl rfl

theorem stamp_stamp (finding : FindingRow) :
    graph.stamp digest (graph.stamp digest finding) = graph.stamp digest finding := by
  have again := @fingerprintOf_stamp digest graph finding
  unfold stamp at again ⊢
  rw [again]

/-- The findings of a list with a fingerprint. -/
def sharing (digest : Str → Str) (graph : CodeGraph) (findings : List FindingRow) (print : Str) :
    List FindingRow :=
  findings.filter fun finding => decide (graph.fingerprintOf digest finding = print)

theorem mem_sharing {findings : List FindingRow} {print : Str} {finding : FindingRow} :
    finding ∈ sharing digest graph findings print ↔
      finding ∈ findings ∧ graph.fingerprintOf digest finding = print := by
  rw [sharing, List.mem_filter, decide_eq_true_eq]

/-- The groups that are collapsed are the findings that share a fingerprint. -/
theorem mem_values_grouped {findings group : List FindingRow} :
    group ∈ (grouped (fun finding => finding.fingerprint.getD [])
      (findings.map (graph.stamp digest))).values ↔
      ∃ print, group = (sharing digest graph findings print).map (graph.stamp digest) ∧
        group ≠ [] := by
  have parts : ∀ print, (findings.map (graph.stamp digest)).filter
      (fun finding => decide (finding.fingerprint.getD [] = print)) =
        (sharing digest graph findings print).map (graph.stamp digest) := by
    intro print
    rw [List.filter_map]
    rfl
  constructor
  · intro listed
    obtain ⟨⟨print, _⟩, entry, rfl⟩ := List.mem_map.mp listed
    obtain ⟨whole, filled⟩ := mem_entries_grouped.mp entry
    exact ⟨print, whole.trans (parts print), filled⟩
  · rintro ⟨print, rfl, filled⟩
    exact List.mem_map.mpr ⟨(print, _), mem_entries_grouped.mpr ⟨(parts print).symm, filled⟩, rfl⟩

/-- A row is the leading finding of those with its fingerprint. -/
theorem mem_dedupe {findings : List FindingRow} {row : FindingRow} :
    row ∈ graph.dedupe digest findings ↔
      ∃ print lead, First pathLength lead (sharing digest graph findings print) ∧
        row = merged ((sharing digest graph findings print).map (graph.stamp digest))
          (graph.stamp digest lead) := by
  rw [dedupe, List.mem_filterMap]
  constructor
  · rintro ⟨group, listed, found⟩
    obtain ⟨print, rfl, _⟩ := mem_values_grouped.mp listed
    obtain ⟨image, front, rfl⟩ := Option.map_eq_some_iff.mp found
    obtain ⟨lead, leads, rfl⟩ := first_map_iff.mp (head?_insertionSort_iff.mp front)
    exact ⟨print, lead, leads, rfl⟩
  · rintro ⟨print, lead, leads, rfl⟩
    refine ⟨_, mem_values_grouped.mpr ⟨print, rfl, ?_⟩, Option.map_eq_some_iff.mpr ⟨_, ?_, rfl⟩⟩
    · exact List.ne_nil_of_mem (List.mem_map_of_mem leads.mem)
    · exact head?_insertionSort_iff.mpr (first_map_iff.mpr ⟨lead, leads, rfl⟩)

/-- The fingerprints of the rows are those of the findings. -/
theorem exists_mem_dedupe {findings : List FindingRow} {finding : FindingRow}
    (listed : finding ∈ findings) :
    ∃ row ∈ graph.dedupe digest findings,
      row.fingerprint = some (graph.fingerprintOf digest finding) := by
  have filled : sharing digest graph findings (graph.fingerprintOf digest finding) ≠ [] :=
    List.ne_nil_of_mem (mem_sharing.mpr ⟨listed, rfl⟩)
  obtain ⟨lead, leads⟩ := @exists_first _ pathLength _ filled
  refine ⟨_, mem_dedupe.mpr ⟨_, lead, leads, rfl⟩, ?_⟩
  exact congrArg some (mem_sharing.mp leads.mem).2

theorem exists_of_mem_dedupe {findings : List FindingRow} {row : FindingRow}
    (listed : row ∈ graph.dedupe digest findings) :
    ∃ lead ∈ findings, row.fingerprint = some (graph.fingerprintOf digest lead) := by
  obtain ⟨print, lead, leads, rfl⟩ := mem_dedupe.mp listed
  exact ⟨lead, (mem_sharing.mp leads.mem).1, rfl⟩

/-- Collapsing findings that carry their fingerprints gives the same rows. -/
theorem dedupe_map_stamp (findings : List FindingRow) :
    graph.dedupe digest (findings.map (graph.stamp digest)) = graph.dedupe digest findings := by
  rw [dedupe, List.map_map]
  have twice : graph.stamp digest ∘ graph.stamp digest = graph.stamp digest :=
    funext stamp_stamp
  rw [twice, dedupe]

/-- What is reported: the rows of the classified findings, but for those dismissed
before. -/
theorem mem_findings_report {now : Nat} {dismissals : Dismissals}
    {confirmed killed : List FindingRow} {persist : Bool} {row : FindingRow} :
    row ∈ (graph.report digest now dismissals confirmed killed persist).report.findings ↔
      row ∈ graph.dedupe digest (confirmed.filter classified) ∧
        priorOf dismissals row = none := by
  change row ∈ rank _ ↔ _
  rw [rank, List.mem_insertionSort]
  exact List.mem_filter.trans (and_congr_right fun _ => Option.isNone_iff_eq_none)

end CodeGraph

theorem dismissalRow_eq_some {ruledBy : Str} {now : Nat} {finding : FindingRow} {print : Str} :
    (∃ row, dismissalRow ruledBy now finding = some row ∧ row.fingerprint = print) ↔
      finding.dismissed = true ∧ print ≠ [] ∧ finding.fingerprint = some print := by
  rw [dismissalRow]
  constructor
  · rintro ⟨row, written, rfl⟩
    split at written
    · next dismissed carried =>
      cases written
      exact ⟨dismissed, List.cons_ne_nil _ _, carried⟩
    · cases written
  · intro ⟨dismissed, filled, carried⟩
    obtain ⟨letter, rest, rfl⟩ := List.exists_cons_of_ne_nil filled
    rw [dismissed, carried]
    exact ⟨_, rfl, rfl⟩

/-- After a save, the dismissals are those before it and those of the dismissed
findings. -/
theorem get?_saveDismissals_eq_none {dismissals : Dismissals} {findings : List FindingRow}
    {ruledBy : Str} {now : Nat} {print : Str} :
    (saveDismissals dismissals findings ruledBy now).1.get? print = none ↔
      dismissals.get? print = none ∧
        ∀ finding ∈ findings, ¬ (finding.dismissed = true ∧ print ≠ [] ∧
          finding.fingerprint = some print) := by
  have written := Dict.get?_foldl_set (fun _ : Dismissal => true) Dismissal.fingerprint id
    (findings.filterMap (dismissalRow ruledBy now)) dismissals print
  simp only [↓reduceIte, id_eq, Bool.true_and, Option.map_id] at written
  rw [saveDismissals, written, Option.or_eq_none_iff, List.find?_eq_none, and_comm]
  refine and_congr_right fun _ => ?_
  constructor
  · intro unwritten finding listed dismissed
    obtain ⟨row, made, same⟩ := dismissalRow_eq_some.mpr dismissed
    have absent := unwritten row
      (List.mem_reverse.mpr (List.mem_filterMap.mpr ⟨finding, listed, made⟩))
    exact absent (decide_eq_true same)
  · intro clear row listed same
    obtain ⟨finding, present, made⟩ := List.mem_filterMap.mp (List.mem_reverse.mp listed)
    exact clear finding present
      (dismissalRow_eq_some.mp ⟨row, made, of_decide_eq_true same⟩)

section Sample

/-- The digest of the one text that is digested here; any other text is told apart
by a letter that no digest has. -/
def openDigest (text : Str) : Str :=
  if text = "resource_leak".toList ++ Char.ofNat 0 :: "open".toList ++
      Char.ofNat 0 :: "a1".toList then "c11635be88483b06"
  else 'x' :: text

/-- The function that opens a connection. -/
def openId : NodeId := ⟨"open".toList, by decide⟩

/-- A graph of that function alone. -/
def openGraph : CodeGraph where
  repo := "demo"
  store := sampleStore [sampleFunction openId] []
  taint := fun _ => {}
  reading := fun _ => { bodyHash := some "a1".toList }

end Sample

end GraphIngest.Analysis
