import GraphIngest.Analysis.Findings

/-! # The adversarial panel

Every lens that answers votes on a finding, and the finding stands unless half of the
votes refute it. A finding on which no lens answered stands as well. The panel writes
on a finding and removes nothing from it that a fingerprint is made of.
-/

namespace GraphIngest.Analysis

open Foundation

/-- The votes that refute. -/
def refutes (votes : List Vote) : Nat := votes.countP Vote.refuted

/-- Whether the votes kill a finding. -/
def killedBy (killOnTie : Bool) (votes : List Vote) : Bool :=
  !votes.isEmpty && (decide (votes.length < 2 * refutes votes) ||
    killOnTie && decide (2 * refutes votes = votes.length))

/-- What is noted on a finding. -/
def adjudicationOf (votes : List Vote) : Adjudication :=
  if votes = [] then { votes := [], unverified := true }
  else { votes, refutes := refutes votes, total := votes.length }

/-- A finding that stands. -/
def confirm (votes : List Vote) (finding : FindingRow) : FindingRow :=
  { finding with adjudication := some (adjudicationOf votes) }

/-- A finding that falls, with the reasons of those who refuted it. -/
def kill (votes : List Vote) (finding : FindingRow) : FindingRow :=
  { finding with
    adjudication := some (adjudicationOf votes)
    dismissed := true
    dismissedBecause :=
      (("; ".toList).intercalate ((votes.filter Vote.refuted).map Vote.reason)).take 600 }

/-- What the panel makes of findings. -/
structure Ruling where
  confirmed : List FindingRow
  killed : List FindingRow

/-- `run_adversarial_pass`. -/
def runAdversarialPass (votes : FindingRow → List Vote) (killOnTie : Bool)
    (findings : List FindingRow) : Ruling :=
  let live := findings.filter fun finding => !finding.dismissed
  { confirmed := (live.filter fun finding => !killedBy killOnTie (votes finding)).map
      fun finding => confirm (votes finding) finding
    killed := findings.filter FindingRow.dismissed ++
      (live.filter fun finding => killedBy killOnTie (votes finding)).map
        fun finding => kill (votes finding) finding }

/-- What stands is a finding with a note on it. -/
theorem exists_of_mem_confirmed {votes : FindingRow → List Vote} {killOnTie : Bool}
    {findings : List FindingRow} {row : FindingRow}
    (stands : row ∈ (runAdversarialPass votes killOnTie findings).confirmed) :
    ∃ finding ∈ findings, row = confirm (votes finding) finding := by
  obtain ⟨finding, kept, rfl⟩ := List.mem_map.mp stands
  exact ⟨finding, (List.mem_filter.mp (List.mem_filter.mp kept).1).1, rfl⟩

end GraphIngest.Analysis
