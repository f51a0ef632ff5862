import GraphIngest.Analysis.Contract
import GraphIngest.Analysis.Findings
import GraphIngest.Analysis.Subjects

/-! # Verdicts

A model answers with one verdict for each path or function it was shown, in a closed
shape that has a certainty and an impact and no severity. The path pass computes the
severity of a finding from the two. The neighbourhood pass reads it off the verdict.
-/

namespace GraphIngest.Analysis

open Foundation Graph Text

section Shape

/-- The kinds of a verdict. -/
def verdictKinds : List Str :=
  ["sql_injection", "resource_leak", "command_injection", "path_traversal", "deserialization",
   "xss", "none"]

/-- One anchor of a verdict. -/
def evidenceSchema : Schema :=
  record
    [("function".toList, .string),
     ("line".toList, .integer),
     ("what".toList, .string)]

/-- `_PATH_VERDICT`. -/
def pathVerdictSchema : Schema :=
  record
    [("path_index".toList, .integer),
     ("exploitable".toList, .boolean),
     ("is_defect".toList, .boolean),
     ("kind".toList, .enum verdictKinds),
     ("certainty".toList, .enum certainty),
     ("impact".toList, .enum impact),
     ("sanitized_at".toList, .string),
     ("reasoning".toList, .string),
     ("evidence".toList, .array evidenceSchema),
     ("need_source_for".toList, .array .string)]

end Shape

section Reading

/-- A member that is a text or absent. -/
def textOf : Option Json → Str
  | some (.string text) => text
  | _ => []

/-- A member that is a list or absent. -/
def itemsOf : Option Json → List Json
  | some (.array items) => items
  | _ => []

/-- `bool(member)`. -/
def truthOf : Option Json → Bool
  | some value => value.truthy
  | none => false

/-- A member that passes for a whole number: a truth value does. -/
def wholeOf : Option Json → Option Int
  | some (.int value) => some value
  | some (.bool value) => some (if value then 1 else 0)
  | _ => none

end Reading

section Validation

/-- What a response is refused for. -/
inductive VerdictFault
  | notAnObject
  | missingVerdicts
  | entryNotAnObject
  | indexOutOfRange (found : Option Json) (count : Nat)
  | duplicateIndex (index : Int)

/-- The check of one verdict after another. -/
def checkVerdicts (count : Nat) : List Int → List Json → Except VerdictFault Unit
  | _, [] => .ok ()
  | seen, .object members :: rest =>
      match wholeOf (members.lookup "path_index".toList) with
      | some index =>
          if 0 ≤ index ∧ index < count then
            if index ∈ seen then .error (.duplicateIndex index)
            else checkVerdicts count (index :: seen) rest
          else .error (.indexOutOfRange (members.lookup "path_index".toList) count)
      | none => .error (.indexOutOfRange (members.lookup "path_index".toList) count)
  | _, _ :: _ => .error .entryNotAnObject

/-- `validate_verdicts`. -/
def validateVerdicts (payload : Json) (count : Nat) : Except VerdictFault (List Json) :=
  match payload with
  | .object members =>
      match members.lookup "verdicts".toList with
      | some (.array rows) => (checkVerdicts count [] rows).map fun _ => rows
      | _ => .error .missingVerdicts
  | _ => .error .notAnObject

end Validation

section Severities

/-- `SEVERITY`. -/
def severityTable : List ((Str × Str) × Str) :=
  [(("demonstrated", "exposure"), "critical"),
   (("demonstrated", "integrity"), "high"),
   (("demonstrated", "correctness"), "high"),
   (("demonstrated", "quality"), "low"),
   (("probable", "exposure"), "high"),
   (("probable", "integrity"), "medium"),
   (("probable", "correctness"), "medium"),
   (("probable", "quality"), "low"),
   (("speculative", "exposure"), "medium"),
   (("speculative", "integrity"), "low"),
   (("speculative", "correctness"), "low"),
   (("speculative", "quality"), "low")]

/-- `priority.severity`. -/
def severity (certainty impact : Str) : Str :=
  (severityTable.lookup (lower certainty, lower impact)).getD "none"

end Severities

section Findings

/-- `path_pass._to_finding`. -/
def pathFinding (verdict : Json) (path : JudgedPath) : FindingRow :=
  let found : FindingRow :=
    { kind := textOf (verdict.get? "kind")
      certainty := textOf (verdict.get? "certainty")
      impact := textOf (verdict.get? "impact")
      severity := severity (textOf (verdict.get? "certainty")) (textOf (verdict.get? "impact"))
      exploitable := truthOf (verdict.get? "exploitable")
      isDefect := truthOf (verdict.get? "is_defect")
      reasoning := textOf (verdict.get? "reasoning")
      evidence := itemsOf (verdict.get? "evidence")
      sanitizedAt := textOf (verdict.get? "sanitized_at")
      needSourceFor := (itemsOf (verdict.get? "need_source_for")).map fun item => textOf item }
  match path with
  | .sink row =>
      { found with
        entry := row.entryFqn
        sink := row.sinkFqn
        sinkKinds := row.sinkKinds
        file := row.sinkFile
        line := row.sinkLine
        pathIds := row.ids
        pathFqns := row.fqns
        hops := row.hops }
  | .leak row =>
      { found with
        entry := row.acquireFqn
        sink := row.acquireFqn
        file := row.acquireFile
        line := row.acquireLine
        pathIds := row.ids
        pathFqns := row.fqns
        hops := row.hops }

/-- `neighborhood._to_finding`. -/
def neighborhoodFinding (verdict : Json) (target : Target) : FindingRow where
  kind := textOf (verdict.get? "kind")
  severity := textOf (verdict.get? "severity")
  entry := target.fqn
  sink := target.fqn
  file := target.file
  line := target.line
  pathIds := [target.id]
  pathFqns := [target.fqn]
  hops := 0
  exploitable := truthOf (verdict.get? "exploitable")
  isDefect := truthOf (verdict.get? "is_defect")
  reasoning := textOf (verdict.get? "reasoning")
  evidence := itemsOf (verdict.get? "evidence")
  needSourceFor := (itemsOf (verdict.get? "need_source_for")).map fun item => textOf item
  source := "neighborhood"

/-- The finding of a verdict. -/
def Subject.finding (verdict : Json) : Subject → FindingRow
  | .path judged => pathFinding verdict judged
  | .neighborhood target => neighborhoodFinding verdict target

end Findings

section Replies

/-- A reply that a pass accepted, about some of its work: its verdicts are of the shape
that was asked for, and each has the index of one thing that was shown. -/
structure Reply {ι : Type} (work : List ι) where
  kept : List ι
  shown : ∀ item ∈ kept, item ∈ work
  verdicts : List Json
  conforming : ∀ verdict ∈ verdicts, pathVerdictSchema.conforms verdict = true
  accepted : validateVerdicts (.object [("verdicts".toList, .array verdicts)]) kept.length =
    .ok verdicts

variable {ι : Type} {work : List ι}

/-- What a verdict is about: the item at its index. -/
def Reply.item? (reply : Reply work) (verdict : Json) : Option ι :=
  (wholeOf (verdict.get? "path_index")).bind fun index => reply.kept[index.toNat]?

/-- The verdicts with what they are about. -/
def Reply.judged (reply : Reply work) : List (Json × ι) :=
  reply.verdicts.filterMap fun verdict =>
    (reply.item? verdict).map fun item => (verdict, item)

/-- Whether a verdict makes a finding. -/
def carriedForward (verdict : Json) : Bool :=
  truthOf (verdict.get? "is_defect") || truthOf (verdict.get? "exploitable") ||
    truthOf (verdict.get? "need_source_for")

/-- The findings of replies, in the order in which they arrived. -/
def findingsOfReplies (finding : Json → ι → FindingRow) (replies : List (Reply work)) :
    List FindingRow :=
  (replies.flatMap Reply.judged).filterMap fun entry =>
    if carriedForward entry.1 then some (finding entry.1 entry.2) else none

end Replies

end GraphIngest.Analysis
