import GraphIngest.Analysis.SingleFile
import GraphIngest.Analysis.SummaryReply
import GraphIngest.Analysis.Verdicts
import GraphIngest.Foundation.Fallible
import GraphIngest.Foundation.Grouping

/-! # Signals

What a summary says is projected onto scalars that a query can read, with the version of the
schema among them. They are derived when a summary is stored, and once more from the stored
summaries when the weights have changed. The version is also what tells a summary of an older
shape from one that need not be made again.
-/

namespace GraphIngest.Analysis

open Foundation Graph Text

section Reading

/-- `fields.get(..)` needs an object. -/
def fieldsOf : Json → Except Fault (List (Str × Json))
  | .object members => .ok members
  | _ => .error .attributeError

/-- What `for item in value` goes through. -/
def iterate : Json → Except Fault (List Json)
  | .array items => .ok items
  | .string text => .ok (text.map fun letter => .string [letter])
  | .object members => .ok (members.map fun field => .string field.1)
  | _ => .error .typeError

/-- Whether a value is a given word. -/
def isWord (word : Str) : Json → Bool
  | .string text => text == word
  | _ => false

/-- Whether a value is a word. -/
def isText : Json → Bool
  | .string _ => true
  | _ => false

/-- The words among some values. -/
def wordsOf (values : List Json) : List Str :=
  values.filterMap fun value => match value with
    | .string text => some text
    | _ => none

/-- What counts among some marks: `none` and what is empty do not. -/
def telling (value : Json) : Bool := value.truthy && !isWord "none" value

/-- A set of marks. -/
def markSet (found : Option Json) : Except Fault (List Json) := do
  let items ← iterate (orElse found (.array []))
  let kept := items.filter telling
  if kept.all hashable then .ok kept else .error .typeError

variable (pyStr : Json → Str) (sortNumbers : List Json → List Json)

/-- `str(value)`. -/
def shown : Json → Str
  | .string text => text
  | value => pyStr value

/-- `str(value or "")`. -/
def shownOr (found : Option Json) : Str := shown pyStr (orElse found (.string []))

/-- Words in order, each of them once. -/
def sortedWords (words : List Str) : List Str :=
  words.dedup.insertionSort fun word other => word ≤ other

/-- `sorted` on a set of marks: words and numbers have no order between them. -/
def sortedMarks (marks : List Json) : Except Fault (List Json) :=
  if marks.all isText then .ok ((sortedWords (wordsOf marks)).map .string)
  else if marks.any isText then .error .typeError
  else .ok (sortNumbers marks)

/-- `_bare_names`. -/
def bareNames (found : Option Json) : Except Fault (List Str) := do
  let values ← iterate (orElse found (.array []))
  let names := values.map fun value => strip (simpleName (beforeFirst '(' (shown pyStr value)))
  .ok (sortedWords (names.filter fun name => name ≠ []))

end Reading

section Deriving

/-- `SCHEMA_VERSION`. -/
def schemaVersion : Int := 5

/-- `RISK_WEIGHTS`. -/
def riskWeights : List (Str × Rat) :=
  [("builds_sql_dynamically".toList, 3),
   ("deserialization".toList, 3),
   ("spawns_process".toList, 3),
   ("parses_untrusted_input".toList, 2),
   ("manual_resource_handling".toList, 2),
   ("reflection".toList, 2),
   ("crypto".toList, 3 / 2),
   ("writes_filesystem".toList, 3 / 2),
   ("transaction_boundary".toList, 1),
   ("auth_check".toList, 1),
   ("authz_check".toList, 1),
   ("none".toList, 0)]

/-- `_IMPORTANT_THRESHOLD`. -/
def importantThreshold : Rat := 3

/-- The reasons that a mark of `touches` stands for. -/
def touchReasons : List (Str × Str) :=
  [("exec", "spawns_process"), ("deserialize", "deserialization"),
   ("reflection", "reflection"), ("file", "writes_filesystem")]

/-- The scalars of one summary. -/
structure Signals where
  schemaVersion : Int
  riskScore : Rat
  important : Bool
  reasons : List Str
  entry : Bool
  untrusted : Bool
  sourceKinds : List Json
  sanitizer : Bool
  auth : Bool
  validates : Bool
  taintParams : Nat
  sqlDynamic : Bool
  acquires : Bool
  leak : Bool
  confirmedLeak : Bool
  findings : Nat
  mayReturnNull : Bool
  nullCondition : Str
  returnsSentinel : Str
  unguardedCalls : List Str
  swallowedCalls : List Str
  releasedInFinally : Bool

/-- What is taken from a summary for its signals. -/
structure Observed where
  touches : List Json
  db : List (Str × Json)
  source : List (Str × Json)
  guards : List (Str × Json)
  strongFindings : Nat
  sourceKinds : List Json
  contracts : List (Str × Json)
  unguardedCalls : List Str
  swallowedCalls : List Str

/-- Whether a member of a block is there and counts as true. -/
def flag (block : List (Str × Json)) (name : Str) : Bool := truthOf (block.lookup name)

namespace Observed

variable (observed : Observed)

def auth : Bool := flag observed.guards "authenticates" || flag observed.guards "authorizes"

def reasons : List Str :=
  (if flag observed.db "sql_is_dynamic" then ["builds_sql_dynamically".toList] else []) ++
  (if flag observed.db "acquires" then ["manual_resource_handling".toList] else []) ++
  (touchReasons.filter fun touch => observed.touches.any (isWord touch.1)).map Prod.snd ++
  (if flag observed.source "reads_untrusted" then ["parses_untrusted_input".toList] else []) ++
  (if observed.auth then ["auth_check".toList] else [])

def taintParams : Nat := 0

def acquires : Bool := flag observed.db "acquires"

def unguarded : Bool := observed.acquires && !flag observed.db "released_in_finally"

def leak : Bool := observed.acquires && (observed.unguarded || flag observed.db "resources_leaked")

def confirmedLeak : Bool :=
  observed.unguarded && flag observed.db "throws_between_acquire_and_release"

/-- The score. Every summand is a whole number of halves, so that two places hold it. -/
def score : Rat :=
  let sum := (observed.reasons.map fun reason => (riskWeights.lookup reason).getD (1 / 2)).sum +
    (if flag observed.db "sql_is_dynamic" then 2 else 0) +
    (if observed.leak then 2 else 0) +
    (if observed.confirmedLeak then 1 else 0) +
    (if flag observed.source "reads_untrusted" then 3 / 2 else 0) +
    (if flag observed.source "is_entry_point" then 1 else 0) +
    (min taintParams 3 : Nat) + (min observed.strongFindings 3 : Nat) * 2
  if flag observed.guards "is_sanitizer" then sum / 2 else sum

/-- The signals of what was observed. -/
def signals (pyStr : Json → Str) : Signals where
  schemaVersion := Analysis.schemaVersion
  riskScore := observed.score
  important := decide (importantThreshold ≤ observed.score)
  reasons := observed.reasons.insertionSort fun reason other => reason ≤ other
  entry := flag observed.source "is_entry_point"
  untrusted := flag observed.source "reads_untrusted"
  sourceKinds := observed.sourceKinds
  sanitizer := flag observed.guards "is_sanitizer"
  auth := observed.auth
  validates := flag observed.guards "validates_input"
  taintParams := taintParams
  sqlDynamic := flag observed.db "sql_is_dynamic"
  acquires := observed.acquires
  leak := observed.leak
  confirmedLeak := observed.confirmedLeak
  findings := observed.strongFindings
  mayReturnNull := flag observed.contracts "may_return_null"
  nullCondition := shownOr pyStr (observed.contracts.lookup "null_condition".toList)
  returnsSentinel := shownOr pyStr (observed.contracts.lookup "returns_sentinel".toList)
  unguardedCalls := observed.unguardedCalls
  swallowedCalls := observed.swallowedCalls
  releasedInFinally := flag observed.db "released_in_finally"

end Observed

variable (pyStr : Json → Str) (sortNumbers : List Json → List Json)

/-- Whether the severity of a finding counts. -/
def strong (finding : List (Str × Json)) : Bool :=
  decide (severity (shownOr pyStr (finding.lookup "certainty".toList))
    (shownOr pyStr (finding.lookup "impact".toList)) ∈
      ["critical".toList, "high".toList, "medium".toList])

/-- The findings of a summary whose severity counts. -/
def strongFindings (found : Option Json) : Except Fault Nat := do
  let entries ← iterate (orElse found (.array []))
  let findings ← entries.mapM fieldsOf
  .ok (findings.countP (strong pyStr))

/-- A block of a summary. -/
def blockOf (members : List (Str × Json)) (name : Str) : Except Fault (List (Str × Json)) :=
  fieldsOf (orElse (members.lookup name) (.object []))

/-- What `derive_signals` looks at, in its order. -/
def observe (summary : Json) : Except Fault Observed := do
  let members ← fieldsOf summary
  let touches ← markSet (members.lookup "touches".toList)
  let db ← blockOf members "db"
  let source ← blockOf members "source"
  let guards ← blockOf members "guards"
  let strongFindings ← strongFindings pyStr (members.lookup "findings".toList)
  let kinds ← markSet (source.lookup "kinds".toList)
  let sourceKinds ← sortedMarks sortNumbers kinds
  let contracts ← blockOf members "contracts"
  let unguardedCalls ← bareNames pyStr (contracts.lookup "unguarded_calls".toList)
  let swallowedCalls ← bareNames pyStr (contracts.lookup "swallowed_exception_calls".toList)
  .ok ⟨touches, db, source, guards, strongFindings, sourceKinds, contracts, unguardedCalls,
    swallowedCalls⟩

/-- `derive_signals`. -/
def deriveSignals (summary : Json) : Except Fault Signals :=
  (observe pyStr sortNumbers summary).map fun observed => observed.signals pyStr

end Deriving

section Running

/-- Whether a value can be gone through. -/
def iterable : Json → Bool
  | .array _ => true
  | .string _ => true
  | .object _ => true
  | _ => false

/-- The values that going through a value meets. -/
def itemsIn : Json → List Json
  | .array items => items
  | .string text => text.map fun letter => .string [letter]
  | .object members => members.map fun field => .string field.1
  | _ => []

/-- The marks of a set that count. -/
def marksIn (found : Option Json) : List Json :=
  (itemsIn (orElse found (.array []))).filter telling

/-- Marks that a set can hold. -/
def MarksShaped (found : Option Json) : Prop :=
  iterable (orElse found (.array [])) = true ∧ ∀ mark ∈ marksIn found, hashable mark = true

/-- Marks that can be put in order: words only, or no word. -/
def Unmixed (marks : List Json) : Prop :=
  (∀ mark ∈ marks, isText mark = true) ∨ ∀ mark ∈ marks, isText mark = false

/-- Findings that are objects. -/
def FindingsShaped (found : Option Json) : Prop :=
  iterable (orElse found (.array [])) = true ∧
    ∀ entry ∈ itemsIn (orElse found (.array [])), isObject entry = true

/-- The shape of a summary, its `source` and its `contracts`, that the signals can be derived
from. -/
structure Scorable (members src joined : List (Str × Json)) : Prop where
  touches : MarksShaped (members.lookup "touches".toList)
  db : isObject (orElse (members.lookup "db".toList) (.object [])) = true
  source : orElse (members.lookup "source".toList) (.object []) = .object src
  guards : isObject (orElse (members.lookup "guards".toList) (.object [])) = true
  findings : FindingsShaped (members.lookup "findings".toList)
  kinds : MarksShaped (src.lookup "kinds".toList)
  unmixed : Unmixed (marksIn (src.lookup "kinds".toList))
  contracts : orElse (members.lookup "contracts".toList) (.object []) = .object joined
  unguarded : iterable (orElse (joined.lookup "unguarded_calls".toList) (.array [])) = true
  swallowed : iterable
    (orElse (joined.lookup "swallowed_exception_calls".toList) (.array [])) = true

theorem fieldsOf_eq_ok {value : Json} {members : List (Str × Json)} :
    fieldsOf value = .ok members ↔ value = .object members := by
  cases value <;> simp only [fieldsOf, reduceCtorEq, Except.ok.injEq, Json.object.injEq]

theorem runs_fieldsOf {value : Json} : Runs (fieldsOf value) ↔ isObject value = true := by
  cases value with
  | object members => exact iff_of_true (runs_ok members) rfl
  | _ => exact iff_of_false (not_runs_error _) Bool.noConfusion

theorem iterate_eq_ok {value : Json} {items : List Json} :
    iterate value = .ok items ↔ iterable value = true ∧ itemsIn value = items := by
  cases value <;> simp only [iterate, iterable, itemsIn, reduceCtorEq, Except.ok.injEq, true_and,
    Bool.false_eq_true, false_and]

theorem markSet_eq_ok {found : Option Json} {marks : List Json} :
    markSet found = .ok marks ↔ MarksShaped found ∧ marksIn found = marks := by
  refine bind_eq_ok.trans ?_
  simp only [iterate_eq_ok, and_assoc, exists_and_left, exists_eq_left', MarksShaped]
  apply and_congr_right
  intro _
  change (if (marksIn found).all hashable then Except.ok (marksIn found) else _) = _ ↔ _
  rw [← List.all_eq_true]
  split
  case isTrue held => simp only [held, Except.ok.injEq, true_and]
  case isFalse failed => simp only [failed, reduceCtorEq, Bool.false_eq_true, false_and]

variable {pyStr : Json → Str} {sortNumbers : List Json → List Json}

theorem runs_sortedMarks {marks : List Json} :
    Runs (sortedMarks sortNumbers marks) ↔ Unmixed marks := by
  unfold sortedMarks Unmixed
  rw [← List.all_eq_true]
  split
  case isTrue texts => exact iff_of_true (runs_ok _) (.inl texts)
  case isFalse mixed =>
    rw [or_iff_right mixed]
    split
    case isTrue some =>
      obtain ⟨mark, member, text⟩ := List.any_eq_true.mp some
      refine iff_of_false (not_runs_error _) fun none => ?_
      rw [none mark member] at text
      cases text
    case isFalse none =>
      refine iff_of_true (runs_ok _) fun mark member => ?_
      rw [Bool.eq_false_iff]
      exact fun text => none (List.any_eq_true.mpr ⟨mark, member, text⟩)

theorem runs_bareNames {found : Option Json} :
    Runs (bareNames pyStr found) ↔ iterable (orElse found (.array [])) = true := by
  refine runs_bind.trans ?_
  simp only [iterate_eq_ok, runs_ok, and_true, exists_and_left, exists_eq']

theorem runs_strongFindings {found : Option Json} :
    Runs (strongFindings pyStr found) ↔ FindingsShaped found := by
  refine runs_bind.trans ?_
  simp only [iterate_eq_ok, and_assoc, exists_and_left, exists_eq_left', FindingsShaped]
  apply and_congr_right
  intro _
  simp only [← runs_fieldsOf]
  rw [← runs_mapM]
  exact runs_map

/-- A summary that the signals can be derived from. -/
def ScorableSummary (summary : Json) : Prop :=
  ∃ members src joined, summary = .object members ∧ Scorable members src joined

/-- The signals of a summary can be derived exactly where it has the shape they need. -/
theorem runs_deriveSignals {summary : Json} :
    Runs (deriveSignals pyStr sortNumbers summary) ↔ ScorableSummary summary := by
  refine runs_map.trans ?_
  constructor
  · intro runs
    obtain ⟨members, whole, runs⟩ := runs_bind.mp runs
    obtain ⟨touches, touched, runs⟩ := runs_bind.mp runs
    obtain ⟨db, based, runs⟩ := runs_bind.mp runs
    obtain ⟨src, sourced, runs⟩ := runs_bind.mp runs
    obtain ⟨guards, guarded, runs⟩ := runs_bind.mp runs
    obtain ⟨strong, found, runs⟩ := runs_bind.mp runs
    obtain ⟨kinds, named, runs⟩ := runs_bind.mp runs
    obtain ⟨sorted, ordered, runs⟩ := runs_bind.mp runs
    obtain ⟨joined, agreed, runs⟩ := runs_bind.mp runs
    obtain ⟨unguarded, first, runs⟩ := runs_bind.mp runs
    obtain ⟨swallowed, second, runs⟩ := runs_bind.mp runs
    obtain ⟨shaped, rfl⟩ := markSet_eq_ok.mp named
    refine ⟨members, src, joined, fieldsOf_eq_ok.mp whole, ?_⟩
    exact
      { touches := (markSet_eq_ok.mp touched).1
        db := runs_fieldsOf.mp ⟨db, based⟩
        source := fieldsOf_eq_ok.mp sourced
        guards := runs_fieldsOf.mp ⟨guards, guarded⟩
        findings := runs_strongFindings.mp ⟨strong, found⟩
        kinds := shaped
        unmixed := runs_sortedMarks.mp ⟨sorted, ordered⟩
        contracts := fieldsOf_eq_ok.mp agreed
        unguarded := runs_bareNames.mp ⟨unguarded, first⟩
        swallowed := runs_bareNames.mp ⟨swallowed, second⟩ }
  · intro scorable
    obtain ⟨members, src, joined, whole, shaped⟩ := scorable
    obtain ⟨db, based⟩ := runs_fieldsOf.mpr shaped.db
    obtain ⟨guards, guarded⟩ := runs_fieldsOf.mpr shaped.guards
    obtain ⟨strong, found⟩ := (@runs_strongFindings pyStr _).mpr shaped.findings
    obtain ⟨sorted, ordered⟩ := (@runs_sortedMarks sortNumbers _).mpr shaped.unmixed
    obtain ⟨unguarded, first⟩ := (@runs_bareNames pyStr _).mpr shaped.unguarded
    obtain ⟨swallowed, second⟩ := (@runs_bareNames pyStr _).mpr shaped.swallowed
    refine runs_bind.mpr ⟨members, fieldsOf_eq_ok.mpr whole, ?_⟩
    refine runs_bind.mpr ⟨_, markSet_eq_ok.mpr ⟨shaped.touches, rfl⟩, ?_⟩
    refine runs_bind.mpr ⟨db, based, ?_⟩
    refine runs_bind.mpr ⟨src, fieldsOf_eq_ok.mpr shaped.source, ?_⟩
    refine runs_bind.mpr ⟨guards, guarded, ?_⟩
    refine runs_bind.mpr ⟨strong, found, ?_⟩
    refine runs_bind.mpr ⟨_, markSet_eq_ok.mpr ⟨shaped.kinds, rfl⟩, ?_⟩
    refine runs_bind.mpr ⟨sorted, ordered, ?_⟩
    refine runs_bind.mpr ⟨joined, fieldsOf_eq_ok.mpr shaped.contracts, ?_⟩
    refine runs_bind.mpr ⟨unguarded, first, ?_⟩
    refine runs_bind.mpr ⟨swallowed, second, ?_⟩
    exact runs_ok _

theorem schemaVersion_of_deriveSignals {summary : Json} {signals : Signals}
    (derived : deriveSignals pyStr sortNumbers summary = .ok signals) :
    signals.schemaVersion = schemaVersion := by
  obtain ⟨observed, _, rfl⟩ := map_eq_ok.mp derived
  rfl

end Running

end GraphIngest.Analysis
