import GraphIngest.Bytecode.Hierarchy
import Mathlib.Data.Rat.Lemmas

/-! # The bytecode pass

The scan, its two guards and the hierarchy stage put together. A pass in which
no class is of the repository, or in which too few methods match, is discarded
with all it collected; a kept pass returns its edges, the nodes it synthesized
and its claims. The emission facts of the stages are restated for the edges of a
kept pass.
-/

namespace GraphIngest.Bytecode

open Foundation Text Graph External

/-- Why a pass was discarded. -/
inductive Discard
  | noneInRepo (classesSeen : Nat)
  | stale (stats : MatchStats)
deriving DecidableEq, Repr

/-- What the pass reports: the discard reason if any, the files it attributed
and those whose headers it read, the matching counts, the override claims and
the taint facts. -/
structure Report where
  discarded : Option Discard
  attributedFiles : List Str
  stats : MatchStats
  hierarchyFiles : List Str := []
  authoritativeOverrideMethods : List NodeId := []
  emittedOverridePairs : List (NodeId × NodeId) := []
  marks : TaintMarks := {}

/-- Whether the pass is kept. -/
def Report.available (report : Report) : Bool := report.discarded.isNone

/-- The result of the pass. -/
structure Outcome where
  edges : List Edge
  synthesized : List Node
  report : Report

section Pass

variable (settings : Settings) (nodes : List Node) (classes : List ClassInfo)

/-- The state after the scan. -/
def scanned : Scan := scanClasses settings (NodeIndex.build nodes) classes

/-- The guard that discards a pass. -/
def discardReason : Option Discard :=
  let scan := scanned settings nodes classes
  if scan.classesInRepo = 0 then some (.noneInRepo classes.length)
  else if scan.stats.matchRate < settings.minMatchRate then some (.stale scan.stats)
  else none

/-- The override stage of a kept pass, over the log with the hierarchy edges. -/
def derived : Overrides :=
  let scan := scanned settings nodes classes
  overridesOf (NodeIndex.build nodes) scan.hierarchy scan.declaredMethods
    (scan.hierarchy.entries.foldl (emitHeader (NodeIndex.build nodes) scan.ownClassIds) scan.log)

/-- The result of a discarded pass: nothing but its counts and attributions. -/
def discardedOutcome (reason : Discard) : Outcome where
  edges := []
  synthesized := []
  report :=
    { discarded := some reason
      attributedFiles := (scanned settings nodes classes).attributed
      stats := (scanned settings nodes classes).stats }

/-- The result of a pass that passes both guards. -/
def keptOutcome : Outcome :=
  let scan := scanned settings nodes classes
  let overrides := derived settings nodes classes
  { edges := overrides.log.entries
    synthesized := scan.synthesized
    report :=
      { discarded := none
        attributedFiles := scan.attributed
        stats := scan.stats
        hierarchyFiles := hierarchyFiles (NodeIndex.build nodes) settings.osSep scan.hierarchy
          scan.ownClassIds
        authoritativeOverrideMethods := overrides.authoritative
        emittedOverridePairs := overrides.pairs
        marks := scan.marks } }

/-- The pass over the parsed classes. -/
def resolveJavaBytecode : Except ClassFileError Outcome :=
  match (scanned settings nodes classes).raised with
  | some error => .error error
  | none =>
      match discardReason settings nodes classes with
      | some reason => .ok (discardedOutcome settings nodes classes reason)
      | none => .ok (keptOutcome settings nodes classes)

/-- A pass that ran through and passed both guards. -/
def Kept (outcome : Outcome) : Prop :=
  resolveJavaBytecode settings nodes classes = .ok outcome ∧ outcome.report.available

/-- The scan emits no OVERRIDES edge. -/
theorem not_has_overrides_scanned (settings : Settings) (nodes : List Node)
    (classes : List ClassInfo) (src dst : NodeId) :
    ¬ (scanned settings nodes classes).log.Has (.overrides, src, dst) := by
  rw [scanned, has_scanClasses]
  rintro ⟨body, _, (⟨_, _, _, ⟨_, same⟩ | ⟨_, _, same⟩⟩ | ⟨access, _, _, _, same⟩) | ⟨_, same⟩⟩
  · cases same
  · cases same
  · simp only [accessType, Prod.mk.injEq] at same
    split at same <;> cases same.1
  · cases same

end Pass

namespace Kept

variable {settings : Settings} {nodes : List Node} {classes : List ClassInfo} {outcome : Outcome}

/-- A pass that ran through and passed both guards is kept. -/
theorem of_guards (passed : (scanned settings nodes classes).raised = none ∧
    discardReason settings nodes classes = none) :
    Kept settings nodes classes (keptOutcome settings nodes classes) := by
  refine ⟨?_, rfl⟩
  simp only [resolveJavaBytecode, passed]

/-- What a kept pass returns. -/
theorem eq_keptOutcome (kept : Kept settings nodes classes outcome) :
    outcome = keptOutcome settings nodes classes := by
  obtain ⟨ran, available⟩ := kept
  unfold resolveJavaBytecode at ran
  cases raised : (scanned settings nodes classes).raised with
  | some error => simp only [raised, reduceCtorEq] at ran
  | none =>
      simp only [raised] at ran
      cases guard : discardReason settings nodes classes with
      | some reason =>
          simp only [guard, Except.ok.injEq] at ran
          subst ran
          cases available
      | none =>
          simp only [guard, Except.ok.injEq] at ran
          exact ran.symm

/-- Some returned edge carries the key. -/
def HasEdge (outcome : Outcome) (key : EdgeKey) : Prop := ∃ edge ∈ outcome.edges, edge.key = key

/-- Beside the hierarchy edges, a kept pass returns the edges of the scan and
the overrides. -/
theorem hasEdge_iff (kept : Kept settings nodes classes outcome) {key : EdgeKey}
    (other : key.1 ≠ .extends ∧ key.1 ≠ .implements) :
    HasEdge outcome key ↔ (scanned settings nodes classes).log.Has key ∨
      ∃ binary, ∃ method ∈ (scanned settings nodes classes).declaredMethods.getD binary [],
        ∃ ancestor, Ancestor (scanned settings nodes classes).hierarchy binary ancestor ∧
          OverrideEmits (NodeIndex.build nodes) method ancestor key := by
  rw [HasEdge, kept.eq_keptOutcome]
  change (derived settings nodes classes).log.Has _ ↔ _
  unfold derived
  rw [has_overridesOf, has_emitHeaders_of_other other]

/-- The edges of instructions are those of the scan. -/
theorem hasEdge_iff_scanned (kept : Kept settings nodes classes outcome) {key : EdgeKey}
    (other : key.1 ≠ .extends ∧ key.1 ≠ .implements ∧ key.1 ≠ .overrides) :
    HasEdge outcome key ↔ (scanned settings nodes classes).log.Has key := by
  rw [kept.hasEdge_iff ⟨other.1, other.2.1⟩]
  refine or_iff_left ?_
  rintro ⟨_, _, _, _, _, _, _, _, rfl⟩
  exact other.2.2 rfl

/-- The CALLS edges of a kept pass are the picked calls of walked bodies. -/
theorem has_calls (kept : Kept settings nodes classes outcome) {src dst : NodeId} :
    HasEdge outcome (.calls, src, dst) ↔
      ∃ body ∈ bodies settings (NodeIndex.build nodes) classes, body.caller = src ∧
        ∃ inv ∈ body.method.invocations, inv.opcode ≠ .invokedynamic ∧
          ∃ node, Picks nodes inv.owner inv.name inv.descriptor node ∧ node.id = dst := by
  rw [kept.hasEdge_iff_scanned (by simp only [ne_eq, reduceCtorEq, not_false_eq_true, and_self]),
    scanned, Bytecode.has_calls]
  simp only [methodId_build_eq_some]

/-- The external edges of a kept pass are the recognised calls of walked
bodies. -/
theorem has_callsExternal (kept : Kept settings nodes classes outcome) {src dst : NodeId} :
    HasEdge outcome (.callsExternal, src, dst) ↔
      ∃ body ∈ bodies settings (NodeIndex.build nodes) classes, body.caller = src ∧
        ∃ inv ∈ body.method.invocations, inv.opcode ≠ .invokedynamic ∧
          (invocationKind settings inv).isSome ∧
            externalId settings.makeId inv.owner inv.name = dst := by
  rw [kept.hasEdge_iff_scanned (by simp only [ne_eq, reduceCtorEq, not_false_eq_true, and_self]),
    scanned, Bytecode.has_callsExternal]

/-- The READS and WRITES edges of a kept pass are the found accesses of walked
bodies. -/
theorem has_access (kept : Kept settings nodes classes outcome) {type : EdgeType}
    {src dst : NodeId} (accesses : type = .reads ∨ type = .writes) :
    HasEdge outcome (type, src, dst) ↔
      ∃ body ∈ bodies settings (NodeIndex.build nodes) classes, body.caller = src ∧
        ∃ access ∈ body.method.fieldAccesses, accessType access = type ∧
          ∃ node, FieldPicks nodes access.owner access.name node ∧ node.id = dst := by
  rw [kept.hasEdge_iff_scanned (by
    rcases accesses with rfl | rfl <;>
      simp only [ne_eq, reduceCtorEq, not_false_eq_true, and_self]), scanned,
    Bytecode.has_access accesses]
  simp only [fieldId_build_eq_some]

/-- The OVERRIDES edges of a kept pass join a method that can override, of a
class with a node of its own, to the method picked for it in a proper ancestor. -/
theorem has_overrides (kept : Kept settings nodes classes outcome) {src dst : NodeId} :
    HasEdge outcome (.overrides, src, dst) ↔
      ∃ body ∈ bodies settings (NodeIndex.build nodes) classes, body.caller = src ∧
        ((NodeIndex.build nodes).classId body.info.name).isSome ∧ canOverride body.method ∧
          ∃ ancestor, Ancestor (scanned settings nodes classes).hierarchy body.info.name ancestor ∧
            ∃ node, OverridePicks nodes ancestor body.method.name body.method.descriptor node ∧
              node.id = dst ∧ dst ≠ src := by
  rw [kept.hasEdge_iff (by simp only [ne_eq, reduceCtorEq, not_false_eq_true, and_self]),
    or_iff_right (not_has_overrides_scanned settings nodes classes src dst)]
  constructor
  · intro emitted
    obtain ⟨binary, method, remembered, ancestor, above, target, found, proper, same⟩ := emitted
    obtain ⟨body, walked, rfl, own, able, rfl⟩ := mem_declaredMethods.mp remembered
    obtain ⟨node, picked, rfl⟩ := overrideTarget_build_eq_some.mp found
    cases same
    exact ⟨body, walked, rfl, own, able, ancestor, above, node, picked, rfl, proper⟩
  · intro overriding
    obtain ⟨body, walked, rfl, own, able, ancestor, above, node, picked, rfl, proper⟩ := overriding
    exact ⟨body.info.name, (body.method, body.caller),
      mem_declaredMethods.mpr ⟨body, walked, rfl, own, able, rfl⟩, ancestor, above, node.id,
      overrideTarget_build_eq_some.mpr ⟨node, picked, rfl⟩, proper, rfl⟩

/-- The methods a kept pass claims to know all overrides of. -/
theorem mem_authoritative (kept : Kept settings nodes classes outcome) {id : NodeId} :
    id ∈ outcome.report.authoritativeOverrideMethods ↔
      ∃ body ∈ bodies settings (NodeIndex.build nodes) classes, body.caller = id ∧
        ((NodeIndex.build nodes).classId body.info.name).isSome ∧ canOverride body.method ∧
          ∀ ancestor, Ancestor (scanned settings nodes classes).hierarchy body.info.name ancestor →
            ((scanned settings nodes classes).hierarchy.get? ancestor).isSome ∨
              (NodeIndex.build nodes).classId ancestor = none := by
  have whole : ∀ binary, chainComplete (NodeIndex.build nodes)
      (scanned settings nodes classes).hierarchy
        (ancestorChain (scanned settings nodes classes).hierarchy binary) = true ↔
      ∀ ancestor, Ancestor (scanned settings nodes classes).hierarchy binary ancestor →
        ((scanned settings nodes classes).hierarchy.get? ancestor).isSome ∨
          (NodeIndex.build nodes).classId ancestor = none := by
    intro binary
    simp only [chainComplete, List.all_eq_true, Bool.or_eq_true, mem_ancestorChain,
      Option.isNone_iff_eq_none]
  rw [kept.eq_keptOutcome, keptOutcome, derived, Bytecode.mem_authoritative]
  constructor
  · rintro ⟨binary, complete, method, remembered, rfl⟩
    obtain ⟨body, walked, rfl, own, able, rfl⟩ := mem_declaredMethods.mp remembered
    exact ⟨body, walked, rfl, own, able, (whole _).mp complete⟩
  · rintro ⟨body, walked, rfl, own, able, complete⟩
    exact ⟨body.info.name, (whole _).mpr complete, (body.method, body.caller),
      mem_declaredMethods.mpr ⟨body, walked, rfl, own, able, rfl⟩, rfl⟩

end Kept

section Samples

/-- A readable stand-in for the hash in sample runs. -/
def plainId (repo fqn kind : Str) : NodeId :=
  ⟨'#' :: (repo ++ '|' :: kind ++ '|' :: fqn), List.cons_ne_nil _ _⟩

/-- Settings of sample runs: half of the methods must match, nothing is
catalogued. -/
def sampleSettings : Settings where
  repo := "demo"
  makeId := plainId
  minMatchRate := 1 / 2
  includeExternalOther := false
  osSep := '/'
  catalog := {}

/-- A Class node of a sample run. -/
def sampleClass (fqn file : Str) : Node where
  id := plainId "demo" fqn "class"
  label := .cls
  name := simpleName fqn
  fqn := fqn
  repo := "demo"
  kind := .cls
  lang := .java
  file := file
  extractor := "tree-sitter"

/-- A Function node of a sample run, its parameters as written in the source. -/
def sampleMethod (classFqn name params : Str) (types : List Str) (file : Str)
    (kind : NodeKind) : Node where
  id := plainId "demo" (methodFqn classFqn name ++ params) "method"
  label := .function
  name := name
  fqn := methodFqn classFqn name
  repo := "demo"
  kind := kind
  lang := .java
  file := file
  paramCount := types.length
  paramTypes := types
  extractor := "tree-sitter"

/-- The constructor the compiler adds to a class without one. -/
def sampleInit (superName : Str) : MethodInfo where
  name := "<init>"
  descriptor := "()V"
  accessFlags := 0x0001
  invocations := [⟨.invokespecial, superName, "<init>", "()V", 1⟩]
  startLine := 1
  endLine := 1

/-- A parsed class of a sample run, with its added constructor. -/
def sampleInfo (name superName : Str) (interfaces : List Str) (methods : List MethodInfo) :
    ClassInfo where
  name := name
  superName := superName
  interfaces := interfaces
  methods := sampleInit superName :: methods

end Samples

end GraphIngest.Bytecode
