import GraphIngest.Bytecode.ExternalFacts
import GraphIngest.Foundation.Batching
import GraphIngest.Foundation.Registry
import GraphIngest.Javac.Resolver
import GraphIngest.Pipeline.PackageTree
import GraphIngest.Resolve.ExternalFacts

/-! # A run of the index pipeline

The stages of a full build of one repository in their order: the bytecode pass
over the extracted nodes, javac for the files it left, the name resolver for
what neither owns, and the package tree. Two records are kept along the way: the
node list in memory with the ids heard of, and what the store has accepted.
-/

namespace GraphIngest.Pipeline

open Foundation Text Graph External

/-- The configuration of a run. Node ids are hashes, so that none of them starts
like the id of an acquire. -/
structure Options where
  repo : Str
  makeId : Str → Str → Str → NodeId
  catalog : Catalog
  osSep : Char
  bytecode : Bool
  javac : Bool
  bytecodeMinMatchRate : ℚ
  javacMinAttributionRate : ℚ
  javacSkipAbove : ℚ
  externalAllCalls : Bool
  polymorphicDispatch : Bool
  nameCap : Nat
  hashed : ∀ repo fqn kind, ¬ "acq:".toList <+: (makeId repo fqn kind).val

/-- What extraction and its merge hand over: nodes with distinct ids, structural
edges, and references of extracted nodes, together with the number of Java files
seen. -/
structure Extraction where
  nodes : List Node
  edges : List Edge
  refs : List RawRef
  javaFilesSeen : Nat
  distinct : (nodes.map Node.id).Nodup
  sourced : ∀ ref ∈ refs, ref.src ∈ nodes.map Node.id
  structural : ∀ edge ∈ edges,
    edge.type = .contains ∨ edge.type = .exposes ∨ edge.type = .references
  raw : ∀ ref ∈ refs, ref.type ≠ .callsExternal

/-- Without structural edges there is nothing to ask of them. -/
theorem structural_nil : ∀ edge ∈ ([] : List Edge),
    edge.type = .contains ∨ edge.type = .exposes ∨ edge.type = .references :=
  fun _ listed => (List.not_mem_nil listed).elim

theorem sourced_nil (ids : List NodeId) : ∀ ref ∈ ([] : List RawRef), ref.src ∈ ids :=
  fun _ listed => (List.not_mem_nil listed).elim

theorem raw_nil : ∀ ref ∈ ([] : List RawRef), ref.type ≠ .callsExternal :=
  fun _ listed => (List.not_mem_nil listed).elim

/-- The edges of the derive passes over the class hierarchy and over the SQL in
function bodies. -/
structure Derived where
  edges : List Edge := []
  typed : ∀ edge ∈ edges, edge.type = .overrides ∨ edge.type = .reads ∨ edge.type = .writes

/-- Without derived edges there is nothing to ask of them. -/
theorem derived_nil : ∀ edge ∈ ([] : List Edge),
    edge.type = .overrides ∨ edge.type = .reads ∨ edge.type = .writes :=
  fun _ listed => (List.not_mem_nil listed).elim

/-- Everything a run reads: the parsed class files that the bytecode pass is given, and what the
oracle wrote if it ran through. -/
structure Input where
  options : Options
  extraction : Extraction
  classes : List Bytecode.ClassInfo
  oracle : Option Javac.OracleOutput
  derived : Derived := { typed := derived_nil }

namespace Input

variable (input : Input)

def bytecodeSettings : Bytecode.Settings where
  repo := input.options.repo
  makeId := input.options.makeId
  minMatchRate := input.options.bytecodeMinMatchRate
  includeExternalOther := input.options.externalAllCalls
  osSep := input.options.osSep
  catalog := input.options.catalog

/-- Whether there is any Java. -/
def hasJava : Bool := input.extraction.javaFilesSeen ≠ 0

/-- The bytecode stage: its outcome when the pass ran and was kept. -/
def bytecodeStage : Except Bytecode.ClassFileError (Option Bytecode.Outcome) :=
  if input.options.bytecode && input.hasJava then
    match Bytecode.resolveJavaBytecode input.bytecodeSettings input.extraction.nodes
        input.classes with
    | .error error => .error error
    | .ok outcome => .ok (if outcome.report.available then some outcome else none)
  else .ok none

variable {input}

theorem bytecodeStage_of_guards (enabled : (input.options.bytecode && input.hasJava) = true)
    (passed : (Bytecode.scanned input.bytecodeSettings input.extraction.nodes
        input.classes).raised = none ∧
      Bytecode.discardReason input.bytecodeSettings input.extraction.nodes input.classes = none) :
    input.bytecodeStage = .ok (some (Bytecode.keptOutcome input.bytecodeSettings
      input.extraction.nodes input.classes)) := by
  have kept := Bytecode.Kept.of_guards passed
  rw [bytecodeStage, if_pos enabled, kept.1]
  rfl

end Input

/-- A run that no class file has stopped, with the outcome of its bytecode
stage. -/
structure IndexRun where
  input : Input
  bytecode : Option Bytecode.Outcome
  ran : input.bytecodeStage = .ok bytecode

/-- `index_repo`. -/
def indexRepo (input : Input) : Except Bytecode.ClassFileError IndexRun :=
  match ran : input.bytecodeStage with
  | .error error => .error error
  | .ok bytecode => .ok ⟨input, bytecode, ran⟩

/-- Every run is the one that `index_repo` makes of its input. -/
theorem indexRepo_input (run : IndexRun) : indexRepo run.input = .ok run := by
  obtain ⟨input, bytecode, ran⟩ := run
  unfold indexRepo
  split
  · next error stopped => cases stopped.symm.trans ran
  · next outcome finished =>
      cases finished.symm.trans ran
      rfl

namespace IndexRun

variable (run : IndexRun)

section Precise

/-- The nodes the bytecode pass synthesized. -/
def synthesized : List Node :=
  match run.bytecode with
  | some outcome => outcome.synthesized
  | none => []

def bytecodeEdges : List Edge :=
  match run.bytecode with
  | some outcome => outcome.edges
  | none => []

/-- `bytecode_owns`: the files the bytecode pass attributed. -/
def bytecodeOwns : List Str :=
  match run.bytecode with
  | some outcome => outcome.report.attributedFiles
  | none => []

/-- The part of the Java files that the bytecode pass attributed. -/
def bytecodeCoverage : ℚ :=
  if run.input.extraction.javaFilesSeen = 0 then 0
  else
    (((run.bytecodeOwns.map (replaceLetter run.input.options.osSep '/')).dedup.length : Nat) : ℚ) /
      (run.input.extraction.javaFilesSeen : ℚ)

/-- Whether bytecode covers enough to skip javac. -/
def skipJavac : Bool :=
  run.input.options.javacSkipAbove ≠ 0 &&
    decide (run.input.options.javacSkipAbove ≤ run.bytecodeCoverage)

/-- The node list once the bytecode pass has added its nodes. -/
def afterBytecode : Registry Node.id :=
  (Registry.ofItems run.input.extraction.nodes run.input.extraction.distinct).extend
    run.synthesized

/-- The javac stage. -/
def javac : List Edge × Javac.Report :=
  if run.input.options.javac && run.input.hasJava && !run.skipJavac then
    Javac.resolveJavaCalls run.input.options.osSep run.input.options.javacMinAttributionRate
      run.afterBytecode.items run.input.oracle
  else ([], {})

/-- The edges of javac outside the files that bytecode owns. -/
def javacEdges : List Edge :=
  run.javac.1.filter fun edge => !run.bytecodeOwns.contains edge.evidenceFile

/-- The files javac attributed, when its run was kept. -/
def javacOwns : List Str := if run.javac.2.available then run.javac.2.attributedFiles else []

/-- `skip_call_files`: the files whose calls a precise tier owns. -/
def skipCallFiles : List Str := run.bytecodeOwns ++ run.javacOwns

end Precise

section Names

def resolveSettings : Resolve.Settings where
  repo := run.input.options.repo
  makeId := run.input.options.makeId
  nameCap := run.input.options.nameCap
  catalog := run.input.options.catalog
  skipCallFiles := run.skipCallFiles

/-- What the name resolver works on. -/
def corpus : Resolve.Corpus where
  nodes := run.afterBytecode.items
  edges := run.input.extraction.edges.map Edge.key
  refs := run.input.extraction.refs

/-- The resolution run. -/
def resolution : Resolve.Resolution := Resolve.resolve run.resolveSettings run.corpus

end Names

section Nodes

/-- The sink hears of the ids of each slice it is handed. -/
def afterSink : Registry Node.id :=
  run.resolution.handed.foldl
    (fun registry chunk => registry.announce (chunk.declares.map Node.id)) run.afterBytecode

/-- The node list once the resolver has handed in its nodes. -/
def afterResolve : Registry Node.id := run.afterSink.extend run.resolution.extraNodes

/-- The package tree over the node list. -/
def packageTree : Tree :=
  buildPackageTree run.input.options.makeId run.input.options.repo run.afterResolve.items

/-- The node list of the result, which is the one validated. -/
def finalNodes : Registry Node.id := run.afterResolve.extend run.packageTree.nodes.entries

/-- The nodes created after the first write. -/
def lateNodes : List Node :=
  accepted Node.id run.afterSink.known run.resolution.extraNodes ++
    accepted Node.id run.afterResolve.known run.packageTree.nodes.entries

end Nodes

section Store

/-- Whether the store takes an edge: its type is kept and both ends are there. -/
def accepts (known : List NodeId) (edge : Edge) : Bool :=
  !Resolve.dropped edge.type && decide (edge.src ∈ known) && decide (edge.dst ∈ known)

/-- The nodes before resolution, with the structural edges. -/
def firstWrite : Chunk Node Edge where
  declares := run.afterBytecode.items
  links := run.input.extraction.edges

/-- The edges of the precise tiers. -/
def preciseWrite : Chunk Node Edge where
  links := run.bytecodeEdges ++ run.javacEdges

/-- What the last stages add. -/
def lateWrite : Chunk Node Edge where
  declares := run.lateNodes
  links := run.input.derived.edges ++ run.packageTree.edges.entries

/-- The writes of a run in their order, with the batches of the sink behind the
first one. -/
def writes : List (Chunk Node Edge) :=
  run.firstWrite :: run.resolution.handed ++ [run.preciseWrite, run.lateWrite]

/-- What the store has accepted after all writes. -/
def stored : Ledger NodeId Edge := run.writes.foldl (Ledger.write Node.id accepts) {}

/-- `synthesize_polymorphic_calls_cypher`: callers of an overridden method call
its overriders, where they do not do so already. -/
def polymorphicCalls : List Edge :=
  if run.input.options.polymorphicDispatch then
    let overrides := run.stored.links.filter fun edge => edge.type = .overrides
    let calls := run.stored.links.filter fun edge => edge.type = .calls
    overrides.flatMap fun override =>
      (calls.filter fun call => call.dst = override.dst ∧
        ∀ other ∈ calls, ¬ (other.src = call.src ∧ other.dst = override.src)).map fun call =>
          { type := .calls, src := call.src, dst := override.src, confidence := .ambiguous,
            origin := .derived, evidenceLine := call.evidenceLine,
            strategy := "polymorphic_dispatch" }
  else []

/-- The id of the acquire that a method with a connection to return stands for. -/
def acquireId (fqn : Str) : NodeId := ⟨"acq:".toList ++ fqn, by
  intro empty
  cases empty⟩

/-- `mark_inrepo_acquires_cypher`: each method that returns a connection acquires
it. -/
def acquires : List Edge :=
  (run.afterBytecode.items.filter fun node =>
    node.label = .function ∧ node.repo = run.input.options.repo ∧
      node.returnType ∈ connectionTypes.map Prod.snd).map fun node =>
    { type := .callsExternal, src := node.id, dst := acquireId node.fqn, origin := .derived,
      extractor := "cypher", strategy := "inrepo_return_type" }

/-- The edges of the finished graph, in the order of their writes. -/
def finalEdges : List Edge := run.stored.links ++ run.polymorphicCalls ++ run.acquires

end Store

section Taint

/-- The taint properties the bytecode stage stamps. -/
def stamp (id : NodeId) : FunctionTaint :=
  match run.bytecode with
  | some outcome => outcome.report.marks.stamp id
  | none => {}

/-- Whether an id is that of a function of the repository. -/
def isFunction (id : NodeId) : Bool :=
  run.afterBytecode.items.any fun node =>
    decide (node.id = id) && decide (node.label = .function) &&
      decide (node.repo = run.input.options.repo)

/-- The taint properties in the finished graph: the row of the resolver, where a
function has one, over the stamp. -/
def finalTaint (id : NodeId) : FunctionTaint :=
  match run.resolution.marks.get? id with
  | some mark => if run.isFunction id then mark.over (run.stamp id) else run.stamp id
  | none => run.stamp id

end Taint

variable {run}

/-- More ids that are there never make the store refuse an edge. -/
theorem growing_accepts : Ledger.Growing accepts := by
  intro known more edge included taken
  simp only [accepts, Bool.and_eq_true, decide_eq_true_eq] at taken ⊢
  exact ⟨⟨taken.1.1, included _ taken.1.2⟩, included _ taken.2⟩

/-- The nodes that a run writes, in order. -/
theorem declares_writes :
    run.writes.flatMap Chunk.declares = run.afterBytecode.items ++
      (run.resolution.handed.flatMap Chunk.declares ++ run.lateNodes) := by
  simp only [writes, firstWrite, preciseWrite, lateWrite, List.cons_append, List.flatMap_cons,
    List.flatMap_append, List.flatMap_nil, List.append_nil, List.nil_append]

theorem kept_of_bytecode {outcome : Bytecode.Outcome} (present : run.bytecode = some outcome) :
    Bytecode.Kept run.input.bytecodeSettings run.input.extraction.nodes run.input.classes
      outcome := by
  have ran := run.ran
  rw [present, Input.bytecodeStage] at ran
  split at ran
  · split at ran
    · cases ran
    · next result finished =>
        rw [Except.ok.injEq] at ran
        split at ran
        · next available =>
            rw [Option.some.injEq] at ran
            exact ⟨ran ▸ finished, ran ▸ available⟩
        · cases ran
  · cases ran

/-- The ids on the list before resolution. -/
theorem mem_afterBytecode {id : NodeId} :
    id ∈ run.afterBytecode.items.map Node.id ↔
      id ∈ run.input.extraction.nodes.map Node.id ∨ id ∈ run.synthesized.map Node.id := by
  rw [afterBytecode, Registry.mem_names_extend]
  by_cases extracted : id ∈ run.input.extraction.nodes.map Node.id
  · exact iff_of_true (Or.inl extracted) (Or.inl extracted)
  · exact or_congr_right (and_iff_left extracted)

end IndexRun

section Samples

/-- Settings of sample runs: every precise tier switched off. -/
def sampleOptions : Options where
  repo := "demo"
  makeId := Bytecode.plainId
  catalog := {}
  osSep := '/'
  bytecode := false
  javac := false
  bytecodeMinMatchRate := 1 / 2
  javacMinAttributionRate := 1 / 2
  javacSkipAbove := 98 / 100
  externalAllCalls := false
  polymorphicDispatch := false
  nameCap := 0
  hashed := fun _ _ _ starts => by
    obtain ⟨rest, same⟩ := starts
    cases same

/-- Two classes in a file each, with one method each. -/
def twoClasses : List Node :=
  [Bytecode.sampleClass "demo.A" "A.java",
   Bytecode.sampleMethod "demo.A" "f" "()" [] "A.java" .method,
   Bytecode.sampleClass "demo.B" "B.java",
   Bytecode.sampleMethod "demo.B" "g" "()" [] "B.java" .method]

theorem distinct_twoClasses : (twoClasses.map Node.id).Nodup := by decide +kernel

end Samples

end GraphIngest.Pipeline
