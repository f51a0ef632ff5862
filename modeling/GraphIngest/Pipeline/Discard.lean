import GraphIngest.Pipeline.BackgroundWriter
import GraphIngest.Pipeline.ClassRoots
import GraphIngest.Pipeline.Deriving
import GraphIngest.Pipeline.Handoff

/-! # A discarded bytecode pass

The report of the bytecode pass is filled before its guards and behind them, and stays
in reach of every later stage, discarded or not. The stages up to the resolver look at
it only when the pass is available; the override pass takes the methods and the pairs
to withhold out of it unasked. A run is followed here with its report as it is, up to
everything it hands to the store and returns.

A run whose pass is discarded is compared with one that finds no class files. The latter
may compile the sources instead; where it does not, the two do the same.
-/

namespace GraphIngest.Pipeline

open Foundation Text Graph External

/-- The bytecode pass as it came out, if it ran. -/
def Input.bytecodePass (input : Input) :
    Except Bytecode.ClassFileError (Option Bytecode.Outcome) :=
  if input.options.bytecode && input.hasJava then
    match Bytecode.resolveJavaBytecode input.bytecodeSettings input.extraction.nodes
        input.classes with
    | .error error => .error error
    | .ok outcome => .ok (some outcome)
  else .ok none

theorem Input.bytecodePass_of_guards {input : Input}
    (enabled : (input.options.bytecode && input.hasJava) = true)
    (passed : (Bytecode.scanned input.bytecodeSettings input.extraction.nodes
        input.classes).raised = none ∧
      Bytecode.discardReason input.bytecodeSettings input.extraction.nodes input.classes = none) :
    input.bytecodePass = .ok (some (Bytecode.keptOutcome input.bytecodeSettings
      input.extraction.nodes input.classes)) := by
  rw [Input.bytecodePass, if_pos enabled, (Bytecode.Kept.of_guards passed).1]

/-- A run with its bytecode pass as it came out, and with what the SQL patterns find. -/
structure ReportedRun where
  input : Input
  sql : SqlScan
  pass : Option Bytecode.Outcome
  ran : input.bytecodePass = .ok pass

/-- `index_repo`, up to its result. -/
def reportRepo (sql : SqlScan) (input : Input) : Except Bytecode.ClassFileError ReportedRun :=
  match ran : input.bytecodePass with
  | .error error => .error error
  | .ok pass => .ok ⟨input, sql, pass, ran⟩

/-- The stages that ask whether the pass is available see a kept pass or none. -/
theorem bytecodeStage_of_pass {input : Input} {pass : Option Bytecode.Outcome}
    (ran : input.bytecodePass = .ok pass) :
    input.bytecodeStage = .ok (pass.filter fun outcome => outcome.report.available) := by
  unfold Input.bytecodePass at ran
  unfold Input.bytecodeStage
  split at ran
  · next enabled =>
      rw [if_pos enabled]
      split at ran
      · cases ran
      · next outcome finished =>
          obtain rfl := (Except.ok.inj ran).symm
          simp only [finished, Option.filter_some]
  · next disabled =>
      rw [if_neg disabled]
      obtain rfl := (Except.ok.inj ran).symm
      rfl

/-- `_RETAINED_EDGE_TYPES`. -/
def retainedTypes : List EdgeType := [.contains, .extends, .implements, .annotatedWith, .exposes]

/-- What `index_repo` does and returns: its calls of the store in order, the taint
properties on the nodes first written, the taint rows of the resolver, the files whose
calls the resolver skipped, the coverage returned and the nodes validated. -/
structure Effects where
  calls : List StoreCall
  stamps : List (NodeId × FunctionTaint)
  rows : Dict NodeId Resolve.ResolverMark
  skipCallFiles : List Str
  withheld : Withheld
  coverage : Dict EdgeType Resolve.Coverage
  validated : List Node

namespace IndexRun

variable (run : IndexRun)

/-- `all_edges` when the derive passes begin: of the resolver's edges only the retained
ones are left. -/
def edgesInMemory : List Edge :=
  run.input.extraction.edges ++
    ((run.resolution.handed.flatMap Chunk.links).filter fun edge =>
      retainedTypes.contains edge.type) ++
    run.bytecodeEdges ++ run.javacEdges

/-- The edges of the derive passes, in order. -/
def deriveEdges (sql : SqlScan) (withheld : Withheld) : List Edge :=
  deriveOverrides withheld run.afterResolve.items run.edgesInMemory ++
    run.packageTree.edges.entries ++ deriveSqlLinks sql run.finalNodes.items

/-- The edges of the precise passes, which wait for the end of the resolver. -/
def pending : List Edge := run.bytecodeEdges ++ run.javacEdges

/-- The calls of the store behind the resolver. -/
def closingCalls (sql : SqlScan) (withheld : Withheld) : List StoreCall :=
  (if run.pending.isEmpty then [] else [.writeEdges run.pending]) ++
    [.writeNodes run.lateNodes, .writeEdges (run.deriveEdges sql withheld)]

/-- The calls of the store around what the background writer does. -/
def storeCalls (sql : SqlScan) (withheld : Withheld) (written : List StoreCall) :
    List StoreCall :=
  .writeNodes run.afterBytecode.items :: (written ++ run.closingCalls sql withheld)

/-- What a run does when some overrides are withheld. -/
def effects (sql : SqlScan) (withheld : Withheld) : Effects where
  calls := run.storeCalls sql withheld
    ((writerJob run.input.extraction.edges run.resolution.handed).items.flatMap WriteItem.calls)
  stamps := run.afterBytecode.items.map fun node => (node.id, run.stamp node.id)
  rows := run.resolution.marks
  skipCallFiles := run.skipCallFiles
  withheld := withheld
  coverage :=
    if run.pending.isEmpty then run.resolution.coverage
    else run.resolution.coverage.filter fun type _ => type ≠ .calls
  validated := run.finalNodes.items

end IndexRun

namespace ReportedRun

variable (run : ReportedRun)

/-- The run as the stages see it that ask whether the pass is available. -/
def toRun : IndexRun where
  input := run.input
  bytecode := run.pass.filter fun outcome => outcome.report.available
  ran := bytecodeStage_of_pass run.ran

/-- What the override pass is told to withhold: what the report holds, available or not. -/
def withheld : Withheld :=
  match run.pass with
  | some outcome =>
      { methods := outcome.report.authoritativeOverrideMethods
        pairs := outcome.report.emittedOverridePairs }
  | none => {}

/-- What the run does. -/
def effects : Effects := run.toRun.effects run.sql run.withheld

end ReportedRun

section Discarded

/-- One of the guards discards the pass over some class files. -/
def Discards (input : Input) : Prop :=
  (Bytecode.scanned input.bytecodeSettings input.extraction.nodes input.classes).raised = none ∧
    (Bytecode.discardReason input.bytecodeSettings input.extraction.nodes input.classes).isSome

/-- No class file at all is discarded, too. -/
theorem discards_nil (input : Input) : Discards { input with classes := [] } := ⟨rfl, rfl⟩

/-- A discarded pass comes out with nothing but its counts and attributions. -/
theorem pass_of_discards {input : Input} (discards : Discards input) :
    ∃ pass, input.bytecodePass = .ok pass ∧ ∀ outcome ∈ pass,
      ∃ reason, outcome = Bytecode.discardedOutcome input.bytecodeSettings input.extraction.nodes
        input.classes reason := by
  obtain ⟨quiet, stopped⟩ := discards
  obtain ⟨reason, found⟩ := Option.isSome_iff_exists.mp stopped
  unfold Input.bytecodePass
  split
  · refine ⟨some (Bytecode.discardedOutcome input.bytecodeSettings input.extraction.nodes
      input.classes reason), ?_, ?_⟩
    · rw [Bytecode.resolveJavaBytecode, quiet, found]
    · intro outcome held
      exact ⟨reason, (Option.some.inj held).symm⟩
  · exact ⟨none, rfl, fun outcome held => by cases held⟩

/-- A run whose pass was discarded holds no claim of it: no edge, no node, no owned file, no
taint property, and nothing to withhold. -/
structure ReportedRun.ClaimsNothing (run : ReportedRun) : Prop where
  edges : run.toRun.bytecodeEdges = []
  nodes : run.toRun.synthesized = []
  owns : run.toRun.bytecodeOwns = []
  stamps : ∀ id, run.toRun.stamp id = {}
  withheld : run.withheld = {}

/-- With the pass discarded, a run is one without a kept pass that withholds nothing. -/
theorem exists_run_of_discards (sql : SqlScan) {input : Input} (discards : Discards input) :
    ∃ run : ReportedRun, ∃ ran : input.bytecodeStage = .ok none,
      reportRepo sql input = .ok run ∧ run.ClaimsNothing ∧
        run.effects = (IndexRun.mk input none ran).effects sql {} := by
  obtain ⟨pass, ran, outcomes⟩ := pass_of_discards discards
  have dropped : (pass.filter fun outcome => outcome.report.available) = none := by
    cases pass with
    | none => rfl
    | some outcome =>
        obtain ⟨reason, rfl⟩ := outcomes outcome rfl
        rfl
  have stage := bytecodeStage_of_pass ran
  let run : ReportedRun := ⟨input, sql, pass, ran⟩
  have bare : run.toRun = ⟨input, none, dropped ▸ stage⟩ := by
    simp only [run, ReportedRun.toRun, dropped]
  have open' : run.withheld = {} := by
    unfold ReportedRun.withheld
    cases pass with
    | none => rfl
    | some outcome =>
        obtain ⟨reason, rfl⟩ := outcomes outcome rfl
        rfl
  refine ⟨run, dropped ▸ stage, ?_, ⟨?_, ?_, ?_, ?_, open'⟩, ?_⟩
  · unfold reportRepo
    split
    · next error raised => cases raised.symm.trans ran
    · next other finished =>
        cases finished.symm.trans ran
        rfl
  · rw [bare]; rfl
  · rw [bare]; rfl
  · rw [bare]; rfl
  · intro id; rw [bare]; rfl
  · rw [ReportedRun.effects, bare, open']

/-- The class files are read for the pass only. -/
theorem effects_classes {input : Input} (classes : List Bytecode.ClassInfo) (sql : SqlScan)
    (withheld : Withheld) (bytecode : Option Bytecode.Outcome)
    (ran : input.bytecodeStage = .ok bytecode)
    (other : ({ input with classes := classes } : Input).bytecodeStage = .ok bytecode) :
    (IndexRun.mk { input with classes := classes } bytecode other).effects sql withheld =
      (IndexRun.mk input bytecode ran).effects sql withheld := rfl

/-- Runs with discarded passes do the same, whatever class files they were discarded for. -/
theorem effects_of_both_discarded (sql : SqlScan) {input : Input} {classes : List Bytecode.ClassInfo}
    (discards : Discards input) (discardsToo : Discards { input with classes := classes }) :
    ∃ run other : ReportedRun, reportRepo sql input = .ok run ∧
      reportRepo sql { input with classes := classes } = .ok other ∧ run.ClaimsNothing ∧
        run.effects = other.effects := by
  obtain ⟨run, ran, finished, silent, does⟩ := exists_run_of_discards sql discards
  obtain ⟨other, ranToo, ended, _, acts⟩ := exists_run_of_discards sql discardsToo
  exact ⟨run, other, finished, ended, silent, does.trans (acts.trans
    (effects_classes classes sql {} none ran ranToo)).symm⟩

/-- **Discarded pass.** When a guard discards the bytecode pass, the run holds no claim of it.
It does what it does when no class files are found, unless then the sources are compiled to
classes that the guards let through. -/
theorem effects_of_discards (sql : SqlScan) (base : Input) {search : ClassSearch}
    (discards : Discards (search.input base)) :
    ∃ run : ReportedRun, reportRepo sql (search.input base) = .ok run ∧ run.ClaimsNothing ∧
      (Discards (search.foundNothing.input base) → ∃ bare : ReportedRun,
        reportRepo sql (search.foundNothing.input base) = .ok bare ∧
          run.effects = bare.effects) := by
  obtain ⟨run, _, finished, silent, _⟩ := exists_run_of_discards sql discards
  refine ⟨run, finished, silent, fun idle => ?_⟩
  obtain ⟨same, bare, ran, ended, _, does⟩ := effects_of_both_discarded sql discards idle
  cases ran.symm.trans finished
  exact ⟨bare, ended, does⟩

/-- Without class files and without a compilation there is nothing but to discard the pass. -/
theorem discards_foundNothing (base : Input) {search : ClassSearch}
    (idle : search.configured ≠ [] ∨ search.compiler.enabled = false ∨
      search.compiler.compileTree = none) : Discards (search.foundNothing.input base) := by
  have bare : search.foundNothing.input base = { base with classes := [] } :=
    congrArg (fun classes => ({ base with classes := classes } : Input))
      (ClassSearch.classes_foundNothing base idle)
  rw [bare]
  exact discards_nil base

/-- No function has SQL in its text. -/
def noSql : SqlScan where
  found := fun _ => []
  typed := fun _ => List.forall_mem_nil _

/-- The class file of `A` with one method. -/
def compiledA (method : Str) : List UInt8 :=
  Bytecode.Format.ClassFile.encode {
    minorVersion := 0
    majorVersion := 52
    constants := [Bytecode.Format.textConstant "demo/A", .classInfo 1,
      Bytecode.Format.textConstant "java/lang/Object", .classInfo 3,
      Bytecode.Format.textConstant method, Bytecode.Format.textConstant "()V"]
    accessFlags := 0x21
    thisClass := 2
    superClass := 4
    interfaces := []
    fields := []
    methods := [⟨⟨1, 5, 6⟩, []⟩]
    attributes := [] }

/-- The class file of an older `A`, whose only method is gone, is found; the sources compile to
the `A` of today. -/
def staleSearch (autocompile : Bool) : ClassSearch where
  configured := []
  discovered := [.directory [("demo/A.class", compiledA "gone")]]
  compiler :=
    { enabled := autocompile
      javacAvailable := true
      sources := ["A.java"]
      ran := some ⟨0, [("demo/A.class", compiledA "f")]⟩ }

/-- The pass over the older `A` is discarded for its match rate, and where nothing is compiled the
run does what it does without it. -/
theorem effects_staleSearch :
    ∃ run bare : ReportedRun,
      reportRepo noSql ((staleSearch false).input IndexRun.partlyCompiledInput) = .ok run ∧
        reportRepo noSql ((staleSearch false).foundNothing.input IndexRun.partlyCompiledInput) =
          .ok bare ∧ run.ClaimsNothing ∧ run.effects = bare.effects := by
  have discards : Discards ((staleSearch false).input IndexRun.partlyCompiledInput) :=
    ⟨by decide +kernel, by decide +kernel⟩
  obtain ⟨run, ran, silent, alike⟩ := effects_of_discards noSql IndexRun.partlyCompiledInput discards
  obtain ⟨bare, ended, does⟩ := alike (discards_foundNothing _ (.inr (.inl rfl)))
  exact ⟨run, bare, ran, ended, silent, does⟩

/-- With the toggle on, the older `A` keeps the sources from being compiled: the class file of
today's `A` would have been kept, and its file skipped by the resolver. -/
theorem stale_outweighs_compiled :
    ¬ ∀ (sql : SqlScan) (base : Input) (search : ClassSearch), Discards (search.input base) →
      ∃ run bare : ReportedRun, reportRepo sql (search.input base) = .ok run ∧
        reportRepo sql (search.foundNothing.input base) = .ok bare ∧
          run.effects = bare.effects := by
  intro alike
  have stale : (reportRepo noSql ((staleSearch true).input IndexRun.partlyCompiledInput)).toOption.map
      (fun run => run.effects.skipCallFiles.isEmpty) = some true := by decide +kernel
  have compiled : (reportRepo noSql
      ((staleSearch true).foundNothing.input IndexRun.partlyCompiledInput)).toOption.map
      (fun run => run.effects.skipCallFiles.isEmpty) = some false := by decide +kernel
  obtain ⟨run, bare, ran, ended, does⟩ := alike noSql IndexRun.partlyCompiledInput (staleSearch true)
    ⟨by decide +kernel, by decide +kernel⟩
  rw [ran] at stale
  rw [ended] at compiled
  have same := congrArg (fun effects : Effects => some effects.skipCallFiles.isEmpty) does
  cases stale.symm.trans (same.trans compiled)

end Discarded

end GraphIngest.Pipeline
