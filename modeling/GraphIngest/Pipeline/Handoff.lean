import GraphIngest.Pipeline.Run

/-! # Handing calls over to a precise tier

The name resolver skips the calls of every file a precise tier owns. Owning is by
file: one parsed class charged to a file makes the bytecode pass own it, one
marker line makes javac own it. Scanning is by method: the bytecode pass scans
what a method of a parsed class picks, javac what its rows are keyed to. Between
the two, the calls of a method can fall out of the graph.
-/

namespace GraphIngest.Pipeline

open Foundation Text Graph External Bytecode

namespace IndexRun

variable (run : IndexRun)

section Statement

/-- The bytecode pass scanned the body of a function: a walked method of its own
is charged to it. -/
def BytecodeScans (node : Node) : Prop :=
  run.bytecode.isSome ∧
    ∃ body ∈ bodies run.input.bytecodeSettings (NodeIndex.build run.input.extraction.nodes)
        run.input.classes,
      callerNeedsSynthesis body.info body.method = false ∧ body.caller = node.id

/-- Javac scanned the body of a function: it attributed the file, its edges there
are used, and its rows for the function are keyed to this node. -/
def JavacScans (node : Node) : Prop :=
  node.file ∈ run.javacOwns ∧ node.file ∉ run.bytecodeOwns ∧
    (Javac.byKey run.afterBytecode.items).get? (node.fqn, (node.paramCount : Int)) = some node.id

/-- Every extracted Java function with a body in a skipped file was scanned by
one of the precise tiers. -/
def HandoffComplete (hasBody : NodeId → Prop) : Prop :=
  ∀ node ∈ run.input.extraction.nodes, node.label = .function → node.lang = .java →
    hasBody node.id → node.file ∈ run.skipCallFiles →
      run.BytecodeScans node ∨ run.JavacScans node

end Statement

section Condition

/-- A parsed class is charged to a node of the file, in a kept bytecode pass. -/
def ClassFound (file : Str) : Prop :=
  run.bytecode.isSome ∧
    ∃ info ∈ run.input.classes, ∃ owner,
      ownerOf (NodeIndex.build run.input.extraction.nodes) info = some owner ∧ owner.file ≠ [] ∧
        file ∈ spellings run.input.options.osSep owner.file

/-- A line of the oracle marks the file, in a kept javac run. -/
def FileMarked (file : Str) : Prop :=
  run.javac.2.available ∧ ∃ oracle ∈ run.input.oracle, ∃ line ∈ oracle.lines, ∃ path,
    Javac.parseLine line = .file path ∧ file ∈ spellings run.input.options.osSep path

/-- A method of a parsed class picks the function, in a kept bytecode pass. -/
def MethodFound (node : Node) : Prop :=
  run.bytecode.isSome ∧
    ∃ info ∈ run.input.classes,
      (ownerOf (NodeIndex.build run.input.extraction.nodes) info).isSome ∧
        ∃ method ∈ info.methods, shouldSkipMethod method = false ∧
          callerNeedsSynthesis info method = false ∧
            Picks run.input.extraction.nodes info.name method.name method.descriptor node

/-- The function is the first one listed with its fqn and arity. -/
def FirstOfKey (node : Node) : Prop :=
  ∃ first, run.afterBytecode.items.find? (fun other =>
      decide (other.label = .function ∧ other.fqn ≠ []) &&
        decide ((other.fqn, (other.paramCount : Int)) = (node.fqn, (node.paramCount : Int)))) =
    some first ∧ first.id = node.id

/-- Each function with a body whose file some parsed class or some marker line
reaches is itself reached: picked by a parsed method, or, where no parsed class
reaches the file, first of its fqn and arity. -/
def FunctionsReached (hasBody : NodeId → Prop) : Prop :=
  ∀ node ∈ run.input.extraction.nodes, node.label = .function → node.lang = .java →
    hasBody node.id → run.ClassFound node.file ∨ run.FileMarked node.file →
      run.MethodFound node ∨ ¬ run.ClassFound node.file ∧ run.FirstOfKey node

end Condition

variable {run}

/-- The files bytecode owns are those a parsed class reaches. -/
theorem mem_bytecodeOwns {file : Str} : file ∈ run.bytecodeOwns ↔ run.ClassFound file := by
  unfold bytecodeOwns ClassFound
  cases present : run.bytecode with
  | none => simp only [List.not_mem_nil, Option.isSome_none, Bool.false_eq_true, false_and]
  | some outcome =>
      rw [(kept_of_bytecode present).eq_keptOutcome, Option.isSome_some, and_iff_right rfl]
      exact mem_attributed

/-- The files javac owns are those a marker line reaches. -/
theorem mem_javacOwns {file : Str} : file ∈ run.javacOwns ↔ run.FileMarked file := by
  unfold javacOwns FileMarked javac
  split
  · next ran =>
      split
      · next available =>
          rw [and_iff_right available]
          cases wrote : run.input.oracle with
          | none =>
              rw [wrote] at available
              cases available
          | some oracle =>
              simp only [Option.mem_some_iff, exists_eq_left']
              exact Javac.mem_attributedFiles
      · next unavailable =>
          exact iff_of_false List.not_mem_nil fun found => unavailable found.1
  · exact iff_of_false List.not_mem_nil fun found => (nomatch found.1)

/-- The bytecode pass scans the functions its methods pick. -/
theorem bytecodeScans_iff {node : Node} (extracted : node ∈ run.input.extraction.nodes) :
    run.BytecodeScans node ↔ run.MethodFound node := by
  refine and_congr_right fun _ => ?_
  constructor
  · rintro ⟨body, walked, declared, charged⟩
    obtain ⟨picked, picks, same⟩ := picks_of_looked walked declared
    obtain rfl := List.inj_on_of_nodup_map run.input.extraction.distinct picks.key.1 extracted
      (same.trans charged)
    obtain ⟨member, owned, listed, called⟩ := mem_bodies_iff.mp walked
    refine ⟨body.info, member, by rw [owned]; rfl, body.method, listed, ?_, declared, picks⟩
    cases skipped : shouldSkipMethod body.method with
    | false => rfl
    | true =>
        rw [callerOf, if_pos skipped] at called
        cases called
  · rintro ⟨info, member, owned, method, listed, kept, declared, picks⟩
    obtain ⟨owner, owned⟩ := Option.isSome_iff_exists.mp owned
    exact ⟨⟨info, owner, method, node.id⟩, mem_bodies_iff.mpr
      ⟨member, owned, listed, id?_callerOf_of_picks kept declared picks⟩, declared, rfl⟩

/-- Javac scans, in the files it owns alone, the first function of each key. -/
theorem javacScans_iff {node : Node} :
    run.JavacScans node ↔
      run.FileMarked node.file ∧ ¬ run.ClassFound node.file ∧ run.FirstOfKey node := by
  unfold JavacScans FirstOfKey
  rw [mem_javacOwns, mem_bytecodeOwns, Javac.get?_byKey, Option.map_eq_some_iff]

/-- **The hand-off.** No function with a body is orphaned exactly when each one
whose file a precise tier reaches is itself reached. -/
theorem handoffComplete_iff (run : IndexRun) (hasBody : NodeId → Prop) :
    run.HandoffComplete hasBody ↔ run.FunctionsReached hasBody := by
  refine forall₂_congr fun node extracted => forall₃_congr fun _ _ _ => ?_
  rw [skipCallFiles, List.mem_append, mem_bytecodeOwns, mem_javacOwns, bytecodeScans_iff extracted,
    javacScans_iff]
  refine forall_congr' fun reached => or_congr_right ?_
  constructor
  · exact fun ⟨_, unfound, first⟩ => ⟨unfound, first⟩
  · exact fun ⟨unfound, first⟩ => ⟨reached.resolve_left unfound, unfound, first⟩

/-- `A.java` declares `A` with `f()` and `B` with `g()`. -/
def partlyCompiledExtraction : Extraction where
  nodes :=
    [sampleClass "demo.A" "A.java", sampleMethod "demo.A" "f" "()" [] "A.java" .method,
     sampleClass "demo.B" "A.java", sampleMethod "demo.B" "g" "()" [] "A.java" .method]
  edges := []
  refs := []
  javaFilesSeen := 1
  distinct := by decide +kernel
  sourced := sourced_nil _
  structural := structural_nil
  raw := raw_nil

/-- Only the class file of `A` is found. -/
def partlyCompiledInput : Input where
  options := { sampleOptions with bytecode := true }
  extraction := partlyCompiledExtraction
  classes :=
    [sampleInfo "demo.A" "java.lang.Object" []
      [{ name := "f", descriptor := "()V", accessFlags := 0x0001, startLine := 1, endLine := 1 }]]
  oracle := none

/-- The run over it. -/
def partlyCompiledRun : IndexRun where
  input := partlyCompiledInput
  bytecode := some (keptOutcome partlyCompiledInput.bytecodeSettings
    partlyCompiledInput.extraction.nodes partlyCompiledInput.classes)
  ran := Input.bytecodeStage_of_guards rfl (by decide +kernel)

/-- The file of `B.g()` is skipped, and nobody scans `B.g()`. -/
theorem partlyCompiled_orphans :
    ¬ ∀ (run : IndexRun) (hasBody : NodeId → Prop), run.HandoffComplete hasBody := by
  intro complete
  have skipped : "A.java".toList ∈ partlyCompiledRun.skipCallFiles := by decide +kernel
  have owned : "A.java".toList ∈ partlyCompiledRun.bytecodeOwns := by decide +kernel
  have unscanned : ∀ body ∈ bodies partlyCompiledInput.bytecodeSettings
      (NodeIndex.build partlyCompiledInput.extraction.nodes) partlyCompiledInput.classes,
        body.caller ≠ (sampleMethod "demo.B" "g" "()" [] "A.java" .method).id := by
    decide +kernel
  rcases complete partlyCompiledRun (fun _ => True)
    (sampleMethod "demo.B" "g" "()" [] "A.java" .method)
    (List.mem_cons_of_mem _ (List.mem_cons_of_mem _ (List.mem_cons_of_mem _ List.mem_cons_self)))
    rfl rfl trivial skipped with ⟨_, body, walked, _, charged⟩ | ⟨_, unowned, _⟩
  · exact unscanned body walked charged
  · exact unowned owned

end IndexRun

end GraphIngest.Pipeline
