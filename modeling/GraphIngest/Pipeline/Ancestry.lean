import GraphIngest.Pipeline.Run
import GraphIngest.Resolve.Ancestors

/-! # Class headers and the resolver's ancestors

The bytecode pass reads the supertypes of a class off its header, before the name
resolver runs; its hierarchy edges join the graph behind the resolver. The
resolver knows the supertypes that the sources name, and of these the ones that
its narrowing settles on a single class.
-/

namespace GraphIngest.Pipeline

open Foundation Text Graph

namespace IndexRun

variable (run : IndexRun)

/-- A class of the repository and a supertype in its parsed header that is one
too. -/
def HeaderSuper (cls super : NodeId) : Prop :=
  let index := Bytecode.NodeIndex.build run.input.extraction.nodes
  ∃ info ∈ run.input.classes, index.classId info.name = some cls ∧
    ∃ binary ∈ Bytecode.directAncestors (some (info.superName, info.interfaces)),
      index.classId binary = some super

/-- The resolver has a supertype and all above it among the ancestors of a class,
and finds there what one of them alone declares. -/
def ReachesResolution (cls super : NodeId) : Prop :=
  super ∈ run.corpus.ancestorChain cls ∧
    (∀ ancestor ∈ run.corpus.ancestorChain super, ancestor ∈ run.corpus.ancestorChain cls) ∧
      ∀ name, ∀ ancestor, ancestor = super ∨ ancestor ∈ run.corpus.ancestorChain super →
        (∀ other ∈ run.corpus.ancestorChain cls, other ≠ ancestor →
          run.corpus.methodsOfClass other name = []) →
          run.corpus.inheritedMembers [cls] name = run.corpus.methodsOfClass ancestor name

/-- With a kept bytecode pass, every header reaches resolution. -/
def HeadersReachResolution : Prop :=
  run.bytecode.isSome → ∀ cls super, run.HeaderSuper cls super → run.ReachesResolution cls super

/-- A class and the supertype that a reference of the sources settles on. -/
def WrittenSuper (cls super : NodeId) : Prop :=
  ∃ ref ∈ run.input.extraction.refs, run.corpus.NamesSuper ref cls super

/-- Every supertype in a header is another class, which the references of the
sources lead to and not back from. -/
def HeadersWritten : Prop :=
  run.bytecode.isSome → ∀ cls super, run.HeaderSuper cls super →
    super ≠ cls ∧ Relation.TransGen run.WrittenSuper cls super ∧
      ¬ Relation.TransGen run.WrittenSuper super cls

variable {run}

/-- No hierarchy edge is there yet when the resolver runs. -/
theorem super_eq_writtenSuper : run.corpus.Super = run.WrittenSuper := by
  funext cls super
  refine propext (Resolve.Corpus.mem_directSupers.trans (or_iff_right ?_))
  rintro ⟨type, typed, listed⟩
  obtain ⟨edge, extracted, same⟩ := List.mem_map.mp listed
  have kind : edge.type = type := congrArg Prod.fst same
  rcases run.input.extraction.structural edge extracted with contains | exposes | references
  · rcases typed with rfl | rfl <;> cases kind.symm.trans contains
  · rcases typed with rfl | rfl <;> cases kind.symm.trans exposes
  · rcases typed with rfl | rfl <;> cases kind.symm.trans references

/-- **Headers and resolution, one header.** -/
theorem reachesResolution_iff {cls super : NodeId} :
    run.ReachesResolution cls super ↔
      super ≠ cls ∧ Relation.TransGen run.WrittenSuper cls super ∧
        ¬ Relation.TransGen run.WrittenSuper super cls := by
  have chain : ∀ {start ancestor}, ancestor ∈ run.corpus.ancestorChain start ↔
      ancestor ≠ start ∧ Relation.TransGen run.WrittenSuper start ancestor := by
    intro start ancestor
    rw [Resolve.Corpus.mem_ancestorChain, super_eq_writtenSuper]
  constructor
  · rintro ⟨above, rest, _⟩
    obtain ⟨other, path⟩ := chain.mp above
    refine ⟨other, path, fun back => ?_⟩
    exact (chain.mp (rest cls (chain.mpr ⟨other.symm, back⟩))).1 rfl
  · rintro ⟨other, path, apart⟩
    have above : super ∈ run.corpus.ancestorChain cls := chain.mpr ⟨other, path⟩
    have rest : ∀ ancestor ∈ run.corpus.ancestorChain super,
        ancestor ∈ run.corpus.ancestorChain cls := by
      intro ancestor further
      have onward := (chain.mp further).2
      exact chain.mpr ⟨fun same => apart (same ▸ onward), path.trans onward⟩
    refine ⟨above, rest, fun name ancestor held only => ?_⟩
    refine Resolve.Corpus.inheritedMembers_of_only ?_ only
    rcases held with rfl | further
    · exact above
    · exact rest ancestor further

/-- **Headers and resolution.** The headers reach resolution exactly where the
sources alone lead to every supertype in them. -/
theorem headersReachResolution_iff (run : IndexRun) :
    run.HeadersReachResolution ↔ run.HeadersWritten :=
  imp_congr_right fun _ => forall_congr' fun _ => forall_congr' fun _ =>
    imp_congr_right fun _ => reachesResolution_iff

/-- `r.C` extends `p.Base`, written with its full name in the source; there is a
`q.Base` too. -/
def namesakeInput : Input where
  options := { sampleOptions with bytecode := true }
  extraction :=
    { nodes :=
        [Bytecode.sampleClass "p.Base" "p/Base.java",
         Bytecode.sampleMethod "p.Base" "load" "()" [] "p/Base.java" .method,
         Bytecode.sampleClass "q.Base" "q/Base.java",
         Bytecode.sampleClass "r.C" "r/C.java"]
      edges := []
      refs :=
        [{ type := .extends
           src := (Bytecode.sampleClass "r.C" "r/C.java").id
           targetName := "Base"
           kindHint := .type
           refFile := "r/C.java"
           refLine := 2 }]
      javaFilesSeen := 3
      distinct := by decide +kernel
      sourced := by decide +kernel
      structural := structural_nil
      raw := by decide +kernel }
  classes :=
    [Bytecode.sampleInfo "p.Base" "java.lang.Object" []
      [{ name := "load", descriptor := "()V", accessFlags := 0x0001, startLine := 3,
         endLine := 3 }],
     Bytecode.sampleInfo "r.C" "p.Base" [] []]
  oracle := none

/-- The run over it. -/
def namesakeRun : IndexRun where
  input := namesakeInput
  bytecode := some (Bytecode.keptOutcome namesakeInput.bytecodeSettings
    namesakeInput.extraction.nodes namesakeInput.classes)
  ran := Input.bytecodeStage_of_guards rfl (by decide +kernel)

/-- The header says which `Base` it is, and the resolver has no ancestor. -/
theorem namesake_unreached : ¬ ∀ run : IndexRun, run.HeadersReachResolution := by
  intro reach
  have above := (reach namesakeRun rfl (Bytecode.sampleClass "r.C" "r/C.java").id
    (Bytecode.sampleClass "p.Base" "p/Base.java").id
    ⟨_, List.mem_cons_of_mem _ List.mem_cons_self, by decide +kernel, "p.Base".toList,
      by decide +kernel, by decide +kernel⟩).1
  have alone :
      namesakeRun.corpus.ancestorChain (Bytecode.sampleClass "r.C" "r/C.java").id = [] := by
    decide +kernel
  rw [alone] at above
  cases above

end IndexRun

end GraphIngest.Pipeline
