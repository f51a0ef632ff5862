import GraphIngest.Pipeline.Run

/-! # The node list of the result

Four producers hand in nodes: extraction, the bytecode pass, the name resolver
and the package tree. The resolver's nodes reach the node list last but one, and
by then the sink has announced all of their ids: the list takes none of them, and
it is complete only where every node the references ask for was there before.
-/

namespace GraphIngest.Pipeline

open Foundation Text Graph External

namespace IndexRun

variable (run : IndexRun)

/-- Everything the four producers make, by id. -/
def producedIds : List NodeId :=
  (run.input.extraction.nodes ++ run.synthesized ++ run.resolution.extraNodes ++
    run.packageTree.nodes.entries).map Node.id

/-- The node list of the result has each produced id exactly once. -/
def NodesComplete : Prop :=
  (run.finalNodes.items.map Node.id).Nodup ∧
    ∀ id ∈ run.producedIds, id ∈ run.finalNodes.items.map Node.id

/-- Every node the references make the resolver synthesize is extracted or
synthesized by the bytecode pass already. -/
def NothingNewAsked : Prop :=
  ∀ ref ∈ run.input.extraction.refs, ∀ id,
    Resolve.synthesizedId run.resolveSettings run.corpus ref = some id →
      id ∈ run.input.extraction.nodes.map Node.id ∨ id ∈ run.synthesized.map Node.id

variable {run}

theorem mem_known_afterBytecode {id : NodeId} :
    id ∈ run.afterBytecode.known ↔ id ∈ run.afterBytecode.items.map Node.id := by
  rw [mem_afterBytecode, afterBytecode, Registry.mem_known_extend]
  rfl

/-- The sink has heard of every node the resolver synthesizes. -/
theorem mem_known_afterSink {id : NodeId} :
    id ∈ run.afterSink.known ↔
      id ∈ run.afterBytecode.items.map Node.id ∨
        id ∈ run.resolution.extraNodes.map Node.id := by
  have handed : run.resolution.handed.flatMap (fun chunk => chunk.declares.map Node.id) =
      run.resolution.extraNodes.map Node.id := by
    rw [← List.map_flatMap]
    exact congrArg (List.map Node.id) (Resolve.declares_handed run.resolveSettings run.corpus)
  rw [afterSink, Registry.mem_known_foldl_announce, handed, mem_known_afterBytecode]

/-- The resolver's nodes are all refused. -/
theorem items_afterResolve : run.afterResolve.items = run.afterBytecode.items := by
  have heard : ∀ node ∈ run.resolution.extraNodes, node.id ∈ run.afterSink.known :=
    fun node made => mem_known_afterSink.mpr (Or.inr (List.mem_map_of_mem made))
  rw [afterResolve, Registry.items_extend_of_known heard]
  exact Registry.items_foldl_announce _ _ run.afterBytecode

theorem mem_known_afterResolve {id : NodeId} :
    id ∈ run.afterResolve.known ↔ id ∈ run.afterSink.known := by
  rw [afterResolve, Registry.mem_known_extend]
  refine or_iff_left_of_imp ?_
  exact fun made => mem_known_afterSink.mpr (Or.inr made)

/-- The ids of the result: those before resolution, and the packages whose ids
nobody has announced. -/
theorem mem_finalNodes {id : NodeId} :
    id ∈ run.finalNodes.items.map Node.id ↔
      id ∈ run.afterBytecode.items.map Node.id ∨
        id ∈ run.packageTree.nodes.entries.map Node.id ∧ id ∉ run.afterSink.known := by
  rw [finalNodes, Registry.mem_names_extend, items_afterResolve, mem_known_afterResolve]

/-- **Completeness of the node list.** The list is complete exactly when the
references ask for no new node. -/
theorem nodesComplete_iff (run : IndexRun) : run.NodesComplete ↔ run.NothingNewAsked := by
  have asked : ∀ id, id ∈ run.resolution.extraNodes.map Node.id ↔
      ∃ ref ∈ run.input.extraction.refs,
        Resolve.synthesizedId run.resolveSettings run.corpus ref = some id :=
    Resolve.mem_extraNodes_iff run.resolveSettings run.corpus
  constructor
  · rintro ⟨_, complete⟩ ref listed id wanted
    have made : id ∈ run.resolution.extraNodes.map Node.id := (asked id).mpr ⟨ref, listed, wanted⟩
    have produced : id ∈ run.producedIds := by
      simp only [producedIds, List.map_append, List.mem_append]
      exact Or.inl (Or.inr made)
    rcases mem_finalNodes.mp (complete id produced) with before | ⟨_, unheard⟩
    · exact mem_afterBytecode.mp before
    · exact (unheard (mem_known_afterSink.mpr (Or.inr made))).elim
  · intro nothing
    have settled : ∀ id, id ∈ run.resolution.extraNodes.map Node.id →
        id ∈ run.afterBytecode.items.map Node.id := by
      intro id made
      obtain ⟨ref, listed, wanted⟩ := (asked id).mp made
      exact mem_afterBytecode.mpr (nothing ref listed id wanted)
    refine ⟨run.finalNodes.distinct, ?_⟩
    intro id produced
    simp only [producedIds, List.map_append, List.mem_append] at produced
    rw [mem_finalNodes]
    rcases produced with ((extracted | synthesized) | made) | tree
    · exact Or.inl (mem_afterBytecode.mpr (Or.inl extracted))
    · exact Or.inl (mem_afterBytecode.mpr (Or.inr synthesized))
    · exact Or.inl (settled id made)
    · by_cases heard : id ∈ run.afterSink.known
      · exact Or.inl ((mem_known_afterSink.mp heard).elim (fun before => before) (settled id))
      · exact Or.inr ⟨tree, heard⟩

/-- A class `demo.A` with an annotation `@Service`, no class files. -/
def annotatedExtraction : Extraction where
  nodes := [Bytecode.sampleClass "demo.A" "A.java"]
  edges := []
  refs :=
    [{ type := .annotatedWith, src := Bytecode.plainId "demo" "demo.A" "class",
       targetName := "Service", refFile := "A.java", refLine := 1 }]
  javaFilesSeen := 1
  distinct := by decide
  sourced := by decide +kernel
  structural := structural_nil
  raw := by decide

/-- The run over it. -/
def annotatedRun : IndexRun where
  input :=
    { options := sampleOptions, extraction := annotatedExtraction, classes := [], oracle := none }
  bytecode := none
  ran := rfl

/-- The node of `@Service` reaches the store but not the node list. -/
theorem annotated_incomplete : ¬ ∀ run : IndexRun, run.NodesComplete := by
  intro complete
  have produced : Bytecode.plainId "demo" "@Service" "annotation" ∈ annotatedRun.producedIds := by
    decide +kernel
  have listed := (complete annotatedRun).2 _ produced
  have absent : Bytecode.plainId "demo" "@Service" "annotation" ∉
      annotatedRun.finalNodes.items.map Node.id := by
    decide +kernel
  exact absent listed

end IndexRun

end GraphIngest.Pipeline
