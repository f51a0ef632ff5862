import GraphIngest.Pipeline.StoredGraph

/-! # External facts in the finished graph

A call typed outside the repository leaves two facts: an edge to the target when
the classifier recognises it, and a taint property of its caller when the catalog
knows it. The name resolver records both for the calls it sees, the bytecode pass
for the bodies it walks, javac neither. What the finished graph holds for a call
is traced back here to the references and the class files.
-/

namespace GraphIngest.Pipeline

open Foundation Text Graph External

namespace IndexRun

variable (run : IndexRun)

section Statement

/-- Two type names that denote the same type by their simple names. -/
def SameSimpleName (owner type : Str) : Prop :=
  afterLast '$' (simpleName owner) = afterLast '$' (simpleName type)

/-- A node that stands for the target of a call: the method under an owner of
the same simple name. -/
def IsTarget (ref : RawRef) (id : NodeId) : Prop :=
  ∃ owner, SameSimpleName owner ref.recvType ∧
    id = externalId run.input.options.makeId owner ref.targetName

/-- A call of a type outside the repository. -/
def ForeignRef (ref : RawRef) : Prop :=
  ref ∈ run.input.extraction.refs ∧ ref.type = .calls ∧ run.corpus.externalReceiver ref = true

/-- Whether the classifier recognises a call. -/
def Recognised (ref : RawRef) : Prop :=
  (classifyCall run.input.options.catalog ref.recvType ref.targetName []).isSome

def CatalogEntry (ref : RawRef) (entry : Entry) : Prop :=
  ∃ positions, classifyTaint run.input.options.catalog ref.recvType ref.targetName =
    some (entry, positions)

/-- The finished graph keeps the facts of every call typed outside the
repository. -/
def KeepsExternalFacts : Prop :=
  ∀ ref, run.ForeignRef ref →
    (run.Recognised ref → ∃ edge ∈ run.finalEdges, edge.type = .callsExternal ∧
      edge.src = ref.src ∧ run.IsTarget ref edge.dst) ∧
    ∀ entry, run.CatalogEntry ref entry → (run.finalTaint ref.src).Shows entry

end Statement

section Condition

/-- A call instruction of a body that a kept bytecode pass charges to a function. -/
def CompiledCall (caller : NodeId) (inv : Bytecode.Invocation) : Prop :=
  run.bytecode.isSome ∧
    ∃ body ∈ Bytecode.bodies run.input.bytecodeSettings
        (Bytecode.NodeIndex.build run.input.extraction.nodes) run.input.classes,
      body.caller = caller ∧ inv ∈ body.method.invocations ∧ inv.opcode ≠ .invokedynamic

/-- An unskipped reference of the caller, or a compiled call charged to it, goes
to the target and is recognised. -/
def TargetCovered (ref : RawRef) : Prop :=
  (∃ other ∈ run.input.extraction.refs,
      Resolve.RecognisedCall run.resolveSettings run.corpus other ∧ other.src = ref.src ∧
        run.IsTarget ref (Resolve.targetId run.resolveSettings other)) ∨
    ∃ inv, run.CompiledCall ref.src inv ∧
      (Bytecode.invocationKind run.input.bytecodeSettings inv).isSome ∧
        run.IsTarget ref (externalId run.input.options.makeId inv.owner inv.name)

/-- A compiled call charged to the caller is catalogued alike. -/
def CompiledAlike (caller : NodeId) (entry : Entry) : Prop :=
  ∃ inv, run.CompiledCall caller inv ∧
    ∃ hit ∈ classifyTaint run.input.options.catalog inv.owner inv.name, Alike hit.1 entry

/-- An unskipped reference of the caller is in the catalog. -/
def HasRow (caller : NodeId) : Prop :=
  ∃ other ∈ run.input.extraction.refs, other.src = caller ∧
    ∃ fact, Resolve.CataloguedCall run.resolveSettings run.corpus other fact

/-- An unskipped reference of the caller is catalogued alike. -/
def SourceAlike (caller : NodeId) (entry : Entry) : Prop :=
  ∃ other ∈ run.input.extraction.refs, other.src = caller ∧
    ∃ fact, Resolve.CataloguedCall run.resolveSettings run.corpus other fact ∧
      Resolve.ShowsInRow other fact entry

/-- The entry is matched by the unskipped references of the caller where the
catalog knows any of them, and by its compiled calls otherwise; of the compiled
calls the sanitizer flag stays in either case. -/
def EntryCovered (caller : NodeId) (entry : Entry) : Prop :=
  run.isFunction caller = true ∧ run.SourceAlike caller entry ∨
    (run.isFunction caller = true → run.HasRow caller → entry.role = .sanitizer) ∧
      run.CompiledAlike caller entry

/-- Every call typed outside the repository is covered, its target and its
entry. -/
def FactsCovered : Prop :=
  ∀ ref, run.ForeignRef ref → (run.Recognised ref → run.TargetCovered ref) ∧
    ∀ entry, run.CatalogEntry ref entry → run.EntryCovered ref.src entry

end Condition

variable {run}

section Edges

/-- An external edge of the store comes from a recognised reference or from the
bytecode pass. -/
theorem origin_of_external {edge : Edge} (external : edge.type = .callsExternal)
    (member : edge ∈ run.stored.links) :
    (∃ ref ∈ run.input.extraction.refs, Resolve.RecognisedCall run.resolveSettings run.corpus ref ∧
        edge = Resolve.externalLink run.resolveSettings ref) ∨ edge ∈ run.bytecodeEdges := by
  rcases origin_of_mem_stored member with structural | resolved | bytecode | javac | derived | tree
  · rcases run.input.extraction.structural edge structural with same | same | same <;>
      cases external.symm.trans same
  · exact Or.inl (Resolve.exists_of_external_link run.input.extraction.raw external resolved)
  · exact Or.inr bytecode
  · cases external.symm.trans (calls_of_mem_javacEdges javac)
  · rcases run.input.derived.typed edge derived with same | same | same <;>
      cases external.symm.trans same
  · cases external.symm.trans tree

/-- The compiled calls of a kept pass, body by body. -/
theorem exists_compiledCall_iff (kept : run.bytecode.isSome) {caller : NodeId}
    {holds : Bytecode.Invocation → Prop} :
    (∃ inv, run.CompiledCall caller inv ∧ holds inv) ↔
      ∃ body ∈ Bytecode.bodies run.input.bytecodeSettings
          (Bytecode.NodeIndex.build run.input.extraction.nodes) run.input.classes,
        body.caller = caller ∧
          ∃ inv ∈ body.method.invocations, inv.opcode ≠ .invokedynamic ∧ holds inv := by
  constructor
  · rintro ⟨inv, ⟨_, body, walked, charged, called, static⟩, held⟩
    exact ⟨body, walked, charged, inv, called, static, held⟩
  · rintro ⟨body, walked, charged, inv, called, static, held⟩
    exact ⟨inv, ⟨kept, body, walked, charged, called, static⟩, held⟩

theorem not_compiledCall (discarded : run.bytecode = none) {caller : NodeId}
    {inv : Bytecode.Invocation} : ¬ run.CompiledCall caller inv := by
  intro called
  have kept := called.1
  rw [discarded] at kept
  cases kept

/-- The external edges of the bytecode pass are the recognised compiled calls. -/
theorem exists_bytecodeEdge_iff {src dst : NodeId} :
    (∃ edge ∈ run.bytecodeEdges, edge.key = (.callsExternal, src, dst)) ↔
      ∃ inv, run.CompiledCall src inv ∧
        (Bytecode.invocationKind run.input.bytecodeSettings inv).isSome ∧
          externalId run.input.options.makeId inv.owner inv.name = dst := by
  unfold bytecodeEdges
  cases present : run.bytecode with
  | none =>
      simp only [List.not_mem_nil, false_and, exists_false, not_compiledCall present]
  | some outcome =>
      rw [exists_compiledCall_iff (present ▸ rfl)]
      exact (kept_of_bytecode present).has_callsExternal

theorem accepts_callsExternal {known : List NodeId} {edge : Edge}
    (external : edge.type = .callsExternal) (src : edge.src ∈ known) (dst : edge.dst ∈ known) :
    accepts known edge = true := by
  have kept : Resolve.dropped edge.type = false := by
    rw [external]
    rfl
  simp only [accepts, kept, Bool.not_false, src, dst, decide_true, Bool.and_self]

/-- The edge of a recognised reference is stored. -/
theorem stored_externalLink {ref : RawRef} (listed : ref ∈ run.input.extraction.refs)
    (recognised : Resolve.RecognisedCall run.resolveSettings run.corpus ref) :
    Resolve.externalLink run.resolveSettings ref ∈ run.stored.links := by
  have before : ∀ id ∈ ([] : List NodeId), id ∈ run.afterBytecode.items.map Node.id :=
    fun _ listed => (nomatch listed)
  obtain ⟨final, brings, declared, grows⟩ := Resolve.brings_externalLink
    (Resolve.remembers_nil run.resolveSettings) before run.input.extraction.raw listed recognised
  have source : ref.src ∈ final :=
    grows _ (mem_afterBytecode.mpr (Or.inl (run.input.extraction.sourced ref listed)))
  have buffered : Ledger.Brings Node.id (Resolve.externalLink run.resolveSettings ref)
      (Ledger.write Node.id accepts {} run.firstWrite).known
      ({} :: Resolve.chunksFrom run.resolveSettings run.corpus {} run.corpus.refs) final := by
    refine .later ?_
    rw [List.map_nil, List.append_nil]
    exact brings
  rw [stored, writes, List.foldl_append]
  apply Ledger.mem_foldl_write_of_mem
  rw [List.foldl_cons]
  have taken : accepts final (Resolve.externalLink run.resolveSettings ref) = true :=
    accepts_callsExternal rfl source declared
  exact Ledger.mem_links_of_brings growing_accepts buffered taken

/-- What a kept bytecode pass synthesized. -/
theorem synthesized_eq {outcome : Bytecode.Outcome} (present : run.bytecode = some outcome) :
    run.synthesized = (Bytecode.scanned run.input.bytecodeSettings run.input.extraction.nodes
      run.input.classes).synthesized := by
  simp only [synthesized, present, (kept_of_bytecode present).eq_keptOutcome]
  rfl

/-- Both ends of a recognised compiled call are nodes before resolution. -/
theorem ends_of_compiledCall {src : NodeId} {inv : Bytecode.Invocation}
    (called : run.CompiledCall src inv)
    (recognised : (Bytecode.invocationKind run.input.bytecodeSettings inv).isSome) :
    src ∈ run.afterBytecode.items.map Node.id ∧
      externalId run.input.options.makeId inv.owner inv.name ∈
        run.afterBytecode.items.map Node.id := by
  obtain ⟨kept, body, walked, rfl, listed, static⟩ := called
  obtain ⟨outcome, present⟩ := Option.isSome_iff_exists.mp kept
  rw [mem_afterBytecode, mem_afterBytecode, synthesized_eq present]
  constructor
  · obtain ⟨node, made, same⟩ := Bytecode.exists_caller walked
    rw [← same]
    rcases List.mem_append.mp made with extracted | synthesized
    · exact Or.inl (List.mem_map_of_mem extracted)
    · exact Or.inr (List.mem_map_of_mem synthesized)
  · obtain ⟨node, made, same⟩ := Bytecode.exists_externalTarget walked listed static recognised
    refine Or.inr ?_
    rw [Bytecode.scanned, ← show node.id = externalId run.input.options.makeId inv.owner inv.name
      from same]
    exact List.mem_map_of_mem made

theorem stored_bytecodeEdge {edge : Edge} (member : edge ∈ run.bytecodeEdges)
    (external : edge.type = .callsExternal) : edge ∈ run.stored.links := by
  obtain ⟨inv, called, recognised, target⟩ := exists_bytecodeEdge_iff.mp
    ⟨edge, member, show edge.key = (.callsExternal, edge.src, edge.dst) from
      congrArg (fun type => (type, edge.src, edge.dst)) external⟩
  obtain ⟨src, dst⟩ := ends_of_compiledCall called recognised
  rw [target] at dst
  have carried : edge ∈ run.preciseWrite.links := List.mem_append_left _ member
  have known : ∀ id, id ∈ run.afterBytecode.items.map Node.id →
      id ∈ ([] : List NodeId) ++ (((run.firstWrite :: run.resolution.handed) ++
        [run.preciseWrite]).flatMap Chunk.declares).map Node.id := by
    intro id before
    rw [List.nil_append, List.cons_append, List.flatMap_cons, List.map_append]
    exact List.mem_append_left _ before
  exact Ledger.mem_foldl_write carried (accepts_callsExternal external (known _ src) (known _ dst))

/-- **External edges of the finished graph.** A property that no acquire has
holds of the target of some external edge of a function exactly when it holds of
the target of a recognised unskipped reference or compiled call of the function. -/
theorem exists_externalEdge_iff {src : NodeId} {holds : NodeId → Prop}
    (unlike : ∀ fqn, ¬ holds (acquireId fqn)) :
    (∃ edge ∈ run.finalEdges, edge.type = .callsExternal ∧ edge.src = src ∧ holds edge.dst) ↔
      (∃ other ∈ run.input.extraction.refs,
          Resolve.RecognisedCall run.resolveSettings run.corpus other ∧ other.src = src ∧
            holds (Resolve.targetId run.resolveSettings other)) ∨
        ∃ inv, run.CompiledCall src inv ∧
          (Bytecode.invocationKind run.input.bytecodeSettings inv).isSome ∧
            holds (externalId run.input.options.makeId inv.owner inv.name) := by
  constructor
  · rintro ⟨edge, member, external, rfl, held⟩
    rcases List.mem_append.mp member with written | acquired
    · rcases List.mem_append.mp written with kept | dispatched
      · rcases origin_of_external external kept with ⟨ref, listed, recognised, rfl⟩ | bytecode
        · exact Or.inl ⟨ref, listed, recognised, rfl, held⟩
        · obtain ⟨inv, called, recognised, target⟩ := exists_bytecodeEdge_iff.mp
            ⟨edge, bytecode, show edge.key = (.callsExternal, edge.src, edge.dst) from
              congrArg (fun type => (type, edge.src, edge.dst)) external⟩
          exact Or.inr ⟨inv, called, recognised, target ▸ held⟩
      · unfold polymorphicCalls at dispatched
        split at dispatched
        · obtain ⟨override, _, calling⟩ := List.mem_flatMap.mp dispatched
          obtain ⟨call, _, rfl⟩ := List.mem_map.mp calling
          cases external
        · exact (List.not_mem_nil dispatched).elim
    · obtain ⟨node, _, rfl⟩ := List.mem_map.mp acquired
      exact (unlike node.fqn held).elim
  · rintro (⟨ref, listed, recognised, rfl, held⟩ | ⟨inv, called, recognised, held⟩)
    · exact ⟨_, List.mem_append_left _ (List.mem_append_left _
        (stored_externalLink listed recognised)), rfl, rfl, held⟩
    · obtain ⟨edge, member, same⟩ := exists_bytecodeEdge_iff.mpr ⟨inv, called, recognised, rfl⟩
      simp only [Edge.key, Prod.mk.injEq] at same
      obtain ⟨external, rfl, target⟩ := same
      exact ⟨edge, List.mem_append_left _ (List.mem_append_left _
        (stored_bytecodeEdge member external)), external, rfl, target ▸ held⟩

theorem not_isTarget_acquireId (ref : RawRef) (fqn : Str) : ¬ run.IsTarget ref (acquireId fqn) := by
  rintro ⟨owner, _, same⟩
  have starts : "acq:".toList <+:
      (externalId run.input.options.makeId owner ref.targetName).val := by
    rw [← same]
    exact List.prefix_append _ _
  exact run.input.options.hashed _ _ _ starts

end Edges

section Taint

/-- The stamp of a function shows its compiled calls. -/
theorem shows_stamp_iff {caller : NodeId} {entry : Entry} :
    (run.stamp caller).Shows entry ↔ run.CompiledAlike caller entry := by
  unfold stamp CompiledAlike
  cases present : run.bytecode with
  | none =>
      simp only [not_compiledCall present, false_and, exists_false, iff_false]
      exact not_shows_empty entry
  | some outcome =>
      rw [exists_compiledCall_iff (present ▸ rfl), (kept_of_bytecode present).eq_keptOutcome]
      exact Bytecode.shows_stamp_scanClasses

theorem sanitizer_stamp_iff {caller : NodeId} {entry : Entry} (role : entry.role = .sanitizer) :
    (run.stamp caller).sanitizer = true ↔ run.CompiledAlike caller entry := by
  unfold stamp CompiledAlike Alike
  simp only [role, reduceCtorEq, false_implies, and_true]
  cases present : run.bytecode with
  | none =>
      simp only [not_compiledCall present, false_and, exists_false, Bool.false_eq_true]
  | some outcome =>
      rw [exists_compiledCall_iff (present ▸ rfl), (kept_of_bytecode present).eq_keptOutcome]
      exact Bytecode.sanitizer_stamp_scanClasses

/-- The functions with a row of the resolver. -/
theorem isSome_marks_iff {caller : NodeId} :
    (run.resolution.marks.get? caller).isSome ↔ run.HasRow caller :=
  (Resolve.isSome_marks_memoAfter run.corpus.refs {} caller).trans
    (or_iff_right Bool.false_ne_true)

theorem shows_row_iff {caller : NodeId} {entry : Entry} :
    ((run.resolution.marks.getD caller {}).over (run.stamp caller)).Shows entry ↔
      run.SourceAlike caller entry ∨ entry.role = .sanitizer ∧ run.CompiledAlike caller entry := by
  have blank : (({} : Resolve.ResolverMark).over (run.stamp caller)).Shows entry ↔
      entry.role = .sanitizer ∧ run.CompiledAlike caller entry := by
    unfold FunctionTaint.Shows Resolve.ResolverMark.over
    cases role : entry.role with
    | sink => simp only [List.not_mem_nil, reduceCtorEq, false_and]
    | source => simp only [Bool.false_eq_true, reduceCtorEq, false_and]
    | sanitizer =>
        rw [sanitizer_stamp_iff role]
        simp only [List.not_mem_nil, false_and, exists_false, or_false, true_and]
  rw [← blank, or_comm]
  exact Resolve.shows_memoAfter run.corpus.refs {} caller (run.stamp caller) entry

/-- **Taint properties of the finished graph.** A function shows an entry exactly
when the entry is covered. -/
theorem shows_finalTaint_iff {caller : NodeId} {entry : Entry} :
    (run.finalTaint caller).Shows entry ↔ run.EntryCovered caller entry := by
  have rowed : run.SourceAlike caller entry → run.HasRow caller := by
    rintro ⟨other, listed, same, fact, catalogued, _⟩
    exact ⟨other, listed, same, fact, catalogued⟩
  unfold finalTaint EntryCovered
  cases row : run.resolution.marks.get? caller with
  | none =>
      have rowless : ¬ run.HasRow caller := by
        rw [← isSome_marks_iff, row]
        exact Bool.false_ne_true
      simp only [shows_stamp_iff, rowless, false_implies, implies_true, true_and,
        mt rowed rowless, and_false, false_or]
  | some mark =>
      have has : run.HasRow caller := by
        rw [← isSome_marks_iff, row]
        rfl
      have held : run.resolution.marks.getD caller {} = mark := by rw [Dict.getD, row]; rfl
      cases function : run.isFunction caller with
      | false =>
          simp only [Bool.false_eq_true, ↓reduceIte, shows_stamp_iff, false_and, false_implies,
            true_and, false_or]
      | true =>
          simp only [↓reduceIte, ← held, shows_row_iff, has, true_and, true_implies]

end Taint

/-- **External facts.** The finished graph keeps the facts of every call typed
outside the repository exactly when each of them is covered. -/
theorem keepsExternalFacts_iff (run : IndexRun) : run.KeepsExternalFacts ↔ run.FactsCovered := by
  refine forall₂_congr fun ref _ => and_congr ?_ ?_
  · exact imp_congr_right fun _ => exists_externalEdge_iff (not_isTarget_acquireId ref)
  · exact forall₂_congr fun entry _ => shows_finalTaint_iff

/-- The call `connection.close()` in the body of `A.f()`. -/
def closingCall : RawRef where
  type := .calls
  src := (Bytecode.sampleMethod "demo.A" "f" "()" [] "A.java" .method).id
  targetName := "close"
  kindHint := .call
  recv := "connection"
  recvType := "Connection"
  refFile := "A.java"
  refLine := 3
  callArity := 0

/-- `A.java` declares `A` with `f()`, which closes a connection. -/
def closingExtraction : Extraction where
  nodes :=
    [Bytecode.sampleClass "demo.A" "A.java",
     Bytecode.sampleMethod "demo.A" "f" "()" [] "A.java" .method]
  edges := []
  refs := [closingCall]
  javaFilesSeen := 1
  distinct := by decide +kernel
  sourced := by decide +kernel
  structural := structural_nil
  raw := by decide +kernel

/-- A run in which javac attributes `A.java` and binds its one call outside the
repository. -/
def closingRun : IndexRun where
  input :=
    { options := { sampleOptions with javac := true }
      extraction := closingExtraction
      classes := []
      oracle := some
        { invocationsSeen := 1
          resolvedExternal := 1
          lines := ["@FILE\tA.java".toList] } }
  bytecode := none
  ran := rfl

/-- Javac owns the file, and nothing is left of the call. -/
theorem closing_loses : ¬ ∀ run : IndexRun, run.KeepsExternalFacts := by
  intro kept
  have foreign : closingRun.ForeignRef closingCall :=
    ⟨List.mem_cons_self, rfl, by decide +kernel⟩
  have recognised : closingRun.Recognised closingCall := by
    unfold Recognised
    decide +kernel
  have lost : ∀ edge ∈ closingRun.finalEdges, edge.type ≠ .callsExternal := by decide +kernel
  obtain ⟨edge, member, external, _⟩ := (kept closingRun closingCall foreign).1 recognised
  exact lost edge member external

end IndexRun

end GraphIngest.Pipeline
