import GraphIngest.Resolve.Links

/-! # The essence of a reference

Of a reference resolution reads the type, the source, the name and the file, and
by its type some of the rest: the receiver and the arity of a call, the verb of an
HTTP call, the hinted shape. References of one essence have the same edges.
-/

namespace GraphIngest.Resolve

open Foundation Text Graph External

section Essence

variable (settings : Settings) (corpus : Corpus)

/-- The shape of symbol a hint prefers. -/
def shapeOf : KindHint → KindHint
  | .type | .import => .type
  | .call => .call
  | _ => .none

/-- What resolution reads of a reference: its type, its ends and its file, and by
its type some of the rest. -/
def essence (ref : RawRef) : RawRef :=
  let bare : RawRef :=
    { type := ref.type, src := ref.src, targetName := ref.targetName, refFile := ref.refFile }
  match ref.type with
  | .imports =>
      { bare with
        kindHint := if ref.kindHint = .importWildcard then .importWildcard else .none
        importFqn := ref.importFqn }
  | .callsApi =>
      { bare with
        httpMethod := refVerb ref
        recv := if matchEndpoints corpus.nodes (refVerb ref) (normalizeRoute ref.targetName) = []
          then ref.recv else [] }
  | .renders | .includesScript | .includesPage =>
      { bare with kindHint := if ref.kindHint = .file then .file else .none }
  | .calls =>
      if ref.refFile ∈ settings.skipCallFiles then bare
      else if corpus.externalReceiver ref then { bare with recvType := ref.recvType }
      else
        { bare with
          recv := ref.recv, recvType := ref.recvType, callArity := max ref.callArity (-1) }
  | .annotatedWith | .handledBy | .reads | .writes | .extends | .implements | .instantiates
  | .autowired => bare
  | _ => if dropped ref.type then bare else { bare with kindHint := shapeOf ref.kindHint }

/-- Two references of one type, from one node to one name. -/
structure Parallel (ref other : RawRef) : Prop where
  type : ref.type = other.type
  src : ref.src = other.src
  targetName : ref.targetName = other.targetName

variable {settings corpus} {ref other : RawRef}

/-- References that run parallel fan out along the same keys. -/
theorem keys_fanOut (parallel : Parallel ref other) (type : EdgeType) (wanted : List Node)
    (confidence : Confidence) (strategy : Str) :
    (fanOut ref type wanted confidence strategy).map Edge.key =
      (fanOut other type wanted confidence strategy).map Edge.key := by
  rw [fanOut, fanOut, List.map_map, List.map_map]
  exact List.map_congr_left fun node _ => congrArg (fun src => (type, src, node.id)) parallel.src

/-- References that run parallel emit the same keys. -/
theorem keys_emit (parallel : Parallel ref other) (wanted : List Node)
    (confidence : Confidence) (knownInRepo : Bool) (strategy : Str) :
    (emit settings {} ref wanted confidence knownInRepo strategy).chunk.links.map Edge.key =
      (emit settings {} other wanted confidence knownInRepo strategy).chunk.links.map Edge.key := by
  unfold emit
  split
  · rfl
  · simp only [List.map_cons, List.map_nil, Edge.key, heuristicEdge, parallel.type, parallel.src]
  · split
    · rfl
    · rw [parallel.type]
      exact keys_fanOut parallel ..

theorem keys_resolveAnnotated (parallel : Parallel ref other) :
    (resolveAnnotated settings {} ref).chunk.links.map Edge.key =
      (resolveAnnotated settings {} other).chunk.links.map Edge.key := by
  unfold resolveAnnotated
  rw [parallel.targetName]
  split
  · rfl
  · simp only [Dict.get?_empty, List.map_cons, List.map_nil, Edge.key, heuristicEdge,
      parallel.type, parallel.src]

/-- An HTTP call has its edges from its verb, and where no endpoint is met from the
host. -/
theorem keys_resolveApi (parallel : Parallel ref other) (verb : refVerb ref = refVerb other)
    (host : matchEndpoints corpus.nodes (refVerb ref) (normalizeRoute ref.targetName) = [] →
      ref.recv = other.recv) :
    (resolveApi settings corpus {} ref).chunk.links.map Edge.key =
      (resolveApi settings corpus {} other).chunk.links.map Edge.key := by
  unfold resolveApi
  rw [← verb, ← parallel.targetName]
  dsimp only
  split
  · next missed =>
    have target : missingEndpointId settings ref = missingEndpointId settings other := by
      unfold missingEndpointId endpointRepo
      rw [verb, parallel.targetName, host missed]
    simp only [List.map_cons, List.map_nil, host missed, target]
    split <;> simp only [Edge.key, heuristicEdge, parallel.type, parallel.src]
  · rw [parallel.type]
    exact keys_fanOut parallel ..

/-- References to one file, out of one file, are resolved to the same keys. -/
theorem keys_resolveFileRef (parallel : Parallel ref other) (file : ref.refFile = other.refFile)
    (hint : ref.kindHint = .file ↔ other.kindHint = .file) :
    (resolveFileRef settings corpus {} ref).chunk.links.map Edge.key =
      (resolveFileRef settings corpus {} other).chunk.links.map Edge.key := by
  unfold resolveFileRef
  simp only [ne_eq, hint, parallel.targetName, parallel.type, file]
  split
  · rfl
  · split <;> exact keys_emit parallel ..

theorem keys_resolveHandler (parallel : Parallel ref other) :
    (resolveHandler settings corpus {} ref).chunk.links.map Edge.key =
      (resolveHandler settings corpus {} other).chunk.links.map Edge.key := by
  unfold resolveHandler
  rw [parallel.targetName]
  split
  · simp only [List.map_cons, List.map_nil, Edge.key, heuristicEdge, parallel.type, parallel.src]
  · exact keys_emit parallel ..

theorem keys_resolveType (parallel : Parallel ref other) :
    (resolveType settings corpus {} ref).chunk.links.map Edge.key =
      (resolveType settings corpus {} other).chunk.links.map Edge.key := by
  have narrowed : corpus.narrowType ref = corpus.narrowType other := by
    unfold Corpus.narrowType
    rw [parallel.src, parallel.targetName]
  unfold resolveType
  rw [narrowed, parallel.targetName]
  exact keys_emit parallel ..

theorem keys_resolveField (parallel : Parallel ref other) :
    (resolveField settings corpus {} ref).chunk.links.map Edge.key =
      (resolveField settings corpus {} other).chunk.links.map Edge.key := by
  have around : fieldsAround corpus ref = fieldsAround corpus other := by
    unfold fieldsAround
    rw [parallel.src, parallel.targetName]
  unfold resolveField
  rw [around, parallel.src, parallel.targetName]
  dsimp only
  split
  · exact keys_emit parallel ..
  · split
    · exact keys_emit parallel ..
    · split <;> exact keys_emit parallel ..

/-- Parallel references with hints of one shape are resolved to the same keys. -/
theorem keys_resolveHinted (parallel : Parallel ref other)
    (shape : shapeOf ref.kindHint = shapeOf other.kindHint) :
    (resolveHinted settings corpus {} ref).chunk.links.map Edge.key =
      (resolveHinted settings corpus {} other).chunk.links.map Edge.key := by
  have shaped : ∀ hint, ((hint = .type ∨ hint = .import) ↔ shapeOf hint = .type) ∧
      (hint = .call ↔ shapeOf hint = .call) := by
    intro hint
    cases hint <;> decide
  unfold resolveHinted
  simp only [shaped ref.kindHint, shaped other.kindHint, shape, parallel.targetName]
  exact keys_emit parallel ..

/-- What a call with a receiver in the repository is narrowed by. -/
structure SameCall (ref other : RawRef) : Prop extends Parallel ref other where
  recv : ref.recv = other.recv
  recvType : ref.recvType = other.recvType
  arity : max ref.callArity (-1) = max other.callArity (-1)

theorem applyArity_congr (arity : max ref.callArity (-1) = max other.callArity (-1)) (hit : Hit) :
    applyArity ref hit = applyArity other hit := by
  unfold applyArity
  by_cases unknown : ref.callArity < 0
  · have also : other.callArity < 0 := by omega
    rw [if_pos unknown, if_pos also]
  · have known : ¬ other.callArity < 0 := by omega
    have same : ref.callArity = other.callArity := by omega
    rw [if_neg unknown, if_neg known, same]

/-- The lookup of a call reads no more than its essence. -/
theorem narrowCall_congr (same : SameCall ref other) :
    corpus.narrowCall ref = corpus.narrowCall other := by
  have outside : corpus.externalReceiver ref = corpus.externalReceiver other := by
    unfold Corpus.externalReceiver
    rw [same.recvType]
  unfold Corpus.narrowCall Corpus.narrowPool
  simp only [applyArity_congr same.arity, outside, same.src, same.targetName, same.recv,
    same.recvType]

theorem keys_resolveExternal (parallel : Parallel ref other)
    (typed : ref.recvType = other.recvType) :
    (resolveExternal settings {} ref).chunk.links.map Edge.key =
      (resolveExternal settings {} other).chunk.links.map Edge.key := by
  unfold resolveExternal
  rw [typed, parallel.targetName]
  dsimp only
  split
  · rfl
  · simp only [List.map_cons, List.map_nil, Edge.key, heuristicEdge, parallel.src, externalTarget,
      typed, parallel.targetName]

theorem keys_resolveUnknownReceiver (parallel : Parallel ref other) (wanted : List Node)
    (strategy : Str) :
    (resolveUnknownReceiver settings {} ref wanted strategy).chunk.links.map Edge.key =
      (resolveUnknownReceiver settings {} other wanted strategy).chunk.links.map Edge.key := by
  unfold resolveUnknownReceiver
  dsimp only
  split
  · simp only [List.map_cons, List.map_nil, Edge.key, heuristicEdge, parallel.src]
  · split
    · rfl
    · exact keys_fanOut parallel ..

theorem keys_resolveFallback (parallel : Parallel ref other) (memo : Memo) (strategy : Str) :
    (resolveFallback corpus memo ref strategy).chunk.links.map Edge.key =
      (resolveFallback corpus memo other strategy).chunk.links.map Edge.key := by
  unfold resolveFallback
  rw [parallel.targetName]
  dsimp only
  split
  · rfl
  · simp only [List.map_cons, List.map_nil, Edge.key, heuristicEdge, parallel.src]
  · exact keys_fanOut parallel ..

/-- Calls of one essence are resolved to the same keys. -/
theorem keys_resolveInRepoCall (same : SameCall ref other) :
    (resolveInRepoCall settings corpus {} ref).chunk.links.map Edge.key =
      (resolveInRepoCall settings corpus {} other).chunk.links.map Edge.key := by
  unfold resolveInRepoCall
  rw [narrowCall_congr same, same.recv, same.targetName]
  dsimp only
  split
  · exact keys_resolveUnknownReceiver same.toParallel ..
  · split
    · rw [links_resolveFallback _ {}, links_resolveFallback _ {} other]
      exact keys_resolveFallback same.toParallel ..
    · exact keys_emit same.toParallel ..

/-- The essence keeps type, ends and file. -/
theorem essence_ends (settings : Settings) (corpus : Corpus) (ref : RawRef) :
    Parallel (essence settings corpus ref) ref ∧
      (essence settings corpus ref).refFile = ref.refFile := by
  unfold essence
  split
  case h_6 =>
    split
    · exact ⟨⟨rfl, rfl, rfl⟩, rfl⟩
    · split <;> exact ⟨⟨rfl, rfl, rfl⟩, rfl⟩
  case h_15 => split <;> exact ⟨⟨rfl, rfl, rfl⟩, rfl⟩
  all_goals exact ⟨⟨rfl, rfl, rfl⟩, rfl⟩

/-- References of one essence run parallel and stand in one file. -/
theorem parallel_of_essence (same : essence settings corpus ref = essence settings corpus other) :
    Parallel ref other ∧ ref.refFile = other.refFile := by
  obtain ⟨first, firstFile⟩ := essence_ends settings corpus ref
  obtain ⟨second, secondFile⟩ := essence_ends settings corpus other
  rw [same] at first firstFile
  exact ⟨⟨first.type.symm.trans second.type, first.src.symm.trans second.src,
    first.targetName.symm.trans second.targetName⟩, firstFile.symm.trans secondFile⟩

/-- Calls of one essence have the same edges. -/
theorem keys_resolveCall (typed : ref.type = .calls)
    (same : essence settings corpus ref = essence settings corpus other) :
    (resolveCall settings corpus {} ref).chunk.links.map Edge.key =
      (resolveCall settings corpus {} other).chunk.links.map Edge.key := by
  obtain ⟨parallel, file⟩ := parallel_of_essence same
  have alsoTyped : other.type = .calls := parallel.type.symm.trans typed
  unfold resolveCall
  by_cases skipped : ref.refFile ∈ settings.skipCallFiles
  · rw [if_pos skipped, if_pos (file ▸ skipped)]
  · have unskipped : other.refFile ∉ settings.skipCallFiles := file ▸ skipped
    rw [if_neg skipped, if_neg unskipped]
    simp only [essence, typed, alsoTyped, if_neg skipped, if_neg unskipped] at same
    have recvType : ref.recvType = other.recvType := by
      have kept := congrArg RawRef.recvType same
      split at kept <;> split at kept <;> exact kept
    have outside : corpus.externalReceiver ref = corpus.externalReceiver other := by
      unfold Corpus.externalReceiver
      rw [recvType]
    rw [← outside]
    split
    · exact keys_resolveExternal parallel recvType
    · next inside =>
      rw [if_neg inside, if_neg (outside ▸ inside)] at same
      have recv := congrArg RawRef.recv same
      have arity := congrArg RawRef.callArity same
      exact keys_resolveInRepoCall ⟨parallel, recv, recvType, arity⟩

/-- **Essence.** References of one essence have the same edges. -/
theorem keys_linksOf (same : essence settings corpus ref = essence settings corpus other) :
    (linksOf settings corpus ref).map Edge.key = (linksOf settings corpus other).map Edge.key := by
  obtain ⟨parallel, file⟩ := parallel_of_essence same
  unfold linksOf resolveOneRef
  rw [← parallel.type]
  split
  · rfl
  · next resolved =>
    cases typed : ref.type <;> have alsoTyped := parallel.type.symm.trans typed
    case annotatedWith => exact keys_resolveAnnotated parallel
    case callsApi =>
      simp only [essence, typed, alsoTyped] at same
      have verb : refVerb ref = refVerb other := congrArg RawRef.httpMethod same
      refine keys_resolveApi parallel verb fun missed => ?_
      have kept := congrArg RawRef.recv same
      dsimp only at kept
      rw [if_pos missed, ← verb, ← parallel.targetName, if_pos missed] at kept
      exact kept
    case renders | includesScript | includesPage =>
      refine keys_resolveFileRef parallel file ?_
      simp only [essence, typed, alsoTyped] at same
      have hint := congrArg RawRef.kindHint same
      dsimp only at hint
      split at hint <;> split at hint <;> simp_all only [reduceCtorEq]
    case handledBy => exact keys_resolveHandler parallel
    case calls => exact keys_resolveCall typed same
    case reads | writes => exact keys_resolveField parallel
    case «extends» | implements | instantiates | autowired => exact keys_resolveType parallel
    case contains | ofType | overrides | exposes | callsExternal =>
      refine keys_resolveHinted parallel ?_
      simp only [essence, typed, alsoTyped] at same
      exact congrArg RawRef.kindHint same
    all_goals exact absurd (typed ▸ rfl) resolved

end Essence

end GraphIngest.Resolve
