import GraphIngest.Resolve.Links

/-! # The ends of an edge

An edge of the resolver begins where its reference does, which nothing checks: a
reference may come from a node that is not listed. It ends at a listed node, since
every candidate is taken from a lookup, or at the node that the reference makes the
run synthesize.
-/

namespace GraphIngest.Resolve

open Foundation Text Graph External

section Candidates

variable {corpus : Corpus}

/-- Candidates that are all listed. -/
def Corpus.Lists (corpus : Corpus) (wanted : List Node) : Prop := ∀ node ∈ wanted, node ∈ corpus.nodes

/-- What is kept of listed nodes is listed. -/
theorem lists_filter {wanted : List Node} (listed : corpus.Lists wanted) (keep : Node → Bool) :
    corpus.Lists (wanted.filter keep) :=
  fun node kept => listed node (List.mem_of_mem_filter kept)

theorem lists_ite {test : Prop} [Decidable test] {wanted other : List Node}
    (listed : corpus.Lists wanted) (otherwise : corpus.Lists other) :
    corpus.Lists (if test then wanted else other) := by
  split
  · exact listed
  · exact otherwise

/-- The first hit of listed nodes is listed. -/
theorem lists_firstNonempty {lists : List (List Node)}
    (listed : ∀ wanted ∈ lists, corpus.Lists wanted) : corpus.Lists (firstNonempty lists) := by
  induction lists with
  | nil => exact List.forall_mem_nil _
  | cons first rest ih =>
      unfold firstNonempty
      split
      · exact ih fun wanted later => listed wanted (List.mem_cons_of_mem _ later)
      · exact listed first List.mem_cons_self

theorem lists_firstHit {otherwise : Hit} {hits : List Hit} (fallback : corpus.Lists otherwise.1)
    (listed : ∀ hit ∈ hits, corpus.Lists hit.1) : corpus.Lists (firstHit otherwise hits).1 := by
  induction hits with
  | nil => exact fallback
  | cons first rest ih =>
      unfold firstHit
      split
      · exact ih fun hit later => listed hit (List.mem_cons_of_mem _ later)
      · exact listed first List.mem_cons_self

theorem lists_applyArity {ref : RawRef} {hit : Hit} (listed : corpus.Lists hit.1) :
    corpus.Lists (applyArity ref hit).1 := by
  unfold applyArity
  dsimp only
  split
  · exact listed
  · split
    · exact listed
    · exact lists_filter listed _

theorem lists_methods (classIds : List NodeId) (name : Str) :
    corpus.Lists (classIds.flatMap fun cls => corpus.methodsOfClass cls name) := by
  intro node found
  obtain ⟨cls, _, declared⟩ := List.mem_flatMap.mp found
  exact List.mem_of_mem_filter declared

/-- Inherited members are nodes of the corpus. -/
theorem lists_inheritedMembers (classIds : List NodeId) (name : Str) :
    corpus.Lists (corpus.inheritedMembers classIds name) := by
  intro node found
  obtain ⟨cls, _, inherited⟩ := List.mem_flatMap.mp found
  refine lists_firstNonempty (fun wanted listed => ?_) node inherited
  obtain ⟨ancestor, _, rfl⟩ := List.mem_map.mp listed
  exact fun _ declared => List.mem_of_mem_filter declared

theorem lists_receiverHits {classIds : List NodeId} {name strategy : Str} :
    ∀ hit ∈ corpus.receiverHits classIds name strategy, corpus.Lists hit.1 := by
  intro hit listed
  rcases List.mem_cons.mp listed with rfl | listed
  · exact lists_methods classIds name
  · rw [List.mem_singleton.mp listed]
    exact lists_inheritedMembers classIds name

theorem lists_byName (name : Str) : corpus.Lists (corpus.byName name) :=
  fun _ found => List.mem_of_mem_filter found

theorem lists_classesByName (name : Str) : corpus.Lists (corpus.classesByName name) :=
  fun _ found => List.mem_of_mem_filter found

theorem lists_functionsByName (name : Str) : corpus.Lists (corpus.functionsByName name) :=
  fun _ found => List.mem_of_mem_filter found

/-- Narrowing a pool of the corpus leaves a pool of the corpus. -/
theorem lists_narrowPool {ref : RawRef} {pool : List Node} {functionsOnly : Bool}
    (listed : corpus.Lists pool) : corpus.Lists (corpus.narrowPool ref pool functionsOnly).1 := by
  have functions : ∀ {wanted : List Node}, corpus.Lists wanted →
      corpus.Lists (if functionsOnly then wanted.filter fun node => node.label = .function
        else wanted) := by
    exact fun given => lists_ite (lists_filter given _) given
  unfold Corpus.narrowPool
  dsimp only
  refine lists_applyArity (lists_firstHit listed fun hit member => ?_)
  rw [List.mem_append, List.mem_append, List.mem_append] at member
  rcases member with ((scope | file) | typed) | received
  · split at scope
    · cases scope
    · rw [List.mem_singleton.mp scope]
      exact functions (lists_filter (lists_byName _) _)
  · split at file
    · cases file
    · simp only [List.mem_cons, List.not_mem_nil, or_false] at file
      rcases file with rfl | rfl | rfl | rfl
      · exact functions (lists_filter (lists_byName _) _)
      · exact lists_filter listed _
      · exact lists_filter listed _
      · exact lists_filter listed _
  · split at typed
    · cases typed
    · exact lists_receiverHits hit typed
  · split at received
    · split at received
      · cases received
      · exact lists_receiverHits hit received
    · split at received
      · cases received
      · exact lists_receiverHits hit received

/-- The candidates of a call are listed. -/
theorem lists_narrowCall (ref : RawRef) : corpus.Lists (corpus.narrowCall ref).1 := by
  unfold Corpus.narrowCall
  split
  · exact List.forall_mem_nil _
  · have pool : corpus.Lists (if (corpus.functionsByName ref.targetName).isEmpty then
        corpus.byName ref.targetName else corpus.functionsByName ref.targetName) :=
      lists_ite (lists_byName _) (lists_functionsByName _)
    dsimp only
    generalize (if (corpus.functionsByName ref.targetName).isEmpty then
      corpus.byName ref.targetName else corpus.functionsByName ref.targetName) = wanted at pool ⊢
    split
    · exact List.forall_mem_nil _
    · exact lists_narrowPool pool

/-- The candidates of a type reference are listed. -/
theorem lists_narrowType (ref : RawRef) : corpus.Lists (corpus.narrowType ref).1 := by
  have pool := @lists_classesByName corpus (simpleName ref.targetName)
  unfold Corpus.narrowType
  dsimp only
  split
  · exact List.forall_mem_nil _
  · split
    · exact pool
    · split
      · exact pool
      · refine lists_firstHit pool fun hit member => ?_
        simp only [List.mem_cons, List.not_mem_nil, or_false] at member
        rcases member with rfl | rfl | rfl | rfl | rfl | rfl
        · exact lists_filter pool _
        · exact lists_filter pool _
        · exact lists_filter pool _
        · dsimp only
          split
          · exact List.forall_mem_nil _
          · exact lists_filter pool _
        · exact lists_filter pool _
        · exact lists_filter pool _

theorem lists_matchEndpoints (method route : Str) :
    corpus.Lists (matchEndpoints corpus.nodes method route) := by
  have endpoints : corpus.Lists (corpus.nodes.filter fun node => node.label = .endpoint) :=
    lists_filter (fun _ listed => listed) _
  refine lists_ite (lists_filter endpoints _) (lists_ite ?_ (lists_filter endpoints _))
  exact lists_ite (lists_filter endpoints _) (lists_filter endpoints _)

end Candidates

section Ends

variable (settings : Settings) (corpus : Corpus)

/-- Where the edges of a reference begin and end. -/
structure Joins (ref : RawRef) (edge : Edge) : Prop where
  src : edge.src = ref.src
  dst : (∃ node ∈ corpus.nodes, node.id = edge.dst) ∨
    synthesizedId settings corpus ref = some edge.dst

variable {settings corpus}

theorem joins_single {ref : RawRef} {node : Node} {type : EdgeType} {confidence : Confidence}
    {strategy : Str} (listed : node ∈ corpus.nodes) :
    ∀ edge ∈ [heuristicEdge ref type node.id confidence strategy], Joins settings corpus ref edge := by
  intro edge member
  rw [List.mem_singleton.mp member]
  exact ⟨rfl, .inl ⟨node, listed, rfl⟩⟩

/-- The edges of a fan-out go from the source of the reference to the nodes wanted. -/
theorem joins_fanOut {ref : RawRef} {type : EdgeType} {wanted : List Node}
    {confidence : Confidence} {strategy : Str} (listed : corpus.Lists wanted) :
    ∀ edge ∈ fanOut ref type wanted confidence strategy, Joins settings corpus ref edge := by
  intro edge member
  obtain ⟨node, found, rfl⟩ := List.mem_map.mp member
  exact ⟨rfl, .inl ⟨node, listed node found, rfl⟩⟩

theorem joins_nil {ref : RawRef} : ∀ edge ∈ ([] : List Edge), Joins settings corpus ref edge :=
  List.forall_mem_nil _

/-- What is emitted for listed nodes joins the source of the reference to one of them. -/
theorem joins_emit {memo : Memo} {ref : RawRef} {wanted : List Node} {confidence : Confidence}
    {knownInRepo : Bool} {strategy : Str} (listed : corpus.Lists wanted) :
    ∀ edge ∈ (emit settings memo ref wanted confidence knownInRepo strategy).chunk.links,
      Joins settings corpus ref edge := by
  unfold emit
  split
  · exact joins_nil
  · exact joins_single (listed _ List.mem_cons_self)
  · split
    · exact joins_nil
    · exact joins_fanOut listed

theorem joins_resolveAnnotated {ref : RawRef} (typed : ref.type = .annotatedWith) :
    ∀ edge ∈ (resolveAnnotated settings {} ref).chunk.links, Joins settings corpus ref edge := by
  unfold resolveAnnotated
  split
  · exact joins_nil
  · next signal =>
      intro edge member
      rw [List.mem_singleton.mp member]
      refine ⟨rfl, .inr ?_⟩
      simp only [synthesizedId, typed, signal, ↓reduceIte]
      rfl

theorem joins_resolveApi {ref : RawRef} (typed : ref.type = .callsApi) :
    ∀ edge ∈ (resolveApi settings corpus {} ref).chunk.links, Joins settings corpus ref edge := by
  unfold resolveApi
  dsimp only
  split
  · next unmet =>
      intro edge member
      rw [List.mem_singleton.mp member]
      have asked : synthesizedId settings corpus ref = some (missingEndpointId settings ref) := by
        simp only [synthesizedId, typed, unmet, List.isEmpty_nil, ↓reduceIte]
      split
      · exact ⟨rfl, .inr asked⟩
      · exact ⟨rfl, .inr asked⟩
  · exact joins_fanOut (lists_matchEndpoints _ _)

theorem joins_resolveFileRef {ref : RawRef} :
    ∀ edge ∈ (resolveFileRef settings corpus {} ref).chunk.links, Joins settings corpus ref edge := by
  have files : corpus.Lists (corpus.filesByBasename ref.targetName) :=
    lists_filter (fun _ listed => listed) _
  unfold resolveFileRef
  split
  · exact joins_nil
  · dsimp only
    split
    · exact joins_emit (lists_filter (lists_filter files _) _)
    · exact joins_emit (lists_filter files _)

theorem joins_resolveHandler {ref : RawRef} :
    ∀ edge ∈ (resolveHandler settings corpus {} ref).chunk.links, Joins settings corpus ref edge := by
  unfold resolveHandler
  split
  · next node found => exact joins_single (List.mem_of_find?_eq_some found)
  · exact joins_emit (lists_classesByName _)

theorem joins_resolveField {ref : RawRef} :
    ∀ edge ∈ (resolveField settings corpus {} ref).chunk.links, Joins settings corpus ref edge := by
  have around : corpus.Lists (fieldsAround corpus ref) := by
    unfold fieldsAround
    split
    · exact lists_filter (fun _ listed => listed) _
    · exact List.forall_mem_nil _
  unfold resolveField
  dsimp only
  split
  · exact joins_emit around
  · split
    · exact joins_emit (List.forall_mem_nil _)
    · split
      · exact joins_emit (List.forall_mem_nil _)
      · exact joins_emit (lists_filter (fun _ listed => listed) _)

/-- The edge of a foreign call ends at its stand-in. -/
theorem joins_resolveExternal {ref : RawRef} (foreign : ForeignCall settings corpus ref) :
    ∀ edge ∈ (resolveExternal settings {} ref).chunk.links, Joins settings corpus ref edge := by
  unfold resolveExternal
  dsimp only
  split
  · exact joins_nil
  · next kind known =>
      intro edge member
      rw [List.mem_singleton.mp member]
      refine ⟨rfl, .inr ?_⟩
      simp only [synthesizedId, foreign.1, foreign, known, Option.isSome_some, and_self,
        ↓reduceIte]
      rfl

theorem joins_resolveUnknownReceiver {memo : Memo} {ref : RawRef} {wanted : List Node}
    {strategy : Str} (listed : corpus.Lists wanted) :
    ∀ edge ∈ (resolveUnknownReceiver settings memo ref wanted strategy).chunk.links,
      Joins settings corpus ref edge := by
  unfold resolveUnknownReceiver
  dsimp only
  split
  · exact joins_single (listed _ List.mem_cons_self)
  · split
    · exact joins_nil
    · exact joins_fanOut listed

theorem joins_resolveFallback {memo : Memo} {ref : RawRef} {strategy : Str} :
    ∀ edge ∈ (resolveFallback corpus memo ref strategy).chunk.links,
      Joins settings corpus ref edge := by
  have listed : corpus.Lists (fallbackReferenceCandidates corpus ref.targetName) :=
    lists_ite (List.forall_mem_nil _) (lists_ite (lists_byName _) (lists_functionsByName _))
  unfold resolveFallback
  dsimp only
  split
  · exact joins_nil
  · next node found =>
      rw [found] at listed
      exact joins_single (listed node List.mem_cons_self)
  · exact joins_fanOut listed

/-- Whatever branch a call in the repository takes, its edges join its source to nodes of the
corpus. -/
theorem joins_resolveInRepoCall {memo : Memo} {ref : RawRef} :
    ∀ edge ∈ (resolveInRepoCall settings corpus memo ref).chunk.links,
      Joins settings corpus ref edge := by
  unfold resolveInRepoCall
  dsimp only
  split
  · exact joins_resolveUnknownReceiver (lists_narrowCall ref)
  · split
    · exact joins_resolveFallback
    · exact joins_emit (lists_narrowCall ref)

/-- The edges of a call join its source to a node of the corpus or to its stand-in. -/
theorem joins_resolveCall {ref : RawRef} (typed : ref.type = .calls) :
    ∀ edge ∈ (resolveCall settings corpus {} ref).chunk.links, Joins settings corpus ref edge := by
  unfold resolveCall
  split
  · exact joins_nil
  · next unskipped =>
      split
      · next outside => exact joins_resolveExternal ⟨typed, unskipped, outside⟩
      · exact joins_resolveInRepoCall

/-- **Ends.** An edge begins where its reference does, and ends at a listed node or at
the one the reference synthesizes. -/
theorem joins_linksOf {ref : RawRef} :
    ∀ edge ∈ linksOf settings corpus ref, Joins settings corpus ref edge := by
  have hinted : ∀ edge ∈ (resolveHinted settings corpus {} ref).chunk.links,
      Joins settings corpus ref edge := by
    have named := @lists_byName corpus ref.targetName
    refine joins_emit (lists_ite named (lists_ite (lists_filter named _) ?_))
    exact lists_ite (lists_filter named _) named
  unfold linksOf resolveOneRef
  split
  · exact joins_nil
  · split
    · next typed => exact joins_resolveAnnotated typed
    · next typed => exact joins_resolveApi typed
    · exact joins_resolveFileRef
    · exact joins_resolveFileRef
    · exact joins_resolveFileRef
    · exact joins_resolveHandler
    · next typed => exact joins_resolveCall typed
    · exact joins_resolveField
    · exact joins_resolveField
    · exact joins_emit (lists_narrowType ref)
    · exact joins_emit (lists_narrowType ref)
    · exact joins_emit (lists_narrowType ref)
    · exact joins_emit (lists_narrowType ref)
    · exact hinted

end Ends

end GraphIngest.Resolve
