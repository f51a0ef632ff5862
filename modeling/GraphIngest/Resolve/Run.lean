import GraphIngest.Resolve.Step

/-! # A resolution run

All references in order, and what the run hands to the sink. The nodes a run
synthesizes and the external facts it records are read off the references alone:
what the resolver remembers only keeps it from doing the same thing twice.
-/

namespace GraphIngest.Resolve

open Foundation Text Graph External

/-- The result of a run: the synthesized nodes, what the sink was handed, the
counts and the taint facts of callers. -/
structure Resolution where
  extraNodes : List Node
  handed : List (Chunk Node Edge)
  coverage : Dict EdgeType Coverage
  marks : Dict NodeId ResolverMark

/-- `_SINK_BATCH`. -/
def sinkBatch : Nat := 10000

section Run

variable (settings : Settings) (corpus : Corpus)

def nextAnswer (memo : Memo) (ref : RawRef) : Answer :=
  resolveOneRef settings corpus (memo.enter ref.type) ref

/-- What the resolver remembers after some references. -/
def memoAfter (refs : List RawRef) (memo : Memo) : Memo :=
  refs.foldl (fun memo ref => (nextAnswer settings corpus memo ref).memo) memo

/-- The chunks of some references, one for each. -/
def chunksFrom : Memo → List RawRef → List (Chunk Node Edge)
  | _, [] => []
  | memo, ref :: rest =>
      (nextAnswer settings corpus memo ref).chunk ::
        chunksFrom (nextAnswer settings corpus memo ref).memo rest

/-- Resolve all references of a corpus. -/
def resolve : Resolution :=
  let chunks := chunksFrom settings corpus {} corpus.refs
  let memo := memoAfter settings corpus corpus.refs {}
  { extraNodes := chunks.flatMap Chunk.declares
    handed := batches sinkBatch {} chunks
    coverage := memo.coverage
    marks := memo.marks }

/-- The sink is handed the synthesized nodes, all of them and in order. -/
theorem declares_handed :
    (resolve settings corpus).handed.flatMap Chunk.declares =
      (resolve settings corpus).extraNodes :=
  flatMap_declares_batches sinkBatch {} _

end Run

section Synthesis

variable (settings : Settings) (corpus : Corpus)

/-- An unskipped call whose receiver is typed outside the repository. -/
def ForeignCall (ref : RawRef) : Prop :=
  ref.type = .calls ∧ ref.refFile ∉ settings.skipCallFiles ∧ corpus.externalReceiver ref = true

instance (ref : RawRef) : Decidable (ForeignCall settings corpus ref) :=
  inferInstanceAs (Decidable (_ ∧ _ ∧ _))

/-- The node a reference makes the run synthesize. -/
def synthesizedId (ref : RawRef) : Option NodeId :=
  match ref.type with
  | .annotatedWith =>
      if ref.targetName ∈ noiseAnnotations then none
      else some (settings.makeId settings.repo ('@' :: ref.targetName) "annotation")
  | .callsApi =>
      if (matchEndpoints corpus.nodes (refVerb ref) (normalizeRoute ref.targetName)).isEmpty then
        some (missingEndpointId settings ref)
      else none
  | .calls =>
      if ForeignCall settings corpus ref ∧
          (classifyCall settings.catalog ref.recvType ref.targetName []).isSome then
        some (externalId settings.makeId ref.recvType ref.targetName)
      else none
  | _ => none

/-- What the resolver remembers of the nodes it has synthesized. -/
structure Remembers (made : List NodeId) (memo : Memo) : Prop where
  annotations : ∀ name id, memo.annotationIds.get? name = some id →
    id = settings.makeId settings.repo ('@' :: name) "annotation" ∧ id ∈ made
  endpoints : ∀ id ∈ memo.apiEndpointIds, id ∈ made
  externals : ∀ id ∈ memo.externalIds, id ∈ made

/-- Nothing is remembered at first. -/
theorem remembers_nil : Remembers settings [] {} :=
  ⟨fun _ _ found => (nomatch found), List.forall_mem_nil _, List.forall_mem_nil _⟩

variable {settings corpus}

/-- The tables of synthesized nodes. -/
def Memo.tables (memo : Memo) := (memo.annotationIds, memo.apiEndpointIds, memo.externalIds)

/-- Remembering is about the tables only, and more nodes do no harm. -/
theorem Remembers.transfer {made more : List NodeId} {memo other : Memo}
    (remembers : Remembers settings made memo) (same : other.tables = memo.tables) :
    Remembers settings (made ++ more) other := by
  simp only [Memo.tables, Prod.mk.injEq] at same
  obtain ⟨annotations, endpoints, externals⟩ := same
  refine ⟨?_, ?_, ?_⟩
  · intro name id found
    obtain ⟨named, present⟩ := remembers.annotations name id (annotations ▸ found)
    exact ⟨named, List.mem_append_left _ present⟩
  · exact fun id listed =>
      List.mem_append_left _ (remembers.endpoints id (endpoints ▸ listed))
  · exact fun id listed =>
      List.mem_append_left _ (remembers.externals id (externals ▸ listed))

/-- An edge of the type of its reference, or a symbol use. -/
def PlainLink (ref : RawRef) (edge : Edge) : Prop :=
  edge.type = ref.type ∨ edge.type = .references

/-- An answer that synthesizes nothing, marks nobody and emits plain links. -/
structure Quiet (memo : Memo) (ref : RawRef) (answer : Answer) : Prop where
  declares : answer.chunk.declares = []
  tables : answer.memo.tables = memo.tables
  marks : answer.memo.marks = memo.marks
  links : ∀ edge ∈ answer.chunk.links, PlainLink ref edge

/-- The edges of a fan-out are plain. -/
theorem plain_fanOut {ref : RawRef} {type : EdgeType} {wanted : List Node}
    {confidence : Confidence} {strategy : Str} (typed : type = ref.type ∨ type = .references) :
    ∀ edge ∈ fanOut ref type wanted confidence strategy, PlainLink ref edge := by
  intro edge listed
  obtain ⟨node, _, rfl⟩ := List.mem_map.mp listed
  exact typed

theorem plain_single {ref : RawRef} {type : EdgeType} {dst : NodeId} {confidence : Confidence}
    {strategy : Str} (typed : type = ref.type ∨ type = .references) :
    ∀ edge ∈ [heuristicEdge ref type dst confidence strategy], PlainLink ref edge := by
  intro edge listed
  rw [List.mem_singleton.mp listed]
  exact typed

theorem plain_none {ref : RawRef} : ∀ edge ∈ ([] : List Edge), PlainLink ref edge :=
  fun _ listed => (List.not_mem_nil listed).elim

/-- An emission synthesizes nothing and emits plain links. -/
theorem quiet_emit (settings : Settings) (memo : Memo) (ref : RawRef) (wanted : List Node)
    (confidence : Confidence) (knownInRepo : Bool) (strategy : Str) :
    Quiet memo ref (emit settings memo ref wanted confidence knownInRepo strategy) := by
  unfold emit
  split
  · exact ⟨rfl, rfl, rfl, plain_none⟩
  · exact ⟨rfl, rfl, rfl, plain_single (Or.inl rfl)⟩
  · split
    · exact ⟨rfl, rfl, rfl, plain_none⟩
    · exact ⟨rfl, rfl, rfl, plain_fanOut (Or.inl rfl)⟩

theorem quiet_resolveFileRef (memo : Memo) (ref : RawRef) :
    Quiet memo ref (resolveFileRef settings corpus memo ref) := by
  unfold resolveFileRef
  split
  · exact ⟨rfl, rfl, rfl, plain_none⟩
  · dsimp only
    split <;> exact quiet_emit ..

theorem quiet_resolveHandler (memo : Memo) (ref : RawRef) :
    Quiet memo ref (resolveHandler settings corpus memo ref) := by
  unfold resolveHandler
  split
  · exact ⟨rfl, rfl, rfl, plain_single (Or.inl rfl)⟩
  · exact quiet_emit ..

theorem quiet_resolveField (memo : Memo) (ref : RawRef) :
    Quiet memo ref (resolveField settings corpus memo ref) := by
  unfold resolveField
  dsimp only
  split
  · exact quiet_emit ..
  · split
    · exact quiet_emit ..
    · split <;> exact quiet_emit ..

/-- A call on an unknown receiver synthesizes nothing. -/
theorem quiet_resolveUnknownReceiver (memo : Memo) (ref : RawRef) (wanted : List Node)
    (strategy : Str) :
    Quiet memo ref (resolveUnknownReceiver settings memo ref wanted strategy) := by
  unfold resolveUnknownReceiver
  dsimp only
  split
  · exact ⟨rfl, rfl, rfl, plain_single (Or.inr rfl)⟩
  · split
    · exact ⟨rfl, rfl, rfl, plain_none⟩
    · exact ⟨rfl, rfl, rfl, plain_fanOut (Or.inr rfl)⟩

theorem quiet_resolveFallback (memo : Memo) (ref : RawRef) (strategy : Str) :
    Quiet memo ref (resolveFallback corpus memo ref strategy) := by
  unfold resolveFallback
  dsimp only
  split
  · exact ⟨rfl, rfl, rfl, plain_none⟩
  · exact ⟨rfl, rfl, rfl, plain_single (Or.inr rfl)⟩
  · exact ⟨rfl, rfl, rfl, plain_fanOut (Or.inr rfl)⟩

/-- A call in the repository synthesizes nothing, whatever branch it takes. -/
theorem quiet_resolveInRepoCall (memo : Memo) (ref : RawRef) :
    Quiet memo ref (resolveInRepoCall settings corpus memo ref) := by
  unfold resolveInRepoCall
  dsimp only
  split
  · exact quiet_resolveUnknownReceiver ..
  · have emitted := quiet_emit settings memo ref (corpus.narrowCall ref).1 .inferred
      (!(corpus.byName ref.targetName).isEmpty) (corpus.narrowCall ref).2
    split
    · have fallback : Quiet _ ref (resolveFallback corpus _ ref (corpus.narrowCall ref).2) :=
        quiet_resolveFallback (emit settings memo ref (corpus.narrowCall ref).1 .inferred
          (!(corpus.byName ref.targetName).isEmpty) (corpus.narrowCall ref).2).memo ref _
      exact ⟨fallback.declares, fallback.tables.trans emitted.tables,
        fallback.marks.trans emitted.marks, fallback.links⟩
    · exact emitted

/-- References other than annotations, HTTP calls and calls are quiet. -/
theorem quiet_resolveOneRef (memo : Memo) {ref : RawRef} (unmarked : ref.type ≠ .annotatedWith)
    (api : ref.type ≠ .callsApi) (call : ref.type ≠ .calls) :
    Quiet memo ref (resolveOneRef settings corpus memo ref) := by
  unfold resolveOneRef
  split
  · exact ⟨rfl, rfl, rfl, plain_none⟩
  · split
    · next typed => exact (unmarked typed).elim
    · next typed => exact (api typed).elim
    · exact quiet_resolveFileRef memo ref
    · exact quiet_resolveFileRef memo ref
    · exact quiet_resolveFileRef memo ref
    · exact quiet_resolveHandler memo ref
    · next typed => exact (call typed).elim
    · exact quiet_resolveField memo ref
    · exact quiet_resolveField memo ref
    · exact quiet_emit ..
    · exact quiet_emit ..
    · exact quiet_emit ..
    · exact quiet_emit ..
    · exact quiet_emit ..

theorem resolveOneRef_marked (memo : Memo) {ref : RawRef} (typed : ref.type = .annotatedWith) :
    resolveOneRef settings corpus memo ref = resolveAnnotated settings memo ref := by
  simp only [resolveOneRef, typed, dropped]
  rfl

theorem resolveOneRef_api (memo : Memo) {ref : RawRef} (typed : ref.type = .callsApi) :
    resolveOneRef settings corpus memo ref = resolveApi settings corpus memo ref := by
  simp only [resolveOneRef, typed, dropped]
  rfl

theorem resolveOneRef_call (memo : Memo) {ref : RawRef} (typed : ref.type = .calls) :
    resolveOneRef settings corpus memo ref = resolveCall settings corpus memo ref := by
  simp only [resolveOneRef, typed, dropped]
  rfl

variable (settings corpus) in
/-- What one answer adds: exactly the node its reference asks for, unless it was
made before. -/
structure Synthesizes (made : List NodeId) (ref : RawRef) (answer : Answer) : Prop where
  remembers : Remembers settings (made ++ answer.chunk.declares.map Node.id) answer.memo
  asked : ∀ id ∈ answer.chunk.declares.map Node.id, synthesizedId settings corpus ref = some id
  made : ∀ id, synthesizedId settings corpus ref = some id →
    id ∈ made ++ answer.chunk.declares.map Node.id

/-- A quiet answer to a reference that needs no stand-in synthesizes nothing. -/
theorem Quiet.synthesizes {made : List NodeId} {memo : Memo} {ref : RawRef} {answer : Answer}
    (quiet : Quiet memo ref answer) (remembers : Remembers settings made memo)
    (nothing : synthesizedId settings corpus ref = none) :
    Synthesizes settings corpus made ref answer where
  remembers := remembers.transfer quiet.tables
  asked id listed := by
    rw [quiet.declares] at listed
    cases listed
  made id wanted := by
    rw [nothing] at wanted
    cases wanted

/-- An answer that asks for a node made before. -/
theorem Synthesizes.again {made : List NodeId} {memo : Memo} {ref : RawRef} {answer : Answer}
    {id : NodeId} (remembers : Remembers settings made memo)
    (same : answer.memo.tables = memo.tables) (none : answer.chunk.declares = [])
    (wanted : synthesizedId settings corpus ref = some id) (present : id ∈ made) :
    Synthesizes settings corpus made ref answer where
  remembers := remembers.transfer same
  asked other listed := by
    rw [none] at listed
    cases listed
  made other asked := by
    rw [wanted, Option.some.injEq] at asked
    exact List.mem_append_left _ (asked ▸ present)

/-- An answer that makes the node it asks for. -/
theorem Synthesizes.fresh {made : List NodeId} {ref : RawRef} {answer : Answer} {id : NodeId}
    (wanted : synthesizedId settings corpus ref = some id)
    (single : answer.chunk.declares.map Node.id = [id])
    (remembers : Remembers settings (made ++ [id]) answer.memo) :
    Synthesizes settings corpus made ref answer where
  remembers := by rwa [single]
  asked other listed := by
    rw [single] at listed
    rw [List.mem_singleton.mp listed]
    exact wanted
  made other asked := by
    rw [wanted, Option.some.injEq] at asked
    rw [single]
    exact List.mem_append_right _ (asked ▸ List.mem_cons_self)

/-- The stand-in of an annotation is made the first time and remembered. -/
theorem synthesizes_resolveAnnotated {made : List NodeId} {memo : Memo} {ref : RawRef}
    (remembers : Remembers settings made memo) (typed : ref.type = .annotatedWith) :
    Synthesizes settings corpus made ref
      (resolveAnnotated settings memo ref) := by
  unfold resolveAnnotated
  split
  · next noise =>
      have nothing : synthesizedId settings corpus ref = none := by
        simp only [synthesizedId, typed, noise, ↓reduceIte]
      refine Quiet.synthesizes ?_ remembers nothing
      exact ⟨rfl, rfl, rfl, plain_none⟩
  · next signal =>
      have wanted : synthesizedId settings corpus ref =
          some (settings.makeId settings.repo ('@' :: ref.targetName) "annotation") := by
        simp only [synthesizedId, typed, signal, ↓reduceIte]
      split
      · next id found =>
          obtain ⟨same, present⟩ := remembers.annotations _ _ found
          exact .again remembers rfl rfl wanted (same ▸ present)
      · refine .fresh wanted rfl ⟨?_, ?_, ?_⟩
        · intro name id found
          rw [Dict.get?_set] at found
          split at found
          · next same =>
              rw [Option.some.injEq] at found
              subst same found
              exact ⟨rfl, List.mem_append_right _ List.mem_cons_self⟩
          · obtain ⟨same, present⟩ := remembers.annotations name id found
            exact ⟨same, List.mem_append_left _ present⟩
        · exact fun id listed => List.mem_append_left _ (remembers.endpoints id listed)
        · exact fun id listed => List.mem_append_left _ (remembers.externals id listed)

theorem synthesizes_resolveApi {made : List NodeId} {memo : Memo} {ref : RawRef}
    (remembers : Remembers settings made memo) (typed : ref.type = .callsApi) :
    Synthesizes settings corpus made ref
      (resolveApi settings corpus memo ref) := by
  unfold resolveApi
  dsimp only
  split
  · next unmet =>
      have wanted : synthesizedId settings corpus ref = some (missingEndpointId settings ref) := by
        simp only [synthesizedId, typed, unmet, List.isEmpty_nil, ↓reduceIte]
      by_cases before : missingEndpointId settings ref ∈ memo.apiEndpointIds
      · simp only [before, ↓reduceIte]
        exact .again remembers rfl rfl wanted (remembers.endpoints _ before)
      · simp only [before, ↓reduceIte]
        refine .fresh wanted rfl ⟨?_, ?_, ?_⟩
        · intro name id found
          obtain ⟨same, present⟩ := remembers.annotations name id found
          exact ⟨same, List.mem_append_left _ present⟩
        · intro id listed
          rcases List.mem_cons.mp listed with rfl | earlier
          · exact List.mem_append_right _ List.mem_cons_self
          · exact List.mem_append_left _ (remembers.endpoints id earlier)
        · exact fun id listed => List.mem_append_left _ (remembers.externals id listed)
  · next hits met =>
      have nothing : synthesizedId settings corpus ref = none := by
        have several : (matchEndpoints corpus.nodes (refVerb ref)
            (normalizeRoute ref.targetName)).isEmpty = false :=
          List.isEmpty_eq_false_iff.mpr met
        simp only [synthesizedId, typed, several, Bool.false_eq_true, ↓reduceIte]
      refine Quiet.synthesizes ?_ remembers nothing
      exact ⟨rfl, rfl, rfl, plain_fanOut (Or.inl rfl)⟩

/-- The stand-in of a foreign call is made the first time and remembered. -/
theorem synthesizes_resolveExternal {made : List NodeId} {memo : Memo} {ref : RawRef}
    (remembers : Remembers settings made memo) (foreign : ForeignCall settings corpus ref) :
    Synthesizes settings corpus made ref (resolveExternal settings memo ref) := by
  have kept : ∀ memo, (markCall settings memo ref).annotationIds = memo.annotationIds ∧
      (markCall settings memo ref).apiEndpointIds = memo.apiEndpointIds ∧
        (markCall settings memo ref).externalIds = memo.externalIds := by
    intro memo
    unfold markCall
    split <;> exact ⟨rfl, rfl, rfl⟩
  obtain ⟨annotations, endpoints, externals⟩ := kept (memo.judge ref.type .external)
  unfold resolveExternal
  dsimp only
  cases kind : classifyCall settings.catalog ref.recvType ref.targetName [] with
  | none =>
      have nothing : synthesizedId settings corpus ref = none := by
        simp only [synthesizedId, foreign.1, kind, Option.isSome_none, Bool.false_eq_true, and_false,
          ↓reduceIte]
      refine ⟨remembers.transfer ?_, ?_, ?_⟩
      · simp only [Memo.tables, annotations, endpoints, externals]
        rfl
      · intro id listed
        cases listed
      · intro id asked
        rw [nothing] at asked
        cases asked
  | some kind' =>
      have wanted : synthesizedId settings corpus ref =
          some (externalId settings.makeId ref.recvType ref.targetName) := by
        simp only [synthesizedId, foreign.1, foreign, kind, Option.isSome_some, and_self,
          ↓reduceIte]
      by_cases before : externalId settings.makeId ref.recvType ref.targetName ∈ memo.externalIds
      · simp only [externalTarget, before, ↓reduceIte]
        refine .again remembers ?_ rfl wanted (remembers.externals _ before)
        simp only [Memo.tables, annotations, endpoints]
        rfl
      · simp only [externalTarget, before, ↓reduceIte]
        refine .fresh wanted rfl ⟨?_, ?_, ?_⟩
        · intro name id found
          obtain ⟨same, present⟩ := remembers.annotations name id (annotations ▸ found)
          exact ⟨same, List.mem_append_left _ present⟩
        · intro id listed
          exact List.mem_append_left _ (remembers.endpoints id (endpoints ▸ listed))
        · intro id listed
          rcases List.mem_cons.mp listed with rfl | earlier
          · exact List.mem_append_right _ List.mem_cons_self
          · exact List.mem_append_left _ (remembers.externals id earlier)

/-- A call makes a stand-in where it is foreign and none else. -/
theorem synthesizes_resolveCall {made : List NodeId} {memo : Memo} {ref : RawRef}
    (remembers : Remembers settings made memo) (typed : ref.type = .calls) :
    Synthesizes settings corpus made ref (resolveCall settings corpus memo ref) := by
  have nothing : ¬ ForeignCall settings corpus ref → synthesizedId settings corpus ref = none := by
    intro domestic
    simp only [synthesizedId, typed, domestic, false_and, ↓reduceIte]
  unfold resolveCall
  split
  · next skipped =>
      refine Quiet.synthesizes ?_ remembers (nothing fun foreign => foreign.2.1 skipped)
      exact ⟨rfl, rfl, rfl, plain_none⟩
  · next unskipped =>
      split
      · next outside => exact synthesizes_resolveExternal remembers ⟨typed, unskipped, outside⟩
      · next inside =>
          refine Quiet.synthesizes ?_ remembers (nothing fun foreign => inside foreign.2.2)
          exact quiet_resolveInRepoCall memo ref

/-- Only annotations, HTTP calls and calls synthesize nodes. -/
theorem synthesizedId_eq_none {ref : RawRef} (unmarked : ref.type ≠ .annotatedWith)
    (api : ref.type ≠ .callsApi) (call : ref.type ≠ .calls) :
    synthesizedId settings corpus ref = none := by
  unfold synthesizedId
  split
  · next typed => exact (unmarked typed).elim
  · next typed => exact (api typed).elim
  · next typed => exact (call typed).elim
  · rfl

/-- **Synthesis, one reference.** A reference adds exactly the node it asks for,
unless it was made before. -/
theorem synthesizes_resolveOneRef {made : List NodeId} {memo : Memo} (ref : RawRef)
    (remembers : Remembers settings made memo) :
    Synthesizes settings corpus made ref (resolveOneRef settings corpus memo ref) := by
  by_cases marked : ref.type = .annotatedWith
  · rw [resolveOneRef_marked memo marked]
    exact synthesizes_resolveAnnotated remembers marked
  by_cases api : ref.type = .callsApi
  · rw [resolveOneRef_api memo api]
    exact synthesizes_resolveApi remembers api
  by_cases call : ref.type = .calls
  · rw [resolveOneRef_call memo call]
    exact synthesizes_resolveCall remembers call
  exact (quiet_resolveOneRef memo marked api call).synthesizes remembers
    (synthesizedId_eq_none marked api call)

/-- **Synthesis, a run.** The nodes made along some references are those the
references ask for. -/
theorem mem_declares_chunksFrom {made : List NodeId} {memo : Memo} (refs : List RawRef)
    (remembers : Remembers settings made memo) (id : NodeId) :
    id ∈ made ++ ((chunksFrom settings corpus memo refs).flatMap Chunk.declares).map Node.id ↔
      id ∈ made ∨ ∃ ref ∈ refs, synthesizedId settings corpus ref = some id := by
  induction refs generalizing made memo with
  | nil => simp only [chunksFrom, List.flatMap_nil, List.map_nil, List.append_nil, List.not_mem_nil,
      false_and, exists_false, or_false]
  | cons ref rest ih =>
      have entered : Remembers settings made (memo.enter ref.type) :=
        ⟨remembers.annotations, remembers.endpoints, remembers.externals⟩
      have step : Synthesizes settings corpus made ref (nextAnswer settings corpus memo ref) :=
        synthesizes_resolveOneRef ref entered
      rw [chunksFrom, List.flatMap_cons, List.map_append, ← List.append_assoc,
        ih step.remembers]
      simp only [List.mem_cons, exists_eq_or_imp]
      constructor
      · intro found
        rcases found with made | later
        · rcases List.mem_append.mp made with before | now
          · exact Or.inl before
          · exact Or.inr (Or.inl (step.asked id now))
        · exact Or.inr (Or.inr later)
      · intro found
        rcases found with before | now | later
        · exact Or.inl (List.mem_append_left _ before)
        · exact Or.inl (step.made id now)
        · exact Or.inr later

/-- The synthesized nodes of a run are those its references ask for. -/
theorem mem_extraNodes_iff (settings : Settings) (corpus : Corpus) (id : NodeId) :
    id ∈ (resolve settings corpus).extraNodes.map Node.id ↔
      ∃ ref ∈ corpus.refs, synthesizedId settings corpus ref = some id := by
  have made : id ∈ [] ++ ((chunksFrom settings corpus {} corpus.refs).flatMap
      Chunk.declares).map Node.id ↔ _ := mem_declares_chunksFrom corpus.refs (remembers_nil settings) id
  exact made.trans (or_iff_right List.not_mem_nil)

end Synthesis

end GraphIngest.Resolve
