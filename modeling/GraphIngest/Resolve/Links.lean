import GraphIngest.Resolve.Run

/-! # The edges of a reference

What the resolver remembers never decides which edges a reference gets: an
annotation it has met before has the id it would be given anew. So a run emits,
reference by reference, the edges each of them has by itself.
-/

namespace GraphIngest.Resolve

open Foundation Text Graph External

section Links

variable (settings : Settings) (corpus : Corpus)

/-- The edges of a reference, whatever has been resolved before. -/
def linksOf (ref : RawRef) : List Edge := (resolveOneRef settings corpus {} ref).chunk.links

/-- The edges a run emits. -/
def emitted : List Edge := (resolve settings corpus).handed.flatMap Chunk.links

variable {settings corpus}

/-- What is emitted does not depend on the memo. -/
theorem links_emit (memo other : Memo) (ref : RawRef) (wanted : List Node)
    (confidence : Confidence) (knownInRepo : Bool) (strategy : Str) :
    (emit settings memo ref wanted confidence knownInRepo strategy).chunk.links =
      (emit settings other ref wanted confidence knownInRepo strategy).chunk.links := by
  unfold emit
  split
  · rfl
  · rfl
  · split <;> rfl

/-- A memo that knows the ids of annotations as they are made changes no edge. -/
theorem links_resolveAnnotated_eq {memo : Memo} {ref : RawRef}
    (known : ∀ name id, memo.annotationIds.get? name = some id →
      id = settings.makeId settings.repo ('@' :: name) "annotation") :
    (resolveAnnotated settings memo ref).chunk.links =
      (resolveAnnotated settings {} ref).chunk.links := by
  unfold resolveAnnotated
  split
  · rfl
  · cases met : memo.annotationIds.get? ref.targetName with
    | none => rfl
    | some id =>
        rw [known ref.targetName id met]
        rfl

theorem links_resolveApi_eq (memo : Memo) (ref : RawRef) :
    (resolveApi settings corpus memo ref).chunk.links =
      (resolveApi settings corpus {} ref).chunk.links := by
  unfold resolveApi
  dsimp only
  split <;> rfl

theorem links_resolveFileRef (memo : Memo) (ref : RawRef) :
    (resolveFileRef settings corpus memo ref).chunk.links =
      (resolveFileRef settings corpus {} ref).chunk.links := by
  unfold resolveFileRef
  split
  · rfl
  · dsimp only
    split <;> exact links_emit ..

theorem links_resolveHandler (memo : Memo) (ref : RawRef) :
    (resolveHandler settings corpus memo ref).chunk.links =
      (resolveHandler settings corpus {} ref).chunk.links := by
  unfold resolveHandler
  split
  · rfl
  · exact links_emit ..

theorem links_resolveField (memo : Memo) (ref : RawRef) :
    (resolveField settings corpus memo ref).chunk.links =
      (resolveField settings corpus {} ref).chunk.links := by
  unfold resolveField
  dsimp only
  split
  · exact links_emit ..
  · split
    · exact links_emit ..
    · split <;> exact links_emit ..

theorem links_resolveUnknownReceiver (memo other : Memo) (ref : RawRef) (wanted : List Node)
    (strategy : Str) :
    (resolveUnknownReceiver settings memo ref wanted strategy).chunk.links =
      (resolveUnknownReceiver settings other ref wanted strategy).chunk.links := by
  unfold resolveUnknownReceiver
  dsimp only
  split
  · rfl
  · split <;> rfl

theorem links_resolveFallback (memo other : Memo) (ref : RawRef) (strategy : Str) :
    (resolveFallback corpus memo ref strategy).chunk.links =
      (resolveFallback corpus other ref strategy).chunk.links := by
  unfold resolveFallback
  dsimp only
  split <;> rfl

/-- The edges of a call in the repository do not depend on the memo. -/
theorem links_resolveInRepoCall (memo : Memo) (ref : RawRef) :
    (resolveInRepoCall settings corpus memo ref).chunk.links =
      (resolveInRepoCall settings corpus {} ref).chunk.links := by
  unfold resolveInRepoCall
  dsimp only
  split
  · exact links_resolveUnknownReceiver ..
  · split
    · exact links_resolveFallback ..
    · exact links_emit ..

theorem links_resolveExternal_eq (memo : Memo) (ref : RawRef) :
    (resolveExternal settings memo ref).chunk.links =
      (resolveExternal settings {} ref).chunk.links := by
  unfold resolveExternal
  dsimp only
  split <;> rfl

/-- The edges of a call do not depend on the memo. -/
theorem links_resolveCall (memo : Memo) (ref : RawRef) :
    (resolveCall settings corpus memo ref).chunk.links =
      (resolveCall settings corpus {} ref).chunk.links := by
  unfold resolveCall
  split
  · rfl
  · split
    · exact links_resolveExternal_eq ..
    · exact links_resolveInRepoCall ..

/-- **Edges, one reference.** What is remembered does not decide on them. -/
theorem links_resolveOneRef {memo : Memo} {ref : RawRef}
    (known : ∀ name id, memo.annotationIds.get? name = some id →
      id = settings.makeId settings.repo ('@' :: name) "annotation") :
    (resolveOneRef settings corpus memo ref).chunk.links = linksOf settings corpus ref := by
  unfold linksOf resolveOneRef
  split
  · rfl
  · split
    · exact links_resolveAnnotated_eq known
    · exact links_resolveApi_eq ..
    · exact links_resolveFileRef ..
    · exact links_resolveFileRef ..
    · exact links_resolveFileRef ..
    · exact links_resolveHandler ..
    · exact links_resolveCall ..
    · exact links_resolveField ..
    · exact links_resolveField ..
    · exact links_emit ..
    · exact links_emit ..
    · exact links_emit ..
    · exact links_emit ..
    · exact links_emit ..

/-- **Edges, a run.** References emit one after the other what each of them has. -/
theorem links_chunksFrom {made : List NodeId} {memo : Memo} (refs : List RawRef)
    (remembers : Remembers settings made memo) :
    (chunksFrom settings corpus memo refs).flatMap Chunk.links =
      refs.flatMap (linksOf settings corpus) := by
  induction refs generalizing made memo with
  | nil => rfl
  | cons ref rest ih =>
      have entered : Remembers settings made (memo.enter ref.type) :=
        ⟨remembers.annotations, remembers.endpoints, remembers.externals⟩
      have step : Synthesizes settings corpus made ref (nextAnswer settings corpus memo ref) :=
        synthesizes_resolveOneRef ref entered
      have own : (nextAnswer settings corpus memo ref).chunk.links = linksOf settings corpus ref :=
        links_resolveOneRef fun name id met => (entered.annotations name id met).1
      rw [chunksFrom, List.flatMap_cons, List.flatMap_cons, own, ih step.remembers]

/-- The edges of a run are those of its references, in order. -/
theorem emitted_eq (settings : Settings) (corpus : Corpus) :
    emitted settings corpus = corpus.refs.flatMap (linksOf settings corpus) := by
  rw [emitted, resolve, flatMap_links_batches]
  exact links_chunksFrom corpus.refs (remembers_nil settings)

end Links

end GraphIngest.Resolve
