import GraphIngest.Resolve.Coverage
import GraphIngest.Resolve.Links

/-! # Resuming a resolution run

A run without a sink saves its state every so often, and a run started again
goes on from the state saved last. The state is saved under the number of the
reference that is about to be resolved, and the resumed run skips every number
up to that one.
-/

namespace GraphIngest.Resolve

open Foundation Text Graph External

/-- What a run without a sink has accumulated. -/
structure Progress where
  memo : Memo := {}
  extraNodes : List Node := []
  outEdges : List Edge := []

/-- What is saved of it: not the ids of external targets, nor the taint facts. -/
structure ResolveState where
  totalRefs : Nat
  nextIndex : Nat
  extraNodes : List Node
  annotationIds : Dict Str NodeId
  apiEndpointIds : List NodeId
  outEdges : List Edge
  coverage : Dict EdgeType Coverage

/-- What a run without a sink returns. -/
structure Outcome where
  extraNodes : List Node
  outEdges : List Edge
  coverage : Dict EdgeType Coverage
  marks : Dict NodeId ResolverMark

/-- `_save_checkpoint`. -/
def Progress.save (progress : Progress) (totalRefs nextIndex : Nat) : ResolveState where
  totalRefs := totalRefs
  nextIndex := nextIndex
  extraNodes := progress.extraNodes
  annotationIds := progress.memo.annotationIds
  apiEndpointIds := progress.memo.apiEndpointIds
  outEdges := progress.outEdges
  coverage := progress.memo.coverage

/-- `load_resolve_checkpoint`: the state of another number of references is
discarded. -/
def loadResolveCheckpoint (stored : Option ResolveState) (totalRefs : Nat) :
    Option ResolveState :=
  stored.filter fun state => state.totalRefs = totalRefs

/-- Where a run starts. -/
def Progress.restore : Option ResolveState → Progress
  | none => {}
  | some state =>
      { memo :=
          { annotationIds := state.annotationIds
            apiEndpointIds := state.apiEndpointIds
            coverage := state.coverage }
        extraNodes := state.extraNodes
        outEdges := state.outEdges }

/-- What a run that ends here returns. -/
def Progress.outcome (progress : Progress) : Outcome where
  extraNodes := progress.extraNodes
  outEdges := progress.outEdges
  coverage := progress.memo.coverage
  marks := progress.memo.marks

/-- The number up to which references count as resolved. -/
def resumeIndex (saved : Option ResolveState) : Nat := (saved.map ResolveState.nextIndex).getD 0

section Loop

variable (settings : Settings) (corpus : Corpus)

/-- Resolve one reference. -/
def Progress.advance (progress : Progress) (ref : RawRef) : Progress :=
  let answer := nextAnswer settings corpus progress.memo ref
  { memo := answer.memo
    extraNodes := progress.extraNodes ++ answer.chunk.declares
    outEdges := progress.outEdges ++ answer.chunk.links }

/-- The loop over the references, numbered from one: the states it saves where a
checkpoint is due, and where it ends. -/
def mainLoop (due : Nat → Bool) (totalRefs resumed : Nat) :
    Nat → List RawRef → Progress → List ResolveState × Progress
  | _, [], progress => ([], progress)
  | index, ref :: rest, progress =>
      if index ≤ resumed then mainLoop due totalRefs resumed (index + 1) rest progress
      else
        let (states, final) :=
          mainLoop due totalRefs resumed (index + 1) rest (progress.advance settings corpus ref)
        (if due index then progress.save totalRefs index :: states else states, final)

/-- A run from what is stored: the states it saves and what it returns. -/
def resolveFrom (due : Nat → Bool) (stored : Option ResolveState) : List ResolveState × Outcome :=
  let saved := loadResolveCheckpoint stored corpus.refs.length
  let (states, final) :=
    mainLoop settings corpus due corpus.refs.length (resumeIndex saved) 1 corpus.refs
      (Progress.restore saved)
  (states, final.outcome)

/-- Two runs return the same: the nodes without repeated ids, the edges in
whatever order, the counts and the taint facts. -/
structure SameOutcome (resumed whole : Outcome) : Prop where
  nodes : resumed.extraNodes = whole.extraNodes
  distinct : (resumed.extraNodes.map Node.id).Nodup
  edges : resumed.outEdges.Perm whole.outEdges
  coverage : ∀ type, resumed.coverage.get? type = whole.coverage.get? type
  marks : ∀ id, resumed.marks.get? id = whole.marks.get? id

variable {settings corpus}

theorem memo_foldl_advance (refs : List RawRef) (progress : Progress) :
    (refs.foldl (Progress.advance settings corpus) progress).memo =
      memoAfter settings corpus refs progress.memo := by
  induction refs generalizing progress with
  | nil => rfl
  | cons ref rest ih => exact ih _

theorem outEdges_foldl_advance (refs : List RawRef) (progress : Progress) :
    (refs.foldl (Progress.advance settings corpus) progress).outEdges =
      progress.outEdges ++
        (chunksFrom settings corpus progress.memo refs).flatMap Chunk.links := by
  induction refs generalizing progress with
  | nil => exact (List.append_nil _).symm
  | cons ref rest ih =>
      rw [List.foldl_cons, ih, chunksFrom, List.flatMap_cons, ← List.append_assoc]
      rfl

/-- **Where the loop ends.** It resolves the references behind the resumed
number. -/
theorem mainLoop_final (due : Nat → Bool) (totalRefs resumed index : Nat) (refs : List RawRef)
    (progress : Progress) :
    (mainLoop settings corpus due totalRefs resumed index refs progress).2 =
      (refs.drop (resumed + 1 - index)).foldl (Progress.advance settings corpus) progress := by
  induction refs generalizing index progress with
  | nil => rw [List.drop_nil]; rfl
  | cons ref rest ih =>
      unfold mainLoop
      by_cases before : index ≤ resumed
      · have count : resumed + 1 - index = (resumed + 1 - (index + 1)) + 1 := by omega
        rw [if_pos before, ih, count, List.drop_succ_cons]
      · have all : resumed + 1 - index = 0 := by omega
        have later : resumed + 1 - (index + 1) = 0 := by omega
        rw [if_neg before, all, List.drop_zero, List.foldl_cons]
        dsimp only
        rw [ih, later, List.drop_zero]

/-- **What the loop saves.** A state holds what the references before some one
have left, under the number of that one. -/
theorem mem_mainLoop_states {due : Nat → Bool} {totalRefs index : Nat} {refs : List RawRef}
    {progress : Progress} {state : ResolveState}
    (saved : state ∈ (mainLoop settings corpus due totalRefs 0 (index + 1) refs progress).1) :
    ∃ earlier ref later, refs = earlier ++ ref :: later ∧
      state = (earlier.foldl (Progress.advance settings corpus) progress).save totalRefs
        (index + 1 + earlier.length) := by
  induction refs generalizing index progress with
  | nil => exact (List.not_mem_nil saved).elim
  | cons ref rest ih =>
      have next : state ∈ (mainLoop settings corpus due totalRefs 0 (index + 1 + 1) rest
          (progress.advance settings corpus ref)).1 →
          ∃ earlier other later, ref :: rest = earlier ++ other :: later ∧
            state = (earlier.foldl (Progress.advance settings corpus) progress).save totalRefs
              (index + 1 + earlier.length) := by
        intro later
        obtain ⟨earlier, other, after, rfl, rfl⟩ := ih later
        refine ⟨ref :: earlier, other, after, rfl, ?_⟩
        rw [List.foldl_cons, List.length_cons, Nat.add_assoc (index + 1), Nat.add_comm 1]
      unfold mainLoop at saved
      rw [if_neg (Nat.not_succ_le_zero index)] at saved
      dsimp only at saved
      cases stop : due (index + 1) with
      | false =>
          rw [stop, if_neg Bool.false_ne_true] at saved
          exact next saved
      | true =>
          rw [stop, if_pos rfl] at saved
          cases List.mem_cons.mp saved with
          | inl here => exact ⟨[], ref, rest, rfl, here⟩
          | inr later => exact next later

/-- A run from the start resolves every reference. -/
theorem mainLoop_whole (due : Nat → Bool) :
    (mainLoop settings corpus due corpus.refs.length 0 1 corpus.refs {}).2 =
      corpus.refs.foldl (Progress.advance settings corpus) {} := by
  rw [mainLoop_final]
  rfl

/-- A run from a state goes on behind the reference the state was saved at. -/
theorem mainLoop_resumed (due : Nat → Bool) {earlier later : List RawRef} {ref : RawRef}
    (listed : corpus.refs = earlier ++ ref :: later) (progress : Progress) :
    (mainLoop settings corpus due corpus.refs.length (1 + earlier.length) 1 corpus.refs
        progress).2 =
      later.foldl (Progress.advance settings corpus) progress := by
  have behind : 1 + earlier.length + 1 - 1 = earlier.length + 1 := by omega
  rw [mainLoop_final, behind, listed, ← List.drop_drop, List.drop_left, List.drop_one,
    List.tail_cons]

end Loop

section Resumption

variable {settings : Settings} {corpus : Corpus}

variable (settings corpus) in
/-- The state saved when some references have been resolved. -/
def savedBehind (earlier : List RawRef) : ResolveState :=
  (earlier.foldl (Progress.advance settings corpus) {}).save corpus.refs.length
    (1 + earlier.length)

/-- The states a run saves are those behind its references, one short of the
number they carry. -/
theorem exists_savedBehind {due : Nat → Bool} {state : ResolveState}
    (saved : state ∈ (resolveFrom settings corpus due none).1) :
    ∃ earlier ref later, corpus.refs = earlier ++ ref :: later ∧
      state = savedBehind settings corpus earlier := by
  obtain ⟨earlier, ref, later, listed, named⟩ := mem_mainLoop_states saved
  exact ⟨earlier, ref, later, listed, named⟩

theorem load_savedBehind (earlier : List RawRef) :
    loadResolveCheckpoint (some (savedBehind settings corpus earlier)) corpus.refs.length =
      some (savedBehind settings corpus earlier) := by
  simp only [loadResolveCheckpoint, savedBehind, Progress.save, Option.filter_some, decide_true,
    ↓reduceIte]

/-- The resumed run ends where the references behind the skipped one lead. -/
theorem resolveFrom_savedBehind (due : Nat → Bool) {earlier later : List RawRef} {ref : RawRef}
    (listed : corpus.refs = earlier ++ ref :: later) :
    (resolveFrom settings corpus due (some (savedBehind settings corpus earlier))).2 =
      (later.foldl (Progress.advance settings corpus)
        (Progress.restore (some (savedBehind settings corpus earlier)))).outcome := by
  unfold resolveFrom
  rw [load_savedBehind]
  dsimp only
  apply congrArg
  exact mainLoop_resumed due listed _

theorem coverage_whole (due : Nat → Bool) (type : EdgeType) :
    (resolveFrom settings corpus due none).2.coverage.getD type {} =
      (corpus.refs.map fun ref => share settings corpus ref type).sum := by
  have final : (resolveFrom settings corpus due none).2.coverage =
      (memoAfter settings corpus corpus.refs {}).coverage := by
    change (mainLoop settings corpus due corpus.refs.length 0 1 corpus.refs {}).2.memo.coverage = _
    rw [mainLoop_whole, memo_foldl_advance]
  rw [final]
  exact (counted_memoAfter corpus.refs {} type).trans (zero_add _)

/-- The resumed run has counted all references but the skipped one. -/
theorem coverage_resumed (due : Nat → Bool) {earlier later : List RawRef} {ref : RawRef}
    (listed : corpus.refs = earlier ++ ref :: later) (type : EdgeType) :
    (resolveFrom settings corpus due
        (some (savedBehind settings corpus earlier))).2.coverage.getD type {} =
      (earlier.map fun ref => share settings corpus ref type).sum +
        (later.map fun ref => share settings corpus ref type).sum := by
  have before : (Progress.restore (some (savedBehind settings corpus earlier))).memo.counted type =
      (earlier.map fun ref => share settings corpus ref type).sum := by
    have kept : (Progress.restore (some (savedBehind settings corpus earlier))).memo.coverage =
        (memoAfter settings corpus earlier {}).coverage := by
      change (earlier.foldl (Progress.advance settings corpus) {}).memo.coverage = _
      rw [memo_foldl_advance]
    rw [Memo.counted_of_coverage kept]
    exact (counted_memoAfter earlier {} type).trans (zero_add _)
  rw [resolveFrom_savedBehind due listed, ← before, ← counted_memoAfter, ← memo_foldl_advance]
  rfl

/-- **What a resumed run lacks.** The counts of the whole run are those of the
resumed one and of the reference it was saved at. -/
theorem coverage_whole_eq_resumed_add (due again : Nat → Bool) {earlier later : List RawRef}
    {ref : RawRef} (listed : corpus.refs = earlier ++ ref :: later) (type : EdgeType) :
    (resolveFrom settings corpus due none).2.coverage.getD type {} =
      (resolveFrom settings corpus again
        (some (savedBehind settings corpus earlier))).2.coverage.getD type {} +
        share settings corpus ref type := by
  rw [coverage_whole, coverage_resumed again listed, listed, List.map_append, List.sum_append,
    List.map_cons, List.sum_cons, add_assoc, add_comm (share settings corpus ref type)]

theorem remembers_memoAfter {made : List NodeId} {memo : Memo} (refs : List RawRef)
    (remembers : Remembers settings made memo) :
    ∃ more, Remembers settings more (memoAfter settings corpus refs memo) := by
  induction refs generalizing made memo with
  | nil => exact ⟨made, remembers⟩
  | cons ref rest ih =>
      have entered : Remembers settings made (memo.enter ref.type) :=
        ⟨remembers.annotations, remembers.endpoints, remembers.externals⟩
      have step : Synthesizes settings corpus made ref (nextAnswer settings corpus memo ref) :=
        synthesizes_resolveOneRef ref entered
      exact ih step.remembers

theorem outEdges_whole (due : Nat → Bool) :
    (resolveFrom settings corpus due none).2.outEdges =
      corpus.refs.flatMap (linksOf settings corpus) := by
  change (mainLoop settings corpus due corpus.refs.length 0 1 corpus.refs {}).2.outEdges = _
  rw [mainLoop_whole, outEdges_foldl_advance]
  exact links_chunksFrom corpus.refs (remembers_nil settings)

/-- **Edges of a resumed run.** Those of the whole run but for the reference the
state was saved at. -/
theorem outEdges_whole_perm (due again : Nat → Bool) {earlier later : List RawRef} {ref : RawRef}
    (listed : corpus.refs = earlier ++ ref :: later) :
    (resolveFrom settings corpus due none).2.outEdges.Perm
      ((resolveFrom settings corpus again
        (some (savedBehind settings corpus earlier))).2.outEdges ++
          linksOf settings corpus ref) := by
  obtain ⟨made, remembers⟩ := @remembers_memoAfter _ corpus _ _ earlier (remembers_nil settings)
  have restored : Remembers settings made
      (Progress.restore (some (savedBehind settings corpus earlier))).memo := by
    have kept : (earlier.foldl (Progress.advance settings corpus) {}).memo =
        memoAfter settings corpus earlier {} := memo_foldl_advance earlier {}
    refine ⟨?_, ?_, fun _ listed => (nomatch listed)⟩
    · intro name id found
      apply remembers.annotations name id
      rw [← kept]
      exact found
    · intro id listed
      apply remembers.endpoints id
      rw [← kept]
      exact listed
  have before : (savedBehind settings corpus earlier).outEdges =
      earlier.flatMap (linksOf settings corpus) := by
    change (earlier.foldl (Progress.advance settings corpus) {}).outEdges = _
    rw [outEdges_foldl_advance]
    exact links_chunksFrom earlier (remembers_nil settings)
  have resumed : (resolveFrom settings corpus again
      (some (savedBehind settings corpus earlier))).2.outEdges =
        earlier.flatMap (linksOf settings corpus) ++ later.flatMap (linksOf settings corpus) := by
    rw [resolveFrom_savedBehind again listed, Progress.outcome, outEdges_foldl_advance,
      links_chunksFrom later restored, ← before]
    rfl
  rw [outEdges_whole, resumed, listed, List.flatMap_append, List.flatMap_cons, List.append_assoc]
  exact List.Perm.append_left _ List.perm_append_comm

/-- **Resumption.** A run resumed from a saved state never returns what one
uninterrupted run does. -/
theorem not_sameOutcome_resumed (settings : Settings) (corpus : Corpus) (due again : Nat → Bool)
    {state : ResolveState} (saved : state ∈ (resolveFrom settings corpus due none).1) :
    ¬ SameOutcome (resolveFrom settings corpus again (some state)).2
      (resolveFrom settings corpus due none).2 := by
  intro same
  obtain ⟨earlier, ref, later, listed, rfl⟩ := exists_savedBehind saved
  obtain ⟨type, counted⟩ :=
    @exists_total_share_pos settings corpus ref
  have lacks := @coverage_whole_eq_resumed_add settings _ due again _ _ _ listed type
  have equal := congrArg Coverage.total lacks
  rw [Dict.getD, ← same.coverage type, Coverage.total_add, Dict.getD] at equal
  omega

/-- `run` calls `log`, both in one file. -/
def callingCorpus : Corpus where
  nodes :=
    [{ id := letterId 'r', label := .function, name := ['r', 'u', 'n'],
       fqn := ['r', 'u', 'n'], repo := [], kind := .function, file := ['m'] },
     { id := letterId 'l', label := .function, name := ['l', 'o', 'g'],
       fqn := ['l', 'o', 'g'], repo := [], kind := .function, file := ['m'] }]
  edges := []
  refs :=
    [{ type := .calls, src := letterId 'r', targetName := ['l', 'o', 'g'],
       kindHint := .call, refFile := ['m'], refLine := 2 }]

/-- The state saved at the call is the only one, and the edge that the whole run makes is not
made by the resumed one. -/
theorem not_sameOutcome_resumed_calling :
    let first := resolveFrom plainSettings callingCorpus (fun _ => true) none
    first.1 = [savedBehind plainSettings callingCorpus []] ∧ first.2.outEdges.length = 1 ∧
      ¬ SameOutcome (resolveFrom plainSettings callingCorpus (fun _ => true)
        (some (savedBehind plainSettings callingCorpus []))).2 first.2 :=
  ⟨rfl, by decide +kernel, not_sameOutcome_resumed plainSettings callingCorpus _ _
    List.mem_cons_self⟩

/-- A state saved at the call makes the resumed run lose it. -/
theorem calling_resumed_short : ¬ ∀ (settings : Settings) (corpus : Corpus)
    (due again : Nat → Bool) (state : ResolveState),
    state ∈ (resolveFrom settings corpus due none).1 →
      SameOutcome (resolveFrom settings corpus again (some state)).2
        (resolveFrom settings corpus due none).2 := by
  intro same
  have outcome := same plainSettings callingCorpus (fun _ => true) (fun _ => true)
    (savedBehind plainSettings callingCorpus []) List.mem_cons_self
  have edges := outcome.edges.length_eq
  revert edges
  decide +kernel

end Resumption

end GraphIngest.Resolve
