import GraphIngest.External.Taint
import GraphIngest.Foundation.KeyedLog
import GraphIngest.Resolve.Run

/-! # External facts of a resolution run

The external edges and the taint facts a run records are those of its unskipped
calls of receivers typed outside the repository: each recognised call brings the
edge to its target, with the target declared no later than the edge, and each
catalogued call shows in the marks of its caller.
-/

namespace GraphIngest.Resolve

open Foundation Text Graph External

section Edges

variable (settings : Settings) (corpus : Corpus)

/-- An unskipped call typed outside the repository that the classifier
recognises. -/
def RecognisedCall (ref : RawRef) : Prop :=
  ForeignCall settings corpus ref ∧
    (classifyCall settings.catalog ref.recvType ref.targetName []).isSome

/-- The node a call typed outside the repository goes to. -/
def targetId (ref : RawRef) : NodeId := externalId settings.makeId ref.recvType ref.targetName

/-- The edge of a recognised call. -/
def externalLink (ref : RawRef) : Edge :=
  heuristicEdge ref .callsExternal (targetId settings ref) .extracted "external_typed"

variable {settings corpus}

theorem type_resolveAnnotated_link {memo : Memo} {ref : RawRef} {edge : Edge}
    (member : edge ∈ (resolveAnnotated settings memo ref).chunk.links) :
    edge.type = ref.type := by
  unfold resolveAnnotated at member
  split at member
  · exact (List.not_mem_nil member).elim
  · split at member
    · rw [List.mem_singleton.mp member]
      rfl
    · rw [List.mem_singleton.mp member]
      rfl

theorem links_resolveApi {memo : Memo} {ref : RawRef} {edge : Edge}
    (member : edge ∈ (resolveApi settings corpus memo ref).chunk.links) :
    edge.type = ref.type := by
  unfold resolveApi at member
  dsimp only at member
  split at member
  · rw [List.mem_singleton.mp member]
    split <;> rfl
  · obtain ⟨node, _, rfl⟩ := List.mem_map.mp member
    rfl

/-- The edges of a call typed outside the repository. -/
theorem mem_links_resolveExternal {memo : Memo} {ref : RawRef} {edge : Edge} :
    edge ∈ (resolveExternal settings memo ref).chunk.links ↔
      (classifyCall settings.catalog ref.recvType ref.targetName []).isSome ∧
        edge = externalLink settings ref := by
  unfold resolveExternal
  dsimp only
  cases classifyCall settings.catalog ref.recvType ref.targetName [] with
  | none => simp only [List.not_mem_nil, Option.isSome_none, Bool.false_eq_true, false_and]
  | some kind =>
      rw [List.mem_singleton, Option.isSome_some, and_iff_right rfl]
      rfl

/-- **External edges, one reference.** The external edges an answer carries are
the one of a recognised call. -/
theorem external_link_iff {memo : Memo} {ref : RawRef} {edge : Edge}
    (raw : ref.type ≠ .callsExternal) (external : edge.type = .callsExternal) :
    edge ∈ (nextAnswer settings corpus memo ref).chunk.links ↔
      RecognisedCall settings corpus ref ∧ edge = externalLink settings ref := by
  have plain : ¬ PlainLink ref edge := by
    rintro (same | same)
    · exact raw (same.symm.trans external)
    · cases same.symm.trans external
  have otherwise : ref.type ≠ .calls → ¬ (RecognisedCall settings corpus ref ∧
      edge = externalLink settings ref) :=
    fun untyped recognised => untyped recognised.1.1.1
  unfold nextAnswer
  by_cases marked : ref.type = .annotatedWith
  · rw [resolveOneRef_marked _ marked]
    exact iff_of_false (fun member => plain (Or.inl (type_resolveAnnotated_link member)))
      (otherwise (by simp only [marked, ne_eq, reduceCtorEq, not_false_eq_true]))
  by_cases api : ref.type = .callsApi
  · rw [resolveOneRef_api _ api]
    exact iff_of_false (fun member => plain (Or.inl (links_resolveApi member)))
      (otherwise (by simp only [api, ne_eq, reduceCtorEq, not_false_eq_true]))
  by_cases call : ref.type = .calls
  · rw [resolveOneRef_call _ call]
    unfold resolveCall
    split
    · next skipped =>
        exact iff_of_false List.not_mem_nil fun recognised => recognised.1.1.2.1 skipped
    · next unskipped =>
        split
        · next outside =>
            rw [mem_links_resolveExternal]
            exact and_congr_left fun _ =>
              ⟨fun known => ⟨⟨call, unskipped, outside⟩, known⟩, fun recognised => recognised.2⟩
        · next inside =>
            exact iff_of_false
              (fun member => plain ((quiet_resolveInRepoCall _ ref).links edge member))
              fun recognised => inside recognised.1.1.2.2
  · exact iff_of_false
      (fun member => plain ((quiet_resolveOneRef _ marked api call).links edge member))
      (otherwise call)

/-- **External edges, a run.** The external edges some references bring are those
of their recognised calls. -/
theorem exists_of_external_link {refs : List RawRef} {memo : Memo} {edge : Edge}
    (raw : ∀ ref ∈ refs, ref.type ≠ .callsExternal) (external : edge.type = .callsExternal)
    (member : edge ∈ (chunksFrom settings corpus memo refs).flatMap Chunk.links) :
    ∃ ref ∈ refs, RecognisedCall settings corpus ref ∧ edge = externalLink settings ref := by
  induction refs generalizing memo with
  | nil => exact (List.not_mem_nil member).elim
  | cons ref rest ih =>
      rw [chunksFrom, List.flatMap_cons, List.mem_append] at member
      rcases member with here | later
      · exact ⟨ref, List.mem_cons_self,
          (external_link_iff (raw ref List.mem_cons_self) external).mp here⟩
      · obtain ⟨found, listed, recognised⟩ :=
          ih (fun ref listed => raw ref (List.mem_cons_of_mem _ listed)) later
        exact ⟨found, List.mem_cons_of_mem _ listed, recognised⟩

/-- The calls of an emission are no surer than the emission. -/
theorem confidence_emit {memo : Memo} {ref : RawRef} {wanted : List Node}
    {knownInRepo : Bool} {strategy : Str} {edge : Edge}
    (member : edge ∈
      (emit settings memo ref wanted .inferred knownInRepo strategy).chunk.links) :
    edge.confidence ≠ .extracted := by
  unfold emit at member
  split at member
  · exact (List.not_mem_nil member).elim
  · rw [List.mem_singleton.mp member]
    exact Confidence.noConfusion
  · split at member
    · exact (List.not_mem_nil member).elim
    · obtain ⟨node, _, rfl⟩ := List.mem_map.mp member
      exact Confidence.noConfusion

/-- A symbol use is not a call. -/
theorem confidence_resolveInRepoCall {memo : Memo} {ref : RawRef} {edge : Edge}
    (member : edge ∈ (resolveInRepoCall settings corpus memo ref).chunk.links)
    (call : edge.type = .calls) : edge.confidence ≠ .extracted := by
  have demoted : edge.type ≠ .references := by
    rw [call]
    exact EdgeType.noConfusion
  unfold resolveInRepoCall at member
  dsimp only at member
  split at member
  · unfold resolveUnknownReceiver at member
    dsimp only at member
    split at member
    · rw [List.mem_singleton.mp member] at demoted
      exact (demoted rfl).elim
    · split at member
      · exact (List.not_mem_nil member).elim
      · obtain ⟨node, _, rfl⟩ := List.mem_map.mp member
        exact (demoted rfl).elim
  · split at member
    · unfold resolveFallback at member
      dsimp only at member
      split at member
      · exact (List.not_mem_nil member).elim
      · rw [List.mem_singleton.mp member] at demoted
        exact (demoted rfl).elim
      · obtain ⟨node, _, rfl⟩ := List.mem_map.mp member
        exact (demoted rfl).elim
    · exact confidence_emit member

/-- **Calls of the resolver.** No call that the name resolver emits is certain. -/
theorem confidence_of_call {refs : List RawRef} {memo : Memo} {edge : Edge}
    (member : edge ∈ (chunksFrom settings corpus memo refs).flatMap Chunk.links)
    (call : edge.type = .calls) : edge.confidence ≠ .extracted := by
  induction refs generalizing memo with
  | nil => exact (List.not_mem_nil member).elim
  | cons ref rest ih =>
      rw [chunksFrom, List.flatMap_cons, List.mem_append] at member
      rcases member with here | later
      · have plain : ref.type ≠ .calls → ¬ PlainLink ref edge := by
          rintro untyped (same | same)
          · exact untyped (same.symm.trans call)
          · cases same.symm.trans call
        unfold nextAnswer at here
        by_cases marked : ref.type = .annotatedWith
        · rw [resolveOneRef_marked _ marked] at here
          exact (plain (by rw [marked]; exact EdgeType.noConfusion)
            (Or.inl (type_resolveAnnotated_link here))).elim
        by_cases api : ref.type = .callsApi
        · rw [resolveOneRef_api _ api] at here
          exact (plain (by rw [api]; exact EdgeType.noConfusion)
            (Or.inl (links_resolveApi here))).elim
        by_cases typed : ref.type = .calls
        · rw [resolveOneRef_call _ typed] at here
          unfold resolveCall at here
          split at here
          · exact (List.not_mem_nil here).elim
          · split at here
            · rw [(mem_links_resolveExternal.mp here).2] at call
              cases call
            · exact confidence_resolveInRepoCall here call
        · exact (plain typed ((quiet_resolveOneRef _ marked api typed).links edge here)).elim
      · exact ih later

/-- The edge of a recognised call comes after the declaration of its target. -/
theorem brings_externalLink {refs : List RawRef} {memo : Memo} {made known : List NodeId}
    (remembers : Remembers settings made memo) (includes : ∀ id ∈ made, id ∈ known)
    (raw : ∀ ref ∈ refs, ref.type ≠ .callsExternal) {ref : RawRef} (listed : ref ∈ refs)
    (recognised : RecognisedCall settings corpus ref) :
    ∃ final, Ledger.Brings Node.id (externalLink settings ref) known
        (chunksFrom settings corpus memo refs) final ∧
      targetId settings ref ∈ final ∧ ∀ id ∈ known, id ∈ final := by
  induction refs generalizing memo made known with
  | nil => exact (List.not_mem_nil listed).elim
  | cons first rest ih =>
      have entered : Remembers settings made (memo.enter first.type) :=
        ⟨remembers.annotations, remembers.endpoints, remembers.externals⟩
      have step : Synthesizes settings corpus made first (nextAnswer settings corpus memo first) :=
        synthesizes_resolveOneRef first entered
      by_cases here : ref = first
      · subst here
        refine ⟨_, .here ((external_link_iff (raw ref List.mem_cons_self) rfl).mpr
          ⟨recognised, rfl⟩), ?_, fun id before => List.mem_append_left _ before⟩
        have wanted : synthesizedId settings corpus ref = some (targetId settings ref) := by
          simp only [synthesizedId, recognised.1.1, recognised.1, recognised.2, and_self,
            ↓reduceIte, targetId]
        rcases List.mem_append.mp (step.made _ wanted) with before | now
        · exact List.mem_append_left _ (includes _ before)
        · exact List.mem_append_right _ now
      · have later : ref ∈ rest := (List.mem_cons.mp listed).resolve_left here
        have included : ∀ id ∈ made ++
              (nextAnswer settings corpus memo first).chunk.declares.map Node.id,
            id ∈ known ++ (nextAnswer settings corpus memo first).chunk.declares.map Node.id := by
          intro id member
          rcases List.mem_append.mp member with before | now
          · exact List.mem_append_left _ (includes id before)
          · exact List.mem_append_right _ now
        obtain ⟨final, brings, declared, grows⟩ := ih step.remembers included
          (fun ref listed => raw ref (List.mem_cons_of_mem _ listed)) later
        exact ⟨final, .later brings, declared,
          fun id before => grows id (List.mem_append_left _ before)⟩

end Edges

section Marks

variable {settings : Settings} {corpus : Corpus}

/-- The properties a row of taint facts sets on a function; what it leaves alone
is the sanitizer flag. -/
def ResolverMark.over (mark : ResolverMark) (stamp : FunctionTaint) : FunctionTaint where
  categories := mark.cats
  source := mark.src
  sanitizer := stamp.sanitizer
  sites := mark.sites

/-- How a catalogued call shows in a row: a sanitizer only by a recorded line. -/
def ShowsInRow (ref : RawRef) (fact entry : Entry) : Prop :=
  Alike fact entry ∧ (entry.role = .sanitizer → ref.refLine ≠ 0)

/-- A call typed outside the repository that the catalog knows, with its entry. -/
def CataloguedCall (settings : Settings) (corpus : Corpus) (ref : RawRef) (fact : Entry) : Prop :=
  ForeignCall settings corpus ref ∧
    ∃ positions, classifyTaint settings.catalog ref.recvType ref.targetName =
      some (fact, positions)

theorem marks_resolveExternal (memo : Memo) (ref : RawRef) :
    (resolveExternal settings memo ref).memo.marks = (markCall settings memo ref).marks := by
  have judged : (markCall settings (memo.judge ref.type .external) ref).marks =
      (markCall settings memo ref).marks := by
    unfold markCall
    split <;> rfl
  unfold resolveExternal
  dsimp only
  split
  · exact judged
  · exact judged

/-- What one reference does to the marks. -/
theorem marks_nextAnswer (memo : Memo) (ref : RawRef) :
    (nextAnswer settings corpus memo ref).memo.marks =
      if ForeignCall settings corpus ref then (markCall settings memo ref).marks
      else memo.marks := by
  have otherwise : ref.type ≠ .calls → ¬ ForeignCall settings corpus ref :=
    fun untyped foreign => untyped foreign.1
  unfold nextAnswer
  by_cases marked : ref.type = .annotatedWith
  · rw [resolveOneRef_marked _ marked, if_neg (otherwise (by
      simp only [marked, ne_eq, reduceCtorEq, not_false_eq_true]))]
    unfold resolveAnnotated
    split
    · rfl
    · split <;> rfl
  by_cases api : ref.type = .callsApi
  · rw [resolveOneRef_api _ api, if_neg (otherwise (by
      simp only [api, ne_eq, reduceCtorEq, not_false_eq_true]))]
    unfold resolveApi
    dsimp only
    split <;> rfl
  by_cases call : ref.type = .calls
  · rw [resolveOneRef_call _ call]
    unfold resolveCall
    split
    · next skipped =>
        rw [if_neg fun foreign : ForeignCall settings corpus ref => foreign.2.1 skipped]
        rfl
    · next unskipped =>
        split
        · next outside =>
            have foreign : ForeignCall settings corpus ref := ⟨call, unskipped, outside⟩
            rw [if_pos foreign, marks_resolveExternal]
            unfold markCall
            split <;> rfl
        · next inside =>
            rw [if_neg fun foreign : ForeignCall settings corpus ref => inside foreign.2.2]
            exact (quiet_resolveInRepoCall _ ref).marks
  · rw [if_neg (otherwise call)]
    exact (quiet_resolveOneRef _ marked api call).marks

/-- A reference leaves the marks alone, or its one catalogued call is recorded. -/
theorem marks_nextAnswer_cases (memo : Memo) (ref : RawRef) :
    (¬ ∃ fact, CataloguedCall settings corpus ref fact) ∧
        (nextAnswer settings corpus memo ref).memo.marks = memo.marks ∨
      ∃ fact positions, (∀ other, CataloguedCall settings corpus ref other ↔ fact = other) ∧
        (nextAnswer settings corpus memo ref).memo.marks =
          memo.marks.set ref.src ((memo.marks.getD ref.src {}).record ref fact positions) := by
  rw [marks_nextAnswer]
  unfold CataloguedCall markCall
  by_cases foreign : ForeignCall settings corpus ref
  · rw [if_pos foreign]
    cases found : classifyTaint settings.catalog ref.recvType ref.targetName with
    | none =>
        refine .inl ⟨?_, rfl⟩
        simp only [reduceCtorEq, exists_false, and_false, not_false_eq_true]
    | some hit =>
        refine .inr ⟨hit.1, hit.2, fun other => ?_, rfl⟩
        simp only [foreign, true_and, Option.some.injEq, Prod.ext_iff, exists_and_left,
          exists_eq', and_true]
  · refine .inl ⟨fun catalogued => ?_, if_neg foreign⟩
    obtain ⟨_, called, -⟩ := catalogued
    exact foreign called

/-- A function has a row when one of its calls is catalogued. -/
theorem isSome_marks_memoAfter (refs : List RawRef) (memo : Memo) (id : NodeId) :
    ((memoAfter settings corpus refs memo).marks.get? id).isSome ↔
      (memo.marks.get? id).isSome ∨
        ∃ ref ∈ refs, ref.src = id ∧ ∃ fact, CataloguedCall settings corpus ref fact := by
  refine foldl_iff (fun memo : Memo => (memo.marks.get? id).isSome = true) ?_ refs memo
  intro memo ref
  rcases marks_nextAnswer_cases memo ref with ⟨none, same⟩ | ⟨fact, positions, only, recorded⟩
  · rw [same]
    exact (or_iff_left fun catalogued => none catalogued.2).symm
  · rw [recorded, Dict.get?_set]
    by_cases here : id = ref.src
    · subst here
      rw [if_pos rfl]
      exact iff_of_true rfl (.inr ⟨rfl, fact, (only fact).mpr rfl⟩)
    · rw [if_neg here]
      exact (or_iff_left fun own => here own.1.symm).symm

/-- Recording a call makes its row show it. -/
theorem shows_over_record {mark : ResolverMark} {ref : RawRef} {fact entry : Entry}
    {positions : List Int} {stamp : FunctionTaint} :
    ((mark.record ref fact positions).over stamp).Shows entry ↔
      (mark.over stamp).Shows entry ∨ ShowsInRow ref fact entry := by
  unfold FunctionTaint.Shows ResolverMark.over ResolverMark.record ShowsInRow Alike
  cases role : entry.role with
  | sink =>
      by_cases same : fact.role = .sink
      · simp only [same, ↓reduceIte, List.mem_insert_iff, true_and, true_implies, reduceCtorEq,
          false_implies, and_true]
        rw [or_comm, eq_comm]
      · simp only [same, ↓reduceIte, false_and, or_false]
  | source =>
      simp only [Bool.or_eq_true, beq_iff_eq, reduceCtorEq, false_implies, and_true]
  | sanitizer =>
      simp only [reduceCtorEq, false_implies, and_true, true_implies]
      split
      · next lined =>
          simp only [List.mem_append, List.mem_singleton, or_and_right, exists_or, exists_eq_left,
            ne_eq, lined, not_false_eq_true, and_true, or_assoc]
      · next unlined => simp only [unlined, and_false, or_false]

/-- **Taint facts, a run.** The row of a function shows the catalogued calls of
the function. -/
theorem shows_memoAfter (refs : List RawRef) (memo : Memo) (id : NodeId) (stamp : FunctionTaint)
    (entry : Entry) :
    (((memoAfter settings corpus refs memo).marks.getD id {}).over stamp).Shows entry ↔
      ((memo.marks.getD id {}).over stamp).Shows entry ∨
        ∃ ref ∈ refs, ref.src = id ∧ ∃ fact, CataloguedCall settings corpus ref fact ∧
          ShowsInRow ref fact entry := by
  refine foldl_iff (fun memo : Memo => ((memo.marks.getD id {}).over stamp).Shows entry) ?_ refs
    memo
  intro memo ref
  rcases marks_nextAnswer_cases memo ref with ⟨none, same⟩ | ⟨fact, positions, only, recorded⟩
  · rw [same]
    refine (or_iff_left fun shown => none ?_).symm
    obtain ⟨-, other, catalogued, -⟩ := shown
    exact ⟨other, catalogued⟩
  · rw [recorded]
    simp only [only, exists_eq_left', Dict.getD, Dict.get?_set]
    by_cases here : id = ref.src
    · subst here
      simp only [↓reduceIte, Option.getD_some, shows_over_record, true_and]
    · simp only [here, ↓reduceIte, Ne.symm here, false_and, or_false]

end Marks

end GraphIngest.Resolve
