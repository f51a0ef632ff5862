import GraphIngest.Resolve.CallSteps
import GraphIngest.Resolve.Checkpoint

/-! # The cap on bare names

A name alone may match more symbols than the cap allows. The cap is looked at
where candidates are emitted under a strategy `name` and where a call is
demoted; the last names of dotted calls, the hinted shapes, the handler classes
and the basenames of files are emitted by name without it.
-/

namespace GraphIngest.Resolve

open Foundation Text Graph External

/-- Whether a strategy has found its candidates by nothing but a name. -/
def restsOnName (strategy : Str) : Bool :=
  isNameStrategy strategy ||
    ["none+fallback_tail".toList, "kind_hint".toList, "handler_name".toList,
      "file_basename".toList].contains strategy

section Cap

variable (settings : Settings) (corpus : Corpus)

/-- No more edges of a type found by name than the cap allows. -/
def WithinCap (links : List Edge) : Prop :=
  ∀ type, (links.filter fun edge => edge.type = type && restsOnName edge.strategy).length ≤
    settings.nameCap

/-- No reference gets more edges of a type by name than the cap allows. -/
def NamesCapped : Prop := ∀ ref ∈ corpus.refs, WithinCap settings (linksOf settings corpus ref)

/-- The files of the language a reference may go to. -/
def basenameCandidates (ref : RawRef) : List Node :=
  (corpus.filesByBasename ref.targetName).filter fun node =>
    (fileRefLangs ref.type).contains node.lang

/-- Those of them in the directory of the reference. -/
def sameDirCandidates (ref : RawRef) : List Node :=
  (basenameCandidates corpus ref).filter fun node =>
    directoryOf node.file = directoryOf ref.refFile

/-- The symbols of a name, those of the hinted shape if there are any. -/
def hintedCandidates (ref : RawRef) : List Node :=
  let candidates := corpus.byName ref.targetName
  let shaped :=
    if ref.kindHint = .type ∨ ref.kindHint = .import then
      candidates.filter fun node => node.label = .cls
    else if ref.kindHint = .call then candidates.filter fun node => node.label = .function
    else candidates
  if shaped.isEmpty then candidates else shaped

/-- The symbols a reference may mean, where it is settled by name and nothing
looks at their number: pages and scripts that are not all elsewhere, handler
classes known by a simple name, last names of dotted calls, hinted shapes. -/
def uncappedCandidates (ref : RawRef) : List Node :=
  if dropped ref.type then []
  else
    match ref.type with
    | .annotatedWith | .callsApi | .reads | .writes | .extends | .implements | .instantiates
    | .autowired => []
    | .renders | .includesScript | .includesPage =>
        if ref.kindHint ≠ .file then []
        else if 1 < (basenameCandidates corpus ref).length ∧ ref.refFile ≠ [] ∧
            sameDirCandidates corpus ref ≠ [] then []
        else basenameCandidates corpus ref
    | .handledBy =>
        if (corpus.classByFqn ref.targetName).isSome then []
        else corpus.classesByName (simpleName ref.targetName)
    | .calls =>
        if ref.refFile ∈ settings.skipCallFiles ∨ corpus.externalReceiver ref = true ∨
            corpus.byName ref.targetName ≠ [] then []
        else fallbackReferenceCandidates corpus ref.targetName
    | _ => hintedCandidates corpus ref

variable {settings corpus}

/-- Edges of one type, found by one strategy. -/
def Uniform (links : List Edge) (type : EdgeType) (strategy : Str) : Prop :=
  ∀ edge ∈ links, edge.type = type ∧ edge.strategy = strategy

/-- Edges of one type and one strategy are within the cap, unless the strategy
is a name and there are too many. -/
theorem withinCap_iff_of_uniform {links : List Edge} {type : EdgeType} {strategy : Str}
    (uniform : Uniform links type strategy) :
    WithinCap settings links ↔
      (restsOnName strategy = true → links.length ≤ settings.nameCap) := by
  constructor
  · intro within named
    have all : (links.filter fun edge => edge.type = type && restsOnName edge.strategy) =
        links := by
      apply List.filter_eq_self.mpr
      intro edge listed
      obtain ⟨typed, found⟩ := uniform edge listed
      simp only [typed, found, named, decide_true, Bool.and_self]
    rw [← all]
    exact within type
  · intro few other
    cases named : restsOnName strategy with
    | true => exact Nat.le_trans (List.length_filter_le _ _) (few named)
    | false =>
        have none : (links.filter fun edge =>
            edge.type = other && restsOnName edge.strategy) = [] := by
          apply List.filter_eq_nil_iff.mpr
          intro edge listed
          rw [(uniform edge listed).2, named, Bool.and_false]
          exact Bool.false_ne_true
        rw [none]
        exact Nat.zero_le _

theorem withinCap_nil : WithinCap settings [] := fun _ => Nat.zero_le _

/-- Edges of a strategy that rests on more than a name are within the cap. -/
theorem withinCap_of_evidence {links : List Edge} {type : EdgeType} {strategy : Str}
    (uniform : Uniform links type strategy)
    (evidence : restsOnName strategy = false) : WithinCap settings links := by
  apply (withinCap_iff_of_uniform uniform).mpr
  rw [evidence]
  exact fun named => (Bool.false_ne_true named).elim

/-- The edges of a fan-out are of one type and strategy. -/
theorem uniform_fanOut {ref : RawRef} {type : EdgeType} {wanted : List Node}
    {confidence : Confidence} {strategy : Str} :
    Uniform (fanOut ref type wanted confidence strategy) type strategy := by
  intro edge listed
  obtain ⟨node, _, rfl⟩ := List.mem_map.mp listed
  exact ⟨rfl, rfl⟩

theorem uniform_single {ref : RawRef} {type : EdgeType} {dst : NodeId} {confidence : Confidence}
    {strategy : Str} :
    Uniform [heuristicEdge ref type dst confidence strategy] type strategy := by
  intro edge listed
  rw [List.mem_singleton.mp listed]
  exact ⟨rfl, rfl⟩

/-- The edges of an emission are of one type and strategy. -/
theorem uniform_emit {memo : Memo} {ref : RawRef} {wanted : List Node} {confidence : Confidence}
    {knownInRepo : Bool} {strategy : Str} :
    Uniform (emit settings memo ref wanted confidence knownInRepo strategy).chunk.links ref.type
      strategy := by
  unfold emit
  split
  · exact fun edge listed => (List.not_mem_nil listed).elim
  · exact uniform_single
  · split
    · exact fun edge listed => (List.not_mem_nil listed).elim
    · exact uniform_fanOut

/-- A candidate gets an edge unless a bare name has too many. -/
theorem exists_link_emit {memo : Memo} {ref : RawRef} {wanted : List Node}
    {confidence : Confidence} {knownInRepo : Bool} {strategy : Str} {id : NodeId} :
    (∃ edge ∈ (emit settings memo ref wanted confidence knownInRepo strategy).chunk.links,
        edge.dst = id) ↔
      (∃ node ∈ wanted, node.id = id) ∧
        ¬ (isNameStrategy strategy && overCap settings wanted) = true := by
  unfold emit
  split
  · exact iff_of_false (fun found => by
      obtain ⟨edge, listed, -⟩ := found
      exact List.not_mem_nil listed) fun both => by
      obtain ⟨⟨node, listed, -⟩, -⟩ := both
      exact List.not_mem_nil listed
  · next node =>
      have narrow : overCap settings [node] = false := by
        rw [overCap, List.length_singleton, Bool.and_eq_false_iff, decide_eq_false_iff_not,
          decide_eq_false_iff_not]
        omega
      rw [narrow, Bool.and_false]
      simp only [List.mem_singleton, exists_eq_left, heuristicEdge, Bool.false_eq_true,
        not_false_eq_true, and_true]
  · split
    · next capped =>
        exact iff_of_false (fun found => by
          obtain ⟨edge, listed, -⟩ := found
          exact List.not_mem_nil listed) fun both => both.2 capped
    · next room =>
        rw [and_iff_left room]
        simp only [fanOut, List.mem_map, exists_exists_and_eq_and, heuristicEdge]

/-- Candidates emitted under another label than `name` all get an edge. -/
theorem length_emit {strategy : Str} (label : isNameStrategy strategy = false) (memo : Memo)
    (ref : RawRef) (wanted : List Node) (confidence : Confidence) (knownInRepo : Bool) :
    (emit settings memo ref wanted confidence knownInRepo strategy).chunk.links.length =
      wanted.length := by
  unfold emit
  split
  · rfl
  · rfl
  · rw [label, Bool.false_and, if_neg Bool.false_ne_true]
    exact List.length_map _

theorem not_overCap {wanted : List Node} (positive : 0 < settings.nameCap)
    (narrow : ¬ overCap settings wanted = true) : wanted.length ≤ settings.nameCap := by
  simp only [overCap, ne_eq, Bool.and_eq_true, decide_eq_true_eq] at narrow
  omega

/-- Candidates emitted under `name` are capped. -/
theorem length_emit_le {strategy : Str} (label : isNameStrategy strategy = true)
    (positive : 0 < settings.nameCap) (memo : Memo) (ref : RawRef) (wanted : List Node)
    (confidence : Confidence) (knownInRepo : Bool) :
    (emit settings memo ref wanted confidence knownInRepo strategy).chunk.links.length ≤
      settings.nameCap := by
  unfold emit
  split
  · exact Nat.zero_le _
  · exact positive
  · rw [label, Bool.true_and]
    split
    · exact Nat.zero_le _
    · next narrow =>
        rw [fanOut, List.length_map]
        exact not_overCap positive narrow

/-- A strategy that rests on a name without counting as one is not cut: its edges are within the cap
where the nodes wanted are. -/
theorem withinCap_emit_iff {strategy : Str} (named : restsOnName strategy = true)
    (label : isNameStrategy strategy = false) (memo : Memo) (ref : RawRef) (wanted : List Node)
    (confidence : Confidence) (knownInRepo : Bool) :
    WithinCap settings
        (emit settings memo ref wanted confidence knownInRepo strategy).chunk.links ↔
      wanted.length ≤ settings.nameCap := by
  rw [withinCap_iff_of_uniform uniform_emit, length_emit label]
  exact ⟨fun few => few named, fun few _ => few⟩

/-- An emission under a strategy of names is within the cap. -/
theorem withinCap_emit_of_name {strategy : Str} {memo : Memo} {ref : RawRef}
    {wanted : List Node} {confidence : Confidence} {knownInRepo : Bool}
    (positive : 0 < settings.nameCap) (label : restsOnName strategy = isNameStrategy strategy) :
    WithinCap settings
      (emit settings memo ref wanted confidence knownInRepo strategy).chunk.links := by
  apply (withinCap_iff_of_uniform uniform_emit).mpr
  intro named
  rw [label] at named
  exact length_emit_le named positive ..

/-- A demoted call is capped. -/
theorem withinCap_resolveUnknownReceiver {memo : Memo} {ref : RawRef} {wanted : List Node}
    {strategy : Str} (positive : 0 < settings.nameCap) :
    WithinCap settings
      (resolveUnknownReceiver settings memo ref wanted strategy).chunk.links := by
  unfold resolveUnknownReceiver
  dsimp only
  split
  · exact (withinCap_iff_of_uniform uniform_single).mpr fun _ => positive
  · split
    · exact withinCap_nil
    · next narrow =>
        apply (withinCap_iff_of_uniform uniform_fanOut).mpr
        intro _
        rw [fanOut, List.length_map]
        exact not_overCap positive narrow

/-- The last names of a dotted call are not. -/
theorem withinCap_resolveFallback_iff (memo : Memo) (ref : RawRef) :
    WithinCap settings (resolveFallback corpus memo ref "none").chunk.links ↔
      (fallbackReferenceCandidates corpus ref.targetName).length ≤ settings.nameCap := by
  have named : restsOnName ("none".toList ++ "+fallback_tail".toList) = true := by decide
  unfold resolveFallback
  dsimp only
  split
  · next none => exact iff_of_true withinCap_nil (by rw [none]; exact Nat.zero_le _)
  · next node one =>
      rw [if_neg (by decide), withinCap_iff_of_uniform uniform_single, one]
      exact ⟨fun few => few named, fun few _ => few⟩
  · rw [if_neg (by decide), withinCap_iff_of_uniform uniform_fanOut, fanOut,
      List.length_map]
    exact ⟨fun few => few named, fun few _ => few⟩

theorem withinCap_resolveAnnotated (memo : Memo) (ref : RawRef) :
    WithinCap settings (resolveAnnotated settings memo ref).chunk.links := by
  unfold resolveAnnotated
  split
  · exact withinCap_nil
  · split <;> exact withinCap_of_evidence uniform_single (by decide)

theorem withinCap_resolveApi (memo : Memo) (ref : RawRef) :
    WithinCap settings (resolveApi settings corpus memo ref).chunk.links := by
  unfold resolveApi
  dsimp only
  split
  · by_cases outside : ref.recv ≠ []
    · rw [if_pos outside]
      exact withinCap_of_evidence uniform_single (by decide)
    · rw [if_neg outside]
      exact withinCap_of_evidence uniform_single (by decide)
  · exact withinCap_of_evidence uniform_fanOut (by decide)

/-- A field access is within the cap. -/
theorem withinCap_resolveField (positive : 0 < settings.nameCap) (memo : Memo) (ref : RawRef) :
    WithinCap settings (resolveField settings corpus memo ref).chunk.links := by
  have scope : restsOnName "same_scope" = isNameStrategy "same_scope" := by decide
  have file : restsOnName "same_file_global" = isNameStrategy "same_file_global" := by decide
  unfold resolveField
  dsimp only
  split
  · exact withinCap_emit_of_name positive scope
  · split
    · exact withinCap_emit_of_name positive scope
    · split
      · exact withinCap_emit_of_name positive scope
      · exact withinCap_emit_of_name positive file

/-- A type is capped where nothing but its name is left. -/
theorem withinCap_resolveType (positive : 0 < settings.nameCap) (memo : Memo) (ref : RawRef) :
    WithinCap settings (resolveType settings corpus memo ref).chunk.links := by
  have strategies : (corpus.narrowType ref).2 ∈
      ["none".toList, "unique".toList, "name".toList, "same_file".toList,
        "imports_qualified_exact".toList, "imports_qualified".toList, "same_package".toList,
        "imports_wildcard".toList, "imports".toList] := by
    unfold Corpus.narrowType
    dsimp only
    split
    · decide
    · split
      · dsimp only
        decide
      · split
        · dsimp only
          decide
        · rcases firstHit_eq_or_mem (_, "name".toList) _ with bare | found
          · rw [bare]
            dsimp only
            decide
          · simp only [List.mem_cons, List.not_mem_nil, or_false] at found
            rcases found with hit | hit | hit | hit | hit | hit <;> rw [hit] <;> dsimp only <;>
              decide
  have label : restsOnName (corpus.narrowType ref).2 =
      isNameStrategy (corpus.narrowType ref).2 := by
    revert strategies
    generalize (corpus.narrowType ref).2 = strategy
    intro listed
    have all : ∀ strategy ∈ ["none".toList, "unique".toList, "name".toList, "same_file".toList,
        "imports_qualified_exact".toList, "imports_qualified".toList, "same_package".toList,
        "imports_wildcard".toList, "imports".toList],
        restsOnName strategy = isNameStrategy strategy := by decide
    exact all strategy listed
  exact withinCap_emit_of_name positive label

/-- Pages and scripts: capped nowhere, unless one is in the directory of the
reference. -/
theorem withinCap_resolveFileRef_iff (memo : Memo) (ref : RawRef) :
    WithinCap settings (resolveFileRef settings corpus memo ref).chunk.links ↔
      (if ref.kindHint ≠ .file then []
        else if 1 < (basenameCandidates corpus ref).length ∧ ref.refFile ≠ [] ∧
            sameDirCandidates corpus ref ≠ [] then []
        else basenameCandidates corpus ref).length ≤ settings.nameCap := by
  unfold resolveFileRef
  by_cases hinted : ref.kindHint ≠ .file
  · rw [if_pos hinted, if_pos hinted]
    exact iff_of_true withinCap_nil (Nat.zero_le _)
  · rw [if_neg hinted, if_neg hinted]
    unfold sameDirCandidates basenameCandidates
    dsimp only
    split
    · exact iff_of_true (withinCap_of_evidence uniform_emit (by decide)) (Nat.zero_le _)
    · exact withinCap_emit_iff (by decide) (by decide) ..

/-- A handler is within the cap where the classes of its name are. -/
theorem withinCap_resolveHandler_iff (memo : Memo) (ref : RawRef) :
    WithinCap settings (resolveHandler settings corpus memo ref).chunk.links ↔
      (if (corpus.classByFqn ref.targetName).isSome then []
        else corpus.classesByName (simpleName ref.targetName)).length ≤ settings.nameCap := by
  unfold resolveHandler
  cases corpus.classByFqn ref.targetName with
  | some node =>
      exact iff_of_true (withinCap_of_evidence uniform_single (by decide)) (Nat.zero_le _)
  | none => exact withinCap_emit_iff (by decide) (by decide) ..

/-- A hinted reference is within the cap where its candidates are. -/
theorem withinCap_resolveHinted_iff (memo : Memo) (ref : RawRef) :
    WithinCap settings (resolveHinted settings corpus memo ref).chunk.links ↔
      (hintedCandidates corpus ref).length ≤ settings.nameCap :=
  withinCap_emit_iff (by decide) (by decide) ..

/-- A call is capped unless its dotted name is known by its end only. -/
theorem withinCap_resolveInRepoCall_iff (positive : 0 < settings.nameCap) (memo : Memo)
    {ref : RawRef} (inside : corpus.externalReceiver ref = false) :
    WithinCap settings (resolveInRepoCall settings corpus memo ref).chunk.links ↔
      (if corpus.byName ref.targetName ≠ [] then []
        else fallbackReferenceCandidates corpus ref.targetName).length ≤ settings.nameCap := by
  by_cases known : corpus.byName ref.targetName = []
  · have narrowed := Corpus.narrowCall_of_unknown inside known
    unfold resolveInRepoCall
    rw [narrowed, if_neg (not_not_intro known)]
    dsimp only
    rw [if_neg (fun some => some.1 rfl), if_pos rfl]
    exact withinCap_resolveFallback_iff ..
  · have some : (corpus.narrowCall ref).1 ≠ [] := by
      rw [Ne, Corpus.narrowCall_eq_nil_iff, inside, not_or]
      exact ⟨Bool.false_ne_true, known⟩
    have label : restsOnName (corpus.narrowCall ref).2 =
        isNameStrategy (corpus.narrowCall ref).2 := by
      have all : ∀ strategy ∈ "name".toList :: Corpus.stepStrategies,
          restsOnName strategy = isNameStrategy strategy ∧
            restsOnName (strategy ++ "+arity".toList) =
              isNameStrategy (strategy ++ "+arity".toList) := by decide
      obtain ⟨strategy, listed, bare | arity⟩ := Corpus.strategy_narrowCall some
      · rw [bare]
        exact (all strategy listed).1
      · rw [arity]
        exact (all strategy listed).2
    rw [if_pos known]
    refine iff_of_true ?_ (Nat.zero_le _)
    unfold resolveInRepoCall
    dsimp only
    split
    · exact withinCap_resolveUnknownReceiver positive
    · exact withinCap_emit_of_name positive label

/-- A call is within the cap where the candidates of its fallback are. -/
theorem withinCap_resolveCall_iff (positive : 0 < settings.nameCap) (memo : Memo)
    (ref : RawRef) :
    WithinCap settings (resolveCall settings corpus memo ref).chunk.links ↔
      (if ref.refFile ∈ settings.skipCallFiles ∨ corpus.externalReceiver ref = true ∨
          corpus.byName ref.targetName ≠ [] then []
        else fallbackReferenceCandidates corpus ref.targetName).length ≤ settings.nameCap := by
  unfold resolveCall
  by_cases skipped : ref.refFile ∈ settings.skipCallFiles
  · rw [if_pos skipped, if_pos (Or.inl skipped)]
    exact iff_of_true withinCap_nil (Nat.zero_le _)
  · rw [if_neg skipped]
    cases inside : corpus.externalReceiver ref with
    | true =>
        rw [if_pos rfl, if_pos (Or.inr (Or.inl rfl))]
        refine iff_of_true ?_ (Nat.zero_le _)
        unfold resolveExternal
        dsimp only
        split
        · exact withinCap_nil
        · exact withinCap_of_evidence uniform_single (by decide)
    | false =>
        rw [if_neg Bool.false_ne_true]
        simp only [skipped, Bool.false_eq_true, false_or]
        exact withinCap_resolveInRepoCall_iff positive memo inside

/-- **The cap, one reference.** It holds exactly when the candidates of a place
without a cap are few. -/
theorem withinCap_linksOf_iff (positive : 0 < settings.nameCap) (ref : RawRef) :
    WithinCap settings (linksOf settings corpus ref) ↔
      (uncappedCandidates settings corpus ref).length ≤ settings.nameCap := by
  unfold linksOf resolveOneRef uncappedCandidates
  split
  · exact iff_of_true withinCap_nil (Nat.zero_le _)
  · split
    · next typed =>
        simp only [typed]
        exact iff_of_true ( withinCap_resolveAnnotated _ _) (Nat.zero_le _)
    · next typed =>
        simp only [typed]
        exact iff_of_true (withinCap_resolveApi _ _) (Nat.zero_le _)
    · next typed =>
        simp only [typed]
        exact withinCap_resolveFileRef_iff _ _
    · next typed =>
        simp only [typed]
        exact withinCap_resolveFileRef_iff _ _
    · next typed =>
        simp only [typed]
        exact withinCap_resolveFileRef_iff _ _
    · next typed =>
        simp only [typed]
        exact withinCap_resolveHandler_iff _ _
    · next typed =>
        simp only [typed]
        exact withinCap_resolveCall_iff positive _ _
    · next typed =>
        simp only [typed]
        exact iff_of_true (withinCap_resolveField positive _ _) (Nat.zero_le _)
    · next typed =>
        simp only [typed]
        exact iff_of_true (withinCap_resolveField positive _ _) (Nat.zero_le _)
    · next typed =>
        simp only [typed]
        exact iff_of_true (withinCap_resolveType positive _ _) (Nat.zero_le _)
    · next typed =>
        simp only [typed]
        exact iff_of_true (withinCap_resolveType positive _ _) (Nat.zero_le _)
    · next typed =>
        simp only [typed]
        exact iff_of_true (withinCap_resolveType positive _ _) (Nat.zero_le _)
    · next typed =>
        simp only [typed]
        exact iff_of_true (withinCap_resolveType positive _ _) (Nat.zero_le _)
    · split
      all_goals first | contradiction | exact withinCap_resolveHinted_iff _ _

/-- **The cap.** A run keeps to it exactly when no place without a cap has more
candidates for a reference. -/
theorem namesCapped_iff (settings : Settings) (corpus : Corpus)
    (positive : 0 < settings.nameCap) :
    NamesCapped settings corpus ↔
      ∀ ref ∈ corpus.refs,
        (uncappedCandidates settings corpus ref).length ≤ settings.nameCap := by
  unfold NamesCapped
  constructor
  · intro capped ref listed
    exact (withinCap_linksOf_iff positive ref).mp (capped ref listed)
  · intro few ref listed
    exact (withinCap_linksOf_iff positive ref).mpr (few ref listed)

/-- A cap of one candidate. -/
def cappedSettings : Settings := { plainSettings with nameCap := 1 }

/-- A call of a function of the same file. -/
theorem namesCapped_calling :
    0 < cappedSettings.nameCap ∧ NamesCapped cappedSettings callingCorpus :=
  ⟨Nat.one_pos, (namesCapped_iff cappedSettings callingCorpus Nat.one_pos).mpr (by decide +kernel)⟩

/-- `pkg.run` is called, and two files have a function `run`. -/
def dottedCorpus : Corpus where
  nodes :=
    [{ id := letterId 'm', label := .function, name := ['m', 'a', 'i', 'n'],
       fqn := ['m', 'a', 'i', 'n'], repo := [], kind := .function, file := ['m'] },
     { id := letterId 'r', label := .function, name := ['r', 'u', 'n'],
       fqn := ['r', 'u', 'n'], repo := [], kind := .function, file := ['a'] },
     { id := letterId 's', label := .function, name := ['r', 'u', 'n'],
       fqn := ['r', 'u', 'n'], repo := [], kind := .function, file := ['b'] }]
  edges := []
  refs :=
    [{ type := .calls, src := letterId 'm',
       targetName := ['p', 'k', 'g', '.', 'r', 'u', 'n'], kindHint := .call, refFile := ['m'],
       refLine := 3 }]

/-- Both functions get a symbol use, under a cap of one. -/
theorem dotted_uncapped : ¬ ∀ (settings : Settings) (corpus : Corpus), 0 < settings.nameCap →
    NamesCapped settings corpus := by
  intro capped
  have few := capped cappedSettings dottedCorpus Nat.one_pos _ List.mem_cons_self .references
  revert few
  decide +kernel

end Cap

end GraphIngest.Resolve
