import GraphIngest.Resolve.Cap

/-! # What the receiver of a call decides

The type of the receiver, or the class it names, is looked at only when the
container of the caller, its file and its imports know nothing by the name of
the call. From there on it decides: the call ends at a method that one of the
receiver's classes declares or inherits. A step ahead of it that knows the name
takes the call elsewhere.
-/

namespace GraphIngest.Resolve

open Foundation Text Graph External

theorem exists_of_mem_firstNonempty {α : Type} {lists : List (List α)} {item : α}
    (listed : item ∈ firstNonempty lists) : ∃ list ∈ lists, item ∈ list := by
  induction lists with
  | nil => exact (List.not_mem_nil listed).elim
  | cons first rest ih =>
      rw [firstNonempty] at listed
      split at listed
      · obtain ⟨list, later, within⟩ := ih listed
        exact ⟨list, List.mem_cons_of_mem _ later, within⟩
      · exact ⟨first, List.mem_cons_self, listed⟩

theorem firstNonempty_ne_nil {α : Type} {lists : List (List α)}
    (found : ∃ list ∈ lists, list ≠ []) : firstNonempty lists ≠ [] := by
  induction lists with
  | nil =>
      obtain ⟨list, listed, _⟩ := found
      exact (List.not_mem_nil listed).elim
  | cons first rest ih =>
      rw [firstNonempty]
      split
      · next empty =>
          apply ih
          obtain ⟨list, listed, some⟩ := found
          cases List.mem_cons.mp listed with
          | inl same => exact (some (same ▸ List.isEmpty_iff.mp empty)).elim
          | inr later => exact ⟨list, later, some⟩
      · next some => exact fun empty => some (List.isEmpty_iff.mpr empty)

/-- The candidates of the first step that finds any, those of the arity of the call if some
are. -/
def taken (ref : RawRef) (hits : List Hit) : List Node :=
  (applyArity ref (firstHit ([], []) hits)).1

namespace Corpus

variable (corpus : Corpus)

/-- A class and its ancestors. -/
def lineage (cls : NodeId) : List NodeId := cls :: corpus.ancestorChain cls

/-- The methods with a name that some classes declare or inherit. -/
def lineageMethods (classIds : List NodeId) (name : Str) : List Node :=
  (classIds.flatMap corpus.lineage).flatMap fun owner => corpus.methodsOfClass owner name

/-- The classes the receiver names. -/
def namedClasses (ref : RawRef) : List NodeId :=
  if ref.recv = "self".toList ∨ ref.recv = "cls".toList ∨ ref.recv = [] then []
  else corpus.visibleClasses ref ref.recv

/-- The classes that may receive a call, with the steps that are tried before theirs. -/
structure Receiver where
  classIds : List NodeId
  ahead : List Hit

/-- The receivers of a call: the classes of its declared type, behind the places, and those it
names, behind the steps of the type as well. -/
def receivers (ref : RawRef) : List Receiver :=
  let places := corpus.placeHits ref (corpus.namePool ref) (corpus.functionsOnly ref)
  [⟨corpus.typeClasses ref, places⟩, ⟨corpus.namedClasses ref, places ++ corpus.typeHits ref⟩]

variable {corpus}

theorem mem_inheritedMembers {classIds : List NodeId} {name : Str} {node : Node}
    (listed : node ∈ corpus.inheritedMembers classIds name) :
    ∃ cls ∈ classIds, ∃ ancestor ∈ corpus.ancestorChain cls,
      node ∈ corpus.methodsOfClass ancestor name := by
  obtain ⟨cls, own, found⟩ := List.mem_flatMap.mp listed
  obtain ⟨methods, above, within⟩ := exists_of_mem_firstNonempty found
  obtain ⟨ancestor, chained, rfl⟩ := List.mem_map.mp above
  exact ⟨cls, own, ancestor, chained, within⟩

theorem mem_lineageMethods_of_hit {classIds : List NodeId} {name strategy : Str} {hit : Hit}
    (listed : hit ∈ corpus.receiverHits classIds name strategy) :
    ∀ node ∈ hit.1, node ∈ corpus.lineageMethods classIds name := by
  intro node within
  simp only [receiverHits, List.mem_cons, List.not_mem_nil, or_false] at listed
  cases listed with
  | inl own =>
      rw [own] at within
      obtain ⟨cls, listed, method⟩ := List.mem_flatMap.mp within
      exact List.mem_flatMap.mpr
        ⟨cls, List.mem_flatMap.mpr ⟨cls, listed, List.mem_cons_self⟩, method⟩
  | inr inherited =>
      rw [inherited] at within
      obtain ⟨cls, listed, ancestor, chained, method⟩ := mem_inheritedMembers within
      exact List.mem_flatMap.mpr
        ⟨ancestor, List.mem_flatMap.mpr ⟨cls, listed, List.mem_cons_of_mem _ chained⟩, method⟩

/-- A receiver whose classes have the method is a hit. -/
theorem exists_hit_of_lineageMethods {classIds : List NodeId} {name : Str} (strategy : Str)
    (some : corpus.lineageMethods classIds name ≠ []) :
    ∃ hit ∈ corpus.receiverHits classIds name strategy, hit.1 ≠ [] := by
  obtain ⟨node, listed⟩ := List.exists_mem_of_ne_nil _ some
  obtain ⟨owner, owned, method⟩ := List.mem_flatMap.mp listed
  obtain ⟨cls, known, chained⟩ := List.mem_flatMap.mp owned
  cases List.mem_cons.mp chained with
  | inl own =>
      subst own
      refine ⟨_, List.mem_cons_self, List.ne_nil_of_mem (a := node) ?_⟩
      exact List.mem_flatMap.mpr ⟨owner, known, method⟩
  | inr above =>
      refine ⟨_, List.mem_cons_of_mem _ List.mem_cons_self, ?_⟩
      have inherited : firstNonempty ((corpus.ancestorChain cls).map fun ancestor =>
          corpus.methodsOfClass ancestor name) ≠ [] :=
        firstNonempty_ne_nil ⟨_, List.mem_map.mpr ⟨owner, above, rfl⟩, List.ne_nil_of_mem method⟩
      obtain ⟨first, found⟩ := List.exists_mem_of_ne_nil _ inherited
      exact List.ne_nil_of_mem (List.mem_flatMap.mpr ⟨cls, known, found⟩)

theorem typeHits_eq (ref : RawRef) :
    corpus.typeHits ref = [] ∧ corpus.typeClasses ref = [] ∨
      corpus.typeHits ref = corpus.receiverHits (corpus.typeClasses ref) ref.targetName
        "receiver_type_hint" := by
  unfold typeHits typeClasses
  split
  · exact Or.inl ⟨rfl, rfl⟩
  · exact Or.inr rfl

theorem recvHits_of_named {ref : RawRef} (named : corpus.namedClasses ref ≠ []) :
    corpus.recvHits ref =
      corpus.receiverHits (corpus.namedClasses ref) ref.targetName "receiver_type" := by
  unfold namedClasses at named ⊢
  split at named
  · exact (named rfl).elim
  · next other =>
      simp only [not_or] at other
      unfold recvHits
      simp only [other, or_self, ↓reduceIte]

/-- The steps of a receiver with the method follow those ahead of them. -/
theorem exists_steps_of_receiver {ref : RawRef} {receiver : Receiver}
    (listed : receiver ∈ corpus.receivers ref)
    (answered : corpus.lineageMethods receiver.classIds ref.targetName ≠ []) :
    ∃ strategy more,
      corpus.placeHits ref (corpus.namePool ref) (corpus.functionsOnly ref) ++
          corpus.typeHits ref ++ corpus.recvHits ref =
        receiver.ahead ++
          (corpus.receiverHits receiver.classIds ref.targetName strategy ++ more) := by
  have filled : receiver.classIds ≠ [] := by
    intro none
    rw [none] at answered
    exact answered rfl
  simp only [receivers, List.mem_cons, List.not_mem_nil, or_false] at listed
  rcases listed with rfl | rfl
  · refine ⟨"receiver_type_hint", corpus.recvHits ref, ?_⟩
    rw [List.append_assoc, (@typeHits_eq corpus ref).resolve_left fun none => filled none.2]
  · refine ⟨"receiver_type", [], ?_⟩
    rw [recvHits_of_named filled, List.append_nil]

/-- A call that a receiver with the method answers has a known name. -/
theorem byName_ne_nil_of_lineageMethods {classIds : List NodeId} {name : Str}
    (answered : corpus.lineageMethods classIds name ≠ []) : corpus.byName name ≠ [] := by
  obtain ⟨method, listed⟩ := List.exists_mem_of_ne_nil _ answered
  obtain ⟨owner, _, declared⟩ := List.mem_flatMap.mp listed
  obtain ⟨present, shaped⟩ := List.mem_filter.mp declared
  simp only [Bool.and_eq_true, decide_eq_true_eq] at shaped
  refine List.ne_nil_of_mem (a := method) (List.mem_filter.mpr ⟨present, ?_⟩)
  simp only [decide_eq_true_eq]
  exact ⟨.inr shaped.1.1.1, shaped.1.2⟩

/-- A step that finds something gives the call a strategy that is none of names. -/
theorem not_isNameStrategy_of_step {ref : RawRef} {pool : List Node} {functionsOnly : Bool}
    {hit : Hit} (step : hit ∈ corpus.placeHits ref pool functionsOnly ++ corpus.typeHits ref ++
      corpus.recvHits ref) :
    isNameStrategy (applyArity ref hit).2 = false := by
  have trusted : ∀ strategy ∈ stepStrategies, isNameStrategy strategy = false ∧
      isNameStrategy (strategy ++ "+arity".toList) = false := by decide
  have named := trusted _ (strategy_of_mem_steps step)
  cases applyArity_strategy ref hit with
  | inl bare => exact bare ▸ named.1
  | inr arity => exact arity ▸ named.2

/-- Steps that find nothing take nothing. -/
theorem taken_of_silent (ref : RawRef) {hits : List Hit} (silent : ∀ hit ∈ hits, hit.1 = []) :
    taken ref hits = [] := by
  rw [taken, firstHit_of_forall_empty silent]
  exact List.eq_nil_iff_forall_not_mem.mpr fun node within =>
    List.not_mem_nil (mem_of_mem_applyArity within)

/-- **The receiver decides** what the steps ahead of it leave open. -/
theorem narrowCall_of_receiver {ref : RawRef} {receiver : Receiver}
    (inside : corpus.externalReceiver ref = false) (listed : receiver ∈ corpus.receivers ref)
    (answered : corpus.lineageMethods receiver.classIds ref.targetName ≠ []) :
    isNameStrategy (corpus.narrowCall ref).2 = false ∧
      (∀ node ∈ taken ref receiver.ahead, node ∈ (corpus.narrowCall ref).1) ∧
        ∀ node ∈ (corpus.narrowCall ref).1, node ∈ taken ref receiver.ahead ∨
          node ∈ corpus.lineageMethods receiver.classIds ref.targetName := by
  have known := byName_ne_nil_of_lineageMethods answered
  obtain ⟨strategy, more, steps⟩ := exists_steps_of_receiver listed answered
  have answers := exists_hit_of_lineageMethods strategy answered
  have narrowed := (narrowCall_of_known inside known).2
  rw [narrowPool_eq, steps] at narrowed
  refine ⟨?_, ?_⟩
  · obtain ⟨hit, own, some⟩ := answers
    have step := (@firstHit_of_exists (corpus.namePool ref, "name".toList) _
      ⟨hit, List.mem_append_right receiver.ahead (List.mem_append_left more own), some⟩).1
    rw [← steps] at step narrowed
    rw [narrowed]
    exact not_isNameStrategy_of_step step
  -- A step ahead that knows the name takes the call; the receiver answers behind silent ones.
  by_cases ahead : ∃ hit ∈ receiver.ahead, hit.1 ≠ []
  · have same : (corpus.narrowCall ref).1 = taken ref receiver.ahead := by
      rw [narrowed, firstHit_append, taken]
      rw [@firstHit_eq_of_exists _ ([], []) _ ahead]
    rw [same]
    exact ⟨fun node => id, fun node => .inl⟩
  · have silent : ∀ hit ∈ receiver.ahead, hit.1 = [] := by
      intro hit tried
      by_contra some
      exact ahead ⟨hit, tried, some⟩
    rw [taken_of_silent ref silent]
    refine ⟨fun node within => (List.not_mem_nil within).elim, fun node within => .inr ?_⟩
    rw [narrowed, firstHit_append, firstHit_of_forall_empty silent, firstHit_append] at within
    have first := @firstHit_of_exists (firstHit (corpus.namePool ref, "name".toList) more) _ answers
    exact mem_lineageMethods_of_hit first.1 node (mem_of_mem_applyArity within)

end Corpus

section Law

variable {settings : Settings} {corpus : Corpus}

/-- Demoted calls and the last names of calls are symbol uses. -/
theorem uniform_resolveUnknownReceiver {memo : Memo} {ref : RawRef} {wanted : List Node}
    {strategy : Str} :
    Uniform (resolveUnknownReceiver settings memo ref wanted strategy).chunk.links .references
      (strategy ++ "+unknown_recv".toList) := by
  unfold resolveUnknownReceiver
  dsimp only
  split
  · exact uniform_single
  · split
    · exact fun edge listed => (List.not_mem_nil listed).elim
    · exact uniform_fanOut

/-- The edges of a fallback are symbol uses. -/
theorem references_of_resolveFallback {memo : Memo} {ref : RawRef} {strategy : Str} :
    ∀ edge ∈ (resolveFallback corpus memo ref strategy).chunk.links, edge.type = .references := by
  intro edge
  unfold resolveFallback
  dsimp only
  split
  · exact fun listed => (List.not_mem_nil listed).elim
  · exact fun listed => (uniform_single edge listed).1
  · exact fun listed => (uniform_fanOut edge listed).1

/-- A call edge ends at a candidate of a call that is resolved by its name. -/
theorem of_callEdge {ref : RawRef} (typed : ref.type = .calls) {edge : Edge}
    (listed : edge ∈ linksOf settings corpus ref) (call : edge.type = .calls) :
    ref.refFile ∉ settings.skipCallFiles ∧ corpus.externalReceiver ref = false ∧
      ∃ node ∈ (corpus.narrowCall ref).1, node.id = edge.dst := by
  unfold linksOf at listed
  rw [resolveOneRef_call {} typed] at listed
  unfold resolveCall at listed
  split at listed
  · exact (List.not_mem_nil listed).elim
  · next unskipped =>
      split at listed
      · unfold resolveExternal at listed
        dsimp only at listed
        split at listed
        · exact (List.not_mem_nil listed).elim
        · rw [List.mem_singleton.mp listed] at call
          cases call
      · next inside =>
          refine ⟨unskipped, Bool.not_eq_true _ ▸ inside, ?_⟩
          unfold resolveInRepoCall at listed
          dsimp only at listed
          split at listed
          · rw [(uniform_resolveUnknownReceiver edge listed).1] at call
            cases call
          · split at listed
            · rw [references_of_resolveFallback edge listed] at call
              cases call
            · exact (exists_link_emit.mp ⟨edge, listed, rfl⟩).1

/-- Each candidate of a call that does not rest on the bare name gets a call edge. -/
theorem exists_callEdge {ref : RawRef} (typed : ref.type = .calls)
    (unskipped : ref.refFile ∉ settings.skipCallFiles)
    (inside : corpus.externalReceiver ref = false)
    (trusted : isNameStrategy (corpus.narrowCall ref).2 = false) {node : Node}
    (wanted : node ∈ (corpus.narrowCall ref).1) :
    ∃ edge ∈ linksOf settings corpus ref, edge.type = .calls ∧ edge.dst = node.id := by
  have some : (corpus.narrowCall ref).1 ≠ [] := List.ne_nil_of_mem wanted
  have emits : linksOf settings corpus ref =
      (emit settings {} ref (corpus.narrowCall ref).1 .inferred
        (!(corpus.byName ref.targetName).isEmpty) (corpus.narrowCall ref).2).chunk.links := by
    unfold linksOf
    rw [resolveOneRef_call {} typed, resolveCall, if_neg unskipped, inside,
      if_neg Bool.false_ne_true, resolveInRepoCall]
    dsimp only
    rw [if_neg fun demoted => Bool.false_ne_true (trusted.symm.trans demoted.2.1), if_neg some]
  obtain ⟨edge, listed, dst⟩ := exists_link_emit.mpr
    ⟨⟨node, wanted, rfl⟩, by rw [trusted, Bool.false_and]; exact Bool.false_ne_true⟩
  refine ⟨edge, emits ▸ listed, ?_, dst⟩
  rw [(uniform_emit edge listed).1, typed]

variable (settings corpus) in
/-- Where the type of the receiver, or the class it names, has the method, every call edge ends
at such a method. -/
def ReceiverLaw : Prop :=
  ∀ ref ∈ corpus.refs, ref.type = .calls →
    ∀ classIds ∈ [corpus.typeClasses ref, corpus.namedClasses ref],
      corpus.lineageMethods classIds ref.targetName ≠ [] →
        ∀ edge ∈ linksOf settings corpus ref, edge.type = .calls →
          ∃ method ∈ corpus.lineageMethods classIds ref.targetName, method.id = edge.dst

/-- **Receiver law.** It holds exactly when no call that is resolved by its name, and that a
receiver answers, is taken elsewhere by a step ahead of that receiver. -/
theorem receiverLaw_iff (settings : Settings) (corpus : Corpus) :
    ReceiverLaw settings corpus ↔
      ∀ ref ∈ corpus.refs, ref.type = .calls → ref.refFile ∉ settings.skipCallFiles →
        corpus.externalReceiver ref = false → ∀ receiver ∈ corpus.receivers ref,
          corpus.lineageMethods receiver.classIds ref.targetName ≠ [] →
            ∀ node ∈ taken ref receiver.ahead,
              ∃ method ∈ corpus.lineageMethods receiver.classIds ref.targetName,
                method.id = node.id := by
  have answering : ∀ ref : RawRef, (corpus.receivers ref).map Corpus.Receiver.classIds =
      [corpus.typeClasses ref, corpus.namedClasses ref] := fun _ => rfl
  constructor
  · intro law ref listed typed unskipped inside receiver receives answered node ahead
    obtain ⟨trusted, within, _⟩ := Corpus.narrowCall_of_receiver inside receives answered
    obtain ⟨edge, link, call, dst⟩ := exists_callEdge typed unskipped inside trusted
      (within node ahead)
    rw [← dst]
    refine law ref listed typed receiver.classIds ?_ answered edge link call
    exact answering ref ▸ List.mem_map_of_mem receives
  · intro kept ref listed typed classIds receives answered edge link call
    rw [← answering ref] at receives
    obtain ⟨receiver, tried, rfl⟩ := List.mem_map.mp receives
    obtain ⟨unskipped, inside, node, wanted, dst⟩ := of_callEdge typed link call
    obtain ⟨_, _, reached⟩ := Corpus.narrowCall_of_receiver inside tried answered
    rw [← dst]
    rcases reached node wanted with ahead | own
    · exact kept ref listed typed unskipped inside receiver tried answered node ahead
    · exact ⟨node, own, rfl⟩

/-- `Log.add` in one file, `Job.run` in another, which calls `log.add()` on a
`Log`; `Job` may have an `add` of its own. -/
def loggingCorpus (own : Bool) : Corpus where
  nodes :=
    [{ id := letterId 'l', label := .cls, name := ['L', 'o', 'g'],
       fqn := ['L', 'o', 'g'], repo := [], kind := .cls, file := ['a'] },
     { id := letterId 'a', label := .function, name := ['a', 'd', 'd'],
       fqn := ['L', 'o', 'g', '.', 'a', 'd', 'd'], repo := [], kind := .method, file := ['a'] },
     { id := letterId 'j', label := .cls, name := ['J', 'o', 'b'],
       fqn := ['J', 'o', 'b'], repo := [], kind := .cls, file := ['b'] },
     { id := letterId 'r', label := .function, name := ['r', 'u', 'n'],
       fqn := ['J', 'o', 'b', '.', 'r', 'u', 'n'], repo := [], kind := .method, file := ['b'] }] ++
    if own then
      [{ id := letterId 'o', label := .function, name := ['a', 'd', 'd'],
         fqn := ['J', 'o', 'b', '.', 'a', 'd', 'd'], repo := [], kind := .method, file := ['b'] }]
    else []
  edges :=
    [(.contains, letterId 'l', letterId 'a'),
     (.contains, letterId 'j', letterId 'r')] ++
    if own then [(.contains, letterId 'j', letterId 'o')]
    else []
  refs :=
    [{ type := .calls, src := letterId 'r', targetName := ['a', 'd', 'd'],
       kindHint := .call, recv := ['l', 'o', 'g'], recvType := ['L', 'o', 'g'], refFile := ['b'],
       refLine := 4, callArity := 0 }]

/-- With an `add` of its own, the edge of `Job.run` ends there, although the receiver is a
`Log`. -/
theorem logging_ends_at_own :
    ¬ ∀ (settings : Settings) (corpus : Corpus), ReceiverLaw settings corpus := by
  intro law
  have ends := law plainSettings (loggingCorpus true) _ List.mem_cons_self rfl _
    List.mem_cons_self (by decide +kernel)
  revert ends
  decide +kernel

/-- Without one, nothing is found ahead of the receiver, and the edge ends at `Log.add`. -/
theorem logging_ends_at_receiver :
    ReceiverLaw plainSettings (loggingCorpus false) ∧ ∃ ref ∈ (loggingCorpus false).refs,
      (loggingCorpus false).lineageMethods ((loggingCorpus false).typeClasses ref) ref.targetName ≠
          [] ∧
        (linksOf plainSettings (loggingCorpus false) ref).map Edge.dst = [letterId 'a'] := by
  have silent : ∀ ref ∈ (loggingCorpus false).refs, ∀ receiver ∈ (loggingCorpus false).receivers ref,
      (loggingCorpus false).lineageMethods receiver.classIds ref.targetName = [] ∨
        taken ref receiver.ahead = [] := by
    decide +kernel
  refine ⟨(receiverLaw_iff plainSettings (loggingCorpus false)).mpr ?_,
    _, List.mem_cons_self, by decide +kernel, by decide +kernel⟩
  intro ref listed _ _ _ receiver receives answered node ahead
  rw [(silent ref listed receiver receives).resolve_left answered] at ahead
  exact (List.not_mem_nil ahead).elim

end Law

end GraphIngest.Resolve
