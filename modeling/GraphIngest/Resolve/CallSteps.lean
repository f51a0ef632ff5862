import GraphIngest.Resolve.Narrow

/-! # The steps that narrow a call

The container of the caller comes first, then its file, what the file imports,
the type of the receiver, and the class the receiver names. The first step that
finds something decides, and the arity only narrows what it found.
-/

namespace GraphIngest.Resolve

open Foundation Text Graph

theorem firstHit_append (otherwise : Hit) (hits more : List Hit) :
    firstHit otherwise (hits ++ more) = firstHit (firstHit otherwise more) hits := by
  induction hits with
  | nil => rfl
  | cons hit rest ih =>
      rw [List.cons_append, firstHit, firstHit, ih]

theorem firstHit_eq_or_mem (otherwise : Hit) (hits : List Hit) :
    firstHit otherwise hits = otherwise ∨ firstHit otherwise hits ∈ hits := by
  induction hits with
  | nil => exact Or.inl rfl
  | cons hit rest ih =>
      rw [firstHit]
      split
      · cases ih with
        | inl none => exact Or.inl none
        | inr found => exact Or.inr (List.mem_cons_of_mem _ found)
      · exact Or.inr List.mem_cons_self

/-- Steps that all find nothing hand over. -/
theorem firstHit_of_forall_empty {otherwise : Hit} {hits : List Hit}
    (empty : ∀ hit ∈ hits, hit.1 = []) : firstHit otherwise hits = otherwise := by
  induction hits with
  | nil => rfl
  | cons hit rest ih =>
      rw [firstHit, empty hit List.mem_cons_self]
      exact ih fun other later => empty other (List.mem_cons_of_mem _ later)

/-- Once a step finds something, the first that does decides, whatever would be
taken otherwise. -/
theorem firstHit_of_exists {otherwise : Hit} {hits : List Hit}
    (found : ∃ hit ∈ hits, hit.1 ≠ []) :
    firstHit otherwise hits ∈ hits ∧ (firstHit otherwise hits).1 ≠ [] ∧
      (firstHit otherwise hits).1 = firstNonempty (hits.map Prod.fst) := by
  induction hits with
  | nil =>
      obtain ⟨hit, listed, _⟩ := found
      exact (List.not_mem_nil listed).elim
  | cons hit rest ih =>
      rw [firstHit, List.map_cons, firstNonempty]
      split
      · next empty =>
          rw [List.isEmpty_iff] at empty
          have later : ∃ hit ∈ rest, hit.1 ≠ [] := by
            obtain ⟨other, listed, some⟩ := found
            cases List.mem_cons.mp listed with
            | inl same => exact (some (same ▸ empty)).elim
            | inr later => exact ⟨other, later, some⟩
          obtain ⟨listed, some, first⟩ := ih later
          exact ⟨List.mem_cons_of_mem _ listed, some, first⟩
      · next some =>
          rw [List.isEmpty_iff] at some
          exact ⟨List.mem_cons_self, some, rfl⟩

/-- Once a step finds something, nothing else is taken. -/
theorem firstHit_eq_of_exists {otherwise other : Hit} {hits : List Hit}
    (found : ∃ hit ∈ hits, hit.1 ≠ []) : firstHit otherwise hits = firstHit other hits := by
  induction hits with
  | nil =>
      obtain ⟨hit, listed, _⟩ := found
      exact (List.not_mem_nil listed).elim
  | cons hit rest ih =>
      rw [firstHit, firstHit]
      split
      · next empty =>
          obtain ⟨later, listed, some⟩ := found
          cases List.mem_cons.mp listed with
          | inl same => exact (some (same ▸ List.isEmpty_iff.mp empty)).elim
          | inr behind => exact ih ⟨later, behind, some⟩
      · rfl

theorem mem_of_mem_applyArity {ref : RawRef} {hit : Hit} {node : Node}
    (listed : node ∈ (applyArity ref hit).1) : node ∈ hit.1 := by
  unfold applyArity at listed
  split at listed
  · exact listed
  · dsimp only at listed
    split at listed
    · exact listed
    · exact (List.mem_filter.mp listed).1

theorem applyArity_strategy (ref : RawRef) (hit : Hit) :
    (applyArity ref hit).2 = hit.2 ∨ (applyArity ref hit).2 = hit.2 ++ "+arity".toList := by
  unfold applyArity
  split
  · exact Or.inl rfl
  · dsimp only
    split
    · exact Or.inl rfl
    · exact Or.inr rfl

namespace Corpus

variable (corpus : Corpus)

/-- The file a call is looked up from. -/
def callerFile (ref : RawRef) : Str := ((corpus.nodeById ref.src).map Node.file).getD []

/-- The classes with a simple name that a call sees. -/
def visibleClasses (ref : RawRef) (name : Str) : List NodeId :=
  (corpus.narrowClassesForRecv (corpus.classesByName name) (corpus.callerFile ref)).map Node.id

/-- The classes of the declared type of the receiver. -/
def typeClasses (ref : RawRef) : List NodeId :=
  if ref.recvType = [] then [] else corpus.visibleClasses ref ref.recvType

/-- Functions only, once some function has the name. -/
def shapedFor (functionsOnly : Bool) (candidates : List Node) : List Node :=
  if functionsOnly then candidates.filter fun node => node.label = .function else candidates

/-- The step of the container. -/
def scopeHits (ref : RawRef) (functionsOnly : Bool) : List Hit :=
  match corpus.parentOf ref.src with
  | none => []
  | some parent =>
      [(shapedFor functionsOnly (corpus.byNameParent ref.targetName parent), "same_scope")]

/-- The steps of the file and of its imports. -/
def fileHits (ref : RawRef) (pool : List Node) (functionsOnly : Bool) : List Hit :=
  let file := corpus.callerFile ref
  if file = [] then []
  else
    [(shapedFor functionsOnly (corpus.byNameFile ref.targetName file), "same_file"),
     (pool.filter fun node => (corpus.importFqnsOf file).contains (corpus.packageOf node.id),
       "imports_qualified_exact"),
     (importQualifiedHits pool (corpus.importTailsOf file), "imports_qualified"),
     (pool.filter fun node => (corpus.importsOf file).contains node.name ||
       (corpus.importsOf file).contains (simpleName node.fqn), "imports")]

/-- The steps that do not look at the receiver. -/
def placeHits (ref : RawRef) (pool : List Node) (functionsOnly : Bool) : List Hit :=
  corpus.scopeHits ref functionsOnly ++ corpus.fileHits ref pool functionsOnly

/-- The steps of the declared type of the receiver. -/
def typeHits (ref : RawRef) : List Hit :=
  if ref.recvType = [] then []
  else corpus.receiverHits (corpus.visibleClasses ref ref.recvType) ref.targetName
    "receiver_type_hint"

/-- The steps of the class the receiver is or names. -/
def recvHits (ref : RawRef) : List Hit :=
  if ref.recv = "self".toList ∨ ref.recv = "cls".toList then
    match corpus.enclosingClassId ref.src with
    | none => []
    | some cls => corpus.receiverHits [cls] ref.targetName "receiver_type"
  else if ref.recv = [] then []
  else corpus.receiverHits (corpus.visibleClasses ref ref.recv) ref.targetName "receiver_type"

variable {corpus}

/-- **The decision list** of a call: the places, the type of the receiver, its
class, and the bare name last. -/
theorem narrowPool_eq (ref : RawRef) (pool : List Node) (functionsOnly : Bool) :
    corpus.narrowPool ref pool functionsOnly =
      applyArity ref (firstHit (pool, "name")
        (corpus.placeHits ref pool functionsOnly ++ corpus.typeHits ref ++
          corpus.recvHits ref)) := rfl

theorem narrowCall_of_external {ref : RawRef} (outside : corpus.externalReceiver ref = true) :
    corpus.narrowCall ref = ([], "external_receiver".toList) := by
  unfold narrowCall
  rw [if_pos outside]

/-- A call of a name that nothing in the repository has. -/
theorem narrowCall_of_unknown {ref : RawRef} (inside : corpus.externalReceiver ref = false)
    (unknown : corpus.byName ref.targetName = []) :
    corpus.narrowCall ref = ([], "none".toList) := by
  have none : corpus.functionsByName ref.targetName = [] := by
    apply List.eq_nil_iff_forall_not_mem.mpr
    intro node listed
    have named : node ∈ corpus.byName ref.targetName := by
      unfold functionsByName at listed
      unfold byName
      rw [List.mem_filter] at listed ⊢
      refine ⟨listed.1, ?_⟩
      simp only [decide_eq_true_eq] at listed ⊢
      exact ⟨Or.inr listed.2.1, listed.2.2⟩
    rw [unknown] at named
    exact List.not_mem_nil named
  unfold narrowCall
  simp only [inside, none, unknown, Bool.false_eq_true, List.isEmpty_nil, ↓reduceIte]

variable (corpus) in
/-- The symbols a call may mean by its name: functions if there are any. -/
def namePool (ref : RawRef) : List Node :=
  if (corpus.functionsByName ref.targetName).isEmpty then corpus.byName ref.targetName
  else corpus.functionsByName ref.targetName

variable (corpus) in
def functionsOnly (ref : RawRef) : Bool := !(corpus.functionsByName ref.targetName).isEmpty

/-- A call of a known name goes through the steps. -/
theorem narrowCall_of_known {ref : RawRef} (inside : corpus.externalReceiver ref = false)
    (known : corpus.byName ref.targetName ≠ []) :
    corpus.namePool ref ≠ [] ∧
      corpus.narrowCall ref =
        corpus.narrowPool ref (corpus.namePool ref) (corpus.functionsOnly ref) := by
  have some : corpus.namePool ref ≠ [] := by
    unfold namePool
    split
    · exact known
    · next found => exact fun none => found (List.isEmpty_iff.mpr none)
  refine ⟨some, ?_⟩
  have pooled : (corpus.namePool ref).isEmpty = false := List.isEmpty_eq_false_iff.mpr some
  unfold namePool at pooled
  unfold narrowCall
  simp only [inside, Bool.false_eq_true, ↓reduceIte, pooled]
  rfl

theorem narrowPool_ne_nil (ref : RawRef) {pool : List Node} (some : pool ≠ [])
    (functionsOnly : Bool) : (corpus.narrowPool ref pool functionsOnly).1 ≠ [] := by
  have kept : ∀ hit : Hit, hit.1 ≠ [] → (applyArity ref hit).1 ≠ [] := by
    intro hit found
    unfold applyArity
    split
    · exact found
    · dsimp only
      split
      · exact found
      · next narrowed => exact fun empty => narrowed (List.isEmpty_iff.mpr empty)
  rw [narrowPool_eq]
  apply kept
  by_cases found : ∃ hit ∈ corpus.placeHits ref pool functionsOnly ++ corpus.typeHits ref ++
      corpus.recvHits ref, hit.1 ≠ []
  · exact (firstHit_of_exists found).2.1
  · have empty : ∀ hit ∈ corpus.placeHits ref pool functionsOnly ++ corpus.typeHits ref ++
        corpus.recvHits ref, hit.1 = [] := by
      intro hit listed
      by_contra some
      exact found ⟨hit, listed, some⟩
    rw [firstHit_of_forall_empty empty]
    exact some

/-- A call finds candidates exactly when its name is known and its receiver may
be in the repository. -/
theorem narrowCall_eq_nil_iff (ref : RawRef) :
    (corpus.narrowCall ref).1 = [] ↔
      corpus.externalReceiver ref = true ∨ corpus.byName ref.targetName = [] := by
  cases inside : corpus.externalReceiver ref with
  | true => simp only [narrowCall_of_external inside, true_or]
  | false =>
      by_cases known : corpus.byName ref.targetName = []
      · simp only [narrowCall_of_unknown inside known, known, or_true]
      · obtain ⟨some, steps⟩ := narrowCall_of_known inside known
        simp only [steps, narrowPool_ne_nil ref some, known, Bool.false_eq_true, or_self]

/-- The strategies of the steps. -/
def stepStrategies : List Str :=
  ["same_scope", "same_file", "imports_qualified_exact", "imports_qualified", "imports",
   "receiver_type_hint", "receiver_type_hint_inherited", "receiver_type",
   "receiver_type_inherited"]

theorem strategy_receiverHits {classIds : List NodeId} {name strategy : Str} {hit : Hit}
    (listed : hit ∈ corpus.receiverHits classIds name strategy) :
    hit.2 = strategy ∨ hit.2 = strategy ++ "_inherited".toList := by
  simp only [receiverHits, List.mem_cons, List.not_mem_nil, or_false] at listed
  cases listed with
  | inl own => exact Or.inl (own ▸ rfl)
  | inr inherited => exact Or.inr (inherited ▸ rfl)

theorem strategy_of_mem_steps {ref : RawRef} {pool : List Node} {functionsOnly : Bool} {hit : Hit}
    (listed : hit ∈ corpus.placeHits ref pool functionsOnly ++ corpus.typeHits ref ++
      corpus.recvHits ref) : hit.2 ∈ stepStrategies := by
  have named : ∀ found : Hit, found.2 = "receiver_type".toList ∨
      found.2 = "receiver_type".toList ++ "_inherited".toList → found.2 ∈ stepStrategies := by
    intro found named
    cases named with
    | inl own => rw [own]; decide
    | inr inherited => rw [inherited]; decide
  simp only [placeHits, List.mem_append, or_assoc] at listed
  rcases listed with scope | file | type | recv
  · unfold scopeHits at scope
    split at scope
    · cases scope
    · rw [List.mem_singleton.mp scope]
      exact List.mem_cons_self
  · unfold fileHits at file
    dsimp only at file
    split at file
    · cases file
    · simp only [List.mem_cons, List.not_mem_nil, or_false] at file
      rcases file with rfl | rfl | rfl | rfl <;> dsimp only <;> decide
  · unfold typeHits at type
    split at type
    · cases type
    · cases strategy_receiverHits type with
      | inl own => rw [own]; decide
      | inr inherited => rw [inherited]; decide
  · unfold recvHits at recv
    split at recv
    · split at recv
      · cases recv
      · exact named hit (strategy_receiverHits recv)
    · split at recv
      · cases recv
      · exact named hit (strategy_receiverHits recv)

/-- **Strategies of calls.** A candidate comes from a step or from the bare name,
narrowed by the arity or not. -/
theorem strategy_narrowCall {ref : RawRef} (found : (corpus.narrowCall ref).1 ≠ []) :
    ∃ strategy ∈ "name".toList :: stepStrategies, (corpus.narrowCall ref).2 = strategy ∨
      (corpus.narrowCall ref).2 = strategy ++ "+arity".toList := by
  rw [Ne, narrowCall_eq_nil_iff, not_or, Bool.not_eq_true] at found
  rw [(narrowCall_of_known found.1 found.2).2, narrowPool_eq]
  refine ⟨_, ?_, applyArity_strategy ref _⟩
  cases firstHit_eq_or_mem (corpus.namePool ref, "name".toList)
      (corpus.placeHits ref (corpus.namePool ref) (corpus.functionsOnly ref) ++
        corpus.typeHits ref ++ corpus.recvHits ref) with
  | inl bare => rw [bare]; exact List.mem_cons_self
  | inr listed => exact List.mem_cons_of_mem _ (strategy_of_mem_steps listed)

end Corpus

end GraphIngest.Resolve
