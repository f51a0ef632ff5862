import GraphIngest.Foundation.Preference
import GraphIngest.Resolve.CallSteps
import GraphIngest.Resolve.Cap
import GraphIngest.Resolve.Coverage
import GraphIngest.Resolve.ExternalFacts
import GraphIngest.Resolve.LinkEnds

/-! # Classes as their own supertypes

A reference to a supertype carries a simple name, and the class it starts at may
bear that name itself. The steps that narrow the candidates prefer those of the
own file, so that the class is then resolved to itself. No class gets itself as a
supertype exactly when no class whose simple name is that of a supertype is among
the candidates it prefers.
-/

namespace GraphIngest.Resolve

open Foundation Text Graph External

/-- A reference or an edge to a supertype. -/
def Hierarchical (type : EdgeType) : Prop := type = .extends ∨ type = .implements

instance : DecidablePred Hierarchical := fun _ => inferInstanceAs (Decidable (_ ∨ _))

namespace Corpus

variable (corpus : Corpus)

/-- The file of the node a reference starts at. -/
def sourceFile (ref : RawRef) : Str := ((corpus.nodeById ref.src).map Node.file).getD []

/-- What makes a class visible from a file, the strongest first. -/
def visibleFrom (file : Str) : List (Node → Bool) :=
  if file = [] then []
  else
    [fun node => node.file = file,
     fun node => (corpus.importFqnsOf file).contains node.fqn,
     fun node => (splitBy '.' node.fqn).tail.any fun segment =>
       (corpus.importTailsOf file).contains segment,
     fun node =>
       corpus.packageOfFile file ≠ [] && corpus.packageOf node.id = corpus.packageOfFile file,
     fun node => (corpus.wildcardPackagesOf file).contains (corpus.packageOf node.id),
     fun node => (corpus.importsOf file).contains node.name]

/-- The names of these steps. -/
def visibleStrategies : List Str :=
  ["same_file", "imports_qualified_exact", "imports_qualified", "same_package", "imports_wildcard",
   "imports"]

/-- Some class of the name in a reference is visible from its file. -/
def SomeVisible (ref : RawRef) : Prop :=
  ∃ node ∈ corpus.classesByName (simpleName ref.targetName),
    ∃ rule ∈ corpus.visibleFrom (corpus.sourceFile ref), rule node = true

end Corpus

section Narrowing

variable {corpus : Corpus}

/-- Steps that filter one pool come to the preferred candidates. -/
theorem firstHit_filters (pool : List Node) (strategy : Str) (steps : List ((Node → Bool) × Str)) :
    (firstHit (pool, strategy) (steps.map fun step => (pool.filter step.1, step.2))).1 =
      preferred (steps.map Prod.fst) pool := by
  induction steps with
  | nil => rfl
  | cons step rest ih =>
      rw [List.map_cons, List.map_cons, firstHit, preferred]
      dsimp only
      split
      · exact ih
      · rfl

/-- They hand over to the bare name exactly when no candidate meets any of them. -/
theorem firstHit_filters_strategy {pool : List Node} {strategy : Str}
    {steps : List ((Node → Bool) × Str)} (bare : isNameStrategy strategy = true)
    (placed : ∀ step ∈ steps, isNameStrategy step.2 = false) :
    isNameStrategy
        (firstHit (pool, strategy) (steps.map fun step => (pool.filter step.1, step.2))).2 = true ↔
      ¬ ∃ node ∈ pool, ∃ rule ∈ steps.map Prod.fst, rule node = true := by
  induction steps with
  | nil =>
      refine iff_of_true bare fun found => ?_
      obtain ⟨node, -, rule, listed, -⟩ := found
      exact List.not_mem_nil listed
  | cons step rest ih =>
      rw [List.map_cons, firstHit]
      dsimp only
      split
      · next empty =>
          rw [List.isEmpty_iff, List.filter_eq_nil_iff] at empty
          rw [ih fun other later => placed other (List.mem_cons_of_mem _ later), List.map_cons]
          refine not_congr (exists_congr fun node => and_congr_right fun listed => ?_)
          simp only [List.mem_cons, exists_eq_or_imp, or_iff_right (empty node listed)]
      · next some =>
          rw [placed step List.mem_cons_self]
          refine iff_of_false Bool.false_ne_true (not_not_intro ?_)
          obtain ⟨node, found⟩ := List.exists_mem_of_ne_nil _ fun none =>
            some (List.isEmpty_iff.mpr none)
          obtain ⟨listed, meets⟩ := List.mem_filter.mp found
          exact ⟨node, listed, step.1, List.mem_cons_self, meets⟩

/-- Several candidates are narrowed by the steps that apply to the file. -/
theorem narrowType_of_several {ref : RawRef}
    (several : 1 < (corpus.classesByName (simpleName ref.targetName)).length) :
    corpus.narrowType ref =
      firstHit (corpus.classesByName (simpleName ref.targetName), "name")
        (((corpus.visibleFrom (corpus.sourceFile ref)).zip Corpus.visibleStrategies).map
          fun step =>
            ((corpus.classesByName (simpleName ref.targetName)).filter step.1, step.2)) := by
  have some : (corpus.classesByName (simpleName ref.targetName)).isEmpty = false := by
    rw [List.isEmpty_eq_false_iff]
    exact List.ne_nil_of_length_pos (by omega)
  rw [Corpus.narrowType]
  dsimp only
  rw [some, if_neg Bool.false_ne_true, if_neg (by omega)]
  change (if corpus.sourceFile ref = [] then _ else _) = _
  by_cases noFile : corpus.sourceFile ref = []
  · rw [if_pos noFile, Corpus.visibleFrom, if_pos noFile]
    rfl
  · have packages : (if corpus.packageOfFile (corpus.sourceFile ref) = [] then [] else
        (corpus.classesByName (simpleName ref.targetName)).filter fun node =>
          decide (corpus.packageOf node.id = corpus.packageOfFile (corpus.sourceFile ref))) =
        (corpus.classesByName (simpleName ref.targetName)).filter fun node =>
          decide (corpus.packageOfFile (corpus.sourceFile ref) ≠ []) &&
            decide (corpus.packageOf node.id = corpus.packageOfFile (corpus.sourceFile ref)) := by
      split
      · next none =>
          rw [none]
          exact (List.filter_eq_nil_iff.mpr fun _ _ => Bool.false_ne_true).symm
      · next some =>
          rw [decide_eq_true some]
          rfl
    rw [if_neg noFile, Corpus.visibleFrom, if_neg noFile]
    change firstHit _ [_, _, _, ((if corpus.packageOfFile (corpus.sourceFile ref) = [] then [] else
        (corpus.classesByName (simpleName ref.targetName)).filter fun node =>
          decide (corpus.packageOf node.id = corpus.packageOfFile (corpus.sourceFile ref))), _),
      _, _] = _
    rw [packages]
    rfl

theorem visibleFrom_eq_map (file : Str) :
    corpus.visibleFrom file =
      ((corpus.visibleFrom file).zip Corpus.visibleStrategies).map Prod.fst := by
  rw [Corpus.visibleFrom]
  split <;> rfl

theorem not_isNameStrategy_of_mem {file : Str} {step : (Node → Bool) × Str}
    (listed : step ∈ (corpus.visibleFrom file).zip Corpus.visibleStrategies) :
    isNameStrategy step.2 = false := by
  have known : ∀ strategy ∈ Corpus.visibleStrategies, isNameStrategy strategy = false := by
    decide
  exact known step.2 (List.of_mem_zip listed).2

/-- **Candidates.** A type reference is narrowed to the classes of its name that
are preferred from its file. -/
theorem mem_narrowType {ref : RawRef} {node : Node} :
    node ∈ (corpus.narrowType ref).1 ↔
      node ∈ corpus.classesByName (simpleName ref.targetName) ∧
        ∀ other ∈ corpus.classesByName (simpleName ref.targetName),
          rank (corpus.visibleFrom (corpus.sourceFile ref)) node ≤
            rank (corpus.visibleFrom (corpus.sourceFile ref)) other := by
  by_cases several : 1 < (corpus.classesByName (simpleName ref.targetName)).length
  · rw [narrowType_of_several several, firstHit_filters, ← visibleFrom_eq_map]
    exact mem_preferred
  · rw [Corpus.narrowType]
    cases pool : corpus.classesByName (simpleName ref.targetName) with
    | nil => exact iff_of_false List.not_mem_nil fun both => List.not_mem_nil both.1
    | cons only rest =>
        rw [pool, List.length_cons] at several
        obtain rfl := List.eq_nil_of_length_eq_zero (show rest.length = 0 by omega)
        refine ⟨fun listed => ⟨listed, fun other present => ?_⟩, And.left⟩
        rw [List.mem_singleton.mp listed, List.mem_singleton.mp present]

/-- A bare name is capped when nothing of that name is visible and there are more
classes of it than the cap. -/
theorem capped_narrowType_iff {settings : Settings} {ref : RawRef} :
    (isNameStrategy (corpus.narrowType ref).2 && overCap settings (corpus.narrowType ref).1) =
        true ↔
      overCap settings (corpus.classesByName (simpleName ref.targetName)) = true ∧
        ¬ corpus.SomeVisible ref := by
  rw [Bool.and_eq_true]
  by_cases several : 1 < (corpus.classesByName (simpleName ref.targetName)).length
  · have bare : isNameStrategy (corpus.narrowType ref).2 = true ↔ ¬ corpus.SomeVisible ref := by
      rw [narrowType_of_several several, firstHit_filters_strategy rfl fun step listed =>
        not_isNameStrategy_of_mem listed, ← visibleFrom_eq_map]
      rfl
    rw [bare, and_comm]
    refine and_congr_left fun unseen => ?_
    have all : (corpus.narrowType ref).1 = corpus.classesByName (simpleName ref.targetName) := by
      rw [narrowType_of_several several]
      have none : ∀ hit ∈ ((corpus.visibleFrom (corpus.sourceFile ref)).zip
          Corpus.visibleStrategies).map fun step =>
            ((corpus.classesByName (simpleName ref.targetName)).filter step.1, step.2),
          hit.1 = [] := by
        intro hit listed
        obtain ⟨step, present, rfl⟩ := List.mem_map.mp listed
        apply List.filter_eq_nil_iff.mpr
        exact fun node among meets =>
          unseen ⟨node, among, step.1, (List.of_mem_zip present).1, meets⟩
      rw [firstHit_of_forall_empty none]
    rw [all]
  · have narrow : ∀ wanted : List Node, wanted.length ≤ 1 → overCap settings wanted = false := by
      intro wanted few
      rw [overCap, Bool.and_eq_false_iff, decide_eq_false_iff_not, decide_eq_false_iff_not]
      omega
    have few : (corpus.narrowType ref).1.length ≤ 1 := by
      rw [Corpus.narrowType]
      dsimp only
      split
      · exact Nat.zero_le 1
      · next some =>
          have one := List.length_pos_of_ne_nil fun none => some (List.isEmpty_iff.mpr none)
          rw [if_pos (by omega)]
          exact Nat.le_of_not_lt several
    rw [narrow _ few, narrow _ (by omega)]
    exact iff_of_false (fun both => Bool.false_ne_true both.2) fun both =>
      Bool.false_ne_true both.1

end Narrowing

section Law

variable (settings : Settings) (corpus : Corpus)

/-- The reference starts at a class of the name it carries, and that class is
among the preferred ones of the name, unless a bare name has too many. -/
def NamesItself (ref : RawRef) : Prop :=
  (∃ node ∈ corpus.classesByName (simpleName ref.targetName), node.id = ref.src ∧
    ∀ other ∈ corpus.classesByName (simpleName ref.targetName),
      rank (corpus.visibleFrom (corpus.sourceFile ref)) node ≤
        rank (corpus.visibleFrom (corpus.sourceFile ref)) other) ∧
    ¬ (overCap settings (corpus.classesByName (simpleName ref.targetName)) = true ∧
      ¬ corpus.SomeVisible ref)

variable {settings corpus}

/-- An edge to a supertype comes of a reference to a supertype. -/
theorem hierarchical_of_link {ref : RawRef} {edge : Edge}
    (listed : edge ∈ linksOf settings corpus ref) (hierarchical : Hierarchical edge.type) :
    Hierarchical ref.type := by
  have plain (link : PlainLink ref edge) : Hierarchical ref.type := by
    obtain same | symbol := link
    · rwa [← same]
    · rw [symbol] at hierarchical
      obtain wrong | wrong := hierarchical <;> cases wrong
  unfold linksOf at listed
  by_cases marked : ref.type = .annotatedWith
  · rw [resolveOneRef_marked {} marked] at listed
    exact plain (.inl (type_resolveAnnotated_link listed))
  by_cases api : ref.type = .callsApi
  · rw [resolveOneRef_api {} api] at listed
    exact plain (.inl (links_resolveApi listed))
  by_cases call : ref.type = .calls
  · rw [resolveOneRef_call {} call] at listed
    unfold resolveCall at listed
    split at listed
    · exact (List.not_mem_nil listed).elim
    · split at listed
      · rw [(mem_links_resolveExternal.mp listed).2] at hierarchical
        obtain wrong | wrong := hierarchical <;> cases wrong
      · exact plain ((quiet_resolveInRepoCall {} ref).links edge listed)
  exact plain ((quiet_resolveOneRef {} marked api call).links edge listed)

/-- The edges of a reference to a supertype. -/
theorem linksOf_of_hierarchical {ref : RawRef} (hierarchical : Hierarchical ref.type) :
    linksOf settings corpus ref = (resolveType settings corpus {} ref).chunk.links := by
  unfold linksOf resolveOneRef
  obtain typed | typed := hierarchical
  · rw [typed]
    rfl
  · rw [typed]
    rfl

/-- **Supertypes, one reference.** It makes its class a supertype of itself exactly
when it names it itself. -/
theorem exists_selfLink_iff {ref : RawRef} (hierarchical : Hierarchical ref.type) :
    (∃ edge ∈ linksOf settings corpus ref, edge.dst = ref.src) ↔
      NamesItself settings corpus ref := by
  rw [linksOf_of_hierarchical hierarchical]
  unfold resolveType
  dsimp only
  rw [exists_link_emit, capped_narrowType_iff, NamesItself]
  simp only [mem_narrowType]
  refine and_congr_left fun _ => exists_congr fun node => ?_
  rw [and_assoc, and_congr_right_iff]
  exact fun _ => and_comm

/-- **Supertypes.** No class is its own supertype exactly when no reference to a
supertype names the class it starts at among the classes it prefers. -/
theorem noSelfSupers_iff (settings : Settings) (corpus : Corpus) :
    (∀ edge ∈ emitted settings corpus, Hierarchical edge.type → edge.src ≠ edge.dst) ↔
      ∀ ref ∈ corpus.refs, Hierarchical ref.type → ¬ NamesItself settings corpus ref := by
  rw [emitted_eq]
  constructor
  · intro distinct ref listed hierarchical itself
    obtain ⟨edge, link, same⟩ := (exists_selfLink_iff hierarchical).mpr itself
    have typed : edge.type = ref.type := by
      rw [linksOf_of_hierarchical hierarchical] at link
      exact (uniform_emit edge link).1
    apply distinct edge (List.mem_flatMap.mpr ⟨ref, listed, link⟩)
    · rw [typed]
      exact hierarchical
    · rw [same]
      exact (joins_linksOf edge link).src
  · intro apart edge member hierarchical same
    obtain ⟨ref, listed, link⟩ := List.mem_flatMap.mp member
    have typed := hierarchical_of_link link hierarchical
    apply apart ref listed typed
    apply (exists_selfLink_iff typed).mp
    exact ⟨edge, link, same.symm.trans (joins_linksOf edge link).src⟩

/-- `class Log extends other.Log`, with both classes in the repository. -/
def loggerCorpus : Corpus where
  nodes :=
    [{ id := letterId 'a', label := .cls, name := ['L', 'o', 'g'],
       fqn := ['a', '.', 'L', 'o', 'g'], repo := [], kind := .cls, file := ['a'] },
     { id := letterId 'o', label := .cls, name := ['L', 'o', 'g'],
       fqn := ['o', '.', 'L', 'o', 'g'], repo := [], kind := .cls, file := ['o'] }]
  edges := []
  refs := [{ type := .extends, src := letterId 'a', targetName := ['L', 'o', 'g'],
             kindHint := .type, refFile := ['a'] }]

/-- The class becomes its own supertype. -/
theorem logger_extends_itself : ¬ ∀ (settings : Settings) (corpus : Corpus),
    ∀ edge ∈ emitted settings corpus, Hierarchical edge.type → edge.src ≠ edge.dst := by
  intro law
  have apart := law plainSettings loggerCorpus
  revert apart
  decide +kernel

end Law

end GraphIngest.Resolve
