import GraphIngest.Resolve.CallSteps
import GraphIngest.Resolve.Links

/-! # Corpora that resolve alike

What the resolver looks up in the references is what files import and what classes
inherit. Over the same nodes and edges, a reference is resolved alike where the imports
of the files are the same, and the classes in which it looks a method up inherit the same
under its name.
-/

namespace GraphIngest.Resolve

open Foundation Text Graph External

namespace Corpus

variable (corpus : Corpus)

/-- Of some classes those that are asked for what they inherit: all, when none of them
declares the name. -/
def inheritingClasses (classIds : List NodeId) (name : Str) : List NodeId :=
  if (classIds.flatMap fun cls => corpus.methodsOfClass cls name).isEmpty then classIds else []

/-- The classes that the receiver is or names. -/
def recvClasses (ref : RawRef) : List NodeId :=
  if ref.recv = "self".toList ∨ ref.recv = "cls".toList then
    (corpus.enclosingClassId ref.src).toList
  else if ref.recv = [] then []
  else corpus.visibleClasses ref ref.recv

/-- The classes that a call asks for what they inherit. -/
def lookupClasses (ref : RawRef) : List NodeId :=
  corpus.inheritingClasses (corpus.typeClasses ref) ref.targetName ++
    corpus.inheritingClasses (corpus.recvClasses ref) ref.targetName

/-- No place of the caller has the name of a call. -/
def Unplaced (ref : RawRef) : Prop :=
  ∀ hit ∈ corpus.placeHits ref (corpus.namePool ref) (corpus.functionsOnly ref), hit.1 = []

/-- A call that looks its method up in classes: no precise tier owns its file, its receiver may
be in the repository, and no place of the caller has the name. -/
structure LooksUp (settings : Settings) (ref : RawRef) : Prop where
  call : ref.type = .calls
  unskipped : ref.refFile ∉ settings.skipCallFiles
  inside : corpus.externalReceiver ref = false
  unplaced : corpus.Unplaced ref

end Corpus

/-- Two corpora over the same nodes and edges whose files import the same. -/
structure SameImports (first second : Corpus) : Prop where
  nodes : first.nodes = second.nodes
  edges : first.edges = second.edges
  names : ∀ file name, name ∈ first.importsOf file ↔ name ∈ second.importsOf file
  fqns : ∀ file fqn, fqn ∈ first.importFqnsOf file ↔ fqn ∈ second.importFqnsOf file
  packages : ∀ file package,
    package ∈ first.wildcardPackagesOf file ↔ package ∈ second.wildcardPackagesOf file

theorem contains_congr {items others : List Str} (same : ∀ item, item ∈ items ↔ item ∈ others)
    (item : Str) : items.contains item = others.contains item :=
  Bool.eq_iff_iff.mpr (by simpa only [List.contains_iff_mem] using same item)

namespace SameImports

variable {first second : Corpus}

theorem enclosingClassFrom_eq (same : SameImports first second) (fuel : Nat)
    (start : Option NodeId) :
    first.enclosingClassFrom fuel start = second.enclosingClassFrom fuel start := by
  have nodeById : first.nodeById = second.nodeById := by
    funext id
    rw [Corpus.nodeById, Corpus.nodeById, same.nodes]
  have parentOf : first.parentOf = second.parentOf := by
    funext id
    rw [Corpus.parentOf, Corpus.parentOf, same.edges]
  induction fuel generalizing start with
  | zero => rfl
  | succ fuel ih => cases start <;> simp only [Corpus.enclosingClassFrom, nodeById, parentOf, ih]

/-- The lookups that read no reference. -/
theorem symbols (same : SameImports first second) :
    first.nodeById = second.nodeById ∧ first.byName = second.byName ∧
      first.functionsByName = second.functionsByName ∧
      first.classesByName = second.classesByName ∧ first.packageOf = second.packageOf ∧
      first.parentOf = second.parentOf ∧ first.isClass = second.isClass ∧
      first.methodsOfClass = second.methodsOfClass ∧ first.fieldsOfClass = second.fieldsOfClass ∧
      first.fieldsOfFile = second.fieldsOfFile ∧ first.byNameParent = second.byNameParent ∧
      first.byNameFile = second.byNameFile ∧ first.enclosingClassId = second.enclosingClassId ∧
      first.packageOfFile = second.packageOfFile ∧
      first.filesByBasename = second.filesByBasename ∧ first.classByFqn = second.classByFqn ∧
      first.externalReceiver = second.externalReceiver := by
  have around : first.enclosingClassId = second.enclosingClassId := by
    funext id
    rw [Corpus.enclosingClassId, Corpus.enclosingClassId, same.enclosingClassFrom_eq, same.edges]
    simp only [Corpus.parentOf, same.edges]
  obtain ⟨nodes, edges, refs⟩ := first
  obtain ⟨_, _, others⟩ := second
  cases same.nodes
  cases same.edges
  exact ⟨rfl, rfl, rfl, rfl, rfl, rfl, rfl, rfl, rfl, rfl, rfl, rfl, around, rfl, rfl, rfl, rfl⟩

theorem qualified (same : SameImports first second) (pool : List Node) (file : Str) :
    importQualifiedHits pool (first.importTailsOf file) =
      importQualifiedHits pool (second.importTailsOf file) := by
  have tails : ∀ tail, tail ∈ first.importTailsOf file ↔ tail ∈ second.importTailsOf file := by
    intro tail
    simp only [Corpus.importTailsOf, List.mem_filter, List.mem_map, same.fqns file]
  unfold importQualifiedHits
  simp only [contains_congr tails]

/-- References to types are narrowed alike. -/
theorem narrowType_eq (same : SameImports first second) (ref : RawRef) :
    first.narrowType ref = second.narrowType ref := by
  have names := fun file => contains_congr (same.names file)
  have fqns := fun file => contains_congr (same.fqns file)
  have packages := fun file => contains_congr (same.packages file)
  simp only [Corpus.narrowType, names, fqns, packages, same.qualified, same.symbols]

theorem narrowClassesForRecv_eq (same : SameImports first second) (candidates : List Node)
    (file : Str) :
    first.narrowClassesForRecv candidates file = second.narrowClassesForRecv candidates file := by
  have names := fun file => contains_congr (same.names file)
  have fqns := fun file => contains_congr (same.fqns file)
  have packages := fun file => contains_congr (same.packages file)
  simp only [Corpus.narrowClassesForRecv, names, fqns, packages, same.qualified, same.symbols]

end SameImports

/-- Once a step finds something, nothing else matters. -/
theorem firstHit_congr {otherwise other : Hit} {hits : List Hit} (found : ∃ hit ∈ hits, hit.1 ≠ []) :
    firstHit otherwise hits = firstHit other hits := by
  induction hits with
  | nil =>
      obtain ⟨hit, listed, _⟩ := found
      exact (List.not_mem_nil listed).elim
  | cons hit rest ih =>
      rw [firstHit, firstHit]
      split
      · next empty =>
          apply ih
          obtain ⟨other, listed, some⟩ := found
          rcases List.mem_cons.mp listed with rfl | later
          · exact (some (List.isEmpty_iff.mp empty)).elim
          · exact ⟨other, later, some⟩
      · rfl

namespace SameImports

variable {first second : Corpus}

/-- The same methods are found where the classes asked inherit the same. -/
theorem firstHit_receiverHits (same : SameImports first second) {classIds : List NodeId}
    {name : Str} (inherited : ∀ cls ∈ second.inheritingClasses classIds name,
      first.inheritedMembers [cls] name = second.inheritedMembers [cls] name)
    (otherwise : Hit) (strategy : Str) :
    firstHit otherwise (first.receiverHits classIds name strategy) =
      firstHit otherwise (second.receiverHits classIds name strategy) := by
  have declared : first.methodsOfClass = second.methodsOfClass := by simp only [same.symbols]
  simp only [Corpus.receiverHits, firstHit, declared]
  split
  · next none =>
      rw [Corpus.inheritingClasses, if_pos none] at inherited
      have members : first.inheritedMembers classIds name =
          second.inheritedMembers classIds name := by
        refine List.flatMap_congr fun cls listed => ?_
        have own := inherited cls listed
        rwa [Corpus.inheritedMembers, Corpus.inheritedMembers, List.flatMap_singleton,
          List.flatMap_singleton] at own
      rw [members]
  · rfl

theorem callerFile_eq (same : SameImports first second) (ref : RawRef) :
    first.callerFile ref = second.callerFile ref := by
  simp only [Corpus.callerFile, same.symbols]

theorem visibleClasses_eq (same : SameImports first second) (ref : RawRef) (name : Str) :
    first.visibleClasses ref name = second.visibleClasses ref name := by
  simp only [Corpus.visibleClasses, same.narrowClassesForRecv_eq, same.callerFile_eq, same.symbols]

theorem placeHits_eq (same : SameImports first second) (ref : RawRef) (pool : List Node)
    (functionsOnly : Bool) :
    first.placeHits ref pool functionsOnly = second.placeHits ref pool functionsOnly := by
  have names := fun file => contains_congr (same.names file)
  have fqns := fun file => contains_congr (same.fqns file)
  simp only [Corpus.placeHits, Corpus.scopeHits, Corpus.fileHits, names, fqns, same.qualified,
    same.callerFile_eq, same.symbols]

theorem firstHit_typeHits (same : SameImports first second) {ref : RawRef}
    (inherited : ∀ cls ∈ second.inheritingClasses (second.typeClasses ref) ref.targetName,
      first.inheritedMembers [cls] ref.targetName = second.inheritedMembers [cls] ref.targetName)
    (otherwise : Hit) :
    firstHit otherwise (first.typeHits ref) = firstHit otherwise (second.typeHits ref) := by
  unfold Corpus.typeClasses at inherited
  unfold Corpus.typeHits
  rw [same.visibleClasses_eq]
  split
  · rfl
  · next given =>
      rw [if_neg given] at inherited
      exact same.firstHit_receiverHits inherited otherwise _

theorem firstHit_recvHits (same : SameImports first second) {ref : RawRef}
    (inherited : ∀ cls ∈ second.inheritingClasses (second.recvClasses ref) ref.targetName,
      first.inheritedMembers [cls] ref.targetName = second.inheritedMembers [cls] ref.targetName)
    (otherwise : Hit) :
    firstHit otherwise (first.recvHits ref) = firstHit otherwise (second.recvHits ref) := by
  have around : first.enclosingClassId ref.src = second.enclosingClassId ref.src := by
    simp only [same.symbols]
  unfold Corpus.recvClasses at inherited
  unfold Corpus.recvHits
  rw [same.visibleClasses_eq, around]
  split
  · next self =>
      rw [if_pos self] at inherited
      cases inside : second.enclosingClassId ref.src with
      | none => rfl
      | some cls =>
          rw [inside] at inherited
          exact same.firstHit_receiverHits inherited otherwise _
  · next other =>
      rw [if_neg other] at inherited
      split
      · rfl
      · next given =>
          rw [if_neg given] at inherited
          exact same.firstHit_receiverHits inherited otherwise _

/-- A call has the same candidates where the classes it asks inherit the same. -/
theorem narrowCall_eq (same : SameImports first second) {ref : RawRef}
    (inherited : second.Unplaced ref → ∀ cls ∈ second.lookupClasses ref,
      first.inheritedMembers [cls] ref.targetName = second.inheritedMembers [cls] ref.targetName) :
    first.narrowCall ref = second.narrowCall ref := by
  have outside : first.externalReceiver = second.externalReceiver := by simp only [same.symbols]
  have named : first.byName = second.byName := by simp only [same.symbols]
  cases inside : second.externalReceiver ref with
  | true =>
      rw [Corpus.narrowCall_of_external (outside ▸ inside), Corpus.narrowCall_of_external inside]
  | false =>
      by_cases known : second.byName ref.targetName = []
      · rw [Corpus.narrowCall_of_unknown (outside ▸ inside) (named ▸ known),
          Corpus.narrowCall_of_unknown inside known]
      · have pool : first.namePool ref = second.namePool ref := by
          simp only [Corpus.namePool, same.symbols]
        have shape : first.functionsOnly ref = second.functionsOnly ref := by
          simp only [Corpus.functionsOnly, same.symbols]
        rw [(Corpus.narrowCall_of_known (outside ▸ inside) (named ▸ known)).2,
          (Corpus.narrowCall_of_known inside known).2, Corpus.narrowPool_eq, Corpus.narrowPool_eq,
          pool, shape, same.placeHits_eq]
        simp only [firstHit_append]
        apply congrArg
        by_cases placed : ∃ hit ∈ second.placeHits ref (second.namePool ref)
            (second.functionsOnly ref), hit.1 ≠ []
        · exact firstHit_congr placed
        · have unplaced : second.Unplaced ref := by
            intro hit listed
            by_contra some
            exact placed ⟨hit, listed, some⟩
          have asked := inherited unplaced
          rw [same.firstHit_recvHits fun cls listed => asked cls (List.mem_append_right _ listed),
            same.firstHit_typeHits fun cls listed => asked cls (List.mem_append_left _ listed)]

/-- **Agreement.** A reference is resolved alike where, if it looks a method up, the classes in
which it does so inherit the same. -/
theorem resolveOneRef_eq (same : SameImports first second) (settings : Settings) {ref : RawRef}
    (inherited : second.LooksUp settings ref → ∀ cls ∈ second.lookupClasses ref,
      first.inheritedMembers [cls] ref.targetName = second.inheritedMembers [cls] ref.targetName)
    (memo : Memo) : resolveOneRef settings first memo ref = resolveOneRef settings second memo ref := by
  have call : ref.type = .calls →
      resolveCall settings first memo ref = resolveCall settings second memo ref := by
    intro typed
    simp only [resolveCall, same.symbols]
    split
    · rfl
    · next unskipped =>
        split
        · rfl
        · next inside =>
            have looks : second.Unplaced ref → second.LooksUp settings ref :=
              fun unplaced => ⟨typed, unskipped, Bool.not_eq_true _ ▸ inside, unplaced⟩
            simp only [resolveInRepoCall, resolveFallback, fallbackReferenceCandidates,
              same.narrowCall_eq fun unplaced => inherited (looks unplaced), same.symbols]
  unfold resolveOneRef
  split
  · rfl
  · split
    · rfl
    · simp only [resolveApi, same.nodes]
    · simp only [resolveFileRef, same.symbols]
    · simp only [resolveFileRef, same.symbols]
    · simp only [resolveFileRef, same.symbols]
    · simp only [resolveHandler, same.symbols]
    · next typed => exact call typed
    · simp only [resolveField, fieldsAround, same.symbols]
    · simp only [resolveField, fieldsAround, same.symbols]
    · simp only [resolveType, same.narrowType_eq, same.symbols]
    · simp only [resolveType, same.narrowType_eq, same.symbols]
    · simp only [resolveType, same.narrowType_eq, same.symbols]
    · simp only [resolveType, same.narrowType_eq, same.symbols]
    · simp only [resolveHinted, same.symbols]

end SameImports

/-- Two corpora whose lookups agree. -/
structure Agree (first second : Corpus) : Prop extends SameImports first second where
  inherited : ∀ classIds name,
    first.inheritedMembers classIds name = second.inheritedMembers classIds name

/-- References have the same edges over both. -/
theorem Agree.linksOf_eq {first second : Corpus} (agree : Agree first second)
    (settings : Settings) (ref : RawRef) :
    linksOf settings first ref = linksOf settings second ref := by
  unfold linksOf
  rw [agree.resolveOneRef_eq settings fun _ cls _ => agree.inherited [cls] ref.targetName]

end GraphIngest.Resolve
