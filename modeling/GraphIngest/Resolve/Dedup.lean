import GraphIngest.Graph.Bundle
import GraphIngest.Resolve.Agreement
import GraphIngest.Resolve.Ancestors
import GraphIngest.Resolve.Essence

/-! # References of one place

The merge keeps one reference of each place, and a place is less than an
essence: it leaves out the receiver, the arity, the verb, the hinted shape and
the imported name. Where no essence is lost with the references of a place, no
edge is.
-/

namespace GraphIngest.Resolve

open Foundation Text Graph External

section Supers

variable {corpus : Corpus}

/-- References of one place add the same supertypes. -/
theorem namesSuper_congr {ref other : RawRef} (same : ref.site = other.site) (cls super : NodeId) :
    corpus.NamesSuper ref cls super ↔ corpus.NamesSuper other cls super := by
  have type : ref.type = other.type := congrArg RefSite.type same
  have src : ref.src = other.src := congrArg RefSite.src same
  have name : ref.targetName = other.targetName := congrArg RefSite.targetName same
  simp only [Corpus.NamesSuper, Corpus.NamesClass, Corpus.hierarchySource, Corpus.soleCandidate,
    Corpus.narrowType, type, src, name]

/-- **Supertypes.** Those of the kept references are those of all. -/
theorem foldl_addSuper_keptRefs (cls : NodeId) (refs : List RawRef) (supers : List NodeId) :
    (keptRefs refs).foldl (corpus.addSuper cls) supers =
      refs.foldl (corpus.addSuper cls) supers := by
  refine foldl_accepted ?_ ?_ refs fun other met => nomatch met
  · intro state item other same
    refine Corpus.addSuper_eq_self.mpr fun super names => Corpus.mem_addSuper.mpr (Or.inr ?_)
    exact (namesSuper_congr same cls super).mp names
  · intro state item other idle
    exact Corpus.addSuper_eq_self.mpr fun super names =>
      Corpus.mem_addSuper.mpr (Or.inl (Corpus.addSuper_eq_self.mp idle super names))

end Supers

section Kept

variable {settings : Settings} {nodes : List Node} {edges : List EdgeKey} {refs : List RawRef}

/-- Of every reference the merge keeps one of its essence. -/
def EssencesKept (settings : Settings) (nodes : List Node) (edges : List EdgeKey)
    (refs : List RawRef) : Prop :=
  ∀ ref ∈ refs, ∃ kept ∈ keptRefs refs,
    essence settings ⟨nodes, edges, refs⟩ kept = essence settings ⟨nodes, edges, refs⟩ ref

theorem mem_of_mem_keptRefs {ref : RawRef} (kept : ref ∈ keptRefs refs) : ref ∈ refs :=
  (accepted_sublist [] refs).subset kept

/-- What an essence shows, the kept references show if any do. -/
theorem exists_keptRefs (covered : EssencesKept settings nodes edges refs)
    {Shows : RawRef → Prop}
    (read : ∀ ref other, essence settings ⟨nodes, edges, refs⟩ ref =
      essence settings ⟨nodes, edges, refs⟩ other → Shows ref → Shows other) :
    (∃ ref, ref ∈ keptRefs refs ∧ Shows ref) ↔ ∃ ref, ref ∈ refs ∧ Shows ref := by
  constructor
  · exact fun ⟨ref, kept, shown⟩ => ⟨ref, mem_of_mem_keptRefs kept, shown⟩
  · rintro ⟨ref, listed, shown⟩
    obtain ⟨kept, taken, same⟩ := covered ref listed
    exact ⟨kept, taken, read ref kept same.symm shown⟩

theorem import_of_essence {corpus : Corpus} {ref other : RawRef}
    (same : essence settings corpus ref = essence settings corpus other)
    (typed : ref.type = .imports) :
    other.type = .imports ∧ (ref.kindHint = .importWildcard ↔ other.kindHint = .importWildcard) ∧
      ref.importFqn = other.importFqn := by
  have alsoTyped := (parallel_of_essence same).1.type.symm.trans typed
  simp only [essence, typed, alsoTyped] at same
  have hint := congrArg RawRef.kindHint same
  have fqn := congrArg RawRef.importFqn same
  refine ⟨alsoTyped, ?_, fqn⟩
  dsimp only at hint
  split at hint <;> split at hint <;> simp_all only [reduceCtorEq]

theorem sameImports_keptRefs (covered : EssencesKept settings nodes edges refs) :
    SameImports ⟨nodes, edges, keptRefs refs⟩ ⟨nodes, edges, refs⟩ where
  nodes := rfl
  edges := rfl
  names := by
    intro file name
    simp only [Corpus.importsOf, Corpus.importRefs, List.mem_map, List.mem_filter,
      decide_eq_true_eq, and_assoc]
    refine exists_keptRefs covered ?_
    rintro ref other same ⟨typed, filed, home, single, named, imported⟩
    obtain ⟨parallel, sameFile⟩ := parallel_of_essence same
    obtain ⟨alsoTyped, hint, _⟩ := import_of_essence same typed
    rw [sameFile] at filed home
    rw [parallel.targetName] at named imported
    exact ⟨alsoTyped, filed, home, mt hint.mpr single, named, imported⟩
  fqns := by
    intro file fqn
    simp only [Corpus.importFqnsOf, Corpus.importRefs, List.mem_map, List.mem_filter,
      decide_eq_true_eq, and_assoc]
    refine exists_keptRefs covered ?_
    rintro ref other same ⟨typed, filed, home, single, named, imported⟩
    obtain ⟨_, sameFile⟩ := parallel_of_essence same
    obtain ⟨alsoTyped, hint, sameFqn⟩ := import_of_essence same typed
    rw [sameFile] at filed home
    rw [sameFqn] at named imported
    exact ⟨alsoTyped, filed, home, mt hint.mpr single, named, imported⟩
  packages := by
    intro file package
    simp only [Corpus.wildcardPackagesOf, Corpus.importRefs, List.mem_map, List.mem_filter,
      decide_eq_true_eq, and_assoc]
    refine exists_keptRefs covered ?_
    rintro ref other same ⟨typed, filed, home, whole, named, imported⟩
    obtain ⟨_, sameFile⟩ := parallel_of_essence same
    obtain ⟨alsoTyped, hint, sameFqn⟩ := import_of_essence same typed
    rw [sameFile] at filed home
    rw [sameFqn] at named imported
    exact ⟨alsoTyped, filed, home, hint.mp whole, named, imported⟩

/-- The kept references make the same supertypes. -/
theorem directSupers_keptRefs
    (same : SameImports ⟨nodes, edges, keptRefs refs⟩ ⟨nodes, edges, refs⟩) :
    Corpus.directSupers ⟨nodes, edges, keptRefs refs⟩ =
      Corpus.directSupers ⟨nodes, edges, refs⟩ := by
  funext cls
  have step : Corpus.addSuper ⟨nodes, edges, keptRefs refs⟩ cls =
      Corpus.addSuper ⟨nodes, edges, refs⟩ cls := by
    funext supers ref
    simp only [Corpus.addSuper, Corpus.hierarchySource, same.narrowType_eq, same.symbols]
    rfl
  rw [Corpus.directSupers_eq_foldl, Corpus.directSupers_eq_foldl, step]
  exact foldl_addSuper_keptRefs cls refs _

/-- The kept references make the same ancestors, though they bound the search by
less. -/
theorem ancestorChain_keptRefs
    (same : SameImports ⟨nodes, edges, keptRefs refs⟩ ⟨nodes, edges, refs⟩) (cls : NodeId) :
    Corpus.ancestorChain ⟨nodes, edges, keptRefs refs⟩ cls =
      Corpus.ancestorChain ⟨nodes, edges, refs⟩ cls := by
  have bounded := @Corpus.mem_supers ⟨nodes, edges, keptRefs refs⟩
  have shorter : (keptRefs refs).length ≤ refs.length := (accepted_sublist [] refs).length_le
  rw [Corpus.ancestorChain, Corpus.ancestorChain, Corpus.ancestorsFrom_eq_search,
    Corpus.ancestorsFrom_eq_search, ← directSupers_keptRefs same]
  refine (search_stable bounded (bounded cls) ?_ ?_).symm
  · exact Nat.le_trans (List.length_filter_le _ _) Corpus.length_supers_le
  · dsimp only
    omega

/-- The lookups over the kept references agree with those over all. -/
theorem agree_keptRefs (covered : EssencesKept settings nodes edges refs) :
    Agree ⟨nodes, edges, keptRefs refs⟩ ⟨nodes, edges, refs⟩ := by
  have same := sameImports_keptRefs covered
  refine ⟨same, fun classIds name => ?_⟩
  unfold Corpus.inheritedMembers
  simp only [ancestorChain_keptRefs same, same.symbols]

/-- **References of one place.** Where no essence is lost with the references that
are not kept, the kept ones emit the edges of all. -/
theorem mem_emitted_keptRefs (settings : Settings) (nodes : List Node) (edges : List EdgeKey)
    (refs : List RawRef) (covered : EssencesKept settings nodes edges refs) (key : EdgeKey) :
    key ∈ (emitted settings ⟨nodes, edges, keptRefs refs⟩).map Edge.key ↔
      key ∈ (emitted settings ⟨nodes, edges, refs⟩).map Edge.key := by
  have agree := agree_keptRefs covered
  simp only [emitted_eq, List.map_flatMap, List.mem_flatMap, agree.linksOf_eq]
  refine exists_keptRefs covered fun ref other same shown => ?_
  rwa [keys_linksOf same] at shown

end Kept

section Chain

/-- A symbol of the sample: a function with its parameters, or the class `Log`. -/
def chainSymbol (id : Char) (label : NodeLabel) (name file : Str) (params : Nat) : Node where
  id := letterId id
  label := label
  name := name
  fqn := name
  repo := []
  kind := if label = .cls then .cls else .method
  file := file
  paramCount := params

/-- `run` in one file, `Log.add` with one parameter and with two in another. -/
def chainNodes : List Node :=
  [chainSymbol 'r' .function ['r', 'u', 'n'] ['a'] 0,
   chainSymbol 'l' .cls ['L', 'o', 'g'] ['b'] 0,
   chainSymbol 'o' .function ['a', 'd', 'd'] ['b'] 1,
   chainSymbol 't' .function ['a', 'd', 'd'] ['b'] 2]

/-- The methods are contained in their class. -/
def chainEdges : List EdgeKey :=
  [(.contains, letterId 'l', letterId 'o'),
   (.contains, letterId 'l', letterId 't')]

/-- A call of `add` in `run`. -/
def chainCall (recv recvType : Str) (arity : Int) : RawRef where
  type := .calls
  src := letterId 'r'
  targetName := ['a', 'd', 'd']
  kindHint := .call
  recv := recv
  recvType := recvType
  refFile := ['a']
  refLine := 4
  refCol := 8
  callArity := arity

/-- `log.add(x).add(y, z)`: both calls begin where the chain does. -/
def chainRefs : List RawRef := [chainCall [] [] 2, chainCall ['l', 'o', 'g'] ['L', 'o', 'g'] 1]

/-- A repository without catalog and without precise tier. -/
def chainSettings : Settings where
  repo := []
  makeId := spelledId
  nameCap := 0
  catalog := {}
  skipCallFiles := []

/-- The essence of the hint does not count among calls. -/
theorem mem_emitted_keptRefs_hinted :
    let refs := [chainCall [] [] 2, { chainCall [] [] 2 with kindHint := .other }]
    EssencesKept chainSettings chainNodes chainEdges refs ∧
      ∀ key, key ∈ (emitted chainSettings ⟨chainNodes, chainEdges, keptRefs refs⟩).map Edge.key ↔
        key ∈ (emitted chainSettings ⟨chainNodes, chainEdges, refs⟩).map Edge.key := by
  have covered : EssencesKept chainSettings chainNodes chainEdges
      [chainCall [] [] 2, { chainCall [] [] 2 with kindHint := .other }] := by
    unfold EssencesKept
    decide +kernel
  exact ⟨covered, fun key => mem_emitted_keptRefs _ _ _ _ covered key⟩

/-- The call with the known receiver is lost with its edge. -/
theorem chainedCall_lost : ¬ ∀ (settings : Settings) (nodes : List Node) (edges : List EdgeKey)
    (refs : List RawRef) (key : EdgeKey),
    key ∈ (emitted settings ⟨nodes, edges, keptRefs refs⟩).map Edge.key ↔
      key ∈ (emitted settings ⟨nodes, edges, refs⟩).map Edge.key := by
  intro preserved
  have same := preserved chainSettings chainNodes chainEdges chainRefs
    (.calls, ⟨['r'], List.cons_ne_nil _ _⟩, ⟨['o'], List.cons_ne_nil _ _⟩)
  rw [emitted_eq, emitted_eq] at same
  revert same
  decide +kernel

end Chain

end GraphIngest.Resolve
