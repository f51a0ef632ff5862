import GraphIngest.Foundation.KeyedLog
import GraphIngest.Foundation.LevelSearch
import GraphIngest.Resolve.Narrow

/-! # The ancestors the name resolver knows

The supertypes of a class are the targets of its hierarchy edges and of its
hierarchy references with a single candidate. The ancestor chain is a search by
levels over them, and its bound on the number of levels is never met: the chain
holds exactly the other classes that the supertypes lead to.
-/

namespace GraphIngest.Resolve

open Foundation Text Graph

namespace Corpus

variable (corpus : Corpus)

/-- A hierarchy edge between two classes. -/
def HierarchyEdge (cls super : NodeId) : Prop :=
  ∃ type, (type = .extends ∨ type = .implements) ∧ (type, cls, super) ∈ corpus.edges

/-- The class a hierarchy reference is about. -/
def hierarchySource (ref : RawRef) : Option NodeId :=
  if (corpus.nodeById ref.src).isSome then some ref.src else corpus.enclosingClassId ref.src

/-- The single candidate of a reference to a type. -/
def soleCandidate (ref : RawRef) : Option NodeId :=
  match (corpus.narrowType ref).1 with
  | [node] => some node.id
  | _ => none

/-- A reference of a class with a single candidate, which is another class. -/
def NamesClass (ref : RawRef) (cls super : NodeId) : Prop :=
  corpus.hierarchySource ref = some cls ∧ corpus.isClass cls = true ∧
    corpus.soleCandidate ref = some super ∧ super ≠ cls

/-- A hierarchy reference that makes a class a supertype of another. -/
def NamesSuper (ref : RawRef) (cls super : NodeId) : Prop :=
  (ref.type = .extends ∨ ref.type = .implements) ∧ corpus.NamesClass ref cls super

/-- The targets of the hierarchy edges of a class. -/
def edgedSupers (cls : NodeId) : List NodeId :=
  (corpus.edges.filter fun edge =>
    (edge.1 = .extends ∨ edge.1 = .implements) ∧ edge.2.1 = cls).map fun edge => edge.2.2

/-- What one reference adds to the supertypes of a class. -/
def addSuper (cls : NodeId) (supers : List NodeId) (ref : RawRef) : List NodeId :=
  if ref.type = .extends ∨ ref.type = .implements then
    if corpus.hierarchySource ref = some cls ∧ corpus.isClass cls then
      match (corpus.narrowType ref).1 with
      | [node] => if node.id ≠ cls ∧ node.id ∉ supers then supers ++ [node.id] else supers
      | _ => supers
    else supers
  else supers

theorem directSupers_eq_foldl (cls : NodeId) :
    corpus.directSupers cls =
      corpus.refs.foldl (corpus.addSuper cls) (corpus.edgedSupers cls) := by
  unfold directSupers
  rw [List.foldl_filter]
  simp only [decide_eq_true_eq]
  rfl

/-- A supertype, as the resolver knows it. -/
def Super (cls super : NodeId) : Prop := super ∈ corpus.directSupers cls

variable {corpus}

/-- One reference adds the class it names. -/
theorem mem_addSuper {cls super : NodeId} {supers : List NodeId} {ref : RawRef} :
    super ∈ corpus.addSuper cls supers ref ↔ super ∈ supers ∨ corpus.NamesSuper ref cls super := by
  unfold addSuper NamesSuper NamesClass soleCandidate
  split
  · next typed =>
    simp only [typed, true_and]
    split
    · next charged =>
      simp only [charged, true_and]
      split
      · next node _ =>
        simp only [Option.some.injEq]
        split
        · next new =>
          rw [List.mem_append, List.mem_singleton]
          refine or_congr_right ⟨?_, fun ⟨same, _⟩ => same.symm⟩
          rintro rfl
          exact ⟨rfl, new.1⟩
        · next old =>
          refine (or_iff_left_of_imp ?_).symm
          rintro ⟨rfl, other⟩
          by_contra absent
          exact old ⟨other, absent⟩
      · simp only [reduceCtorEq, false_and, or_false]
    · next elsewhere =>
      refine (or_iff_left ?_).symm
      rintro ⟨source, cls, _⟩
      exact elsewhere ⟨source, cls⟩
  · next typed =>
    simp only [typed, false_and, or_false]

/-- A reference whose supertypes are there already adds nothing. -/
theorem addSuper_eq_self {cls : NodeId} {supers : List NodeId} {ref : RawRef} :
    corpus.addSuper cls supers ref = supers ↔
      ∀ super, corpus.NamesSuper ref cls super → super ∈ supers := by
  constructor
  · intro idle super names
    rw [← idle]
    exact mem_addSuper.mpr (Or.inr names)
  · intro there
    unfold addSuper
    split
    · next typed =>
      split
      · next charged =>
        split
        · next node sole =>
          refine if_neg fun new => new.2 (there node.id ⟨typed, charged.1, charged.2, ?_, new.1⟩)
          simp only [soleCandidate, sole]
        · rfl
      · rfl
    · rfl

theorem mem_edgedSupers {cls super : NodeId} :
    super ∈ corpus.edgedSupers cls ↔ corpus.HierarchyEdge cls super := by
  simp only [edgedSupers, List.mem_map, List.mem_filter, decide_eq_true_eq, HierarchyEdge]
  constructor
  · rintro ⟨⟨type, src, dst⟩, ⟨listed, typed, rfl⟩, rfl⟩
    exact ⟨type, typed, listed⟩
  · rintro ⟨type, typed, listed⟩
    exact ⟨(type, cls, super), ⟨listed, typed, rfl⟩, rfl⟩

/-- Where the supertypes of a class come from. -/
theorem mem_directSupers {cls super : NodeId} :
    super ∈ corpus.directSupers cls ↔
      corpus.HierarchyEdge cls super ∨ ∃ ref ∈ corpus.refs, corpus.NamesSuper ref cls super := by
  rw [directSupers_eq_foldl]
  exact (foldl_iff (fun supers : List NodeId => super ∈ supers)
    (fun supers ref => @mem_addSuper corpus cls super supers ref)
    corpus.refs (corpus.edgedSupers cls)).trans (or_congr_left mem_edgedSupers)

theorem ancestorLevel_eq_level (seen frontier : List NodeId) :
    corpus.ancestorLevel seen frontier = level corpus.directSupers seen frontier := by
  unfold ancestorLevel level
  congr 1
  funext found point
  by_cases old : point ∈ seen ∨ point ∈ found.1
  · rw [if_pos old, if_pos old]
  · rw [if_neg old, if_neg old]

theorem ancestorsFrom_eq_search (rounds : Nat) (seen frontier : List NodeId) :
    corpus.ancestorsFrom rounds seen frontier =
      search corpus.directSupers rounds seen frontier := by
  induction rounds generalizing seen frontier with
  | zero => rfl
  | succ rounds ih => simp only [ancestorsFrom, search, ih, ancestorLevel_eq_level]

variable (corpus) in
/-- Every supertype of any class. -/
def supers : List NodeId :=
  corpus.edges.map (fun edge => edge.2.2) ++ corpus.refs.filterMap corpus.soleCandidate

theorem mem_supers (cls : NodeId) : ∀ super ∈ corpus.directSupers cls, super ∈ corpus.supers := by
  intro super direct
  refine List.mem_append.mpr ((mem_directSupers.mp direct).imp ?_ ?_)
  · rintro ⟨type, _, listed⟩
    exact List.mem_map.mpr ⟨_, listed, rfl⟩
  · rintro ⟨ref, listed, _, _, _, sole, _⟩
    exact List.mem_filterMap.mpr ⟨ref, listed, sole⟩

theorem length_supers_le : corpus.supers.length ≤ corpus.edges.length + corpus.refs.length + 2 := by
  rw [supers, List.length_append, List.length_map]
  have fewer := List.length_filterMap_le corpus.soleCandidate corpus.refs
  omega

/-- **Ancestors.** The chain of a class holds the other classes its supertypes lead
to. -/
theorem mem_ancestorChain {cls ancestor : NodeId} :
    ancestor ∈ corpus.ancestorChain cls ↔
      ancestor ≠ cls ∧ Relation.TransGen corpus.Super cls ancestor := by
  rw [ancestorChain, ancestorsFrom_eq_search]
  exact mem_search_iff mem_supers length_supers_le

/-- The first list of a map that is not empty is that of the first item to have any. -/
theorem firstNonempty_map_eq {α β : Type} (find : α → List β) (items : List α) :
    firstNonempty (items.map find) =
      ((items.find? fun item => !(find item).isEmpty).map find).getD [] := by
  induction items with
  | nil => rfl
  | cons head rest ih =>
      rw [List.map_cons, firstNonempty, List.find?_cons]
      cases empty : (find head).isEmpty with
      | true => exact ih
      | false => rfl

/-- The first list of a map that is not empty, where one place alone has any. -/
theorem firstNonempty_map {α β : Type} {find : α → List β} {items : List α} {place : α}
    (listed : place ∈ items) (only : ∀ other ∈ items, other ≠ place → find other = []) :
    firstNonempty (items.map find) = find place := by
  rw [firstNonempty_map_eq]
  cases found : items.find? fun item => !(find item).isEmpty with
  | none =>
      have empty := List.find?_eq_none.mp found place listed
      rw [Bool.not_eq_true', Bool.not_eq_false, List.isEmpty_iff] at empty
      exact empty.symm
  | some item =>
      have filled := List.find?_some found
      rw [Bool.not_eq_true', List.isEmpty_eq_false_iff] at filled
      have same : item = place := by
        by_contra other
        exact filled (only item (List.mem_of_find?_eq_some found) other)
      rw [same]
      rfl

/-- A method that one ancestor alone declares is what its heirs inherit. -/
theorem inheritedMembers_of_only {cls ancestor : NodeId} {name : Str}
    (above : ancestor ∈ corpus.ancestorChain cls)
    (only : ∀ other ∈ corpus.ancestorChain cls, other ≠ ancestor →
      corpus.methodsOfClass other name = []) :
    corpus.inheritedMembers [cls] name = corpus.methodsOfClass ancestor name := by
  rw [inheritedMembers, List.flatMap_singleton]
  exact firstNonempty_map above only

end Corpus

end GraphIngest.Resolve
