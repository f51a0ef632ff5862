import GraphIngest.Pipeline.Deriving

/-! # The overrides of the class hierarchy

The derive pass walks up from the class of a method and compares it with the
methods of every class it comes to. Its indices may be handed over by the caller,
who has built them from the same lists. What it emits is said here by the lists
alone: pairs of methods of one name and arity, the class of the second reachable
from that of the first. The walk has visited nothing when it starts, so that a
hierarchy that leads back to the own class makes overloads of one class pairs.
-/

namespace GraphIngest.Pipeline

open Foundation Text Graph

section Given

/-- The indices a caller may hand over. -/
structure GivenIndex where
  byId : Option (Dict NodeId Node) := none
  parentOf : Option (Dict NodeId NodeId) := none
  supers : Option (Dict NodeId (List NodeId)) := none

/-- Enter one edge into the indices that were not handed over. -/
def GivenIndex.enter (given : GivenIndex) (index : DeriveIndex) (edge : Edge) : DeriveIndex :=
  if given.parentOf.isNone ∧ edge.type = .contains then
    { index with parentOf := index.parentOf.set edge.dst edge.src }
  else if given.supers.isNone ∧ (edge.type = .extends ∨ edge.type = .implements) then
    if index.isClass edge.src && index.isClass edge.dst then
      { index with supers := index.supers.append edge.src edge.dst }
    else index
  else index

/-- What the pass looks up: the indices handed over, the others built here. -/
def GivenIndex.complete (given : GivenIndex) (nodes : List Node) (edges : List Edge) :
    DeriveIndex :=
  let index : DeriveIndex :=
    { byId := given.byId.getD (nodes.foldl (fun dict node => dict.set node.id node) Dict.empty)
      parentOf := given.parentOf.getD Dict.empty
      supers := given.supers.getD Dict.empty }
  if given.parentOf.isNone ∨ given.supers.isNone then edges.foldl given.enter index else index

/-- `_derive_overrides`, with the indices its caller hands over. -/
def deriveOverridesWith (withheld : Withheld) (given : GivenIndex) (nodes : List Node)
    (edges : List Edge) : List Edge :=
  let index := given.complete nodes edges
  (nodes.foldl (overridesOfNode withheld index (index.methodsOf nodes)) .empty).entries

/-- What is handed over was built from the same lists. -/
structure GivenIndex.Shared (given : GivenIndex) (nodes : List Node) (edges : List Edge) :
    Prop where
  byId : ∀ dict, given.byId = some dict → dict = (DeriveIndex.build nodes edges).byId
  parentOf : ∀ dict, given.parentOf = some dict → dict = (DeriveIndex.build nodes edges).parentOf
  supers : ∀ dict, given.supers = some dict → dict = (DeriveIndex.build nodes edges).supers

/-- One edge and the containers. -/
def enterParent (parentOf : Dict NodeId NodeId) (edge : Edge) : Dict NodeId NodeId :=
  if edge.type = .contains then parentOf.set edge.dst edge.src else parentOf

/-- One edge and the supertypes. -/
def enterSuper (byId : Dict NodeId Node) (supers : Dict NodeId (List NodeId)) (edge : Edge) :
    Dict NodeId (List NodeId) :=
  if (edge.type = .extends ∨ edge.type = .implements) ∧
      (DeriveIndex.isClass { byId } edge.src && DeriveIndex.isClass { byId } edge.dst) = true then
    supers.append edge.src edge.dst
  else supers

theorem enter_given_eq (given : GivenIndex) (index : DeriveIndex) (edge : Edge) :
    given.enter index edge =
      { byId := index.byId
        parentOf := if given.parentOf.isNone then enterParent index.parentOf edge
          else index.parentOf
        supers := if given.supers.isNone then enterSuper index.byId index.supers edge
          else index.supers } := by
  obtain ⟨byId, parentOf, supers⟩ := index
  unfold GivenIndex.enter enterParent enterSuper
  by_cases contains : edge.type = .contains
  · have noSuper : ¬ (EdgeType.contains = .extends ∨ EdgeType.contains = .implements) := by decide
    simp only [contains, and_true, noSuper, false_and, and_false, ↓reduceIte, ite_self]
    split <;> rfl
  · simp only [contains, and_false, ↓reduceIte, ite_self]
    cases given.supers.isNone with
    | false => simp only [Bool.false_eq_true, false_and, ↓reduceIte]
    | true =>
        simp only [true_and, ↓reduceIte]
        by_cases super : edge.type = .extends ∨ edge.type = .implements
        · have asks : ∀ id, ({ byId, parentOf, supers } : DeriveIndex).isClass id =
              DeriveIndex.isClass { byId } id := fun _ => rfl
          simp only [super, true_and, ↓reduceIte, asks]
          cases DeriveIndex.isClass { byId } edge.src && DeriveIndex.isClass { byId } edge.dst <;>
            rfl
        · simp only [super, false_and, ↓reduceIte]

/-- Each index is built on its own. -/
theorem foldl_enter_given (given : GivenIndex) (edges : List Edge) (index : DeriveIndex) :
    edges.foldl given.enter index =
      { byId := index.byId
        parentOf := if given.parentOf.isNone then edges.foldl enterParent index.parentOf
          else index.parentOf
        supers := if given.supers.isNone then edges.foldl (enterSuper index.byId) index.supers
          else index.supers } := by
  induction edges generalizing index with
  | nil => simp only [List.foldl_nil, ite_self]
  | cons edge rest ih =>
      rw [List.foldl_cons, ih, enter_given_eq]
      cases given.parentOf.isNone <;> cases given.supers.isNone <;> rfl

theorem build_eq (nodes : List Node) (edges : List Edge) :
    DeriveIndex.build nodes edges =
      let byId := nodes.foldl (fun dict node => dict.set node.id node) Dict.empty
      { byId
        parentOf := edges.foldl enterParent Dict.empty
        supers := edges.foldl (enterSuper byId) Dict.empty } := by
  have alike : GivenIndex.enter {} = DeriveIndex.enter := by
    funext index edge
    simp only [GivenIndex.enter, DeriveIndex.enter, Option.isNone_none, true_and]
  rw [DeriveIndex.build, ← alike]
  exact foldl_enter_given {} edges _

/-- Each index is the one handed over or the one built here. -/
theorem GivenIndex.complete_eq (given : GivenIndex) (nodes : List Node) (edges : List Edge) :
    given.complete nodes edges =
      let byId := given.byId.getD
        (nodes.foldl (fun dict node => dict.set node.id node) Dict.empty)
      { byId
        parentOf := given.parentOf.getD (edges.foldl enterParent Dict.empty)
        supers := given.supers.getD (edges.foldl (enterSuper byId) Dict.empty) } := by
  obtain ⟨byId, parentOf, supers⟩ := given
  simp only [GivenIndex.complete, foldl_enter_given]
  cases parentOf <;> cases supers <;> rfl

/-- **Handed over.** Indices built from the same lists are those the pass builds. -/
theorem GivenIndex.Shared.complete_eq {given : GivenIndex} {nodes : List Node} {edges : List Edge}
    (shared : given.Shared nodes edges) :
    given.complete nodes edges = DeriveIndex.build nodes edges := by
  have whole := build_eq nodes edges
  rw [whole, GivenIndex.complete_eq]
  obtain ⟨sharedId, sharedParent, sharedSupers⟩ := shared
  rw [whole] at sharedId sharedParent sharedSupers
  obtain ⟨byId, parentOf, supers⟩ := given
  have ids : byId.getD (nodes.foldl (fun dict node => dict.set node.id node) Dict.empty) =
      nodes.foldl (fun dict node => dict.set node.id node) Dict.empty := by
    cases byId with
    | none => rfl
    | some dict => exact sharedId dict rfl
  have parents : parentOf.getD (edges.foldl enterParent Dict.empty) =
      edges.foldl enterParent Dict.empty := by
    cases parentOf with
    | none => rfl
    | some dict => exact sharedParent dict rfl
  dsimp only
  rw [ids, parents]
  cases supers with
  | none => rfl
  | some dict => exact congrArg _ (sharedSupers dict rfl)

end Given

section Lists

variable (nodes : List Node) (edges : List Edge)

/-- Whether the last node listed under an id is a Class node. -/
def isClassId (id : NodeId) : Bool :=
  (nodes.reverse.find? fun node => node.id = id).any fun node => node.label = .cls

/-- The source of the last CONTAINS edge to an id. -/
def containerOf (id : NodeId) : Option NodeId :=
  (edges.reverse.find? fun edge => edge.type = .contains && edge.dst = id).map Edge.src

/-- The class around the node of an id. -/
def classAround (id : NodeId) : Option NodeId :=
  (containerOf edges id).filter (isClassId nodes)

/-- A supertype by the edges between Class nodes. -/
def SuperEdge (cls above : NodeId) : Prop :=
  ∃ edge ∈ edges, (edge.type = .extends ∨ edge.type = .implements) ∧
    (isClassId nodes cls && isClassId nodes above) = true ∧ edge.src = cls ∧ edge.dst = above

variable {nodes edges}

theorem byId_build (id : NodeId) :
    (DeriveIndex.build nodes edges).byId.get? id =
      nodes.reverse.find? fun node => node.id = id := by
  rw [build_eq]
  have last := Dict.get?_foldl_set (fun _ => true) Node.id (fun node => node) nodes
    (Dict.empty : Dict NodeId Node) id
  simpa only [↓reduceIte, Bool.true_and, Option.map_id_fun', id_eq, Dict.get?_empty,
    Option.or_none] using last

theorem isClass_build (id : NodeId) :
    (DeriveIndex.build nodes edges).isClass id = isClassId nodes id := by
  rw [DeriveIndex.isClass, byId_build, isClassId]

/-- The index has the container that the edges give a node. -/
theorem parentOf_build (id : NodeId) :
    (DeriveIndex.build nodes edges).parentOf.get? id = containerOf edges id := by
  rw [build_eq]
  have last := Dict.get?_foldl_set (fun edge : Edge => decide (edge.type = .contains)) Edge.dst
    Edge.src edges (Dict.empty : Dict NodeId NodeId) id
  simp only [decide_eq_true_eq, Dict.get?_empty, Option.or_none] at last
  exact last

/-- The index has the class around a node. -/
theorem classOf_build (node : Node) :
    (DeriveIndex.build nodes edges).classOf node = classAround nodes edges node.id := by
  rw [DeriveIndex.classOf, parentOf_build, classAround]
  exact congrFun (congrArg _ (funext isClass_build)) _

/-- The index has the supertypes that the edges give a class. -/
theorem mem_supers_build {cls above : NodeId} :
    above ∈ (DeriveIndex.build nodes edges).supers.getD cls [] ↔
      SuperEdge nodes edges cls above := by
  have classes : ∀ id, DeriveIndex.isClass
      { byId := nodes.foldl (fun dict node => dict.set node.id node) Dict.empty } id =
        isClassId nodes id := by
    intro id
    rw [← @isClass_build nodes edges, build_eq]
    rfl
  rw [build_eq]
  have gathered := @foldl_iff _ _ (enterSuper
      (nodes.foldl (fun dict node => dict.set node.id node) Dict.empty))
    (fun supers => above ∈ supers.getD cls [])
    (fun edge => (edge.type = .extends ∨ edge.type = .implements) ∧
      (isClassId nodes cls && isClassId nodes above) = true ∧ edge.src = cls ∧ edge.dst = above)
    (by
      intro supers edge
      unfold enterSuper
      rw [classes, classes]
      split
      · next fits =>
          rw [Dict.getD_append]
          split
          · next same =>
              rw [same, List.mem_append, List.mem_singleton]
              refine or_congr_right ⟨?_, fun own => own.2.2.2.symm⟩
              intro own
              rw [own]
              exact ⟨fits.1, fits.2, rfl, rfl⟩
          · next other =>
              exact ⟨.inl, fun either => either.resolve_right fun own => other own.2.2.1.symm⟩
      · next unfit =>
          refine ⟨.inl, fun either => either.resolve_right fun own => unfit ⟨own.1, ?_⟩⟩
          rw [own.2.2.1, own.2.2.2]
          exact own.2.1)
    edges Dict.empty
  simpa only [Dict.getD, Dict.get?_empty, Option.getD_none, List.not_mem_nil, false_or,
    SuperEdge] using gathered

/-- **Ancestors.** The walk comes to the classes reachable through supertypes, the own class
too where the hierarchy leads back to it. -/
theorem mem_ancestorsOf_build {cls above : NodeId} :
    above ∈ (DeriveIndex.build nodes edges).ancestorsOf cls ↔
      Relation.TransGen (SuperEdge nodes edges) cls above := by
  let next := fun id => (DeriveIndex.build nodes edges).supers.getD id []
  have outside : ∀ other, other ∉ (DeriveIndex.build nodes edges).supers.keys →
      next other = [] := by
    intro other absent
    cases held : (DeriveIndex.build nodes edges).supers.get? other with
    | none => simp only [next, Dict.getD, held, Option.getD_none]
    | some above => exact (absent ((Dict.mem_keys_iff _ other).mpr ⟨above, held⟩)).elim
  have moves : Moves (fun _ : NodeId => true) next = SuperEdge nodes edges := by
    funext first second
    simp only [Moves, next, mem_supers_build, and_true]
  rw [DeriveIndex.ancestorsOf, mem_walk_iff outside, ReachedFrom, Relation.TransGen.head'_iff]
  rw [moves]
  simp only [List.mem_reverse, mem_supers_build, true_and]

end Lists

section Pairs

variable (withheld : Withheld) (nodes : List Node) (edges : List Edge)

/-- A listed method matches another in name and arity, and the two are not withheld. -/
structure Matching (node method : Node) (cls above : NodeId) : Prop where
  node_method : isMethod node
  node_class : classAround nodes edges node.id = some cls
  method_mem : method ∈ nodes
  method_method : isMethod method
  method_class : classAround nodes edges method.id = some above
  name : method.name = node.name
  paramCount : method.paramCount = node.paramCount
  free : node.id ∉ withheld.methods
  pair : (node.id, method.id) ∉ withheld.pairs

/-- One method is of a class above that of another, which it overrides. -/
def IsOverride (node method : Node) : Prop :=
  node ∈ nodes ∧ ∃ cls above, Matching withheld nodes edges node method cls above ∧
    cls ≠ above ∧ Relation.TransGen (SuperEdge nodes edges) cls above

/-- What the pass is for: each pair once, and the same with indices handed over. -/
structure OverridesExact : Prop where
  only : ∀ edge ∈ deriveOverrides withheld nodes edges, edge.type = .overrides
  pairs : ∀ src dst, (∃ edge ∈ deriveOverrides withheld nodes edges, edge.src = src ∧
    edge.dst = dst) ↔
      ∃ node method, node.id = src ∧ method.id = dst ∧ IsOverride withheld nodes edges node method
  once : ((deriveOverrides withheld nodes edges).map Edge.key).Nodup
  handed : ∀ given : GivenIndex, given.Shared nodes edges →
    deriveOverridesWith withheld given nodes edges = deriveOverrides withheld nodes edges

/-- Two methods of one class that leads back to itself match. -/
def Overloads (node method : Node) : Prop :=
  node ∈ nodes ∧ ∃ cls, Matching withheld nodes edges node method cls cls ∧
    method.id ≠ node.id ∧ Relation.TransGen (SuperEdge nodes edges) cls cls

variable {withheld nodes edges}

/-- **Methods by class and name.** -/
theorem mem_methodsOf_iff {index : DeriveIndex} {cls : NodeId} {name : Str} {method : Node} :
    method ∈ (index.methodsOf nodes).getD (cls, name) [] ↔
      method ∈ nodes ∧ isMethod method ∧ index.classOf method = some cls ∧
        method.name = name := by
  unfold DeriveIndex.methodsOf
  rw [@foldl_iff _ _ _ (fun methods : Dict (NodeId × Str) (List Node) =>
      method ∈ methods.getD (cls, name) [])
    (fun node => node = method ∧ index.classOf method = some cls ∧ method.name = name)]
  · simp only [Dict.getD, Dict.get?_empty, Option.getD_none, List.not_mem_nil, false_or,
      List.mem_filter, and_assoc]
    constructor
    · rintro ⟨node, listed, looked, rfl, rest⟩
      exact ⟨listed, looked, rest⟩
    · rintro ⟨listed, looked, rest⟩
      exact ⟨method, listed, looked, rfl, rest⟩
  · intro methods node
    cases around : index.classOf node with
    | none =>
        refine ⟨.inl, fun either => either.resolve_right ?_⟩
        rintro ⟨same, found, _⟩
        rw [same, found] at around
        exact Option.some_ne_none _ around
    | some own =>
        simp only [Dict.getD_append]
        split
        · next same =>
            obtain ⟨rfl, rfl⟩ := Prod.mk.inj same
            rw [List.mem_append, List.mem_singleton]
            refine or_congr_right ⟨?_, fun found => found.1.symm⟩
            intro found
            rw [found]
            exact ⟨rfl, around, rfl⟩
        · next other =>
            refine ⟨.inl, fun either => either.resolve_right ?_⟩
            rintro ⟨same, found, named⟩
            rw [same, found] at around
            rw [same] at other
            exact other (by rw [named, Option.some.inj around])

/-- Comparing two methods adds their pair where they differ, have one arity and are not withheld. -/
theorem has_compareMethod {log : KeyedLog Edge.key} {node method : Node} {key : EdgeKey} :
    (compareMethod withheld node log method).Has key ↔
      log.Has key ∨ ((method.id ≠ node.id ∧ method.paramCount = node.paramCount ∧
        (node.id, method.id) ∉ withheld.pairs) ∧ (heuristicOverride node method).key = key) := by
  unfold compareMethod
  split
  · next fits => rw [KeyedLog.has_emit, and_iff_right fits]
  · next unfit => rw [iff_false_intro unfit, false_and, or_false]

/-- A class above that of a node is above a class. -/
theorem classAround_of_transGen {id cls above : NodeId}
    (contained : containerOf edges id = some cls)
    (reached : Relation.TransGen (SuperEdge nodes edges) cls above) :
    classAround nodes edges id = some cls := by
  obtain ⟨_, ⟨_, _, _, classes, _⟩, _⟩ := Relation.TransGen.head'_iff.mp reached
  rw [classAround, contained]
  exact if_pos (Bool.and_eq_true_iff.mp classes).1

theorem containerOf_of_classAround {id cls : NodeId}
    (around : classAround nodes edges id = some cls) : containerOf edges id = some cls :=
  (Option.filter_eq_some_iff.mp around).1

/-- What one method adds: a pair with each method of its name and arity in the classes above,
whatever their classes. -/
theorem has_overridesOfNode (log : KeyedLog Edge.key) (node : Node) {key : EdgeKey} :
    (overridesOfNode withheld (DeriveIndex.build nodes edges)
      ((DeriveIndex.build nodes edges).methodsOf nodes) log node).Has key ↔
      log.Has key ∨ ∃ method cls above, Matching withheld nodes edges node method cls above ∧
        method.id ≠ node.id ∧ Relation.TransGen (SuperEdge nodes edges) cls above ∧
        (heuristicOverride node method).key = key := by
  unfold overridesOfNode
  rw [parentOf_build]
  split
  · next looked =>
      rw [Bool.and_eq_true, Bool.not_eq_true', List.contains_eq_mem, decide_eq_false_iff_not]
        at looked
      split
      · next uncontained =>
          refine ⟨.inl, fun either => either.resolve_right ?_⟩
          rintro ⟨method, cls, above, found, _⟩
          rw [containerOf_of_classAround found.node_class] at uncontained
          exact Option.some_ne_none cls uncontained
      · next cls contained =>
          have each := fun (log : KeyedLog Edge.key) ancestor =>
            @foldl_iff _ _ (compareMethod withheld node) (KeyedLog.Has · key) _
              (fun log method => has_compareMethod)
              (((DeriveIndex.build nodes edges).methodsOf nodes).getD (ancestor, node.name) []) log
          rw [foldl_iff (KeyedLog.Has · key) each]
          refine or_congr_right ⟨?_, ?_⟩
          · rintro ⟨above, reached, method, found, fits, same⟩
            rw [mem_ancestorsOf_build] at reached
            obtain ⟨listed, method_method, around, named⟩ := mem_methodsOf_iff.mp found
            rw [classOf_build] at around
            exact ⟨method, cls, above, ⟨looked.1, classAround_of_transGen contained reached, listed,
              method_method, around, named, fits.2.1, looked.2, fits.2.2⟩, fits.1, reached, same⟩
          · rintro ⟨method, own, above, found, different, reached, same⟩
            have here := containerOf_of_classAround found.node_class
            obtain rfl : cls = own := Option.some.inj (contained.symm.trans here)
            refine ⟨above, mem_ancestorsOf_build.mpr reached, method, mem_methodsOf_iff.mpr ?_,
              ⟨different, found.paramCount, found.pair⟩, same⟩
            rw [classOf_build]
            exact ⟨found.method_mem, found.method_method, found.method_class, found.name⟩
  · next passed =>
      refine ⟨.inl, fun either => either.resolve_right ?_⟩
      rintro ⟨method, cls, above, found, _⟩
      apply passed
      rw [Bool.and_eq_true, Bool.not_eq_true', List.contains_eq_mem, decide_eq_false_iff_not]
      exact ⟨found.node_method, found.free⟩

/-- **The pass.** Its pairs are the matching methods of different ids, the class of the second
above that of the first. -/
theorem has_deriveOverrides {src dst : NodeId} :
    (∃ edge ∈ deriveOverrides withheld nodes edges, edge.src = src ∧ edge.dst = dst) ↔
      ∃ node ∈ nodes, ∃ method cls above, Matching withheld nodes edges node method cls above ∧
        method.id ≠ node.id ∧ Relation.TransGen (SuperEdge nodes edges) cls above ∧
        (heuristicOverride node method).key = (.overrides, src, dst) := by
  have whole := foldl_iff (KeyedLog.Has · ((.overrides, src, dst) : EdgeKey))
    (fun log node => @has_overridesOfNode withheld nodes edges log node _) nodes .empty
  rw [iff_false_intro (KeyedLog.not_has_empty _), false_or] at whole
  rw [← whole]
  refine exists_congr fun edge => and_congr_right fun derived => ?_
  obtain ⟨node, _, method, _, rfl⟩ := (addable_of_mem_deriveOverrides derived).joins
  simp only [Edge.key, heuristicOverride, Prod.mk.injEq, true_and]

/-- No pair is derived twice. -/
theorem nodup_deriveOverrides :
    ((deriveOverrides withheld nodes edges).map Edge.key).Nodup := by
  rw [← List.filter_true (deriveOverrides withheld nodes edges)]
  refine KeyedLog.Distinct.nodup (foldl_preserves (KeyedLog.Distinct Edge.key fun _ => true) nodes
    ?_ .empty KeyedLog.distinct_empty)
  intro log node _ distinct
  unfold overridesOfNode
  split
  · split
    · exact distinct
    · refine foldl_preserves (KeyedLog.Distinct Edge.key fun _ => true) _ ?_ log distinct
      intro log ancestor _ distinct
      refine foldl_preserves (KeyedLog.Distinct Edge.key fun _ => true) _ ?_ log distinct
      intro log method _ distinct
      unfold compareMethod
      split
      · exact distinct.emit _
      · exact distinct
  · exact distinct

/-- **Exactness.** The pass is exact if and only if no class leads back to itself through
supertypes and has two matching methods. -/
theorem deriveOverrides_exact_iff :
    OverridesExact withheld nodes edges ↔
      ∀ node method, ¬ Overloads withheld nodes edges node method := by
  refine ⟨fun exact node method => ?_, fun plain => ⟨?_, ?_, nodup_deriveOverrides, ?_⟩⟩
  · rintro ⟨listed, cls, found, different, back⟩
    obtain ⟨_, _, first, second, _, own, above, override, apart, _⟩ :=
      (exact.pairs node.id method.id).mp (has_deriveOverrides.mpr
        ⟨node, listed, method, cls, cls, found, different, back, rfl⟩)
    have here := override.node_class
    have there := override.method_class
    rw [first, found.node_class] at here
    rw [second, found.method_class] at there
    exact apart ((Option.some.inj here).symm.trans (Option.some.inj there))
  · intro edge derived
    obtain ⟨node, _, method, _, rfl⟩ := (addable_of_mem_deriveOverrides derived).joins
    rfl
  · intro src dst
    rw [has_deriveOverrides]
    constructor
    · rintro ⟨node, listed, method, cls, above, found, different, reached, same⟩
      obtain ⟨-, first, second⟩ : _ ∧ node.id = src ∧ method.id = dst := by
        simpa only [Edge.key, heuristicOverride, Prod.mk.injEq] using same
      refine ⟨node, method, first, second, listed, cls, above, found, ?_, reached⟩
      rintro rfl
      exact plain node method ⟨listed, cls, found, different, reached⟩
    · rintro ⟨node, method, first, second, listed, cls, above, found, apart, reached⟩
      refine ⟨node, listed, method, cls, above, found, ?_, reached, ?_⟩
      · intro same
        have there := found.method_class
        rw [same, found.node_class] at there
        exact apart (Option.some.inj there)
      · rw [← first, ← second]
        rfl
  · intro given shared
    rw [deriveOverridesWith, shared.complete_eq, deriveOverrides]

end Pairs

section Example

def loopClass : Node where
  id := ⟨['C'], letter_ne_nil 'C'⟩
  label := .cls
  name := ['C']
  fqn := ['C']
  repo := []

def loopMethod (letter : Char) : Node where
  id := ⟨[letter], letter_ne_nil letter⟩
  label := .function
  kind := .method
  name := ['f']
  fqn := [letter]
  repo := []
  paramCount := 1

def loopEdge (type : EdgeType) (dst : NodeId) : Edge where
  type := type
  src := loopClass.id
  dst := dst

/-- A class that extends itself, with two overloads of one arity. -/
def loopNodes : List Node := [loopClass, loopMethod 'f', loopMethod 'g']

def loopEdges : List Edge :=
  [loopEdge .extends loopClass.id, loopEdge .contains (loopMethod 'f').id,
    loopEdge .contains (loopMethod 'g').id]

/-- The overloads become overrides of each other. -/
theorem overloads_override : ¬ OverridesExact {} loopNodes loopEdges := by
  intro exact
  have emitted : heuristicOverride (loopMethod 'f') (loopMethod 'g') ∈
      deriveOverrides {} loopNodes loopEdges := by decide +kernel
  obtain ⟨node, method, first, second, _, cls, above, found, apart, _⟩ :=
    (exact.pairs _ _).mp ⟨_, emitted, rfl, rfl⟩
  have here := found.node_class
  have there := found.method_class
  rw [first] at here
  rw [second] at there
  have one : classAround loopNodes loopEdges (loopMethod 'f').id =
      classAround loopNodes loopEdges (loopMethod 'g').id := by decide
  exact apart (Option.some.inj (here.symm.trans (one.trans there)))

end Example

end GraphIngest.Pipeline
