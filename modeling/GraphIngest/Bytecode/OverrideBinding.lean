import GraphIngest.Bytecode.CallBinding

/-! # Overrides against the Java rules

An OVERRIDES edge is found by comparing simple type names in an index that knows
no access flags. Two questions are settled here: when the two ends of every edge
have the same erased parameters, and when every edge ends at a method that a
subclass can override.
-/

namespace GraphIngest.Bytecode

open Foundation Text Graph Java

section Pairs

variable (settings : Settings) (nodes : List Node) (classes : List ClassInfo)

/-- A walked method that can override, of a class with a node of its own, and
the other node picked for it in a proper ancestor. -/
structure PairedWith (body : Body) (ancestor : Str) (target : Node) : Prop where
  walked : body ∈ bodies settings (NodeIndex.build nodes) classes
  named : ((NodeIndex.build nodes).classId body.info.name).isSome
  able : canOverride body.method
  above : Ancestor (scanned settings nodes classes).hierarchy body.info.name ancestor
  picked : OverridePicks nodes ancestor body.method.name body.method.descriptor target
  proper : target.id ≠ body.caller

variable {settings nodes classes}

/-- The OVERRIDES edges of a kept pass are its pairs. -/
theorem Kept.has_overrides_iff {outcome : Outcome} (kept : Kept settings nodes classes outcome)
    {src dst : NodeId} :
    Kept.HasEdge outcome (.overrides, src, dst) ↔
      ∃ body ancestor target, PairedWith settings nodes classes body ancestor target ∧
        body.caller = src ∧ target.id = dst := by
  rw [kept.has_overrides]
  constructor
  · intro found
    obtain ⟨body, walked, rfl, named, able, ancestor, above, target, picked, rfl, proper⟩ := found
    exact ⟨body, ancestor, target, ⟨walked, named, able, above, picked, proper⟩, rfl, rfl⟩
  · intro found
    obtain ⟨body, ancestor, target, pair, rfl, rfl⟩ := found
    exact ⟨body, pair.walked, rfl, pair.named, pair.able, ancestor, pair.above, target, pair.picked,
      rfl, pair.proper⟩

theorem classId_eq_none_of_isAnonymous (index : NodeIndex) {info : ClassInfo}
    (anonymous : info.isAnonymous = true) : index.classId info.name = none := by
  unfold ClassInfo.isAnonymous at anonymous
  by_cases nested : '$' ∈ info.name
  · rw [if_pos nested] at anonymous
    simp only [NodeIndex.classId, binaryToSourceFqn, nested, not_true, anonymous, ↓reduceIte]
  · rw [if_neg nested] at anonymous
    cases anonymous

/-- A method that can override is looked up, never synthesized. -/
theorem callerNeedsSynthesis_eq_false {index : NodeIndex} {info : ClassInfo} {method : MethodInfo}
    (named : (index.classId info.name).isSome) (able : canOverride method) :
    callerNeedsSynthesis info method = false := by
  have declared : info.isAnonymous = false := by
    by_contra anonymous
    rw [classId_eq_none_of_isAnonymous index (by simpa using anonymous)] at named
    cases named
  simp only [canOverride, Bool.not_eq_true', Bool.or_eq_false_iff] at able
  simp only [callerNeedsSynthesis, declared, able, Bool.or_self]

theorem methodLookupName_of_canOverride {method : MethodInfo} (able : canOverride method)
    (fqn : Str) : methodLookupName fqn method.name = method.name := by
  have plain : method.isConstructor = false := by
    simp only [canOverride, Bool.not_eq_true', Bool.or_eq_false_iff] at able
    exact able.1.1.2
  rw [methodLookupName, if_neg]
  intro init
  rw [MethodInfo.isConstructor, init, BEq.rfl] at plain
  cases plain

/-- A lookup that ends in a match is a pick. -/
theorem picks_of_callerOf {info : ClassInfo} {owner : Owner} {method : MethodInfo} {id : NodeId}
    (found : callerOf settings (NodeIndex.build nodes) info owner method = .looked (.matched id)) :
    ∃ node, Picks nodes info.name method.name method.descriptor node ∧ node.id = id := by
  unfold callerOf at found
  split at found
  · cases found
  · split at found
    · split at found <;> cases found
    · apply methodId_build_eq_some.mp
      rw [NodeIndex.methodId, Caller.looked.inj found]

/-- The caller of a method that is looked up is the node picked for it. -/
theorem picks_of_looked {body : Body}
    (walked : body ∈ bodies settings (NodeIndex.build nodes) classes)
    (declared : callerNeedsSynthesis body.info body.method = false) :
    ∃ node, Picks nodes body.info.name body.method.name body.method.descriptor node ∧
      node.id = body.caller := by
  obtain ⟨_, _, _, called⟩ := mem_bodies_iff.mp walked
  suffices looked : callerOf settings (NodeIndex.build nodes) body.info body.owner body.method =
      .looked (.matched body.caller) from picks_of_callerOf looked
  unfold callerOf at called ⊢
  by_cases skipped : shouldSkipMethod body.method = true
  · rw [if_pos skipped] at called
    cases called
  · rw [if_neg skipped] at called ⊢
    simp only [declared, Bool.false_eq_true, ↓reduceIte] at called ⊢
    cases result : (NodeIndex.build nodes).matchMethod body.info.name body.method.name
        body.method.descriptor with
    | matched id =>
        rw [result] at called
        exact congrArg (Caller.looked ∘ NodeIndex.Match.matched) (Option.some.inj called)
    | _ =>
        rw [result] at called
        cases called

/-- The class and the name a node is looked up by. -/
theorem OverridePicks.key {ancestor name descriptor : Str} {node : Node}
    (picks : OverridePicks nodes ancestor name descriptor node) :
    node ∈ nodes ∧ NodeIndex.methodKey node =
      some (binaryToSourceFqn ancestor, methodLookupName (binaryToSourceFqn ancestor) name) := by
  obtain ⟨_, wanted, _, chosen⟩ := picks
  obtain ⟨candidate, _⟩ := List.mem_filter.mp (chosen ▸ List.mem_singleton_self node)
  obtain ⟨present, keyed, _⟩ := mem_methodNodes.mp candidate
  exact ⟨present, keyed⟩

/-- In its own class a method finds nothing but itself. -/
theorem OverridePicks.eq_of_picks {owner ancestor name descriptor : Str} {own target : Node}
    (picked : OverridePicks nodes ancestor name descriptor target)
    (picks : Picks nodes owner name descriptor own)
    (same : binaryToSourceFqn ancestor = binaryToSourceFqn owner) : target = own := by
  obtain ⟨_, types, parsed, found⟩ := picks
  obtain ⟨_, wanted, spelled, chosen⟩ := picked
  rw [descriptorSimpleTypes, parsed, Option.map_some, Option.some.injEq] at spelled
  subst spelled
  rw [same, List.length_map] at chosen
  rcases found with only | ⟨_, single⟩
  · rw [only] at chosen
    have member := List.mem_of_mem_filter (chosen ▸ List.mem_singleton_self target)
    exact List.mem_singleton.mp member
  · exact List.singleton_inj.mp (chosen.symm.trans single)

/-- Both ends of a pair are looked up by the name of the method. -/
theorem PairedWith.keys {body : Body} {ancestor : Str} {target : Node}
    (pair : PairedWith settings nodes classes body ancestor target) :
    (∃ own ∈ nodes, own.id = body.caller ∧
      NodeIndex.methodKey own = some (binaryToSourceFqn body.info.name, body.method.name) ∧
        binaryToSourceFqn ancestor ≠ binaryToSourceFqn body.info.name) ∧
      target ∈ nodes ∧
        NodeIndex.methodKey target = some (binaryToSourceFqn ancestor, body.method.name) := by
  have declared := callerNeedsSynthesis_eq_false pair.named pair.able
  obtain ⟨own, picks, same⟩ := picks_of_looked pair.walked declared
  have ownKey := picks.key
  have targetKey := pair.picked.key
  rw [methodLookupName_of_canOverride pair.able] at ownKey targetKey
  refine ⟨⟨own, ownKey.1, same, ownKey.2, ?_⟩, targetKey⟩
  intro sameClass
  have equal := pair.picked.eq_of_picks picks sameClass
  exact pair.proper (equal ▸ same)

end Pairs

section Erasure

/-- How many array dimensions a type descriptor has. -/
def dimensions (descriptor : Str) : Nat := (descriptor.takeWhile (· == '[')).length

/-- The innermost element type of a type descriptor, with its package. -/
def elementType (descriptor : Str) : Str := descriptor.dropWhile (· == '[')

/-- The same array dimensions over the same element type. -/
def SameType (first second : Str) : Prop :=
  dimensions first = dimensions second ∧ elementType first = elementType second

/-- Dimensions and element type make up a descriptor. -/
theorem sameType_iff {first second : Str} : SameType first second ↔ first = second := by
  constructor
  · intro same
    obtain ⟨depth, element⟩ := same
    have brackets : ∀ descriptor : Str, descriptor.takeWhile (· == '[') =
        List.replicate (dimensions descriptor) '[' := by
      intro descriptor
      refine List.eq_replicate_of_mem fun letter member => ?_
      exact beq_iff_eq.mp (List.all_eq_true.mp List.all_takeWhile letter member)
    calc first = first.takeWhile (· == '[') ++ elementType first :=
          List.takeWhile_append_dropWhile.symm
      _ = second.takeWhile (· == '[') ++ elementType second := by
          rw [brackets, brackets, depth, element]
      _ = second := List.takeWhile_append_dropWhile
  · intro same
    rw [same]
    exact ⟨rfl, rfl⟩

/-- The Java declarations behind the method nodes. -/
structure Declarations (nodes : List Node) where
  declOf : NodeId → Option MethodDecl
  isNode : ∀ node ∈ nodes, ∀ decl ∈ declOf node.id, decl.IsNode node

variable (settings : Settings) (nodes : List Node) (classes : List ClassInfo)

/-- The two ends of every OVERRIDES edge have the same name and the same erased
parameters. -/
def OverridesExact (declared : Declarations nodes) : Prop :=
  ∀ outcome, Kept settings nodes classes outcome → ∀ src dst,
    Kept.HasEdge outcome (.overrides, src, dst) → ∀ method target,
      declared.declOf src = some method → declared.declOf dst = some target →
        method.name = target.name ∧ method.params = target.params

/-- No pair is lossy: a method is not paired with a constructor, and the
parameter types, already alike by simple name, agree in array dimensions and in
package. -/
def PairsLossless (declared : Declarations nodes) : Prop :=
  ∀ body ancestor target, PairedWith settings nodes classes body ancestor target →
    ∀ method other, declared.declOf body.caller = some method →
      declared.declOf target.id = some other →
        (method.name = "<init>".toList ↔ other.name = "<init>".toList) ∧
          List.Forall₂ SameType method.params other.params

variable {settings nodes classes}

/-- **Exactness of OVERRIDES.** The edges of a kept pass join methods of one
erased signature exactly when no pair is lossy. -/
theorem overridesExact_iff (declared : Declarations nodes) :
    OverridesExact settings nodes classes declared ↔
      ∀ outcome, Kept settings nodes classes outcome →
        PairsLossless settings nodes classes declared := by
  constructor
  · intro exact outcome kept body ancestor target pair method other own found
    have joined : Kept.HasEdge outcome (.overrides, body.caller, target.id) :=
      kept.has_overrides_iff.mpr ⟨body, ancestor, target, pair, rfl, rfl⟩
    obtain ⟨named, typed⟩ := exact outcome kept _ _ joined method other own found
    rw [named, typed]
    exact ⟨Iff.rfl, List.forall₂_same.mpr fun _ _ => ⟨rfl, rfl⟩⟩
  · intro lossless outcome kept src dst joined method other own found
    obtain ⟨body, ancestor, target, pair, rfl, rfl⟩ := kept.has_overrides_iff.mp joined
    obtain ⟨constructors, typed⟩ :=
      lossless outcome kept body ancestor target pair method other own found
    refine ⟨?_, ?_⟩
    · obtain ⟨⟨node, present, same, keyed, _⟩, targetPresent, targetKeyed⟩ := pair.keys
      have ownName := (declared.isNode node present method (same ▸ own)).methodKey.symm.trans keyed
      have otherName :=
        (declared.isNode target targetPresent other found).methodKey.symm.trans targetKeyed
      simp only [Option.some.injEq, Prod.mk.injEq, methodLookupName] at ownName otherName
      by_cases init : method.name = "<init>".toList
      · rw [init, constructors.mp init]
      · have regular : other.name ≠ "<init>".toList := fun otherInit =>
          init (constructors.mpr otherInit)
        rw [if_neg init] at ownName
        rw [if_neg regular] at otherName
        rw [ownName.2, otherName.2]
    · have equal : List.Forall₂ (· = ·) method.params other.params :=
        typed.imp fun _ _ same => sameType_iff.mp same
      exact List.forall₂_eq_eq_eq ▸ equal

/-- `A` declares `f(java.util.Date)`, its subclass `B` declares
`f(java.sql.Date)`. -/
def dateNodes : List Node :=
  [sampleClass "demo.A" "A.java",
   sampleMethod "demo.A" "f" "(java.util.Date d)" ["Date"] "A.java" .method,
   sampleClass "demo.B" "B.java",
   sampleMethod "demo.B" "f" "(java.sql.Date d)" ["Date"] "B.java" .method]

/-- The compiled classes. -/
def dateClasses : List ClassInfo :=
  [sampleInfo "demo.A" "java.lang.Object" []
     [{ name := "f", descriptor := "(Ljava/util/Date;)V", accessFlags := 0x0001 }],
   sampleInfo "demo.B" "demo.A" []
     [{ name := "f", descriptor := "(Ljava/sql/Date;)V", accessFlags := 0x0001 }]]

/-- The declarations behind these nodes. -/
def dateDeclarations : Declarations dateNodes where
  declOf id :=
    [(plainId "demo" "demo.A#f(java.util.Date d)" "method",
        (⟨"demo.A", "f", ["Ljava/util/Date;"], ["Date"], demoA_f_plain⟩ : MethodDecl)),
      (plainId "demo" "demo.B#f(java.sql.Date d)" "method",
        ⟨"demo.B", "f", ["Ljava/sql/Date;"], ["Date"], demoB_f_plain⟩)].lookup id
  isNode := by decide +kernel

/-- The pass pairs `B.f(java.sql.Date)` with `A.f(java.util.Date)`. -/
theorem date_inexact : ¬ OverridesExact sampleSettings dateNodes dateClasses dateDeclarations := by
  intro exact
  have kept : Kept sampleSettings dateNodes dateClasses
      (keptOutcome sampleSettings dateNodes dateClasses) :=
    Kept.of_guards (by decide +kernel)
  have joined : Kept.HasEdge (keptOutcome sampleSettings dateNodes dateClasses)
      (.overrides, plainId "demo" "demo.B#f(java.sql.Date d)" "method",
        plainId "demo" "demo.A#f(java.util.Date d)" "method") := by
    unfold Kept.HasEdge
    decide +kernel
  have signatures := exact _ kept _ _ joined
    ⟨"demo.B", "f", ["Ljava/sql/Date;"], ["Date"], demoB_f_plain⟩
    ⟨"demo.A", "f", ["Ljava/util/Date;"], ["Date"], demoA_f_plain⟩ (by decide +kernel)
    (by decide +kernel)
  exact absurd signatures.2 (by decide)

end Erasure

section Eligibility

variable (settings : Settings) (nodes : List Node) (classes : List ClassInfo)

/-- Whether a subclass can override the method of a node. -/
def Overridable (node : Node) : Prop :=
  node.visibility ≠ .private ∧ node.isStatic = false ∧ node.kind ≠ .constructor ∧
    node.kind ≠ .initializer

instance (node : Node) : Decidable (Overridable node) :=
  inferInstanceAs (Decidable (_ ∧ _ ∧ _ ∧ _))

/-- The class of a method node, by source name. -/
def InClass (node : Node) (fqn : Str) : Prop := ∃ name, NodeIndex.methodKey node = some (fqn, name)

/-- One method node lies in a proper ancestor, by the parsed headers, of the
class of another. -/
def DeclaredAbove (method target : Node) : Prop :=
  ∃ binary ancestor, Relation.TransGen (HasSupertype classes) binary ancestor ∧
    InClass method (binaryToSourceFqn binary) ∧ InClass target (binaryToSourceFqn ancestor) ∧
      binaryToSourceFqn ancestor ≠ binaryToSourceFqn binary

/-- Every OVERRIDES edge ends in a proper ancestor, at a method that a subclass
can override. -/
def TargetsEligible : Prop :=
  ∀ outcome, Kept settings nodes classes outcome → ∀ src dst,
    Kept.HasEdge outcome (.overrides, src, dst) →
      ∃ method ∈ nodes, ∃ target ∈ nodes, method.id = src ∧ target.id = dst ∧
        DeclaredAbove classes method target ∧ Overridable target

variable {settings nodes classes}

/-- The kept headers are parsed headers. -/
theorem hasSupertype_of_supertype {binary ancestor : Str}
    (above : Supertype (scanned settings nodes classes).hierarchy binary ancestor) :
    HasSupertype classes binary ancestor := by
  obtain ⟨listed, present⟩ := above
  rw [supertypes, scanned, hierarchy_scanClasses] at listed
  cases found : classes.reverse.find? fun info =>
      ((NodeIndex.build nodes).classId info.name).isSome && decide (info.name = binary) with
  | none =>
      rw [found] at listed
      cases listed
  | some info =>
      rw [found, Option.map_some, directAncestors] at listed
      have member : info ∈ classes := List.mem_reverse.mp (List.mem_of_find?_eq_some found)
      have tested := List.find?_some found
      simp only [Bool.and_eq_true, decide_eq_true_eq] at tested
      have inherited : ancestor ∈ info.interfaces ∨ ancestor = info.superName := by
        split at listed
        · exact Or.inl listed
        · exact (List.mem_cons.mp listed).symm
      rcases inherited with interface | superclass
      · exact Or.inr ⟨present, info, member, tested.2, interface⟩
      · exact Or.inl ⟨present, info, member, tested.2, superclass.symm⟩

/-- The target of a pair lies in a proper ancestor of the class of its method. -/
theorem PairedWith.declaredAbove {body : Body} {ancestor : Str} {target : Node}
    (pair : PairedWith settings nodes classes body ancestor target) :
    ∃ method ∈ nodes, method.id = body.caller ∧ DeclaredAbove classes method target := by
  obtain ⟨⟨own, present, same, keyed, differs⟩, _, targetKeyed⟩ := pair.keys
  refine ⟨own, present, same, body.info.name, ancestor, ?_, ⟨_, keyed⟩, ⟨_, targetKeyed⟩, differs⟩
  exact Relation.TransGen.mono (fun _ _ step => hasSupertype_of_supertype step) _ _ pair.above

/-- **Eligibility of OVERRIDES.** The edges of a kept pass all end at methods
that a subclass can override, in a proper ancestor, exactly when no pair has a
private or static method, a constructor or an initializer as its target. -/
theorem targetsEligible_iff (distinct : (nodes.map Node.id).Nodup) :
    TargetsEligible settings nodes classes ↔
      ∀ outcome, Kept settings nodes classes outcome → ∀ body ancestor target,
        PairedWith settings nodes classes body ancestor target → Overridable target := by
  constructor
  · intro eligible outcome kept body ancestor target pair
    have joined : Kept.HasEdge outcome (.overrides, body.caller, target.id) :=
      kept.has_overrides_iff.mpr ⟨body, ancestor, target, pair, rfl, rfl⟩
    obtain ⟨_, _, other, present, _, same, _, overridable⟩ := eligible outcome kept _ _ joined
    have equal := List.inj_on_of_nodup_map distinct present pair.keys.2.1 same
    exact equal ▸ overridable
  · intro eligible outcome kept src dst joined
    obtain ⟨body, ancestor, target, pair, rfl, rfl⟩ := kept.has_overrides_iff.mp joined
    obtain ⟨method, present, same, above⟩ := pair.declaredAbove
    exact ⟨method, present, target, pair.keys.2.1, same, rfl, above,
      eligible outcome kept body ancestor target pair⟩

/-- `A` has a private `f()`, and its subclass `B` declares its own `f()`. -/
def hiddenNodes : List Node :=
  [sampleClass "demo.A" "A.java",
   { sampleMethod "demo.A" "f" "()" [] "A.java" .method with visibility := .private },
   sampleClass "demo.B" "B.java",
   { sampleMethod "demo.B" "f" "()" [] "B.java" .method with visibility := .public }]

/-- The compiled classes. -/
def hiddenClasses : List ClassInfo :=
  [sampleInfo "demo.A" "java.lang.Object" []
     [{ name := "f", descriptor := "()V", accessFlags := 0x0002 }],
   sampleInfo "demo.B" "demo.A" [] [{ name := "f", descriptor := "()V", accessFlags := 0x0001 }]]

/-- The pass makes `B.f()` override the private `A.f()`. -/
theorem hidden_ineligible : ¬ TargetsEligible sampleSettings hiddenNodes hiddenClasses := by
  intro eligible
  have kept : Kept sampleSettings hiddenNodes hiddenClasses
      (keptOutcome sampleSettings hiddenNodes hiddenClasses) :=
    Kept.of_guards (by decide +kernel)
  have joined : Kept.HasEdge (keptOutcome sampleSettings hiddenNodes hiddenClasses)
      (.overrides, plainId "demo" "demo.B#f()" "method",
        plainId "demo" "demo.A#f()" "method") := by
    unfold Kept.HasEdge
    decide +kernel
  obtain ⟨_, _, target, present, _, same, _, overridable⟩ := eligible _ kept _ _ joined
  have hidden : ∀ node ∈ hiddenNodes, node.id = plainId "demo" "demo.A#f()" "method" →
      ¬ Overridable node := by
    decide +kernel
  exact hidden target present same overridable

/-- Over the two `f(Date)` the pass has an override to emit, and it ends at a method that a
subclass can override. -/
theorem date_targetsEligible : TargetsEligible sampleSettings dateNodes dateClasses ∧
    ∃ body ancestor target, PairedWith sampleSettings dateNodes dateClasses body ancestor target := by
  have kept : Kept sampleSettings dateNodes dateClasses _ := Kept.of_guards (by decide +kernel)
  have overridable : ∀ node ∈ dateNodes, Overridable node := by decide +kernel
  have joined : Kept.HasEdge (keptOutcome sampleSettings dateNodes dateClasses)
      (.overrides, plainId "demo" "demo.B#f(java.sql.Date d)" "method",
        plainId "demo" "demo.A#f(java.util.Date d)" "method") := by
    unfold Kept.HasEdge
    decide +kernel
  obtain ⟨body, ancestor, target, pair, _⟩ := kept.has_overrides_iff.mp joined
  refine ⟨(targetsEligible_iff (by decide +kernel)).mpr ?_, body, ancestor, target, pair⟩
  intro _ _ body ancestor target pair
  exact overridable target pair.keys.2.1

end Eligibility

end GraphIngest.Bytecode
