import GraphIngest.Bytecode.Pass
import GraphIngest.Java.Resolution

/-! # Calls and accesses against member resolution

A call instruction is bound to a node by looking only into the class it names;
the virtual machine resolves it through the ancestors of that class too, and by
descriptor. Both directions of the comparison are settled here: when every CALLS
edge ends at the selected method, and when no resolved call or access is lost.
-/

namespace GraphIngest.Bytecode

open Foundation Text Graph Java

section Soundness

variable (settings : Settings) (nodes : List Node) (classes : List ClassInfo)

/-- The pass emits a CALLS edge with this target for an instruction of a walked
body. -/
def EmitsCall (outcome : Outcome) (body : Body) (inv : Invocation) (dst : NodeId) : Prop :=
  body ∈ bodies settings (NodeIndex.build nodes) classes ∧ inv ∈ body.method.invocations ∧
    inv.opcode ≠ .invokedynamic ∧
      (NodeIndex.build nodes).methodId inv.owner inv.name inv.descriptor = some dst ∧
        Kept.HasEdge outcome (.calls, body.caller, dst)

/-- Every CALLS edge ends at the node of the method that resolution selects for
its instruction. -/
def CallsSound (decls : List MethodDecl) : Prop :=
  ∀ outcome, Kept settings nodes classes outcome → ∀ body inv dst,
    EmitsCall settings nodes classes outcome body inv dst →
      ∃ params, descriptorParamTypes inv.descriptor = some params ∧
        ∃ decl, Resolves classes decls inv.owner inv.name params decl ∧
          ∃ node ∈ nodes, decl.IsNode node ∧ node.id = dst

/-- Every instruction of a walked body that picks a node (the only one of its
owner with its name and arity, or the only one of several spelled like its
descriptor) picks that of a method its owner declares with exactly its
descriptor. -/
def PicksExact (decls : List MethodDecl) : Prop :=
  ∀ body ∈ bodies settings (NodeIndex.build nodes) classes, ∀ inv ∈ body.method.invocations,
    inv.opcode ≠ .invokedynamic → ∀ node, Picks nodes inv.owner inv.name inv.descriptor node →
      ∃ params, descriptorParamTypes inv.descriptor = some params ∧
        ∃ decl, DeclaredIn decls inv.name params decl inv.owner ∧ decl.IsNode node

variable {settings nodes classes}

/-- A picked node is one of the nodes, with the class of the owner and the
lookup name in its fqn. -/
theorem Picks.key {owner name descriptor : Str} {node : Node}
    (picks : Picks nodes owner name descriptor node) :
    node ∈ nodes ∧ NodeIndex.methodKey node =
      some (binaryToSourceFqn owner, methodLookupName (binaryToSourceFqn owner) name) := by
  obtain ⟨types, _, member⟩ := picks.mem
  obtain ⟨present, keyed, _⟩ := mem_methodNodes.mp member
  exact ⟨present, keyed⟩

/-- In a kept pass, a matched call of a walked body is emitted. -/
theorem EmitsCall.of_matched {outcome : Outcome} (kept : Kept settings nodes classes outcome)
    {body : Body} {inv : Invocation} {dst : NodeId}
    (walked : body ∈ bodies settings (NodeIndex.build nodes) classes)
    (called : inv ∈ body.method.invocations) (static : inv.opcode ≠ .invokedynamic)
    (found : (NodeIndex.build nodes).methodId inv.owner inv.name inv.descriptor = some dst) :
    EmitsCall settings nodes classes outcome body inv dst := by
  obtain ⟨node, picks, named⟩ := methodId_build_eq_some.mp found
  exact ⟨walked, called, static, found,
    kept.has_calls.mpr ⟨body, walked, rfl, inv, called, static, node, picks, named⟩⟩

/-- **Soundness of CALLS.** The edges of a kept pass all end at the selected
methods exactly when no instruction picks a node by name and arity, or by
spelling, whose method has another descriptor. -/
theorem callsSound_iff (decls : List MethodDecl) (distinct : (nodes.map Node.id).Nodup) :
    CallsSound settings nodes classes decls ↔
      ∀ outcome, Kept settings nodes classes outcome →
        PicksExact settings nodes classes decls := by
  constructor
  · intro sound outcome kept body walked inv called static node picks
    have emitted := EmitsCall.of_matched kept walked called static
      (methodId_build_eq_some.mpr ⟨node, picks, rfl⟩)
    obtain ⟨params, parsed, decl, selected, other, present, isNode, same⟩ :=
      sound outcome kept body inv node.id emitted
    obtain ⟨member, keyed⟩ := picks.key
    obtain rfl := List.inj_on_of_nodup_map distinct present member same
    obtain ⟨declared, named, typed⟩ := selected.spec
    have owner := isNode.methodKey.symm.trans keyed
    simp only [Option.some.injEq, Prod.mk.injEq] at owner
    exact ⟨params, parsed, decl, ⟨declared, owner.1, named, typed⟩, isNode⟩
  · intro exact outcome kept body inv dst emitted
    obtain ⟨walked, called, static, found, _⟩ := emitted
    obtain ⟨node, picks, rfl⟩ := methodId_build_eq_some.mp found
    obtain ⟨params, parsed, decl, declared, isNode⟩ :=
      exact outcome kept body walked inv called static node picks
    exact ⟨params, parsed, decl, resolves_of_declaredIn declared, node, picks.key.1, isNode, rfl⟩

end Soundness

section Completeness

variable (settings : Settings) (nodes : List Node) (classes : List ClassInfo)

/-- A call of a walked body that names a class of the repository and resolves to
a declared method with a single node. -/
def CallsMember (methods : List MethodDecl) (body : Body) (inv : Invocation) (node : Node) :
    Prop :=
  body ∈ bodies settings (NodeIndex.build nodes) classes ∧ inv ∈ body.method.invocations ∧
    inv.opcode ≠ .invokedynamic ∧ ((NodeIndex.build nodes).classId inv.owner).isSome ∧
      ∃ params, descriptorParamTypes inv.descriptor = some params ∧
        ∃ decl, Resolves classes methods inv.owner inv.name params decl ∧
          decl.IsOnlyNode nodes node

/-- A field access of a walked body that names a class of the repository and
resolves to a declared field with a single node. -/
def AccessesMember (fields : List FieldDecl) (body : Body) (access : FieldAccess) (node : Node) :
    Prop :=
  body ∈ bodies settings (NodeIndex.build nodes) classes ∧ access ∈ body.method.fieldAccesses ∧
    ((NodeIndex.build nodes).classId access.owner).isSome ∧
      ∃ decl, ResolvesField classes fields access.owner access.name decl ∧
        decl.IsOnlyNode nodes node

/-- No resolved call and no resolved access is lost. -/
def ReferencesComplete (methods : List MethodDecl) (fields : List FieldDecl) : Prop :=
  ∀ outcome, Kept settings nodes classes outcome →
    (∀ body inv node, CallsMember settings nodes classes methods body inv node →
      Kept.HasEdge outcome (.calls, body.caller, node.id)) ∧
    ∀ body access node, AccessesMember settings nodes classes fields body access node →
      Kept.HasEdge outcome (accessType access, body.caller, node.id)

/-- Some call of the same caller picks the node in the very class it names. -/
def PickedCall (caller : NodeId) (node : Node) : Prop :=
  ∃ body ∈ bodies settings (NodeIndex.build nodes) classes, body.caller = caller ∧
    ∃ inv ∈ body.method.invocations, inv.opcode ≠ .invokedynamic ∧
      Picks nodes inv.owner inv.name inv.descriptor node

/-- Some access of this type by the same caller picks the node in the very class
it names. -/
def PickedAccess (type : EdgeType) (caller : NodeId) (node : Node) : Prop :=
  ∃ body ∈ bodies settings (NodeIndex.build nodes) classes, body.caller = caller ∧
    ∃ access ∈ body.method.fieldAccesses, accessType access = type ∧
      FieldPicks nodes access.owner access.name node

variable {settings nodes classes}

/-- The only node of a method is one of the nodes. -/
theorem mem_of_isOnlyNode {decl : MethodDecl} {node : Node} (only : decl.IsOnlyNode nodes node) :
    node ∈ nodes ∧ decl.IsNode node := by
  have member : node ∈ nodes.filter fun node => decl.IsNode node :=
    only ▸ List.mem_singleton_self node
  simpa only [List.mem_filter, decide_eq_true_eq] using member

theorem mem_of_isOnlyFieldNode {decl : FieldDecl} {node : Node}
    (only : decl.IsOnlyNode nodes node) : node ∈ nodes := by
  have member : node ∈ nodes.filter fun node => decl.IsNode node :=
    only ▸ List.mem_singleton_self node
  exact (List.mem_filter.mp member).1

/-- **Completeness of member references.** A kept pass loses no resolved call
or access exactly when, for each of them, some instruction of the same caller
picks the resolved member's node in the very class that instruction names. -/
theorem referencesComplete_iff (methods : List MethodDecl) (fields : List FieldDecl)
    (distinct : (nodes.map Node.id).Nodup) :
    ReferencesComplete settings nodes classes methods fields ↔
      ∀ outcome, Kept settings nodes classes outcome →
        (∀ body inv node, CallsMember settings nodes classes methods body inv node →
          PickedCall settings nodes classes body.caller node) ∧
        ∀ body access node, AccessesMember settings nodes classes fields body access node →
          PickedAccess settings nodes classes (accessType access) body.caller node := by
  refine forall₂_congr fun outcome kept => and_congr ?_ ?_
  · refine forall₃_congr fun body inv node => forall_congr' fun resolved => ?_
    obtain ⟨_, _, _, _, _, _, _, _, only⟩ := resolved
    rw [kept.has_calls]
    constructor
    · rintro ⟨other, walked, same, call, called, static, picked, picks, named⟩
      obtain rfl := List.inj_on_of_nodup_map distinct picks.key.1 (mem_of_isOnlyNode only).1 named
      exact ⟨other, walked, same, call, called, static, picks⟩
    · rintro ⟨other, walked, same, call, called, static, picks⟩
      exact ⟨other, walked, same, call, called, static, node, picks, rfl⟩
  · refine forall₃_congr fun body access node => forall_congr' fun resolved => ?_
    obtain ⟨_, _, _, _, _, only⟩ := resolved
    have typed : accessType access = .reads ∨ accessType access = .writes := by
      unfold accessType
      split
      · exact Or.inl rfl
      · exact Or.inr rfl
    rw [kept.has_access typed]
    constructor
    · rintro ⟨other, walked, same, call, called, accessed, picked, picks, named⟩
      obtain rfl := List.inj_on_of_nodup_map distinct (List.mem_of_find?_eq_some picks.2)
        (mem_of_isOnlyFieldNode only) named
      exact ⟨other, walked, same, call, called, accessed, picks⟩
    · rintro ⟨other, walked, same, call, called, accessed, picks⟩
      exact ⟨other, walked, same, call, called, accessed, node, picks, rfl⟩

end Completeness

section Samples

/-- `A` declares `f(String)`, `g()` and a field `n`; its subclass `B` declares
`f(int)`; `C.run(B b)` makes the calls `b.f("")` and `b.g()` and reads `b.n`. -/
def inheritedNodes : List Node :=
  [sampleClass "demo.A" "A.java",
   sampleMethod "demo.A" "f" "(String x)" ["String"] "A.java" .method,
   sampleMethod "demo.A" "g" "()" [] "A.java" .method,
   sampleClass "demo.B" "B.java",
   sampleMethod "demo.B" "f" "(int x)" ["int"] "B.java" .method,
   sampleClass "demo.C" "C.java",
   sampleMethod "demo.C" "run" "(B b)" ["B"] "C.java" .method]

theorem demoA_f_plain : '#' ∉ "demo.A".toList ∧ '#' ∉ "f".toList := by decide

theorem demoB_f_plain : '#' ∉ "demo.B".toList ∧ '#' ∉ "f".toList := by decide

/-- The methods these sources declare. -/
def inheritedDecls : List MethodDecl :=
  [⟨"demo.A", "f", ["Ljava/lang/String;"], ["String"], demoA_f_plain⟩,
   ⟨"demo.A", "g", [], [], by decide⟩,
   ⟨"demo.B", "f", ["I"], ["int"], demoB_f_plain⟩,
   ⟨"demo.C", "run", ["Ldemo/B;"], ["B"], by decide⟩]

/-- The compiled `C.run`: javac names the static type of the receiver. -/
def inheritedRun : MethodInfo where
  name := "run"
  descriptor := "(Ldemo/B;)V"
  accessFlags := 0x0001
  invocations :=
    [⟨.invokevirtual, "demo.B", "f", "(Ljava/lang/String;)V", 3⟩,
     ⟨.invokevirtual, "demo.B", "g", "()V", 4⟩]
  startLine := 3
  endLine := 5

/-- The compiled classes. -/
def inheritedClasses : List ClassInfo :=
  [sampleInfo "demo.A" "java.lang.Object" []
     [{ name := "f", descriptor := "(Ljava/lang/String;)V", accessFlags := 0x0001 },
      { name := "g", descriptor := "()V", accessFlags := 0x0001 }],
   sampleInfo "demo.B" "demo.A" []
     [{ name := "f", descriptor := "(I)V", accessFlags := 0x0001 }],
   sampleInfo "demo.C" "java.lang.Object" [] [inheritedRun]]

/-- The pass over these classes is kept. -/
theorem inherited_kept : Kept sampleSettings inheritedNodes inheritedClasses
    (keptOutcome sampleSettings inheritedNodes inheritedClasses) :=
  Kept.of_guards (by decide +kernel)

/-- The walked body of `C.run`. -/
def inheritedBody : Body where
  info := sampleInfo "demo.C" "java.lang.Object" [] [inheritedRun]
  owner :=
    { own := some (plainId "demo" "demo.C" "class"), classId := plainId "demo" "demo.C" "class",
      fqn := "demo.C", file := "C.java" }
  method := inheritedRun
  caller := plainId "demo" "demo.C#run(B b)" "method"

/-- `C.run` is walked. -/
theorem inheritedBody_walked :
    inheritedBody ∈ bodies sampleSettings (NodeIndex.build inheritedNodes) inheritedClasses := by
  decide +kernel

/-- The call `b.f("")` selects `A.f(String)`, and its edge ends at `B.f(int)`. -/
theorem inherited_unsound : OneNodeEach inheritedNodes inheritedDecls ∧
    ¬ CallsSound sampleSettings inheritedNodes inheritedClasses inheritedDecls := by
  refine ⟨by decide +kernel, fun sound => ?_⟩
  let inv : Invocation := ⟨.invokevirtual, "demo.B", "f", "(Ljava/lang/String;)V", 3⟩
  have emitted : EmitsCall sampleSettings inheritedNodes inheritedClasses
      (keptOutcome sampleSettings inheritedNodes inheritedClasses) inheritedBody inv
      (plainId "demo" "demo.B#f(int x)" "method") :=
    EmitsCall.of_matched inherited_kept inheritedBody_walked (by decide) (by decide)
      (by decide +kernel)
  obtain ⟨params, parsed, decl, selected, node, present, isNode, same⟩ :=
    sound _ inherited_kept inheritedBody inv _ emitted
  obtain ⟨declared, named, typed⟩ := selected.spec
  have spelled : params = ["Ljava/lang/String;".toList] :=
    Option.some.inj (parsed.symm.trans (by decide +kernel))
  have mismatch : ∀ decl ∈ inheritedDecls, decl.params = ["Ljava/lang/String;".toList] →
      ∀ node ∈ inheritedNodes, decl.IsNode node →
        node.id ≠ plainId "demo" "demo.B#f(int x)" "method" := by
    decide +kernel
  exact mismatch decl declared (typed.trans spelled) node present isNode same

/-- The call `b.g()` resolves to `A.g()`, and no edge is emitted for it. -/
theorem inherited_incomplete :
    ¬ ReferencesComplete sampleSettings inheritedNodes inheritedClasses inheritedDecls [] := by
  intro complete
  let inv : Invocation := ⟨.invokevirtual, "demo.B", "g", "()V", 4⟩
  let decl : MethodDecl := ⟨"demo.A", "g", [], [], by decide⟩
  have inherited : DeclaredIn inheritedDecls "g" [] decl "demo.A" := by
    refine ⟨by decide, by decide +kernel, rfl, rfl⟩
  have absent : ¬ Declares inheritedDecls "g" [] "demo.B" := by
    rintro ⟨other, member, owned, named, _⟩
    have mismatch : ∀ other ∈ inheritedDecls, other.name = "g".toList →
        other.cls ≠ binaryToSourceFqn "demo.B" := by
      decide +kernel
    exact mismatch other member named owned
  have above : HasSuperclass inheritedClasses "demo.B" "demo.A" :=
    ⟨by decide, by decide⟩
  have resolved : Resolves inheritedClasses inheritedDecls "demo.B" "g" [] decl := by
    refine ⟨"demo.A".toList, ?_, inherited⟩
    unfold ResolvesIn
    rw [if_neg (by decide)]
    refine Or.inl ⟨1, ⟨"demo.A".toList, above, rfl⟩, ⟨decl, inherited⟩, ?_⟩
    intro fewer below other reached
    obtain rfl := Nat.lt_one_iff.mp below
    exact reached ▸ absent
  have calls : CallsMember sampleSettings inheritedNodes inheritedClasses inheritedDecls
      inheritedBody inv (sampleMethod "demo.A" "g" "()" [] "A.java" .method) :=
    ⟨inheritedBody_walked, by decide, by decide, by decide +kernel, [], by decide, decl, resolved,
      by unfold MethodDecl.IsOnlyNode; decide +kernel⟩
  have emitted := (complete _ inherited_kept).1 inheritedBody inv _ calls
  have missing : ¬ Kept.HasEdge (keptOutcome sampleSettings inheritedNodes inheritedClasses)
      (.calls, inheritedBody.caller, plainId "demo" "demo.A#g()" "method") := by
    unfold Kept.HasEdge
    decide +kernel
  exact missing emitted

/-- `A` declares `f(String)`, `f(int)`, `g()` and a field `n`; `C.run(A a)` makes the calls
`a.f("")` and `a.g()` and reads `a.n`. -/
def directNodes : List Node :=
  [sampleClass "demo.A" "A.java",
   sampleMethod "demo.A" "f" "(String x)" ["String"] "A.java" .method,
   sampleMethod "demo.A" "f" "(int x)" ["int"] "A.java" .method,
   sampleMethod "demo.A" "g" "()" [] "A.java" .method,
   { sampleMethod "demo.A" "n" "" [] "A.java" .field with label := .field, fqn := "demo.A.n" },
   sampleClass "demo.C" "C.java",
   sampleMethod "demo.C" "run" "(A a)" ["A"] "C.java" .method]

/-- The methods these sources declare. -/
def directDecls : List MethodDecl :=
  [⟨"demo.A", "f", ["Ljava/lang/String;"], ["String"], demoA_f_plain⟩,
   ⟨"demo.A", "f", ["I"], ["int"], demoA_f_plain⟩,
   ⟨"demo.A", "g", [], [], by decide⟩,
   ⟨"demo.C", "run", ["Ldemo/A;"], ["A"], by decide⟩]

/-- The field. -/
def directField : FieldDecl where
  cls := "demo.A"
  name := "n"

/-- The compiled `C.run`. -/
def directRun : MethodInfo where
  name := "run"
  descriptor := "(Ldemo/A;)V"
  accessFlags := 0x0001
  invocations :=
    [⟨.invokevirtual, "demo.A", "f", "(Ljava/lang/String;)V", 3⟩,
     ⟨.invokevirtual, "demo.A", "g", "()V", 4⟩]
  fieldAccesses := [⟨.getfield, "demo.A", "n", "I", 5⟩]
  startLine := 3
  endLine := 6

/-- The compiled classes. -/
def directClasses : List ClassInfo :=
  [sampleInfo "demo.A" "java.lang.Object" []
     [{ name := "f", descriptor := "(Ljava/lang/String;)V", accessFlags := 0x0001 },
      { name := "f", descriptor := "(I)V", accessFlags := 0x0001 },
      { name := "g", descriptor := "()V", accessFlags := 0x0001 }],
   sampleInfo "demo.C" "java.lang.Object" [] [directRun]]

theorem directNodes_distinct : (directNodes.map Node.id).Nodup := by decide +kernel

theorem direct_kept : Kept sampleSettings directNodes directClasses
    (keptOutcome sampleSettings directNodes directClasses) :=
  Kept.of_guards (by decide +kernel)

/-- Each call names the class of a declared method with its name and descriptors. -/
theorem direct_declared :
    ∀ body ∈ bodies sampleSettings (NodeIndex.build directNodes) directClasses,
      ∀ inv ∈ body.method.invocations, ∃ decl ∈ directDecls,
        decl.name = inv.name ∧ descriptorParamTypes inv.descriptor = some decl.params ∧
          decl.cls = binaryToSourceFqn inv.owner := by
  decide +kernel

/-- The lookup finds the node of a method with the name and the descriptors of a call. -/
theorem direct_picked :
    ∀ body ∈ bodies sampleSettings (NodeIndex.build directNodes) directClasses,
      ∀ inv ∈ body.method.invocations, ∀ decl ∈ directDecls, decl.name = inv.name →
        descriptorParamTypes inv.descriptor = some decl.params →
          ∃ node ∈ directNodes, decl.IsNode node ∧
            (NodeIndex.build directNodes).methodId inv.owner inv.name inv.descriptor =
              some node.id := by
  decide +kernel

/-- Every node of a method with the name and the descriptors of a call is picked for it. -/
theorem direct_picks {body : Body} {inv : Invocation} {decl : MethodDecl} {node : Node}
    (walked : body ∈ bodies sampleSettings (NodeIndex.build directNodes) directClasses)
    (called : inv ∈ body.method.invocations) (declared : decl ∈ directDecls)
    (named : decl.name = inv.name)
    (typed : descriptorParamTypes inv.descriptor = some decl.params)
    (only : decl.IsOnlyNode directNodes node) :
    Picks directNodes inv.owner inv.name inv.descriptor node := by
  obtain ⟨other, present, isNode, found⟩ :=
    direct_picked body walked inv called decl declared named typed
  obtain ⟨picked, picks, same⟩ := methodId_build_eq_some.mp found
  obtain rfl := List.inj_on_of_nodup_map directNodes_distinct picks.key.1 present same
  have alone : picked ∈ directNodes.filter fun node => decl.IsNode node :=
    List.mem_filter.mpr ⟨present, decide_eq_true isNode⟩
  rw [only, List.mem_singleton] at alone
  exact alone ▸ picks

/-- Where the calls name the declaring classes, their edges end at the selected methods, those
of overloads too. -/
theorem direct_callsSound : Kept sampleSettings directNodes directClasses
      (keptOutcome sampleSettings directNodes directClasses) ∧
    CallsSound sampleSettings directNodes directClasses directDecls := by
  refine ⟨direct_kept, (callsSound_iff directDecls directNodes_distinct).mpr ?_⟩
  intro outcome kept body walked inv called static node picks
  obtain ⟨decl, declared, named, typed, owned⟩ := direct_declared body walked inv called
  obtain ⟨other, present, isNode, found⟩ :=
    direct_picked body walked inv called decl declared named typed
  obtain ⟨picked, chosen, same⟩ := methodId_build_eq_some.mp found
  have one := (methodId_build_eq_some.mpr ⟨node, picks, rfl⟩).symm.trans found
  obtain rfl := List.inj_on_of_nodup_map directNodes_distinct picks.key.1 present
    (Option.some.inj one)
  exact ⟨decl.params, typed, decl, ⟨declared, owned, named, rfl⟩, isNode⟩

/-- And none of these calls and accesses is lost. -/
theorem direct_referencesComplete : Kept sampleSettings directNodes directClasses
      (keptOutcome sampleSettings directNodes directClasses) ∧
    ReferencesComplete sampleSettings directNodes directClasses directDecls [directField] := by
  refine ⟨direct_kept,
    (referencesComplete_iff directDecls [directField] directNodes_distinct).mpr ?_⟩
  intro outcome kept
  constructor
  · rintro body inv node ⟨walked, called, static, _, params, typed, decl, selected, only⟩
    obtain ⟨declared, named, rfl⟩ := selected.spec
    exact ⟨body, walked, rfl, inv, called, static,
      direct_picks walked called declared named typed only⟩
  · rintro body access node ⟨walked, accessed, _, decl, ⟨listed, named, _⟩, only⟩
    obtain rfl := List.mem_singleton.mp listed
    have found : ∀ body ∈ bodies sampleSettings (NodeIndex.build directNodes) directClasses,
        ∀ access ∈ body.method.fieldAccesses,
          ∃ node ∈ directNodes, directField.IsNode node ∧
            (NodeIndex.build directNodes).fieldId access.owner access.name = some node.id := by
      decide +kernel
    obtain ⟨other, present, isNode, same⟩ := found body walked access accessed
    obtain ⟨picked, picks, alike⟩ := fieldId_build_eq_some.mp same
    obtain rfl := List.inj_on_of_nodup_map directNodes_distinct
      (List.mem_of_find?_eq_some picks.2) present alike
    have alone : picked ∈ directNodes.filter fun node => directField.IsNode node :=
      List.mem_filter.mpr ⟨present, decide_eq_true isNode⟩
    rw [only, List.mem_singleton] at alone
    exact ⟨body, walked, rfl, access, accessed, rfl, alone ▸ picks⟩

end Samples

end GraphIngest.Bytecode
