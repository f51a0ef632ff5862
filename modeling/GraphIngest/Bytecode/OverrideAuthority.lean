import GraphIngest.Bytecode.Guards
import GraphIngest.Bytecode.HeadersInUse
import GraphIngest.Java.Generics

/-! # The authority of the override pass

A kept pass names the methods whose overrides it claims to know in full, and the
heuristic then skips them. The claim is compared with overriding by the Java
rules, which substitute type arguments before they erase.
-/

namespace GraphIngest.Bytecode

open Foundation Text Graph Java

section Authority

variable (settings : Settings) (nodes : List Node) (classes : List ClassInfo)

/-- A node other than that of a method, whose method lies in a class of the repository above
its own and is overridden by it under the Java rules. -/
structure OverriddenAbove (source : GenericSource nodes) (id : NodeId) (target : Node) : Prop where
  present : target ∈ nodes
  proper : target.id ≠ id
  overridable : Overridable target
  overrides : ∃ cls method above other, source.Declares id cls method ∧
    source.Declares target.id above other ∧
      ((NodeIndex.build nodes).classId above.binary).isSome ∧
        Relation.TransGen (HasSupertype classes) cls.binary above.binary ∧
          source.Overrides cls above method other

/-- Every override of a method claimed to be fully known is emitted. -/
def AuthorityComplete (source : GenericSource nodes) : Prop :=
  ∀ outcome, Kept settings nodes classes outcome →
    ∀ id ∈ outcome.report.authoritativeOverrideMethods, ∀ target,
      OverriddenAbove nodes classes source id target →
        Kept.HasEdge outcome (.overrides, id, target.id)

/-- The headers in use lead from the class of some body of a method to the class of a node, and
the node is the only one of its name there whose recorded types spell the erased parameters of
the body. -/
def LedTo (id : NodeId) (target : Node) : Prop :=
  ∃ body, Overrider settings (NodeIndex.build nodes) classes id body ∧ ∃ ancestor,
    Above (NodeIndex.build nodes) classes body.info.name ancestor ∧
      OverridePicks nodes ancestor body.method.name body.method.descriptor target

variable {settings nodes classes}

/-- A pair joins the method to where its headers lead. -/
theorem ledTo_iff {id : NodeId} {target : Node} (proper : target.id ≠ id) :
    LedTo settings nodes classes id target ↔ ∃ body ancestor, body.caller = id ∧
      PairedWith settings nodes classes body ancestor target := by
  constructor
  · rintro ⟨body, ⟨walked, rfl, named, able⟩, ancestor, above, picked⟩
    exact ⟨body, ancestor, rfl, walked, named, able, (ancestor_scanned _ _).mpr above, picked, proper⟩
  · rintro ⟨body, ancestor, rfl, pair⟩
    exact ⟨body, ⟨pair.walked, rfl, pair.named, pair.able⟩, ancestor,
      (ancestor_scanned _ _).mp pair.above, pair.picked⟩

/-- **Completeness of the authority.** A kept pass emits every override of the
methods it claims exactly when, for a pass that the guards let through, the headers lead from
each method whose ancestors are all known to every method it overrides. -/
theorem authorityComplete_iff (source : GenericSource nodes)
    (distinct : (nodes.map Node.id).Nodup) :
    AuthorityComplete settings nodes classes source ↔
      (Passes settings (NodeIndex.build nodes) classes →
        ∀ id, Vouched settings (NodeIndex.build nodes) classes id → ∀ target,
          OverriddenAbove nodes classes source id target →
            LedTo settings nodes classes id target) := by
  constructor
  · intro complete passes id vouched target overridden
    have kept := passes.kept
    have claimed := kept.mem_authoritative_iff.mpr vouched
    obtain ⟨body, ancestor, found, pair, caller, same⟩ :=
      kept.has_overrides_iff.mp (complete _ kept id claimed target overridden)
    have equal := List.inj_on_of_nodup_map distinct pair.keys.2.1 overridden.present same
    exact (ledTo_iff overridden.proper).mpr ⟨body, ancestor, caller, equal ▸ pair⟩
  · intro led outcome kept id claimed target overridden
    have vouched := kept.mem_authoritative_iff.mp claimed
    have reached := led (exists_kept_iff.mp ⟨outcome, kept⟩) id vouched target overridden
    obtain ⟨body, ancestor, caller, pair⟩ := (ledTo_iff overridden.proper).mp reached
    exact kept.has_overrides_iff.mpr ⟨body, ancestor, target, pair, caller, rfl⟩

/-- The headers lead to an overridden method with plain parameter types: the overrider was
compiled from its declaration, and the overridden method is the only one of its
class recorded with the simple names of its compiled types. -/
theorem ledTo_of_plain {source : GenericSource nodes} {id : NodeId} {cls above : GenericClass}
    {method other : GenericMethod} {body : Body} {target : Node}
    (overrider : Overrider settings (NodeIndex.build nodes) classes id body)
    (upward : Above (NodeIndex.build nodes) classes body.info.name above.binary)
    (declared : source.Declares target.id above other)
    (overrides : source.Overrides cls above method other)
    (plain : ∀ type ∈ other.formals, type.plain) (inRepo : binaryToSourceFqn above.binary ≠ [])
    (compiled : descriptorParamTypes body.method.descriptor = some method.decl.params)
    (only : ((methodNodes nodes (binaryToSourceFqn above.binary) body.method.name
      other.decl.params.length).filter
        (spelledAs (other.decl.params.map fun type => normalizeType (typeName type)))) = [target]) :
    LedTo settings nodes classes id target := by
  have same := overrides.params_eq declared plain
  have spelled : descriptorSimpleTypes body.method.descriptor =
      some (other.decl.params.map fun type => normalizeType (typeName type)) := by
    rw [descriptorSimpleTypes, compiled, Option.map_some, same]
  refine ⟨body, overrider, above.binary, upward, inRepo, _, spelled, ?_⟩
  rw [methodLookupName_of_canOverride overrider.2.2.2, List.length_map]
  exact only

/-- The interface `I<T>` declares `f(T)`, and `B` implements `I<String>` with
`f(String)`. -/
def genericNodes : List Node :=
  [{ sampleClass "demo.I" "I.java" with kind := .interface },
   sampleMethod "demo.I" "f" "(T x)" ["T"] "I.java" .method,
   sampleClass "demo.B" "B.java",
   sampleMethod "demo.B" "f" "(String x)" ["String"] "B.java" .method]

/-- The compiled classes, with the bridge that javac adds to `B`. -/
def genericClasses : List ClassInfo :=
  [{ name := "demo.I", superName := "java.lang.Object",
     methods := [{ name := "f", descriptor := "(Ljava/lang/Object;)V", accessFlags := 0x0401 }] },
   sampleInfo "demo.B" "java.lang.Object" ["demo.I"]
     [{ name := "f", descriptor := "(Ljava/lang/String;)V", accessFlags := 0x0001 },
      { name := "f", descriptor := "(Ljava/lang/Object;)V", accessFlags := 0x1041 }]]

def genericInterface : GenericClass where
  binary := "demo.I"
  typeParams := [("T", "Ljava/lang/Object;")]

def genericImplementation : GenericClass where
  binary := "demo.B"
  supers := [("demo.I", [.fixed "Ljava/lang/String;"])]

/-- The method of the interface. -/
def genericDeclared : GenericMethod where
  decl := ⟨"demo.I", "f", ["Ljava/lang/Object;"], ["T"], by decide⟩
  formals := [.parameter "T"]

/-- The method of the implementation. -/
def genericOverrider : GenericMethod where
  decl := ⟨"demo.B", "f", ["Ljava/lang/String;"], ["String"], demoB_f_plain⟩
  formals := [.fixed "Ljava/lang/String;"]

/-- The declarations behind these nodes. -/
def genericSource : GenericSource genericNodes where
  table := [genericInterface, genericImplementation]
  methods :=
    [(plainId "demo" "demo.I#f(T x)" "method", genericDeclared),
     (plainId "demo" "demo.B#f(String x)" "method", genericOverrider)]
  isNode := by decide +kernel
  erased := by decide +kernel

/-- `B.f(String)` overrides `I.f(T)`, the method of an interface above its class. -/
theorem overriddenAbove_generic :
    OverriddenAbove genericNodes genericClasses genericSource
      (plainId "demo" "demo.B#f(String x)" "method")
      (sampleMethod "demo.I" "f" "(T x)" ["T"] "I.java" .method) where
  present := List.mem_cons_of_mem _ List.mem_cons_self
  proper := by decide +kernel
  overridable := by decide +kernel
  overrides := by
    have interface : genericSource.Declares (plainId "demo" "demo.I#f(T x)" "method")
        genericInterface genericDeclared :=
      ⟨List.mem_cons_self, List.mem_cons_self, by decide +kernel⟩
    have implementation : genericSource.Declares (plainId "demo" "demo.B#f(String x)" "method")
        genericImplementation genericOverrider :=
      ⟨List.mem_cons_of_mem _ List.mem_cons_self, List.mem_cons_of_mem _ List.mem_cons_self,
        by decide +kernel⟩
    have seen : Sees genericSource.table genericImplementation genericInterface
        (genericInterface.bind [.fixed "Ljava/lang/String;"]) :=
      Sees.direct List.mem_cons_self List.mem_cons_self
    have above : Relation.TransGen (HasSupertype genericClasses) "demo.B" "demo.I" := by
      refine Relation.TransGen.single (Or.inr ⟨by decide, ?_⟩)
      exact ⟨_, List.mem_cons_of_mem _ List.mem_cons_self, rfl, List.mem_cons_self⟩
    exact ⟨genericImplementation, genericOverrider, genericInterface, genericDeclared,
      implementation, interface, by decide +kernel, above, by decide +kernel, _, seen,
      by decide +kernel⟩

/-- `B.f(String)` overrides `I.f(T)` and is claimed to be fully known, and the
pass emits no edge between them. -/
theorem generic_incomplete :
    ¬ AuthorityComplete sampleSettings genericNodes genericClasses genericSource := by
  intro complete
  have kept : Kept sampleSettings genericNodes genericClasses
      (keptOutcome sampleSettings genericNodes genericClasses) :=
    Kept.of_guards (by decide +kernel)
  have claimed : plainId "demo" "demo.B#f(String x)" "method" ∈
      (keptOutcome sampleSettings genericNodes
        genericClasses).report.authoritativeOverrideMethods := by
    decide +kernel
  have missing : ¬ Kept.HasEdge (keptOutcome sampleSettings genericNodes genericClasses)
      (.overrides, plainId "demo" "demo.B#f(String x)" "method",
        plainId "demo" "demo.I#f(T x)" "method") := by
    unfold Kept.HasEdge
    decide +kernel
  exact missing (complete _ kept _ claimed _ overriddenAbove_generic)

/-- `A` and its subclass `B` declare `f(String)`. -/
def stringNodes : List Node :=
  [sampleClass "demo.A" "A.java",
   sampleMethod "demo.A" "f" "(String x)" ["String"] "A.java" .method,
   sampleClass "demo.B" "B.java",
   sampleMethod "demo.B" "f" "(String x)" ["String"] "B.java" .method]

def stringMethod : MethodInfo where
  name := "f"
  descriptor := "(Ljava/lang/String;)V"
  accessFlags := 0x0001

/-- The compiled classes. -/
def stringClasses : List ClassInfo :=
  [sampleInfo "demo.A" "java.lang.Object" [] [stringMethod],
   sampleInfo "demo.B" "demo.A" [] [stringMethod]]

def stringBase : GenericClass where
  binary := "demo.A"

def stringDerived : GenericClass where
  binary := "demo.B"
  supers := [("demo.A", [])]

/-- The method of the base class. -/
def stringDeclared : GenericMethod where
  decl := ⟨"demo.A", "f", ["Ljava/lang/String;"], ["String"], demoA_f_plain⟩
  formals := [.fixed "Ljava/lang/String;"]

/-- The method of the subclass. -/
def stringOverrider : GenericMethod where
  decl := ⟨"demo.B", "f", ["Ljava/lang/String;"], ["String"], demoB_f_plain⟩
  formals := [.fixed "Ljava/lang/String;"]

/-- The declarations behind these nodes. -/
def stringSource : GenericSource stringNodes where
  table := [stringBase, stringDerived]
  methods :=
    [(plainId "demo" "demo.A#f(String x)" "method", stringDeclared),
     (plainId "demo" "demo.B#f(String x)" "method", stringOverrider)]
  isNode := by decide +kernel
  erased := by decide +kernel

/-- Nothing but `B` stands below another class of these. -/
theorem below_string {sub above : Str}
    (upward : Relation.TransGen (HasSupertype stringClasses) sub above) :
    sub = "demo.B".toList ∧ above = "demo.A".toList ∨ above = "java.lang.Object".toList := by
  have headers : ∀ info ∈ stringClasses, info.interfaces = [] ∧
      (info.name = "demo.A".toList ∧ info.superName = "java.lang.Object".toList ∨
        info.name = "demo.B".toList ∧ info.superName = "demo.A".toList) := by
    decide
  have step : ∀ first second, HasSupertype stringClasses first second →
      first = "demo.A".toList ∧ second = "java.lang.Object".toList ∨
        first = "demo.B".toList ∧ second = "demo.A".toList := by
    rintro first second (⟨_, info, listed, rfl, rfl⟩ | ⟨_, info, listed, rfl, inherited⟩)
    · exact (headers info listed).2
    · rw [(headers info listed).1] at inherited
      cases inherited
  induction upward with
  | single direct =>
      rcases step _ _ direct with base | derived
      · exact .inr base.2
      · exact .inl derived
  | tail _ direct ih =>
      rcases step _ _ direct with base | derived
      · exact .inr base.2
      · rcases ih with own | top
        · cases own.2.symm.trans derived.1
        · cases top.symm.trans derived.1

/-- The only override of these classes is that of `A.f` by `B.f`. -/
theorem eq_of_overridden_string {id : NodeId} {target : Node}
    (overridden : OverriddenAbove stringNodes stringClasses stringSource id target) :
    id = plainId "demo" "demo.B#f(String x)" "method" ∧
      target = sampleMethod "demo.A" "f" "(String x)" ["String"] "A.java" .method := by
  obtain ⟨cls, method, above, other, ⟨known, listed, owned⟩, ⟨knownToo, listedToo, ownedToo⟩, _,
    upward, _⟩ := overridden.overrides
  have declared : ∀ entry ∈ stringSource.methods,
      (entry.2.decl.cls = "demo.B".toList →
        entry.1 = plainId "demo" "demo.B#f(String x)" "method") ∧
      (entry.2.decl.cls = "demo.A".toList →
        entry.1 = plainId "demo" "demo.A#f(String x)" "method") := by
    decide +kernel
  have placed : ∀ node ∈ stringNodes, node.id = plainId "demo" "demo.A#f(String x)" "method" →
      node = sampleMethod "demo.A" "f" "(String x)" ["String"] "A.java" .method := by
    decide +kernel
  have inRepo : ∀ entry ∈ stringSource.table, entry.binary ≠ "java.lang.Object".toList := by
    decide
  rcases below_string upward with ⟨sub, super⟩ | top
  · rw [sub] at owned
    rw [super] at ownedToo
    exact ⟨(declared _ listed).1 owned,
      placed target overridden.present ((declared _ listedToo).2 ownedToo)⟩
  · exact (inRepo above knownToo top).elim

/-- `A.f` is declared in `A`. -/
theorem declares_string : stringSource.Declares (plainId "demo" "demo.A#f(String x)" "method")
    stringBase stringDeclared :=
  ⟨List.mem_cons_self, List.mem_cons_self, by decide +kernel⟩

/-- `B.f` overrides `A.f` by the Java rules. -/
theorem overrides_string :
    stringSource.Overrides stringDerived stringBase stringOverrider stringDeclared :=
  ⟨by decide, _, Sees.direct List.mem_cons_self List.mem_cons_self, by decide⟩

/-- `B.f` overrides `A.f`, the method of a class above its own. -/
theorem overriddenAbove_string :
    OverriddenAbove stringNodes stringClasses stringSource
      (plainId "demo" "demo.B#f(String x)" "method")
      (sampleMethod "demo.A" "f" "(String x)" ["String"] "A.java" .method) where
  present := List.mem_cons_of_mem _ List.mem_cons_self
  proper := by decide +kernel
  overridable := by decide +kernel
  overrides := by
    refine ⟨stringDerived, stringOverrider, stringBase, stringDeclared,
      ⟨List.mem_cons_of_mem _ List.mem_cons_self, List.mem_cons_of_mem _ List.mem_cons_self,
        by decide +kernel⟩,
      declares_string, by decide +kernel, ?_, overrides_string⟩
    refine Relation.TransGen.single (Or.inl ⟨by decide, ?_⟩)
    exact ⟨_, List.mem_cons_of_mem _ List.mem_cons_self, rfl, rfl⟩

/-- The authority over these classes is complete: it extends to `B.f`, which overrides `A.f`. -/
theorem string_authorityComplete :
    AuthorityComplete sampleSettings stringNodes stringClasses stringSource ∧
      Vouched sampleSettings (NodeIndex.build stringNodes) stringClasses
        (plainId "demo" "demo.B#f(String x)" "method") ∧
      OverriddenAbove stringNodes stringClasses stringSource
        (plainId "demo" "demo.B#f(String x)" "method")
        (sampleMethod "demo.A" "f" "(String x)" ["String"] "A.java" .method) := by
  have kept : Kept sampleSettings stringNodes stringClasses _ := Kept.of_guards (by decide +kernel)
  refine ⟨(authorityComplete_iff stringSource (by decide +kernel)).mpr ?_,
    kept.mem_authoritative_iff.mp (by decide +kernel), overriddenAbove_string⟩
  intro _ id vouched target overridden
  obtain ⟨rfl, rfl⟩ := eq_of_overridden_string overridden
  obtain ⟨body, overrider, _⟩ := vouched
  have own : ∀ body ∈ bodies sampleSettings (NodeIndex.build stringNodes) stringClasses,
      body.caller = plainId "demo" "demo.B#f(String x)" "method" →
        body.info.name = "demo.B".toList ∧ body.method = stringMethod := by
    decide +kernel
  obtain ⟨named, same⟩ := own body overrider.1 overrider.2.1
  refine ledTo_of_plain overrider ?_ declares_string overrides_string (by decide) (by decide) ?_ ?_
  · rw [named]
    exact Relation.TransGen.single ⟨by decide +kernel, by decide⟩
  · rw [same]
    decide +kernel
  · rw [same]
    decide +kernel

end Authority

end GraphIngest.Bytecode
