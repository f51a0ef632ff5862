import GraphIngest.Bytecode.ClassFile
import GraphIngest.Foundation.Dict
import GraphIngest.Graph.Record
import Mathlib.Data.Rat.Defs

/-! # Matching class-file members onto extracted nodes

A class file names a member by binary class name, method name and descriptor; a
node has a source name, a parameter count and the parameter types as written.
The matcher reconciles the two by lookup in an index over the extracted nodes.
The index is proved equal to plain filters of the node list, so that every
lookup can be read off the nodes themselves.
-/

namespace GraphIngest.Bytecode

open Foundation Text Graph

section Names

/-- A binary class name as a source name, empty for an anonymous class. -/
def binaryToSourceFqn (binaryName : Str) : Str :=
  if '$' ∉ binaryName then binaryName
  else if isdigit (afterLast '$' binaryName) then []
  else replaceLetter '$' '.' binaryName

/-- A type spelling without generics, array brackets, varargs dots and
qualifiers. -/
def normalizeType (raw : Str) : Str :=
  afterLast '$' (afterLast '.' (strip
    (replaceAll ['.', '.', '.'] [] (replaceAll ['[', ']'] [] (beforeFirst '<' raw)))))

/-- The normalized parameter types of a descriptor, none when it is malformed. -/
def descriptorSimpleTypes (descriptor : Str) : Option (List Str) :=
  (descriptorParamTypes descriptor).map fun types => types.map fun type =>
    normalizeType (typeName type)

/-- The node name of a class-file method: constructors are named after their
class. -/
def methodLookupName (sourceFqn methodName : Str) : Str :=
  if methodName = "<init>".toList then simpleName sourceFqn else methodName

def methodFqn (classFqn name : Str) : Str := classFqn ++ '#' :: name

def fieldFqn (classFqn name : Str) : Str := classFqn ++ '.' :: name

end Names

/-- How many class-file members went where. -/
structure MatchStats where
  matchedMethods : Nat := 0
  matchedFields : Nat := 0
  unmatchedClass : Nat := 0
  unmatchedMethod : Nat := 0
  unmatchedField : Nat := 0
  implicitDefaultCtor : Nat := 0
  ambiguousMethod : Nat := 0
  anonymousClass : Nat := 0
  lambdaBody : Nat := 0
  classInitializer : Nat := 0
  skippedSynthetic : Nat := 0
deriving DecidableEq, Repr

/-- Methods pinned to a node, over those that should have been; `0` when there
were none. -/
def MatchStats.matchRate (stats : MatchStats) : ℚ :=
  let missed := stats.unmatchedMethod + stats.unmatchedClass + stats.ambiguousMethod
  let total := stats.matchedMethods + missed
  if total = 0 then 0 else (stats.matchedMethods : ℚ) / (total : ℚ)

/-- Lookup over the extracted nodes, keyed the way a class file can ask. -/
structure NodeIndex where
  methods : Dict (Str × Str × Nat) (List (NodeId × List Str)) := Dict.empty
  classes : Dict Str NodeId := Dict.empty
  fields : Dict Str NodeId := Dict.empty
  file : Dict NodeId Str := Dict.empty
  hasCtor : List Str := []

namespace NodeIndex

/-- The class and the name in a method node's fqn. -/
def methodKey (node : Node) : Option (Str × Str) :=
  if node.label = .function then rpartition '#' node.fqn else none

/-- Enter one node. -/
def add (index : NodeIndex) (node : Node) : NodeIndex where
  classes :=
    if node.label = .cls then index.classes.setdefault node.fqn node.id else index.classes
  fields :=
    if node.label = .field then index.fields.setdefault node.fqn node.id else index.fields
  methods :=
    match methodKey node with
    | some (classFqn, name) =>
        index.methods.append (classFqn, name, node.paramCount) (node.id, node.paramTypes)
    | none => index.methods
  hasCtor :=
    match methodKey node with
    | some (classFqn, _) =>
        if node.kind = .constructor then classFqn :: index.hasCtor else index.hasCtor
    | none => index.hasCtor
  file := if node.file ≠ [] then index.file.set node.id node.file else index.file

/-- Enter the nodes in order. -/
def build (nodes : List Node) : NodeIndex := nodes.foldl add {}

/-- The Class node of a binary class name. -/
def classId (index : NodeIndex) (binaryName : Str) : Option NodeId :=
  let sourceFqn := binaryToSourceFqn binaryName
  if sourceFqn = [] then none else index.classes.get? sourceFqn

/-- The Field node of a field named by an instruction. -/
def fieldId (index : NodeIndex) (binaryOwner fieldName : Str) : Option NodeId :=
  let sourceFqn := binaryToSourceFqn binaryOwner
  if sourceFqn = [] then none else index.fields.get? (fieldFqn sourceFqn fieldName)

/-- The file of a node, empty when it has none. -/
def fileOf (index : NodeIndex) (id : NodeId) : Str := index.file.getD id []

/-- How a method lookup ends. -/
inductive Match
  | anonymousClass | malformed | unmatchedClass | implicitDefaultCtor | unmatchedMethod
  | ambiguous | matched (id : NodeId)
deriving DecidableEq, Repr

/-- The candidates spelled like the wanted parameter types. -/
def exact (wanted : List Str) (candidates : List (NodeId × List Str)) : List (NodeId × List Str) :=
  candidates.filter fun candidate => candidate.2.map normalizeType = wanted

/-- The lookup of a class-file method: arity first, then, among several
candidates, the parameter types. -/
def matchMethod (index : NodeIndex) (binaryOwner methodName descriptor : Str) : Match :=
  let sourceFqn := binaryToSourceFqn binaryOwner
  if sourceFqn = [] then .anonymousClass
  else
    match descriptorParamTypes descriptor with
    | none => .malformed
    | some types =>
        match index.methods.getD (sourceFqn, methodLookupName sourceFqn methodName, types.length)
            [] with
        | [] =>
            if index.classes.get? sourceFqn = none then .unmatchedClass
            else if methodName = "<init>".toList ∧ types.length = 0 ∧
                sourceFqn ∉ index.hasCtor then .implicitDefaultCtor
            else .unmatchedMethod
        | [candidate] => .matched candidate.1
        | candidates =>
            match exact (types.map fun type => normalizeType (typeName type)) candidates with
            | [candidate] => .matched candidate.1
            | _ => .ambiguous

/-- The node a class-file method is pinned to. -/
def methodId (index : NodeIndex) (binaryOwner methodName descriptor : Str) : Option NodeId :=
  match index.matchMethod binaryOwner methodName descriptor with
  | .matched id => some id
  | _ => none

/-- The node of the method in an ancestor class that a method overrides. -/
def overrideTarget (index : NodeIndex) (ancestorBinary methodName descriptor : Str) :
    Option NodeId :=
  let sourceFqn := binaryToSourceFqn ancestorBinary
  if sourceFqn = [] then none
  else
    match descriptorSimpleTypes descriptor with
    | none => none
    | some wanted =>
        match exact wanted (index.methods.getD
            (sourceFqn, methodLookupName sourceFqn methodName, wanted.length) []) with
        | [candidate] => some candidate.1
        | _ => none

end NodeIndex

/-- Count the end of a lookup. -/
def MatchStats.count (stats : MatchStats) : NodeIndex.Match → MatchStats
  | .anonymousClass => { stats with anonymousClass := stats.anonymousClass + 1 }
  | .malformed => stats
  | .unmatchedClass => { stats with unmatchedClass := stats.unmatchedClass + 1 }
  | .implicitDefaultCtor => { stats with implicitDefaultCtor := stats.implicitDefaultCtor + 1 }
  | .unmatchedMethod => { stats with unmatchedMethod := stats.unmatchedMethod + 1 }
  | .ambiguous => { stats with ambiguousMethod := stats.ambiguousMethod + 1 }
  | .matched _ => { stats with matchedMethods := stats.matchedMethods + 1 }

/-- Compiler inventions without a source counterpart; lambda bodies are not. -/
def shouldSkipMethod (method : MethodInfo) : Bool :=
  (method.isSynthetic || method.isBridge) && !method.isLambdaBody

/-- Whether a method can take part in an override relationship at all. -/
def canOverride (method : MethodInfo) : Bool :=
  !(method.isStatic || method.isPrivate || method.isConstructor || method.isClassInitializer ||
    method.isLambdaBody)

/-- Whether no extracted node can exist for a method. -/
def callerNeedsSynthesis (info : ClassInfo) (method : MethodInfo) : Bool :=
  info.isAnonymous || method.isLambdaBody || method.isClassInitializer

section Characterization

open NodeIndex

/-- The class and the name of a method node are cut out of its fqn. -/
theorem methodKey_eq_some {node : Node} {classFqn name : Str} :
    methodKey node = some (classFqn, name) ↔
      node.label = .function ∧ node.fqn = methodFqn classFqn name ∧ '#' ∉ name := by
  unfold methodKey methodFqn
  split
  · next isFunction => rw [rpartition_eq_some, and_iff_right isFunction]
  · next other => simp only [reduceCtorEq, other, false_and]

/-- The nodes a class-file method is looked up among: those with the class, the
name and the arity. -/
def methodNodes (nodes : List Node) (classFqn name : Str) (arity : Nat) : List Node :=
  nodes.filter fun node =>
    methodKey node = some (classFqn, name) ∧ node.paramCount = arity

/-- Membership among the candidates of a lookup. -/
theorem mem_methodNodes {nodes : List Node} {classFqn name : Str} {arity : Nat} {node : Node} :
    node ∈ methodNodes nodes classFqn name arity ↔
      node ∈ nodes ∧ methodKey node = some (classFqn, name) ∧ node.paramCount = arity := by
  simp only [methodNodes, List.mem_filter, decide_eq_true_eq]

/-- A node whose declared parameter types normalize to the wanted ones. -/
def spelledAs (wanted : List Str) (node : Node) : Bool :=
  node.paramTypes.map normalizeType = wanted

/-- The index holds the first Field node of each fqn. -/
theorem fields_build (nodes : List Node) (fqn : Str) :
    (build nodes).fields.get? fqn =
      (nodes.find? fun node => node.label = .field && decide (node.fqn = fqn)).map Node.id := by
  have projected : (build nodes).fields = nodes.foldl (fun dict node =>
      if (decide (node.label = .field)) = true then dict.setdefault node.fqn node.id else dict)
      Dict.empty :=
    (List.foldl_hom NodeIndex.fields fun index node => by
      simp only [add, decide_eq_true_eq]).symm
  rw [projected, Dict.get?_foldl_setdefault]
  exact Option.none_or

/-- The index holds, for each class, name and arity, the method nodes with them
in extraction order. -/
theorem methods_build (nodes : List Node) (classFqn name : Str) (arity : Nat) :
    (build nodes).methods.getD (classFqn, name, arity) [] =
      (methodNodes nodes classFqn name arity).map fun node => (node.id, node.paramTypes) := by
  have projected : (build nodes).methods = nodes.foldl (fun dict node =>
      if (methodKey node).isSome = true then
        dict.append (((methodKey node).getD ([], [])).1, ((methodKey node).getD ([], [])).2,
          node.paramCount) (node.id, node.paramTypes)
      else dict) Dict.empty :=
    (List.foldl_hom NodeIndex.methods fun index node => by
      cases key : methodKey node with
      | none => simp only [add, key, Option.isSome_none, Bool.false_eq_true, ↓reduceIte]
      | some parts =>
          simp only [add, key, Option.isSome_some, ↓reduceIte, Option.getD_some]).symm
  rw [projected, Dict.getD_foldl_append]
  have selects : (fun node : Node => (methodKey node).isSome &&
      decide ((((methodKey node).getD ([], [])).1, ((methodKey node).getD ([], [])).2,
        node.paramCount) = (classFqn, name, arity))) =
      fun node => decide (methodKey node = some (classFqn, name) ∧ node.paramCount = arity) := by
    funext node
    cases key : methodKey node with
    | none => simp only [Option.isSome_none, Bool.false_and, reduceCtorEq, false_and, decide_false]
    | some parts =>
        simp only [Option.isSome_some, Option.getD_some, Bool.true_and,
          Option.some.injEq, Prod.ext_iff, and_assoc]
  rw [selects]
  rfl

/-- The node a class-file method is pinned to: the only candidate, or among
several the only one spelled like the descriptor. -/
def Picks (nodes : List Node) (binaryOwner methodName descriptor : Str) (node : Node) : Prop :=
  binaryToSourceFqn binaryOwner ≠ [] ∧ ∃ types, descriptorParamTypes descriptor = some types ∧
    let candidates := methodNodes nodes (binaryToSourceFqn binaryOwner)
      (methodLookupName (binaryToSourceFqn binaryOwner) methodName) types.length
    candidates = [node] ∨ 1 < candidates.length ∧
      candidates.filter (spelledAs (types.map fun type => normalizeType (typeName type))) = [node]

/-- The ancestor's method a method overrides: the only candidate spelled like
the descriptor. -/
def OverridePicks (nodes : List Node) (ancestorBinary methodName descriptor : Str) (node : Node) :
    Prop :=
  binaryToSourceFqn ancestorBinary ≠ [] ∧ ∃ wanted, descriptorSimpleTypes descriptor = some wanted ∧
    (methodNodes nodes (binaryToSourceFqn ancestorBinary)
      (methodLookupName (binaryToSourceFqn ancestorBinary) methodName) wanted.length).filter
        (spelledAs wanted) = [node]

/-- The Field node of a field named by an instruction: the first with the fqn
of the field in the class named. -/
def FieldPicks (nodes : List Node) (binaryOwner fieldName : Str) (node : Node) : Prop :=
  binaryToSourceFqn binaryOwner ≠ [] ∧
    (nodes.find? fun node => node.label = .field &&
      decide (node.fqn = fieldFqn (binaryToSourceFqn binaryOwner) fieldName)) = some node

/-- **Field lookup.** A field is pinned to an id exactly when the lookup picks a
node with that id. -/
theorem fieldId_build_eq_some {nodes : List Node} {binaryOwner fieldName : Str} {id : NodeId} :
    (build nodes).fieldId binaryOwner fieldName = some id ↔
      ∃ node, FieldPicks nodes binaryOwner fieldName node ∧ node.id = id := by
  unfold fieldId FieldPicks
  by_cases anonymous : binaryToSourceFqn binaryOwner = []
  · simp only [anonymous, ↓reduceIte, reduceCtorEq, ne_eq, not_true, false_and, exists_false]
  · simp only [anonymous, ↓reduceIte, fields_build, Option.map_eq_some_iff, ne_eq,
      not_false_eq_true, true_and]

private theorem exact_map (wanted : List Str) (nodes : List Node) :
    exact wanted (nodes.map fun node => (node.id, node.paramTypes)) =
      (nodes.filter (spelledAs wanted)).map fun node => (node.id, node.paramTypes) := by
  rw [exact, List.filter_map]
  rfl

/-- **Method lookup.** A class-file method is pinned to an id exactly when the
lookup picks a node with that id. -/
theorem methodId_build_eq_some {nodes : List Node} {binaryOwner methodName descriptor : Str}
    {id : NodeId} :
    (build nodes).methodId binaryOwner methodName descriptor = some id ↔
      ∃ node, Picks nodes binaryOwner methodName descriptor node ∧ node.id = id := by
  unfold methodId matchMethod Picks
  by_cases anonymous : binaryToSourceFqn binaryOwner = []
  · simp only [anonymous, ↓reduceIte, reduceCtorEq, ne_eq, not_true, false_and, exists_false]
  simp only [anonymous, ↓reduceIte, ne_eq, not_false_eq_true, true_and]
  cases parsed : descriptorParamTypes descriptor with
  | none => simp only [reduceCtorEq, false_and, exists_false]
  | some types =>
      simp only [methods_build, Option.some.injEq, exists_eq_left']
      generalize methodNodes nodes (binaryToSourceFqn binaryOwner)
        (methodLookupName (binaryToSourceFqn binaryOwner) methodName) types.length = candidates
      cases candidates with
      | nil =>
          simp only [List.map_nil, reduceCtorEq, List.length_nil, Nat.not_lt_zero, false_and,
            or_self, exists_false, iff_false]
          split
          · next held =>
              split at held
              · cases held
              · split at held <;> cases held
          · exact Option.some_ne_none id ∘ Eq.symm
      | cons first rest =>
          cases rest with
          | nil =>
              simp only [List.map_cons, List.map_nil, Option.some.injEq, List.cons.injEq, and_true,
                List.length_cons, List.length_nil, Nat.lt_irrefl, false_and, or_false,
                exists_eq_left']
          | cons second others =>
              simp only [List.map_cons, List.cons.injEq, reduceCtorEq, and_false, List.length_cons,
                false_or]
              have several : 1 < others.length + 1 + 1 := by omega
              have mapped := exact_map (types.map fun type => normalizeType (typeName type))
                (first :: second :: others)
              simp only [List.map_cons] at mapped
              rw [mapped]
              simp only [several, true_and]
              cases found : List.filter (spelledAs (types.map fun type =>
                normalizeType (typeName type))) (first :: second :: others) with
              | nil => simp only [List.map_nil, reduceCtorEq, false_and, exists_false]
              | cons chosen more =>
                  cases more with
                  | nil => simp only [List.map_cons, List.map_nil, Option.some.injEq,
                      List.cons.injEq, and_true, exists_eq_left']
                  | cons another further => simp only [List.map_cons, reduceCtorEq,
                      List.cons.injEq, and_false, false_and, exists_false]

/-- **Override lookup.** The override target in an ancestor is an id exactly
when the only candidate spelled like the descriptor has that id. -/
theorem overrideTarget_build_eq_some {nodes : List Node}
    {ancestorBinary methodName descriptor : Str} {id : NodeId} :
    (build nodes).overrideTarget ancestorBinary methodName descriptor = some id ↔
      ∃ node, OverridePicks nodes ancestorBinary methodName descriptor node ∧ node.id = id := by
  unfold overrideTarget OverridePicks
  by_cases anonymous : binaryToSourceFqn ancestorBinary = []
  · simp only [anonymous, ↓reduceIte, reduceCtorEq, ne_eq, not_true, false_and, exists_false]
  simp only [anonymous, ↓reduceIte, ne_eq, not_false_eq_true, true_and]
  cases parsed : descriptorSimpleTypes descriptor with
  | none => simp only [reduceCtorEq, false_and, exists_false]
  | some wanted =>
      simp only [methods_build, exact_map, Option.some.injEq, exists_eq_left']
      cases found : (methodNodes nodes (binaryToSourceFqn ancestorBinary)
          (methodLookupName (binaryToSourceFqn ancestorBinary) methodName) wanted.length).filter
            (spelledAs wanted) with
      | nil => simp only [List.map_nil, reduceCtorEq, false_and, exists_false]
      | cons chosen rest =>
          cases rest with
          | nil => simp only [List.map_cons, List.map_nil, Option.some.injEq, List.cons.injEq,
              and_true, exists_eq_left']
          | cons another more => simp only [List.map_cons, reduceCtorEq, List.cons.injEq,
              and_false, false_and, exists_false]

/-- A picked node is a candidate of the lookup. -/
theorem Picks.mem {nodes : List Node} {binaryOwner methodName descriptor : Str} {node : Node}
    (picks : Picks nodes binaryOwner methodName descriptor node) :
    ∃ types, descriptorParamTypes descriptor = some types ∧
      node ∈ methodNodes nodes (binaryToSourceFqn binaryOwner)
        (methodLookupName (binaryToSourceFqn binaryOwner) methodName) types.length := by
  obtain ⟨_, types, parsed, only | ⟨_, chosen⟩⟩ := picks
  · exact ⟨types, parsed, only ▸ List.mem_singleton_self node⟩
  · exact ⟨types, parsed, (List.mem_filter.mp (chosen ▸ List.mem_singleton_self node)).1⟩

end Characterization

end GraphIngest.Bytecode
