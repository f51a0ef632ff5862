import GraphIngest.Bytecode.Matcher
import Mathlib.Logic.Relation

/-! # Source declarations and member resolution

What the program under ingestion declares, independently of any class file: its
methods and fields, each with its compiled parameter descriptors and with the
spellings the extractor records on its node. On top of it the resolution of a
member named by an instruction: superclasses before superinterfaces for a
method, superinterfaces before superclasses for a field, nearest first, and no
inheritance of constructors.
-/

namespace GraphIngest.Java

open Foundation Text Graph Bytecode

/-- A declared method: its class by source name, its name (`<init>` for a
constructor), its parameter descriptors as compiled, synthetic ones included, and
its parameter types as the extractor records them. -/
structure MethodDecl where
  cls : Str
  name : Str
  params : List Str
  types : List Str
  plain : '#' ∉ cls ∧ '#' ∉ name
deriving DecidableEq

/-- A declared field, by the source name of its class and its name. -/
structure FieldDecl where
  cls : Str
  name : Str
deriving DecidableEq

def MethodDecl.IsNode (decl : MethodDecl) (node : Node) : Prop :=
  node.label = .function ∧ node.fqn = methodFqn decl.cls (methodLookupName decl.cls decl.name) ∧
    node.paramCount = decl.types.length ∧ node.paramTypes = decl.types

instance (decl : MethodDecl) (node : Node) : Decidable (decl.IsNode node) :=
  inferInstanceAs (Decidable (_ ∧ _ ∧ _ ∧ _))

def FieldDecl.IsNode (decl : FieldDecl) (node : Node) : Prop :=
  node.label = .field ∧ node.fqn = fieldFqn decl.cls decl.name

instance (decl : FieldDecl) (node : Node) : Decidable (decl.IsNode node) :=
  inferInstanceAs (Decidable (_ ∧ _))

def MethodDecl.IsOnlyNode (decl : MethodDecl) (nodes : List Node) (node : Node) : Prop :=
  (nodes.filter fun node => decl.IsNode node) = [node]

def FieldDecl.IsOnlyNode (decl : FieldDecl) (nodes : List Node) (node : Node) : Prop :=
  (nodes.filter fun node => decl.IsNode node) = [node]

/-- Every declared method has exactly one node. -/
def OneNodeEach (nodes : List Node) (decls : List MethodDecl) : Prop :=
  ∀ decl ∈ decls, (nodes.filter fun node => decl.IsNode node).length = 1

instance (nodes : List Node) (decls : List MethodDecl) : Decidable (OneNodeEach nodes decls) :=
  inferInstanceAs (Decidable (∀ decl ∈ decls, _))

/-- The node of a declared method carries its class and its lookup name. -/
theorem MethodDecl.IsNode.methodKey {decl : MethodDecl} {node : Node} (isNode : decl.IsNode node) :
    NodeIndex.methodKey node = some (decl.cls, methodLookupName decl.cls decl.name) := by
  refine methodKey_eq_some.mpr ⟨isNode.1, isNode.2.1, ?_⟩
  unfold methodLookupName
  split
  · exact fun member => decl.plain.1 (mem_of_mem_afterLast member)
  · exact decl.plain.2

section Headers

variable (classes : List ClassInfo)

/-- One step to the superclass named in a parsed header. -/
def HasSuperclass (binary superName : Str) : Prop :=
  superName ≠ [] ∧ ∃ info ∈ classes, info.name = binary ∧ info.superName = superName

/-- One step to an interface named in a parsed header. -/
def HasInterface (binary interface : Str) : Prop :=
  interface ≠ [] ∧ ∃ info ∈ classes, info.name = binary ∧ interface ∈ info.interfaces

/-- One step to a supertype named in a parsed header. -/
def HasSupertype (binary ancestor : Str) : Prop :=
  HasSuperclass classes binary ancestor ∨ HasInterface classes binary ancestor

end Headers

/-- A given number of steps of a relation. -/
def Steps {α : Type*} (step : α → α → Prop) : Nat → α → α → Prop
  | 0, first, last => first = last
  | count + 1, first, last => ∃ next, step first next ∧ Steps step count next last

/-- The nearest point of a relation at which a property holds. -/
def Nearest {α : Type*} (step : α → α → Prop) (holds : α → Prop) (start point : α) : Prop :=
  ∃ count, Steps step count start point ∧ holds point ∧
    ∀ fewer < count, ∀ other, Steps step fewer start other → ¬ holds other

/-- A start that has the property is the nearest point. -/
theorem nearest_self {α : Type*} {step : α → α → Prop} {holds : α → Prop} {start : α}
    (here : holds start) : Nearest step holds start start :=
  ⟨0, rfl, here, fun _ fewer => (Nat.not_lt_zero _ fewer).elim⟩

section Resolution

variable (classes : List ClassInfo)

/-- A method with this name and these parameters declared in a class. -/
def DeclaredIn (decls : List MethodDecl) (name : Str) (params : List Str) (decl : MethodDecl)
    (binary : Str) : Prop :=
  decl ∈ decls ∧ decl.cls = binaryToSourceFqn binary ∧ decl.name = name ∧ decl.params = params

/-- Whether a class declares a method with this name and these parameters. -/
def Declares (decls : List MethodDecl) (name : Str) (params : List Str) (binary : Str) : Prop :=
  ∃ decl, DeclaredIn decls name params decl binary

/-- The class in which method resolution from an owner ends. -/
def ResolvesIn (decls : List MethodDecl) (owner name : Str) (params : List Str)
    (binary : Str) : Prop :=
  if name = "<init>".toList then Declares decls name params owner ∧ binary = owner
  else
    Nearest (HasSuperclass classes) (Declares decls name params) owner binary ∨
      (∀ count other, Steps (HasSuperclass classes) count owner other →
          ¬ Declares decls name params other) ∧
        Nearest (HasSupertype classes) (Declares decls name params) owner binary

/-- Method resolution: the method an instruction selects. -/
def Resolves (decls : List MethodDecl) (owner name : Str) (params : List Str)
    (decl : MethodDecl) : Prop :=
  ∃ binary, ResolvesIn classes decls owner name params binary ∧
    DeclaredIn decls name params decl binary

/-- The class in which field resolution ends: the owner, its superinterfaces,
and then the same from its superclass. -/
inductive FieldResolvesIn (holds : Str → Prop) : Str → Str → Prop
  | here {owner} (declares : holds owner) : FieldResolvesIn holds owner owner
  | interface {owner next binary} (absent : ¬ holds owner)
      (above : HasInterface classes owner next) (found : FieldResolvesIn holds next binary) :
      FieldResolvesIn holds owner binary
  | superclass {owner next binary} (absent : ¬ holds owner)
      (noInterface : ∀ interface, HasInterface classes owner interface →
        ∀ ancestor, Relation.ReflTransGen (HasInterface classes) interface ancestor →
          ¬ holds ancestor)
      (above : HasSuperclass classes owner next) (found : FieldResolvesIn holds next binary) :
      FieldResolvesIn holds owner binary

def ResolvesField (fields : List FieldDecl) (owner name : Str) (decl : FieldDecl) : Prop :=
  decl ∈ fields ∧ decl.name = name ∧ ∃ binary,
    FieldResolvesIn classes
      (fun binary => ∃ other ∈ fields, other.cls = binaryToSourceFqn binary ∧ other.name = name)
      owner binary ∧ decl.cls = binaryToSourceFqn binary

variable {classes}

/-- A method declared in the owner itself is the one selected. -/
theorem resolves_of_declaredIn {decls : List MethodDecl} {owner name : Str} {params : List Str}
    {decl : MethodDecl} (declared : DeclaredIn decls name params decl owner) :
    Resolves classes decls owner name params decl := by
  refine ⟨owner, ?_, declared⟩
  unfold ResolvesIn
  split
  · exact ⟨⟨decl, declared⟩, rfl⟩
  · exact Or.inl (nearest_self ⟨decl, declared⟩)

/-- The selected method has the name and the parameters of the instruction. -/
theorem Resolves.spec {decls : List MethodDecl} {owner name : Str} {params : List Str}
    {decl : MethodDecl} (selected : Resolves classes decls owner name params decl) :
    decl ∈ decls ∧ decl.name = name ∧ decl.params = params := by
  obtain ⟨_, _, member, _, named, typed⟩ := selected
  exact ⟨member, named, typed⟩

end Resolution

end GraphIngest.Java
