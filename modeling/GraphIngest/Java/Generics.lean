import GraphIngest.Java.Resolution

/-! # Generic supertypes and overriding

Parameter types up to what their erasure depends on: type arguments of a
parameter's own type never survive erasure, so a class type is just its
descriptor, and a type parameter of the method itself stands for its bound. A
class sees the members of an ancestor under the substitution that the type
arguments along the way compose to; it overrides a member when the names agree
and its erased parameters are the erased substituted ones.
-/

namespace GraphIngest.Java

open Foundation Text Graph Bytecode

/-- A parameter type: a type without type parameters by its descriptor, a type
parameter of the class, or an array. -/
inductive ParamType
  | fixed (descriptor : Str)
  | parameter (name : Str)
  | array (element : ParamType)
deriving DecidableEq

namespace ParamType

/-- Replace the type parameters. -/
def subst (env : Str → ParamType) : ParamType → ParamType
  | .fixed descriptor => .fixed descriptor
  | .parameter name => env name
  | .array element => .array (subst env element)

/-- The descriptor a type compiles to, given those of the bounds of the type
parameters. -/
def erase (bound : Str → Str) : ParamType → Str
  | .fixed descriptor => descriptor
  | .parameter name => bound name
  | .array element => '[' :: erase bound element

/-- Whether no type parameter occurs in a type. -/
def plain : ParamType → Bool
  | .fixed _ => true
  | .parameter _ => false
  | .array element => plain element

/-- A plain type is left alone by substitution. -/
theorem subst_of_plain {type : ParamType} (isPlain : type.plain) (env : Str → ParamType) :
    type.subst env = type := by
  induction type with
  | fixed descriptor => rfl
  | parameter name => cases isPlain
  | array element ih => rw [subst, ih isPlain]

/-- A plain type compiles to one descriptor, whatever the bounds. -/
theorem erase_of_plain {type : ParamType} (isPlain : type.plain) (bound other : Str → Str) :
    type.erase bound = type.erase other := by
  induction type with
  | fixed descriptor => rfl
  | parameter name => cases isPlain
  | array element ih => rw [erase, erase, ih isPlain]

end ParamType

/-- A declared class: its type parameters with their erased bounds, and its
supertypes with their type arguments, none for a raw one. -/
structure GenericClass where
  binary : Str
  typeParams : List (Str × Str) := []
  supers : List (Str × List ParamType) := []
deriving DecidableEq

namespace GenericClass

/-- The erased bound of a type parameter. -/
def bound (cls : GenericClass) (name : Str) : Str :=
  (cls.typeParams.lookup name).getD "Ljava/lang/Object;".toList

/-- The type arguments of a use of the class; those of a raw use are the
bounds. -/
def bind (cls : GenericClass) (args : List ParamType) (name : Str) : ParamType :=
  (((cls.typeParams.map Prod.fst).zip args).lookup name).getD (.fixed (cls.bound name))

end GenericClass

/-- A class sees an ancestor with these types for its type parameters. -/
inductive Sees (table : List GenericClass) :
    GenericClass → GenericClass → (Str → ParamType) → Prop
  | direct {cls above args} (known : above ∈ table) (listed : (above.binary, args) ∈ cls.supers) :
      Sees table cls above (above.bind args)
  | step {cls middle above args env} (known : middle ∈ table)
      (listed : (middle.binary, args) ∈ cls.supers) (further : Sees table middle above env) :
      Sees table cls above fun name => (env name).subst (middle.bind args)

/-- A declared method with the types of its parameters. -/
structure GenericMethod where
  decl : MethodDecl
  formals : List ParamType
deriving DecidableEq

/-- The classes and the methods behind the nodes. Every method node has the
shape of its declaration, and a method compiles to the erasure of its parameter
types. -/
structure GenericSource (nodes : List Node) where
  table : List GenericClass
  methods : List (NodeId × GenericMethod)
  isNode : ∀ node ∈ nodes, ∀ entry ∈ methods, entry.1 = node.id → entry.2.decl.IsNode node
  erased : ∀ cls ∈ table, ∀ entry ∈ methods, entry.2.decl.cls = binaryToSourceFqn cls.binary →
    entry.2.decl.params = entry.2.formals.map fun type => type.erase cls.bound

namespace GenericSource

variable {nodes : List Node}

/-- The method of a node and the class that declares it. -/
def Declares (source : GenericSource nodes) (id : NodeId) (cls : GenericClass)
    (method : GenericMethod) : Prop :=
  cls ∈ source.table ∧ (id, method) ∈ source.methods ∧
    method.decl.cls = binaryToSourceFqn cls.binary

/-- Overriding: the same name, and the erased parameters of the ancestor's method
as the class sees it. -/
def Overrides (source : GenericSource nodes) (cls above : GenericClass)
    (method other : GenericMethod) : Prop :=
  method.decl.name = other.decl.name ∧ ∃ env, Sees source.table cls above env ∧
    method.decl.params = other.formals.map fun type => (type.subst env).erase cls.bound

/-- A method that overrides one with plain parameters compiles to the same
descriptors. -/
theorem Overrides.params_eq {source : GenericSource nodes} {cls above : GenericClass}
    {method other : GenericMethod} {id : NodeId} (declared : source.Declares id above other)
    (overrides : source.Overrides cls above method other)
    (plain : ∀ type ∈ other.formals, type.plain) : method.decl.params = other.decl.params := by
  obtain ⟨_, env, _, typed⟩ := overrides
  obtain ⟨known, listed, owned⟩ := declared
  rw [typed, source.erased above known _ listed owned]
  refine List.map_congr_left fun type member => ?_
  rw [ParamType.subst_of_plain (plain type member)]
  exact ParamType.erase_of_plain (plain type member) _ _

end GenericSource

end GraphIngest.Java
