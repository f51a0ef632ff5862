import GraphIngest.Resolve.Route

/-! # Lookups of the name resolver

What the resolver looks up while it settles a reference: symbols by name, by
container and by file, the imports of a file, the package of a class, the
container chain and the ancestors of a class. Each lookup is stated by what it
returns from the nodes, the structural edges and the references; a lookup of a
single value returns the entry its loop leaves in the table.
-/

namespace GraphIngest.Resolve

open Foundation Text Graph

/-- What the resolver works on; of an edge it reads type and endpoints. -/
structure Corpus where
  nodes : List Node
  edges : List EdgeKey
  refs : List RawRef

namespace Corpus

variable (corpus : Corpus)

section Symbols

/-- The node of an id, the last one listed. -/
def nodeById (id : NodeId) : Option Node := corpus.nodes.reverse.find? fun node => node.id = id

/-- Classes and functions with a name. -/
def byName (name : Str) : List Node :=
  corpus.nodes.filter fun node =>
    (node.label = .cls ∨ node.label = .function) ∧ node.name = name

def functionsByName (name : Str) : List Node :=
  corpus.nodes.filter fun node => node.label = .function ∧ node.name = name

def classesByName (name : Str) : List Node :=
  corpus.nodes.filter fun node => node.label = .cls ∧ node.name = name

def filesByBasename (name : Str) : List Node :=
  corpus.nodes.filter fun node => node.label = .file ∧ node.name = name

/-- The class with an fqn, the first one listed. -/
def classByFqn (fqn : Str) : Option Node :=
  corpus.nodes.find? fun node => node.label = .cls ∧ node.fqn ≠ [] ∧ node.fqn = fqn

/-- The fqn of a node without its own name: the package of a class, the class of
a method. -/
def classPackage (node : Node) : Str :=
  if node.fqn = node.name ∨ ¬ ('.' :: node.name).isSuffixOf node.fqn then []
  else node.fqn.take (node.fqn.length - (node.name.length + 1))

/-- The package in the table for a class or function id. -/
def packageOf (id : NodeId) : Str :=
  ((corpus.nodes.reverse.find? fun node =>
    (node.label = .cls ∨ node.label = .function) ∧ node.id = id).map classPackage).getD []

/-- The container of a node: that of the last CONTAINS edge to it. -/
def parentOf (id : NodeId) : Option NodeId :=
  (corpus.edges.reverse.find? fun edge => edge.1 = .contains ∧ edge.2.2 = id).map fun edge =>
    edge.2.1

/-- Whether an id is that of a Class node. -/
def isClass (id : NodeId) : Bool :=
  match corpus.nodeById id with
  | some node => node.label = .cls
  | none => false

/-- Whether a node is contained in the Class node of an id. -/
def isMemberOf (owner : NodeId) (node : Node) : Bool :=
  corpus.parentOf node.id = some owner && corpus.isClass owner

/-- The methods a class declares under a name. -/
def methodsOfClass (owner : NodeId) (name : Str) : List Node :=
  corpus.nodes.filter fun node =>
    node.label = .function && decide (node.kind = .method) && decide (node.name = name) &&
      corpus.isMemberOf owner node

/-- The fields a class declares under a name. -/
def fieldsOfClass (owner : NodeId) (name : Str) : List Node :=
  corpus.nodes.filter fun node =>
    node.label = .field && decide (node.name = name) && corpus.isMemberOf owner node

/-- The module-level variables of a file under a name. -/
def fieldsOfFile (file name : Str) : List Node :=
  corpus.nodes.filter fun node =>
    node.label = .field ∧ node.scope = .module ∧ node.file ≠ [] ∧ node.file = file ∧
      node.name = name

/-- Classes and functions with a name in a container. -/
def byNameParent (name : Str) (parent : NodeId) : List Node :=
  (corpus.byName name).filter fun node => corpus.parentOf node.id = some parent

/-- Classes and functions with a name in a file. -/
def byNameFile (name file : Str) : List Node :=
  (corpus.byName name).filter fun node => node.file ≠ [] ∧ node.file = file

/-- The class around a node, looked for along the containers. Without a cycle there are no more
of them than edges; on a cycle without a class the source goes on for ever, and here the search
ends with nothing. -/
def enclosingClassFrom : Nat → Option NodeId → Option NodeId
  | 0, _ => none
  | _ + 1, none => none
  | fuel + 1, some current =>
      match corpus.nodeById current with
      | none => none
      | some node =>
          if node.label = .cls then some current
          else enclosingClassFrom fuel (corpus.parentOf current)

/-- The class around a node. -/
def enclosingClassId (id : NodeId) : Option NodeId :=
  corpus.enclosingClassFrom (corpus.edges.length + 1) (corpus.parentOf id)

end Symbols

section Imports

/-- The import references of a file. -/
def importRefs (file : Str) : List RawRef :=
  corpus.refs.filter fun ref => ref.type = .imports ∧ ref.refFile ≠ [] ∧ ref.refFile = file

/-- The simple names a file imports. -/
def importsOf (file : Str) : List Str :=
  ((corpus.importRefs file).filter fun ref =>
    ref.kindHint ≠ .importWildcard ∧ ref.targetName ≠ []).map fun ref => simpleName ref.targetName

/-- The full names a file imports. -/
def importFqnsOf (file : Str) : List Str :=
  ((corpus.importRefs file).filter fun ref =>
    ref.kindHint ≠ .importWildcard ∧ ref.importFqn ≠ []).map RawRef.importFqn

/-- The packages a file imports whole. -/
def wildcardPackagesOf (file : Str) : List Str :=
  ((corpus.importRefs file).filter fun ref =>
    ref.kindHint = .importWildcard ∧ ref.importFqn ≠ []).map RawRef.importFqn

/-- The last segments of the full names a file imports. -/
def importTailsOf (file : Str) : List Str :=
  ((corpus.importFqnsOf file).map simpleName).filter fun tail => tail ≠ []

def packageOfFile (file : Str) : Str :=
  ((corpus.nodes.reverse.find? fun node =>
    node.label = .file ∧ node.file ≠ [] ∧ node.file = file).map Node.package).getD []

end Imports

end Corpus

/-- The candidates one of whose fqn segments behind the first is an imported
tail. -/
def importQualifiedHits (candidates : List Node) (tails : List Str) : List Node :=
  candidates.filter fun node => (splitBy '.' node.fqn).tail.any fun segment => tails.contains segment

def firstNonempty {α : Type} : List (List α) → List α
  | [] => []
  | first :: rest => if first.isEmpty then firstNonempty rest else first

end GraphIngest.Resolve
