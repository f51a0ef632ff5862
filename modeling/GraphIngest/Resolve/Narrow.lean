import GraphIngest.Resolve.Index

/-! # Narrowing candidates

The ordered steps by which a call or a type reference is narrowed to candidates:
a step that finds nothing hands over to the next one. A call whose receiver type
is known and is no class of the repository has no candidate at all.
-/

namespace GraphIngest.Resolve

open Foundation Text Graph

/-- The candidates of a step with the strategy that found them. -/
abbrev Hit := List Node × Str

/-- The first step that finds something. -/
def firstHit (otherwise : Hit) : List Hit → Hit
  | [] => otherwise
  | hit :: rest => if hit.1.isEmpty then firstHit otherwise rest else hit

/-- Keep the candidates with the arity of the call, if there are any. -/
def applyArity (ref : RawRef) (hit : Hit) : Hit :=
  if ref.callArity < 0 then hit
  else
    let narrowed := hit.1.filter fun node => (node.paramCount : Int) = ref.callArity
    if narrowed.isEmpty then hit else (narrowed, hit.2 ++ "+arity".toList)

namespace Corpus

variable (corpus : Corpus)

section Ancestors

/-- The candidates of a type reference. -/
def narrowType (ref : RawRef) : Hit :=
  let pool := corpus.classesByName (simpleName ref.targetName)
  if pool.isEmpty then ([], "none")
  else if pool.length = 1 then (pool, "unique")
  else
    let file := ((corpus.nodeById ref.src).map Node.file).getD []
    if file = [] then (pool, "name")
    else
      let package := corpus.packageOfFile file
      firstHit (pool, "name")
        [(pool.filter fun node => node.file = file, "same_file"),
         (pool.filter fun node => (corpus.importFqnsOf file).contains node.fqn,
           "imports_qualified_exact"),
         (importQualifiedHits pool (corpus.importTailsOf file), "imports_qualified"),
         (if package = [] then [] else pool.filter fun node => corpus.packageOf node.id = package,
           "same_package"),
         (pool.filter fun node => (corpus.wildcardPackagesOf file).contains (corpus.packageOf node.id),
           "imports_wildcard"),
         (pool.filter fun node => (corpus.importsOf file).contains node.name, "imports")]

/-- The supertypes known for a class: the targets of its hierarchy edges, then
those of its hierarchy references with a single candidate. -/
def directSupers (cls : NodeId) : List NodeId :=
  let fromEdges := (corpus.edges.filter fun edge =>
    (edge.1 = .extends ∨ edge.1 = .implements) ∧ edge.2.1 = cls).map fun edge => edge.2.2
  let refs := corpus.refs.filter fun ref => ref.type = .extends ∨ ref.type = .implements
  refs.foldl (fun supers ref =>
    let source := if (corpus.nodeById ref.src).isSome then some ref.src
      else corpus.enclosingClassId ref.src
    if source = some cls ∧ corpus.isClass cls then
      match (corpus.narrowType ref).1 with
      | [node] => if node.id ≠ cls ∧ node.id ∉ supers then supers ++ [node.id] else supers
      | _ => supers
    else supers) fromEdges

/-- One level of the ancestor search: what it adds, and the next frontier. -/
def ancestorLevel (seen : List NodeId) (frontier : List NodeId) : List NodeId × List NodeId :=
  frontier.foldl (fun level cls =>
    if cls ∈ seen ∨ cls ∈ level.1 then level
    else (level.1 ++ [cls], level.2 ++ corpus.directSupers cls)) ([], [])

/-- The ancestors found level by level; each level but the last adds a class. -/
def ancestorsFrom : Nat → List NodeId → List NodeId → List NodeId
  | 0, _, _ => []
  | fuel + 1, seen, frontier =>
      if frontier.isEmpty then []
      else
        let level := corpus.ancestorLevel seen frontier
        level.1 ++ ancestorsFrom fuel (seen ++ level.1) level.2

/-- The ancestors of a class, nearest first. -/
def ancestorChain (cls : NodeId) : List NodeId :=
  corpus.ancestorsFrom (corpus.edges.length + corpus.refs.length + 2) [cls]
    (corpus.directSupers cls)

/-- The inherited methods with a name: for each class those of its nearest
ancestor that declares one. -/
def inheritedMembers (classIds : List NodeId) (name : Str) : List Node :=
  classIds.flatMap fun cls =>
    firstNonempty ((corpus.ancestorChain cls).map fun ancestor =>
      corpus.methodsOfClass ancestor name)

end Ancestors

section Calls

/-- The classes of one simple name that are visible from a file. -/
def narrowClassesForRecv (candidates : List Node) (file : Str) : List Node :=
  if candidates.length ≤ 1 ∨ file = [] then candidates
  else
    let package := corpus.packageOfFile file
    firstNonempty
      [candidates.filter fun node => node.file = file,
       candidates.filter fun node => (corpus.importFqnsOf file).contains node.fqn,
       importQualifiedHits candidates (corpus.importTailsOf file),
       if package = [] then [] else candidates.filter fun node => corpus.packageOf node.id = package,
       candidates.filter fun node =>
         (corpus.wildcardPackagesOf file).contains (corpus.packageOf node.id),
       candidates.filter fun node => (corpus.importsOf file).contains node.name,
       candidates]

/-- The own methods of some classes, then the inherited ones. -/
def receiverHits (classIds : List NodeId) (name strategy : Str) : List Hit :=
  [(classIds.flatMap fun cls => corpus.methodsOfClass cls name, strategy),
   (corpus.inheritedMembers classIds name, strategy ++ "_inherited".toList)]

/-- Whether the receiver type of a call is known and is no class of the
repository. -/
def externalReceiver (ref : RawRef) : Bool :=
  ref.recvType ≠ [] && (corpus.classesByName ref.recvType).isEmpty

/-- The candidates of a call whose receiver may be in the repository. -/
def narrowPool (ref : RawRef) (pool : List Node) (functionsOnly : Bool) : Hit :=
  let file := ((corpus.nodeById ref.src).map Node.file).getD []
  let functions := fun candidates : List Node =>
    if functionsOnly then candidates.filter fun node => node.label = .function else candidates
  let visible := fun name =>
    (corpus.narrowClassesForRecv (corpus.classesByName name) file).map Node.id
  let scopeHits : List Hit :=
    match corpus.parentOf ref.src with
    | none => []
    | some parent => [(functions (corpus.byNameParent ref.targetName parent), "same_scope")]
  let fileHits : List Hit :=
    if file = [] then []
    else
      [(functions (corpus.byNameFile ref.targetName file), "same_file"),
       (pool.filter fun node => (corpus.importFqnsOf file).contains (corpus.packageOf node.id),
         "imports_qualified_exact"),
       (importQualifiedHits pool (corpus.importTailsOf file), "imports_qualified"),
       (pool.filter fun node => (corpus.importsOf file).contains node.name ||
         (corpus.importsOf file).contains (simpleName node.fqn), "imports")]
  let typeHits : List Hit :=
    if ref.recvType = [] then []
    else corpus.receiverHits (visible ref.recvType) ref.targetName "receiver_type_hint"
  let self := ref.recv = "self".toList ∨ ref.recv = "cls".toList
  let receiverHits : List Hit :=
    if self then
      match corpus.enclosingClassId ref.src with
      | none => []
      | some cls => corpus.receiverHits [cls] ref.targetName "receiver_type"
    else if ref.recv = [] then []
    else corpus.receiverHits (visible ref.recv) ref.targetName "receiver_type"
  applyArity ref (firstHit (pool, "name") (scopeHits ++ fileHits ++ typeHits ++ receiverHits))

/-- The candidates of a call. -/
def narrowCall (ref : RawRef) : Hit :=
  if corpus.externalReceiver ref then ([], "external_receiver")
  else
    let functions := corpus.functionsByName ref.targetName
    let pool := if functions.isEmpty then corpus.byName ref.targetName else functions
    if pool.isEmpty then ([], "none")
    else corpus.narrowPool ref pool !functions.isEmpty

end Calls

end Corpus

end GraphIngest.Resolve
