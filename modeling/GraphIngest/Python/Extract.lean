import GraphIngest.Foundation.Registry
import GraphIngest.Ingest.Namespaces
import GraphIngest.Python.SyntaxTree

/-! # What is extracted from a Python file

The walk goes through the definitions of a file, block by block, and asks for nodes, edges and
references as it comes to them. What a function calls, raises, reads and writes is looked for in
its body, short of the definitions in it. The requests are settled in the order they are made: a
field is made for the first request for it only.
-/

namespace GraphIngest.Python

open Foundation Text Graph Resolve

/-- A file for the extractor: how ids are made, the repository, the path, which texts are
identifiers, and host and path of a URL. -/
structure SourceFile where
  makeId : Str → Str → Str → NodeId
  repo : Str
  relpath : Str
  isIdentifier : Str → Bool
  splitUrl : Str → Str × Str

/-- What the walk asks for: a declaration in its container, an endpoint of a handler, a
reference, or a field with the references that come with it. -/
inductive Request
  | declare (container : NodeId) (node : Node) (spot : Spot)
  | expose (handler : NodeId) (endpoint : Node) (spot : Spot)
  | refer (ref : RawRef)
  | field (container : NodeId) (node : Node) (spot : Spot) (refs : List RawRef)
deriving DecidableEq

section Scopes

/-- The definitions that have a scope of their own. -/
def isDefinition (tree : Tree) : Bool :=
  kindOf tree = .functionDefinition || kindOf tree = .classDefinition ||
    kindOf tree = .decoratedDefinition

/-- `_scope_walk`, every node with the one above it. -/
def scopeWalk (block : Tree) : List (Tree × Tree) := Rose.within isDefinition block.placed

/-- The nodes of `_scope_walk`. -/
def scopeNodes (block : Tree) : List Tree := (scopeWalk block).map Prod.snd

/-- `_calls_in_scope`. -/
def callsInScope (block : Tree) : List Tree :=
  (scopeNodes block).filter fun node => kindOf node = .call

/-- `_inferred_type_name`. -/
def inferredTypeName (tree : Tree) : Str :=
  match kindOf tree with
  | .call => ((childByField tree .function).map dottedTail).getD []
  | .identifier | .attribute => dottedTail tree
  | _ => []

/-- The variable that a node of a body binds and the name of its type, empty for none. -/
def bindingOf (node : Tree) : Option (Str × Str) :=
  match childByField node .left with
  | none => none
  | some left =>
      if kindOf left ≠ .identifier then none
      else
        match kindOf node with
        | .assignment => (childByField node .right).map fun right =>
            (textOf left, inferredTypeName right)
        | .annotatedAssignment => (childByField node .type).map fun anno =>
            (textOf left, dottedTail anno)
        | _ => none

/-- `_local_receiver_types`. -/
def localReceiverTypes (body : Tree) : Dict Str Str :=
  (scopeNodes body).foldl (fun types node =>
    match bindingOf node with
    | some (name, type) => if name ≠ [] ∧ type ≠ [] then types.set name type else types
    | none => types) Dict.empty

/-- `_infer_receiver_type`. -/
def inferReceiverType (function : Tree) (localTypes : Dict Str Str) : Str :=
  if kindOf function = .attribute then
    match childByField function .object with
    | some object =>
        if kindOf object = .identifier then localTypes.getD (textOf object) [] else []
    | none => []
  else []

/-- `_import_full_name`. -/
def importFullName (tree : Tree) : Str :=
  let raw := strip (textOf tree)
  match raw.tails.find? " as ".toList.isPrefixOf with
  | some behind => strip (raw.take (raw.length - behind.length))
  | none => raw

/-- `decorators_of`. -/
def decoratorsOf (decorated : Tree) : List (Str × Tree) :=
  decorated.children.filterMap fun child =>
    if kindOf child = .decorator then
      ((child.children[1]?).filter fun expr => dottedTail expr ≠ []).map fun expr =>
        (dottedTail expr, child)
    else none

/-- `_has_abc_base`. -/
def hasAbcBase (node : Tree) : Bool :=
  ((childByField node .superclasses).map fun supers => hasWord "ABC" (textOf supers)).getD false

/-- The name of a definition, or of a file, within what is around it. -/
def qualified (parentFqn name : Str) : Str :=
  if parentFqn = [] then name else parentFqn ++ '.' :: name

end Scopes

section Globals

/-- `assignment`s of a statement to a plain name, each with the name. -/
def nameAssignments (stmt : Tree) : List (Tree × Tree) :=
  stmt.children.filterMap fun child =>
    if kindOf child = .assignment then
      ((childByField child .left).filter fun left => kindOf left = .identifier).map fun left =>
        (child, left)
    else none

/-- Those of the statements at the top of a file, each with its statement. -/
def globalAssignments (root : Tree) : List (Tree × Tree × Tree) :=
  root.children.flatMap fun stmt =>
    if kindOf stmt = .expressionStatement then (nameAssignments stmt).map fun made => (stmt, made)
    else []

/-- `global_declared`. -/
def globalDeclared (globals : List Str) (body : Tree) : List Str :=
  (scopeNodes body).flatMap fun node =>
    if kindOf node = .globalStatement then
      ((node.children.filter fun child => kindOf child = .identifier).map textOf).filter
        fun name => name ∈ globals
    else []

/-- `shadowed`: a name that a function assigns without declaring it global is local to it. -/
def shadowed (globals : List Str) (body : Tree) : List Str :=
  (scopeNodes body).filterMap fun node =>
    if kindOf node = .assignment then
      ((childByField node .left).filter fun left =>
        kindOf left = .identifier ∧ textOf left ∈ globals ∧
          textOf left ∉ globalDeclared globals body).map textOf
    else none

/-- What an assignment is made to, a pattern taken apart. -/
def targetsOf (node : Tree) : List Tree :=
  match childByField node .left with
  | some left => if isPattern left then left.children else [left]
  | none => []

/-- Assignments, plain and augmented. -/
def isAssignment (node : Tree) : Bool :=
  kindOf node = .assignment || kindOf node = .augmentedAssignment

/-- A write to a global: whether it reads the global too, the target, and the name in it. -/
structure GlobalWrite where
  alsoReads : Bool
  target : Tree
  base : Tree

/-- The write to a global that a target of an assignment makes. -/
def globalWrite (globals : List Str) (body node target : Tree) : Option GlobalWrite :=
  match kindOf target with
  | .identifier =>
      if textOf target ∈ globals ∧ textOf target ∈ globalDeclared globals body then
        some ⟨kindOf node = .augmentedAssignment, target, target⟩
      else none
  | .subscript | .attribute =>
      ((baseIdentNode target).filter fun base =>
        textOf base ∈ globals ∧ textOf base ∉ shadowed globals body).map fun base =>
          ⟨true, target, base⟩
  | _ => none

def globalWrites (globals : List Str) (body : Tree) : List GlobalWrite :=
  (scopeNodes body).flatMap fun node =>
    if isAssignment node then (targetsOf node).filterMap (globalWrite globals body node) else []

/-- `write_ids` of `_emit_global_state`. -/
def globalWriteIds (globals : List Str) (body : Tree) : List Nat :=
  (globalWrites globals body).flatMap fun write => [write.target.label.id, write.base.label.id]

/-- The names read that no write accounts for. -/
def globalReads (globals : List Str) (body : Tree) : List Tree :=
  ((scopeWalk body).filter fun place =>
    kindOf place.2 = .identifier ∧ place.2.label.id ∉ globalWriteIds globals body ∧
      isAttrOrKwargName place.1 place.2 = false ∧ textOf place.2 ∈ globals ∧
      textOf place.2 ∉ shadowed globals body).map Prod.snd

end Globals

section Own

/-- The targets of assignments to attributes of the object itself, each with whether the
assignment is augmented. -/
def stateWrites (body : Tree) : List (Bool × Tree) :=
  (scopeNodes body).flatMap fun node =>
    if isAssignment node then
      (((childByField node .left).map assignTargets).getD []).map fun target =>
        (decide (kindOf node = .augmentedAssignment), target)
    else []

/-- The attributes of the object itself that are read. -/
def stateReads (body : Tree) : List Tree :=
  (scopeNodes body).filter fun node =>
    kindOf node = .attribute ∧ selfAttrName node ≠ [] ∧
      node.label.id ∉ (stateWrites body).map fun write => write.2.label.id

end Own

section Nodes

/-- `EXTRACTOR`. -/
def extractorName : Str := "tree-sitter".toList

variable (file : SourceFile)

/-- `ref`, with what all references of the file have. -/
def SourceFile.reference (type : EdgeType) (src : NodeId) (target : Str) (hint : KindHint)
    (tree : Tree) : RawRef where
  type := type
  src := src
  targetName := target
  kindHint := hint
  refFile := file.relpath
  refLine := tree.label.start.line
  refCol := tree.label.start.col

/-- `ref`. -/
def SourceFile.refer (type : EdgeType) (src : NodeId) (target : Str) (hint : KindHint)
    (tree : Tree) : Request :=
  .refer (file.reference type src target hint tree)

/-- A node with what all nodes of the file have. -/
def SourceFile.nodeAt (id : NodeId) (label : NodeLabel) (kind : NodeKind) (name fqn : Str)
    (tree : Tree) : Node where
  id := id
  label := label
  name := name
  fqn := fqn
  repo := file.repo
  kind := kind
  lang := .python
  file := file.relpath
  startLine := tree.label.start.line
  endLine := tree.label.lastLine
  extractor := extractorName

def SourceFile.fileId : NodeId := file.makeId file.repo file.relpath "file".toList

def SourceFile.fileNode (root : Tree) : Node :=
  { file.nodeAt file.fileId .file .none (afterLast '/' file.relpath) file.relpath root with
    package := replaceLetter '/' '.' (((rpartition '/' file.relpath).map Prod.fst).getD [])
    startLine := 1 }

def SourceFile.classId (fqn : Str) : NodeId := file.makeId file.repo fqn "class".toList

def SourceFile.classNode (node : Tree) (name fqn : Str) (decos : List (Str × Tree)) : Node :=
  { file.nodeAt (file.classId fqn) .cls .cls name fqn node with
    visibility := visibility name
    isAbstract := (decos.map Prod.fst).contains "abstractmethod".toList || hasAbcBase node }

def SourceFile.functionId (fqn : Str) (inClass : Bool) : NodeId :=
  file.makeId file.repo fqn (if inClass then "method" else "function").toList

def SourceFile.functionNode (node : Tree) (name fqn : Str) (inClass : Bool)
    (decos : List (Str × Tree)) : Node :=
  let names := decos.map Prod.fst
  let parameters := childByField node .parameters
  { file.nodeAt (file.functionId fqn inClass) .function (if inClass then .method else .function)
      name fqn node with
    visibility := visibility name
    isStatic := names.contains "staticmethod".toList || names.contains "classmethod".toList
    isAbstract := names.contains "abstractmethod".toList
    returnType := ((childByField node .returnType).map textOf).getD []
    paramCount := (formals parameters inClass).length
    paramTypes := paramTypes parameters inClass
    signature := name ++ (parameters.map textOf).getD "()".toList }

def SourceFile.fieldId (fqn : Str) : NodeId := file.makeId file.repo fqn "field".toList

/-- A field of a class, or a global of the file. -/
def SourceFile.fieldNode (kind : NodeKind) (scope : Scope) (name fqn type : Str) (tree : Tree) :
    Node :=
  { file.nodeAt (file.fieldId fqn) .field kind name fqn tree with
    visibility := visibility name
    returnType := type
    scope := scope }

def SourceFile.endpointNode (method route : Str) (tree : Tree) : Node :=
  { file.nodeAt (endpointId file.makeId file.repo method route []) .endpoint .endpoint
      (endpointDisplay method route []) (endpointFqn method route []) tree with
    method := upper method
    route := normalizeRoute route }

end Nodes

section Emitted

variable (file : SourceFile)

/-- `_emit_type`. -/
def SourceFile.emitType (primary : EdgeType) (src : NodeId) (type : Tree) : List RawRef :=
  match collectTypeNames file.isIdentifier type with
  | [] => []
  | name :: generics =>
      file.reference primary src name .type type ::
        generics.map fun generic => file.reference .hasGeneric src generic .type type

/-- `_emit_exceptions`. -/
def SourceFile.emitExceptions (body : Tree) (fnId : NodeId) : List Request :=
  (scopeNodes body).flatMap fun node =>
    match kindOf node with
    | .raiseStatement =>
        match node.children.find? fun child => !isToken ["raise".toList, "from"] child with
        | some child =>
            if dottedTail child = [] then []
            else [file.refer .throws fnId (dottedTail child) .type child]
        | none => []
    | .exceptClause =>
        match node.children.find? fun child =>
            !(isToken ["except".toList, ":", "as"] child || kindOf child = .block ||
              kindOf child = .comment) with
        | some child => (collectTypeNames file.isIdentifier child).map fun name =>
            file.refer .catches fnId name .type child
        | none => []
    | _ => []

/-- `_ensure_field`. -/
def SourceFile.ensureField (classFqn : Str) (classId : NodeId) (name : Str) (tree : Tree) :
    Request :=
  .field classId (file.fieldNode .field .cls name (classFqn ++ '.' :: name) [] tree)
    tree.label.start []

/-- The reference of a method to an attribute of the object itself. -/
def SourceFile.selfReference (type : EdgeType) (fnId : NodeId) (target : Tree) : Request :=
  .refer { file.reference type fnId (selfAttrName target) .other target with
    recv := "self".toList }

/-- `_emit_state`. -/
def SourceFile.emitState (body : Tree) (fnId : NodeId) (classFqn : Str) (classId : NodeId) :
    List Request :=
  ((stateWrites body).flatMap fun write =>
    [file.ensureField classFqn classId (selfAttrName write.2) write.2,
      file.selfReference .writes fnId write.2] ++
      if write.1 then [file.selfReference .reads fnId write.2] else []) ++
  (stateReads body).flatMap fun node =>
    [file.ensureField classFqn classId (selfAttrName node) node,
      file.selfReference .reads fnId node]

/-- `_emit_global_state`. -/
def SourceFile.emitGlobalState (globals : List Str) (body : Tree) (fnId : NodeId) : List Request :=
  if globals = [] then []
  else
    ((globalWrites globals body).flatMap fun write =>
      file.refer .writes fnId (textOf write.base) .other write.target ::
        if write.alsoReads then [file.refer .reads fnId (textOf write.base) .other write.target]
        else []) ++
    (globalReads globals body).map fun node => file.refer .reads fnId (textOf node) .other node

/-- The `CALLS` reference of a call. -/
def SourceFile.callReference (fnId : NodeId) (types : Dict Str Str) (call function : Tree) :
    Option RawRef :=
  if dottedTail function = [] then none
  else
    some { file.reference .calls fnId (dottedTail function) .call function with
      recv := receiver function
      callArity := callArity call
      recvType := inferReceiverType function types }

/-- `emit_api_call`. -/
def SourceFile.emitApiCall (handlerId : NodeId) (method url : Str) (tree : Tree) : Request :=
  .refer { file.reference .callsApi handlerId (file.splitUrl url).2 .other tree with
    recv := (file.splitUrl url).1
    httpMethod := method }

/-- What a call in the body of a function gives. -/
def SourceFile.callRequests (fnId : NodeId) (types : Dict Str Str) (call : Tree) : List Request :=
  match childByField call .function with
  | none => []
  | some function =>
      let events := fun (type : EdgeType) (names : List Str) =>
        if eventTopic names call = [] then []
        else [file.refer type fnId (eventTopic names call) .other function]
      ((file.callReference fnId types call function).toList.map .refer) ++
        ((outboundCall call).toList.map fun asked =>
          file.emitApiCall fnId asked.1 asked.2 function) ++
        events .emitsEvent eventEmitCalls ++ events .consumesEvent eventConsumeCalls

/-- What the decorators of a definition give, of a class and of a function. -/
def SourceFile.decoratorRequests (id : NodeId) (deco : Str × Tree) : List Request :=
  file.refer .annotatedWith id deco.1 KindHint.annotation deco.2 ::
    (authSpecs deco.1 deco.2).map fun spec => file.refer spec.1 id spec.2 .other deco.2

/-- What the decorators of a function give beyond that: the topic it listens to, its routes. -/
def SourceFile.handlerRequests (id : NodeId) (deco : Str × Tree) : List Request :=
  (if eventConsumerTopic deco.1 deco.2 = [] then []
    else [file.refer .consumesEvent id (eventConsumerTopic deco.1 deco.2) .other deco.2]) ++
  (endpointSpecs deco.2).map fun spec =>
    .expose id (file.endpointNode spec.1 spec.2 deco.2) deco.2.label.start

end Emitted

section Definitions

variable (file : SourceFile)

/-- What `handle_class` asks for before it goes through the body. -/
def SourceFile.classRequests (node : Tree) (name fqn : Str) (container : NodeId)
    (decos : List (Str × Tree)) : List Request :=
  let cid := file.classId fqn
  let supers := ((childByField node .superclasses).map Rose.children).getD []
  .declare container (file.classNode node name fqn decos) node.label.start ::
    (decos.flatMap (file.decoratorRequests cid) ++
      (supers.filter fun child => kindOf child = .identifier || kindOf child = .attribute).map
        fun child => file.refer .extends cid (dottedTail child) .type child)

/-- The references of `handle_function` to the types of what it returns and takes. -/
def SourceFile.signatureRequests (node : Tree) (mid : NodeId) : List Request :=
  let taken := ((childByField node .parameters).map Rose.children).getD []
  ((((childByField node .returnType).map (file.emitType .returns mid)).getD []) ++
    taken.flatMap fun child =>
      if kindOf child = .typedParameter ∨ kindOf child = .typedDefaultParameter then
        ((childByField child .type).map (file.emitType .hasType mid)).getD []
      else []).map .refer

/-- What `handle_function` asks for on account of the body, before it goes through its blocks. -/
def SourceFile.bodyRequests (globals : List Str) (body : Tree) (mid : NodeId) (parentFqn : Str)
    (container : NodeId) (inClass : Bool) : List Request :=
  (callsInScope body).flatMap (file.callRequests mid (localReceiverTypes body)) ++
    file.emitExceptions body mid ++
    (if inClass then file.emitState body mid parentFqn container else []) ++
    file.emitGlobalState globals body mid

/-- What `handle_function` asks for before it goes through the body. -/
def SourceFile.functionRequests (node : Tree) (name fqn : Str) (container : NodeId)
    (inClass : Bool) (decos : List (Str × Tree)) : List Request :=
  let mid := file.functionId fqn inClass
  .declare container (file.functionNode node name fqn inClass decos) node.label.start ::
    ((decos.flatMap fun deco => file.decoratorRequests mid deco ++ file.handlerRequests mid deco) ++
      file.signatureRequests node mid)

/-- A request for the field that an assignment to a plain name makes. -/
def SourceFile.fieldRequest (kind : NodeKind) (scope : Scope) (container : NodeId) (fqn : Str)
    (stmt assignment left : Tree) : Request :=
  let type := childByField assignment .type
  .field container (file.fieldNode kind scope (textOf left) fqn ((type.map textOf).getD []) stmt)
    stmt.label.start ((type.map (file.emitType .ofType (file.fieldId fqn))).getD [])

/-- `_maybe_field`. -/
def SourceFile.maybeField (stmt : Tree) (classFqn : Str) (classId : NodeId) : List Request :=
  (nameAssignments stmt).map fun made =>
    file.fieldRequest .field .cls classId (classFqn ++ '.' :: textOf made.2) stmt made.1 made.2

/-- The definition of a decorated one; every other statement itself. -/
def undecorated (stmt : Tree) : Option Tree :=
  if kindOf stmt = .decoratedDefinition then childByField stmt .definition else some stmt

theorem size_of_undecorated {stmt node : Tree} (bare : undecorated stmt = some node) :
    node.size ≤ stmt.size := by
  unfold undecorated at bare
  split at bare
  · exact (Rose.size_lt_of_mem (mem_children_of_childByField bare)).le
  · rw [Option.some.inj bare]

def decosOf (stmt : Tree) : List (Str × Tree) :=
  if kindOf stmt = .decoratedDefinition then decoratorsOf stmt else []

variable (globals : List Str)

mutual

def SourceFile.handleClass (node : Tree) (parentFqn : Str) (container : NodeId)
    (decos : List (Str × Tree)) : List Request :=
  match childByField node .name with
  | none => []
  | some name =>
      let fqn := qualified parentFqn (textOf name)
      file.classRequests node (textOf name) fqn container decos ++
        match found : childByField node .body with
        | some body => walkBlock body fqn (file.classId fqn) true
        | none => []
termination_by node.size
decreasing_by exact Rose.size_lt_of_mem (mem_children_of_childByField found)

def SourceFile.handleFunction (node : Tree) (parentFqn : Str) (container : NodeId)
    (inClass : Bool) (decos : List (Str × Tree)) : List Request :=
  match childByField node .name with
  | none => []
  | some name =>
      let fqn := qualified parentFqn (textOf name)
      let mid := file.functionId fqn inClass
      file.functionRequests node (textOf name) fqn container inClass decos ++
        match found : childByField node .body with
        | some body =>
            file.bodyRequests globals body mid parentFqn container inClass ++
              walkBlock body fqn mid false
        | none => []
termination_by node.size
decreasing_by exact Rose.size_lt_of_mem (mem_children_of_childByField found)

def SourceFile.walkBlock (block : Tree) (parentFqn : Str) (container : NodeId) (inClass : Bool) :
    List Request :=
  block.children.attach.flatMap fun stmt =>
    match bare : undecorated stmt.1 with
    | none => []
    | some node =>
        match kindOf node with
        | .classDefinition => handleClass node parentFqn container (decosOf stmt.1)
        | .functionDefinition => handleFunction node parentFqn container inClass (decosOf stmt.1)
        | .expressionStatement => if inClass then file.maybeField node parentFqn container else []
        | _ => []
termination_by block.size
decreasing_by
  all_goals exact (size_of_undecorated bare).trans_lt (Rose.size_lt_of_mem stmt.2)

end

end Definitions

section Files

variable (file : SourceFile) (root : Tree)

def SourceFile.moduleFqn : Str := Ingest.pythonModuleFqn file.relpath

/-- The imports at the top of a file. -/
def SourceFile.importRequests : List Request :=
  root.children.flatMap fun child =>
    match kindOf child with
    | .importStatement =>
        (child.children.filter fun part =>
          kindOf part = .dottedName || kindOf part = .aliasedImport).map fun part =>
            .refer { file.reference .imports file.fileId (dottedTail part) .import part with
              importFqn := importFullName part }
    | .importFromStatement =>
        ((childByField child .moduleName).toList).map fun part =>
          .refer { file.reference .imports file.fileId (dottedTail part) .import part with
            importFqn := strip (textOf part) }
    | _ => []

/-- The fqn of a global. -/
def SourceFile.globalFqn (left : Tree) : Str := qualified file.moduleFqn (textOf left)

/-- The requests for the globals. -/
def SourceFile.globalRequests : List Request :=
  (globalAssignments root).map fun made =>
    file.fieldRequest .globalVariable .module file.fileId (file.globalFqn made.2.2) made.1
      made.2.1 made.2.2

/-- The names in `module_globals`: those whose id was new when they came. -/
def SourceFile.moduleGlobals : List Str :=
  (accepted (fun made => file.fieldId (file.globalFqn made.2.2)) [] (globalAssignments root)).map
    fun made => textOf made.2.2

/-- All that is asked for a file, in order. -/
def SourceFile.requests : List Request :=
  file.importRequests root ++ file.globalRequests root ++
    file.walkBlock (file.moduleGlobals root) root file.moduleFqn file.fileId false

/-- What was emitted, and `created_fields`. -/
structure Emission where
  bundle : Bundle
  createdFields : List NodeId := []

/-- A node and the edge to it. -/
def Emission.attach (emission : Emission) (relpath : Str) (type : EdgeType) (src : NodeId)
    (node : Node) (spot : Spot) : Emission :=
  { emission with
    bundle :=
      { emission.bundle with
        nodes := emission.bundle.nodes ++ [node]
        edges := emission.bundle.edges ++
          [extractedEdge extractorName relpath type src node.id spot] } }

def Emission.addRefs (emission : Emission) (refs : List RawRef) : Emission :=
  { emission with bundle.refs := emission.bundle.refs ++ refs }

/-- A request is settled; for a field only when it is not there yet. -/
def Emission.settle (relpath : Str) (emission : Emission) : Request → Emission
  | .declare container node spot => emission.attach relpath .contains container node spot
  | .expose handler endpoint spot => emission.attach relpath .exposes handler endpoint spot
  | .refer ref => emission.addRefs [ref]
  | .field container node spot refs =>
      if node.id ∈ emission.createdFields then emission
      else
        { (emission.attach relpath .contains container node spot).addRefs refs with
          createdFields := node.id :: emission.createdFields }

/-- `extract`. -/
def SourceFile.extract : Bundle :=
  ((file.requests root).foldl (Emission.settle file.relpath)
    { bundle := { nodes := [file.fileNode root] } }).bundle

end Files

end GraphIngest.Python
