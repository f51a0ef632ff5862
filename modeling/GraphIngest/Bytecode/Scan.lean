import GraphIngest.Bytecode.Matcher
import GraphIngest.External.Classify
import GraphIngest.Foundation.KeyedLog

/-! # Scanning the parsed classes

The single pass over the parsed classes. Each class is charged to the node of
its own declaration or, failing that, of the class around it; each of its
methods gets a caller node, extracted or synthesized; each instruction of the
method then emits edges from that caller. The state of the pass is one record,
and what it accumulates is characterized component by component.
-/

namespace GraphIngest.Bytecode

open Foundation Text Graph External

/-- What a run is told beside nodes and classes: the repository name, the hash
that makes node ids out of repository, fqn and kind, the match-rate floor, the
catch-all switch, the path separator and the catalog. -/
structure Settings where
  repo : Str
  makeId : Str → Str → Str → NodeId
  minMatchRate : ℚ
  includeExternalOther : Bool
  osSep : Char
  catalog : Catalog

/-- A descriptor that the class-file reader refuses. -/
structure ClassFileError where
  descriptor : Str
deriving DecidableEq, Repr

/-- The taint facts collected for the functions. -/
structure TaintMarks where
  sinkKinds : Dict NodeId (List Str) := Dict.empty
  sources : List NodeId := []
  sanitizers : List NodeId := []
  sites : Dict NodeId (List TaintSite) := Dict.empty

/-- Collect the facts of one call made by a function. -/
def TaintMarks.record (marks : TaintMarks) (catalog : Catalog) (caller : NodeId)
    (inv : Invocation) : TaintMarks :=
  match classifyTaint catalog inv.owner inv.name with
  | none => marks
  | some (entry, positions) =>
      { sinkKinds :=
          if entry.role = .sink then
            marks.sinkKinds.set caller ((marks.sinkKinds.getD caller []).insert entry.category)
          else marks.sinkKinds
        sources := if entry.role = .source then marks.sources.insert caller else marks.sources
        sanitizers :=
          if entry.role = .sanitizer then marks.sanitizers.insert caller else marks.sanitizers
        sites :=
          if inv.line ≠ 0 then
            marks.sites.append caller ⟨inv.line, entry.category, entry.role, positions⟩
          else marks.sites }

/-- An edge read off a class file. -/
def bytecodeEdge (type : EdgeType) (src dst : NodeId) (file : Str) (line : Int) : Edge where
  type := type
  src := src
  dst := dst
  extractor := "bytecode"
  strategy := "bytecode"
  evidenceFile := file
  evidenceLine := line

/-- The identity of a class-file edge. -/
@[simp] theorem key_bytecodeEdge (type : EdgeType) (src dst : NodeId) (file : Str) (line : Int) :
    (bytecodeEdge type src dst file line).key = (type, src, dst) := rfl

/-- The node of an external call target. -/
def externalNode (makeId : Str → Str → Str → NodeId) (kind : ExternalKind) (inv : Invocation) :
    Node where
  id := externalId makeId inv.owner inv.name
  label := .external
  name := externalDisplay inv.owner inv.name
  fqn := externalKey inv.owner inv.name
  repo := "external"
  kind := .external kind
  lang := .java
  extractor := "bytecode"

/-- Whom the members of a class are charged to: its own Class node if it has
one, the Class node and the source name in use, and the file of that node. -/
structure Owner where
  own : Option NodeId
  classId : NodeId
  fqn : Str
  file : Str
deriving DecidableEq

/-- The owner of a parsed class, none when it is not of this repository. -/
def ownerOf (index : NodeIndex) (info : ClassInfo) : Option Owner :=
  let sourceFqn := binaryToSourceFqn info.name
  let ownerFqn := if sourceFqn ≠ [] then sourceFqn else binaryToSourceFqn info.outerName
  if ownerFqn = [] then none
  else
    let own := index.classId info.name
    (own.or (index.classId info.outerName)).map fun classId =>
      { own := own, classId := classId, fqn := ownerFqn, file := index.fileOf classId }

/-- The kind and the name of a synthesized node. -/
def synthesizedName (info : ClassInfo) (method : MethodInfo) : Option (NodeKind × Str) :=
  if method.isLambdaBody then some (.lambda, method.name)
  else if method.isClassInitializer then some (.initializer, "<clinit>")
  else if info.isAnonymous then
    some (.anonymous, afterLast '$' info.name ++ '.' :: method.name)
  else none

/-- The node made for a body without a source declaration: none without line
numbers or without a file, an error when the descriptor has no arity. -/
def synthesizeNode (settings : Settings) (info : ClassInfo) (method : MethodInfo)
    (owner : Owner) : Except ClassFileError (Option Node) :=
  if !method.hasLineNumbers || owner.file = [] then .ok none
  else
    match synthesizedName info method with
    | none => .ok none
    | some (kind, name) =>
        match descriptorParamTypes method.descriptor with
        | none => .error ⟨method.descriptor⟩
        | some types => .ok (some
            { id := settings.makeId settings.repo
                (methodFqn owner.fqn name ++ method.descriptor) "method"
              label := .function
              name := name
              fqn := methodFqn owner.fqn name
              repo := settings.repo
              kind := kind
              lang := .java
              file := owner.file
              startLine := method.startLine
              endLine := method.endLine
              paramCount := types.length
              isStatic := method.isStatic
              signature := name ++ method.descriptor
              extractor := "bytecode" })

/-- How a method gets its caller node. -/
inductive Caller
  | skipped
  | failed (error : ClassFileError)
  | noLines
  | synthesized (node : Node)
  | looked (result : NodeIndex.Match)
deriving DecidableEq

/-- The caller node of a method of a class. -/
def callerOf (settings : Settings) (index : NodeIndex) (info : ClassInfo) (owner : Owner)
    (method : MethodInfo) : Caller :=
  if shouldSkipMethod method then .skipped
  else if callerNeedsSynthesis info method then
    match synthesizeNode settings info method owner with
    | .error error => .failed error
    | .ok none => .noLines
    | .ok (some node) => .synthesized node
  else .looked (index.matchMethod info.name method.name method.descriptor)

/-- The id of a caller, none when the body is passed over. -/
def Caller.id? : Caller → Option NodeId
  | .synthesized node => some node.id
  | .looked (.matched id) => some id
  | _ => none

/-- The state of the pass. -/
structure Scan where
  classesInRepo : Nat := 0
  log : KeyedLog Edge.key := .empty
  synthesized : List Node := []
  externalIds : List NodeId := []
  stats : MatchStats := {}
  attributed : List Str := []
  hierarchy : Dict Str (Str × List Str) := Dict.empty
  ownClassIds : Dict Str NodeId := Dict.empty
  declaredMethods : Dict Str (List (MethodInfo × NodeId)) := Dict.empty
  marks : TaintMarks := {}
  raised : Option ClassFileError := none

section Steps

variable (settings : Settings) (index : NodeIndex)

/-- The kind of an external call; only object returns are looked at. -/
def invocationKind (inv : Invocation) : Option ExternalKind :=
  classifyExternal settings.catalog inv.owner inv.name
    (if (returnDescriptor inv.descriptor).head? = some 'L' then
      typeName (returnDescriptor inv.descriptor) else [])
    settings.includeExternalOther

/-- Record an external call: its target node once, its edge once per caller. -/
def scanExternal (caller : NodeId) (file : Str) (scan : Scan) (inv : Invocation) : Scan :=
  match invocationKind settings inv with
  | none => scan
  | some kind =>
      let target := externalId settings.makeId inv.owner inv.name
      { scan with
        externalIds :=
          if target ∈ scan.externalIds then scan.externalIds else target :: scan.externalIds
        synthesized :=
          if target ∈ scan.externalIds then scan.synthesized
          else scan.synthesized ++ [externalNode settings.makeId kind inv]
        log := scan.log.emit (bytecodeEdge .callsExternal caller target file inv.line) }

/-- Record a call of a method of the repository. -/
def scanCall (caller : NodeId) (file : Str) (scan : Scan) (inv : Invocation) : Scan :=
  match index.methodId inv.owner inv.name inv.descriptor with
  | none => scan
  | some callee =>
      { scan with log := scan.log.emit (bytecodeEdge .calls caller callee file inv.line) }

/-- One call instruction of a body. -/
def scanInvocation (caller : NodeId) (file : Str) (scan : Scan) (inv : Invocation) : Scan :=
  if inv.opcode = .invokedynamic then scan
  else
    scanCall index caller file
      (scanExternal settings caller file
        { scan with marks := scan.marks.record settings.catalog caller inv } inv) inv

/-- The edge type of a field access. -/
def accessType (access : FieldAccess) : EdgeType := if access.isRead then .reads else .writes

/-- One field access of a body. -/
def scanAccess (caller : NodeId) (file : Str) (scan : Scan) (access : FieldAccess) : Scan :=
  match index.fieldId access.owner access.name with
  | none => { scan with stats.unmatchedField := scan.stats.unmatchedField + 1 }
  | some target =>
      let edge := bytecodeEdge (accessType access) caller target file access.line
      { scan with
        stats.matchedFields :=
          if edge.key ∈ scan.log.seen then scan.stats.matchedFields
          else scan.stats.matchedFields + 1
        log := scan.log.emit edge }

/-- The instructions of one body. -/
def scanBody (caller : NodeId) (file : Str) (method : MethodInfo) (scan : Scan) : Scan :=
  method.fieldAccesses.foldl (scanAccess index caller file)
    (method.invocations.foldl (scanInvocation settings index caller file) scan)

/-- Remember a method of a declared class that can override. -/
def scanDeclared (info : ClassInfo) (owner : Owner) (method : MethodInfo) (caller : NodeId)
    (scan : Scan) : Scan :=
  if owner.own.isSome && canOverride method then
    { scan with declaredMethods := scan.declaredMethods.append info.name (method, caller) }
  else scan

/-- Count a body that needs a synthesized caller. -/
def countSynthesis (method : MethodInfo) (stats : MatchStats) : MatchStats :=
  if method.isLambdaBody then { stats with lambdaBody := stats.lambdaBody + 1 }
  else if method.isClassInitializer then
    { stats with classInitializer := stats.classInitializer + 1 }
  else stats

/-- One method of a class: settle its caller, then scan its body. -/
def scanMethod (info : ClassInfo) (owner : Owner) (scan : Scan) (method : MethodInfo) : Scan :=
  match callerOf settings index info owner method with
  | .skipped => { scan with stats.skippedSynthetic := scan.stats.skippedSynthetic + 1 }
  | .failed error => { scan with raised := scan.raised.or (some error) }
  | .noLines => { scan with stats := countSynthesis method scan.stats }
  | .synthesized node =>
      scanBody settings index node.id owner.file method
        (scanDeclared info owner method node.id
          { scan with
            stats := countSynthesis method scan.stats
            synthesized := scan.synthesized ++ [node]
            log := scan.log.push
              (bytecodeEdge .contains owner.classId node.id owner.file method.startLine) })
  | .looked (.matched caller) =>
      scanBody settings index caller owner.file method
        (scanDeclared info owner method caller
          { scan with stats := scan.stats.count (.matched caller) })
  | .looked result => { scan with stats := scan.stats.count result }

/-- Enter a class of the repository: its file is attributed, its header kept. -/
def scanHeader (info : ClassInfo) (owner : Owner) (scan : Scan) : Scan :=
  { scan with
    classesInRepo := scan.classesInRepo + 1
    attributed :=
      if owner.file = [] then scan.attributed
      else scan.attributed ++ spellings settings.osSep owner.file
    hierarchy :=
      if owner.own.isSome then scan.hierarchy.set info.name (info.superName, info.interfaces)
      else scan.hierarchy
    ownClassIds :=
      match owner.own with
      | some own => scan.ownClassIds.set info.name own
      | none => scan.ownClassIds }

/-- One parsed class. -/
def scanClass (scan : Scan) (info : ClassInfo) : Scan :=
  match ownerOf index info with
  | none => scan
  | some owner =>
      info.methods.foldl (scanMethod settings index info owner)
        (scanHeader settings info owner scan)

/-- All parsed classes, in order. -/
def scanClasses (classes : List ClassInfo) : Scan :=
  classes.foldl (scanClass settings index) {}

end Steps

end GraphIngest.Bytecode
