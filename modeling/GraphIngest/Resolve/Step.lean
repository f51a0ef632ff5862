import GraphIngest.External.Classify
import GraphIngest.Foundation.Batching
import GraphIngest.Resolve.Narrow

/-! # Resolving one reference

One reference becomes a chunk of new nodes and edges and an update of what the
resolver remembers: the nodes it has synthesized, its coverage counts and the
taint facts of callers. References of dropped types cost nothing; calls of files
that a precise tier owns are skipped; a call whose receiver is typed outside the
repository is kept as an external fact.
-/

namespace GraphIngest.Resolve

open Foundation Text Graph External

/-- How the resolution of one reference ends. -/
inductive Verdict
  | resolved | ambiguous | unresolved | external
deriving DecidableEq, Repr

/-- How the references of one type ended. -/
structure Coverage where
  total : Nat := 0
  resolved : Nat := 0
  ambiguous : Nat := 0
  unresolved : Nat := 0
  external : Nat := 0
deriving DecidableEq, Repr

/-- Count one end. -/
def Coverage.judge (coverage : Coverage) : Verdict → Coverage
  | .resolved => { coverage with resolved := coverage.resolved + 1 }
  | .ambiguous => { coverage with ambiguous := coverage.ambiguous + 1 }
  | .unresolved => { coverage with unresolved := coverage.unresolved + 1 }
  | .external => { coverage with external := coverage.external + 1 }

/-- The taint facts of one caller: sink categories, whether it is a source, and
the catalogued call sites. -/
structure ResolverMark where
  cats : List Str := []
  src : Bool := false
  sites : List TaintSite := []
deriving DecidableEq, Repr

/-- Collect one catalogued call. -/
def ResolverMark.record (mark : ResolverMark) (ref : RawRef) (entry : Entry)
    (positions : List Int) : ResolverMark where
  cats := if entry.role = .sink then mark.cats.insert entry.category else mark.cats
  src := mark.src || entry.role == .source
  sites :=
    if ref.refLine ≠ 0 then mark.sites ++ [⟨ref.refLine, entry.category, entry.role, positions⟩]
    else mark.sites

/-- What the resolver remembers between references. -/
structure Memo where
  annotationIds : Dict Str NodeId := Dict.empty
  apiEndpointIds : List NodeId := []
  externalIds : List NodeId := []
  coverage : Dict EdgeType Coverage := Dict.empty
  marks : Dict NodeId ResolverMark := Dict.empty

namespace Memo

/-- Change the counts of one type. -/
def count (memo : Memo) (type : EdgeType) (change : Coverage → Coverage) : Memo :=
  { memo with coverage := memo.coverage.set type (change (memo.coverage.getD type {})) }

/-- Count how a reference of a type ended. -/
def judge (memo : Memo) (type : EdgeType) (verdict : Verdict) : Memo :=
  memo.count type fun coverage => coverage.judge verdict

/-- Count one more reference of a type. -/
def enter (memo : Memo) (type : EdgeType) : Memo :=
  memo.count type fun coverage => { coverage with total := coverage.total + 1 }

/-- Take a reference out of the count of a type. -/
def leave (memo : Memo) (type : EdgeType) : Memo :=
  memo.count type fun coverage => { coverage with total := coverage.total - 1 }

end Memo

/-- The outcome of one reference: the new memory and the chunk it emits. -/
structure Answer where
  memo : Memo
  chunk : Chunk Node Edge := {}

/-- What a resolution run is told beside its corpus: the repository name, the
hash that makes node ids, the candidate cap of bare names (zero for none), the
catalog, and the files whose calls a precise tier owns. -/
structure Settings where
  repo : Str
  makeId : Str → Str → Str → NodeId
  nameCap : Nat
  catalog : Catalog
  skipCallFiles : List Str

/-- The ids of the symbols of a sample, by a letter. -/
def letterId (letter : Char) : NodeId := ⟨[letter], List.cons_ne_nil _ _⟩

/-- The ids a sample run makes: they spell what they are made of. -/
def spelledId (repo fqn label : Str) : NodeId :=
  ⟨'#' :: (repo ++ fqn ++ label), List.cons_ne_nil _ _⟩

/-- `DROPPED_EDGE_TYPES`. -/
def dropped (type : EdgeType) : Bool :=
  [EdgeType.returns, .hasType, .hasGeneric, .throws, .catches, .references, .belongsTo,
   .reExports, .emitsEvent, .consumesEvent, .requiresAuth, .enforcesPolicy, .imports].contains type

/-- `NOISE_ANNOTATIONS`. -/
def noiseAnnotations : List Str :=
  ["Override", "SuppressWarnings", "SafeVarargs", "FunctionalInterface", "Generated",
   "SuppressFBWarnings"]

/-- An edge of the name resolver. -/
def heuristicEdge (ref : RawRef) (type : EdgeType) (dst : NodeId) (confidence : Confidence)
    (strategy : Str) : Edge where
  type := type
  src := ref.src
  dst := dst
  confidence := confidence
  extractor := "heuristic"
  evidenceFile := ref.refFile
  evidenceLine := ref.refLine
  evidenceCol := ref.refCol
  strategy := strategy

/-- One edge to each candidate. -/
def fanOut (ref : RawRef) (type : EdgeType) (wanted : List Node) (confidence : Confidence)
    (strategy : Str) : List Edge :=
  wanted.map fun node => heuristicEdge ref type node.id confidence strategy

section Steps

variable (settings : Settings) (corpus : Corpus)

/-- Whether a fan-out is too wide to emit. -/
def overCap (wanted : List Node) : Bool := settings.nameCap ≠ 0 && settings.nameCap < wanted.length

/-- Whether a strategy rests on the bare name alone. -/
def isNameStrategy (strategy : Str) : Bool := "name".toList.isPrefixOf strategy

/-- Emit the candidates of a reference: one is taken, several are ambiguous
unless a bare name has too many. -/
def emit (memo : Memo) (ref : RawRef) (wanted : List Node) (confidence : Confidence)
    (knownInRepo : Bool) (strategy : Str) : Answer :=
  match wanted with
  | [] => { memo := memo.judge ref.type (if knownInRepo then .unresolved else .external) }
  | [node] =>
      { memo := memo.judge ref.type .resolved
        chunk.links := [heuristicEdge ref ref.type node.id confidence strategy] }
  | _ =>
      if isNameStrategy strategy && overCap settings wanted then
        { memo := memo.judge ref.type .unresolved }
      else
        { memo := memo.judge ref.type .ambiguous
          chunk.links := fanOut ref ref.type wanted .ambiguous strategy }

/-- An annotation other than a compiler directive, one node for each name. -/
def resolveAnnotated (memo : Memo) (ref : RawRef) : Answer :=
  if ref.targetName ∈ noiseAnnotations then { memo := memo.judge ref.type .external }
  else
    match memo.annotationIds.get? ref.targetName with
    | some id =>
        { memo := memo.judge ref.type .resolved
          chunk.links := [heuristicEdge ref ref.type id .extracted "annotation"] }
    | none =>
        let id := settings.makeId settings.repo ('@' :: ref.targetName) "annotation"
        { memo := { memo.judge ref.type .resolved with
            annotationIds := memo.annotationIds.set ref.targetName id }
          chunk :=
            { declares :=
                [{ id := id, label := NodeLabel.annotation, name := ref.targetName,
                   fqn := '@' :: ref.targetName, repo := settings.repo, kind := NodeKind.annotation }]
              links := [heuristicEdge ref ref.type id .extracted "annotation"] } }

/-- The verb of a reference. -/
def refVerb (ref : RawRef) : Str := verbOf ref.httpMethod

/-- The repository of the endpoint a call without handler goes to. -/
def endpointRepo (ref : RawRef) : Str := if ref.recv ≠ [] then "external" else settings.repo

/-- The id of the endpoint a call without handler goes to. -/
def missingEndpointId (ref : RawRef) : NodeId :=
  endpointId settings.makeId (endpointRepo settings ref) (refVerb ref)
    (normalizeRoute ref.targetName) ref.recv

/-- An HTTP call: the endpoints it meets, or a node for the missing one. -/
def resolveApi (memo : Memo) (ref : RawRef) : Answer :=
  let route := normalizeRoute ref.targetName
  match matchEndpoints corpus.nodes (refVerb ref) route with
  | [] =>
      let id := missingEndpointId settings ref
      let edge :=
        if ref.recv ≠ [] then heuristicEdge ref ref.type id .extracted "api_external"
        else heuristicEdge ref ref.type id .inferred "api_unresolved"
      { memo := { memo.judge ref.type .resolved with
          apiEndpointIds :=
            if id ∈ memo.apiEndpointIds then memo.apiEndpointIds else id :: memo.apiEndpointIds }
        chunk :=
          { declares :=
              if id ∈ memo.apiEndpointIds then []
              else
                [{ id := id, label := .endpoint,
                   name := endpointDisplay (refVerb ref) route ref.recv,
                   fqn := endpointFqn (refVerb ref) route ref.recv,
                   repo := endpointRepo settings ref, kind := .endpoint,
                   method := refVerb ref, route := route, host := ref.recv }]
            links := [edge] } }
  | hits =>
      { memo := memo.judge ref.type .resolved
        chunk.links := fanOut ref ref.type hits .extracted "api_match" }

/-- `_FILE_REF_LANGS`. -/
def fileRefLangs : EdgeType → List Lang
  | .renders => [.jsp]
  | .includesScript => [.javascript, .typescript, .tsx]
  | .includesPage => [.jsp]
  | _ => []

/-- The directory of a path, with backslashes (code point 92) read as slashes. -/
def directoryOf (file : Str) : Str :=
  let path := replaceLetter (Char.ofNat 92) '/' file
  if '/' ∈ path then beforeLast '/' path else []

/-- A reference to a file by its basename, same directory preferred. -/
def resolveFileRef (memo : Memo) (ref : RawRef) : Answer :=
  if ref.kindHint ≠ .file then { memo := memo.judge ref.type .external }
  else
    let files := corpus.filesByBasename ref.targetName
    let candidates := files.filter fun node => (fileRefLangs ref.type).contains node.lang
    let sameDir := candidates.filter fun node => directoryOf node.file = directoryOf ref.refFile
    if 1 < candidates.length ∧ ref.refFile ≠ [] ∧ sameDir ≠ [] then
      emit settings memo ref sameDir .extracted (!files.isEmpty) "file_same_dir"
    else emit settings memo ref candidates .extracted (!files.isEmpty) "file_basename"

/-- A reference to a handler class, by fqn or else by simple name. -/
def resolveHandler (memo : Memo) (ref : RawRef) : Answer :=
  match corpus.classByFqn ref.targetName with
  | some node =>
      { memo := memo.judge ref.type .resolved
        chunk.links := [heuristicEdge ref ref.type node.id .extracted "handler_fqn"] }
  | none =>
      let classes := corpus.classesByName (simpleName ref.targetName)
      emit settings memo ref classes .inferred (!classes.isEmpty) "handler_name"

/-- Collect the taint facts of a call typed outside the repository. -/
def markCall (memo : Memo) (ref : RawRef) : Memo :=
  match classifyTaint settings.catalog ref.recvType ref.targetName with
  | none => memo
  | some (entry, positions) =>
      let mark := (memo.marks.getD ref.src {}).record ref entry positions
      { memo with marks := memo.marks.set ref.src mark }

/-- The node of an external call target known by its simple type name. -/
def externalTarget (kind : ExternalKind) (ref : RawRef) : Node where
  id := externalId settings.makeId ref.recvType ref.targetName
  label := .external
  name := externalDisplay ref.recvType ref.targetName
  fqn := externalKey ref.recvType ref.targetName
  repo := "external"
  kind := .external kind

/-- A call typed outside the repository: its taint facts, and its target when the
call is recognised. -/
def resolveExternal (memo : Memo) (ref : RawRef) : Answer :=
  let marked := markCall settings (memo.judge ref.type .external) ref
  match classifyCall settings.catalog ref.recvType ref.targetName [] with
  | none => { memo := marked }
  | some kind =>
      let target := externalTarget settings kind ref
      { memo := { marked with
          externalIds :=
            if target.id ∈ memo.externalIds then memo.externalIds
            else target.id :: memo.externalIds }
        chunk :=
          { declares := if target.id ∈ memo.externalIds then [] else [target]
            links := [heuristicEdge ref .callsExternal target.id .extracted "external_typed"] } }

/-- A call of an unknown receiver found by its bare name: demoted to a symbol
use. -/
def resolveUnknownReceiver (memo : Memo) (ref : RawRef) (wanted : List Node) (strategy : Str) :
    Answer :=
  let entered := (memo.leave ref.type).enter .references
  let name := strategy ++ "+unknown_recv".toList
  match wanted with
  | [node] =>
      { memo := entered.judge .references .resolved
        chunk.links := [heuristicEdge ref .references node.id .inferred name] }
  | _ =>
      if overCap settings wanted then { memo := entered.judge .references .unresolved }
      else
        { memo := entered.judge .references .ambiguous
          chunk.links := fanOut ref .references wanted .ambiguous name }

/-- What a dotted call target is tried as when nothing else is found. -/
def fallbackReferenceCandidates (name : Str) : List Node :=
  let tail := simpleName name
  if tail = [] ∨ tail = name then []
  else
    let functions := corpus.functionsByName tail
    if functions.isEmpty then corpus.byName tail else functions

/-- A call without candidates, kept as a symbol use of its last name. -/
def resolveFallback (memo : Memo) (ref : RawRef) (strategy : Str) : Answer :=
  let name := (if strategy = [] then "none".toList else strategy) ++ "+fallback_tail".toList
  match fallbackReferenceCandidates corpus ref.targetName with
  | [] => { memo := memo }
  | [node] =>
      { memo := (memo.enter .references).judge .references .resolved
        chunk.links := [heuristicEdge ref .references node.id .inferred name] }
  | fallback =>
      { memo := (memo.enter .references).judge .references .ambiguous
        chunk.links := fanOut ref .references fallback .ambiguous name }

/-- A call whose receiver may be in the repository. -/
def resolveInRepoCall (memo : Memo) (ref : RawRef) : Answer :=
  let (wanted, strategy) := corpus.narrowCall ref
  let known := !(corpus.byName ref.targetName).isEmpty
  if wanted ≠ [] ∧ isNameStrategy strategy ∧ ref.recv ≠ [] ∧ ref.recv ≠ "self".toList ∧
      ref.recv ≠ "cls".toList then
    resolveUnknownReceiver settings memo ref wanted strategy
  else
    let answer := emit settings memo ref wanted .inferred known strategy
    if wanted = [] then resolveFallback corpus answer.memo ref strategy else answer

/-- A call: skipped in a file that a precise tier owns, an external fact when its
receiver is typed outside the repository. -/
def resolveCall (memo : Memo) (ref : RawRef) : Answer :=
  if ref.refFile ∈ settings.skipCallFiles then { memo := memo.judge ref.type .external }
  else if corpus.externalReceiver ref then resolveExternal settings memo ref
  else resolveInRepoCall settings corpus memo ref

/-- The fields with the name of a reference in the class around it. -/
def fieldsAround (ref : RawRef) : List Node :=
  match corpus.enclosingClassId ref.src with
  | some cls => corpus.fieldsOfClass cls ref.targetName
  | none => []

/-- A field access: a field of the class around it, else a module-level variable
of its file. -/
def resolveField (memo : Memo) (ref : RawRef) : Answer :=
  let own := fieldsAround corpus ref
  if own ≠ [] then emit settings memo ref own .extracted true "same_scope"
  else
    match corpus.nodeById ref.src with
    | none => emit settings memo ref [] .extracted false "same_scope"
    | some source =>
        if source.file = [] then emit settings memo ref [] .extracted false "same_scope"
        else
          let globals := corpus.fieldsOfFile source.file ref.targetName
          emit settings memo ref globals .extracted (!globals.isEmpty) "same_file_global"

/-- A reference to a type. -/
def resolveType (memo : Memo) (ref : RawRef) : Answer :=
  let (wanted, strategy) := corpus.narrowType ref
  let confidence : Confidence :=
    if strategy = "name".toList ∨ strategy = "none".toList then .inferred else .extracted
  emit settings memo ref wanted confidence
    (!(corpus.classesByName (simpleName ref.targetName)).isEmpty) strategy

/-- Any other reference: the symbols of its name, those of the hinted shape
first. -/
def resolveHinted (memo : Memo) (ref : RawRef) : Answer :=
  let candidates := corpus.byName ref.targetName
  let shaped :=
    if ref.kindHint = .type ∨ ref.kindHint = .import then
      candidates.filter fun node => node.label = .cls
    else if ref.kindHint = .call then candidates.filter fun node => node.label = .function
    else candidates
  let wanted := if shaped.isEmpty then candidates else shaped
  emit settings memo ref wanted .inferred (!candidates.isEmpty) "kind_hint"

/-- One reference. -/
def resolveOneRef (memo : Memo) (ref : RawRef) : Answer :=
  if dropped ref.type then { memo := memo }
  else
    match ref.type with
    | .annotatedWith => resolveAnnotated settings memo ref
    | .callsApi => resolveApi settings corpus memo ref
    | .renders | .includesScript | .includesPage => resolveFileRef settings corpus memo ref
    | .handledBy => resolveHandler settings corpus memo ref
    | .calls => resolveCall settings corpus memo ref
    | .reads | .writes => resolveField settings corpus memo ref
    | .extends | .implements | .instantiates | .autowired => resolveType settings corpus memo ref
    | _ => resolveHinted settings corpus memo ref

end Steps

end GraphIngest.Resolve
