import GraphIngest.Text

/-! # Graph records

Nodes, resolved edges and raw references as the extractors emit them, with the
vocabularies of labels, edge types, confidences and origins. A node id is a
nonempty text: where the program writes the empty text for "no node", the model
has no id at all.
-/

namespace GraphIngest.Graph

abbrev NodeId := { word : Str // word ≠ [] }

instance : LawfulBEq NodeId := inferInstance

/-- `NODE_LABELS`. -/
inductive NodeLabel
  | repository | package | file | module | cls | function | field | annotation | endpoint
  | event | policy | table | external
deriving DecidableEq, Repr

/-- `EDGE_TYPES`. -/
inductive EdgeType
  | contains | belongsTo | imports | calls | instantiates | extends | implements | annotatedWith
  | returns | ofType | hasType | hasGeneric
  | overrides | reads | writes | throws | catches
  | exposes | callsApi | renders | includesScript | includesPage | handledBy
  | references | callsExternal | autowired | reExports
  | emitsEvent | consumesEvent | requiresAuth | enforcesPolicy
deriving DecidableEq, Repr

/-- How certain a fact is. -/
inductive Confidence
  | extracted | inferred | ambiguous
deriving DecidableEq, Repr

/-- How a fact entered the graph. -/
inductive Origin
  | extracted | derived
deriving DecidableEq, Repr

/-- The kinds of external call targets. -/
inductive ExternalKind
  | dbAcquire | dbExecute | dbRelease | dbOther | reflection | other
  | taintSource | taintSink | taintSanitizer | exec | fileWrite | deserialize | response
deriving DecidableEq, Repr

/-- The `kind` of a node; `none` is the empty kind. -/
inductive NodeKind
  | none | cls | interface | enum | record
  | method | constructor | function | lambda | initializer | anonymous
  | field | globalVariable | annotation | event | policy | endpoint
  | repository | package | table | external (kind : ExternalKind)
deriving DecidableEq, Repr

/-- Source languages; `none` when a node has none. -/
inductive Lang
  | none | java | javascript | typescript | tsx | jsp | python | sql
deriving DecidableEq, Repr

/-- Declared visibility; `none` when not recorded. -/
inductive Visibility
  | none | «public» | «private» | «protected» | package
deriving DecidableEq, Repr

/-- Where a variable lives; `none` for other nodes. -/
inductive Scope
  | none | cls | module
deriving DecidableEq, Repr

/-- A graph node. -/
structure Node where
  id : NodeId
  label : NodeLabel
  name : Str
  fqn : Str
  repo : Str
  kind : NodeKind := .none
  lang : Lang := .none
  file : Str := []
  package : Str := []
  startLine : Int := 0
  endLine : Int := 0
  visibility : Visibility := .none
  isStatic : Bool := false
  isAbstract : Bool := false
  paramCount : Nat := 0
  paramTypes : List Str := []
  returnType : Str := []
  signature : Str := []
  method : Str := []
  route : Str := []
  host : Str := []
  scope : Scope := .none
  extractor : Str := []
  confidence : Confidence := .extracted
deriving DecidableEq, Repr

/-- A resolved edge. -/
structure Edge where
  type : EdgeType
  src : NodeId
  dst : NodeId
  confidence : Confidence := .extracted
  origin : Origin := .extracted
  extractor : Str := []
  evidenceFile : Str := []
  evidenceLine : Int := 0
  evidenceCol : Int := 0
  strategy : Str := []
deriving DecidableEq, Repr

/-- The identity of an edge: its type and its endpoints. -/
abbrev EdgeKey := EdgeType × NodeId × NodeId

instance : LawfulBEq EdgeKey := inferInstance

/-- The identity of an edge. -/
def Edge.key (edge : Edge) : EdgeKey := (edge.type, edge.src, edge.dst)

/-- What shape of symbol a reference expects. -/
inductive KindHint
  | none | call | type | import | importWildcard | annotation | file | other
deriving DecidableEq, Repr

/-- An edge whose destination is only known by name. -/
structure RawRef where
  type : EdgeType
  src : NodeId
  targetName : Str
  kindHint : KindHint := .none
  recv : Str := []
  recvType : Str := []
  importFqn : Str := []
  httpMethod : Str := []
  refFile : Str := []
  refLine : Int := 0
  refCol : Int := 0
  callArity : Int := -1
deriving DecidableEq, Repr

end GraphIngest.Graph
