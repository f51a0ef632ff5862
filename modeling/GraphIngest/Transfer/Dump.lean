import GraphIngest.Foundation.Fallible
import GraphIngest.Foundation.Grouping
import GraphIngest.Foundation.PropertyGraph
import GraphIngest.Text
import Mathlib.Data.Char
import Mathlib.Data.List.Lex
import Mathlib.Data.Nat.Digits.Defs

/-! # Dumps of a namespace

A namespace is written to a file as the rows of its nodes, those of the relationships between
them, and its metadata, in whatever order the database hands them out. Reading such a file
back merges the nodes by their ids, grouped by their labels, and then the relationships,
grouped by their type, in batches; a label or type that is no plain word stops it. What has
been written until then stays.
-/

namespace GraphIngest.Transfer

open Foundation Text

section Values

/-- A single value of the database; floats by their bits, dates, times and decimals by what
`str` makes of them. -/
inductive Scalar
  | text (word : Str)
  | int (number : Int)
  | float (bits : UInt64)
  | bool (value : Bool)
  | bytes (data : List UInt8)
  | stamp (written : Str)
deriving DecidableEq, Repr

/-- The value of a property. -/
inductive PropValue
  | one (value : Scalar)
  | many (values : List Scalar)
deriving DecidableEq, Repr

/-- `bytes.hex`. -/
def hex (data : List UInt8) : Str :=
  data.flatMap fun byte => [Nat.digitChar (byte.toNat / 16), Nat.digitChar (byte.toNat % 16)]

/-- `_jsonify` of a single value. -/
def Scalar.jsonify : Scalar → Scalar
  | .bytes data => .text (hex data)
  | .stamp written => .text written
  | value => value

/-- `_jsonify`. -/
def PropValue.jsonify : PropValue → PropValue
  | .one value => .one value.jsonify
  | .many values => .many (values.map Scalar.jsonify)

/-- The properties of a node or of a relationship. -/
abbrev Props := Dict Str PropValue

/-- `_jsonify` of properties. -/
def jsonProps (props : Props) : Props := props.image fun _ => PropValue.jsonify

/-- The value that a text is. -/
def word (text : Str) : PropValue := .one (.text text)

end Values

section Database

/-- `SHARED_LABEL`. -/
def sharedLabel : Str := "CodeNode"

abbrev CodeGraph := PropertyGraph Str Str Str Str PropValue

/-- Nodes under their ids with the label that all of them share, and metadata by namespace. -/
@[ext]
structure Database where
  graph : CodeGraph
  metas : Dict Str Props
  named : ∀ id vertex, graph.vertices.get? id = some vertex →
    vertex.props.get? "id".toList = some (word id)
  shared : ∀ id vertex, graph.vertices.get? id = some vertex → sharedLabel ∈ vertex.labels

/-- A database without a node. -/
def Database.blank : Database where
  graph := .empty
  metas := .empty
  named := fun _ _ present => by cases present
  shared := fun _ _ present => by cases present

/-- Whether a node is of a namespace. -/
def ofRepo (repo : Str) (vertex : Vertex Str Str PropValue) : Bool :=
  decide (vertex.props.get? "repo".toList = some (word repo))

end Database

section Export

/-- A node in a file. -/
structure NodeRow where
  id : Str
  labels : List Str
  props : Props

/-- A relationship in a file. -/
structure EdgeRow where
  src : Str
  dst : Str
  type : Str
  props : Props

/-- What a file holds. -/
structure Payload where
  repo : Str
  nodes : List NodeRow
  edges : List EdgeRow
  graphMeta : Option Props

/-- The labels of a node in a file: the shared one is left out. -/
def rowLabels (vertex : Vertex Str Str PropValue) : List Str :=
  (vertex.labels.filter fun label => label != sharedLabel).insertionSort fun first second =>
    first ≤ second

/-- The row of a node; a node without an id has none. -/
def nodeRow (entry : Str × Vertex Str Str PropValue) : Option NodeRow :=
  if entry.1 = [] then none
  else some ⟨entry.1, rowLabels entry.2, jsonProps entry.2.props⟩

/-- The row of a relationship. -/
def edgeRow (entry : (Str × Str × Str) × Props) : Option EdgeRow :=
  if entry.1.2.1 = [] ∨ entry.1.2.2 = [] ∨ entry.1.1 = [] then none
  else some ⟨entry.1.2.1, entry.1.2.2, entry.1.1, jsonProps entry.2⟩

variable (database : Database) (repo : Str)

/-- `_read_nodes`. -/
def readNodes : List NodeRow :=
  (database.graph.vertices.filter fun _ vertex => ofRepo repo vertex).entries.filterMap nodeRow

/-- `_read_edges`. -/
def readEdges : List EdgeRow :=
  (database.graph.links.filter fun key _ =>
    database.graph.joins (ofRepo repo) key).entries.filterMap edgeRow

/-- `_read_graph_meta`. -/
def readGraphMeta : Option Props := (database.metas.get? repo).map (jsonProps)

/-- `export_graph`: a file it can write, whatever the order of the rows. -/
structure Exports (includeMeta : Bool) (payload : Payload) : Prop where
  titled : payload.repo = repo
  nodes : payload.nodes.Perm (readNodes database repo)
  edges : payload.edges.Perm (readEdges database repo)
  graphMeta : payload.graphMeta = if includeMeta then readGraphMeta database repo else none

/-- The file with the rows in the order of the database. -/
def exportGraph (includeMeta : Bool) : Payload where
  repo := repo
  nodes := readNodes database repo
  edges := readEdges database repo
  graphMeta := if includeMeta then readGraphMeta database repo else none

theorem exports_exportGraph (includeMeta : Bool) :
    Exports database repo includeMeta (exportGraph database repo includeMeta) :=
  ⟨rfl, .refl _, .refl _, rfl⟩

end Export

section Import

inductive TokenKind
  | label | relationshipType
deriving DecidableEq, Repr

/-- Why a file is not read. -/
inductive ImportError
  | invalid (kind : TokenKind) (token : Str)
  | noRepo
deriving DecidableEq, Repr

/-- `_TOKEN_RE`: a letter or an underscore, then letters, digits and underscores. -/
def isToken : Str → Bool
  | [] => false
  | first :: rest =>
      (first.isAlpha || first == '_') && rest.all fun letter => letter.isAlphanum || letter == '_'

/-- `_safe_token`. -/
def safeToken (kind : TokenKind) (token : Str) : Except ImportError Str :=
  if isToken token then .ok token else .error (.invalid kind token)

/-- `_BATCH`. -/
def batchSize : ℕ+ := 1000

/-- A row of the query that merges nodes. -/
structure MergeRow where
  id : Str
  labels : List Str
  props : Props

variable (repo : Str)

/-- The node that a row merges: the id and the namespace go over what the row has. -/
def MergeRow.vertex (row : MergeRow) : Str × Vertex Str Str PropValue :=
  (row.id, ⟨sharedLabel :: row.labels,
    (row.props.set "id".toList (word row.id)).set "repo".toList (word repo)⟩)

theorem props_id_vertex (row : MergeRow) :
    (row.vertex repo).2.props.get? "id".toList = some (word (row.vertex repo).1) := by
  rw [MergeRow.vertex, Dict.get?_set, if_neg (by decide), Dict.get?_set_self]

/-- The row of a node of the file, which has an id. -/
def mergeRow (node : NodeRow) : Except ImportError MergeRow := do
  let labels ← node.labels.mapM (safeToken .label)
  return ⟨node.id, labels.insertionSort (fun first second => first ≤ second), node.props⟩

/-- A row of the query that merges relationships. -/
def linkRow (edge : EdgeRow) : Except ImportError ((Str × Str × Str) × Props) := do
  let type ← safeToken .relationshipType edge.type
  return ((type, edge.src, edge.dst), edge.props)

namespace Database

variable (database : Database)

/-- `_wipe_repo`. -/
def wipe : Database where
  graph := database.graph.delete (ofRepo repo)
  metas := database.metas
  named := by
    intro id vertex present
    rw [PropertyGraph.delete, Dict.get?_filter, Option.filter_eq_some_iff] at present
    exact database.named id vertex present.1
  shared := by
    intro id vertex present
    rw [PropertyGraph.delete, Dict.get?_filter, Option.filter_eq_some_iff] at present
    exact database.shared id vertex present.1

/-- `UNWIND $rows AS row MERGE (n:CodeNode {id: row.id}) SET n:labels, n += row.props`. -/
def mergeNodes (rows : List MergeRow) : Database where
  graph := database.graph.mergeVertices (rows.map (MergeRow.vertex repo))
  metas := database.metas
  named := fun _ _ => PropertyGraph.holds_mergeVertices
    (fun id vertex => vertex.props.get? "id".toList = some (word id))
    (fun _ _ _ _ new => by rw [Vertex.plus, Dict.get?_putAll, new, Option.some_or])
    database.named fun row listed => by
      obtain ⟨row, _, rfl⟩ := List.mem_map.mp listed
      exact props_id_vertex repo row
  shared := fun _ _ => PropertyGraph.holds_mergeVertices
    (fun _ vertex => sharedLabel ∈ vertex.labels)
    (fun _ old new before _ => (Vertex.mem_labels_plus old new _).mpr (.inl before))
    database.shared fun row listed => by
      obtain ⟨row, _, rfl⟩ := List.mem_map.mp listed
      exact List.mem_cons_self

/-- `UNWIND $rows AS row MATCH (a) MATCH (b) MERGE (a)-[r]->(b) SET r += row.props`, both ends
being of the namespace. -/
def mergeEdges (rows : List ((Str × Str × Str) × Props)) : Database where
  graph := database.graph.mergeLinks (ofRepo repo) rows
  metas := database.metas
  named := database.named
  shared := database.shared

/-- `_upsert_graph_meta`. -/
def upsertGraphMeta (graphMeta : Props) : Database :=
  { database with
    metas := database.metas.upsert Dict.putAll
      (repo, (graphMeta.filter fun key _ => key != "namespace".toList).set "namespace".toList
        (word repo)) }

/-- The metadata of a file, if there is any. -/
def takeMeta : Option Props → Database
  | some graphMeta => database.upsertGraphMeta repo graphMeta
  | none => database

end Database

/-- The batches that rows are written in: those of one group together. -/
def batchesBy {α κ : Type*} [DecidableEq κ] (key : α → κ) (rows : List α) : List (List α) :=
  (grouped key rows).values.flatMap (chunksOf batchSize)

variable (database : Database)

/-- `_write_nodes`. -/
def writeNodes (nodes : List NodeRow) : Except ImportError (Database × Nat) := do
  let rows ← (nodes.filter fun node => decide (node.id ≠ [])).mapM mergeRow
  return (batchesBy MergeRow.labels rows).foldl (fun state batch =>
    (state.1.mergeNodes repo batch, state.2 + batch.length)) (database, 0)

/-- `_write_edges`. -/
def writeEdges (edges : List EdgeRow) : Except ImportError (Database × Nat) := do
  let rows ← (edges.filter fun edge =>
    decide (edge.src ≠ [] ∧ edge.dst ≠ [] ∧ edge.type ≠ [])).mapM linkRow
  return (batchesBy (fun row => row.1.1) rows).foldl (fun state batch =>
    (state.1.mergeEdges repo batch, state.2 + batch.length)) (database, 0)

/-- The namespace that a file is read into. -/
def destination (payload : Payload) (override : Option Str) : Str :=
  (override.filter fun name => decide (name ≠ [])).getD payload.repo

/-- `import_graph`: the database afterwards, and the namespace with the numbers of rows
written, unless it stops. -/
def importGraph (payload : Payload) (override : Option Str) (wipeFirst : Bool)
    (database : Database) : Database × Except ImportError (Str × Nat × Nat) :=
  let repo := destination payload override
  if repo = [] then (database, .error .noRepo)
  else
    let ready := if wipeFirst then database.wipe repo else database
    match writeNodes repo ready payload.nodes with
    | .error error => (ready, .error error)
    | .ok (noded, writtenNodes) =>
        match writeEdges repo noded payload.edges with
        | .error error => (noded, .error error)
        | .ok (linked, writtenEdges) =>
            (linked.takeMeta repo payload.graphMeta, .ok (repo, writtenNodes, writtenEdges))

end Import

end GraphIngest.Transfer
