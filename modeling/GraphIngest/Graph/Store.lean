import GraphIngest.Foundation.Upsert
import GraphIngest.Graph.Record

/-! # The stored graph

A node is stored under its id and a relationship under its type and ends, so that
writing either again puts the new properties over the old ones: a property that
the new record leaves empty keeps its value, and no label is ever taken off.
-/

namespace GraphIngest.Graph

open Foundation

/-- A property after one more write: an empty value is not written. -/
def rewrite {α : Type*} [DecidableEq α] (absent old new : α) : α :=
  if new = absent then old else new

/-- A node as stored: its labels and the properties that are kept of it. -/
structure StoredNode where
  labels : List NodeLabel
  name : Str
  fqn : Str
  repo : Str
  kind : NodeKind
  lang : Lang
  file : Str
  startLine : Int
  endLine : Int
  visibility : Visibility
  isStatic : Bool
  isAbstract : Bool
  returnType : Str
  paramCount : Nat
  signature : Str
  method : Str
  route : Str
  scope : Scope
  confidence : Confidence
deriving DecidableEq, Repr

/-- The record written for a node. -/
def Node.props (node : Node) : StoredNode where
  labels := [node.label]
  name := node.name
  fqn := node.fqn
  repo := node.repo
  kind := node.kind
  lang := node.lang
  file := node.file
  startLine := node.startLine
  endLine := node.endLine
  visibility := node.visibility
  isStatic := node.isStatic
  isAbstract := node.isAbstract
  returnType := node.returnType
  paramCount := node.paramCount
  signature := node.signature
  method := node.method
  route := node.route
  scope := node.scope
  confidence := node.confidence

/-- `SET n:label, n += row.props`. -/
def StoredNode.over (old new : StoredNode) : StoredNode where
  labels := new.labels.foldl (fun labels label => labels.insert label) old.labels
  name := rewrite [] old.name new.name
  fqn := rewrite [] old.fqn new.fqn
  repo := rewrite [] old.repo new.repo
  kind := rewrite .none old.kind new.kind
  lang := rewrite .none old.lang new.lang
  file := rewrite [] old.file new.file
  startLine := rewrite 0 old.startLine new.startLine
  endLine := rewrite 0 old.endLine new.endLine
  visibility := rewrite .none old.visibility new.visibility
  isStatic := rewrite false old.isStatic new.isStatic
  isAbstract := rewrite false old.isAbstract new.isAbstract
  returnType := rewrite [] old.returnType new.returnType
  paramCount := rewrite 0 old.paramCount new.paramCount
  signature := rewrite [] old.signature new.signature
  method := rewrite [] old.method new.method
  route := rewrite [] old.route new.route
  scope := rewrite .none old.scope new.scope
  confidence := new.confidence

/-- A relationship as stored, under its type and ends. -/
structure Relationship where
  confidence : Confidence
  origin : Origin
  evidenceLine : Int
  strategy : Str
deriving DecidableEq, Repr

/-- The record written for an edge. -/
def Edge.props (edge : Edge) : Relationship where
  confidence := edge.confidence
  origin := edge.origin
  evidenceLine := edge.evidenceLine
  strategy := edge.strategy

/-- `SET r += row.props`. -/
def Relationship.over (old new : Relationship) : Relationship where
  confidence := new.confidence
  origin := new.origin
  evidenceLine := rewrite 0 old.evidenceLine new.evidenceLine
  strategy := rewrite [] old.strategy new.strategy

/-- What the store holds of nodes and relationships. -/
structure GraphStore where
  nodes : Dict NodeId StoredNode := Dict.empty
  relationships : Dict EdgeKey Relationship := Dict.empty

/-- `MERGE` one node and set its properties. -/
def mergeNode (nodes : Dict NodeId StoredNode) (node : Node) : Dict NodeId StoredNode :=
  nodes.upsert StoredNode.over (node.id, node.props)

/-- `MERGE` one relationship and set its properties. -/
def mergeEdge (relationships : Dict EdgeKey Relationship) (edge : Edge) :
    Dict EdgeKey Relationship :=
  relationships.upsert Relationship.over (edge.key, edge.props)

section Lookups

/-- What an id holds after some writes. -/
theorem get?_foldl_mergeNode (nodes : List Node) (dict : Dict NodeId StoredNode) (id : NodeId) :
    (nodes.foldl mergeNode dict).get? id =
      settled StoredNode.over (dict.get? id)
        ((nodes.filter fun node => node.id = id).map Node.props) := by
  have mapped := @Dict.get?_foldl_upsert _ _ StoredNode.over _
    (nodes.map fun node => (node.id, node.props)) dict id
  rw [List.foldl_map, List.filter_map, List.map_map] at mapped
  exact mapped

/-- What a type and two ends hold after some writes. -/
theorem get?_foldl_mergeEdge (edges : List Edge) (dict : Dict EdgeKey Relationship)
    (key : EdgeKey) :
    (edges.foldl mergeEdge dict).get? key =
      settled Relationship.over (dict.get? key)
        ((edges.filter fun edge => edge.key = key).map Edge.props) := by
  have mapped := @Dict.get?_foldl_upsert _ _ Relationship.over _
    (edges.map fun edge => (edge.key, edge.props)) dict key
  rw [List.foldl_map, List.filter_map, List.map_map] at mapped
  exact mapped

end Lookups

end GraphIngest.Graph
