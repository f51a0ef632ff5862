import GraphIngest.Foundation.Dict
import GraphIngest.Foundation.KeyedLog
import GraphIngest.Foundation.Worklist
import GraphIngest.Graph.Record

/-! # The derive passes

Overrides by the class hierarchy of the edges in memory, where no precise pass has
answered, and links from functions to the tables that their text names. Both join listed
nodes only.
-/

namespace GraphIngest.Pipeline

open Foundation Text Graph

/-- What the derive passes look up: the nodes by id, the container of each node, and the
supertypes of each class. -/
structure DeriveIndex where
  byId : Dict NodeId Node
  parentOf : Dict NodeId NodeId := Dict.empty
  supers : Dict NodeId (List NodeId) := Dict.empty

namespace DeriveIndex

/-- Whether an id is that of a Class node. -/
def isClass (index : DeriveIndex) (id : NodeId) : Bool :=
  (index.byId.get? id).any fun node => node.label = .cls

/-- Enter one edge. -/
def enter (index : DeriveIndex) (edge : Edge) : DeriveIndex :=
  if edge.type = .contains then { index with parentOf := index.parentOf.set edge.dst edge.src }
  else if edge.type = .extends ∨ edge.type = .implements then
    if index.isClass edge.src && index.isClass edge.dst then
      { index with supers := index.supers.append edge.src edge.dst }
    else index
  else index

/-- `shared_by_id`, `shared_parent_of` and `shared_supers`. -/
def build (nodes : List Node) (edges : List Edge) : DeriveIndex :=
  edges.foldl enter
    { byId := nodes.foldl (fun dict node => dict.set node.id node) Dict.empty }

/-- The ancestors of a class, in the order the stack visits them. -/
def ancestorsOf (index : DeriveIndex) (cls : NodeId) : List NodeId :=
  let next := fun id => index.supers.getD id []
  let stack := (next cls).reverse
  walk (fun _ => true) next (budget next index.supers.keys stack) stack []

end DeriveIndex

section Overrides

/-- Whether the override pass looks at a node. -/
def isMethod (node : Node) : Bool := node.label = .function && node.kind = .method

/-- The class around a node, if it is one. -/
def DeriveIndex.classOf (index : DeriveIndex) (node : Node) : Option NodeId :=
  (index.parentOf.get? node.id).filter fun parent => index.isClass parent

/-- `methods_of`: the methods of each class by their name. -/
def DeriveIndex.methodsOf (index : DeriveIndex) (nodes : List Node) :
    Dict (NodeId × Str) (List Node) :=
  (nodes.filter isMethod).foldl (fun methods node =>
    match index.classOf node with
    | some cls => methods.append (cls, node.name) node
    | none => methods) Dict.empty

/-- An override by name and arity. -/
def heuristicOverride (node method : Node) : Edge where
  type := .overrides
  src := node.id
  dst := method.id
  confidence := .inferred
  extractor := "heuristic"
  evidenceFile := node.file
  evidenceLine := node.startLine
  strategy := "hierarchy"

/-- The methods and the pairs that the bytecode pass has answered for. -/
structure Withheld where
  methods : List NodeId := []
  pairs : List (NodeId × NodeId) := []
deriving DecidableEq

variable (withheld : Withheld)

/-- Compare a method with one method of an ancestor. -/
def compareMethod (node : Node) (log : KeyedLog Edge.key) (method : Node) : KeyedLog Edge.key :=
  if method.id ≠ node.id ∧ method.paramCount = node.paramCount ∧
      (node.id, method.id) ∉ withheld.pairs then
    log.emit (heuristicOverride node method)
  else log

/-- The overrides of one node. -/
def overridesOfNode (index : DeriveIndex) (methods : Dict (NodeId × Str) (List Node))
    (log : KeyedLog Edge.key) (node : Node) : KeyedLog Edge.key :=
  if isMethod node && !withheld.methods.contains node.id then
    match index.parentOf.get? node.id with
    | none => log
    | some cls =>
        (index.ancestorsOf cls).foldl (fun log ancestor =>
          (methods.getD (ancestor, node.name) []).foldl (compareMethod withheld node) log) log
  else log

/-- `_derive_overrides`. -/
def deriveOverrides (nodes : List Node) (edges : List Edge) : List Edge :=
  let index := DeriveIndex.build nodes edges
  (nodes.foldl (overridesOfNode withheld index (index.methodsOf nodes)) .empty).entries

/-- A method looked up is a listed node. -/
theorem mem_of_mem_methodsOf {index : DeriveIndex} {nodes : List Node} {key : NodeId × Str}
    {method : Node} (found : method ∈ (index.methodsOf nodes).getD key []) : method ∈ nodes := by
  have each : ∀ (methods : Dict (NodeId × Str) (List Node)) (node : Node),
      method ∈ (match index.classOf node with
        | some cls => methods.append (cls, node.name) node
        | none => methods).getD key [] →
      method ∈ methods.getD key [] ∨ node = method := by
    intro methods node held
    cases around : index.classOf node with
    | none =>
        rw [around] at held
        exact Or.inl held
    | some cls =>
        simp only [around, Dict.getD_append] at held
        split at held
        · next same =>
            rw [← same] at held
            exact (List.mem_append.mp held).imp_right fun own => (List.mem_singleton.mp own).symm
        · exact Or.inl held
  have listed := foldl_origin (fun methods : Dict (NodeId × Str) (List Node) =>
    method ∈ methods.getD key []) each (nodes.filter isMethod) Dict.empty found
  obtain ⟨node, kept, rfl⟩ := listed.resolve_left List.not_mem_nil
  exact List.mem_of_mem_filter kept

/-- An override that may be added: between two listed nodes, of a method and of a pair that
are not withheld. -/
structure Addable (nodes : List Node) (edge : Edge) : Prop where
  joins : ∃ node ∈ nodes, ∃ method ∈ nodes, edge = heuristicOverride node method
  method : edge.src ∉ withheld.methods
  pair : (edge.src, edge.dst) ∉ withheld.pairs

variable {withheld}

/-- **Heuristic overrides.** Each joins two listed nodes, and none is of a method or a pair
that is withheld. -/
theorem addable_of_mem_deriveOverrides {nodes : List Node} {edges : List Edge} {edge : Edge}
    (derived : edge ∈ deriveOverrides withheld nodes edges) : Addable withheld nodes edge := by
  let holds := fun log : KeyedLog Edge.key => ∀ edge ∈ log.entries, Addable withheld nodes edge
  have compared : ∀ node ∈ nodes, node.id ∉ withheld.methods → ∀ method ∈ nodes, ∀ log,
      holds log → holds (compareMethod withheld node log method) := by
    intro node listed free method found log held edge member
    unfold compareMethod at member
    split at member
    · next fits =>
        rcases KeyedLog.mem_of_mem_emit member with before | rfl
        · exact held edge before
        · exact ⟨⟨node, listed, method, found, rfl⟩, free, fits.2.2⟩
    · exact held edge member
  have each : ∀ log, ∀ node ∈ nodes, holds log → holds (overridesOfNode withheld
      (DeriveIndex.build nodes edges) ((DeriveIndex.build nodes edges).methodsOf nodes) log
        node) := by
    intro log node listed held
    unfold overridesOfNode
    split
    · next looked =>
        rw [Bool.and_eq_true, Bool.not_eq_true', List.contains_eq_mem, decide_eq_false_iff_not]
          at looked
        split
        · exact held
        · refine foldl_preserves holds _ ?_ log held
          intro log ancestor _ held
          refine foldl_preserves holds _ ?_ log held
          intro log method found held
          exact compared node listed looked.2 method (mem_of_mem_methodsOf found) log held
    · exact held
  have whole : holds _ := foldl_preserves holds nodes each .empty (List.forall_mem_nil _)
  exact whole edge derived

end Overrides

section SqlLinks

/-- The tables by repository and lower-case name, the last one of each. -/
def tablesByRepo (nodes : List Node) : Dict (Str × Str) NodeId :=
  nodes.foldl (fun tables node => if (node.label = .table : Bool) then
    tables.set (node.repo, lower node.name) node.id else tables) Dict.empty

/-- A link from a function to a table. -/
def sqlLink (type : EdgeType) (node : Node) (table : NodeId) : Edge where
  type := type
  src := node.id
  dst := table
  confidence := .inferred
  origin := .derived
  extractor := "sql_linker"
  evidenceFile := node.file
  evidenceLine := node.startLine

/-- What the SQL patterns find in the text of a function, the writes before the reads. -/
structure SqlScan where
  found : Node → List (EdgeType × Str)
  typed : ∀ node, ∀ hit ∈ found node, hit.1 = .writes ∨ hit.1 = .reads

variable (scan : SqlScan)

/-- The link that one hit gives. -/
def linkTable (tables : Dict (Str × Str) NodeId) (node : Node) (log : KeyedLog Edge.key)
    (hit : EdgeType × Str) : KeyedLog Edge.key :=
  match tables.get? (node.repo, lower hit.2) with
  | some table => log.emit (sqlLink hit.1 node table)
  | none => log

/-- `_derive_sql_links`. -/
def deriveSqlLinks (nodes : List Node) : List Edge :=
  let tables := tablesByRepo nodes
  (nodes.foldl (fun log node =>
    if node.label = .function ∧ node.file ≠ [] ∧ node.startLine ≠ 0 then
      (scan.found node).foldl (linkTable tables node) log
    else log) KeyedLog.empty).entries

/-- A table looked up is a listed node. -/
theorem exists_of_tablesByRepo {nodes : List Node} {key : Str × Str} {table : NodeId}
    (found : (tablesByRepo nodes).get? key = some table) : ∃ node ∈ nodes, node.id = table := by
  unfold tablesByRepo at found
  rw [Dict.get?_foldl_set, Dict.get?_empty, Option.or_none, Option.map_eq_some_iff] at found
  obtain ⟨node, last, same⟩ := found
  exact ⟨node, List.mem_reverse.mp (List.mem_of_find?_eq_some last), same⟩

/-- **SQL links.** Each is a READS or WRITES edge from a listed node to a listed node. -/
theorem ends_of_mem_deriveSqlLinks {nodes : List Node} {edge : Edge}
    (derived : edge ∈ deriveSqlLinks scan nodes) :
    (edge.type = .writes ∨ edge.type = .reads) ∧
      (∃ node ∈ nodes, node.id = edge.src) ∧ ∃ node ∈ nodes, node.id = edge.dst := by
  let holds := fun log : KeyedLog Edge.key => ∀ edge ∈ log.entries,
    (edge.type = .writes ∨ edge.type = .reads) ∧
      (∃ node ∈ nodes, node.id = edge.src) ∧ ∃ node ∈ nodes, node.id = edge.dst
  refine foldl_preserves holds nodes ?_ .empty (List.forall_mem_nil _) edge derived
  intro log node listed held
  split
  · refine foldl_preserves holds (scan.found node) ?_ log held
    intro log hit named held
    unfold linkTable
    split
    · next table known =>
        intro edge member
        rcases KeyedLog.mem_of_mem_emit member with before | rfl
        · exact held edge before
        · exact ⟨scan.typed node hit named, ⟨node, listed, rfl⟩, exists_of_tablesByRepo known⟩
    · exact held
  · exact held

end SqlLinks

end GraphIngest.Pipeline
