import GraphIngest.Foundation.Dict
import GraphIngest.Foundation.KeyedLog
import GraphIngest.Graph.Bundle

/-! # What the extractors emit

An extractor walks the syntax tree of a file with the declarations that are open around
it. A declaration brings its node together with the edge from the declaration that
contains it, a route its endpoint with the edge from its handler, and a reference begins
at an open declaration. For SQL there are only tables, with the foreign keys between
tables of the same file. A bundle made this way is closed: its edges end at its own nodes
and its references begin there; and so is a merge of such bundles.
-/

namespace GraphIngest.Graph

open Foundation

/-- A place in a file. -/
structure Spot where
  line : Int
  col : Int
deriving DecidableEq, Repr

/-- One step of the walk through a file; `outward` counts the open declarations from the
innermost one. -/
inductive WalkStep
  | enter (outward : Nat) (node : Node) (spot : Spot)
  | leave
  | expose (endpoint : Node) (spot : Spot)
  | refer (outward : Nat) (ref : RawRef)
deriving DecidableEq, Repr

/-- A foreign key of an SQL file: the table it is in, and the one it names. -/
structure ForeignKey where
  table : Str
  refTable : Str
  line : Int
deriving DecidableEq, Repr

/-- The walk through a file: the node of the file and the steps, the tables of an SQL file
by the names in use for them, or nothing when the extractor raised. -/
inductive FileWalk
  | code (extractor relpath : Str) (file : Node) (steps : List WalkStep)
  | sql (extractor relpath : Str) (tables : List (Str × Node)) (keys : List ForeignKey)
  | failed
deriving DecidableEq, Repr

section Definitions

/-- An edge of an extractor. -/
def extractedEdge (extractor relpath : Str) (type : EdgeType) (src dst : NodeId) (spot : Spot) :
    Edge where
  type := type
  src := src
  dst := dst
  extractor := extractor
  evidenceFile := relpath
  evidenceLine := spot.line
  evidenceCol := spot.col

/-- The state of a walk: what was emitted, and the open declarations, innermost first. -/
structure Walk where
  bundle : Bundle
  scope : List NodeId := []
deriving DecidableEq

/-- An open declaration, or the file when there are not that many. -/
def Walk.around (file : NodeId) (walk : Walk) (outward : Nat) : NodeId :=
  walk.scope[outward]?.getD file

variable (extractor relpath : Str)

def Walk.take (file : NodeId) (walk : Walk) : WalkStep → Walk
  | .enter outward node spot =>
      { bundle :=
          { walk.bundle with
            nodes := walk.bundle.nodes ++ [node]
            edges := walk.bundle.edges ++
              [extractedEdge extractor relpath .contains (walk.around file outward) node.id spot] }
        scope := node.id :: walk.scope }
  | .leave => { walk with scope := walk.scope.tail }
  | .expose endpoint spot =>
      { walk with
        bundle :=
          { walk.bundle with
            nodes := walk.bundle.nodes ++ [endpoint]
            edges := walk.bundle.edges ++
              [extractedEdge extractor relpath .exposes (walk.around file 0) endpoint.id spot] } }
  | .refer outward ref =>
      { walk with
        bundle.refs := walk.bundle.refs ++ [{ ref with src := walk.around file outward }] }

/-- `table_id_by_name`. -/
def tableIds (tables : List (Str × Node)) : Dict Str NodeId :=
  tables.foldl (fun ids table => ids.set table.1 table.2.id) Dict.empty

/-- The edge of a foreign key between two tables of the file. -/
def foreignKeyEdge (ids : Dict Str NodeId) (key : ForeignKey) : Option Edge :=
  match ids.get? key.refTable, ids.get? key.table with
  | some dst, some src =>
      some (extractedEdge extractor relpath .references src dst { line := key.line, col := 0 })
  | _, _ => none

end Definitions

/-- `extract`. -/
def FileWalk.extract : FileWalk → Bundle
  | .code extractor relpath file steps =>
      (steps.foldl (Walk.take extractor relpath file.id) { bundle := { nodes := [file] } }).bundle
  | .sql extractor relpath tables keys =>
      { nodes := tables.map Prod.snd
        edges := keys.filterMap (foreignKeyEdge extractor relpath (tableIds tables)) }
  | .failed => {}

/-- A bundle whose edges end at its own nodes, and whose references begin there. -/
structure Bundle.Closed (bundle : Bundle) : Prop where
  src : ∀ edge ∈ bundle.edges, edge.src ∈ bundle.nodes.map Node.id
  dst : ∀ edge ∈ bundle.edges, edge.dst ∈ bundle.nodes.map Node.id
  refs : ∀ ref ∈ bundle.refs, ref.src ∈ bundle.nodes.map Node.id

section Walks

/-- A walk at work: its bundle is closed, and the open declarations have nodes in it. -/
structure Walk.Sound (file : NodeId) (walk : Walk) : Prop where
  closed : walk.bundle.Closed
  file : file ∈ walk.bundle.nodes.map Node.id
  scope : ∀ id ∈ walk.scope, id ∈ walk.bundle.nodes.map Node.id

variable {file : NodeId} {walk : Walk}

/-- What contains a declaration has a node. -/
theorem Walk.Sound.around_mem (sound : walk.Sound file) (outward : Nat) :
    walk.around file outward ∈ walk.bundle.nodes.map Node.id := by
  unfold Walk.around
  cases found : walk.scope[outward]? with
  | none => exact sound.file
  | some id => exact sound.scope id (List.mem_of_getElem? found)

/-- A node with an edge to it from a node of the bundle keeps the bundle closed. -/
theorem Bundle.Closed.extend {bundle : Bundle} (closed : bundle.Closed) (node : Node) {edge : Edge}
    (src : edge.src ∈ bundle.nodes.map Node.id) (dst : edge.dst = node.id) :
    Bundle.Closed { bundle with nodes := bundle.nodes ++ [node], edges := bundle.edges ++ [edge] } := by
  have grows : ∀ id ∈ bundle.nodes.map Node.id, id ∈ (bundle.nodes ++ [node]).map Node.id := by
    intro id listed
    rw [List.map_append]
    exact List.mem_append_left _ listed
  have own : node.id ∈ (bundle.nodes ++ [node]).map Node.id :=
    List.mem_map_of_mem (List.mem_append_right _ List.mem_cons_self)
  refine ⟨?_, ?_, fun ref listed => grows _ (closed.refs ref listed)⟩
  · intro other listed
    rcases List.mem_append.mp listed with before | now
    · exact grows _ (closed.src other before)
    · rw [List.mem_singleton.mp now]
      exact grows _ src
  · intro other listed
    rcases List.mem_append.mp listed with before | now
    · exact grows _ (closed.dst other before)
    · rw [List.mem_singleton.mp now, dst]
      exact own

/-- A step of a walk keeps it sound. -/
theorem Walk.Sound.take (sound : walk.Sound file) (extractor relpath : Str) (step : WalkStep) :
    (walk.take extractor relpath file step).Sound file := by
  have grows : ∀ (node : Node) (id : NodeId), id ∈ walk.bundle.nodes.map Node.id →
      id ∈ (walk.bundle.nodes ++ [node]).map Node.id := by
    intro node id listed
    rw [List.map_append]
    exact List.mem_append_left _ listed
  cases step with
  | enter outward node spot =>
      refine ⟨sound.closed.extend node (sound.around_mem outward) rfl, grows node _ sound.file, ?_⟩
      intro id listed
      rcases List.mem_cons.mp listed with rfl | outer
      · exact List.mem_map_of_mem (List.mem_append_right _ List.mem_cons_self)
      · exact grows node id (sound.scope id outer)
  | leave =>
      exact ⟨sound.closed, sound.file, fun id listed =>
        sound.scope id (List.mem_of_mem_tail listed)⟩
  | expose endpoint spot =>
      exact ⟨sound.closed.extend endpoint (sound.around_mem 0) rfl, grows endpoint _ sound.file,
        fun id listed => grows endpoint id (sound.scope id listed)⟩
  | refer outward ref =>
      refine ⟨⟨sound.closed.src, sound.closed.dst, ?_⟩, sound.file, sound.scope⟩
      intro other listed
      rcases List.mem_append.mp listed with before | now
      · exact sound.closed.refs other before
      · rw [List.mem_singleton.mp now]
        exact sound.around_mem outward

/-- A table looked up is one of the file. -/
theorem exists_of_tableIds {tables : List (Str × Node)} {name : Str} {id : NodeId}
    (found : (tableIds tables).get? name = some id) : id ∈ (tables.map Prod.snd).map Node.id := by
  have each : ∀ (ids : Dict Str NodeId) (table : Str × Node),
      (ids.set table.1 table.2.id).get? name = some id →
        ids.get? name = some id ∨ table.2.id = id := by
    intro ids table held
    rw [Dict.get?_set] at held
    split at held
    · exact Or.inr (Option.some.inj held)
    · exact Or.inl held
  have origin := foldl_origin (fun ids : Dict Str NodeId => ids.get? name = some id) each tables
    Dict.empty found
  obtain ⟨table, listed, rfl⟩ := origin.resolve_left fun empty => by
    rw [Dict.get?_empty] at empty
    cases empty
  exact List.mem_map_of_mem (List.mem_map_of_mem listed)

/-- **Extraction.** What an extractor emits is closed. -/
theorem closed_extract (walk : FileWalk) : walk.extract.Closed := by
  cases walk with
  | code extractor relpath file steps =>
      have start : Walk.Sound file.id { bundle := { nodes := [file] } } :=
        ⟨⟨List.forall_mem_nil _, List.forall_mem_nil _, List.forall_mem_nil _⟩, List.mem_cons_self,
          List.forall_mem_nil _⟩
      exact (foldl_preserves (Walk.Sound file.id) steps
        (fun _ step _ sound => sound.take extractor relpath step) _ start).closed
  | sql extractor relpath tables keys =>
      have ends : ∀ edge ∈ keys.filterMap (foreignKeyEdge extractor relpath (tableIds tables)),
          edge.src ∈ (tables.map Prod.snd).map Node.id ∧
            edge.dst ∈ (tables.map Prod.snd).map Node.id := by
        intro edge listed
        obtain ⟨key, _, made⟩ := List.mem_filterMap.mp listed
        unfold foreignKeyEdge at made
        split at made
        · next dst src referred holding =>
            rw [← Option.some.inj made]
            exact ⟨exists_of_tableIds holding, exists_of_tableIds referred⟩
        · cases made
      exact ⟨fun edge listed => (ends edge listed).1, fun edge listed => (ends edge listed).2,
        List.forall_mem_nil _⟩
  | failed => exact ⟨List.forall_mem_nil _, List.forall_mem_nil _, List.forall_mem_nil _⟩

end Walks

section Merge

/-- The ids of a merge are those of the bundles. -/
theorem mem_ids_mergeBundles {bundles : List Bundle} {id : NodeId} :
    id ∈ (mergeBundles bundles).nodes.map Node.id ↔
      ∃ bundle ∈ bundles, id ∈ bundle.nodes.map Node.id := by
  rw [mergeBundles, mem_map_accepted, and_iff_left List.not_mem_nil, List.map_flatMap,
    List.mem_flatMap]

/-- **Merge.** A merge of closed bundles is closed. -/
theorem closed_mergeBundles {bundles : List Bundle} (closed : ∀ bundle ∈ bundles, bundle.Closed) :
    (mergeBundles bundles).Closed := by
  have edges : ∀ edge ∈ (mergeBundles bundles).edges, ∃ bundle ∈ bundles, edge ∈ bundle.edges :=
    fun edge kept => List.mem_flatMap.mp ((accepted_sublist [] _).mem kept)
  refine ⟨?_, ?_, ?_⟩
  · intro edge kept
    obtain ⟨bundle, listed, own⟩ := edges edge kept
    exact mem_ids_mergeBundles.mpr ⟨bundle, listed, (closed bundle listed).src edge own⟩
  · intro edge kept
    obtain ⟨bundle, listed, own⟩ := edges edge kept
    exact mem_ids_mergeBundles.mpr ⟨bundle, listed, (closed bundle listed).dst edge own⟩
  · intro ref kept
    obtain ⟨bundle, listed, own⟩ := List.mem_flatMap.mp ((accepted_sublist [] _).mem kept)
    exact mem_ids_mergeBundles.mpr ⟨bundle, listed, (closed bundle listed).refs ref own⟩

end Merge

end GraphIngest.Graph
