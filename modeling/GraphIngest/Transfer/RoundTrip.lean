import GraphIngest.Transfer.Dump
import Mathlib.Data.Option.Basic

/-! # From a database into a file and back

What a file of a namespace is read back into has the nodes of the namespace and the
relationships between them, with the same labels and properties, and nothing else of it; what
is outside stays. The order of the rows in the file does not matter.
-/

namespace GraphIngest.Transfer

open Foundation Text

/-- A namespace that can be read back: ids are there, and labels and types are plain words. -/
structure Writable (database : Database) (repo : Str) : Prop where
  ids : ∀ id vertex, database.graph.vertexIn (ofRepo repo) id = some vertex → id ≠ []
  labels : ∀ id vertex, database.graph.vertexIn (ofRepo repo) id = some vertex →
    ∀ label ∈ vertex.labels, isToken label = true
  types : ∀ key link, database.graph.linkIn (ofRepo repo) key = some link → isToken key.1 = true

/-- What is held decides whether every namespace can be read back. -/
theorem writable_of_entries {database : Database}
    (nodes : database.graph.vertices.entries.all fun entry =>
      decide (entry.1 ≠ []) && entry.2.labels.all isToken)
    (links : database.graph.links.entries.all fun entry => isToken entry.1.1) (repo : Str) :
    Writable database repo := by
  have held : ∀ id vertex, database.graph.vertexIn (ofRepo repo) id = some vertex →
      id ≠ [] ∧ vertex.labels.all isToken = true := by
    intro id vertex found
    have listed := (Dict.mem_entries_iff _ _ _).mpr (Option.filter_eq_some_iff.mp found).1
    have both := List.all_eq_true.mp nodes _ listed
    rw [Bool.and_eq_true] at both
    exact ⟨of_decide_eq_true both.1, both.2⟩
  refine ⟨fun id vertex found => (held id vertex found).1,
    fun id vertex found => List.all_eq_true.mp (held id vertex found).2, fun key link found => ?_⟩
  rw [PropertyGraph.linkIn, Option.ite_none_right_eq_some] at found
  exact List.all_eq_true.mp links _ ((Dict.mem_entries_iff _ _ _).mpr found.2)

/-- A node as it stands after a move to a namespace. -/
def moved (into : Str) (vertex : Vertex Str Str PropValue) : Vertex Str Str PropValue where
  labels := vertex.labels
  props := (jsonProps vertex.props).set "repo".toList (word into)

/-- A property of the metadata of a namespace. -/
def Database.metaOf (database : Database) (name key : Str) : Option PropValue :=
  (database.metas.get? name).bind fun props => props.get? key

/-- What reading a file of a namespace leaves in a database. -/
structure Restored (source : Database) (repo : Str) (includeMeta : Bool) (held result : Database)
    (into : Str) : Prop where
  nodes : ∀ id, Option.Rel Vertex.Agrees (result.graph.vertexIn (ofRepo into) id)
    ((source.graph.vertexIn (ofRepo repo) id).map (moved into))
  links : ∀ key, result.graph.linkIn (ofRepo into) key =
    (source.graph.linkIn (ofRepo repo) key).map jsonProps
  others : ∀ id, result.graph.vertexIn (fun vertex => !ofRepo into vertex) id =
    held.graph.vertexIn (fun vertex => !ofRepo into vertex) id
  otherLinks : ∀ key, result.graph.linkIn (fun vertex => !ofRepo into vertex) key =
    held.graph.linkIn (fun vertex => !ofRepo into vertex) key
  metas : ∀ key, key ≠ "namespace".toList → result.metaOf into key =
    (if includeMeta then (source.metaOf repo key).map PropValue.jsonify else none).or
      (held.metaOf into key)
  otherMetas : ∀ name, name ≠ into → result.metas.get? name = held.metas.get? name

section Rows

/-- The row of a node as it is merged. -/
def plainRow (node : NodeRow) : MergeRow where
  id := node.id
  labels := node.labels.insertionSort fun first second => first ≤ second
  props := node.props

def plainLink (edge : EdgeRow) : (Str × Str × Str) × Props :=
  ((edge.type, edge.src, edge.dst), edge.props)

/-- A node whose labels are tokens is merged as it is. -/
theorem mergeRow_of_tokens {node : NodeRow} (tokens : ∀ label ∈ node.labels, isToken label = true) :
    mergeRow node = .ok (plainRow node) := by
  have safe : node.labels.mapM (safeToken .label) = .ok (node.labels.map id) :=
    mapM_eq_ok fun label listed => by rw [safeToken, if_pos (tokens label listed)]; rfl
  rw [mergeRow, safe, List.map_id]
  rfl

/-- A relationship whose type is a token is merged as it is. -/
theorem linkRow_of_token {edge : EdgeRow} (token : isToken edge.type = true) :
    linkRow edge = .ok (plainLink edge) := by
  rw [linkRow, safeToken, if_pos token]
  rfl

/-- The batches hold the rows. -/
theorem flatten_batchesBy_perm {α κ : Type*} [DecidableEq κ] (key : α → κ) (rows : List α) :
    (batchesBy key rows).flatten.Perm rows := by
  have pieces : (batchesBy key rows).flatten = (grouped key rows).entries.flatMap Prod.snd := by
    rw [batchesBy, Dict.values, List.flatMap_map]
    induction (grouped key rows).entries with
    | nil => rfl
    | cons entry rest ih =>
        rw [List.flatMap_cons, List.flatten_append, ih, flatten_chunksOf, List.flatMap_cons]
  rw [pieces]
  exact flatMap_grouped_perm rows

namespace Database

variable (database : Database) (repo : Str)

/-- Merging nodes in batches is merging them all, and counts them. -/
theorem foldl_mergeNodes (batches : List (List MergeRow)) (total : Nat) :
    batches.foldl (fun state batch => (state.1.mergeNodes repo batch, state.2 + batch.length))
      (database, total) =
        (database.mergeNodes repo batches.flatten, total + batches.flatten.length) := by
  induction batches generalizing database total with
  | nil => rfl
  | cons batch rest ih =>
      rw [List.foldl_cons, ih, List.flatten_cons, List.length_append, Nat.add_assoc]
      refine Prod.ext (Database.ext ?_ rfl) rfl
      simp only [mergeNodes, PropertyGraph.mergeVertices, List.map_append, List.foldl_append]

theorem foldl_mergeEdges (batches : List (List ((Str × Str × Str) × Props))) (total : Nat) :
    batches.foldl (fun state batch => (state.1.mergeEdges repo batch, state.2 + batch.length))
      (database, total) =
        (database.mergeEdges repo batches.flatten, total + batches.flatten.length) := by
  induction batches generalizing database total with
  | nil => rfl
  | cons batch rest ih =>
      rw [List.foldl_cons, ih, List.flatten_cons, List.length_append, Nat.add_assoc]
      refine Prod.ext (Database.ext ?_ rfl) rfl
      simp only [mergeEdges, PropertyGraph.mergeLinks, List.filter_append, List.foldl_append]
      rfl

end Database

end Rows

section Writing

variable {repo : Str}

/-- Nodes with ids and tokens as labels are all merged, in the order of their batches. -/
theorem writeNodes_eq (database : Database) {nodes : List NodeRow}
    (ids : ∀ node ∈ nodes, node.id ≠ [])
    (tokens : ∀ node ∈ nodes, ∀ label ∈ node.labels, isToken label = true) :
    writeNodes repo database nodes =
      .ok (database.mergeNodes repo (batchesBy MergeRow.labels (nodes.map plainRow)).flatten,
        nodes.length) := by
  have all : nodes.filter (fun node => decide (node.id ≠ [])) = nodes :=
    List.filter_eq_self.mpr fun node listed => decide_eq_true (ids node listed)
  have rows : nodes.mapM mergeRow = .ok (nodes.map plainRow) :=
    mapM_eq_ok fun node listed => mergeRow_of_tokens (tokens node listed)
  rw [writeNodes, all, rows]
  refine congrArg Except.ok ((database.foldl_mergeNodes repo _ 0).trans ?_)
  rw [Nat.zero_add, (flatten_batchesBy_perm _ _).length_eq, List.length_map]

/-- Relationships with ends and a token as type are all merged, in the order of their batches. -/
theorem writeEdges_eq (database : Database) {edges : List EdgeRow}
    (ends : ∀ edge ∈ edges, edge.src ≠ [] ∧ edge.dst ≠ [] ∧ edge.type ≠ [])
    (tokens : ∀ edge ∈ edges, isToken edge.type = true) :
    writeEdges repo database edges =
      .ok (database.mergeEdges repo
        (batchesBy (fun row => row.1.1) (edges.map plainLink)).flatten, edges.length) := by
  have all : edges.filter (fun edge =>
      decide (edge.src ≠ [] ∧ edge.dst ≠ [] ∧ edge.type ≠ [])) = edges :=
    List.filter_eq_self.mpr fun edge listed => decide_eq_true (ends edge listed)
  have rows : edges.mapM linkRow = .ok (edges.map plainLink) :=
    mapM_eq_ok fun edge listed => linkRow_of_token (tokens edge listed)
  rw [writeEdges, all, rows]
  refine congrArg Except.ok ((database.foldl_mergeEdges repo _ 0).trans ?_)
  rw [Nat.zero_add, (flatten_batchesBy_perm _ _).length_eq, List.length_map]

namespace Database

variable (database : Database)

/-- Taking over the metadata leaves the graph. -/
theorem graph_takeMeta (graphMeta : Option Props) :
    (database.takeMeta repo graphMeta).graph = database.graph := by
  cases graphMeta <;> rfl

/-- The metadata of a file goes over what is held. -/
theorem metaOf_takeMeta (graphMeta : Option Props) {key : Str} (other : key ≠ "namespace".toList) :
    (database.takeMeta repo graphMeta).metaOf repo key =
      (graphMeta.bind fun props => props.get? key).or (database.metaOf repo key) := by
  cases graphMeta with
  | none => rfl
  | some props =>
      rw [takeMeta, metaOf, upsertGraphMeta, Dict.upsert, Dict.get?_set_self, Option.bind_some,
        Option.bind_some, metaOf]
      have fresh : ((props.filter fun key _ => key != "namespace".toList).set "namespace".toList
          (word repo)).get? key = props.get? key := by
        rw [Dict.get?_set, if_neg other, Dict.get?_filter, bne_iff_ne.mpr other]
        cases props.get? key <;> rfl
      cases database.metas.get? repo with
      | none => rw [putOver, fresh, Option.bind_none, Option.or_none]
      | some old => rw [putOver, Dict.get?_putAll, fresh, Option.bind_some]

/-- Taking over the metadata leaves the records of the other repositories. -/
theorem metas_takeMeta (graphMeta : Option Props) {name : Str} (other : name ≠ repo) :
    (database.takeMeta repo graphMeta).metas.get? name = database.metas.get? name := by
  cases graphMeta with
  | none => rfl
  | some props =>
      rw [takeMeta, upsertGraphMeta, Dict.upsert, Dict.get?_set, if_neg other]

end Database

end Writing

section Reading

variable {source : Database} {repo : Str}

/-- Every node of a namespace that can be read back has a row. -/
theorem readNodes_eq (writable : Writable source repo) : readNodes source repo =
    (source.graph.vertices.filter fun _ vertex => ofRepo repo vertex).entries.map fun entry =>
      ⟨entry.1, rowLabels entry.2, jsonProps entry.2.props⟩ := by
  refine List.filterMap_eq_map_iff_forall_eq_some.mpr fun entry listed => ?_
  have there : source.graph.vertexIn (ofRepo repo) entry.1 = some entry.2 := by
    rw [PropertyGraph.vertexIn, ← Dict.get?_filter source.graph.vertices fun _ => ofRepo repo]
    exact (Dict.mem_entries_iff _ _ _).mp listed
  rw [nodeRow, if_neg (writable.ids _ _ there)]

/-- What is exported as a node is a vertex of the repository. -/
theorem mem_readNodes (writable : Writable source repo) {node : NodeRow}
    (listed : node ∈ readNodes source repo) : ∃ id vertex,
      source.graph.vertexIn (ofRepo repo) id = some vertex ∧
        node = ⟨id, rowLabels vertex, jsonProps vertex.props⟩ := by
  rw [readNodes_eq writable] at listed
  obtain ⟨entry, present, rfl⟩ := List.mem_map.mp listed
  refine ⟨entry.1, entry.2, ?_, rfl⟩
  rw [PropertyGraph.vertexIn, ← Dict.get?_filter source.graph.vertices fun _ => ofRepo repo]
  exact (Dict.mem_entries_iff _ _ _).mp present

/-- What is listed of the relationships between vertices of the repository is one of them. -/
theorem linkIn_of_mem {entry : (Str × Str × Str) × Props}
    (listed : entry ∈ (source.graph.links.filter fun key _ =>
      source.graph.joins (ofRepo repo) key).entries) :
    source.graph.linkIn (ofRepo repo) entry.1 = some entry.2 ∧
      source.graph.joins (ofRepo repo) entry.1 = true := by
  obtain ⟨present, joined⟩ := List.mem_filter.mp listed
  rw [PropertyGraph.linkIn, if_pos joined]
  exact ⟨(Dict.mem_entries_iff _ _ _).mp present, joined⟩

/-- The relationships exported are those with both ends in the repository. -/
theorem readEdges_eq (writable : Writable source repo) : readEdges source repo =
    (source.graph.links.filter fun key _ =>
      source.graph.joins (ofRepo repo) key).entries.map fun entry =>
        ⟨entry.1.2.1, entry.1.2.2, entry.1.1, jsonProps entry.2⟩ := by
  refine List.filterMap_eq_map_iff_forall_eq_some.mpr fun entry listed => ?_
  obtain ⟨there, joined⟩ := linkIn_of_mem listed
  rw [PropertyGraph.joins, Bool.and_eq_true, Option.isSome_iff_exists,
    Option.isSome_iff_exists] at joined
  obtain ⟨⟨first, leaving⟩, second, arriving⟩ := joined
  have token := writable.types _ _ there
  have typed : entry.1.1 ≠ [] := by
    intro empty
    rw [empty] at token
    cases token
  rw [edgeRow, if_neg]
  rintro (empty | empty | empty)
  · exact writable.ids _ _ leaving empty
  · exact writable.ids _ _ arriving empty
  · exact typed empty

/-- What is exported as a relationship has two ends and a type that is a token. -/
theorem mem_readEdges (writable : Writable source repo) {edge : EdgeRow}
    (listed : edge ∈ readEdges source repo) :
    (edge.src ≠ [] ∧ edge.dst ≠ [] ∧ edge.type ≠ []) ∧ isToken edge.type = true := by
  obtain ⟨entry, present, same⟩ := List.mem_filterMap.mp listed
  have token := writable.types _ _ (linkIn_of_mem present).1
  rw [edgeRow] at same
  split at same
  · cases same
  · next filled =>
    obtain rfl := Option.some.inj same
    rw [not_or, not_or] at filled
    exact ⟨filled, token⟩

end Reading

section Outcome

variable {source held : Database} {repo : Str} {includeMeta : Bool} {payload : Payload}

/-- The node that is merged for a node of a namespace. -/
def imported (into id : Str) (vertex : Vertex Str Str PropValue) : Vertex Str Str PropValue :=
  ((plainRow ⟨id, rowLabels vertex, jsonProps vertex.props⟩).vertex into).2

theorem ofRepo_imported (into id : Str) (vertex : Vertex Str Str PropValue) :
    ofRepo into (imported into id vertex) = true := by
  rw [ofRepo, imported, MergeRow.vertex, Dict.get?_set_self]
  exact decide_eq_true rfl

/-- What is merged is the node, moved. -/
theorem agrees_imported (into : Str) {id : Str} {vertex : Vertex Str Str PropValue}
    (named : vertex.props.get? "id".toList = some (word id))
    (shared : sharedLabel ∈ vertex.labels) :
    (imported into id vertex).Agrees (moved into vertex) where
  labels := by
    intro label
    rw [imported, MergeRow.vertex, moved, List.mem_cons, plainRow, List.mem_insertionSort,
      rowLabels, List.mem_insertionSort, List.mem_filter, bne_iff_ne]
    by_cases same : label = sharedLabel
    · exact iff_of_true (.inl same) (same ▸ shared)
    · rw [or_iff_right same, and_iff_left same]
  props := by
    intro key
    rw [imported, MergeRow.vertex, moved, plainRow, Dict.get?_set, Dict.get?_set, Dict.get?_set]
    by_cases same : key = "id".toList
    · rw [same, if_neg (by decide), if_pos rfl, if_neg (by decide), jsonProps, Dict.get?_image,
        named]
      rfl
    · rw [if_neg same]

/-- The vertices written are those of the exported repository, under the new name. -/
theorem nodes_perm (into : Str) (exported : Exports source repo includeMeta payload)
    (writable : Writable source repo) :
    ((batchesBy MergeRow.labels (payload.nodes.map plainRow)).flatten.map
      (MergeRow.vertex into)).Perm
        (source.graph.partVertices (ofRepo repo) (imported into)).entries := by
  have batched := (flatten_batchesBy_perm MergeRow.labels (payload.nodes.map plainRow)).map
    (MergeRow.vertex into)
  have listed := (exported.nodes.map plainRow).map (MergeRow.vertex into)
  rw [readNodes_eq writable, List.map_map, List.map_map] at listed
  refine batched.trans ?_
  rw [List.map_map] at listed ⊢
  exact listed

/-- The relationships written are those of the exported repository. -/
theorem links_perm (exported : Exports source repo includeMeta payload)
    (writable : Writable source repo) :
    (batchesBy (fun row => row.1.1) (payload.edges.map plainLink)).flatten.Perm
      (source.graph.partLinks (ofRepo repo) jsonProps).entries := by
  have batched := flatten_batchesBy_perm (fun row : (Str × Str × Str) × Props => row.1.1)
    (payload.edges.map plainLink)
  have listed := exported.edges.map plainLink
  rw [readEdges_eq writable, List.map_map] at listed
  exact batched.trans listed

/-- A file of a namespace that can be read back is read to its end. -/
theorem importGraph_eq (exported : Exports source repo includeMeta payload)
    (writable : Writable source repo) (override : Option Str) (wipeFirst : Bool)
    (filled : destination payload override ≠ []) :
    importGraph payload override wipeFirst held =
      (((((if wipeFirst then held.wipe (destination payload override) else held).mergeNodes
        (destination payload override)
        (batchesBy MergeRow.labels (payload.nodes.map plainRow)).flatten).mergeEdges
          (destination payload override)
          (batchesBy (fun row => row.1.1) (payload.edges.map plainLink)).flatten).takeMeta
            (destination payload override) payload.graphMeta),
        .ok (destination payload override, payload.nodes.length, payload.edges.length)) := by
  have nodeRows : ∀ node ∈ payload.nodes, node.id ≠ [] ∧
      ∀ label ∈ node.labels, isToken label = true := by
    intro node listed
    obtain ⟨id, vertex, there, rfl⟩ := mem_readNodes writable (exported.nodes.mem_iff.mp listed)
    refine ⟨writable.ids id vertex there, fun label named => ?_⟩
    rw [rowLabels, List.mem_insertionSort] at named
    exact writable.labels id vertex there label (List.mem_of_mem_filter named)
  have edgeRows : ∀ edge ∈ payload.edges, _ := fun edge listed =>
    mem_readEdges writable (exported.edges.mem_iff.mp listed)
  have noded := fun database => @writeNodes_eq (destination payload override) database _
    (fun node listed => (nodeRows node listed).1) (fun node listed => (nodeRows node listed).2)
  have linked := fun database => @writeEdges_eq (destination payload override) database _
    (fun edge listed => (edgeRows edge listed).1) (fun edge listed => (edgeRows edge listed).2)
  simp only [importGraph, if_neg filled, noded, linked]

/-- What a file that is read into a namespace leaves of the database. -/
def restoredFrom (payload : Payload) (into : Str) (held : Database) : Database :=
  ((((held.wipe into).mergeNodes into
    (batchesBy MergeRow.labels (payload.nodes.map plainRow)).flatten).mergeEdges into
      (batchesBy (fun row => row.1.1) (payload.edges.map plainLink)).flatten).takeMeta into
        payload.graphMeta)

/-- A database with the payload in it restores the exported repository. -/
theorem restored_restoredFrom (exported : Exports source repo includeMeta payload)
    (writable : Writable source repo) {into : Str}
    (apart : PropertyGraph.Apart source.graph held.graph (ofRepo repo) (ofRepo into)) :
    Restored source repo includeMeta held (restoredFrom payload into held) into := by
  have copied := PropertyGraph.copied (nodes_perm _ exported writable) apart
    (fun id vertex _ => ofRepo_imported into id vertex) (links_perm exported writable)
  refine ⟨fun id => ?_, fun key => ?_, fun id => ?_, fun key => ?_, fun key other => ?_,
    fun name other => ?_⟩
  · rw [restoredFrom, Database.graph_takeMeta]
    refine (copied.vertices id).symm ▸ ?_
    cases found : source.graph.vertexIn (ofRepo repo) id with
    | none => exact .none
    | some vertex =>
        have there := (Option.filter_eq_some_iff.mp found).1
        exact .some (agrees_imported _ (source.named id vertex there)
          (source.shared id vertex there))
  · rw [restoredFrom, Database.graph_takeMeta]
    exact copied.links key
  · rw [restoredFrom, Database.graph_takeMeta]
    exact copied.others id
  · rw [restoredFrom, Database.graph_takeMeta]
    exact copied.otherLinks key
  · rw [restoredFrom, Database.metaOf_takeMeta _ _ other, exported.graphMeta]
    refine congrArg (fun found => Option.or found (held.metaOf _ key)) ?_
    cases includeMeta with
    | false => rfl
    | true =>
        rw [if_pos rfl, if_pos rfl, readGraphMeta, Database.metaOf]
        cases source.metas.get? repo with
        | none => rfl
        | some props => exact Dict.get?_image _ props key
  · exact Database.metas_takeMeta _ _ other

/-- **Dump and restore.** A file of a namespace is read back, whatever the order of its rows,
into a database where nothing but nodes of the namespace it goes to stands under its ids: the
nodes, the relationships between them and the metadata are there as before, dates and bytes by
their text, and everything else stays. -/
theorem import_export (exported : Exports source repo includeMeta payload)
    (writable : Writable source repo) (override : Option Str)
    (filled : destination payload override ≠ [])
    (apart : PropertyGraph.Apart source.graph held.graph (ofRepo repo)
      (ofRepo (destination payload override))) :
    ∃ result, importGraph payload override true held =
        (result, .ok (destination payload override, payload.nodes.length, payload.edges.length)) ∧
      Restored source repo includeMeta held result (destination payload override) :=
  ⟨_, importGraph_eq exported writable override true filled,
    restored_restoredFrom exported writable apart⟩

/-- A namespace of two files, one of which imports the other, with its metadata. -/
def sample : Database :=
  ((Database.blank.mergeNodes "app".toList
    [⟨"a.py".toList, ["File".toList], Dict.empty.set "seen".toList (.one (.stamp "2024".toList))⟩,
      ⟨"b.py".toList, ["File".toList], Dict.empty⟩]).mergeEdges "app".toList
        [(("IMPORTS".toList, "a.py".toList, "b.py".toList), Dict.empty)]).upsertGraphMeta
          "app".toList (Dict.empty.set "codebase_hash".toList (word "c0de".toList))

/-- A database with an old copy of one of the files, a file of another namespace and metadata of
the copy. -/
def sampleTarget : Database :=
  ((Database.blank.mergeNodes "copy".toList [⟨"a.py".toList, ["Old".toList], Dict.empty⟩]).mergeNodes
    "other".toList [⟨"z.py".toList, ["File".toList], Dict.empty⟩]).upsertGraphMeta
      "copy".toList (Dict.empty.set "note".toList (word "kept".toList))

/-- Under the ids of the files stands the old copy alone. -/
theorem apart_sampleTarget : PropertyGraph.Apart sample.graph sampleTarget.graph
    (ofRepo "app".toList) (ofRepo "copy".toList) := by
  have all : sampleTarget.graph.vertices.entries.all (fun entry =>
      ofRepo "copy".toList entry.2 ||
        (sample.graph.vertexIn (ofRepo "app".toList) entry.1).isNone) = true := by
    decide +kernel
  intro id present vertex found
  have listed := (Dict.mem_entries_iff _ _ _).mpr found
  have either := List.all_eq_true.mp all _ listed
  rw [Bool.or_eq_true, Option.isNone_iff_eq_none] at either
  cases either with
  | inl old => exact old
  | inr absent =>
      rw [absent] at present
      cases present

/-- The copy has the hash of the codebase now, and its own note still. -/
theorem import_export_sample : ∃ result,
    importGraph (exportGraph sample "app".toList true) (some "copy".toList) true
      sampleTarget = (result, .ok ("copy".toList, 2, 1)) ∧
    Restored sample "app".toList true sampleTarget result "copy".toList ∧
    result.metaOf "copy".toList "codebase_hash".toList = some (word "c0de".toList) ∧
    result.metaOf "copy".toList "note".toList = some (word "kept".toList) := by
  obtain ⟨result, read, restored⟩ := import_export (exports_exportGraph sample "app".toList true)
    (writable_of_entries (by decide) (by decide) _) (some "copy".toList) (by decide)
    apart_sampleTarget
  exact ⟨result, read, restored, restored.metas _ (by decide), restored.metas _ (by decide)⟩

/-- The nodes of a namespace as they stand once merged over themselves. -/
theorem agrees_plus_imported (into : Str) {id : Str} {vertex : Vertex Str Str PropValue}
    (named : vertex.props.get? "id".toList = some (word id))
    (shared : sharedLabel ∈ vertex.labels) :
    (vertex.plus (imported into id vertex)).Agrees (moved into vertex) where
  labels := by
    intro label
    rw [Vertex.mem_labels_plus, (agrees_imported into named shared).labels]
    exact or_self_iff
  props := by
    intro key
    rw [Vertex.plus, Dict.get?_putAll, (agrees_imported into named shared).props key, moved,
      Dict.get?_set, jsonProps, Dict.get?_image]
    split
    · rfl
    · cases vertex.props.get? key <;> rfl

theorem ofRepo_plus_imported (into id : Str) (vertex : Vertex Str Str PropValue) :
    ofRepo into (vertex.plus (imported into id vertex)) = true := by
  refine decide_eq_true ?_
  rw [Vertex.plus, Dict.get?_putAll, of_decide_eq_true (ofRepo_imported into id vertex)]
  rfl

/-- A vertex of one repository is none of another. -/
theorem ofRepo_of_ne {first second : Str} (different : first ≠ second)
    {vertex : Vertex Str Str PropValue} (own : ofRepo first vertex = true) :
    ofRepo second vertex = false := by
  refine decide_eq_false fun also => different ?_
  have both := (of_decide_eq_true own).symm.trans also
  cases both
  rfl

section Renamed

variable {into : Str} {rows : List (Str × Vertex Str Str PropValue)}

/-- Over its own vertices a repository is merged in place, the others stay. -/
theorem get?_vertices_renamed
    (listed : rows.Perm (source.graph.partVertices (ofRepo repo) (imported into)).entries)
    (id : Str) : (source.graph.mergeVertices rows).vertices.get? id =
      ((source.graph.vertexIn (ofRepo repo) id).map fun vertex =>
        vertex.plus (imported into id vertex)).or (source.graph.vertices.get? id) := by
  rw [PropertyGraph.get?_mergeVertices_part listed]
  cases found : source.graph.vertexIn (ofRepo repo) id with
  | none => rfl
  | some vertex =>
      rw [(Option.filter_eq_some_iff.mp found).1]
      rfl

/-- No vertex is left under the old name. -/
theorem vertexIn_renamed (other : into ≠ repo)
    (listed : rows.Perm (source.graph.partVertices (ofRepo repo) (imported into)).entries)
    (id : Str) : (source.graph.mergeVertices rows).vertexIn (ofRepo repo) id = none := by
  rw [PropertyGraph.vertexIn, get?_vertices_renamed listed]
  cases found : source.graph.vertexIn (ofRepo repo) id with
  | none => exact found
  | some vertex =>
      rw [Option.map_some, Option.some_or, Option.filter_some,
        ofRepo_of_ne other (ofRepo_plus_imported into id vertex)]
      rfl

/-- The vertices of the repository are moved, the others stay. -/
theorem agrees_vertices_renamed
    (listed : rows.Perm (source.graph.partVertices (ofRepo repo) (imported into)).entries)
    (id : Str) : Option.Rel Vertex.Agrees ((source.graph.mergeVertices rows).vertices.get? id)
      (((source.graph.vertexIn (ofRepo repo) id).map (moved into)).or
        (source.graph.vertices.get? id)) := by
  rw [get?_vertices_renamed listed]
  cases found : source.graph.vertexIn (ofRepo repo) id with
  | none =>
      rw [Option.map_none, Option.map_none, Option.none_or]
      cases source.graph.vertices.get? id with
      | none => exact .none
      | some vertex => exact .some (.refl vertex)
  | some vertex =>
      have there := (Option.filter_eq_some_iff.mp found).1
      exact .some (agrees_plus_imported into (source.named id vertex there)
        (source.shared id vertex there))

/-- What joined vertices under the old name joins them under the new one. -/
theorem joins_renamed
    (listed : rows.Perm (source.graph.partVertices (ofRepo repo) (imported into)).entries)
    {key : Str × Str × Str} (joined : source.graph.joins (ofRepo repo) key = true) :
    (source.graph.mergeVertices rows).joins (ofRepo into) key = true := by
  have ends : ∀ id, (source.graph.vertexIn (ofRepo repo) id).isSome = true →
      ((source.graph.mergeVertices rows).vertexIn (ofRepo into) id).isSome = true := by
    intro id present
    obtain ⟨vertex, found⟩ := Option.isSome_iff_exists.mp present
    rw [PropertyGraph.vertexIn, get?_vertices_renamed listed, found, Option.map_some,
      Option.some_or, Option.filter_some, ofRepo_plus_imported]
    rfl
  rw [PropertyGraph.joins, Bool.and_eq_true] at joined ⊢
  exact ⟨ends _ joined.1, ends _ joined.2⟩

/-- The relationships of the repository are written over themselves, the others stay. -/
theorem agrees_links_renamed {linkRows : List ((Str × Str × Str) × Props)}
    (listed : rows.Perm (source.graph.partVertices (ofRepo repo) (imported into)).entries)
    (linked : linkRows.Perm (source.graph.partLinks (ofRepo repo) jsonProps).entries)
    (key : Str × Str × Str) : Option.Rel Dict.Agrees
      (((source.graph.mergeVertices rows).mergeLinks (ofRepo into) linkRows).links.get? key)
      (((source.graph.linkIn (ofRepo repo) key).map jsonProps).or
        (source.graph.links.get? key)) := by
  rw [PropertyGraph.get?_mergeLinks_part linked (fun _ => joins_renamed listed)]
  cases found : source.graph.linkIn (ofRepo repo) key with
  | none =>
      change Option.Rel _ (source.graph.links.get? key) (source.graph.links.get? key)
      cases source.graph.links.get? key with
      | none => exact .none
      | some props => exact .some (.refl props)
  | some props =>
      rw [PropertyGraph.linkIn, Option.ite_none_right_eq_some] at found
      rw [Option.map_some, Option.map_some, Option.some_or, Option.some_or,
        PropertyGraph.mergeVertices, found.2]
      refine .some fun name => ?_
      rw [putOver, Dict.get?_putAll, jsonProps, Dict.get?_image]
      cases props.get? name <;> rfl

end Renamed

/-- **Reading back under another name.** Read back into the database it was written from, but
under another name, a file does not copy the namespace: its nodes and their relationships go over
to the other one, none is left under the old name, and the metadata stays there. -/
theorem import_renamed (exported : Exports source repo includeMeta payload)
    (writable : Writable source repo) {into : Str} (filled : into ≠ []) (other : into ≠ repo) :
    ∃ result, importGraph payload (some into) false source =
        (result, .ok (into, payload.nodes.length, payload.edges.length)) ∧
      (∀ id, result.graph.vertexIn (ofRepo repo) id = none) ∧
      (∀ id, Option.Rel Vertex.Agrees (result.graph.vertices.get? id)
        (((source.graph.vertexIn (ofRepo repo) id).map (moved into)).or
          (source.graph.vertices.get? id))) ∧
      (∀ key, Option.Rel Dict.Agrees (result.graph.links.get? key)
        (((source.graph.linkIn (ofRepo repo) key).map jsonProps).or
          (source.graph.links.get? key))) ∧
      result.metas.get? repo = source.metas.get? repo := by
  have named : destination payload (some into) = into := by
    rw [destination, Option.filter_some, if_pos (decide_eq_true filled)]
    rfl
  have read := @importGraph_eq source source repo includeMeta payload exported writable (some into)
    false (named.symm ▸ filled)
  rw [named] at read
  have listed := nodes_perm into exported writable
  refine ⟨_, read, fun id => ?_, fun id => ?_, fun key => ?_, ?_⟩
  · rw [Database.graph_takeMeta]
    exact vertexIn_renamed other listed id
  · rw [Database.graph_takeMeta]
    exact agrees_vertices_renamed listed id
  · rw [Database.graph_takeMeta]
    exact agrees_links_renamed listed (links_perm exported writable) key
  · rw [Database.metas_takeMeta _ _ other.symm]
    rfl

/-- A copy of a repository of two vertices and a relationship beside the repository itself. -/
theorem import_renamed_sample : ∃ result,
    importGraph (exportGraph sample "app".toList true) (some "copy".toList) false sample =
        (result, .ok ("copy".toList, 2, 1)) ∧
      (∀ id, result.graph.vertexIn (ofRepo "app".toList) id = none) ∧
      (∀ id, Option.Rel Vertex.Agrees (result.graph.vertices.get? id)
        (((sample.graph.vertexIn (ofRepo "app".toList) id).map (moved "copy".toList)).or
          (sample.graph.vertices.get? id))) ∧
      (∀ key, Option.Rel Dict.Agrees (result.graph.links.get? key)
        (((sample.graph.linkIn (ofRepo "app".toList) key).map jsonProps).or
          (sample.graph.links.get? key))) ∧
      result.metas.get? "app".toList = sample.metas.get? "app".toList :=
  import_renamed (exports_exportGraph sample "app".toList true)
    (writable_of_entries (by decide) (by decide) _) (by decide) (by decide)

end Outcome

end GraphIngest.Transfer
