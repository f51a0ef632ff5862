import GraphIngest.Foundation.Upsert

/-! # Property graphs

Vertices stand under their ids, with labels and properties, and links between them under
their kind and ends, with properties. A vertex that is merged is made or found by its id and
then labelled and filled, a link is merged only between vertices that are matched, and a
vertex that is deleted takes its links along. A part of a graph, given by a test of its
vertices, is copied by deleting that part elsewhere and merging its vertices and then its
links, in any order of each.
-/

namespace GraphIngest.Foundation

namespace Dict

variable {κ ν : Type*} [DecidableEq κ]

/-- `+=`: the entries of another dictionary are put in. -/
def putAll (dict more : Dict κ ν) : Dict κ ν :=
  more.entries.foldl (fun dict entry => dict.set entry.1 entry.2) dict

/-- The same bindings, in any order. -/
def Agrees (first second : Dict κ ν) : Prop := ∀ key, first.get? key = second.get? key

theorem Agrees.refl (dict : Dict κ ν) : dict.Agrees dict := fun _ => rfl

/-- Setting entries with distinct keys makes each of them readable. -/
theorem get?_foldl_set_entries {entries : List (κ × ν)} (distinct : (entries.map Prod.fst).Nodup)
    (dict : Dict κ ν) (key : κ) :
    (entries.foldl (fun dict entry => dict.set entry.1 entry.2) dict).get? key =
      (entries.lookup key).or (dict.get? key) := by
  induction entries generalizing dict with
  | nil => rfl
  | cons entry rest ih =>
      obtain ⟨absent, others⟩ := List.nodup_cons.mp distinct
      rw [List.foldl_cons, ih others, List.lookup_cons, get?_set]
      by_cases same : key = entry.1
      · have unbound : rest.lookup key = none := by
          refine List.lookup_eq_none_iff.mpr fun other listed => bne_iff_ne.mpr fun equal => ?_
          exact absent (same ▸ equal ▸ List.mem_map_of_mem listed)
        rw [if_pos same, unbound, same, beq_self_eq_true]
        rfl
      · rw [if_neg same, beq_false_of_ne same]

/-- What is put in comes first. -/
@[simp] theorem get?_putAll (dict more : Dict κ ν) (key : κ) :
    (dict.putAll more).get? key = (more.get? key).or (dict.get? key) :=
  get?_foldl_set_entries more.keys_nodup dict key

omit [DecidableEq κ] in
/-- Change every value. -/
def image {μ : Type*} (change : κ → ν → μ) (dict : Dict κ ν) : Dict κ μ where
  entries := dict.entries.map fun entry => (entry.1, change entry.1 entry.2)
  keys_nodup := by
    rw [List.map_map]
    exact dict.keys_nodup

/-- An image is read through its change. -/
@[simp] theorem get?_image {μ : Type*} (change : κ → ν → μ) (dict : Dict κ ν) (key : κ) :
    (dict.image change).get? key = (dict.get? key).map (change key) := by
  refine Option.ext fun value => ?_
  rw [Option.map_eq_some_iff, ← mem_entries_iff]
  constructor
  · intro listed
    obtain ⟨⟨found, old⟩, present, same⟩ := List.mem_map.mp listed
    obtain ⟨rfl, rfl⟩ := Prod.mk.inj same
    exact ⟨old, (dict.mem_entries_iff _ _).mp present, rfl⟩
  · intro found
    obtain ⟨old, bound, rfl⟩ := found
    exact List.mem_map.mpr ⟨(key, old), (dict.mem_entries_iff _ _).mpr bound, rfl⟩

/-- Dictionaries whose entries are alike, key by key, have alike entries. -/
theorem map_entries_perm {μ β : Type*} {first : Dict κ ν} {second : Dict κ μ} {take : κ → ν → β}
    {other : κ → μ → β}
    (alike : ∀ key, (first.get? key).map (take key) = (second.get? key).map (other key)) :
    (first.entries.map fun entry => take entry.1 entry.2).Perm
      (second.entries.map fun entry => other entry.1 entry.2) := by
  have listed : (first.image take).entries.Perm (second.image other).entries := by
    apply (List.perm_ext_iff_of_nodup (first.image take).keys_nodup.of_map
      (second.image other).keys_nodup.of_map).mpr
    intro entry
    rw [mem_entries_iff, mem_entries_iff, get?_image, get?_image, alike]
  have values := listed.map Prod.snd
  rw [image, image, List.map_map, List.map_map] at values
  exact values

/-- Of rows that list a dictionary in some order, at most one stands under a key. -/
theorem filter_of_perm {rows : List (κ × ν)} {dict : Dict κ ν} (listed : rows.Perm dict.entries)
    (key : κ) : (rows.filter fun row => row.1 = key).map Prod.snd = (dict.get? key).toList := by
  have alike := (listed.filter fun row => decide (row.1 = key)).map Prod.snd
  have own : ∀ {entries : List (κ × ν)}, (entries.map Prod.fst).Nodup →
      (entries.filter fun row => row.1 = key).map Prod.snd = (entries.lookup key).toList := by
    intro entries distinct
    induction entries with
    | nil => rfl
    | cons entry rest ih =>
        obtain ⟨absent, others⟩ := List.nodup_cons.mp distinct
        rw [List.lookup_cons]
        by_cases same : entry.1 = key
        · rw [List.filter_cons_of_pos (by exact decide_eq_true same), same, beq_self_eq_true,
            List.map_cons]
          refine congrArg (entry.2 :: ·) (List.map_eq_nil_iff.mpr ?_)
          refine List.filter_eq_nil_iff.mpr fun other member equal => ?_
          exact absent (same ▸ of_decide_eq_true equal ▸ List.mem_map_of_mem member)
        · rw [List.filter_cons_of_neg (by simpa only [decide_eq_true_eq] using same),
            beq_false_of_ne (Ne.symm same), ih others]
  rw [own dict.keys_nodup, ← get?] at alike
  cases found : dict.get? key with
  | none =>
      rw [found] at alike
      exact List.perm_nil.mp alike
  | some value =>
      rw [found] at alike
      exact List.perm_singleton.mp alike

end Dict

/-- What is held once at most one record has been put over it. -/
theorem settled_toList {ν : Type*} (put : ν → ν → ν) (held record : Option ν) :
    settled put held record.toList = (record.map (putOver put held)).or held := by
  cases record <;> rfl

/-- A vertex: its labels and its properties. -/
structure Vertex (ℓ κ ν : Type*) where
  labels : List ℓ
  props : Dict κ ν

namespace Vertex

variable {ℓ κ ν : Type*} [DecidableEq ℓ] [DecidableEq κ]

/-- `SET n:labels, n += props`. -/
def plus (old new : Vertex ℓ κ ν) : Vertex ℓ κ ν where
  labels := new.labels.foldl (fun labels label => labels.insert label) old.labels
  props := old.props.putAll new.props

omit [DecidableEq ℓ] in
/-- The same labels and the same properties, in any order. -/
structure Agrees (first second : Vertex ℓ κ ν) : Prop where
  labels : ∀ label, label ∈ first.labels ↔ label ∈ second.labels
  props : first.props.Agrees second.props

omit [DecidableEq ℓ] in
theorem Agrees.refl (vertex : Vertex ℓ κ ν) : vertex.Agrees vertex :=
  ⟨fun _ => Iff.rfl, .refl _⟩

/-- A vertex merged into another adds its labels. -/
theorem mem_labels_plus (old new : Vertex ℓ κ ν) (label : ℓ) :
    label ∈ (old.plus new).labels ↔ label ∈ old.labels ∨ label ∈ new.labels := by
  have grown : ∀ (more labels : List ℓ),
      label ∈ more.foldl (fun labels label => labels.insert label) labels ↔
        label ∈ labels ∨ label ∈ more := by
    intro more
    induction more with
    | nil => exact fun labels => (or_iff_left List.not_mem_nil).symm
    | cons first rest ih =>
        intro labels
        rw [List.foldl_cons, ih, List.mem_insert_iff, List.mem_cons, or_comm (a := label = first),
          or_assoc]
  exact grown new.labels old.labels

end Vertex

/-- Vertices by their ids, and links by their kind and ends; no link is without its ends. -/
structure PropertyGraph (ι τ ℓ κ ν : Type*) [DecidableEq ι] [DecidableEq τ] where
  vertices : Dict ι (Vertex ℓ κ ν)
  links : Dict (τ × ι × ι) (Dict κ ν)
  closed : ∀ key, (links.get? key).isSome →
    (vertices.get? key.2.1).isSome ∧ (vertices.get? key.2.2).isSome

namespace PropertyGraph

variable {ι τ ℓ κ ν : Type*} [DecidableEq ι] [DecidableEq τ]

/-- The graph without vertices. -/
def empty : PropertyGraph ι τ ℓ κ ν where
  vertices := Dict.empty
  links := Dict.empty
  closed := fun _ present => Bool.noConfusion present

section Parts

variable (graph : PropertyGraph ι τ ℓ κ ν) (inside : Vertex ℓ κ ν → Bool)

/-- A vertex of a part. -/
def vertexIn (id : ι) : Option (Vertex ℓ κ ν) := (graph.vertices.get? id).filter inside

/-- Whether both ends of a link are in a part. -/
def joins (key : τ × ι × ι) : Bool :=
  (graph.vertexIn inside key.2.1).isSome && (graph.vertexIn inside key.2.2).isSome

/-- A link inside a part. -/
def linkIn (key : τ × ι × ι) : Option (Dict κ ν) :=
  if graph.joins inside key then graph.links.get? key else none

/-- Where a vertex is in a part, nothing stands under its id that is outside. -/
theorem isSome_vertexIn {id : ι} : (graph.vertexIn inside id).isSome ↔
    ∃ vertex, graph.vertices.get? id = some vertex ∧ inside vertex = true := by
  rw [vertexIn, Option.isSome_iff_exists]
  simp only [Option.filter_eq_some_iff]

end Parts

section Writes

variable [DecidableEq ℓ] [DecidableEq κ] (graph : PropertyGraph ι τ ℓ κ ν)

/-- `MERGE` vertices by their ids and set labels and properties on them. -/
def mergeVertices (rows : List (ι × Vertex ℓ κ ν)) : PropertyGraph ι τ ℓ κ ν where
  vertices := rows.foldl (Dict.upsert Vertex.plus) graph.vertices
  links := graph.links
  closed := by
    intro key present
    have ends := graph.closed key present
    rw [Dict.get?_foldl_upsert, Dict.get?_foldl_upsert, isSome_settled, isSome_settled]
    exact ⟨.inl ends.1, .inl ends.2⟩

omit [DecidableEq ℓ] in
/-- `MERGE` links between vertices that pass a test and set properties on them. -/
def mergeLinks (test : Vertex ℓ κ ν → Bool) (rows : List ((τ × ι × ι) × Dict κ ν)) :
    PropertyGraph ι τ ℓ κ ν where
  vertices := graph.vertices
  links := (rows.filter fun row => graph.joins test row.1).foldl (Dict.upsert Dict.putAll)
    graph.links
  closed := by
    intro key present
    rw [Dict.get?_foldl_upsert, isSome_settled] at present
    rcases present with before | now
    · exact graph.closed key before
    · obtain ⟨record, listed⟩ := List.exists_mem_of_ne_nil _ now
      obtain ⟨row, kept, _⟩ := List.mem_map.mp listed
      obtain ⟨member, same⟩ := List.mem_filter.mp kept
      obtain rfl := of_decide_eq_true same
      have joined := (List.mem_filter.mp member).2
      rw [joins, Bool.and_eq_true, isSome_vertexIn, isSome_vertexIn] at joined
      obtain ⟨⟨source, leaving, _⟩, target, arriving, _⟩ := joined
      rw [leaving, arriving]
      exact ⟨rfl, rfl⟩

omit [DecidableEq ℓ] [DecidableEq κ] in
/-- `DETACH DELETE` the vertices that pass a test. -/
def delete (doomed : Vertex ℓ κ ν → Bool) : PropertyGraph ι τ ℓ κ ν where
  vertices := graph.vertices.filter fun _ vertex => !doomed vertex
  links := graph.links.filter fun key _ =>
    (graph.vertexIn (fun vertex => !doomed vertex) key.2.1).isSome &&
      (graph.vertexIn (fun vertex => !doomed vertex) key.2.2).isSome
  closed := by
    intro key present
    rw [Dict.get?_filter, Option.isSome_iff_exists] at present
    obtain ⟨link, kept⟩ := present
    rw [Option.filter_eq_some_iff, Bool.and_eq_true] at kept
    rw [Dict.get?_filter, Dict.get?_filter]
    exact kept.2

variable {graph}

/-- What holds of the vertices held and of those merged holds of all. -/
theorem holds_mergeVertices (holds : ι → Vertex ℓ κ ν → Prop)
    (keeps : ∀ id old new, holds id old → holds id new → holds id (old.plus new))
    (before : ∀ id vertex, graph.vertices.get? id = some vertex → holds id vertex)
    {rows : List (ι × Vertex ℓ κ ν)} (written : ∀ row ∈ rows, holds row.1 row.2) {id : ι}
    {vertex : Vertex ℓ κ ν} (present : (graph.mergeVertices rows).vertices.get? id = some vertex) :
    holds id vertex := by
  rw [mergeVertices, Dict.get?_foldl_upsert] at present
  refine settled_preserves (keeps id) (before id) ?_ vertex present
  intro record listed
  obtain ⟨row, kept, rfl⟩ := List.mem_map.mp listed
  obtain ⟨member, same⟩ := List.mem_filter.mp kept
  exact of_decide_eq_true same ▸ written row member

end Writes

section Copying

variable (graph : PropertyGraph ι τ ℓ κ ν) (inside : Vertex ℓ κ ν → Bool)
  (change : ι → Vertex ℓ κ ν → Vertex ℓ κ ν) (changeLink : Dict κ ν → Dict κ ν)

/-- The vertices of a part, changed. -/
def partVertices : Dict ι (Vertex ℓ κ ν) :=
  (graph.vertices.filter fun _ vertex => inside vertex).image change

/-- The links inside a part, changed. -/
def partLinks : Dict (τ × ι × ι) (Dict κ ν) :=
  (graph.links.filter fun key _ => graph.joins inside key).image fun _ => changeLink

theorem get?_partVertices (id : ι) : (graph.partVertices inside change).get? id =
    (graph.vertexIn inside id).map (change id) := by
  rw [partVertices, Dict.get?_image, Dict.get?_filter]
  rfl

theorem get?_partLinks (key : τ × ι × ι) : (graph.partLinks inside changeLink).get? key =
    (graph.linkIn inside key).map changeLink := by
  rw [partLinks, Dict.get?_image, Dict.get?_filter, linkIn]
  cases graph.joins inside key <;> cases graph.links.get? key <;> rfl

/-- What stands under an id once rows that list a part have been merged. -/
theorem get?_mergeVertices_part [DecidableEq ℓ] [DecidableEq κ] {graph : PropertyGraph ι τ ℓ κ ν}
    {inside : Vertex ℓ κ ν → Bool} {change : ι → Vertex ℓ κ ν → Vertex ℓ κ ν}
    {rows : List (ι × Vertex ℓ κ ν)} (listed : rows.Perm (graph.partVertices inside change).entries)
    (held : PropertyGraph ι τ ℓ κ ν) (id : ι) : (held.mergeVertices rows).vertices.get? id =
      (((graph.vertexIn inside id).map (change id)).map
        (putOver Vertex.plus (held.vertices.get? id))).or (held.vertices.get? id) := by
  rw [mergeVertices, Dict.get?_foldl_upsert, Dict.filter_of_perm listed, settled_toList,
    get?_partVertices]

omit [DecidableEq ι] [DecidableEq τ] in
theorem filter_filter_eq_nil {α : Type*} {items : List α} {first second : α → Bool}
    (none : items.filter second = []) : (items.filter first).filter second = [] := by
  rw [List.filter_eq_nil_iff] at none ⊢
  exact fun item listed => none item (List.mem_of_mem_filter listed)

/-- What stands under a key once rows that list the links of a part have been merged, if they
are all matched. -/
theorem get?_mergeLinks_part [DecidableEq κ] {graph held : PropertyGraph ι τ ℓ κ ν}
    {inside test : Vertex ℓ κ ν → Bool} {changeLink : Dict κ ν → Dict κ ν}
    {rows : List ((τ × ι × ι) × Dict κ ν)}
    (listed : rows.Perm (graph.partLinks inside changeLink).entries)
    (matched : ∀ key, graph.joins inside key = true → held.joins test key = true)
    (key : τ × ι × ι) : (held.mergeLinks test rows).links.get? key =
      (((graph.linkIn inside key).map changeLink).map
        (putOver Dict.putAll (held.links.get? key))).or (held.links.get? key) := by
  have records : ((rows.filter fun row => held.joins test row.1).filter fun row =>
      row.1 = key).map Prod.snd = ((graph.linkIn inside key).map changeLink).toList := by
    rw [← get?_partLinks, ← Dict.filter_of_perm listed]
    cases joined : graph.joins inside key with
    | true =>
        rw [List.filter_filter]
        refine congrArg (List.map Prod.snd) (List.filter_congr fun row _ => ?_)
        by_cases same : row.1 = key
        · rw [same, matched key joined, Bool.and_true]
        · rw [decide_eq_false same, Bool.false_and]
    | false =>
        have absent := Dict.filter_of_perm listed key
        rw [get?_partLinks, linkIn, joined, if_neg Bool.false_ne_true] at absent
        have none := List.map_eq_nil_iff.mp absent
        rw [none, filter_filter_eq_nil none]
  rw [mergeLinks, Dict.get?_foldl_upsert, records, settled_toList]

/-- What a copy of a part leaves: the part, changed, and what was held outside of where it
is put. -/
structure Copied (held result : PropertyGraph ι τ ℓ κ ν) (into : Vertex ℓ κ ν → Bool) :
    Prop where
  vertices : ∀ id, result.vertexIn into id = (graph.vertexIn inside id).map (change id)
  links : ∀ key, result.linkIn into key = (graph.linkIn inside key).map changeLink
  others : ∀ id, result.vertexIn (fun vertex => !into vertex) id =
    held.vertexIn (fun vertex => !into vertex) id
  otherLinks : ∀ key, result.linkIn (fun vertex => !into vertex) key =
    held.linkIn (fun vertex => !into vertex) key

variable [DecidableEq ℓ] [DecidableEq κ] {graph inside change changeLink}
  {held : PropertyGraph ι τ ℓ κ ν} {into : Vertex ℓ κ ν → Bool}
  {rows : List (ι × Vertex ℓ κ ν)} {linkRows : List ((τ × ι × ι) × Dict κ ν)}

/-- Nothing stands under an id of a part but vertices of the part it is put in. -/
def Apart (graph held : PropertyGraph ι τ ℓ κ ν) (inside into : Vertex ℓ κ ν → Bool) : Prop :=
  ∀ id, (graph.vertexIn inside id).isSome →
    ∀ vertex, held.vertices.get? id = some vertex → into vertex = true

/-- Where a part is merged after a deletion. -/
theorem get?_vertices_copied (listed : rows.Perm (graph.partVertices inside change).entries)
    (apart : Apart graph held inside into) (id : ι) :
    ((held.delete into).mergeVertices rows).vertices.get? id =
      ((graph.vertexIn inside id).map (change id)).or
        (held.vertexIn (fun vertex => !into vertex) id) := by
  rw [get?_mergeVertices_part listed, delete, Dict.get?_filter, ← vertexIn]
  cases found : graph.vertexIn inside id with
  | none => rfl
  | some vertex =>
      have gone : held.vertexIn (fun vertex => !into vertex) id = none := by
        refine Option.filter_eq_none_iff.mpr fun other there => ?_
        rw [apart id (by rw [found]; rfl) other there]
        exact Bool.false_ne_true
      rw [gone]
      rfl

section Ends

variable (listed : rows.Perm (graph.partVertices inside change).entries)
  (apart : Apart graph held inside into)
  (kept : ∀ id vertex, inside vertex = true → into (change id vertex) = true)

include listed apart kept

/-- A copy holds the changed vertices of the part. -/
theorem vertexIn_copied (id : ι) : ((held.delete into).mergeVertices rows).vertexIn into id =
    (graph.vertexIn inside id).map (change id) := by
  rw [vertexIn, get?_vertices_copied listed apart]
  cases found : graph.vertexIn inside id with
  | some vertex =>
      have own := (Option.filter_eq_some_iff.mp found).2
      rw [Option.map_some, Option.some_or, Option.filter_some, if_pos (kept id vertex own)]
  | none =>
      refine Option.filter_eq_none_iff.mpr fun other there => ?_
      have outside := (Option.filter_eq_some_iff.mp there).2
      rw [Bool.not_eq_true'] at outside
      rw [outside]
      exact Bool.false_ne_true

/-- Outside the copy the vertices stay. -/
theorem vertexIn_copied_outside (id : ι) :
    ((held.delete into).mergeVertices rows).vertexIn (fun vertex => !into vertex) id =
      held.vertexIn (fun vertex => !into vertex) id := by
  rw [vertexIn, get?_vertices_copied listed apart]
  cases found : graph.vertexIn inside id with
  | some vertex =>
      have own := (Option.filter_eq_some_iff.mp found).2
      have gone : held.vertexIn (fun vertex => !into vertex) id = none := by
        refine Option.filter_eq_none_iff.mpr fun other there => ?_
        rw [apart id (by rw [found]; rfl) other there]
        exact Bool.false_ne_true
      rw [Option.map_some, Option.some_or, Option.filter_some, kept id vertex own, gone]
      rfl
  | none =>
      rw [Option.map_none, Option.none_or, vertexIn, Option.filter_filter]
      simp only [Bool.and_self]

/-- In the copy the same relationships join two vertices. -/
theorem joins_copied (key : τ × ι × ι) :
    ((held.delete into).mergeVertices rows).joins into key = graph.joins inside key := by
  simp only [joins, vertexIn_copied listed apart kept, Option.isSome_map]

/-- Outside the copy the same relationships join two vertices as before. -/
theorem joins_copied_outside (key : τ × ι × ι) :
    ((held.delete into).mergeVertices rows).joins (fun vertex => !into vertex) key =
      held.joins (fun vertex => !into vertex) key := by
  simp only [joins, vertexIn_copied_outside listed apart kept]

/-- A relationship between vertices outside is none of the part. -/
theorem not_joins_outside {key : τ × ι × ι}
    (outside : held.joins (fun vertex => !into vertex) key = true) :
    graph.joins inside key = false := by
  rw [← joins_copied listed apart kept]
  have source := vertexIn_copied_outside listed apart kept key.2.1
  rw [joins, Bool.and_eq_true, ← source, isSome_vertexIn] at outside
  obtain ⟨⟨vertex, there, free⟩, _⟩ := outside
  rw [Bool.not_eq_true'] at free
  rw [joins, vertexIn, there, Option.filter_some, free]
  rfl

omit [DecidableEq ℓ] [DecidableEq κ] listed kept in
/-- No link is left between vertices that are about to come. -/
theorem links_delete_eq_none {key : τ × ι × ι} (joined : graph.joins inside key = true) :
    (held.delete into).links.get? key = none := by
  rw [joins, Bool.and_eq_true] at joined
  by_contra present
  have ends := (held.delete into).closed key (Option.isSome_iff_ne_none.mpr present)
  rw [delete, Dict.get?_filter, ← vertexIn, isSome_vertexIn] at ends
  obtain ⟨⟨vertex, there, free⟩, _⟩ := ends
  rw [apart _ joined.1 vertex there] at free
  exact Bool.false_ne_true free

/-- Behind a copy a relationship is that of the part or one that was held. -/
theorem get?_links_copied (links : linkRows.Perm (graph.partLinks inside changeLink).entries)
    (key : τ × ι × ι) :
    (((held.delete into).mergeVertices rows).mergeLinks into linkRows).links.get? key =
      ((graph.linkIn inside key).map changeLink).or ((held.delete into).links.get? key) := by
  have free : ∀ key, graph.joins inside key = true →
      ((held.delete into).mergeVertices rows).joins into key = true := by
    intro key joined
    rw [joins_copied listed apart kept, joined]
  rw [get?_mergeLinks_part links free, mergeVertices]
  cases joined : graph.joins inside key with
  | true =>
      rw [links_delete_eq_none apart joined]
      cases graph.linkIn inside key <;> rfl
  | false =>
      rw [linkIn, joined, if_neg Bool.false_ne_true]
      rfl

/-- **Copying.** A part that is merged where that part has been deleted, its vertices and
then its links, each in any order, is there afterwards as it is listed, and what is outside
stays. -/
theorem copied (links : linkRows.Perm (graph.partLinks inside changeLink).entries) :
    graph.Copied inside change changeLink held
      (((held.delete into).mergeVertices rows).mergeLinks into linkRows) into where
  vertices := vertexIn_copied listed apart kept
  others := vertexIn_copied_outside listed apart kept
  links := by
    intro key
    have same : (((held.delete into).mergeVertices rows).mergeLinks into linkRows).joins into key =
        graph.joins inside key := joins_copied listed apart kept key
    rw [linkIn, same, get?_links_copied listed apart kept links]
    cases joined : graph.joins inside key with
    | true =>
        rw [if_pos rfl, links_delete_eq_none apart joined, Option.or_none]
    | false =>
        rw [if_neg Bool.false_ne_true, linkIn, joined, if_neg Bool.false_ne_true]
        rfl
  otherLinks := by
    intro key
    have same : (((held.delete into).mergeVertices rows).mergeLinks into linkRows).joins
        (fun vertex => !into vertex) key = held.joins (fun vertex => !into vertex) key :=
      joins_copied_outside listed apart kept key
    rw [linkIn, linkIn, same]
    cases outside : held.joins (fun vertex => !into vertex) key with
    | false => rfl
    | true =>
        rw [if_pos rfl, if_pos rfl, get?_links_copied listed apart kept links, linkIn,
          not_joins_outside listed apart kept outside, if_neg Bool.false_ne_true, Option.map_none,
          Option.none_or, delete, Dict.get?_filter]
        rw [joins] at outside
        rw [outside]
        cases held.links.get? key <;> rfl

end Ends

end Copying

end PropertyGraph

end GraphIngest.Foundation
