import GraphIngest.Resolve.Step
import GraphIngest.Transfer.RoundTrip
import Mathlib.Data.Finset.Dedup

/-! # Fingerprints of a namespace

Two builds of a namespace are compared by what a scan of it counts and sums: the nodes by
label, the relationships by type, and the digests of their rows, which are added up, so that
the order in which the database hands rows out does not show. A namespace that has been
written to a file and read back, under whatever name, has the fingerprint it had.
-/

namespace GraphIngest.Transfer

open Foundation Text Resolve

section Counting

variable {κ : Type*} [DecidableEq κ]

/-- `count(*)` of the rows of each group. -/
def countsOf (keys : List κ) : Dict κ Nat :=
  keys.foldl (fun counts key => counts.set key (counts.getD key 0 + 1)) .empty

/-- A count is the number of occurrences, where there are any. -/
theorem get?_countsOf (keys : List κ) (key : κ) :
    (countsOf keys).get? key = if keys.count key = 0 then none else some (keys.count key) := by
  have counted : ∀ (keys : List κ) (counts : Dict κ Nat),
      (keys.foldl (fun counts key => counts.set key (counts.getD key 0 + 1)) counts).get? key =
        if keys.count key = 0 then counts.get? key
        else some (counts.getD key 0 + keys.count key) := by
    intro keys
    induction keys with
    | nil => exact fun counts => (if_pos rfl).symm
    | cons first rest ih =>
        intro counts
        have after : (counts.set first (counts.getD first 0 + 1)).get? key =
            if key = first then some (counts.getD key 0 + 1) else counts.get? key := by
          rw [Dict.get?_set]
          split
          · next same => rw [same]
          · rfl
        have held : (counts.set first (counts.getD first 0 + 1)).getD key 0 =
            counts.getD key 0 + if key = first then 1 else 0 := by
          rw [Dict.getD, after]
          split <;> rfl
        rw [List.foldl_cons, ih, List.count_cons, after, held]
        by_cases same : key = first
        · rw [if_pos same, if_pos same, same, beq_self_eq_true, if_pos rfl,
            if_neg (Nat.succ_ne_zero _)]
          split
          · next none => rw [none]
          · rw [Nat.add_assoc, Nat.add_comm 1]
        · rw [if_neg same, if_neg same, beq_false_of_ne (Ne.symm same), if_neg Bool.false_ne_true]
          rfl
  refine (counted keys .empty).trans ?_
  rw [Dict.getD, Dict.get?_empty, Option.getD_none, Nat.zero_add]

/-- What each group counts is what decides the counts. -/
theorem agrees_countsOf {first second : List κ}
    (same : ∀ key, first.count key = second.count key) :
    (countsOf first).Agrees (countsOf second) := by
  intro key
  rw [get?_countsOf, get?_countsOf, same]

/-- Counts do not depend on the order. -/
theorem agrees_countsOf_perm {first second : List κ} (same : first.Perm second) :
    (countsOf first).Agrees (countsOf second) := agrees_countsOf fun key => same.count_eq key

/-- Where every item is counted once under each of its keys, the items with a key count. -/
theorem count_flatMap {α : Type*} {keys : α → List κ} (once : ∀ item, (keys item).Nodup)
    (items : List α) (key : κ) : (items.flatMap keys).count key =
      (items.map fun item => (keys item).toFinset).countP fun keys => decide (key ∈ keys) := by
  induction items with
  | nil => rfl
  | cons item rest ih =>
      rw [List.flatMap_cons, List.count_append, ih, (once item).count, List.map_cons,
        List.countP_cons, Nat.add_comm]
      simp only [List.mem_toFinset, decide_eq_true_eq]

/-- Counts over sets of keys do not depend on the order inside the sets. -/
theorem agrees_countsOf_flatMap {α : Type*} {keys : α → List κ}
    (once : ∀ item, (keys item).Nodup) {first second : List α}
    (same : (first.map fun item => (keys item).toFinset).Perm
      (second.map fun item => (keys item).toFinset)) :
    (countsOf (first.flatMap keys)).Agrees (countsOf (second.flatMap keys)) := by
  apply agrees_countsOf
  intro key
  rw [count_flatMap once, count_flatMap once]
  exact same.countP_eq _

/-- `_MOD`. -/
def modulus : Nat := 340282366920938463463374607431768211456

/-- The sum of the digests of rows. -/
def digestSum (digests : List Nat) : Nat :=
  digests.foldl (fun sum digest => (sum + digest) % modulus) 0

/-- The sum of the digests does not depend on the order. -/
theorem digestSum_perm {first second : List Nat} (same : first.Perm second) :
    digestSum first = digestSum second := by
  refine same.foldl_eq' (fun one _ other _ sum => ?_) 0
  rw [Nat.mod_add_mod, Nat.mod_add_mod, Nat.add_right_comm]

end Counting

section Digests

variable (pyStr : PropValue → Str) (digest : Str → Nat)

/-- `_row_digest`: what is absent is written as the empty text, everything else by `str`. -/
def rowDigest (parts : List (Option PropValue)) : Nat :=
  digest (['\x1f'].intercalate (parts.map fun part => (part.map pyStr).getD []))

/-- The properties of a node that its digest is of. -/
def nodeFields : List Str :=
  ["id".toList, "kind".toList, "lang".toList, "file".toList, "start_line".toList,
    "end_line".toList, "signature".toList, "visibility".toList]

/-- The properties of a relationship that its digest is of. -/
def edgeFields : List Str := ["strategy".toList, "confidence".toList]

def nodeDigest (vertex : Vertex Str Str PropValue) : Nat :=
  rowDigest pyStr digest (nodeFields.map fun name => vertex.props.get? name)

def edgeDigest (entry : (Str × Str × Str) × Props) : Nat :=
  rowDigest pyStr digest (some (word entry.1.1) :: some (word entry.1.2.1) ::
    some (word entry.1.2.2) :: edgeFields.map fun name => entry.2.get? name)

end Digests

section Fingerprint

/-- What a fingerprint file holds under a key of a table. -/
inductive Cell
  | count (number : Nat)
  | coverage (coverage : Coverage)
deriving DecidableEq, Repr

/-- What a fingerprint file holds under one of its keys. -/
inductive Entry
  | number (number : Nat)
  | hash (digits : Nat)
  | table (cells : Dict Str Cell)

/-- A fingerprint, with the times of the build. -/
structure Fingerprint where
  repo : Str
  nodeCountTotal : Nat
  nodeCountsByLabel : Dict Str Nat
  edgeCountTotal : Nat
  edgeCountsByType : Dict Str Nat
  edgeSetHash : Nat
  derivedPropsHash : Nat
  coverage : Dict Str Coverage
  seconds : Option Nat

variable (pyStr : PropValue → Str) (digest : Str → Nat) (database : Database) (repo : Str)

/-- The nodes of a namespace. -/
def nodesOf : Dict Str (Vertex Str Str PropValue) :=
  database.graph.vertices.filter fun _ vertex => ofRepo repo vertex

/-- The relationships inside a namespace. -/
def linksOf : Dict (Str × Str × Str) Props :=
  database.graph.links.filter fun key _ => database.graph.joins (ofRepo repo) key

/-- The labels that a node is counted under. -/
def countedLabels (vertex : Vertex Str Str PropValue) : List Str :=
  vertex.labels.dedup.filter fun label => label != sharedLabel

/-- `fingerprint`. -/
def fingerprint (coverage : Dict Str Coverage) (seconds : Option Nat) : Fingerprint where
  repo := repo
  nodeCountTotal := (nodesOf database repo).entries.length
  nodeCountsByLabel := countsOf ((nodesOf database repo).entries.flatMap fun entry =>
    countedLabels entry.2)
  edgeCountTotal := (linksOf database repo).entries.length
  edgeCountsByType := countsOf ((linksOf database repo).entries.map fun entry => entry.1.1)
  edgeSetHash := digestSum ((linksOf database repo).entries.map (edgeDigest pyStr digest))
  derivedPropsHash := digestSum ((nodesOf database repo).entries.map fun entry =>
    nodeDigest pyStr digest entry.2)
  coverage := coverage
  seconds := seconds

/-- `_CORRECTNESS_KEYS`, each with what stands under it. -/
def correctnessKeys : List (Str × (Fingerprint → Entry)) :=
  [("node_count_total".toList, fun print => .number print.nodeCountTotal),
    ("node_counts_by_label".toList,
      fun print => .table (print.nodeCountsByLabel.image fun _ => .count)),
    ("edge_count_total".toList, fun print => .number print.edgeCountTotal),
    ("edge_counts_by_type".toList,
      fun print => .table (print.edgeCountsByType.image fun _ => .count)),
    ("edge_set_hash".toList, fun print => .hash print.edgeSetHash),
    ("derived_props_hash".toList, fun print => .hash print.derivedPropsHash),
    ("coverage".toList, fun print => .table (print.coverage.image fun _ => .coverage))]

/-- A divergence: the key, the key in its table, and what each of the two has. -/
inductive Divergence
  | cell (key part : Str) (golden candidate : Option Cell)
  | entry (key : Str) (golden candidate : Entry)

/-- What `compare` finds under one key. -/
def divergences (key : Str) : Entry → Entry → List Divergence
  | .number golden, .number candidate =>
      if golden = candidate then [] else [.entry key (.number golden) (.number candidate)]
  | .hash golden, .hash candidate =>
      if golden = candidate then [] else [.entry key (.hash golden) (.hash candidate)]
  | .table golden, .table candidate =>
      let parts := (golden.keys ++ candidate.keys).dedup.insertionSort fun first second =>
        first ≤ second
      parts.filterMap fun part =>
        if golden.get? part = candidate.get? part then none
        else some (.cell key part (golden.get? part) (candidate.get? part))
  | golden, candidate => [.entry key golden candidate]

/-- `compare`. -/
def compare (golden candidate : Fingerprint) : List Divergence :=
  correctnessKeys.flatMap fun key => divergences key.1 (key.2 golden) (key.2 candidate)

end Fingerprint

section Comparing

/-- Two tables do not diverge exactly where they agree. -/
theorem divergences_table_eq_nil {key : Str} {golden candidate : Dict Str Cell} :
    divergences key (.table golden) (.table candidate) = [] ↔ golden.Agrees candidate := by
  rw [divergences, List.filterMap_eq_nil_iff]
  refine ⟨fun all part => ?_, fun agrees part _ => if_pos (agrees part)⟩
  by_cases listed : part ∈ golden.keys ++ candidate.keys
  · by_contra differ
    have found := all part ((List.mem_insertionSort _).mpr (List.mem_dedup.2 listed))
    rw [if_neg differ] at found
    cases found
  · rw [List.mem_append, not_or, Dict.mem_keys_iff, Dict.mem_keys_iff,
      ← Option.isSome_iff_exists, ← Option.isSome_iff_exists, Option.not_isSome_iff_eq_none,
      Option.not_isSome_iff_eq_none] at listed
    rw [listed.1, listed.2]

theorem divergences_number_eq_nil {key : Str} {golden candidate : Nat} :
    divergences key (.number golden) (.number candidate) = [] ↔ golden = candidate := by
  rw [divergences, ite_eq_left_iff]
  exact ⟨fun none => by_contra fun differ => List.cons_ne_nil _ _ (none differ),
    fun same differ => absurd same differ⟩

theorem divergences_hash_eq_nil {key : Str} {golden candidate : Nat} :
    divergences key (.hash golden) (.hash candidate) = [] ↔ golden = candidate := by
  rw [divergences, ite_eq_left_iff]
  exact ⟨fun none => by_contra fun differ => List.cons_ne_nil _ _ (none differ),
    fun same differ => absurd same differ⟩

/-- An injective change keeps dicts apart. -/
theorem agrees_image_iff {κ ν μ : Type*} [DecidableEq κ] {change : ν → μ}
    (different : Function.Injective change) {first second : Dict κ ν} :
    (first.image fun _ => change).Agrees (second.image fun _ => change) ↔ first.Agrees second := by
  refine forall_congr' fun key => ?_
  rw [Dict.get?_image, Dict.get?_image]
  exact (Option.map_injective different).eq_iff

/-- Two fingerprints without a divergence are the same, up to the name and the times. -/
theorem compare_eq_nil_iff (golden candidate : Fingerprint) : compare golden candidate = [] ↔
    golden.nodeCountTotal = candidate.nodeCountTotal ∧
      golden.nodeCountsByLabel.Agrees candidate.nodeCountsByLabel ∧
      golden.edgeCountTotal = candidate.edgeCountTotal ∧
      golden.edgeCountsByType.Agrees candidate.edgeCountsByType ∧
      golden.edgeSetHash = candidate.edgeSetHash ∧
      golden.derivedPropsHash = candidate.derivedPropsHash ∧
      golden.coverage.Agrees candidate.coverage := by
  have counts := fun golden candidate : Dict Str Nat =>
    @agrees_image_iff _ _ _ _ _ (fun _ _ => Cell.count.inj) golden candidate
  have coverages := fun golden candidate : Dict Str Coverage =>
    @agrees_image_iff _ _ _ _ _ (fun _ _ => Cell.coverage.inj) golden candidate
  simp only [compare, correctnessKeys, List.flatMap_cons, List.flatMap_nil, List.append_nil,
    List.append_eq_nil_iff, divergences_number_eq_nil, divergences_hash_eq_nil,
    divergences_table_eq_nil, counts, coverages]

end Comparing

section Restoring

variable (pyStr : PropValue → Str) (digest : Str → Nat) {source held result : Database}
  {repo into : Str} {includeMeta : Bool}

/-- The properties that the digests are of are the same in a file. -/
structure Digestible (source : Database) (repo : Str) : Prop where
  nodes : ∀ id vertex, source.graph.vertexIn (ofRepo repo) id = some vertex →
    ∀ name ∈ nodeFields, (vertex.props.get? name).map PropValue.jsonify = vertex.props.get? name
  links : ∀ key link, source.graph.linkIn (ofRepo repo) key = some link →
    ∀ name ∈ edgeFields, (link.get? name).map PropValue.jsonify = link.get? name

theorem digestible_of_entries
    (nodes : source.graph.vertices.entries.all fun entry => nodeFields.all fun name =>
      decide ((entry.2.props.get? name).map PropValue.jsonify = entry.2.props.get? name))
    (links : source.graph.links.entries.all fun entry => edgeFields.all fun name =>
      decide ((entry.2.get? name).map PropValue.jsonify = entry.2.get? name)) (repo : Str) :
    Digestible source repo := by
  refine ⟨fun id vertex found name listed => ?_, fun key link found name listed => ?_⟩
  · have present := (Dict.mem_entries_iff _ _ _).mpr (Option.filter_eq_some_iff.mp found).1
    exact of_decide_eq_true (List.all_eq_true.mp (List.all_eq_true.mp nodes _ present) name listed)
  · rw [PropertyGraph.linkIn, Option.ite_none_right_eq_some] at found
    have present := (Dict.mem_entries_iff _ _ _).mpr found.2
    exact of_decide_eq_true (List.all_eq_true.mp (List.all_eq_true.mp links _ present) name listed)

theorem get?_nodesOf (database : Database) (repo id : Str) :
    (nodesOf database repo).get? id = database.graph.vertexIn (ofRepo repo) id :=
  Dict.get?_filter _ _ _

theorem get?_linksOf (database : Database) (repo : Str) (key : Str × Str × Str) :
    (linksOf database repo).get? key = database.graph.linkIn (ofRepo repo) key := by
  rw [linksOf, Dict.get?_filter, PropertyGraph.linkIn]
  cases database.graph.joins (ofRepo repo) key <;> cases database.graph.links.get? key <;> rfl

/-- What a fingerprint takes of a node: its labels, and its digest. -/
def printed (vertex : Vertex Str Str PropValue) : Finset Str × Nat :=
  ((countedLabels vertex).toFinset, nodeDigest pyStr digest vertex)

/-- A node that has been moved is taken as it was. -/
theorem printed_moved {vertex after : Vertex Str Str PropValue}
    (agrees : after.Agrees (moved into vertex))
    (same : ∀ name ∈ nodeFields,
      (vertex.props.get? name).map PropValue.jsonify = vertex.props.get? name) :
    printed pyStr digest after = printed pyStr digest vertex := by
  refine Prod.ext (Finset.ext fun label => ?_) (congrArg (rowDigest pyStr digest) ?_)
  · rw [printed, printed, List.mem_toFinset, List.mem_toFinset, countedLabels, countedLabels,
      List.mem_filter, List.mem_filter, List.mem_dedup, List.mem_dedup, agrees.labels]
    rfl
  · refine List.map_congr_left fun name listed => ?_
    have other : name ≠ "repo".toList := by
      intro equal
      rw [equal] at listed
      revert listed
      decide
    rw [agrees.props, moved, Dict.get?_set, if_neg other, jsonProps, Dict.get?_image]
    exact same name listed

section Prints

variable (restored : Restored source repo includeMeta held result into)
  (digestible : Digestible source repo)

include restored digestible

/-- The vertices of the two repositories print alike. -/
theorem printed_perm :
    ((nodesOf source repo).entries.map fun entry => printed pyStr digest entry.2).Perm
      ((nodesOf result into).entries.map fun entry => printed pyStr digest entry.2) := by
  refine @Dict.map_entries_perm Str _ _ _ _ _ _ (fun _ => printed pyStr digest)
    (fun _ => printed pyStr digest) fun id => ?_
  rw [get?_nodesOf, get?_nodesOf]
  have related := restored.nodes id
  cases found : source.graph.vertexIn (ofRepo repo) id with
  | none =>
      rw [found] at related
      cases after : result.graph.vertexIn (ofRepo into) id with
      | none => rfl
      | some vertex =>
          rw [after] at related
          cases related
  | some vertex =>
      rw [found] at related
      cases after : result.graph.vertexIn (ofRepo into) id with
      | none =>
          rw [after] at related
          cases related
      | some other =>
          rw [after] at related
          cases related with
          | some agrees =>
              exact congrArg some (printed_moved pyStr digest agrees
                (digestible.nodes id vertex found)).symm

/-- The relationships of the two repositories have the same digests. -/
theorem edges_perm :
    ((linksOf source repo).entries.map fun entry =>
      (entry.1.1, edgeDigest pyStr digest (entry.1, entry.2))).Perm
        ((linksOf result into).entries.map fun entry =>
          (entry.1.1, edgeDigest pyStr digest (entry.1, entry.2))) := by
  refine @Dict.map_entries_perm (Str × Str × Str) _ _ _ _ _ _
    (fun key link => (key.1, edgeDigest pyStr digest (key, link)))
    (fun key link => (key.1, edgeDigest pyStr digest (key, link))) fun key => ?_
  rw [get?_linksOf, get?_linksOf, restored.links key]
  cases found : source.graph.linkIn (ofRepo repo) key with
  | none => rfl
  | some link =>
      refine congrArg some (Prod.ext rfl (congrArg (rowDigest pyStr digest) ?_))
      refine congrArg (some (word key.1) :: some (word key.2.1) :: some (word key.2.2) :: ·) ?_
      refine List.map_congr_left fun name listed => ?_
      rw [jsonProps, Dict.get?_image]
      exact (digestible.links key link found name listed).symm

/-- What is restored shows no divergence from what was written. -/
theorem compare_of_restored (coverage : Dict Str Coverage) (seconds later : Option Nat) :
    compare (fingerprint pyStr digest source repo coverage seconds)
      (fingerprint pyStr digest result into coverage later) = [] := by
  have nodes := printed_perm pyStr digest restored digestible
  have links := edges_perm pyStr digest restored digestible
  have types := links.map Prod.fst
  have edgeDigests := links.map Prod.snd
  have labels := nodes.map Prod.fst
  have nodeDigests := nodes.map Prod.snd
  rw [List.map_map, List.map_map] at types edgeDigests labels nodeDigests
  refine (compare_eq_nil_iff _ _).mpr ⟨?_, ?_, ?_, ?_, ?_, ?_, .refl _⟩
  · have lengths := nodes.length_eq
    rw [List.length_map, List.length_map] at lengths
    exact lengths
  · exact agrees_countsOf_flatMap
      (fun entry : Str × Vertex Str Str PropValue => (List.nodup_dedup entry.2.labels).filter _)
      labels
  · have lengths := links.length_eq
    rw [List.length_map, List.length_map] at lengths
    exact lengths
  · exact agrees_countsOf_perm types
  · exact digestSum_perm edgeDigests
  · exact digestSum_perm nodeDigests

end Prints

/-- **The oracle and a restored namespace.** A namespace that has been written to a file and read
back, under any name, shows no divergence from the one it was written from. -/
theorem compare_import_export {payload : Payload}
    (exported : Exports source repo includeMeta payload) (writable : Writable source repo)
    (digestible : Digestible source repo) (override : Option Str)
    (filled : destination payload override ≠ [])
    (apart : PropertyGraph.Apart source.graph held.graph (ofRepo repo)
      (ofRepo (destination payload override)))
    (coverage : Dict Str Coverage) (seconds later : Option Nat) :
    compare (fingerprint pyStr digest source repo coverage seconds)
      (fingerprint pyStr digest (importGraph payload override true held).1
        (destination payload override) coverage later) = [] := by
  rw [importGraph_eq exported writable override true filled]
  exact compare_of_restored pyStr digest (restored_restoredFrom exported writable apart) digestible
    coverage seconds later

/-- How the values of the sample are written. -/
def sampleStr : PropValue → Str
  | .one (.text text) => text
  | .one (.stamp written) => written
  | _ => []

/-- A digest of the texts of the sample that tells them apart. -/
def sampleDigest (text : Str) : Nat :=
  text.foldl (fun digest letter => (digest * 131 + letter.toNat) % modulus) 7

/-- The copy of the sample, read into a database that holds more. -/
theorem compare_import_export_sample :
    compare (fingerprint sampleStr sampleDigest sample "app".toList .empty none)
      (fingerprint sampleStr sampleDigest
        (importGraph (exportGraph sample "app".toList true) (some "copy".toList) true
          sampleTarget).1 "copy".toList .empty (some 3)) = [] :=
  compare_import_export sampleStr sampleDigest (exports_exportGraph sample "app".toList true)
    (writable_of_entries (by decide) (by decide) _)
    (digestible_of_entries (by decide) (by decide) _)
    (some "copy".toList) (by decide) apart_sampleTarget .empty none (some 3)

end Restoring

end GraphIngest.Transfer
