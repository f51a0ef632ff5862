import GraphIngest.Pipeline.Holding
import GraphIngest.Pipeline.Run

/-! # Writing over what is held

The writes of a run over what the database holds already: the rows of the nodes are put
over the records of their ids, the marks of the resolver over the taint properties of
functions, and an edge is taken if both its ends are there, whoever has written them.
-/

namespace GraphIngest.Pipeline

open Foundation Text Graph External

namespace IndexRun

variable (run : IndexRun) (hashes : Str → Str)

section Rows

/-- The row of a node. -/
def row (stamp : NodeId → FunctionTaint) (node : Node) : NodeId × NodeRecord :=
  (node.id,
    { labels := {node.label}
      props := { node.props with labels := [] }
      fileHash := if node.label = .file then hashes node.file else []
      taint := stamp node.id
      bare := rfl })

/-- The rows written until the resolver is through; only those of the first write are
stamped. -/
def earlyRows : List (NodeId × NodeRecord) :=
  run.afterBytecode.items.map (row hashes run.stamp) ++
    (run.resolution.handed.flatMap Chunk.declares).map (row hashes fun _ => {})

/-- The rows of the last write. -/
def lateRows : List (NodeId × NodeRecord) := run.lateNodes.map (row hashes fun _ => {})

/-- The record of a node that a row of taint facts is set on: only a function of the
repository is matched. -/
def mark (id : NodeId) (record : NodeRecord) : NodeRecord :=
  match run.resolution.marks.get? id with
  | some facts =>
      if NodeLabel.function ∈ record.labels ∧ record.props.repo = run.input.options.repo then
        { record with taint := facts.over record.taint }
      else record
  | none => record

/-- Whether the taint properties of a node with this record are set anew. -/
def Marks (id : NodeId) (record : NodeRecord) : Prop :=
  (run.resolution.marks.get? id).isSome ∧ NodeLabel.function ∈ record.labels ∧
    record.props.repo = run.input.options.repo

instance (id : NodeId) (record : NodeRecord) : Decidable (run.Marks id record) :=
  inferInstanceAs (Decidable (_ ∧ _ ∧ _))

/-- What the store accepts when some ids are there already. -/
def storedOver (known : List NodeId) : Ledger NodeId Edge :=
  run.writes.foldl (Ledger.write Node.id accepts) { known := known }

/-- What the writes of a run make of what is held. -/
def written (held : Holding) : Holding where
  nodes := (run.lateRows hashes).foldl (Dict.upsert NodeRecord.over)
    (((run.earlyRows hashes).foldl (Dict.upsert NodeRecord.over) held.nodes).mapValues run.mark)
  relationships := (run.storedOver held.nodes.keys).links.foldl mergeEdge held.relationships

end Rows

/-- The records among some rows that stand under an id. -/
def recordsAt (rows : List (NodeId × NodeRecord)) (id : NodeId) : List NodeRecord :=
  (rows.filter fun row => row.1 = id).map Prod.snd

/-- The records among the edges taken that stand under a key. -/
def linksAt (known : List NodeId) (key : EdgeKey) : List Relationship :=
  ((run.storedOver known).links.filter fun edge => edge.key = key).map Edge.props

variable {run hashes} {held : Holding}

section Nodes

theorem get?_nodes_written (id : NodeId) : (run.written hashes held).nodes.get? id =
    settled NodeRecord.over ((settled NodeRecord.over (held.nodes.get? id)
      (recordsAt (run.earlyRows hashes) id)).map (run.mark id))
        (recordsAt (run.lateRows hashes) id) := by
  rw [written, Dict.get?_foldl_upsert, Dict.get?_mapValues, Dict.get?_foldl_upsert]
  rfl

/-- Facts are set on nodes that the first write brings and the last one does not. -/
theorem rows_of_marked {id : NodeId} (marked : (run.resolution.marks.get? id).isSome) :
    recordsAt (run.earlyRows hashes) id ≠ [] ∧ recordsAt (run.lateRows hashes) id = [] := by
  rcases (Resolve.isSome_marks_memoAfter _ _ id).mp marked with before | ⟨ref, listed, rfl, _⟩
  · cases before
  have first : ref.src ∈ run.afterBytecode.items.map Node.id :=
    mem_afterBytecode.mpr (Or.inl (run.input.extraction.sourced ref listed))
  have heard : ref.src ∈ run.afterSink.known := by
    refine (Registry.mem_known_foldl_announce _ _ _).mpr (Or.inl ?_)
    obtain ⟨node, member, same⟩ := List.mem_map.mp first
    exact same ▸ run.afterBytecode.registered node member
  constructor
  · obtain ⟨node, member, same⟩ := List.mem_map.mp first
    refine List.ne_nil_of_mem (List.mem_map.mpr ⟨row hashes run.stamp node, ?_, rfl⟩)
    exact List.mem_filter.mpr
      ⟨List.mem_append_left _ (List.mem_map_of_mem member), decide_eq_true same⟩
  · refine List.map_eq_nil_iff.mpr (List.filter_eq_nil_iff.mpr fun late listed same => ?_)
    obtain ⟨node, member, rfl⟩ := List.mem_map.mp listed
    have named : node.id = ref.src := of_decide_eq_true same
    rcases List.mem_append.mp member with resolved | packaged
    · exact (mem_map_accepted.mp (List.mem_map_of_mem resolved)).2 (named ▸ heard)
    · refine (mem_map_accepted.mp (List.mem_map_of_mem packaged)).2 ?_
      exact named ▸ Registry.mem_known_extend.mpr (Or.inl heard)

theorem mark_of_unmarked {id : NodeId} (unmarked : run.resolution.marks.get? id = none)
    (record : NodeRecord) : run.mark id record = record := by
  rw [mark, unmarked]

theorem labels_mark (id : NodeId) (record : NodeRecord) :
    (run.mark id record).labels = record.labels := by
  unfold mark
  split
  · split <;> rfl
  · rfl

theorem props_mark (id : NodeId) (record : NodeRecord) :
    (run.mark id record).props = record.props := by
  unfold mark
  split
  · split <;> rfl
  · rfl

theorem fileHash_mark (id : NodeId) (record : NodeRecord) :
    (run.mark id record).fileHash = record.fileHash := by
  unfold mark
  split
  · split <;> rfl
  · rfl

theorem taint_mark {id : NodeId} {facts : Resolve.ResolverMark}
    (found : run.resolution.marks.get? id = some facts) (record : NodeRecord) :
    (run.mark id record).taint =
      if run.Marks id record then facts.over record.taint else record.taint := by
  simp only [mark, Marks, found, Option.isSome_some, true_and]
  split <;> rfl

/-- Facts that are set anew leave the sanitizer to what was there before. -/
theorem setTaint_eq_iff {set : Prop} [Decidable set] {facts : Resolve.ResolverMark}
    {old new : FunctionTaint} :
    ((if set then facts.over (putTaint old new) else putTaint old new) =
        if set then facts.over new else new) ↔
      CoversTaint set (if set then facts.over new else new) old := by
  by_cases anew : set
  · rw [if_pos anew, if_pos anew]
    simp only [Resolve.ResolverMark.over, putTaint, FunctionTaint.mk.injEq, rewrite_eq_new,
      true_and, and_true]
    exact ⟨fun cleans => ⟨cleans, (absurd anew ·), (absurd anew ·), (absurd anew ·)⟩,
      CoversTaint.sanitizer⟩
  · rw [if_neg anew, if_neg anew, putTaint_eq_new, eq_false anew]

/-- A marked record takes the place of the one that its row is put over exactly when it
covers that one. -/
theorem mark_over {id : NodeId} {old new : NodeRecord} :
    run.mark id (old.over new) = run.mark id new ↔
      (run.mark id new).Covers (run.Marks id (run.mark id new)) old := by
  cases found : run.resolution.marks.get? id with
  | none =>
      have unmarked : ¬ run.Marks id (run.mark id new) := fun marked => by
        have present := marked.1
        rw [found] at present
        cases present
      rw [eq_false unmarked, mark_of_unmarked found, mark_of_unmarked found,
        NodeRecord.over_eq_new]
  | some facts =>
      -- Where labels and repository come out the same, so does the choice to set the facts.
      have chosen : (old.over new).labels = new.labels → (old.over new).props = new.props →
          run.Marks id (old.over new) = run.Marks id new := by
        intro labels props
        simp only [Marks, labels, props]
      have remains : run.Marks id (run.mark id new) = run.Marks id new := by
        simp only [Marks, labels_mark, props_mark]
      simp only [remains, NodeRecord.ext_iff, labels_mark, props_mark, fileHash_mark,
        taint_mark found]
      constructor
      · rintro ⟨labels, props, fileHash, taint⟩
        simp only [chosen labels props] at taint
        refine ⟨?_, ?_, ?_, ?_⟩
        · exact labels_mark id new ▸ Finset.union_eq_right.mp labels
        · exact props_mark id new ▸ (overProps_eq_new old.bare new.bare).mp props
        · exact fileHash_mark id new ▸ rewrite_eq_new.mp fileHash
        · exact taint_mark found new ▸ setTaint_eq_iff.mp taint
      · intro covers
        have labels : (old.over new).labels = new.labels :=
          Finset.union_eq_right.mpr (labels_mark id new ▸ covers.labels)
        have props : (old.over new).props = new.props :=
          (overProps_eq_new old.bare new.bare).mpr (props_mark id new ▸ covers.props)
        refine ⟨labels, props, rewrite_eq_new.mpr (fileHash_mark id new ▸ covers.fileHash), ?_⟩
        simp only [chosen labels props]
        exact setTaint_eq_iff.mpr (taint_mark found new ▸ covers.taint)

theorem recordsAt_ne_nil {rows : List (NodeId × NodeRecord)} {id : NodeId} :
    recordsAt rows id ≠ [] ↔ id ∈ rows.map Prod.fst := by
  simp only [recordsAt, ne_eq, List.map_eq_nil_iff, List.filter_eq_nil_iff, decide_eq_true_eq,
    not_forall, not_not, exists_prop, List.mem_map]

/-- The nodes after the writes of a run are the ids known to the store. -/
theorem isSome_nodes_written {id : NodeId} : ((run.written hashes held).nodes.get? id).isSome ↔
    id ∈ (run.storedOver held.nodes.keys).known := by
  have named : ∀ (stamp : NodeId → FunctionTaint) (nodes : List Node),
      (nodes.map (row hashes stamp)).map Prod.fst = nodes.map Node.id :=
    fun _ _ => List.map_map
  rw [get?_nodes_written, isSome_settled, Option.isSome_map, isSome_settled, recordsAt_ne_nil,
    recordsAt_ne_nil, storedOver, Ledger.known_foldl_write, declares_writes, earlyRows, lateRows,
    Option.isSome_iff_exists, ← Dict.mem_keys_iff]
  simp only [List.map_append, named, List.mem_append, or_assoc]

/-- The store knows what is held. -/
theorem known_of_held {id : NodeId} (present : (held.nodes.get? id).isSome) :
    id ∈ (run.storedOver held.nodes.keys).known := by
  rw [storedOver, Ledger.known_foldl_write]
  exact List.mem_append_left _ ((held.nodes.mem_keys_iff id).mpr (Option.isSome_iff_exists.mp present))

/-- A node that is not held yet gets what its rows leave alone. -/
theorem nodes_written_of_none {id : NodeId} (gone : held.nodes.get? id = none) :
    (run.written hashes held).nodes.get? id = (run.written hashes {}).nodes.get? id := by
  rw [get?_nodes_written, get?_nodes_written, gone]
  rfl

/-- A node without rows stays as it is held. -/
theorem nodes_written_of_unwritten {id : NodeId}
    (unwritten : (run.written hashes {}).nodes.get? id = none) :
    (run.written hashes held).nodes.get? id = held.nodes.get? id := by
  rw [get?_nodes_written, settled_eq_none, Option.map_eq_none_iff, settled_eq_none] at unwritten
  obtain ⟨⟨_, early⟩, late⟩ := unwritten
  have unmarked : run.resolution.marks.get? id = none := by
    rw [← Option.not_isSome_iff_eq_none]
    exact fun marked => (rows_of_marked marked).1 early
  rw [get?_nodes_written, early, late]
  cases held.nodes.get? id with
  | none => rfl
  | some old => exact congrArg some (mark_of_unmarked unmarked old)

/-- A node with rows comes out as from the rows alone exactly when these cover what is
held. -/
theorem nodes_written_eq_iff {id : NodeId} {old new : NodeRecord}
    (kept : held.nodes.get? id = some old)
    (written : (run.written hashes {}).nodes.get? id = some new) :
    (run.written hashes held).nodes.get? id = some new ↔ new.Covers (run.Marks id new) old := by
  rw [get?_nodes_written] at written
  rw [get?_nodes_written, kept]
  change settled _ ((settled _ none _).map _) _ = _ at written
  cases marked : run.resolution.marks.get? id with
  | none =>
      have still : ∀ found : Option NodeRecord, found.map (run.mark id) = found := by
        intro found
        cases found with
        | none => rfl
        | some record => exact congrArg some (mark_of_unmarked marked record)
      have unmarked : ¬ run.Marks id new := fun present => by
        have facts := present.1
        rw [marked] at facts
        cases facts
      rw [still, ← settled_append] at written
      rw [still, ← settled_append, settled_some NodeRecord.over_assoc, written, Option.elim_some,
        Option.some_inj, NodeRecord.over_eq_new, eq_false unmarked]
  | some facts =>
      rw [(rows_of_marked (marked ▸ rfl)).2, settled_nil] at written
      obtain ⟨row, early, rfl⟩ := Option.map_eq_some_iff.mp written
      rw [(rows_of_marked (marked ▸ rfl)).2, settled_nil, settled_some NodeRecord.over_assoc, early]
      exact Option.some_inj.trans mark_over

end Nodes

section Relationships

theorem get?_relationships_written (key : EdgeKey) :
    (run.written hashes held).relationships.get? key =
      settled Relationship.over (held.relationships.get? key)
        (run.linksAt held.nodes.keys key) :=
  get?_foldl_mergeEdge _ _ _

/-- Ids that are there already only add to the edges that are taken. -/
theorem linksAt_sublist (known : List NodeId) (key : EdgeKey) :
    (run.linksAt [] key).Sublist (run.linksAt known key) := by
  refine List.Sublist.map _ (List.Sublist.filter _ ?_)
  exact Ledger.links_sublist growing_accepts (fun _ listed => (List.not_mem_nil listed).elim)
    List.Sublist.slnil

/-- A property that some edges leave when put over another value is the one they leave
alone, if fewer of them leave it so. -/
theorem part_eq_of_rewrite {α : Type*} [DecidableEq α] {absent : α} {part : Relationship → α}
    (rewrites : ∀ old new, part (old.over new) = rewrite absent (part old) (part new))
    {fewer more : List Relationship} (sublist : fewer.Sublist more) {small large : Relationship}
    (first : settled Relationship.over none fewer = some small)
    (second : settled Relationship.over none more = some large) {old : α}
    (same : rewrite absent old (part large) = part small) : part large = part small := by
  by_cases gone : part large = absent
  case neg => rwa [rewrite, if_neg gone] at same
  have splits : ∀ old new, part (old.over new) ≠ absent ↔ part old ≠ absent ∨ part new ≠ absent := by
    intro old new
    rw [rewrites, rewrite]
    split
    · next same => simp only [same, ne_eq, not_true_eq_false, or_false]
    · next other => exact iff_of_true other (Or.inr other)
  have shown : ∀ links : List Relationship,
      (∃ final ∈ settled Relationship.over none links, part final ≠ absent) ↔
        ∃ link ∈ links, part link ≠ absent := by
    intro links
    rw [settled_shows splits]
    simp only [Option.not_mem_none, false_and, exists_false, false_or]
  by_contra different
  have present : part small ≠ absent := fun none => different (gone.trans none.symm)
  obtain ⟨link, listed, shows⟩ := (shown fewer).mp ⟨small, first, present⟩
  obtain ⟨final, settles, fails⟩ := (shown more).mpr ⟨link, sublist.subset listed, shows⟩
  cases second.symm.trans settles
  exact fails gone

/-- A relationship with edges comes out as from the edges of the run alone exactly when
these leave the same without the ids that are there already, and cover what is held. -/
theorem relationships_written_eq_iff {key : EdgeKey} {new : Relationship}
    (written : (run.written hashes {}).relationships.get? key = some new) :
    (run.written hashes held).relationships.get? key = some new ↔
      settled Relationship.over none (run.linksAt held.nodes.keys key) = some new ∧
        ∀ old ∈ held.relationships.get? key, CoversLink new old := by
  rw [get?_relationships_written] at written
  rw [get?_relationships_written]
  change settled _ none (run.linksAt [] key) = _ at written
  cases kept : held.relationships.get? key with
  | none => simp only [Option.not_mem_none, false_imp_iff, implies_true, and_true]
  | some old =>
      simp only [settled_some overLink_assoc, Option.mem_some_iff, forall_eq']
      cases own : settled Relationship.over none (run.linksAt held.nodes.keys key) with
      | none =>
          obtain ⟨_, empty⟩ := settled_eq_none.mp own
          have nothing := run.linksAt_sublist held.nodes.keys key
          rw [empty, List.sublist_nil] at nothing
          rw [nothing] at written
          cases written
      | some link =>
          simp only [Option.elim_some, Option.some_inj]
          constructor
          · intro same
            have sublist := run.linksAt_sublist held.nodes.keys key
            have evidenceLine : link.evidenceLine = new.evidenceLine :=
              part_eq_of_rewrite (fun _ _ => rfl) sublist written own
                (congrArg Relationship.evidenceLine same)
            have strategy : link.strategy = new.strategy :=
              part_eq_of_rewrite (fun _ _ => rfl) sublist written own
                (congrArg Relationship.strategy same)
            have equal : link = new := by
              cases link
              exact Relationship.mk.injEq .. ▸ ⟨congrArg Relationship.confidence same,
                congrArg Relationship.origin same, evidenceLine, strategy⟩
            exact ⟨equal, overLink_eq_new.mp (equal ▸ same)⟩
          · rintro ⟨rfl, covers⟩
            exact overLink_eq_new.mpr covers

/-- What the store accepts goes from and to nodes that are there. -/
theorem known_of_stored {known : List NodeId} {edge : Edge}
    (taken : edge ∈ (run.storedOver known).links) :
    edge.src ∈ (run.storedOver known).known ∧ edge.dst ∈ (run.storedOver known).known := by
  have accepted := Ledger.accepts_of_mem_foldl_write growing_accepts
    (fun _ before => (List.not_mem_nil before).elim) edge taken
  simp only [accepts, Bool.and_eq_true, decide_eq_true_eq] at accepted
  exact ⟨accepted.1.2, accepted.2⟩

/-- A run leaves no relationship without its ends. -/
theorem closed_written (closed : held.Closed) : (run.written hashes held).Closed := by
  intro key link present
  rw [isSome_nodes_written, isSome_nodes_written]
  rw [get?_relationships_written] at present
  cases kept : held.relationships.get? key with
  | some old =>
      have ends := closed key old kept
      exact ⟨known_of_held ends.1, known_of_held ends.2⟩
  | none =>
      have taken : run.linksAt held.nodes.keys key ≠ [] := by
        intro empty
        rw [kept, empty] at present
        cases present
      obtain ⟨_, listed⟩ := List.exists_mem_of_ne_nil _ taken
      obtain ⟨edge, among, rfl⟩ := List.mem_map.mp listed
      obtain ⟨stored, keyed⟩ := List.mem_filter.mp among
      obtain rfl : edge.key = key := of_decide_eq_true keyed
      exact known_of_stored stored

end Relationships

end IndexRun

end GraphIngest.Pipeline
