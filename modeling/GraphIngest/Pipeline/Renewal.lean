import GraphIngest.Pipeline.Queries
import GraphIngest.Pipeline.StoredGraph

/-! # When writing over is writing anew

A run that writes over what is held leaves what it would leave in an empty store
exactly when nothing of what is held shows: every node and relationship that is kept is
written again and covered, or is one that the queries create as it is; no edge finds an
end that only what is kept provides; and no call that is kept leads the queries further.
-/

namespace GraphIngest.Pipeline

open Foundation Text Graph External

namespace IndexRun

variable (run : IndexRun) (hashes : Str → Str)

section Condition

variable (held : Holding)

/-- What the writes of a run make of an empty store. -/
def fresh : Holding := run.written hashes {}

/-- A relationship that is there although the run alone does not write it: one that is
kept, or one whose ends are only kept. -/
def Stray (key : EdgeKey) (left : Relationship) : Prop :=
  (run.fresh hashes).relationships.get? key = none ∧
    settled Relationship.over (held.relationships.get? key)
      (run.linksAt held.nodes.keys key) = some left

/-- Nothing of what is held shows after a run. -/
structure Renews : Prop where
  nodes : ∀ id old new, held.nodes.get? id = some old →
    (run.fresh hashes).nodes.get? id = some new → new.Covers (run.Marks id new) old
  orphans : ∀ id old, held.nodes.get? id = some old →
    (run.fresh hashes).nodes.get? id = none → run.AcquiresNode (run.fresh hashes) id old
  links : ∀ key new, (run.fresh hashes).relationships.get? key = some new →
    settled Relationship.over none (run.linksAt held.nodes.keys key) = some new ∧
      ∀ old ∈ held.relationships.get? key, CoversLink new old
  strays : ∀ key left, run.Stray hashes held key left → run.Creates (run.fresh hashes) key left
  dispatched : run.input.options.polymorphicDispatch = true →
    ∀ caller child ancestor left record override,
      run.Stray hashes held (.calls, caller, ancestor) left →
        (run.fresh hashes).nodes.get? child = some record →
          record.props.repo = run.input.options.repo →
            (run.fresh hashes).relationships.get? (.overrides, child, ancestor) = some override →
              (run.fresh hashes).relationships.get? (.calls, caller, child) = none →
                (∀ other, ¬ run.Stray hashes held (.calls, caller, child) other) →
                  run.Dispatches (run.fresh hashes) (.calls, caller, child) (dispatchedLink left)

end Condition

variable {run hashes} {held : Holding}

section Store

/-- The labels of a stored node apart from its other properties. -/
def outline (node : StoredNode) : Finset NodeLabel × StoredNode :=
  (node.labels.toFinset, { node with labels := [] })

/-- Putting over, the labels apart. -/
def overOutline (old new : Finset NodeLabel × StoredNode) : Finset NodeLabel × StoredNode :=
  (old.1 ∪ new.1, old.2.over new.2)

theorem toFinset_foldl_insert (labels more : List NodeLabel) :
    (more.foldl (fun labels label => labels.insert label) labels).toFinset =
      labels.toFinset ∪ more.toFinset := by
  induction more generalizing labels with
  | nil => exact (Finset.union_empty _).symm
  | cons label rest ih =>
      rw [List.foldl_cons, ih, List.toFinset_cons]
      ext other
      simp only [Finset.mem_union, List.mem_toFinset, List.mem_insert_iff, Finset.mem_insert]
      tauto

/-- The outline of a node written over another is that of its outlines. -/
theorem outline_over (old new : StoredNode) :
    outline (old.over new) = overOutline (outline old) (outline new) :=
  Prod.ext (toFinset_foldl_insert old.labels new.labels) rfl

/-- What a record says of labels and properties. -/
def view (record : NodeRecord) : Finset NodeLabel × StoredNode := (record.labels, record.props)

theorem view_over (old new : NodeRecord) :
    view (old.over new) = overOutline (view old) (view new) := rfl

/-- The mark of a run does not show in the view of a node. -/
theorem view_mark (id : NodeId) (record : NodeRecord) : view (run.mark id record) = view record :=
  Prod.ext (labels_mark id record) (props_mark id record)

theorem recordsAt_append (rows more : List (NodeId × NodeRecord)) (id : NodeId) :
    recordsAt (rows ++ more) id = recordsAt rows id ++ recordsAt more id := by
  rw [recordsAt, List.filter_append, List.map_append]
  rfl

/-- The rows of some nodes are their records in the store of a run. -/
theorem map_recordsAt (stamp : NodeId → FunctionTaint) (nodes : List Node) (id : NodeId) :
    (recordsAt (nodes.map (row hashes stamp)) id).map view =
      ((nodes.filter fun node => node.id = id).map Node.props).map outline := by
  rw [recordsAt, List.filter_map, List.map_map, List.map_map, List.map_map]
  rfl

/-- **The store of a run.** What the writes make of an empty store is in the store of the
run. -/
theorem graphStore_of_fresh {id : NodeId} {record : NodeRecord}
    (written : (run.fresh hashes).nodes.get? id = some record) :
    ∃ node, run.graphStore.nodes.get? id = some node ∧ outline node = view record := by
  have viewed : ((run.fresh hashes).nodes.get? id).map view =
      (((run.writes.flatMap Chunk.declares).foldl mergeNode Dict.empty).get? id).map outline := by
    have marked : view ∘ run.mark id = view := funext (view_mark id)
    rw [fresh, get?_nodes_written, get?_foldl_mergeNode, settled_map view view_over,
      Option.map_map, marked, settled_map view view_over, ← settled_append,
      settled_map outline outline_over, declares_writes, earlyRows, lateRows]
    refine congrArg (settled overOutline none) ?_
    simp only [recordsAt_append, List.map_append, map_recordsAt, List.filter_append,
      List.append_assoc]
  rw [written, Option.map_some] at viewed
  obtain ⟨node, stored, same⟩ := Option.map_eq_some_iff.mp viewed.symm
  refine ⟨node, ?_, same⟩
  have created := Dict.get?_foldl_setdefault (fun _ => true) Node.id Node.props run.acquireNodes
    ((run.writes.flatMap Chunk.declares).foldl mergeNode Dict.empty) id
  rw [stored, Option.some_or] at created
  exact created

/-- **Relationships of a run.** Those that the writes make are in its store. -/
theorem graphStore_of_fresh_relationship {key : EdgeKey} {link : Relationship}
    (written : (run.fresh hashes).relationships.get? key = some link) :
    run.graphStore.relationships.get? key = some link := by
  have created := Dict.get?_foldl_setdefault (fun _ => true) Edge.key Edge.props
    (run.polymorphicCalls ++ run.acquires) (run.stored.links.foldl mergeEdge Dict.empty) key
  change (run.stored.links.foldl mergeEdge Dict.empty).get? key = some link at written
  rw [written, Option.some_or] at created
  exact created

end Store

section Kept

/-- Nothing that is held vanishes. -/
theorem held_of_unwritten {id : NodeId} (gone : (run.written hashes held).nodes.get? id = none) :
    held.nodes.get? id = none := by
  rw [get?_nodes_written, settled_eq_none, Option.map_eq_none_iff, settled_eq_none] at gone
  exact gone.1.1

/-- What an empty store gets is there whatever was held. -/
theorem fresh_of_unwritten {key : EdgeKey}
    (gone : (run.written hashes held).relationships.get? key = none) :
    (run.fresh hashes).relationships.get? key = none := by
  rw [get?_relationships_written, settled_eq_none] at gone
  rw [fresh, get?_relationships_written, settled_eq_none]
  refine ⟨rfl, List.sublist_nil.mp ?_⟩
  exact gone.2 ▸ run.linksAt_sublist held.nodes.keys key

/-- A stray relationship is there, but not in an empty store. -/
theorem stray_iff {key : EdgeKey} {left : Relationship} : run.Stray hashes held key left ↔
    (run.fresh hashes).relationships.get? key = none ∧
      (run.written hashes held).relationships.get? key = some left := by
  rw [Stray, get?_relationships_written]

/-- A relationship of an empty store begins at one of its nodes. -/
theorem source_of_fresh {key : EdgeKey} {link : Relationship}
    (present : (run.fresh hashes).relationships.get? key = some link) :
    ∃ record, (run.fresh hashes).nodes.get? key.2.1 = some record :=
  Option.isSome_iff_exists.mp (closed_written Holding.closed_empty key link present).1

/-- The queries create calls. -/
theorem type_of_creates {base : Holding} {key : EdgeKey} {link : Relationship}
    (creates : run.Creates base key link) : key.1 = .calls ∨ key.1 = .callsExternal := by
  rcases creates with ⟨_, _, _, _, _, _, _, rfl, _⟩ | ⟨_, _, _, rfl, _⟩
  · exact Or.inl rfl
  · exact Or.inr rfl

end Kept

section Enough

variable (renews : run.Renews hashes held)
include renews

/-- Nodes after a run: those of an empty store, and orphans. -/
theorem Renews.get?_nodes (id : NodeId) : (run.written hashes held).nodes.get? id =
    ((run.fresh hashes).nodes.get? id).or (held.nodes.get? id) := by
  cases written : (run.fresh hashes).nodes.get? id with
  | none => exact nodes_written_of_unwritten written
  | some new =>
      cases kept : held.nodes.get? id with
      | none => exact (nodes_written_of_none kept).trans written
      | some old => exact (nodes_written_eq_iff kept written).mpr (renews.nodes id old new kept written)

/-- A run that renews leaves its relationships as it makes them afresh. -/
theorem Renews.get?_relationships {key : EdgeKey} {new : Relationship}
    (written : (run.fresh hashes).relationships.get? key = some new) :
    (run.written hashes held).relationships.get? key = some new :=
  (relationships_written_eq_iff written).mpr (renews.links key new written)

/-- An orphan is no function that acquires. -/
theorem Renews.acquires_iff {source : NodeId} {found : NodeRecord} :
    run.Acquires (run.written hashes held) source found ↔
      run.Acquires (run.fresh hashes) source found := by
  refine and_congr_left fun acquires => ?_
  rw [renews.get?_nodes]
  cases written : (run.fresh hashes).nodes.get? source with
  | some new => rfl
  | none =>
      refine iff_of_false (fun kept => ?_) nofun
      obtain ⟨_, function, _, same⟩ := renews.orphans source found kept written
      have record : found = (acquiredNode function.props).2 := congrArg Prod.snd same
      rw [record] at acquires
      cases acquires

/-- A run that renews acquires the nodes that it acquires afresh. -/
theorem Renews.acquiresNode_iff {id : NodeId} {record : NodeRecord} :
    run.AcquiresNode (run.written hashes held) id record ↔
      run.AcquiresNode (run.fresh hashes) id record :=
  exists₂_congr fun _ _ => and_congr_left fun _ => renews.acquires_iff

theorem Renews.acquiresLink_iff {key : EdgeKey} {link : Relationship} :
    run.AcquiresLink (run.written hashes held) key link ↔
      run.AcquiresLink (run.fresh hashes) key link :=
  exists₂_congr fun _ _ => and_congr_left fun _ => renews.acquires_iff

/-- Where nothing is there yet, the same calls are created. -/
theorem Renews.dispatches_iff {key : EdgeKey} {link : Relationship}
    (missing : (run.written hashes held).relationships.get? key = none) :
    run.Dispatches (run.written hashes held) key link ↔
      run.Dispatches (run.fresh hashes) key link := by
  constructor
  · rintro ⟨enabled, caller, child, ancestor, record, override, call, rfl, rfl, present, own,
      overriding, calling⟩
    have overrides : (run.fresh hashes).relationships.get? (.overrides, child, ancestor) =
        some override := by
      cases written : (run.fresh hashes).relationships.get? (.overrides, child, ancestor) with
      | some new => exact (renews.get?_relationships written).symm.trans overriding
      | none =>
          have stray := stray_iff.mpr ⟨written, overriding⟩
          rcases type_of_creates (renews.strays _ _ stray) with same | same <;> cases same
    have declared : (run.fresh hashes).nodes.get? child = some record := by
      obtain ⟨other, found⟩ := source_of_fresh overrides
      rw [renews.get?_nodes, found] at present
      exact found.trans present
    cases written : (run.fresh hashes).relationships.get? (.calls, caller, ancestor) with
    | some new =>
        have same := (renews.get?_relationships written).symm.trans calling
        exact ⟨enabled, caller, child, ancestor, record, override, call, rfl, rfl, declared, own,
          overrides, written.trans same⟩
    | none =>
        refine renews.dispatched enabled caller child ancestor call record override
          (stray_iff.mpr ⟨written, calling⟩) declared own overrides (fresh_of_unwritten missing) ?_
        intro other stray
        cases missing.symm.trans (stray_iff.mp stray).2
  · rintro ⟨enabled, caller, child, ancestor, record, override, call, rfl, rfl, present, own,
      overriding, calling⟩
    refine ⟨enabled, caller, child, ancestor, record, override, call, rfl, rfl, ?_, own,
      renews.get?_relationships overriding, renews.get?_relationships calling⟩
    rw [renews.get?_nodes, present]
    rfl

/-- What can stand after a run on what is held can stand after it on an empty store. -/
theorem Renews.finishes {final : Holding}
    (finished : run.Finishes (run.written hashes held) final) :
    run.Finishes (run.fresh hashes) final := by
  constructor
  · intro id
    have completes := finished.nodes id
    rw [renews.get?_nodes] at completes
    cases written : (run.fresh hashes).nodes.get? id with
    | some new => rwa [written] at completes
    | none =>
        rw [written, Option.none_or] at completes
        cases kept : held.nodes.get? id with
        | some old =>
            rw [kept, completes_some] at completes
            rw [completes]
            exact renews.orphans id old kept written
        | none =>
            rw [kept] at completes
            refine (completes_congr fun record => ?_).mp completes
            exact renews.acquiresNode_iff
  · intro key
    have completes := finished.relationships key
    cases written : (run.fresh hashes).relationships.get? key with
    | some new => rwa [renews.get?_relationships written] at completes
    | none =>
        cases left : (run.written hashes held).relationships.get? key with
        | some link =>
            rw [left, completes_some] at completes
            rw [completes]
            exact renews.strays key link (stray_iff.mpr ⟨written, left⟩)
        | none =>
            rw [left] at completes
            refine (completes_congr fun link => ?_).mp completes
            exact or_congr (renews.dispatches_iff left) renews.acquiresLink_iff

end Enough

section Needed

variable (included : ∀ final, run.Finishes (run.written hashes held) final →
  run.Finishes (run.fresh hashes) final)
include included

/-- What is there before the queries can stand after a run on an empty store. -/
theorem completes_node {id : NodeId} {found : NodeRecord}
    (present : (run.written hashes held).nodes.get? id = some found) :
    Completes ((run.fresh hashes).nodes.get? id) (run.AcquiresNode (run.fresh hashes) id)
      (some found) := by
  have stays := (finishes_finish run (run.written hashes held)).nodes id
  rw [present, completes_some] at stays
  exact stays ▸ (included _ (finishes_finish run _)).nodes id

/-- What is acquired completes a relationship that is there. -/
theorem completes_relationship {key : EdgeKey} {found : Relationship}
    (present : (run.written hashes held).relationships.get? key = some found) :
    Completes ((run.fresh hashes).relationships.get? key) (run.Creates (run.fresh hashes) key)
      (some found) := by
  have stays := (finishes_finish run (run.written hashes held)).relationships key
  rw [present, completes_some] at stays
  exact stays ▸ (included _ (finishes_finish run _)).relationships key

/-- What an empty store gets has to come out the same. -/
theorem nodes_of_included {id : NodeId} {new : NodeRecord}
    (written : (run.fresh hashes).nodes.get? id = some new) :
    (run.written hashes held).nodes.get? id = some new := by
  cases present : (run.written hashes held).nodes.get? id with
  | some found =>
      have completes := completes_node included present
      rwa [written] at completes
  | none =>
      rw [fresh, ← nodes_written_of_none (held_of_unwritten present), present] at written
      cases written

/-- The relationships that a fresh run writes are there as it writes them. -/
theorem relationships_of_included {key : EdgeKey} {new : Relationship}
    (written : (run.fresh hashes).relationships.get? key = some new) :
    (run.written hashes held).relationships.get? key = some new := by
  cases present : (run.written hashes held).relationships.get? key with
  | some found =>
      have completes := completes_relationship included present
      rwa [written] at completes
  | none => cases written.symm.trans (fresh_of_unwritten present)

/-- A call that a query creates can be the one that ends up there. -/
theorem dispatches_of_included {key : EdgeKey} {link : Relationship}
    (missing : (run.written hashes held).relationships.get? key = none)
    (dispatches : run.Dispatches (run.written hashes held) key link) :
    run.Dispatches (run.fresh hashes) key link := by
  let finished := run.finish (run.written hashes held)
  let final : Holding :=
    { finished with relationships := finished.relationships.set key link }
  have done : run.Finishes (run.written hashes held) final := by
    refine ⟨(finishes_finish run _).nodes, fun other => ?_⟩
    change Completes _ _ ((finished.relationships.set key link).get? other)
    rw [Dict.get?_set]
    split
    · next same =>
        rw [same, missing]
        exact Or.inl dispatches
    · exact (finishes_finish run _).relationships other
  have completes := (included final done).relationships key
  change Completes _ _ ((finished.relationships.set key link).get? key) at completes
  rw [Dict.get?_set, if_pos rfl, fresh_of_unwritten missing] at completes
  rcases completes with same | ⟨_, _, _, same, _⟩
  · exact same
  · obtain ⟨_, _, _, _, _, _, _, calls, _⟩ := dispatches
    cases calls.symm.trans same

/-- A run over a graph renews it where all that it can leave is what a fresh run can leave. -/
theorem renews_of_included : run.Renews hashes held where
  nodes id old new kept written :=
    (nodes_written_eq_iff kept written).mp (nodes_of_included included written)
  orphans id old kept unwritten := by
    have present := (nodes_written_of_unwritten unwritten).trans kept
    have completes := completes_node included present
    rwa [unwritten] at completes
  links key new written :=
    (relationships_written_eq_iff written).mp (relationships_of_included included written)
  strays key left stray := by
    have completes := completes_relationship included (stray_iff.mp stray).2
    rwa [stray.1] at completes
  dispatched enabled caller child ancestor left record override stray declared own overrides
      missing alone := by
    have absent : (run.written hashes held).relationships.get? (.calls, caller, child) = none :=
      Option.eq_none_iff_forall_not_mem.mpr fun other present =>
        alone other (stray_iff.mpr ⟨missing, present⟩)
    refine dispatches_of_included included absent
      ⟨enabled, caller, child, ancestor, record, override, left, rfl, rfl,
        nodes_of_included included declared, own, relationships_of_included included overrides,
        (stray_iff.mp stray).2⟩

end Needed

/-- **Renewal.** What can stand after a run on what is held is what can stand after it on
an empty store exactly when nothing of what is held shows. -/
theorem included_iff_renews :
    (∀ final, run.Finishes (run.written hashes held) final →
      run.Finishes (run.fresh hashes) final) ↔ run.Renews hashes held :=
  ⟨renews_of_included, fun renews _ finished => renews.finishes finished⟩

end IndexRun

end GraphIngest.Pipeline
