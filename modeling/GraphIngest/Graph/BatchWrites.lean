import GraphIngest.Foundation.Flights
import GraphIngest.Foundation.Grouping
import GraphIngest.Foundation.Sequence
import GraphIngest.Graph.Store

/-! # Batched store writes

`GraphStore._write_in_batches` takes (query, rows) batches from a lazy source. With one worker
it runs each before it takes the next; with more it keeps as many transactions in flight as
there are workers. An execution is one managed transaction, whose retries are the driver's.
`write_nodes` makes its batches of the nodes of one label, and every node is in one of them.
-/

namespace GraphIngest.Graph.BatchWrites

open Foundation Foundation.Flights Text

/-- `get_write_workers`: what `GRAPH_WRITE_WORKERS` holds, where it is a number. -/
def getWriteWorkers (setting : Option Int) : Nat :=
  match setting with
  | some n => if n > 0 then n.toNat else 1
  | none => 1

theorem getWriteWorkers_pos (setting : Option Int) : 0 < getWriteWorkers setting := by
  cases setting with
  | none => exact Nat.one_pos
  | some n =>
      rw [getWriteWorkers]
      split
      · next positive => exact Int.pos_iff_toNat_pos.mp positive
      · exact Nat.one_pos

variable {ρ : Type*} (batches : List (Str × List ρ)) (setting : Option Int)

/-- A step of `_write_in_batches` or of an execution: a batch is executed with its rows. -/
def WriteStep : State → State → Prop := Step (batches.map Prod.snd) (getWriteWorkers setting)

/-- The states `_write_in_batches` can come to. -/
def WriteInBatches : State → Prop := Reachable (batches.map Prod.snd) (getWriteWorkers setting)

/-- Nothing more can happen. -/
def Ended (state : State) : Prop := ∀ next, ¬ WriteStep batches setting state next

variable {batches setting} {state : State}

/-- **Batched writes.** No batch is executed twice. The transactions are no more than the
workers, and so are the batches handed over and not yet taken. The counts reported do not go
back. A return says that every batch was executed with success, and gives the number of all
rows. Every run comes to an end, by a return or a raise, and by a raise if a batch has
failed. -/
theorem written_in_batches (reached : WriteInBatches batches setting state) :
    state.started.Nodup ∧
    (state.running.length ≤ getWriteWorkers setting ∧
      state.inFlight.length ≤ getWriteWorkers setting ∧
      ∀ job < state.cursor, (∀ success, (job, success) ∉ state.settled) →
        job ∈ state.inFlight) ∧
    state.reports.Pairwise (· ≤ ·) ∧
    (∀ total, state.control = .returned total →
      (∀ job < batches.length, (job, true) ∈ state.settled) ∧
        total = (batches.flatMap Prod.snd).length) ∧
    (∀ job, (job, false) ∈ state.settled → ∀ total, state.control ≠ .returned total) ∧
    (Ended batches setting state →
      (state.control = .raised ∨ ∃ total, state.control = .returned total) ∧
        ∀ job, (job, false) ∈ state.settled → state.control = .raised) ∧
    Acc (fun next before => WriteStep batches setting before next) state := by
  have invariant : Invariant (batches.map Prod.snd) (getWriteWorkers setting) state :=
    Reachable.invariant reached
  have sound := invariant.sound
  have positive := getWriteWorkers_pos setting
  have few : state.inFlight.length ≤ getWriteWorkers setting :=
    sound.few.trans (max_le positive (Nat.le_refl _))
  have returned : ∀ total, state.control = .returned total →
      (∀ job < batches.length, (job, true) ∈ state.settled) ∧
        total = (batches.flatMap Prod.snd).length := by
    intro total place
    have all := invariant.returned place
    rw [List.length_map] at all
    exact all
  have never : ∀ job, (job, false) ∈ state.settled →
      ∀ total, state.control ≠ .returned total := by
    intro job failed total place
    have before : job < batches.length := by
      have begun := sound.executed.mem_iff.mpr
        (List.mem_append_right _ (List.mem_map_of_mem failed))
      have taken := (sound.submitted job begun).trans_le sound.within
      rwa [List.length_map] at taken
    exact sound.not_failed ((returned total place).1 job before) failed
  refine ⟨sound.once, ⟨sound.length_running_le.trans few, few, fun job before pending =>
    sound.in_flight before pending⟩, sound.rising, returned, never, ?_, invariant.accessible⟩
  intro ended
  have final := (invariant.progress positive).resolve_left (not_exists.mpr ended)
  refine ⟨final, fun job failed => final.resolve_right ?_⟩
  exact not_exists.mpr (never job failed)

/-- Three batches for two workers. -/
def threeBatches : List (Str × List Nat) :=
  [("MERGE".toList, [1, 2, 3]), ("MERGE".toList, [4]), ("CREATE".toList, [5, 6])]

/-- The second batch ends first, and the third is handed over while the first is still being
executed. -/
theorem refilled_threeBatches : WriteInBatches threeBatches (some 2)
    { control := .taking [], cursor := 3, inFlight := [0, 2], running := [0],
      settled := [(1, true)], started := [1, 0], written := 1, reports := [1] } :=
  ((((((((((Reachable.start.step (Step.submit rfl (by decide))).step
    (Step.submit rfl (by decide))).step
    (Step.filled rfl (Or.inl rfl))).step
    (@Step.begin _ _ _ _ 1 (by decide) (by decide) (by decide))).step
    (@Step.begin _ _ _ _ 0 (by decide) (by decide) (by decide))).step
    (@Step.finish _ _ _ _ [] 1 [0] rfl true)).step
    (@Step.wake _ _ _ _ [1] rfl (by decide) (by decide) (by decide))).step
    (Step.take rfl (by decide))).step
    (Step.report rfl)).step
    (Step.refill rfl (by decide)))

/-- The run goes on to its return: the third batch is executed next to the first, and its result
is taken before. -/
theorem written_threeBatches : ∃ state,
    WriteInBatches threeBatches (some 2) state ∧ state.started = [1, 0, 2] ∧
      state.started.Nodup ∧ state.reports = [1, 3, 6] ∧ state.reports.Pairwise (· ≤ ·) ∧
      state.control = .returned 6 := by
  have reached : WriteInBatches threeBatches (some 2) _ :=
    (((((((((((((refilled_threeBatches.step (Step.drained rfl)).step
      (@Step.begin _ _ _ _ 2 (by decide) (by decide) (by decide))).step
      (@Step.finish _ _ _ _ [0] 2 [] rfl true)).step
      (@Step.finish _ _ _ _ [] 0 [] rfl true)).step
      (@Step.wake _ _ _ _ [2, 0] rfl (by decide) (by decide) (by decide))).step
      (Step.take rfl (by decide))).step
      (Step.report rfl)).step
      (Step.exhausted rfl rfl)).step
      (Step.take rfl (by decide))).step
      (Step.report rfl)).step
      (Step.exhausted rfl rfl)).step
      (Step.drained rfl)).step
      (Step.leave rfl rfl))
  have written := written_in_batches reached
  exact ⟨_, reached, rfl, written.1, rfl, written.2.2.1, rfl⟩

section Nodes

/-- A row of the query that writes nodes. -/
structure NodeRow where
  id : NodeId
  props : StoredNode
  ts : Int

/-- The row of a node. -/
def nodeRow (ts : Int) (node : Node) : NodeRow where
  id := node.id
  props := node.props
  ts := ts

/-- `get_write_batch_size`: what `GRAPH_WRITE_BATCH_SIZE` holds, where it is a number. -/
def getWriteBatchSize (setting : Option Int) : ℕ+ :=
  match setting with
  | some n => if positive : n > 0 then ⟨n.toNat, Int.pos_iff_toNat_pos.mp positive⟩ else 5000
  | none => 5000

variable (query : NodeLabel → Str) (sizeSetting : Option Int) (ts : Int)

/-- `_batches` of `write_nodes`: the nodes of each label, in pieces, each with the query for the
label. -/
def nodeBatches (nodes : List Node) : List (Str × List NodeRow) :=
  (grouped Node.label nodes).entries.flatMap fun group =>
    (chunksOf (getWriteBatchSize sizeSetting) group.2).map fun piece =>
      (query group.1, piece.map (nodeRow ts))

/-- Every node has its row in one batch. -/
theorem rows_nodeBatches_perm (nodes : List Node) :
    ((nodeBatches query sizeSetting ts nodes).flatMap Prod.snd).Perm (nodes.map (nodeRow ts)) := by
  have rows (group : NodeLabel × List Node) :
      ((chunksOf (getWriteBatchSize sizeSetting) group.2).map fun piece =>
        (query group.1, piece.map (nodeRow ts))).flatMap Prod.snd = group.2.map (nodeRow ts) := by
    rw [List.flatMap_map]
    change ((chunksOf (getWriteBatchSize sizeSetting) group.2).map
      (List.map (nodeRow ts))).flatten = group.2.map (nodeRow ts)
    rw [← List.map_flatten, flatten_chunksOf]
  rw [nodeBatches, List.flatMap_assoc]
  simp only [rows]
  rw [← List.map_flatMap]
  exact (flatMap_grouped_perm nodes).map (nodeRow ts)

/-- **Count of `write_nodes`.** What it is told at a return is the number of its nodes. -/
theorem total_of_nodeBatches {nodes : List Node} {setting : Option Int} {state : State}
    {total : Nat} (reached : WriteInBatches (nodeBatches query sizeSetting ts nodes) setting state)
    (place : state.control = .returned total) : total = nodes.length := by
  have all := (Reachable.invariant reached).returned place
  have rows := (rows_nodeBatches_perm query sizeSetting ts nodes).length_eq
  rw [List.length_map] at rows
  exact all.2.trans rows

end Nodes

end GraphIngest.Graph.BatchWrites
