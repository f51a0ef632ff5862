import GraphIngest.Foundation.Prefetch
import GraphIngest.Graph.Bundle

/-! # The stream of references

A resolve run reads the references of a repository batch file by batch file. A thread of its own
loads the next file while the references of one are gone through; between the two stands a
queue for one batch.
-/

namespace GraphIngest.Ingest

open Foundation Text Graph

/-- What `joblib.load` can raise. -/
inductive LoadException
  | osError
  | eofError
  | valueError
  | other (type : Str)
deriving DecidableEq

/-- What `load_batch` catches. -/
def LoadException.caught : LoadException → Bool
  | osError | eofError | valueError => true
  | other _ => false

/-- `load_batch` on what `joblib.load` returns or raises: a file that is missing or cannot be
read is passed over; any other exception goes on. -/
def loadBatch (outcome : Except LoadException Bundle) : Except LoadException (Option Bundle) :=
  match outcome with
  | .ok bundle => .ok (some bundle)
  | .error exc => if exc.caught then .ok none else .error exc

theorem loadBatch_eq_error {outcome : Except LoadException Bundle} {exc : LoadException} :
    loadBatch outcome = .error exc ↔ outcome = .error exc ∧ exc.caught = false := by
  cases outcome with
  | ok bundle =>
      constructor
      · intro same
        cases same
      · intro same
        cases same.1
  | error raised =>
      rw [loadBatch, Except.error.injEq]
      split
      · next caught =>
          constructor
          · intro same
            cases same
          · intro same
            rw [same.1, same.2] at caught
            cases caught
      · next uncaught =>
          rw [Except.error.injEq]
          exact ⟨fun same => ⟨same, same ▸ Bool.eq_false_iff.mpr uncaught⟩, And.left⟩

theorem loadBatch_eq_some {outcome : Except LoadException Bundle} {bundle : Bundle} :
    loadBatch outcome = .ok (some bundle) ↔ outcome = .ok bundle := by
  cases outcome with
  | ok found => rw [loadBatch, Except.ok.injEq, Except.ok.injEq, Option.some.injEq]
  | error raised =>
      rw [loadBatch]
      constructor
      · intro same
        split at same <;> cases same
      · intro same
        cases same

/-- `RefStream`: what `joblib.load` gives of each batch file, and their number. -/
structure RefStream where
  joblibLoad : Nat → Except LoadException Bundle
  numBatches : Nat

namespace RefStream

/-- `maxsize`. -/
def queueSize : Nat := 1

/-- What the loader of an iteration loads. -/
def loads (stream : RefStream) : List (Except LoadException (Option Bundle)) :=
  (List.range stream.numBatches).map fun index => loadBatch (stream.joblibLoad index)

/-- The states of an iteration, in any interleaving of the loader with the consumer. -/
def Reachable (stream : RefStream) : Prefetch.State LoadException Bundle RawRef → Prop :=
  Prefetch.Reachable Bundle.refs queueSize stream.loads

/-- The references in the file of a batch, if it loads. -/
def refsAt (stream : RefStream) (index : Nat) : List RawRef :=
  match stream.joblibLoad index with
  | .ok bundle => bundle.refs
  | .error _ => []

/-- The references of all batches that load, in their order. -/
def refs (stream : RefStream) : List RawRef := (List.range stream.numBatches).flatMap stream.refsAt

/-- Whether no load raises what `load_batch` does not catch. -/
def Caught (stream : RefStream) : Prop :=
  ∀ index < stream.numBatches, ∀ exc, stream.joblibLoad index = .error exc → exc.caught = true

variable {stream : RefStream}

theorem flatMap_loads : stream.loads.flatMap (Prefetch.loadItems Bundle.refs) = stream.refs := by
  rw [loads, List.flatMap_map, refs]
  congr 1
  funext index
  rw [refsAt]
  cases stream.joblibLoad index with
  | ok bundle => rfl
  | error exc =>
      rw [loadBatch]
      split <;> rfl

theorem raises_iff : (∃ exc, .error exc ∈ stream.loads) ↔ ¬ stream.Caught := by
  constructor
  · intro found caught
    obtain ⟨exc, listed⟩ := found
    obtain ⟨index, before, same⟩ := List.mem_map.mp listed
    obtain ⟨raised, uncaught⟩ := loadBatch_eq_error.mp same
    rw [caught index (List.mem_range.mp before) exc raised] at uncaught
    cases uncaught
  · intro uncaught
    by_contra none
    apply uncaught
    intro index before exc raised
    by_contra goesOn
    have same := loadBatch_eq_error.mpr ⟨raised, Bool.eq_false_iff.mpr goesOn⟩
    exact none ⟨exc, List.mem_map.mpr ⟨index, List.mem_range.mpr before, same⟩⟩

/-- **Complete delivery.** An iteration that came to its end has delivered all references. -/
theorem delivered_of_finished {state : Prefetch.State LoadException Bundle RawRef}
    (reached : stream.Reachable state) (finished : state.consumer = .finished) :
    state.delivered = stream.refs :=
  ((Prefetch.Reachable.invariant reached).complete finished).trans flatMap_loads

/-- **Delivery.** In every state of every iteration the first part of the references has been
delivered and the consumer does not wait in vain, if and only if no load raises an exception
that `load_batch` does not catch. -/
theorem delivers_iff :
    (∀ state, stream.Reachable state → state.delivered <+: stream.refs ∧ ¬ state.Stuck) ↔
      stream.Caught := by
  have stuck := @Prefetch.exists_stuck_iff _ _ _ Bundle.refs queueSize stream.loads Nat.one_pos
  constructor
  · intro delivers
    by_contra uncaught
    obtain ⟨state, reached, waits⟩ := stuck.mpr (raises_iff.mpr uncaught)
    exact (delivers state reached).2 waits
  · intro caught state reached
    have delivered := (Prefetch.Reachable.invariant reached).isPrefix
    rw [flatMap_loads] at delivered
    exact ⟨delivered, fun waits => raises_iff.mp (stuck.mp ⟨state, reached, waits⟩) caught⟩

/-- A truncated pickle ends the loader, and the consumer waits for ever. -/
theorem exists_waiting_in_vain : ∃ (stream : RefStream)
    (state : Prefetch.State LoadException Bundle RawRef),
    stream.Reachable state ∧ state.Stuck := by
  have reached : Reachable ⟨fun _ => .error (.other "UnpicklingError".toList), 1⟩ _ :=
    (Prefetch.Reachable.start.load (.begin rfl rfl)).load (.fail rfl)
  exact ⟨_, _, reached, rfl, rfl, rfl⟩

/-- Whether three batches load that follow one another, and no load before them raises what
`load_batch` does not catch. -/
def ThreeInARow (stream : RefStream) : Prop :=
  ∃ first, first + 2 < stream.numBatches ∧
    (∀ index < first, ∀ exc, stream.joblibLoad index = .error exc → exc.caught = true) ∧
    ∀ index, first ≤ index → index ≤ first + 2 → ∃ bundle, stream.joblibLoad index = .ok bundle

theorem crowded_iff : Prefetch.Crowded queueSize stream.loads ↔ stream.ThreeInARow := by
  have passes (index : Nat) : (∃ batch, loadBatch (stream.joblibLoad index) = .ok batch) ↔
      ∀ exc, stream.joblibLoad index = .error exc → exc.caught = true := by
    constructor
    · intro found exc raised
      obtain ⟨batch, same⟩ := found
      by_contra goesOn
      rw [loadBatch_eq_error.mpr ⟨raised, Bool.eq_false_iff.mpr goesOn⟩] at same
      cases same
    · intro caught
      cases same : loadBatch (stream.joblibLoad index) with
      | ok batch => exact ⟨batch, rfl⟩
      | error exc =>
          obtain ⟨raised, uncaught⟩ := loadBatch_eq_error.mp same
          rw [caught exc raised] at uncaught
          cases uncaught
  rw [loads, Prefetch.crowded_range_iff, ThreeInARow]
  simp only [passes, loadBatch_eq_some, queueSize]

/-- **Residency.** In every state of every iteration at most two batches are loaded and not yet
fully consumed, if and only if no three batches load that follow one another. -/
theorem resident_le_two_iff :
    (∀ state, stream.Reachable state → state.resident ≤ 2) ↔ ¬ stream.ThreeInARow := by
  rw [← crowded_iff,
    ← @Prefetch.exists_resident_iff _ _ _ Bundle.refs queueSize stream.loads Nat.one_pos]
  constructor
  · intro few found
    obtain ⟨state, reached, many⟩ := found
    exact absurd (few state reached) (Nat.not_le_of_lt many)
  · intro none state reached
    by_contra many
    exact none ⟨state, reached, Nat.lt_of_not_le many⟩

/-- A batch with one reference. -/
def singleRef : Bundle where
  refs := [{ type := .calls, src := ⟨"caller".toList, by decide⟩, targetName := "callee".toList }]

/-- One batch consumed, one in the queue, one in the hands of the loader. -/
theorem exists_three_resident : ∃ (stream : RefStream)
    (state : Prefetch.State LoadException Bundle RawRef),
    stream.Reachable state ∧ state.resident = 3 := by
  have reached : Reachable ⟨fun _ => .ok singleRef, 3⟩ _ :=
    @Prefetch.Reachable.crowds _ _ _ _ _ [] Nat.one_pos [] singleRef singleRef [singleRef]
      (Nat.le_refl 1)
  exact ⟨_, _, reached, rfl⟩

end RefStream

end GraphIngest.Ingest
