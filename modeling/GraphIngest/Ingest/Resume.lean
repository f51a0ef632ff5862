import GraphIngest.Ingest.Checkpoint

/-! # Resuming from a checkpoint

Several runs may work on one checkpoint, each over its own candidates and each
crashed at any point. A batch file holds what the last run that saved it made of
the batch; a manifest that is accepted says nothing about that. A run ends with
the bundle of a fresh extraction where the batches it skips are up to date.
-/

namespace GraphIngest.Ingest

open Foundation Graph

/-- A run that may have crashed: its candidates, the files it removed of a checkpoint
of another shape and, when all was written, of its own, and the number of disk
operations it got to do. -/
structure Attempt where
  candidates : Candidates
  cleared : List Entry
  closing : List Entry
  operations : Nat

/-- What happens to a checkpoint: a run, or a batch file that stops to load. -/
inductive Event
  | run (attempt : Attempt)
  | rot (index : Nat)

section History

variable (extractor : Extractor)

/-- The operations a run got to do. -/
def Attempt.done (attempt : Attempt) (disk : Checkpoint) : List DiskOp :=
  (attempt.candidates.runOps extractor disk attempt.cleared ++
    attempt.closing.map DiskOp.remove).take attempt.operations

def Event.leave (disk : Checkpoint) : Event → Checkpoint
  | .run attempt => (attempt.done extractor disk).foldl Checkpoint.perform disk
  | .rot index => if disk.batchExists index then disk.setBatch index (some .broken) else disk

/-- The checkpoint after some events, the latest one first. -/
def checkpointAfter : List Event → Checkpoint
  | [] => {}
  | event :: earlier => event.leave extractor (checkpointAfter earlier)

/-- Whether an operation writes a batch. -/
def DiskOp.writes (index : Nat) : DiskOp → Bool
  | .writeBatch other _ => other = index
  | _ => false

/-- The candidates of the last run that saved a batch. -/
def savedBy : List Event → Nat → Option Candidates
  | [], _ => none
  | .rot _ :: earlier, index => savedBy earlier index
  | .run attempt :: earlier, index =>
      if (attempt.done extractor (checkpointAfter extractor earlier)).any (DiskOp.writes index) then
        some attempt.candidates
      else savedBy earlier index

/-- The batches that the next run skips load, and what the run that saved them made of
them is what would be made of them now. -/
def UpToDate (events : List Event) (candidates : Candidates) : Prop :=
  ∀ index < candidates.numBatches,
    candidates.skips (checkpointAfter extractor events) index = true →
      (checkpointAfter extractor events).batches index ≠ some .broken ∧
        ∀ saver, savedBy extractor events index = some saver →
          saver.batchMerged extractor index = candidates.batchMerged extractor index

end History

section History

variable {extractor : Extractor}

theorem bundle_of_writeBatch_done {attempt : Attempt} {disk : Checkpoint} {index : Nat}
    {bundle : Bundle} (listed : .writeBatch index bundle ∈ attempt.done extractor disk) :
    bundle = attempt.candidates.batchMerged extractor index := by
  rcases List.mem_append.mp (List.mem_of_mem_take listed) with written | removed
  · exact Candidates.bundle_of_writeBatch_runOps written
  · obtain ⟨_, _, same⟩ := List.mem_map.mp removed
    cases same

/-- **Savers.** A batch file holds what its last saver extracted, or it has stopped to
load. -/
theorem batches_checkpointAfter {events : List Event} {index : Nat} {file : BatchFile}
    (held : (checkpointAfter extractor events).batches index = some file) :
    ∃ saver, savedBy extractor events index = some saver ∧
      (file = .broken ∨ file = .saved (saver.batchMerged extractor index)) := by
  induction events generalizing file with
  | nil => cases held
  | cons event earlier ih =>
      cases event with
      | rot other =>
          rw [savedBy]
          rw [checkpointAfter, Event.leave] at held
          split at held
          · next there =>
            by_cases same : index = other
            · subst same
              obtain ⟨before, found⟩ := Option.isSome_iff_exists.mp there
              obtain ⟨saver, saved, _⟩ := ih found
              simp only [Checkpoint.setBatch, ↓reduceIte, Option.some.injEq] at held
              exact ⟨saver, saved, Or.inl held.symm⟩
            · simp only [Checkpoint.setBatch, same, ↓reduceIte] at held
              exact ih held
          · exact ih held
      | run attempt =>
          rw [savedBy]
          rcases batches_foldl_perform held with ⟨bundle, listed, same⟩ | ⟨before, unwritten⟩
          · have extracted := bundle_of_writeBatch_done listed
            refine ⟨attempt.candidates, ?_, Or.inr (same.trans (congrArg _ extracted))⟩
            rw [if_pos (List.any_eq_true.mpr ⟨_, listed, decide_eq_true rfl⟩)]
          · rw [if_neg]
            · exact ih before
            · intro any
              obtain ⟨op, listed, writes⟩ := List.any_eq_true.mp any
              cases op with
              | writeBatch other bundle =>
                  cases of_decide_eq_true writes
                  exact unwritten bundle listed
              | writeManifest manifest => cases writes
              | remove entry => cases writes

/-- **Resumption.** After any runs, each crashed at any point, a run whose skipped batches
are up to date ends with the bundle of a fresh extraction. -/
theorem resumed_eq_extracted (extractor : Extractor) (events : List Event)
    (candidates : Candidates) (cleared : List Entry)
    (upToDate : UpToDate extractor events candidates) :
    candidates.resumed extractor (checkpointAfter extractor events) cleared =
      candidates.extracted extractor := by
  refine Candidates.resumed_eq_of_current cleared fun index inside skipped => ?_
  obtain ⟨loads, current⟩ := upToDate index inside skipped
  have there : ((checkpointAfter extractor events).batches index).isSome = true := by
    unfold Candidates.skips at skipped
    split at skipped
    · exact (Bool.and_eq_true_iff.mp skipped).2
    · cases skipped
  obtain ⟨file, held⟩ := Option.isSome_iff_exists.mp there
  obtain ⟨saver, saved, broken | whole⟩ := batches_checkpointAfter held
  · exact (loads (held.trans (congrArg some broken))).elim
  · rw [held, whole, current saver saved]

/-- A saver is the candidates of one of the runs. -/
theorem mem_of_savedBy {events : List Event} {index : Nat} {saver : Candidates}
    (saved : savedBy extractor events index = some saver) :
    ∃ attempt, .run attempt ∈ events ∧ attempt.candidates = saver := by
  induction events with
  | nil => cases saved
  | cons event earlier ih =>
      cases event with
      | rot other =>
          obtain ⟨attempt, listed, same⟩ := ih saved
          exact ⟨attempt, List.mem_cons_of_mem _ listed, same⟩
      | run attempt =>
          rw [savedBy] at saved
          split at saved
          · exact ⟨attempt, List.mem_cons_self, Option.some.inj saved⟩
          · obtain ⟨attempt, listed, same⟩ := ih saved
            exact ⟨attempt, List.mem_cons_of_mem _ listed, same⟩

/-- Where no file rots, every batch file loads. -/
theorem batches_ne_broken {events : List Event} (sound : ∀ index, .rot index ∉ events)
    (index : Nat) : (checkpointAfter extractor events).batches index ≠ some .broken := by
  intro broken
  induction events with
  | nil => cases broken
  | cons event earlier ih =>
      have before := ih fun index listed => sound index (List.mem_cons_of_mem _ listed)
      cases event with
      | rot other => exact sound other List.mem_cons_self
      | run attempt =>
          rcases batches_foldl_perform broken with ⟨bundle, _, same⟩ | ⟨same, _⟩
          · cases same
          · exact before same

/-- **Unchanged files.** Runs over the same candidates may crash at any point, one after
the other: the next one ends with the bundle of a fresh extraction. -/
theorem resumed_unchanged (extractor : Extractor) (attempts : List Attempt)
    (candidates : Candidates) (cleared : List Entry)
    (unchanged : ∀ attempt ∈ attempts, attempt.candidates = candidates) :
    candidates.resumed extractor (checkpointAfter extractor (attempts.map Event.run)) cleared =
      mergeBundles (candidates.extractAll extractor candidates.relpaths) := by
  have sound : ∀ index, .rot index ∉ attempts.map Event.run := by
    intro index listed
    obtain ⟨_, _, same⟩ := List.mem_map.mp listed
    cases same
  have kept : UpToDate extractor (attempts.map Event.run) candidates := by
    refine fun index _ _ => ⟨batches_ne_broken sound index, fun saver saved => ?_⟩
    obtain ⟨attempt, listed, rfl⟩ := mem_of_savedBy saved
    obtain ⟨_, member, same⟩ := List.mem_map.mp listed
    cases same
    rw [unchanged attempt member]
  rw [resumed_eq_extracted extractor _ candidates cleared kept, Candidates.extracted_eq]

end History

section Samples

/-- A file of one byte, a reference to the letter of that byte in it. -/
def sampleExtractor : Extractor where
  bodyHash := fun source => source.map fun byte => Char.ofNat byte.toNat
  extract := fun file => some
    { refs := [{ type := .calls, src := ⟨['f'], List.cons_ne_nil _ _⟩, targetName := file.sha }] }

/-- Two files in batches of one, the second of a given content. -/
def sampleCandidates (byte : UInt8) : Candidates where
  relpaths := ["A.java", "B.java"]
  codebase := fun path => if path = "A.java".toList then some [65] else some [byte]
  batchSize := 1
  positive := Nat.one_pos

/-- A run over them that crashes after some disk operations. -/
def sampleAttempt (byte : UInt8) (operations : Nat) : Attempt where
  candidates := sampleCandidates byte
  cleared := []
  closing := []
  operations := operations

/-- The first batch has been saved, and only the file of the second one is edited. -/
theorem resumed_eq_extracted_sample :
    UpToDate sampleExtractor [.run (sampleAttempt 66 3)] (sampleCandidates 67) ∧
      (sampleCandidates 67).resumed sampleExtractor
          (checkpointAfter sampleExtractor [.run (sampleAttempt 66 3)]) [] =
        (sampleCandidates 67).extracted sampleExtractor := by
  have upToDate : UpToDate sampleExtractor [.run (sampleAttempt 66 3)] (sampleCandidates 67) := by
    intro index inside skipped
    match index, inside with
    | 0, _ =>
        refine ⟨by decide +kernel, fun saver saved => ?_⟩
        have first : savedBy sampleExtractor [.run (sampleAttempt 66 3)] 0 =
            some (sampleCandidates 66) :=
          if_pos (by decide +kernel)
        cases Option.some.inj (first.symm.trans saved)
        decide +kernel
    | 1, _ =>
        revert skipped
        decide +kernel
    | _ + 2, beyond =>
        exact absurd beyond (Nat.not_lt.mpr (Nat.le_add_left 2 _))
  exact ⟨upToDate, resumed_eq_extracted _ _ _ _ upToDate⟩

/-- The second batch has been saved too, and the edit is not seen. -/
theorem edited_stale : ¬ ∀ (extractor : Extractor) (attempt : Attempt) (candidates : Candidates),
    (checkpointAfter extractor [.run attempt]).manifest.any candidates.accepts = true →
      candidates.resumed extractor (checkpointAfter extractor [.run attempt]) [] =
        candidates.extracted extractor := by
  intro resumes
  have same := resumes sampleExtractor (sampleAttempt 66 5) (sampleCandidates 67)
    (by decide +kernel)
  revert same
  decide +kernel

end Samples

end GraphIngest.Ingest
