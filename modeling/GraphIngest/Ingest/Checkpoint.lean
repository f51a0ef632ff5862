import GraphIngest.Graph.Bundle
import GraphIngest.Ingest.Discovery

/-! # Extraction checkpoints

Candidates are extracted batch by batch; each batch is saved in a file of its own
and then entered in a manifest. A later run with the same number of batches and
the same batch size skips the batches entered in the manifest whose files exist,
and at its end reads all batches back. A run is the sequence of its disk
operations, each of them atomic, and a crash leaves a prefix of them.
-/

namespace GraphIngest.Ingest

open Foundation Text Graph

/-- How files are hashed and extracted; extraction may fail. -/
structure Extractor where
  bodyHash : Bytes → Str
  extract : FileInfo → Option Bundle

/-- The candidates of a run, the codebase it reads and its batch size. -/
structure Candidates where
  relpaths : List Str
  codebase : Codebase
  batchSize : Nat
  positive : 0 < batchSize

/-- The manifest of a checkpoint. -/
structure Manifest where
  totalBatches : Nat
  batchSize : Nat
  batchesDone : List Nat
deriving DecidableEq

/-- A batch file: a bundle, or what no longer loads. -/
inductive BatchFile
  | saved (bundle : Bundle)
  | broken
deriving DecidableEq

/-- The checkpoint directory of a repository: a manifest that loads, and batch files
by index. -/
structure Checkpoint where
  manifest : Option Manifest := none
  batches : Nat → Option BatchFile := fun _ => none

/-- A file of a checkpoint directory. -/
inductive Entry
  | manifest
  | batch (index : Nat)
deriving DecidableEq

/-- A disk operation on it. -/
inductive DiskOp
  | writeManifest (manifest : Manifest)
  | writeBatch (index : Nat) (bundle : Bundle)
  | remove (entry : Entry)

namespace Checkpoint

/-- Put a file in the place of a batch. -/
def setBatch (checkpoint : Checkpoint) (index : Nat) (file : Option BatchFile) : Checkpoint :=
  { checkpoint with
    batches := fun other => if other = index then file else checkpoint.batches other }

/-- Do one operation. -/
def perform (checkpoint : Checkpoint) : DiskOp → Checkpoint
  | .writeManifest manifest => { checkpoint with manifest := some manifest }
  | .writeBatch index bundle => checkpoint.setBatch index (some (.saved bundle))
  | .remove .manifest => { checkpoint with manifest := none }
  | .remove (.batch index) => checkpoint.setBatch index none

/-- `batch_exists`. -/
def batchExists (checkpoint : Checkpoint) (index : Nat) : Bool :=
  (checkpoint.batches index).isSome

/-- `load_batch`. -/
def loadBatch (checkpoint : Checkpoint) (index : Nat) : Option Bundle :=
  match checkpoint.batches index with
  | some (.saved bundle) => some bundle
  | _ => none

/-- The merge of the batches that load. -/
def reassemble (checkpoint : Checkpoint) (count : Nat) : Bundle :=
  let loaded := (List.range count).filterMap checkpoint.loadBatch
  mergeBundles
    [{ nodes := loaded.flatMap Bundle.nodes
       edges := loaded.flatMap Bundle.edges
       refs := loaded.flatMap Bundle.refs }]

end Checkpoint

/-- Mark a batch as done. -/
def Manifest.mark (manifest : Manifest) (index : Nat) : Manifest :=
  if index ∈ manifest.batchesDone then manifest
  else { manifest with batchesDone := manifest.batchesDone ++ [index] }

/-- `save_batch`: the batch file, then the manifest. -/
def saveBatch (manifest : Manifest) (index : Nat) (bundle : Bundle) : List DiskOp :=
  [.writeBatch index bundle, .writeManifest (manifest.mark index)]

namespace Candidates

variable (extractor : Extractor) (candidates : Candidates)

/-- The number of batches; there is one even without candidates. -/
def numBatches : Nat :=
  if candidates.relpaths.length = 0 then 1
  else (candidates.relpaths.length + candidates.batchSize - 1) / candidates.batchSize

/-- The candidates of a batch. -/
def batchRelpaths (index : Nat) : List Str :=
  (candidates.relpaths.drop (index * candidates.batchSize)).take candidates.batchSize

/-- The bundle of a file, empty when its extraction fails. -/
def extractOne (file : FileInfo) : Bundle := (extractor.extract file).getD {}

/-- The bundles of some candidates. -/
def extractAll (relpaths : List Str) : List Bundle :=
  (discover extractor.bodyHash candidates.codebase relpaths).map (extractOne extractor)

def batchMerged (index : Nat) : Bundle :=
  mergeBundles (candidates.extractAll extractor (candidates.batchRelpaths index))

/-- A manifest without batches. -/
def freshManifest : Manifest where
  totalBatches := candidates.numBatches
  batchSize := candidates.batchSize
  batchesDone := []

/-- Whether a manifest is one of this number and size of batches. -/
def accepts (manifest : Manifest) : Bool :=
  manifest.totalBatches = candidates.numBatches && manifest.batchSize = candidates.batchSize

/-- `init_manifest`: the manifest to go on with, and what is done to the disk; the
files of a checkpoint of another shape are removed, errors ignored. -/
def initManifest (disk : Checkpoint) (cleared : List Entry) : Manifest × List DiskOp :=
  match disk.manifest with
  | some existing =>
      if candidates.accepts existing then (existing, [])
      else
        (candidates.freshManifest,
          cleared.map DiskOp.remove ++ [.writeManifest candidates.freshManifest])
  | none => (candidates.freshManifest, [.writeManifest candidates.freshManifest])

/-- The batch loop. -/
def extractBatches : Manifest → Checkpoint → List Nat → List DiskOp
  | _, _, [] => []
  | manifest, disk, index :: rest =>
      if index ∈ manifest.batchesDone ∧ disk.batchExists index then
        extractBatches manifest disk rest
      else
        let ops := saveBatch manifest index (candidates.batchMerged extractor index)
        ops ++ extractBatches (manifest.mark index) (ops.foldl Checkpoint.perform disk) rest

/-- All disk operations of a run. -/
def runOps (disk : Checkpoint) (cleared : List Entry) : List DiskOp :=
  let (manifest, ops) := candidates.initManifest disk cleared
  ops ++ candidates.extractBatches extractor manifest (ops.foldl Checkpoint.perform disk)
    (List.range candidates.numBatches)

/-- The merged bundle of a run with a checkpoint. -/
def resumed (disk : Checkpoint) (cleared : List Entry) : Bundle :=
  ((candidates.runOps extractor disk cleared).foldl Checkpoint.perform disk).reassemble
    candidates.numBatches

/-- Whether a run skips a batch. -/
def skips (disk : Checkpoint) (index : Nat) : Bool :=
  match disk.manifest with
  | some manifest =>
      candidates.accepts manifest && manifest.batchesDone.contains index && disk.batchExists index
  | none => false

/-- The merged bundle of a run without checkpoint. -/
def extracted : Bundle :=
  let merged := (List.range candidates.numBatches).map (candidates.batchMerged extractor)
  mergeBundles
    [{ nodes := merged.flatMap Bundle.nodes
       edges := merged.flatMap Bundle.edges
       refs := merged.flatMap Bundle.refs }]

end Candidates

section Disk

/-- A batch file there after some operations was written by them, or was there before
and they wrote none. -/
theorem batches_foldl_perform {ops : List DiskOp} {disk : Checkpoint} {index : Nat}
    {file : BatchFile} (held : (ops.foldl Checkpoint.perform disk).batches index = some file) :
    (∃ bundle, .writeBatch index bundle ∈ ops ∧ file = .saved bundle) ∨
      disk.batches index = some file ∧ ∀ bundle, .writeBatch index bundle ∉ ops := by
  induction ops generalizing disk with
  | nil => exact Or.inr ⟨held, fun _ listed => nomatch listed⟩
  | cons op rest ih =>
      rcases ih held with ⟨bundle, listed, same⟩ | ⟨before, unwritten⟩
      · exact Or.inl ⟨bundle, List.mem_cons_of_mem _ listed, same⟩
      · cases op with
        | writeManifest manifest =>
            refine Or.inr ⟨before, fun bundle listed => ?_⟩
            rcases List.mem_cons.mp listed with same | later
            · cases same
            · exact unwritten bundle later
        | writeBatch other bundle =>
            by_cases same : other = index
            · subst same
              refine Or.inl ⟨bundle, List.mem_cons_self, ?_⟩
              simp only [Checkpoint.perform, Checkpoint.setBatch, ↓reduceIte,
                Option.some.injEq] at before
              exact before.symm
            · simp only [Checkpoint.perform, Checkpoint.setBatch, Ne.symm same,
                ↓reduceIte] at before
              refine Or.inr ⟨before, fun bundle listed => ?_⟩
              rcases List.mem_cons.mp listed with equal | later
              · cases equal
                exact same rfl
              · exact unwritten bundle later
        | remove entry =>
            refine Or.inr ⟨?_, fun bundle listed => ?_⟩
            · cases entry with
              | manifest => exact before
              | batch other =>
                  simp only [Checkpoint.perform, Checkpoint.setBatch] at before
                  split at before
                  · cases before
                  · exact before
            · rcases List.mem_cons.mp listed with same | later
              · cases same
              · exact unwritten bundle later

theorem mem_mark {manifest : Manifest} {index other : Nat} :
    other ∈ (manifest.mark index).batchesDone ↔ other ∈ manifest.batchesDone ∨ other = index := by
  unfold Manifest.mark
  split
  · next listed =>
    refine (or_iff_left_of_imp ?_).symm
    rintro rfl
    exact listed
  · rw [List.mem_append, List.mem_singleton]

theorem batches_saveBatch (disk : Checkpoint) (manifest : Manifest) (index other : Nat)
    (bundle : Bundle) :
    ((saveBatch manifest index bundle).foldl Checkpoint.perform disk).batches other =
      if other = index then some (.saved bundle) else disk.batches other := rfl

end Disk

namespace Candidates

variable {extractor : Extractor} {candidates : Candidates}

theorem bundle_of_writeBatch_extractBatches {manifest : Manifest} {disk : Checkpoint}
    {indices : List Nat} {index : Nat} {bundle : Bundle}
    (listed : .writeBatch index bundle ∈
      candidates.extractBatches extractor manifest disk indices) :
    bundle = candidates.batchMerged extractor index := by
  induction indices generalizing manifest disk with
  | nil => cases listed
  | cons head rest ih =>
      unfold extractBatches at listed
      split at listed
      · exact ih listed
      · rcases List.mem_append.mp listed with now | later
        · rcases List.mem_cons.mp now with same | entered
          · cases same
            rfl
          · cases List.mem_singleton.mp entered
        · exact ih later

theorem bundle_of_writeBatch_runOps {disk : Checkpoint} {cleared : List Entry} {index : Nat}
    {bundle : Bundle}
    (listed : .writeBatch index bundle ∈ candidates.runOps extractor disk cleared) :
    bundle = candidates.batchMerged extractor index := by
  rcases List.mem_append.mp listed with started | looped
  · change _ ∈ (candidates.initManifest disk cleared).2 at started
    unfold initManifest at started
    split at started
    · split at started
      · cases started
      · rcases List.mem_append.mp started with removed | written
        · obtain ⟨_, _, same⟩ := List.mem_map.mp removed
          cases same
        · cases List.mem_singleton.mp written
    · cases List.mem_singleton.mp started
  · exact bundle_of_writeBatch_extractBatches looped

/-- **Loop.** A batch entered in the manifest whose file exists stays as it is, any other
one of the loop is written. -/
theorem batches_extractBatches {manifest : Manifest} {disk : Checkpoint} {indices : List Nat}
    (distinct : indices.Nodup) (index : Nat) :
    ((candidates.extractBatches extractor manifest disk indices).foldl Checkpoint.perform
        disk).batches index =
      if index ∉ indices ∨ index ∈ manifest.batchesDone ∧ disk.batchExists index = true then
        disk.batches index
      else some (.saved (candidates.batchMerged extractor index)) := by
  induction indices generalizing manifest disk with
  | nil => simp only [extractBatches, List.foldl_nil, List.not_mem_nil, not_false_eq_true, true_or,
      ↓reduceIte]
  | cons head rest ih =>
      obtain ⟨fresh, apart⟩ := List.nodup_cons.mp distinct
      unfold extractBatches
      split
      · next kept =>
        rw [ih apart]
        by_cases same : index = head
        · subst same
          rw [if_pos (Or.inl fresh), if_pos (Or.inr kept)]
        · simp only [List.mem_cons, same, false_or]
      · next missing =>
        rw [List.foldl_append, ih apart, batches_saveBatch]
        by_cases same : index = head
        · subst same
          rw [if_pos (Or.inl fresh), if_pos rfl, if_neg]
          rintro (absent | kept)
          · exact absent List.mem_cons_self
          · exact missing kept
        · simp only [Checkpoint.batchExists, batches_saveBatch, mem_mark, List.mem_cons, same,
            or_false, false_or, ↓reduceIte]

/-- **Run.** A skipped batch stays as it is, any other one is written. -/
theorem batches_runOps (disk : Checkpoint) (cleared : List Entry) {index : Nat}
    (inside : index < candidates.numBatches) :
    ((candidates.runOps extractor disk cleared).foldl Checkpoint.perform disk).batches index =
      if candidates.skips disk index = true then disk.batches index
      else some (.saved (candidates.batchMerged extractor index)) := by
  have looped : index ∈ List.range candidates.numBatches := List.mem_range.mpr inside
  have afresh : ∀ disk : Checkpoint,
      ((candidates.extractBatches extractor candidates.freshManifest disk
        (List.range candidates.numBatches)).foldl Checkpoint.perform disk).batches index =
        some (.saved (candidates.batchMerged extractor index)) := by
    intro disk
    rw [batches_extractBatches List.nodup_range, if_neg]
    rintro (absent | ⟨listed, _⟩)
    · exact absent looped
    · cases listed
  unfold runOps initManifest skips
  cases disk.manifest with
  | none =>
      dsimp only
      rw [List.foldl_append, afresh, if_neg Bool.false_ne_true]
  | some existing =>
      dsimp only
      by_cases accepted : candidates.accepts existing = true
      · rw [if_pos accepted, List.foldl_append, batches_extractBatches List.nodup_range]
        simp only [looped, not_true_eq_false, false_or, accepted, Bool.true_and, Bool.and_eq_true,
          List.contains_iff_mem, List.foldl_nil]
      · rw [if_neg accepted, List.foldl_append, afresh, if_neg]
        simp only [Bool.eq_false_iff.mpr accepted, Bool.false_and, Bool.false_eq_true,
          not_false_eq_true]

/-- **Reassembly.** A run whose skipped batches hold what would be extracted now ends
with the bundle of a fresh extraction. -/
theorem resumed_eq_of_current {disk : Checkpoint} (cleared : List Entry)
    (current : ∀ index < candidates.numBatches, candidates.skips disk index = true →
      disk.batches index = some (.saved (candidates.batchMerged extractor index))) :
    candidates.resumed extractor disk cleared = candidates.extracted extractor := by
  have loaded : (List.range candidates.numBatches).filterMap
      ((candidates.runOps extractor disk cleared).foldl Checkpoint.perform disk).loadBatch =
        (List.range candidates.numBatches).map (candidates.batchMerged extractor) := by
    rw [← List.filterMap_eq_map]
    refine List.filterMap_congr fun index listed => ?_
    have inside := List.mem_range.mp listed
    have final : ((candidates.runOps extractor disk cleared).foldl Checkpoint.perform
        disk).batches index = some (.saved (candidates.batchMerged extractor index)) := by
      rw [batches_runOps disk cleared inside]
      split
      · next skipped => exact current index inside skipped
      · rfl
    rw [Checkpoint.loadBatch, final]
    rfl
  rw [resumed, Checkpoint.reassemble, loaded, extracted]

/-- The batches are cut from the candidates one after the other. -/
theorem flatMap_batchRelpaths (candidates : Candidates) (count : Nat) :
    (List.range count).flatMap candidates.batchRelpaths =
      candidates.relpaths.take (count * candidates.batchSize) := by
  induction count with
  | zero => simp only [List.range_zero, List.flatMap_nil, Nat.zero_mul, List.take_zero]
  | succ count ih =>
      rw [List.range_succ, List.flatMap_append, ih, List.flatMap_singleton, batchRelpaths,
        Nat.succ_mul, List.take_add]

theorem length_le_numBatches :
    candidates.relpaths.length ≤ candidates.numBatches * candidates.batchSize := by
  unfold numBatches
  split
  · omega
  · have rounded := Nat.div_add_mod (candidates.relpaths.length + candidates.batchSize - 1)
      candidates.batchSize
    have rest := Nat.mod_lt (candidates.relpaths.length + candidates.batchSize - 1)
      candidates.positive
    rw [Nat.mul_comm] at rounded
    have positive := candidates.positive
    omega

theorem flatMap_extractAll_batches :
    (List.range candidates.numBatches).flatMap (fun index =>
      candidates.extractAll extractor (candidates.batchRelpaths index)) =
        candidates.extractAll extractor candidates.relpaths := by
  have whole := flatMap_batchRelpaths candidates candidates.numBatches
  rw [List.take_of_length_le length_le_numBatches] at whole
  conv_rhs => rw [← whole]
  simp only [extractAll, discover, List.filterMap_flatMap, List.map_flatMap]

/-- **Batches.** A fresh extraction batch by batch is one merge of all files. -/
theorem extracted_eq (extractor : Extractor) (candidates : Candidates) :
    candidates.extracted extractor =
      mergeBundles (candidates.extractAll extractor candidates.relpaths) := by
  have thinned : ∀ {α κ : Type} [DecidableEq κ] (name : α → κ) (part : Bundle → List α),
      accepted name [] ((List.range candidates.numBatches).flatMap fun index =>
        accepted name [] ((candidates.extractAll extractor
          (candidates.batchRelpaths index)).flatMap part)) =
        accepted name [] ((candidates.extractAll extractor candidates.relpaths).flatMap part) := by
    intro α κ _ name part
    have pieces := @accepted_flatMap_accepted _ _ _ name
      ((List.range candidates.numBatches).map fun index =>
        (candidates.extractAll extractor (candidates.batchRelpaths index)).flatMap part) []
    rw [List.flatMap_map, ← List.flatMap_def, ← List.flatMap_assoc,
      flatMap_extractAll_batches] at pieces
    exact pieces
  unfold extracted
  simp only [mergeBundles, keptRefs, List.flatMap_singleton, List.flatMap_map, batchMerged,
    thinned]

end Candidates

end GraphIngest.Ingest
