import GraphIngest.Foundation.KeyedLog
import GraphIngest.Graph.MergeBatches
import GraphIngest.Graph.MergeOrder
import GraphIngest.Pipeline.ExtractCache
import Mathlib.Data.List.Perm.Subperm

/-! # Extraction of batches

The files of a batch are looked up in the cache, all at once; those that are not there go to a
pool of processes. Where a worker of the pool dies, the pool hands back nothing any more, and the
files it has not handed back are extracted one after another. Whatever comes of it, and in
whatever order, what is merged is what extracting every file by itself would have brought; and a
tree that has been extracted is not parsed again.
-/

namespace GraphIngest.Pipeline

open Foundation Text Graph Ingest

section Batches

/-- What a pool of processes hands back until it is through or broken. -/
structure PoolRun where
  finished : List FileInfo
  broken : Bool

/-- What a batch meets: its files, what the cache answers for each, in which order, and what the
pool makes of those it does not know. -/
structure Batch where
  files : List FileInfo
  answer : FileInfo → Option Bundle
  looked : List FileInfo
  pool : PoolRun

namespace Batch

variable (batch : Batch)

/-- The bundles from the cache. -/
def hits : List Bundle := batch.looked.filterMap batch.answer

/-- `cache_misses`. -/
def misses : List FileInfo := batch.looked.filter fun file => (batch.answer file).isNone

/-- Whether the misses go to a pool. -/
def pooled (workerCount : Nat) : Bool :=
  decide (1 < workerCount) && decide (1 < batch.misses.length)

/-- The files that are extracted, in order: behind a pool that broke, the stragglers. -/
def extracted (workerCount : Nat) : List FileInfo :=
  if batch.pooled workerCount then
    if batch.pool.broken then
      batch.pool.finished ++ batch.misses.filter fun file =>
        file.relpath ∉ batch.pool.finished.map FileInfo.relpath
    else batch.pool.finished
  else batch.misses

/-- `batch_bundles`. -/
def bundles (extract : FileInfo → Str → Option Bundle) (repo : Str) (workerCount : Nat) :
    List Bundle :=
  batch.hits ++ (batch.extracted workerCount).map fun file => extractOne extract file repo

/-- What can happen to a batch: every lookup comes back once, and so does every file handed to
the pool, unless the pool breaks, when some do. -/
structure Happens : Prop where
  looked : batch.looked.Perm batch.files
  some : batch.pool.finished.Subperm batch.misses
  all : batch.pool.broken = false → batch.pool.finished.Perm batch.misses

end Batch

end Batches

section Misses

variable {batch : Batch}

/-- Every miss is extracted once, also where the pool breaks. -/
theorem extracted_perm (happens : batch.Happens)
    (distinct : (batch.files.map FileInfo.relpath).Nodup) (workerCount : Nat) :
    (batch.extracted workerCount).Perm batch.misses := by
  unfold Batch.extracted
  split
  case isFalse => exact .refl _
  split
  case isFalse whole => exact happens.all (Bool.not_eq_true _ ▸ whole)
  have paths : (batch.misses.map FileInfo.relpath).Nodup := by
    refine List.Nodup.sublist (List.filter_sublist.map _) ?_
    rwa [(happens.looked.map _).nodup_iff]
  have misses : batch.misses.Nodup := paths.of_map
  have finished : batch.pool.finished.Nodup := by
    obtain ⟨some, perm, inside⟩ := happens.some
    exact perm.nodup_iff.mp (misses.sublist inside)
  have straggler : ∀ file ∈ batch.misses, file ∉ batch.pool.finished →
      file.relpath ∉ batch.pool.finished.map FileInfo.relpath := by
    intro file listed absent known
    obtain ⟨other, handed, same⟩ := List.mem_map.mp known
    have missed := List.Subperm.subset happens.some handed
    have equal := List.inj_on_of_nodup_map paths missed listed same
    exact absent (equal ▸ handed)
  refine (List.perm_ext_iff_of_nodup ?_ misses).mpr fun file => ?_
  · refine List.nodup_append.mpr ⟨finished, misses.filter _, fun one first other second same => ?_⟩
    have left := of_decide_eq_true (List.mem_filter.mp second).2
    exact left (List.mem_map_of_mem (same ▸ first))
  · rw [List.mem_append, List.mem_filter, decide_eq_true_eq]
    constructor
    · rintro (handed | left)
      · exact List.Subperm.subset happens.some handed
      · exact left.1
    · intro listed
      by_cases handed : file ∈ batch.pool.finished
      · exact .inl handed
      · exact .inr ⟨listed, straggler file listed handed⟩

variable {extract : FileInfo → Str → Option Bundle} {repo : Str}

/-- Where the cache answers with what extracting brings, a batch brings what extracting its files
brings. -/
theorem bundles_perm (happens : batch.Happens)
    (distinct : (batch.files.map FileInfo.relpath).Nodup)
    (served : ∀ file ∈ batch.files, ∀ bundle, batch.answer file = some bundle →
      bundle = extractOne extract file repo) (workerCount : Nat) :
    (batch.bundles extract repo workerCount).Perm
      (batch.files.map fun file => extractOne extract file repo) := by
  have found : batch.hits = (batch.looked.filter fun file => (batch.answer file).isSome).map
      fun file => extractOne extract file repo := by
    rw [Batch.hits, ← List.filterMap_eq_map, List.filterMap_filter]
    refine List.filterMap_congr fun file listed => ?_
    cases answered : batch.answer file with
    | none => rfl
    | some bundle => rw [served file (happens.looked.mem_iff.mp listed) bundle answered]; rfl
  have split : ((batch.looked.filter fun file => (batch.answer file).isSome) ++ batch.misses).Perm
      batch.looked := by
    have parts := List.filter_append_perm (fun file => (batch.answer file).isSome) batch.looked
    simp only [Option.not_isSome] at parts
    exact parts
  rw [Batch.bundles, found]
  refine (((extracted_perm happens distinct workerCount).map _).append_left _).trans ?_
  rw [← List.map_append]
  exact (split.trans happens.looked).map _

end Misses

section Memory

variable {digests : Digests} {extract : FileInfo → Str → Option Bundle} {repo : Str}

/-- An event that leaves an entry at a path. -/
def Writes (digests : Digests) (path : CachePath) (event : CacheEvent) : Prop :=
  ∃ visit file, event = .indexed visit ∧ visit.written = true ∧
    discovered digests visit.relpath visit.source = some file ∧
    cachePath digests file.sha visit.repo visit.relpath = path

theorem enabled_cacheStep (cache : ExtractCache) (event : CacheEvent) :
    (cacheStep digests extract cache event).enabled = cache.enabled := by
  cases event with
  | lost path => rfl
  | indexed visit =>
      unfold cacheStep
      dsimp only
      split
      · rfl
      · unfold indexFile
        split
        · rfl
        · dsimp only [ExtractCache.put]
          split
          · rfl
          · split <;> rfl

/-- No history turns the cache on or off. -/
theorem enabled_cacheAfter (enabled : Bool) (history : List CacheEvent) :
    (cacheAfter digests extract enabled history).enabled = enabled :=
  foldl_preserves (fun cache : ExtractCache => cache.enabled = enabled) history
    (fun cache event _ same => (enabled_cacheStep cache event).trans same) _ rfl

/-- The hash of a discovered file is not empty. -/
theorem isEmpty_sha (ideal : digests.Ideal) {relpath : Str} {source : Bytes} {file : FileInfo}
    (found : discovered digests relpath source = some file) : file.sha.isEmpty = false := by
  rw [(of_discovered found).2.1]
  exact List.isEmpty_eq_false_iff.mpr (ideal.filled _)

/-- A cache that is on reads what is stored under the path. -/
theorem get_eq_files {cache : ExtractCache} (enabled : cache.enabled = true) {sha relpath : Str}
    (hashed : sha.isEmpty = false) :
    cache.get digests sha repo relpath = cache.files (cachePath digests sha repo relpath) := by
  rw [ExtractCache.get, enabled, hashed]
  rfl

/-- After a file is indexed its entry is there if it was there or could be written, and every
other entry is as it was. -/
theorem isSome_files_indexFile (ideal : digests.Ideal) {cache : ExtractCache}
    (enabled : cache.enabled = true) {relpath : Str} {source : Bytes} {file : FileInfo}
    (found : discovered digests relpath source = some file) (written : Bool) (path : CachePath) :
    ((indexFile digests extract cache file repo written).2.files path).isSome = true ↔
      (written = true ∧ cachePath digests file.sha repo relpath = path) ∨
        (cache.files path).isSome = true := by
  have hashed := isEmpty_sha ideal found
  have name := (of_discovered found).1
  unfold indexFile
  rw [get_eq_files enabled hashed, name]
  cases held : cache.files (cachePath digests file.sha repo relpath) with
  | some bundle =>
      refine ⟨.inr, ?_⟩
      rintro (⟨-, rfl⟩ | known)
      · exact Option.isSome_iff_exists.mpr ⟨bundle, held⟩
      · exact known
  | none =>
      dsimp only
      rw [ExtractCache.put, enabled, hashed]
      simp only [Bool.not_true, Bool.or_self, Bool.false_eq_true, ↓reduceIte]
      by_cases could : written = true
      · rw [if_pos could]
        dsimp only
        by_cases same : path = cachePath digests file.sha repo relpath
        · rw [same, Function.update_self]
          exact ⟨fun _ => .inl ⟨could, rfl⟩, fun _ => rfl⟩
        · rw [Function.update_of_ne same]
          refine ⟨.inr, ?_⟩
          rintro (⟨-, other⟩ | known)
          · exact absurd other.symm same
          · exact known
      · rw [if_neg could]
        exact ⟨.inr, fun known => known.resolve_left fun written => could written.1⟩

/-- A path is stored behind an event that writes it, or was and is not lost. -/
theorem isSome_files_cacheStep (ideal : digests.Ideal) {cache : ExtractCache}
    (event : CacheEvent) (enabled : cache.enabled = true) (path : CachePath) :
    ((cacheStep digests extract cache event).files path).isSome = true ↔
      Writes digests path event ∨ (cache.files path).isSome = true ∧ ¬ event = .lost path := by
  cases event with
  | lost gone =>
      have silent : ¬ Writes digests path (.lost gone) := by
        rintro ⟨visit, file, same, -⟩
        cases same
      dsimp only [cacheStep]
      rw [or_iff_right silent, CacheEvent.lost.injEq]
      by_cases same : path = gone
      · rw [same, Function.update_self]
        exact ⟨fun known => absurd known Bool.false_ne_true, fun known => absurd rfl known.2⟩
      · rw [Function.update_of_ne same]
        exact ⟨fun known => ⟨known, fun other => same other.symm⟩, And.left⟩
  | indexed visit =>
      have stays : ¬ CacheEvent.indexed visit = .lost path := by
        intro same
        cases same
      rw [and_iff_left stays, cacheStep]
      cases found : discovered digests visit.relpath visit.source with
      | none =>
          refine ⟨.inr, ?_⟩
          rintro (⟨other, file, same, -, made, -⟩ | known)
          · cases same
            rw [found] at made
            cases made
          · exact known
      | some file =>
          dsimp only
          rw [isSome_files_indexFile ideal enabled found]
          refine or_congr_left ⟨fun known => ⟨visit, file, rfl, known.1, found, known.2⟩, ?_⟩
          rintro ⟨other, fileToo, same, written, made, path⟩
          cases same
          rw [found] at made
          cases made
          exact ⟨written, path⟩

/-- The cache remembers a file: its text was indexed at its path and written down, and the entry
did not get lost since. -/
def Remembered (digests : Digests) (repo : Str) (file : FileInfo) (history : List CacheEvent) :
    Prop :=
  ∃ before visit after, history = before ++ .indexed visit :: after ∧
    (visit.written = true ∧ visit.repo = repo ∧ visit.relpath = file.relpath ∧
      Utf8.decode visit.source = Utf8.decode file.source) ∧
    ∀ later ∈ after, ¬ later = .lost (cachePath digests file.sha repo file.relpath)

/-- The entry of a file with an identity of its own is written when its text is indexed. -/
theorem writes_iff (ideal : digests.Ideal) {file : FileInfo}
    (found : discovered digests file.relpath file.source = some file)
    (sole : SoleIdentity repo file.relpath) (visit : Visit) :
    Writes digests (cachePath digests file.sha repo file.relpath) (.indexed visit) ↔
      visit.written = true ∧ visit.repo = repo ∧ visit.relpath = file.relpath ∧
        Utf8.decode visit.source = Utf8.decode file.source := by
  constructor
  · rintro ⟨other, fileToo, same, written, made, path⟩
    cases same
    rw [cachePath_inj ideal, (of_discovered made).2.1, (of_discovered found).2.1,
      bodyHash_inj ideal] at path
    have reads : isSource visit.relpath := by
      rw [← @isSome_discovered digests visit.relpath visit.source, made]
      rfl
    exact ⟨written, (sole _ _ reads path.2).1, (sole _ _ reads path.2).2, path.1⟩
  · rintro ⟨written, rfl, same, alike⟩
    have reads : (discovered digests visit.relpath visit.source).isSome := by
      rw [isSome_discovered, same, ← @isSome_discovered digests _ file.source, found]
      rfl
    obtain ⟨fileToo, made⟩ := Option.isSome_iff_exists.mp reads
    refine ⟨visit, fileToo, rfl, written, made, ?_⟩
    rw [(of_discovered made).2.1, (of_discovered found).2.1, alike, same]

/-- A file is found in the cache exactly when the cache remembers it. -/
theorem isSome_get_iff (ideal : digests.Ideal) {file : FileInfo}
    (found : discovered digests file.relpath file.source = some file)
    (sole : SoleIdentity repo file.relpath) (history : List CacheEvent) :
    ((cacheAfter digests extract true history).get digests file.sha repo
      file.relpath).isSome = true ↔ Remembered digests repo file history := by
  have since := foldl_iff_since (fun cache : ExtractCache => cache.enabled = true)
    (fun cache => (cache.files (cachePath digests file.sha repo file.relpath)).isSome = true)
    (fun cache event on => (enabled_cacheStep cache event).trans on)
    (fun cache event on => @isSome_files_cacheStep digests extract ideal cache event on _)
    history (@rfl Bool (ExtractCache.enabled ⟨true, fun _ => none⟩))
  rw [get_eq_files (enabled_cacheAfter true history) (isEmpty_sha ideal found), cacheAfter, since]
  constructor
  · rintro (⟨before, event, after, parts, written, kept⟩ | known)
    · obtain ⟨visit, fileToo, rfl, rest⟩ := written
      refine ⟨before, visit, after, parts, ?_, kept⟩
      exact (writes_iff ideal found sole visit).mp ⟨visit, fileToo, rfl, rest⟩
    · exact absurd known.1 Bool.false_ne_true
  · rintro ⟨before, visit, after, parts, written, kept⟩
    exact .inl ⟨before, _, after, parts, (writes_iff ideal found sole visit).mpr written, kept⟩

end Memory

section Runs

variable {digests : Digests} {extract : FileInfo → Str → Option Bundle} {repo : Str}

/-- The hash under which files are discovered. -/
def hashSource (digests : Digests) (source : Bytes) : Str :=
  bodyHash digests (Utf8.decode source)

/-- The answer for a file is that of a cache with some history, be it of this or of other
repositories. -/
def FromCache (digests : Digests) (extract : FileInfo → Str → Option Bundle) (repo : Str)
    (file : FileInfo) (answer : Option Bundle) : Prop :=
  ∃ enabled history, answer =
    (cacheAfter digests extract enabled history).get digests file.sha repo file.relpath

/-- The batches of a run over the paths of a codebase, and what befalls them. -/
structure Extracting (digests : Digests) (extract : FileInfo → Str → Option Bundle) (repo : Str)
    (codebase : Codebase) (relpaths : List Str) (batchSize : ℕ+) (batches : List Batch) :
    Prop where
  files : batches.map Batch.files =
    (chunksOf batchSize relpaths).map (discover (hashSource digests) codebase)
  happens : ∀ batch ∈ batches, batch.Happens
  answers : ∀ batch ∈ batches, ∀ file ∈ batch.files,
    FromCache digests extract repo file (batch.answer file)

/-- Two merges with the same names, and as many of each. -/
structure SameNames (first second : Bundle) : Prop where
  nodes : (first.nodes.map Node.id).Perm (second.nodes.map Node.id)
  edges : (first.edges.map Edge.site).Perm (second.edges.map Edge.site)
  refs : (first.refs.map RawRef.site).Perm (second.refs.map RawRef.site)

/-- Bundles merged in another order have the same names. -/
theorem sameNames_of_perm {bundles order : List Bundle} (perm : order.Perm bundles) :
    SameNames (mergeBundles order) (mergeBundles bundles) where
  nodes := map_accepted_perm (perm.flatMap_right _)
  edges := map_accepted_perm (perm.flatMap_right _)
  refs := map_accepted_perm (perm.flatMap_right _)

/-- The final merge keeps what one merge of all bundles keeps. -/
theorem mergedBatches_eq_mergeBundles (batches : List (List Bundle)) :
    mergedBatches batches = mergeBundles batches.flatten := by
  have batchwise : batches.map mergedBatch = batches.map mergeBundles :=
    List.map_congr_left fun batch _ => mergedBatch_eq batch
  unfold mergedBatches
  rw [mergeLoop_eq, batchwise]
  simp only [mergeBundles, keptRefs, concatenated, List.flatMap_singleton, List.flatMap_map,
    accepted_batches]

/-- Bundles that agree are merged alike in every order. -/
theorem sameMerge_of_perm {bundles order : List Bundle} (perm : order.Perm bundles)
    (agree : ∀ first ∈ bundles, ∀ second ∈ bundles, Agrees first second) :
    SameMerge (mergeBundles order) (mergeBundles bundles) where
  nodes := by
    rw [node_mergeBundles_eq_iff]
    exact accepted_perm_iff.mpr (fun first listed second other =>
      (agree first listed second other).nodes) order perm
  edges := accepted_perm_iff.mpr (fun first listed second other =>
    (agree first listed second other).edges) order perm
  refs := accepted_perm_iff.mpr (fun first listed second other =>
    (agree first listed second other).refs) order perm

/-- A file is discovered at its path, from its bytes. -/
theorem of_discoverOne {codebase : Codebase} {relpath : Str} {file : FileInfo}
    (found : discoverOne (hashSource digests) codebase relpath = some file) :
    file.relpath = relpath ∧ discovered digests file.relpath file.source = some file := by
  unfold discoverOne at found
  split at found
  case isTrue => cases found
  case isFalse plain =>
    cases known : sourceLang relpath with
    | none =>
        rw [known] at found
        cases found
    | some lang =>
        rw [known] at found
        obtain ⟨source, -, rfl⟩ := Option.map_eq_some_iff.mp found
        refine ⟨rfl, ?_⟩
        rw [discovered, discoverOne, if_neg plain, known]
        rfl

/-- Files are discovered once each, in the order of their paths. -/
theorem relpaths_discover_sublist (codebase : Codebase) (relpaths : List Str) :
    ((discover (hashSource digests) codebase relpaths).map FileInfo.relpath).Sublist relpaths := by
  induction relpaths with
  | nil => exact .slnil
  | cons relpath rest ih =>
      unfold discover at ih ⊢
      rw [List.filterMap_cons]
      cases found : discoverOne (hashSource digests) codebase relpath with
      | none => exact ih.cons _
      | some file =>
          dsimp only
          rw [List.map_cons, (of_discoverOne found).1]
          exact ih.cons_cons _

variable {codebase : Codebase} {relpaths : List Str} {batchSize : ℕ+} {batches : List Batch}

/-- The files of all batches are those of all paths. -/
theorem files_of_extracting
    (run : Extracting digests extract repo codebase relpaths batchSize batches) :
    batches.flatMap Batch.files = discover (hashSource digests) codebase relpaths := by
  have pieces := congrArg List.flatten run.files
  rw [← List.flatMap_def, ← List.flatMap_def] at pieces
  rw [pieces]
  unfold discover
  rw [← List.filterMap_flatMap, List.flatMap_id', flatten_chunksOf]

/-- The bundles of all batches are those of the files, in some order. -/
theorem flatMap_bundles_perm (ideal : digests.Ideal)
    (run : Extracting digests extract repo codebase relpaths batchSize batches)
    (distinct : relpaths.Nodup)
    (whole : ∀ file ∈ discover (hashSource digests) codebase relpaths,
      Utf8.replacement ∉ Utf8.decode file.source)
    (sole : ∀ relpath ∈ relpaths, SoleIdentity repo relpath) (workerCount : Nat) :
    (batches.flatMap fun batch => batch.bundles extract repo workerCount).Perm
      ((discover (hashSource digests) codebase relpaths).map fun file =>
        extractOne extract file repo) := by
  have files := files_of_extracting run
  have paths := distinct.sublist (@relpaths_discover_sublist digests codebase relpaths)
  rw [← files] at paths whole ⊢
  rw [List.map_flatMap]
  refine List.Perm.flatMap_left batches fun batch listed => ?_
  have within : batch.files.Sublist (batches.flatMap Batch.files) :=
    List.sublist_flatten_of_mem (List.mem_map_of_mem listed)
  refine bundles_perm (run.happens batch listed) (paths.sublist (within.map _)) ?_ workerCount
  intro file inside bundle answered
  obtain ⟨enabled, history, served⟩ := run.answers batch listed file inside
  have among := within.subset inside
  rw [files] at among
  obtain ⟨relpath, member, found⟩ := List.mem_filterMap.mp among
  obtain ⟨rfl, source⟩ := of_discoverOne found
  exact served_of_sole ideal source (whole file (within.subset inside)) (sole _ member)
    (served.symm.trans answered)

/-- **Parallel extraction.** Whatever the cache remembers, however the lookups and the workers
interleave, and where pools break: the merge has the names of the merge of every file extracted
by itself, and where the bundles of the files agree it has the same contents. -/
theorem mergedBatches_extracting (ideal : digests.Ideal)
    (run : Extracting digests extract repo codebase relpaths batchSize batches)
    (distinct : relpaths.Nodup)
    (whole : ∀ file ∈ discover (hashSource digests) codebase relpaths,
      Utf8.replacement ∉ Utf8.decode file.source)
    (sole : ∀ relpath ∈ relpaths, SoleIdentity repo relpath) (workerCount : Nat) :
    let one := (discover (hashSource digests) codebase relpaths).map fun file =>
      extractOne extract file repo
    let merged := mergedBatches (batches.map fun batch => batch.bundles extract repo workerCount)
    SameNames merged (mergeBundles one) ∧
      ((∀ first ∈ one, ∀ second ∈ one, Agrees first second) →
        SameMerge merged (mergeBundles one)) := by
  intro one merged
  have perm := flatMap_bundles_perm ideal run distinct whole sole workerCount
  have same : merged =
      mergeBundles (batches.flatMap fun batch => batch.bundles extract repo workerCount) := by
    rw [List.flatMap_def]
    exact mergedBatches_eq_mergeBundles _
  rw [same]
  exact ⟨sameNames_of_perm perm, sameMerge_of_perm perm⟩

/-- **Reingestion.** What a batch extracts are the files the cache does not remember, each of
them once: an unchanged tree whose entries are still there is not parsed again, and a changed
file always is. -/
theorem mem_extracted_iff (ideal : digests.Ideal) {batch : Batch} (happens : batch.Happens)
    (distinct : (batch.files.map FileInfo.relpath).Nodup)
    (found : ∀ file ∈ batch.files, discovered digests file.relpath file.source = some file)
    (sole : ∀ file ∈ batch.files, SoleIdentity repo file.relpath)
    (history : FileInfo → List CacheEvent)
    (answers : ∀ file ∈ batch.files, batch.answer file =
      (cacheAfter digests extract true (history file)).get digests file.sha repo file.relpath)
    (workerCount : Nat) :
    (batch.extracted workerCount).Nodup ∧ ∀ file, file ∈ batch.extracted workerCount ↔
      file ∈ batch.files ∧ ¬ Remembered digests repo file (history file) := by
  have perm := extracted_perm happens distinct workerCount
  have once : batch.looked.Nodup := happens.looked.nodup_iff.mpr distinct.of_map
  refine ⟨perm.nodup_iff.mpr (once.filter _), fun file => ?_⟩
  rw [perm.mem_iff, Batch.misses, List.mem_filter, happens.looked.mem_iff]
  refine and_congr_right fun listed => ?_
  rw [← @isSome_get_iff digests extract repo ideal file (found file listed) (sole file listed),
    answers file listed, Option.isNone_iff_eq_none, Bool.not_eq_true,
    Option.isSome_eq_false_iff, Option.isNone_iff_eq_none]

end Runs

section Sample

/-- Three copies of the plain class. -/
def plainPaths : List Str := ["A.java", "B.java", "C.java"]

def plainCodebase : Codebase := fun relpath =>
  if relpath ∈ plainPaths then some plainBytes else none

/-- The file at one of the paths. -/
def plainFile (relpath : Str) : FileInfo where
  relpath := relpath
  lang := .java
  sha := hashSource sampleDigests plainBytes
  source := plainBytes

/-- What happened to the cache: the first of the files was indexed. -/
def plainHistory : List CacheEvent := [.indexed ⟨"demo", "A.java", plainBytes, true⟩]

/-- What the cache answers. -/
def plainAnswer (file : FileInfo) : Option Bundle :=
  (cacheAfter sampleDigests columnExtract true plainHistory).get sampleDigests file.sha "demo"
    file.relpath

/-- A batch with the known file and a new one, where the pool breaks. -/
def plainBatch : Batch where
  files := [plainFile "A.java", plainFile "B.java"]
  answer := plainAnswer
  looked := [plainFile "B.java", plainFile "A.java"]
  pool := { finished := [], broken := true }

/-- That batch, and one with the third file. -/
def plainBatches : List Batch :=
  [plainBatch,
   { files := [plainFile "C.java"]
     answer := plainAnswer
     looked := [plainFile "C.java"]
     pool := { finished := [plainFile "C.java"], broken := false } }]

theorem discover_plainPaths :
    discover (hashSource sampleDigests) plainCodebase plainPaths =
      plainPaths.map plainFile := by
  decide +kernel

theorem plainExtracting : Extracting sampleDigests columnExtract "demo" plainCodebase
    plainPaths 2 plainBatches where
  files := by decide +kernel
  happens := by
    have missed : ([plainFile "C.java"].filter fun file => (plainAnswer file).isNone) =
        [plainFile "C.java"] := by decide +kernel
    simp only [plainBatches, List.forall_mem_cons]
    refine ⟨⟨List.Perm.swap _ _ _, List.nil_subperm, fun whole => absurd whole (by decide)⟩,
      ⟨List.Perm.refl _, ?_, fun _ => ?_⟩, fun _ none => absurd none List.not_mem_nil⟩
    · exact (List.Perm.of_eq missed.symm).subperm
    · exact List.Perm.of_eq missed.symm
  answers := by
    simp only [plainBatches, plainBatch, List.forall_mem_cons]
    exact ⟨⟨⟨true, plainHistory, rfl⟩, ⟨true, plainHistory, rfl⟩,
        fun _ none => absurd none List.not_mem_nil⟩,
      ⟨⟨true, plainHistory, rfl⟩, fun _ none => absurd none List.not_mem_nil⟩,
      fun _ none => absurd none List.not_mem_nil⟩

theorem whole_plainPaths : ∀ file ∈ discover (hashSource sampleDigests) plainCodebase plainPaths,
    Utf8.replacement ∉ Utf8.decode file.source := by
  have plain : Utf8.replacement ∉ Utf8.decode plainBytes := by decide +kernel
  rw [discover_plainPaths]
  intro file listed
  obtain ⟨relpath, -, rfl⟩ := List.mem_map.mp listed
  exact plain

theorem sole_plainPaths : ∀ relpath ∈ plainPaths, SoleIdentity "demo" relpath := by
  intro relpath listed
  have free : ∀ relpath ∈ plainPaths, unitSeparator ∉ relpath := by decide
  exact soleIdentity_of_free (by decide) (free relpath listed)

theorem agrees_self (bundle : Bundle) : Agrees bundle bundle where
  nodes _ kept _ found := List.inj_on_of_nodup_map (nodup_map_accepted [] _) kept found
  edges _ kept _ found := List.inj_on_of_nodup_map (nodup_map_accepted [] _) kept found
  refs _ kept _ found := List.inj_on_of_nodup_map (nodup_map_accepted [] _) kept found

/-- One file comes from the cache, one from a pool and one from behind a pool that broke. -/
theorem mergedBatches_extracting_sample :
    SameMerge
      (mergedBatches (plainBatches.map fun batch => batch.bundles columnExtract "demo" 4))
      (mergeBundles ((discover (hashSource sampleDigests) plainCodebase plainPaths).map
        fun file => extractOne columnExtract file "demo")) := by
  refine (mergedBatches_extracting sampleDigests_ideal plainExtracting (by decide)
    whole_plainPaths sole_plainPaths 4).2 ?_
  have alike : ∀ bundle ∈ (discover (hashSource sampleDigests) plainCodebase plainPaths).map
      fun file => extractOne columnExtract file "demo",
      bundle = extractOne columnExtract (plainFile "A.java") "demo" := by
    rw [discover_plainPaths]
    intro bundle listed
    obtain ⟨file, copy, rfl⟩ := List.mem_map.mp listed
    obtain ⟨relpath, -, rfl⟩ := List.mem_map.mp copy
    rfl
  intro first listed second other
  rw [alike first listed, alike second other]
  exact agrees_self _

/-- Of a known file and a new one the new one is extracted. -/
theorem mem_extracted_sample : (plainBatch.extracted 4).Nodup ∧
    plainFile "B.java" ∈ plainBatch.extracted 4 ∧
      plainFile "A.java" ∉ plainBatch.extracted 4 := by
  have listed : plainBatch ∈ plainBatches := List.mem_cons_self
  have copies : ∀ file ∈ plainBatch.files, ∃ relpath ∈ plainPaths,
      file = plainFile relpath := by
    decide +kernel
  have paths : ∀ relpath ∈ plainPaths, discovered sampleDigests relpath plainBytes =
      some (plainFile relpath) := by
    decide +kernel
  have found : ∀ file ∈ plainBatch.files,
      discovered sampleDigests file.relpath file.source = some file := by
    intro file inside
    obtain ⟨relpath, member, rfl⟩ := copies file inside
    exact paths relpath member
  have sole : ∀ file ∈ plainBatch.files, SoleIdentity "demo" file.relpath := by
    intro file inside
    obtain ⟨relpath, member, rfl⟩ := copies file inside
    exact sole_plainPaths relpath member
  obtain ⟨once, member⟩ := mem_extracted_iff sampleDigests_ideal
    (plainExtracting.happens _ listed) (by decide) found sole (fun _ => plainHistory)
    (fun file inside => rfl) 4
  refine ⟨once, (member _).mpr ⟨List.mem_cons_of_mem _ List.mem_cons_self, ?_⟩, fun known => ?_⟩
  · rintro ⟨before, visit, after, split, ⟨_, _, path, _⟩, _⟩
    have inside : CacheEvent.indexed visit ∈ plainHistory :=
      split ▸ List.mem_append_right _ List.mem_cons_self
    cases List.mem_singleton.mp inside
    exact absurd path (by decide)
  · exact ((member _).mp known).2 ⟨[], _, [], rfl, ⟨rfl, rfl, rfl, rfl⟩, nofun⟩

end Sample

end GraphIngest.Pipeline
