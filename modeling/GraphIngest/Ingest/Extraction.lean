import GraphIngest.Foundation.WritePool
import GraphIngest.Ingest.Uploads

/-! # Extracting an archive

An uploaded archive is written below a fresh root entry by entry, or by a pool of workers
that begins with all folders. The first writes several entries of one cleaned path one over
the other; the workers open and write them in any order.

Every path that is written lies strictly below the root, however the name of the entry was
put together. Both ways fail alike, and leave the same files and select the same paths, exactly
when the archive cannot be extracted at all, or there is one worker, or entries of one path
have one content.
-/

namespace GraphIngest.Ingest

open Foundation Text

/-- An entry of an archive; the content of some cannot be read. -/
structure ZipEntry where
  filename : Str
  data : Option (List UInt8)
deriving DecidableEq

section Materialize

variable (allowedExts extraDirs : List Str)

/-- The entries that are kept, each with its path. -/
def selectedInfos (archive : List ZipEntry) : List (Str × ZipEntry) :=
  archive.filterMap fun entry =>
    (selectedEntry (allowedExts.map lower) (excludedDirsWith extraDirs) entry.filename).map
      fun relPath => (relPath, entry)

/-- The uploads that are kept besides an archive. -/
def selectedFiles (directFiles : List (Str × List UInt8)) : List (Str × List UInt8) :=
  directFiles.filterMap fun file =>
    (selectedPath (allowedExts.map lower) (excludedDirsWith extraDirs) file.1).map
      fun relPath => (relPath, file.2)

/-- What is to be written for a path. -/
def depositAt (relPath : Str) (data : Option (List UInt8)) : Deposit Str UInt8 :=
  ⟨splitBy '/' relPath, data⟩

/-- What is to be written for an archive. -/
def zipDeposits (archive : List ZipEntry) : List (Deposit Str UInt8) :=
  (selectedInfos allowedExts extraDirs archive).map fun info => depositAt info.1 info.2.data

/-- What is to be written for an upload, its archive first. -/
def uploadDeposits (directFiles : List (Str × List UInt8)) (archive : List ZipEntry) :
    List (Deposit Str UInt8) :=
  zipDeposits allowedExts extraDirs archive ++
    (selectedFiles allowedExts extraDirs directFiles).map fun file =>
      depositAt file.1 (some file.2)

/-- The disk below the root and the selected paths, in order and each once. -/
abbrev Materialized : Type := Disk Str UInt8 × List Str

/-- The path of a file below the root. -/
def relPathOf (path : List Str) : Str := ['/'].intercalate path

/-- What a materializer returns when all was written; it raises when nothing was selected. -/
def selectedOr (disk : Disk Str UInt8) (selected : List Str) : Option Materialized :=
  if selected = [] then none
  else some (disk, selected.dedup.insertionSort fun path other => path ≤ other)

/-- `materialize_uploaded_sources`, with the contents; nothing when it raises. -/
def materializeContents (directFiles : List (Str × List UInt8)) (archive : List ZipEntry) :
    Option Materialized :=
  let deposits := uploadDeposits allowedExts extraDirs directFiles archive
  (Disk.storeAll 0 deposits .fresh).bind fun disk =>
    selectedOr disk (deposits.map fun deposit => relPathOf deposit.path)

/-- The number of workers: that of the environment if it is a positive one. -/
def extractWorkers (configured : Str) (cpuCount : Option Nat) : Nat :=
  let cpus := match cpuCount with
    | some count => if count = 0 then 4 else count
    | none => 4
  let defaultWorkers := min 16 (max 1 (cpus * 2))
  match integer configured with
  | some count => if count ≤ 0 then defaultWorkers else count.toNat
  | none => defaultWorkers

/-- `materialize_uploaded_sources_from_zip_path`: the folders first, then the pool, whose
results are collected in some order. -/
def ExtractsInParallel (workers : Nat) (archive : List ZipEntry) (result : Option Materialized) :
    Prop :=
  ∃ made pool collected,
    Disk.fresh.prepare (zipDeposits allowedExts extraDirs archive) = some made ∧
      WritePool.Reachable 0 workers (.handed (zipDeposits allowedExts extraDirs archive) made) pool ∧
        pool.Completed ∧
          collected.Perm (pool.finished.map fun entry => relPathOf entry.1.path) ∧
            result = if pool.successful then selectedOr pool.disk collected else none

/-- Two outcomes are the same: both raised, or both left the same files and selected the same
paths. -/
def SameOutcome : Option Materialized → Option Materialized → Prop
  | none, none => True
  | some first, some second =>
      first.2 = second.2 ∧ ∀ path, first.1.files.get? path = second.1.files.get? path
  | none, some _ => False
  | some _, none => False

/-- Something is selected, all of it can be read, and no selected path is a folder of
another. -/
structure Extractable (infos : List (Str × ZipEntry)) : Prop where
  filled : infos ≠ []
  readable : ∀ info ∈ infos, info.2.data.isSome
  apart : ∀ info ∈ infos, ∀ other ∈ infos, ¬ splitBy '/' info.1 <+: dirsOf other.1

/-- Entries of one path have one content. -/
def SameContents (infos : List (Str × ZipEntry)) : Prop :=
  ∀ info ∈ infos, ∀ other ∈ infos, info.1 = other.1 → info.2.data = other.2.data

end Materialize

section Agreement

variable {allowedExts extraDirs : List Str} {archive : List ZipEntry} {workers : Nat}
  {result : Option Materialized}

theorem filled_zipDeposits :
    ∀ deposit ∈ zipDeposits allowedExts extraDirs archive, deposit.path ≠ [] := by
  intro deposit listed
  obtain ⟨info, _, rfl⟩ := List.mem_map.mp listed
  exact splitBy_ne_nil info.1

/-- An archive can be extracted exactly when it has something to store and that can be
stored. -/
theorem extractable_iff :
    Extractable (selectedInfos allowedExts extraDirs archive) ↔
      zipDeposits allowedExts extraDirs archive ≠ [] ∧
        Storable (zipDeposits allowedExts extraDirs archive) := by
  unfold zipDeposits
  constructor
  · intro extractable
    refine ⟨fun none => extractable.filled (List.map_eq_nil_iff.mp none), ?_, ?_⟩
    · exact List.forall_mem_map.mpr extractable.readable
    · simp only [List.forall_mem_map]
      exact extractable.apart
  · intro storable
    obtain ⟨filled, readable, apart⟩ := storable
    simp only [List.forall_mem_map] at readable apart
    exact ⟨fun none => filled (List.map_eq_nil_iff.mpr none), readable, apart⟩

theorem unequivocal_zipDeposits :
    WritePool.Unequivocal (zipDeposits allowedExts extraDirs archive) ↔
      SameContents (selectedInfos allowedExts extraDirs archive) := by
  have same : ∀ first second : Str, splitBy '/' first = splitBy '/' second ↔ first = second := by
    intro first second
    refine ⟨fun alike => ?_, fun alike => by rw [alike]⟩
    have joined := congrArg (List.intercalate ['/']) alike
    rwa [intercalate_splitBy, intercalate_splitBy] at joined
  unfold WritePool.Unequivocal SameContents zipDeposits
  simp only [List.forall_mem_map, depositAt, same]

/-- The order in which paths were selected does not matter. -/
theorem sorted_eq_of_perm {first second : List Str} (perm : first.Perm second) :
    (first.dedup.insertionSort fun path other => path ≤ other) =
      second.dedup.insertionSort fun path other => path ≤ other := by
  apply List.Perm.eq_of_pairwise' (List.pairwise_insertionSort _ _)
    (List.pairwise_insertionSort _ _)
  exact (List.perm_insertionSort _ _).trans (perm.dedup.trans (List.perm_insertionSort _ _).symm)

theorem selectedOr_of_perm (disk : Disk Str UInt8) {first second : List Str}
    (perm : first.Perm second) : selectedOr disk first = selectedOr disk second := by
  unfold selectedOr
  by_cases none : first = []
  · have noneToo : second = [] := (none ▸ perm).nil_eq.symm
    rw [none, noneToo]
  · have noneToo : second ≠ [] := fun empty => none (empty ▸ perm).eq_nil
    rw [if_neg none, if_neg noneToo, sorted_eq_of_perm perm]

/-- The paths that are selected from an archive, each once. -/
def selectedPaths (allowedExts extraDirs : List Str) (archive : List ZipEntry) : List Str :=
  ((zipDeposits allowedExts extraDirs archive).map fun deposit =>
    relPathOf deposit.path).dedup.insertionSort fun path other => path ≤ other

/-- **One after the other.** -/
theorem materializeContents_zip :
    (¬ Extractable (selectedInfos allowedExts extraDirs archive) →
      materializeContents allowedExts extraDirs [] archive = none) ∧
    (Extractable (selectedInfos allowedExts extraDirs archive) →
      ∃ disk, materializeContents allowedExts extraDirs [] archive =
          some (disk, selectedPaths allowedExts extraDirs archive) ∧
        ∀ path, disk.files.get? path = (Disk.lastUnder
          (zipDeposits allowedExts extraDirs archive) path).bind Deposit.data) := by
  have given : uploadDeposits allowedExts extraDirs [] archive =
      zipDeposits allowedExts extraDirs archive := List.append_nil _
  obtain ⟨goes, leaves⟩ := @Disk.storeAll_fresh _ _ _ 0 _ (@filled_zipDeposits allowedExts
    extraDirs archive)
  unfold materializeContents
  rw [given, extractable_iff]
  dsimp only
  constructor
  · intro not
    cases stored : Disk.storeAll 0 (zipDeposits allowedExts extraDirs archive) .fresh with
    | none => rfl
    | some disk =>
        have empty : zipDeposits allowedExts extraDirs archive = [] := by
          by_contra filled
          exact not ⟨filled, goes.mp ⟨disk, stored⟩⟩
        rw [Option.bind_some, empty]
        rfl
  · intro extractable
    obtain ⟨filled, storable⟩ := extractable
    obtain ⟨disk, stored⟩ := goes.mpr storable
    refine ⟨disk, ?_, (leaves disk stored).files⟩
    rw [stored, Option.bind_some, selectedOr,
      if_neg fun none => filled (List.map_eq_nil_iff.mp none)]
    rfl

/-- **In parallel.** -/
theorem of_extractsInParallel
    (extracts : ExtractsInParallel allowedExts extraDirs workers archive result) :
    (¬ Extractable (selectedInfos allowedExts extraDirs archive) → result = none) ∧
    (Extractable (selectedInfos allowedExts extraDirs archive) →
      ∃ disk, result = some (disk, selectedPaths allowedExts extraDirs archive) ∧
        (workers ≤ 1 ∨ SameContents (selectedInfos allowedExts extraDirs archive) →
          ∀ path, disk.files.get? path = (Disk.lastUnder
            (zipDeposits allowedExts extraDirs archive) path).bind Deposit.data)) := by
  obtain ⟨made, pool, collected, prepared, reachable, completed, perm, rfl⟩ := extracts
  obtain ⟨empty, fit⟩ := WritePool.fit_of_prepared filled_zipDeposits prepared
  have held := (WritePool.accounts_of_reachable reachable).held.1
  rw [WritePool.Pool.held, completed.1, completed.2, List.map_nil, List.append_nil,
    List.append_nil] at held
  have paths : collected.Perm ((zipDeposits allowedExts extraDirs archive).map fun deposit =>
      relPathOf deposit.path) := by
    refine perm.trans ?_
    have mapped := held.map fun deposit : Deposit Str UInt8 => relPathOf deposit.path
    rwa [List.map_map] at mapped
  have success := WritePool.successful_iff reachable completed
  rw [fit] at success
  rw [selectedOr_of_perm pool.disk paths, extractable_iff]
  constructor
  · intro not
    split
    · next successful =>
        have none : zipDeposits allowedExts extraDirs archive = [] := by
          by_contra filled
          exact not ⟨filled, success.mp successful⟩
        rw [none]
        rfl
    · rfl
  · intro extractable
    obtain ⟨filled, storable⟩ := extractable
    have successful := success.mpr storable
    refine ⟨pool.disk, ?_, fun quiet => ?_⟩
    · rw [if_pos successful, selectedOr, if_neg fun none => filled (List.map_eq_nil_iff.mp none)]
      rfl
    · rw [← unequivocal_zipDeposits] at quiet
      exact WritePool.files_of_successful quiet empty reachable completed successful

theorem positive_extractWorkers (configured : Str) (cpuCount : Option Nat) :
    0 < extractWorkers configured cpuCount := by
  unfold extractWorkers
  dsimp only
  split
  · split <;> omega
  · omega

/-- **Termination.** A pool with a worker does come to an end. -/
theorem exists_extraction (allowedExts extraDirs : List Str) (archive : List ZipEntry)
    (staffed : 0 < workers) :
    ∃ result, ExtractsInParallel allowedExts extraDirs workers archive result := by
  obtain ⟨made, prepared, _⟩ := @Disk.exists_prepare Str UInt8 _ .fresh
    (zipDeposits allowedExts extraDirs archive) rfl
  obtain ⟨pool, reachable, completed⟩ := WritePool.exists_completed staffed
    (.handed (zipDeposits allowedExts extraDirs archive) made)
  exact ⟨_, made, pool, _, prepared, reachable, completed, List.Perm.refl _, rfl⟩

/-- Where entries of one path differ, two workers can leave another one than the last. -/
theorem exists_different (two : 1 < workers)
    (extractable : Extractable (selectedInfos allowedExts extraDirs archive))
    (different : ¬ SameContents (selectedInfos allowedExts extraDirs archive)) :
    ∃ result, ExtractsInParallel allowedExts extraDirs workers archive result ∧
      ¬ SameOutcome (materializeContents allowedExts extraDirs [] archive) result := by
  obtain ⟨disk, sequential, files⟩ := materializeContents_zip.2 extractable
  rw [← unequivocal_zipDeposits, WritePool.Unequivocal] at different
  push Not at different
  obtain ⟨first, listed, second, listedToo, alike, differ⟩ := different
  obtain ⟨last, under⟩ := Disk.exists_lastUnder listed
  have early : ∃ deposit ∈ zipDeposits allowedExts extraDirs archive,
      deposit.path = first.path ∧ deposit.data ≠ last.data := by
    by_cases same : first.data = last.data
    · exact ⟨second, listedToo, alike.symm, fun again => differ (same.trans again.symm)⟩
    · exact ⟨first, listed, rfl, same⟩
  obtain ⟨deposit, member, place, other⟩ := early
  obtain ⟨before, after, split⟩ := List.append_of_mem member
  obtain ⟨made, prepared, _⟩ := @Disk.exists_prepare Str UInt8 _ .fresh
    (zipDeposits allowedExts extraDirs archive) rfl
  have fit := (WritePool.fit_of_prepared filled_zipDeposits prepared).2.mpr
    (extractable_iff.mp extractable).2
  have overtaken := @WritePool.exists_overtaken Str UInt8 _ 0 _ deposit before after made two
  rw [← split] at overtaken
  obtain ⟨pool, reachable, completed, found⟩ := overtaken fit
  refine ⟨_, ⟨made, pool, _, prepared, reachable, completed, List.Perm.refl _, rfl⟩, ?_⟩
  have successful := (WritePool.successful_iff reachable completed).mpr fit
  rw [sequential, if_pos successful, selectedOr]
  split
  · exact not_false
  · intro same
    have content := same.2 deposit.path
    dsimp only at content
    rw [files, found, place, under, Option.bind_some] at content
    exact other content.symm

/-- **Both materializers.** Extracting an archive by a pool always comes to what extracting it
entry by entry does exactly when both raise, or the pool has one worker, or entries of one
path have one content. -/
theorem sameOutcome_iff (allowedExts extraDirs : List Str) (archive : List ZipEntry)
    (configured : Str) (cpuCount : Option Nat) :
    (∀ result, ExtractsInParallel allowedExts extraDirs (extractWorkers configured cpuCount)
        archive result →
      SameOutcome (materializeContents allowedExts extraDirs [] archive) result) ↔
    ¬ Extractable (selectedInfos allowedExts extraDirs archive) ∨
      extractWorkers configured cpuCount = 1 ∨
        SameContents (selectedInfos allowedExts extraDirs archive) := by
  have staffed := positive_extractWorkers configured cpuCount
  constructor
  · intro same
    by_contra otherwise
    rw [not_or, not_or, not_not] at otherwise
    obtain ⟨extractable, several, different⟩ := otherwise
    obtain ⟨result, extracts, other⟩ :=
      exists_different (Nat.lt_of_le_of_ne staffed (Ne.symm several)) extractable different
    exact other (same result extracts)
  · intro condition result extracts
    obtain ⟨raises, leaves⟩ := of_extractsInParallel extracts
    obtain ⟨raisesToo, leavesToo⟩ := @materializeContents_zip allowedExts extraDirs archive
    by_cases extractable : Extractable (selectedInfos allowedExts extraDirs archive)
    · obtain ⟨disk, returned, files⟩ := leaves extractable
      obtain ⟨first, sequential, filesToo⟩ := leavesToo extractable
      have quiet := (condition.resolve_left (not_not_intro extractable)).imp_left Nat.le_of_eq
      rw [returned, sequential]
      exact ⟨rfl, fun path => (filesToo path).trans (files quiet path).symm⟩
    · rw [raises extractable, raisesToo extractable]
      trivial

/-- Two entries of one cleaned path. -/
def doubledArchive : List ZipEntry :=
  [⟨"A.java", some [49]⟩, ⟨"./A.java", some [50]⟩]

theorem selectedInfos_doubledArchive :
    selectedInfos [".java".toList] [] doubledArchive =
      [("A.java".toList, ⟨"A.java", some [49]⟩), ("A.java".toList, ⟨"./A.java", some [50]⟩)] := by
  decide +kernel

/-- With two workers the first entry can be what remains. -/
theorem exists_other_outcome : ¬ ∀ (archive : List ZipEntry) (result : Option Materialized),
    ExtractsInParallel [".java".toList] [] (extractWorkers "2" none) archive result →
      SameOutcome (materializeContents [".java".toList] [] [] archive) result := by
  intro same
  have two : 1 < extractWorkers "2" none := by decide +kernel
  have extractable : Extractable (selectedInfos [".java".toList] [] doubledArchive) := by
    rw [selectedInfos_doubledArchive]
    exact ⟨List.cons_ne_nil _ _, by decide, by decide +kernel⟩
  have different : ¬ SameContents (selectedInfos [".java".toList] [] doubledArchive) := by
    rw [selectedInfos_doubledArchive]
    intro alike
    have bytes := alike _ List.mem_cons_self _ (List.mem_cons_of_mem _ List.mem_cons_self) rfl
    revert bytes
    decide
  obtain ⟨result, extracts, other⟩ := exists_different two extractable different
  exact other (same _ result extracts)

end Agreement

end GraphIngest.Ingest
