import GraphIngest.Foundation.FileTree
import GraphIngest.Foundation.Joining
import GraphIngest.Ingest.Discovery
import Mathlib.Data.Char
import Mathlib.Data.List.Dedup
import Mathlib.Data.List.Lex
import Mathlib.Data.List.Sort

/-! # Uploads

An uploaded path is cleaned, then kept or dropped by the names in it; what is kept is
written below a fresh root, and the artifacts are later found there by a walk. The filter
compares every segment in lower case with the excluded names, the walk compares the
folders as they are spelt with its own.
-/

namespace GraphIngest.Ingest

open Foundation Text

section Filter

/-- `DEFAULT_EXCLUDED_DIRS`. -/
def defaultExcludedDirs : List Str :=
  [".git", "node_modules", "target", "dist", "build", "out", "coverage", "vendor", "__pycache__"]

/-- `ARTIFACT_DIR_OVERRIDES`. -/
def artifactDirOverrides : List Str := ["target", "build", "out", "bin", "dist", ".mvn"]

def isArtifact (relPath : Str) : Bool := (artifactKind relPath).isSome

/-- Why an upload is refused. -/
inductive UploadFault
  | empty
  | invalid
  | traversal (rawPath : Str)
  | drive (rawPath : Str)
  | absolute (rawPath : Str)
  | unwritable
  | nothingSelected
deriving DecidableEq

/-- The text of a refusal; that of a failed write is the operating system's. -/
def UploadFault.message : UploadFault → Str
  | empty => "Upload path is empty"
  | invalid => "Upload path is invalid"
  | traversal rawPath => "Unsafe upload path traversal: ".toList ++ rawPath
  | drive rawPath => "Unsafe upload path drive specifier: ".toList ++ rawPath
  | absolute rawPath => "Unsafe absolute upload path: ".toList ++ rawPath
  | unwritable => []
  | nothingSelected => "No supported code files found in uploaded content."

/-- The segments of a path, unless one of them leads out of the root. -/
def sanitizeParts (rawPath : Str) : List Str → Except UploadFault (List Str)
  | [] => .ok []
  | part :: rest =>
      if part = ['.', '.'] then .error (.traversal rawPath)
      else if ':' ∈ part then .error (.drive rawPath)
      else (sanitizeParts rawPath rest).map (part :: ·)

/-- `sanitize_upload_path`, backslashes (code point 92) read as slashes. -/
def sanitizeUploadPath (rawPath : Str) : Except UploadFault Str :=
  let path := strip (replaceLetter (Char.ofNat 92) '/' rawPath)
  if path = [] then .error .empty
  else
    let parts := (splitBy '/' path).filter fun part => part ≠ [] && part ≠ ['.']
    if parts = [] then .error .invalid
    else
      (sanitizeParts rawPath parts).bind fun sanitized =>
        let relPath := ['/'].intercalate sanitized
        if relPath.head? = some '/' then .error (.absolute rawPath) else .ok relPath

/-- `_path_contains_excluded_dir`. -/
def pathContainsExcludedDir (relPath : Str) (excludedDirs : List Str) : Bool :=
  let excluded := (excludedDirs.filter fun dir => strip dir ≠ []).map fun dir => lower (strip dir)
  let segments := ((splitBy '/' relPath).filter fun segment => segment ≠ []).map lower
  !excluded.isEmpty && segments.any fun segment => excluded.contains segment

/-- `_admits`. -/
def admits (relPath : Str) (allowedExts excludedDirs : List Str) : Bool :=
  if isArtifact relPath then
    !pathContainsExcludedDir relPath
      (excludedDirs.filter fun dir => !artifactDirOverrides.contains dir)
  else
    allowedExts.contains (lower (extension relPath)) &&
      !pathContainsExcludedDir relPath excludedDirs

/-- `_is_macos_zip_cruft`. -/
def isMacosZipCruft (relPath : Str) : Bool :=
  (splitBy '/' relPath).contains "__MACOSX".toList || isMacosCruft (afterLast '/' relPath)

end Filter

section Materialize

variable (allowedExts excludedDirs : List Str)

/-- The path under which an upload is kept. -/
def selectedPath (rawPath : Str) : Option Str :=
  match sanitizeUploadPath rawPath with
  | .error _ => none
  | .ok relPath => if admits relPath allowedExts excludedDirs then some relPath else none

/-- The path under which an entry of an archive is kept; those of folders end with a slash. -/
def selectedEntry (filename : Str) : Option Str :=
  if filename.getLast? = some '/' then none
  else (selectedPath allowedExts excludedDirs filename).filter fun relPath =>
    !isMacosZipCruft relPath

/-- Write the selected files below a root. -/
def writeAll (tree : Listing Str) : List Str → Option (Listing Str)
  | [] => some tree
  | relPath :: rest => (tree.write (splitBy '/' relPath)).bind fun written => writeAll written rest

/-- The excluded names of an upload. -/
def excludedDirsWith (extraDirs : List Str) : List Str :=
  defaultExcludedDirs ++
    (extraDirs.filter fun dir => strip dir ≠ []).map fun dir => lower (strip dir)

/-- The paths of the files that an upload writes, those of its archive first. -/
def writtenPaths (directFiles zipNames allowedExts extraDirs : List Str) : List Str :=
  let allowed := allowedExts.map lower
  let excluded := excludedDirsWith extraDirs
  zipNames.filterMap (selectedEntry allowed excluded) ++
    directFiles.filterMap (selectedPath allowed excluded)

/-- `materialize_uploaded_sources`: the tree below the fresh root and the selected paths. -/
def materializeUploadedSources (directFiles zipNames allowedExts extraDirs : List Str) :
    Except UploadFault (Listing Str × List Str) :=
  let selected := writtenPaths directFiles zipNames allowedExts extraDirs
  match writeAll .empty selected with
  | none => .error .unwritable
  | some tree =>
      if selected = [] then .error .nothingSelected
      else .ok (tree, selected.dedup.insertionSort fun path other => path ≤ other)

end Materialize

section Walk

/-- `IGNORE_DIRS`. -/
def ignoreDirs : List Str :=
  [".git", ".venv", "venv", "env", "node_modules", "__pycache__", "build", "target", "dist", "out",
   "bin", ".idea", ".gradle", ".mvn", ".pytest_cache", ".mypy_cache", "site-packages", "__MACOSX"]

/-- `ARTIFACT_IGNORE_DIRS`. -/
def artifactIgnoreDirs : List Str := ignoreDirs.filter fun dir => !artifactDirOverrides.contains dir

/-- An artifact that has been located. -/
structure ArtifactInfo where
  relpath : Str
  kind : ArtifactKind
deriving DecidableEq

/-- What a walk makes of a file in a folder. -/
def locate (folders : List Str) (name : Str) : Option ArtifactInfo :=
  if isMacosCruft name then none
  else (artifactKind name).map fun kind =>
    { relpath := replaceLetter (Char.ofNat 92) '/' (['/'].intercalate (folders ++ [name]))
      kind := kind }

/-- `discover_artifacts`. -/
def discoverArtifacts (tree : Listing Str) : List ArtifactInfo :=
  (tree.walk fun dir => artifactIgnoreDirs.contains dir).flatMap fun visited =>
    visited.2.filterMap (locate visited.1)

end Walk

section Segments

/-- A segment as the cleaning leaves it. -/
structure CleanSegment (name : Str) : Prop where
  filled : name ≠ []
  slashFree : '/' ∉ name
  backslashFree : Char.ofNat 92 ∉ name

/-- The folders of a path. -/
def dirsOf (relPath : Str) : List Str := (splitBy '/' relPath).dropLast

/-- The name of the file at a path. -/
def baseOf (relPath : Str) : Str := afterLast '/' relPath

variable {rawPath relPath : Str}

/-- Segments that are let through stay as they are, and none leads out of the root. -/
theorem sanitizeParts_eq {parts sanitized : List Str}
    (cleaned : sanitizeParts rawPath parts = .ok sanitized) :
    sanitized = parts ∧ ∀ part ∈ parts, part ≠ ['.', '.'] ∧ ':' ∉ part := by
  induction parts generalizing sanitized with
  | nil =>
      cases cleaned
      exact ⟨rfl, List.forall_mem_nil _⟩
  | cons part rest ih =>
      rw [sanitizeParts] at cleaned
      split at cleaned
      · cases cleaned
      · next stays =>
          split at cleaned
          · cases cleaned
          · next plain =>
              cases later : sanitizeParts rawPath rest with
              | error fault =>
                  rw [later] at cleaned
                  cases cleaned
              | ok front =>
                  rw [later] at cleaned
                  cases cleaned
                  obtain ⟨rfl, safe⟩ := ih later
                  exact ⟨rfl, List.forall_mem_cons.mpr ⟨⟨stays, plain⟩, safe⟩⟩

/-- A path that is let through is joined from segments of what was given. -/
theorem exists_parts_of_sanitized (sanitized : sanitizeUploadPath rawPath = .ok relPath) :
    ∃ parts : List Str, parts ≠ [] ∧ relPath = ['/'].intercalate parts ∧ ∀ part ∈ parts,
      part ∈ splitBy '/' (strip (replaceLetter (Char.ofNat 92) '/' rawPath)) ∧
        (part ≠ [] ∧ part ≠ ['.']) ∧ part ≠ ['.', '.'] ∧ ':' ∉ part := by
  unfold sanitizeUploadPath at sanitized
  dsimp only at sanitized
  split at sanitized
  · cases sanitized
  · split at sanitized
    · cases sanitized
    case isFalse _ some =>
      revert sanitized some
      generalize listed : List.filter _ _ = parts
      intro some sanitized
      cases cleaned : sanitizeParts rawPath parts with
      | error fault =>
          rw [cleaned] at sanitized
          cases sanitized
      | ok front =>
          obtain ⟨rfl, safe⟩ := sanitizeParts_eq cleaned
          rw [cleaned] at sanitized
          dsimp only [Except.bind] at sanitized
          split at sanitized
          · cases sanitized
          · cases sanitized
            refine ⟨front, some, rfl, fun part member => ?_⟩
            have given := member
            rw [← listed, List.mem_filter, Bool.and_eq_true, decide_eq_true_eq,
              decide_eq_true_eq] at given
            exact ⟨given.1, given.2, safe part member⟩

/-- **Cleaned paths.** A path that is let through is made of clean segments. -/
theorem cleanSegment_of_sanitized (sanitized : sanitizeUploadPath rawPath = .ok relPath) :
    (∀ segment ∈ splitBy '/' relPath, CleanSegment segment) ∧
      splitBy '/' relPath = dirsOf relPath ++ [baseOf relPath] := by
  obtain ⟨parts, some, rfl, given⟩ := exists_parts_of_sanitized sanitized
  have clean : ∀ part ∈ parts, CleanSegment part := by
    intro part member
    obtain ⟨cut, filled, _⟩ := given part member
    refine ⟨filled.1, not_mem_of_mem_splitBy cut, fun inside => ?_⟩
    exact not_mem_replaceLetter (by decide) rawPath
      (mem_of_mem_stripWhile (mem_of_mem_splitBy cut inside))
  have split : splitBy '/' (['/'].intercalate parts) = parts := by
    rw [splitBy_intercalate some, flatMap_splitBy_of_free fun part member =>
      (clean part member).slashFree]
  have ends : splitBy '/' (['/'].intercalate parts) = parts.dropLast ++ [parts.getLast some] := by
    rw [split, List.dropLast_append_getLast]
  refine ⟨fun segment member => clean segment (by rwa [split] at member), ?_⟩
  rw [baseOf, dirsOf, afterLast_of_splitBy ends, split, List.dropLast_append_getLast]

end Segments

section Names

/-- The names, in lower case, for which the filter drops an artifact. -/
def uploadDirs : List Str := [".git", "node_modules", "coverage", "vendor", "__pycache__"]

/-- The folders that the walk for artifacts does not enter. -/
def walkDirs : List Str :=
  [".git", ".venv", "venv", "env", "node_modules", "__pycache__", ".idea", ".gradle",
   ".pytest_cache", ".mypy_cache", "site-packages", "__MACOSX"]

theorem artifactIgnoreDirs_eq : artifactIgnoreDirs = walkDirs := by decide

/-- The kind that goes with a name in lower case. -/
def kindNamed (name : Str) : Option ArtifactKind :=
  match artifactFilenames.lookup name with
  | some kind => some kind
  | none =>
      if ".d.ts".toList.isSuffixOf name then some .stub else extArtifact.lookup (extension name)

/-- The kind of an artifact is that of the last segment of its path. -/
theorem artifactKind_of_free {path : Str} (free : Char.ofNat 92 ∉ path) :
    artifactKind path = kindNamed (lower (baseOf path)) := by
  unfold artifactKind
  rw [replaceLetter_of_not_mem free]
  rfl

/-- No artifact has the name of a dropped folder. -/
theorem lower_not_mem_uploadDirs {name : Str} (artifact : (kindNamed (lower name)).isSome) :
    lower name ∉ uploadDirs := by
  intro listed
  have none : ∀ dir ∈ uploadDirs, kindNamed dir = none := by decide +kernel
  rw [none _ listed] at artifact
  cases artifact

variable {rawPath relPath : Str} {allowedExts : List Str} {tree : Listing Str}

/-- Joined clean segments are a path as it stands. -/
theorem splitBy_joined {parts : List Str} (some : parts ≠ [])
    (clean : ∀ part ∈ parts, CleanSegment part) :
    splitBy '/' (['/'].intercalate parts) = parts ∧ Char.ofNat 92 ∉ ['/'].intercalate parts := by
  constructor
  · rw [splitBy_intercalate some, flatMap_splitBy_of_free fun part member =>
      (clean part member).slashFree]
  · intro inside
    obtain ⟨part, member, found⟩ := mem_of_mem_intercalate (by decide) inside
    exact (clean part member).backslashFree found

/-- The kind of an upload goes by the name of its file. -/
theorem artifactKind_of_sanitized (sanitized : sanitizeUploadPath rawPath = .ok relPath) :
    artifactKind relPath = kindNamed (lower (baseOf relPath)) := by
  apply artifactKind_of_free
  obtain ⟨clean, _⟩ := cleanSegment_of_sanitized sanitized
  rw [← @intercalate_splitBy _ _ '/' relPath]
  exact (splitBy_joined (splitBy_ne_nil relPath) clean).2

/-- **Keeping an artifact.** The filter drops it exactly for the folders on its path. -/
theorem admits_iff (sanitized : sanitizeUploadPath rawPath = .ok relPath)
    (artifact : isArtifact relPath) :
    admits relPath allowedExts defaultExcludedDirs ↔
      ∀ dir ∈ dirsOf relPath, lower dir ∉ uploadDirs := by
  obtain ⟨clean, split⟩ := cleanSegment_of_sanitized sanitized
  have effective : (defaultExcludedDirs.filter fun dir => !artifactDirOverrides.contains dir) =
      uploadDirs := by decide
  have excluded : ((uploadDirs.filter fun dir => strip dir ≠ []).map fun dir =>
      lower (strip dir)) = uploadDirs := by decide +kernel
  have filled : ((splitBy '/' relPath).filter fun segment => segment ≠ []) = splitBy '/' relPath :=
    List.filter_eq_self.mpr fun segment member => decide_eq_true (clean segment member).filled
  have named : lower (baseOf relPath) ∉ uploadDirs := by
    apply lower_not_mem_uploadDirs
    rw [← artifactKind_of_sanitized sanitized]
    exact artifact
  have some : uploadDirs.isEmpty = false := rfl
  rw [admits, if_pos artifact, effective, pathContainsExcludedDir, excluded, filled, split, some,
    Bool.not_false, Bool.true_and, Bool.not_eq_true', ← Bool.not_eq_true, List.any_eq_true,
    not_exists]
  simp only [List.contains_iff_mem, not_and, List.forall_mem_map, List.forall_mem_append,
    List.forall_mem_singleton]
  exact and_iff_left named

/-- **Finding an artifact.** The walk comes to it exactly when it enters the folders on its
path. -/
theorem mem_discoverArtifacts_iff (sanitized : sanitizeUploadPath rawPath = .ok relPath)
    (artifact : isArtifact relPath)
    (clean : ∀ path ∈ tree.paths, ∀ name ∈ path, CleanSegment name) :
    relPath ∈ (discoverArtifacts tree).map ArtifactInfo.relpath ↔
      splitBy '/' relPath ∈ tree.paths ∧ (∀ dir ∈ dirsOf relPath, dir ∉ walkDirs) ∧
        isMacosCruft (baseOf relPath) = false := by
  have split := (cleanSegment_of_sanitized sanitized).2
  unfold discoverArtifacts
  rw [artifactIgnoreDirs_eq]
  constructor
  · intro found
    obtain ⟨_, located, rfl⟩ := List.mem_map.mp found
    obtain ⟨⟨folders, names⟩, visited, made⟩ := List.mem_flatMap.mp located
    obtain ⟨name, member, settled⟩ := List.mem_filterMap.mp made
    obtain ⟨listed, entered⟩ := Listing.mem_walk.mp ⟨names, visited, member⟩
    have joined := splitBy_joined (List.concat_ne_nil name folders) (clean _ listed)
    unfold locate at settled
    split at settled
    case isTrue => cases settled
    case isFalse plain =>
      obtain ⟨kind, _, rfl⟩ := Option.map_eq_some_iff.mp settled
      dsimp only
      rw [replaceLetter_of_not_mem joined.2, baseOf, afterLast_of_splitBy joined.1, dirsOf,
        joined.1, List.dropLast_concat]
      refine ⟨listed, ?_, Bool.eq_false_iff.mpr plain⟩
      intro dir passed skipped
      rw [← List.contains_iff_mem, entered dir passed] at skipped
      cases skipped
  · intro reached
    obtain ⟨listed, entered, plain⟩ := reached
    rw [split] at listed
    have free : ∀ passed ∈ dirsOf relPath, walkDirs.contains passed = false := by
      intro passed member
      rw [Bool.eq_false_iff, ne_eq, List.contains_iff_mem]
      exact entered passed member
    obtain ⟨names, visited, member⟩ := Listing.mem_walk.mpr ⟨listed, free⟩
    have joined := splitBy_joined (List.concat_ne_nil _ _) (clean _ listed)
    have whole : ['/'].intercalate (dirsOf relPath ++ [baseOf relPath]) = relPath := by
      rw [← split, intercalate_splitBy]
    have base : CleanSegment (baseOf relPath) :=
      clean _ listed _ (List.mem_append_right _ List.mem_cons_self)
    have alone : baseOf (baseOf relPath) = baseOf relPath :=
      @afterLast_of_splitBy _ _ _ _ _ [] (splitBy_of_not_mem base.slashFree)
    have baseKind : artifactKind (baseOf relPath) = artifactKind relPath := by
      rw [artifactKind_of_sanitized sanitized, artifactKind_of_free base.backslashFree, alone]
    obtain ⟨found, kinded⟩ := Option.isSome_iff_exists.mp artifact
    refine List.mem_map.mpr ⟨⟨relPath, found⟩, List.mem_flatMap.mpr ⟨_, visited,
      List.mem_filterMap.mpr ⟨_, member, ?_⟩⟩, rfl⟩
    rw [locate, plain, if_neg Bool.false_ne_true, baseKind, kinded,
      replaceLetter_of_not_mem joined.2, whole]
    rfl

end Names

section Agreement

/-- A tree of clean names, as uploads leave it. -/
structure UploadTree where
  listing : Listing Str
  clean : ∀ path ∈ listing.paths, ∀ name ∈ path, CleanSegment name

variable {rawPath relPath : Str} {allowedExts directFiles zipNames : List Str}

theorem mem_paths_writeAll {tree written : Listing Str} {relPaths : List Str} {path : List Str}
    (wrote : writeAll tree relPaths = some written) :
    path ∈ written.paths ↔
      (∃ relPath ∈ relPaths, path = splitBy '/' relPath) ∨ path ∈ tree.paths := by
  induction relPaths generalizing tree with
  | nil =>
      cases wrote
      simp only [List.not_mem_nil, false_and, exists_false, false_or]
  | cons first rest ih =>
      obtain ⟨middle, placed, later⟩ := Option.bind_eq_some_iff.mp wrote
      rw [ih later, Listing.mem_paths_write placed, List.exists_mem_cons_iff, ← or_assoc]
      exact or_congr_left or_comm

/-- **Materializing.** The tree of an upload holds the paths it writes, and no other. -/
theorem mem_paths_materialized {extraDirs : List Str} {tree : Listing Str}
    {selected path : List Str}
    (made : materializeUploadedSources directFiles zipNames allowedExts extraDirs =
      .ok (tree, selected)) :
    path ∈ tree.paths ↔ ∃ relPath ∈ writtenPaths directFiles zipNames allowedExts extraDirs,
      path = splitBy '/' relPath := by
  unfold materializeUploadedSources at made
  dsimp only at made
  split at made
  · cases made
  case h_2 written wrote =>
    split at made
    · cases made
    · cases made
      rw [mem_paths_writeAll wrote, Listing.paths, or_iff_left List.not_mem_nil]

theorem selectedPath_eq_some {excludedDirs : List Str} :
    selectedPath allowedExts excludedDirs rawPath = some relPath ↔
      sanitizeUploadPath rawPath = .ok relPath ∧ admits relPath allowedExts excludedDirs := by
  unfold selectedPath
  cases sanitizeUploadPath rawPath with
  | error fault => simp only [reduceCtorEq, false_and]
  | ok cleaned =>
      rw [Option.ite_none_right_eq_some, Except.ok.injEq, Option.some.injEq, and_comm]
      apply and_congr_right
      intro same
      rw [same]

theorem selectedEntry_eq_some {excludedDirs : List Str} :
    selectedEntry allowedExts excludedDirs rawPath = some relPath ↔
      rawPath.getLast? ≠ some '/' ∧ isMacosZipCruft relPath = false ∧
        sanitizeUploadPath rawPath = .ok relPath ∧ admits relPath allowedExts excludedDirs := by
  rw [selectedEntry, Option.ite_none_left_eq_some, Option.filter_eq_some_iff, selectedPath_eq_some,
    Bool.not_eq_true']
  exact and_congr_right fun _ => and_comm

/-- Every path an upload writes is a cleaned one that the filter keeps. -/
theorem admits_of_written {extraDirs : List Str}
    (written : relPath ∈ writtenPaths directFiles zipNames allowedExts extraDirs) :
    (∃ rawPath, sanitizeUploadPath rawPath = .ok relPath) ∧
      admits relPath (allowedExts.map lower) (excludedDirsWith extraDirs) := by
  cases List.mem_append.mp written with
  | inl entry =>
      obtain ⟨rawPath, _, chosen⟩ := List.mem_filterMap.mp entry
      obtain ⟨_, _, cleaned, kept⟩ := selectedEntry_eq_some.mp chosen
      exact ⟨⟨rawPath, cleaned⟩, kept⟩
  | inr direct =>
      obtain ⟨rawPath, _, chosen⟩ := List.mem_filterMap.mp direct
      obtain ⟨cleaned, kept⟩ := selectedPath_eq_some.mp chosen
      exact ⟨⟨rawPath, cleaned⟩, kept⟩

/-- What an upload leaves behind is a tree of clean names. -/
theorem clean_of_materialized {extraDirs selected : List Str} {tree : Listing Str}
    (made : materializeUploadedSources directFiles zipNames allowedExts extraDirs =
      .ok (tree, selected)) :
    ∀ path ∈ tree.paths, ∀ name ∈ path, CleanSegment name := by
  intro path listed
  obtain ⟨relPath, written, rfl⟩ := (mem_paths_materialized made).mp listed
  obtain ⟨rawPath, cleaned⟩ := (admits_of_written written).1
  exact (cleanSegment_of_sanitized cleaned).1

/-- The filter keeps a path exactly when the walk finds it. -/
def Agree (allowedExts : List Str) (relPath : Str) (tree : Listing Str) : Prop :=
  admits relPath allowedExts defaultExcludedDirs ↔
    relPath ∈ (discoverArtifacts tree).map ArtifactInfo.relpath

/-- The filter and the walk agree wherever the file is on disk. -/
def FiltersAgree (relPath : Str) : Prop :=
  ∀ (allowedExts : List Str) (tree : UploadTree),
    splitBy '/' relPath ∈ tree.listing.paths → Agree allowedExts relPath tree.listing

/-- The filter and the walk agree on what any upload of the path leaves behind. -/
def UploadsAgree (rawPath relPath : Str) : Prop :=
  ∀ directFiles zipNames allowedExts tree selected,
    rawPath ∈ directFiles ∨ rawPath ∈ zipNames ∧ rawPath.getLast? ≠ some '/' →
      materializeUploadedSources directFiles zipNames allowedExts [] = .ok (tree, selected) →
        Agree (allowedExts.map lower) relPath tree

/-- The folders that both leave out, as they are spelt. -/
def sharedDirs : List Str := [".git", "node_modules", "__pycache__"]

/-- The folders that the walk alone does not enter. -/
def walkOnlyDirs : List Str :=
  [".venv", "venv", "env", ".idea", ".gradle", ".pytest_cache", ".mypy_cache", "site-packages",
   "__MACOSX"]

/-- A folder of the path is left out by both. -/
def InSharedDir (relPath : Str) : Prop := ∃ dir ∈ dirsOf relPath, dir ∈ sharedDirs

/-- A folder of the path is left out by the filter alone. -/
def InUploadOnlyDir (relPath : Str) : Prop :=
  ∃ dir ∈ dirsOf relPath, lower dir ∈ uploadDirs ∧ dir ∉ sharedDirs

/-- A folder of the path is left out by the walk alone, or the file is a resource fork. -/
def WalkOnlyHidden (relPath : Str) : Prop :=
  (∃ dir ∈ dirsOf relPath, dir ∈ walkOnlyDirs) ∨ isMacosCruft (baseOf relPath)

theorem free_of_uploadDirs_iff :
    (∀ dir ∈ dirsOf relPath, lower dir ∉ uploadDirs) ↔
      ¬ InSharedDir relPath ∧ ¬ InUploadOnlyDir relPath := by
  have lowered : ∀ dir ∈ sharedDirs, lower dir ∈ uploadDirs := by decide +kernel
  unfold InSharedDir InUploadOnlyDir
  constructor
  · intro free
    refine ⟨fun shared => ?_, fun dropped => ?_⟩
    · obtain ⟨dir, passed, listed⟩ := shared
      exact free dir passed (lowered dir listed)
    · obtain ⟨dir, passed, listed, _⟩ := dropped
      exact free dir passed listed
  · intro none dir passed listed
    by_cases shared : dir ∈ sharedDirs
    · exact none.1 ⟨dir, passed, shared⟩
    · exact none.2 ⟨dir, passed, listed, shared⟩

theorem free_of_walkDirs_iff :
    (∀ dir ∈ dirsOf relPath, dir ∉ walkDirs) ∧ isMacosCruft (baseOf relPath) = false ↔
      ¬ InSharedDir relPath ∧ ¬ WalkOnlyHidden relPath := by
  have parts : walkDirs.Perm (sharedDirs ++ walkOnlyDirs) := by decide
  unfold InSharedDir WalkOnlyHidden
  simp only [parts.mem_iff, List.mem_append, not_or, forall_and, not_exists, not_and, and_assoc,
    Bool.not_eq_true]

/-- A path that is kept can be uploaded on its own. -/
theorem exists_materialized (sanitized : sanitizeUploadPath rawPath = .ok relPath)
    (kept : admits relPath (allowedExts.map lower) defaultExcludedDirs) :
    ∃ tree selected, materializeUploadedSources [rawPath] [] allowedExts [] = .ok (tree, selected) ∧
      splitBy '/' relPath ∈ tree.paths := by
  have chosen : writtenPaths [rawPath] [] allowedExts [] = [relPath] := by
    have selected := selectedPath_eq_some.mpr ⟨sanitized, kept⟩
    exact List.filterMap_cons_some selected
  obtain ⟨tree, wrote⟩ := Option.isSome_iff_exists.mp
    (Listing.isSome_write_empty (@splitBy_ne_nil _ _ '/' relPath))
  have written : writeAll .empty [relPath] = some tree := by
    rw [writeAll, wrote]
    rfl
  refine ⟨tree, [relPath].dedup.insertionSort fun path other => path ≤ other, ?_,
    (Listing.mem_paths_write wrote).mpr (.inl rfl)⟩
  rw [materializeUploadedSources, chosen, written]
  exact if_neg (List.cons_ne_nil _ _)

/-- Every cleaned path stands in some tree. -/
theorem exists_uploadTree (sanitized : sanitizeUploadPath rawPath = .ok relPath) :
    ∃ tree : UploadTree, splitBy '/' relPath ∈ tree.listing.paths := by
  obtain ⟨tree, wrote⟩ := Option.isSome_iff_exists.mp
    (Listing.isSome_write_empty (@splitBy_ne_nil _ _ '/' relPath))
  have listed : ∀ path, path ∈ tree.paths ↔ path = splitBy '/' relPath := by
    intro path
    rw [Listing.mem_paths_write wrote, Listing.paths, or_iff_left List.not_mem_nil]
  refine ⟨⟨tree, fun path member => ?_⟩, (listed _).mpr rfl⟩
  rw [(listed path).mp member]
  exact (cleanSegment_of_sanitized sanitized).1

/-- What agreement comes to for an artifact in a tree of clean names. -/
theorem agree_iff {tree : Listing Str} (sanitized : sanitizeUploadPath rawPath = .ok relPath)
    (artifact : isArtifact relPath)
    (clean : ∀ path ∈ tree.paths, ∀ name ∈ path, CleanSegment name) :
    Agree allowedExts relPath tree ↔
      (¬ InSharedDir relPath ∧ ¬ InUploadOnlyDir relPath ↔
        splitBy '/' relPath ∈ tree.paths ∧ ¬ InSharedDir relPath ∧ ¬ WalkOnlyHidden relPath) := by
  rw [Agree, admits_iff sanitized artifact, mem_discoverArtifacts_iff sanitized artifact clean,
    free_of_uploadDirs_iff, free_of_walkDirs_iff]

theorem not_macosZipCruft (sanitized : sanitizeUploadPath rawPath = .ok relPath)
    (artifact : isArtifact relPath) (plain : ¬ WalkOnlyHidden relPath) :
    isMacosZipCruft relPath = false := by
  rw [WalkOnlyHidden, not_or, Bool.not_eq_true] at plain
  have split := (cleanSegment_of_sanitized sanitized).2
  have absent : "__MACOSX".toList ∉ splitBy '/' relPath := by
    rw [split, List.mem_append, List.mem_singleton]
    intro present
    cases present with
    | inl passed => exact plain.1 ⟨_, passed, by decide⟩
    | inr named =>
        rw [isArtifact, artifactKind_of_sanitized sanitized, ← named] at artifact
        have none : kindNamed (lower "__MACOSX".toList) = none := by decide +kernel
        rw [none] at artifact
        cases artifact
  rw [isMacosZipCruft, Bool.or_eq_false_iff, ← Bool.not_eq_true, List.contains_iff_mem]
  exact ⟨absent, plain.2⟩

/-- An upload of a path that nothing leaves out writes it. -/
theorem mem_paths_of_uploaded {selected : List Str} {tree : Listing Str}
    (sanitized : sanitizeUploadPath rawPath = .ok relPath) (artifact : isArtifact relPath)
    (uploaded : rawPath ∈ directFiles ∨ rawPath ∈ zipNames ∧ rawPath.getLast? ≠ some '/')
    (made : materializeUploadedSources directFiles zipNames allowedExts [] = .ok (tree, selected))
    (kept : ∀ dir ∈ dirsOf relPath, lower dir ∉ uploadDirs) (plain : ¬ WalkOnlyHidden relPath) :
    splitBy '/' relPath ∈ tree.paths := by
  refine (mem_paths_materialized made).mpr ⟨relPath, List.mem_append.mpr ?_, rfl⟩
  have keeps : admits relPath (allowedExts.map lower) (excludedDirsWith []) :=
    (admits_iff sanitized artifact).mpr kept
  cases uploaded with
  | inl direct =>
      exact .inr (List.mem_filterMap.mpr
        ⟨rawPath, direct, selectedPath_eq_some.mpr ⟨sanitized, keeps⟩⟩)
  | inr entry =>
      exact .inl (List.mem_filterMap.mpr ⟨rawPath, entry.1, selectedEntry_eq_some.mpr
        ⟨entry.2, not_macosZipCruft sanitized artifact plain, sanitized, keeps⟩⟩)

/-- What an upload has written is kept by the filter. -/
theorem free_of_mem_paths {selected : List Str} {tree : Listing Str}
    (sanitized : sanitizeUploadPath rawPath = .ok relPath) (artifact : isArtifact relPath)
    (made : materializeUploadedSources directFiles zipNames allowedExts [] = .ok (tree, selected))
    (held : splitBy '/' relPath ∈ tree.paths) : ¬ InUploadOnlyDir relPath := by
  obtain ⟨other, written, same⟩ := (mem_paths_materialized made).mp held
  have joined := congrArg (List.intercalate ['/']) same
  rw [intercalate_splitBy, intercalate_splitBy] at joined
  subst joined
  have kept := (admits_of_written written).2
  exact (free_of_uploadDirs_iff.mp ((admits_iff sanitized artifact).mp kept)).2

/-- **Upload filter and walk.** On disk they agree on an artifact exactly when a folder on its
path is left out by both, or each has a folder to leave it out for, or neither has. On what an
upload leaves behind they agree unless the walk alone leaves it out. -/
theorem uploadsAgree_iff (sanitized : sanitizeUploadPath rawPath = .ok relPath)
    (artifact : isArtifact relPath) :
    (FiltersAgree relPath ↔
      InSharedDir relPath ∨ (InUploadOnlyDir relPath ↔ WalkOnlyHidden relPath)) ∧
    (UploadsAgree rawPath relPath ↔
      InSharedDir relPath ∨ (WalkOnlyHidden relPath → InUploadOnlyDir relPath)) := by
  refine ⟨⟨fun agree => ?_, fun alike allowedExts tree listed => ?_⟩,
    ⟨fun agree => ?_, fun alike directFiles zipNames allowedExts tree selected uploaded made => ?_⟩⟩
  · obtain ⟨tree, listed⟩ := exists_uploadTree sanitized
    have same := (agree_iff sanitized artifact tree.clean).mp (agree [] tree listed)
    by_cases shared : InSharedDir relPath
    · exact .inl shared
    · rw [and_iff_right listed, and_iff_right shared, and_iff_right shared, not_iff_not] at same
      exact .inr same
  · rw [agree_iff sanitized artifact tree.clean]
    tauto
  · by_contra differ
    rw [not_or, Classical.not_imp] at differ
    have free := free_of_uploadDirs_iff.mpr ⟨differ.1, differ.2.2⟩
    have kept : admits relPath (([] : List Str).map lower) defaultExcludedDirs :=
      (admits_iff sanitized artifact).mpr free
    obtain ⟨tree, selected, made, _⟩ := exists_materialized sanitized kept
    have same := (agree_iff sanitized artifact (clean_of_materialized made)).mp
      (agree _ _ _ _ _ (.inl List.mem_cons_self) made)
    tauto
  · rw [agree_iff sanitized artifact (clean_of_materialized made)]
    have dropped := free_of_mem_paths sanitized artifact made
    have writes : ¬ InSharedDir relPath ∧ ¬ InUploadOnlyDir relPath → ¬ WalkOnlyHidden relPath →
        splitBy '/' relPath ∈ tree.paths := fun free =>
      mem_paths_of_uploaded sanitized artifact uploaded made (free_of_uploadDirs_iff.mpr free)
    tauto

/-- The filter and the walk agree on compiled classes among the build output. -/
theorem uploadsAgree_target :
    FiltersAgree "target/classes/A.class" ∧
      UploadsAgree "target/classes/A.class" "target/classes/A.class" := by
  have agree := @uploadsAgree_iff "target/classes/A.class" "target/classes/A.class"
    (by decide +kernel) (by decide +kernel)
  have none : ¬ WalkOnlyHidden "target/classes/A.class" := by
    unfold WalkOnlyHidden
    decide +kernel
  have noneToo : ¬ InUploadOnlyDir "target/classes/A.class" := by
    unfold InUploadOnlyDir
    decide +kernel
  exact ⟨agree.1.mpr (.inr (iff_of_false noneToo none)),
    agree.2.mpr (.inr fun some => (none some).elim)⟩

/-- An archive in a folder named as an environment is kept, written, and never found. -/
theorem env_disagrees :
    ∃ rawPath relPath, sanitizeUploadPath rawPath = .ok relPath ∧ isArtifact relPath ∧
      ¬ FiltersAgree relPath ∧ ¬ UploadsAgree rawPath relPath := by
  have sanitized : sanitizeUploadPath "env/lib.jar" = .ok "env/lib.jar".toList := by decide +kernel
  have artifact : isArtifact "env/lib.jar" := by decide +kernel
  have kept : admits "env/lib.jar" (([] : List Str).map lower) defaultExcludedDirs := by
    decide +kernel
  have hidden : WalkOnlyHidden "env/lib.jar" := by
    unfold WalkOnlyHidden
    decide +kernel
  have missed : ∀ tree : Listing Str, (∀ path ∈ tree.paths, ∀ name ∈ path, CleanSegment name) →
      ¬ Agree [] "env/lib.jar" tree := by
    intro tree clean agree
    have found := (mem_discoverArtifacts_iff sanitized artifact clean).mp (agree.mp kept)
    exact (free_of_walkDirs_iff.mp found.2).2 hidden
  refine ⟨_, _, sanitized, artifact, fun agree => ?_, fun agree => ?_⟩
  · obtain ⟨tree, listed⟩ := exists_uploadTree sanitized
    exact missed _ tree.clean (agree [] tree listed)
  · obtain ⟨tree, selected, made, _⟩ := exists_materialized sanitized kept
    exact missed tree (clean_of_materialized made) (agree _ _ _ _ _ (.inl List.mem_cons_self) made)

end Agreement

end GraphIngest.Ingest
