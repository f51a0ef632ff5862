import GraphIngest.Ingest.Extraction

/-! # Where uploads are written

A cleaned path is put behind the source root segment by segment, as path objects are: an
absolute part would replace what stands before it, `.` and empty parts are dropped, and `..`
leads up again. None of this can happen with the segments of a cleaned path. So whatever name
an entry of an archive or an upload has, either it is refused, or what is written for it lies
strictly below the root, at every moment of both ways of writing.
-/

namespace GraphIngest.Ingest

open Foundation Text

/-- Refusals of a path are value errors; the others are the system's, or about the upload as a
whole. -/
def UploadFault.isValueError : UploadFault → Bool
  | .empty | .invalid | .traversal _ | .drive _ | .absolute _ => true
  | .unwritable | .nothingSelected => false

section Joining

/-- A part put behind a path; an absolute one replaces it. -/
def joinPath (path part : Str) : Str :=
  if part.head? = some '/' then part
  else if path = [] ∨ path.getLast? = some '/' then path ++ part
  else path ++ '/' :: part

/-- `Path(src_root, *segments)`. -/
def targetPath (srcRoot : Str) (segments : List Str) : Str := segments.foldl joinPath srcRoot

/-- The names on a path. -/
def pathNames (path : Str) : List Str :=
  (splitBy '/' path).filter fun name => name ≠ [] && name ≠ ['.']

/-- Where names lead from the top. -/
def follow (names : List Str) : List Str :=
  names.foldl (fun place name => if name = ['.', '.'] then place.dropLast else place ++ [name]) []

/-- A path leads to a place below another one, from the same top. -/
structure StrictlyBelow (root path : Str) : Prop where
  top : path.head? = some '/' ↔ root.head? = some '/'
  inside : ∃ inner, inner ≠ [] ∧ follow (pathNames path) = follow (pathNames root) ++ inner

/-- A segment that names something in the folder it is looked up in. -/
structure SafeSegment (segment : Str) : Prop where
  filled : segment ≠ []
  notHere : segment ≠ ['.']
  notUp : segment ≠ ['.', '.']
  driveFree : ':' ∉ segment
  slashFree : '/' ∉ segment
  backslashFree : Char.ofNat 92 ∉ segment

variable {segment : Str}

theorem SafeSegment.head_ne (safe : SafeSegment segment) : segment.head? ≠ some '/' :=
  fun head => safe.slashFree (List.mem_of_head? head)

/-- A safe segment adds its own name. -/
theorem pathNames_joinPath (path : Str) (safe : SafeSegment segment) :
    pathNames (joinPath path segment) = pathNames path ++ [segment] := by
  have single : splitBy '/' segment = [segment] := splitBy_of_not_mem safe.slashFree
  have kept : [segment].filter (fun name => name ≠ [] && name ≠ ['.']) = [segment] := by
    rw [List.filter_cons_of_pos, List.filter_nil]
    rw [Bool.and_eq_true, decide_eq_true_eq, decide_eq_true_eq]
    exact ⟨safe.filled, safe.notHere⟩
  unfold joinPath pathNames
  rw [if_neg safe.head_ne]
  split
  · next ends =>
      rcases ends with rfl | ends
      · rw [List.nil_append, single, kept]
        rfl
      · obtain ⟨front, rfl⟩ := List.getLast?_eq_some_iff.mp ends
        rw [List.append_assoc, List.singleton_append, splitBy_append, splitBy_append, single,
          List.filter_append, List.filter_append, kept]
        congr 1
        exact (List.append_nil _).symm
  · rw [splitBy_append, single, List.filter_append, kept]

theorem head_joinPath (path : Str) (safe : SafeSegment segment) :
    (joinPath path segment).head? = some '/' ↔ path.head? = some '/' := by
  unfold joinPath
  rw [if_neg safe.head_ne]
  cases path with
  | nil =>
      rw [if_pos (.inl rfl), List.nil_append]
      exact iff_of_false safe.head_ne (Option.some_ne_none '/').symm
  | cons letter rest => split <;> rfl

variable {segments : List Str}

/-- **Joining.** Safe segments lead strictly below any root. -/
theorem strictlyBelow_targetPath (srcRoot : Str) (some : segments ≠ [])
    (safe : ∀ segment ∈ segments, SafeSegment segment) :
    StrictlyBelow srcRoot (targetPath srcRoot segments) := by
  have names : ∀ (root : Str), (targetPath root segments).head? = Option.some '/' ↔
      root.head? = Option.some '/' := by
    clear some
    induction segments with
    | nil => exact fun root => Iff.rfl
    | cons segment rest ih =>
        obtain ⟨own, others⟩ := List.forall_mem_cons.mp safe
        exact fun root => (ih others _).trans (head_joinPath root own)
  have joined : ∀ (root : Str), pathNames (targetPath root segments) =
      pathNames root ++ segments := by
    clear some names
    induction segments with
    | nil => exact fun root => (List.append_nil _).symm
    | cons segment rest ih =>
        obtain ⟨own, others⟩ := List.forall_mem_cons.mp safe
        intro root
        rw [List.append_cons, ← pathNames_joinPath root own]
        exact ih others _
  have straight : ∀ place : List Str, segments.foldl (fun place name =>
      if name = ['.', '.'] then place.dropLast else place ++ [name]) place =
        place ++ segments := by
    clear some names joined
    induction segments with
    | nil => exact fun place => (List.append_nil _).symm
    | cons segment rest ih =>
        obtain ⟨own, others⟩ := List.forall_mem_cons.mp safe
        intro place
        rw [List.foldl_cons, if_neg own.notUp, ih others, List.append_assoc]
        rfl
  refine ⟨names srcRoot, segments, some, ?_⟩
  rw [joined, follow, List.foldl_append]
  exact straight _

end Joining

section Uploads

variable {rawPath relPath : Str}

/-- The segments of a cleaned path are safe. -/
theorem safeSegment_of_sanitized (sanitized : sanitizeUploadPath rawPath = .ok relPath) :
    ∀ segment ∈ splitBy '/' relPath, SafeSegment segment := by
  have clean := (cleanSegment_of_sanitized sanitized).1
  obtain ⟨parts, some, rfl, given⟩ := exists_parts_of_sanitized sanitized
  have split : splitBy '/' (['/'].intercalate parts) = parts := by
    rw [splitBy_intercalate some, flatMap_splitBy_of_free fun part member =>
      not_mem_of_mem_splitBy (given part member).1]
  intro segment member
  obtain ⟨filled, slashFree, backslashFree⟩ := clean segment member
  rw [split] at member
  obtain ⟨_, ⟨_, notHere⟩, notUp, driveFree⟩ := given segment member
  exact ⟨filled, notHere, notUp, driveFree, slashFree, backslashFree⟩

/-- What cannot be cleaned is refused by a value error. -/
theorem isValueError_of_refused {fault : UploadFault}
    (refused : sanitizeUploadPath rawPath = .error fault) : fault.isValueError = true := by
  have ofParts : ∀ (parts : List Str), sanitizeParts rawPath parts = .error fault →
      fault.isValueError = true := by
    intro parts
    induction parts with
    | nil => exact fun refused => by cases refused
    | cons part rest ih =>
        intro refused
        rw [sanitizeParts] at refused
        split at refused
        · cases refused
          rfl
        · split at refused
          · cases refused
            rfl
          · cases later : sanitizeParts rawPath rest with
            | ok front =>
                rw [later] at refused
                cases refused
            | error other =>
                rw [later] at refused
                cases refused
                exact ih later
  unfold sanitizeUploadPath at refused
  dsimp only at refused
  split at refused
  · cases refused
    rfl
  · split at refused
    · cases refused
      rfl
    · revert refused
      generalize List.filter _ _ = parts
      cases cleaned : sanitizeParts rawPath parts with
      | error other =>
          intro refused
          cases refused
          exact ofParts parts cleaned
      | ok front =>
          dsimp only [Except.bind]
          split
          · intro refused
            cases refused
            rfl
          · exact fun refused => by cases refused

variable {allowedExts extraDirs : List Str}

/-- What is written for an upload has a cleaned path. -/
theorem sanitized_of_deposit {directFiles : List (Str × List UInt8)} {archive : List ZipEntry}
    {deposit : Deposit Str UInt8}
    (given : deposit ∈ uploadDeposits allowedExts extraDirs directFiles archive) :
    ∃ rawPath relPath, sanitizeUploadPath rawPath = .ok relPath ∧
      deposit.path = splitBy '/' relPath := by
  cases List.mem_append.mp given with
  | inl zipped =>
      obtain ⟨info, selected, rfl⟩ := List.mem_map.mp zipped
      obtain ⟨entry, _, kept⟩ := List.mem_filterMap.mp selected
      obtain ⟨relPath, chosen, rfl⟩ := Option.map_eq_some_iff.mp kept
      exact ⟨entry.filename, relPath, (selectedEntry_eq_some.mp chosen).2.2.1, rfl⟩
  | inr direct =>
      obtain ⟨file, selected, rfl⟩ := List.mem_map.mp direct
      obtain ⟨upload, _, kept⟩ := List.mem_filterMap.mp selected
      obtain ⟨relPath, chosen, rfl⟩ := Option.map_eq_some_iff.mp kept
      exact ⟨upload.1, relPath, (selectedPath_eq_some.mp chosen).1, rfl⟩

theorem strictlyBelow_of_sanitized (srcRoot : Str)
    (sanitized : sanitizeUploadPath rawPath = .ok relPath) :
    StrictlyBelow srcRoot (targetPath srcRoot (splitBy '/' relPath)) :=
  strictlyBelow_targetPath srcRoot (splitBy_ne_nil relPath) (safeSegment_of_sanitized sanitized)

/-- **Upload paths.** A name is refused by a value error, or cleaned to a relative path of safe
segments that leads strictly below any root; and below it lies every file that is there at any
moment, after a part of the uploads was written in turn, or while a pool writes them. -/
theorem uploads_strictlyBelow (srcRoot : Str) :
    (∀ rawPath,
      (∃ fault, sanitizeUploadPath rawPath = .error fault ∧ fault.isValueError = true) ∨
        ∃ relPath, sanitizeUploadPath rawPath = .ok relPath ∧ relPath ≠ [] ∧
          relPath.head? ≠ some '/' ∧ (∀ segment ∈ splitBy '/' relPath, SafeSegment segment) ∧
            StrictlyBelow srcRoot (targetPath srcRoot (splitBy '/' relPath))) ∧
    (∀ allowedExts extraDirs directFiles archive written disk,
      written <+: uploadDeposits allowedExts extraDirs directFiles archive →
        Disk.storeAll 0 written .fresh = some disk →
          ∀ path ∈ disk.files.keys, StrictlyBelow srcRoot (targetPath srcRoot path)) ∧
    ∀ allowedExts extraDirs archive workers made pool,
      Disk.fresh.prepare (zipDeposits allowedExts extraDirs archive) = some made →
        WritePool.Reachable 0 workers (.handed (zipDeposits allowedExts extraDirs archive) made)
          pool →
          ∀ path ∈ pool.disk.files.keys, StrictlyBelow srcRoot (targetPath srcRoot path) := by
  refine ⟨fun rawPath => ?_, ?_, ?_⟩
  · cases cleaned : sanitizeUploadPath rawPath with
    | error fault => exact .inl ⟨fault, rfl, isValueError_of_refused cleaned⟩
    | ok relPath =>
        have safe := safeSegment_of_sanitized cleaned
        have below := strictlyBelow_of_sanitized srcRoot cleaned
        refine .inr ⟨relPath, rfl, fun none => ?_, fun rooted => ?_, safe, below⟩
        · subst none
          exact (safe [] List.mem_cons_self).filled rfl
        · obtain ⟨rest, rfl⟩ := List.head?_eq_some_iff.mp rooted
          rw [splitBy_cons_self] at safe
          exact (safe [] List.mem_cons_self).filled rfl
  · intro allowedExts extraDirs directFiles archive written disk begun stored path listed
    have given : ∀ deposit ∈ written, ∃ rawPath relPath,
        sanitizeUploadPath rawPath = .ok relPath ∧ deposit.path = splitBy '/' relPath :=
      fun deposit listed => sanitized_of_deposit (begun.subset listed)
    have filled : ∀ deposit ∈ written, deposit.path ≠ [] := by
      intro deposit listed
      obtain ⟨_, relPath, _, place⟩ := given deposit listed
      rw [place]
      exact splitBy_ne_nil relPath
    obtain ⟨goes, leaves⟩ := @Disk.storeAll_fresh _ _ _ 0 _ filled
    have readable := (goes.mp ⟨disk, stored⟩).readable
    obtain ⟨deposit, member, rfl⟩ := ((leaves disk stored).mem_keys readable).mp listed
    obtain ⟨rawPath, relPath, cleaned, place⟩ := given deposit member
    rw [place]
    exact strictlyBelow_of_sanitized srcRoot cleaned
  · intro allowedExts extraDirs archive workers made pool prepared reachable path listed
    have empty := (WritePool.fit_of_prepared filled_zipDeposits prepared).1
    obtain ⟨deposit, member, rfl⟩ :=
      WritePool.exists_deposit_of_file empty reachable path listed
    obtain ⟨rawPath, relPath, cleaned, place⟩ :=
      @sanitized_of_deposit allowedExts extraDirs [] archive deposit (List.mem_append_left _ member)
    rw [place]
    exact strictlyBelow_of_sanitized srcRoot cleaned

end Uploads

end GraphIngest.Ingest
