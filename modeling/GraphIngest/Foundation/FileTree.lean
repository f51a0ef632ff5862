import Mathlib.Data.List.Basic

/-! # Directory trees

A directory lists its files and its folders in some order. Writing a file makes the
folders on the way to it; a walk visits the folders from the top and does not enter
those it skips.
-/

namespace GraphIngest.Foundation

/-- The entries of a directory. -/
inductive Listing (α : Type*)
  | empty
  | file (name : α) (rest : Listing α)
  | folder (name : α) (inner rest : Listing α)
deriving DecidableEq

namespace Listing

section Walk

variable {α : Type*}

/-- The names of the files of a directory itself. -/
def files : Listing α → List α
  | empty => []
  | file name rest => name :: rest.files
  | folder _ _ rest => rest.files

/-- The paths of all files below a directory. -/
def paths : Listing α → List (List α)
  | empty => []
  | file name rest => [name] :: rest.paths
  | folder name inner rest => inner.paths.map (name :: ·) ++ rest.paths

/-- The folders a walk visits below a directory, each with its files. -/
def visits (skip : α → Bool) : Listing α → List (List α × List α)
  | empty => []
  | file _ rest => rest.visits skip
  | folder name inner rest =>
      (if skip name then [] else ([], inner.files) :: inner.visits skip).map
          (fun visited => (name :: visited.1, visited.2)) ++
        rest.visits skip

/-- The directories a walk visits from the top, each with its files. -/
def walk (skip : α → Bool) (listing : Listing α) : List (List α × List α) :=
  ([], listing.files) :: listing.visits skip

variable {listing : Listing α} {path : List α}

theorem ne_nil_of_mem_paths (listed : path ∈ listing.paths) : path ≠ [] := by
  intro nothing
  subst nothing
  induction listing with
  | empty => cases listed
  | file name rest ih =>
      cases List.mem_cons.mp listed with
      | inl same => cases same
      | inr later => exact ih later
  | folder name inner rest _ ih =>
      cases List.mem_append.mp listed with
      | inl deeper =>
          obtain ⟨_, _, same⟩ := List.mem_map.mp deeper
          cases same
      | inr later => exact ih later

/-- A path below a folder, or beside it. -/
theorem cons_mem_paths_folder {name head : α} {inner rest : Listing α} :
    head :: path ∈ (folder name inner rest).paths ↔
      name = head ∧ path ∈ inner.paths ∨ head :: path ∈ rest.paths := by
  rw [paths, List.mem_append, List.mem_map]
  apply or_congr_left
  constructor
  · intro made
    obtain ⟨_, deeper, same⟩ := made
    obtain ⟨named, followed⟩ := List.cons.inj same
    rw [← followed]
    exact ⟨named, deeper⟩
  · intro made
    rw [← made.1]
    exact ⟨path, made.2, rfl⟩

theorem mem_files {name : α} : name ∈ listing.files ↔ [name] ∈ listing.paths := by
  induction listing with
  | empty => simp only [files, paths, List.not_mem_nil]
  | file other rest ih =>
      simp only [files, paths, List.mem_cons, ih, List.cons.injEq, and_true]
  | folder other inner rest _ ih =>
      rw [files, ih, cons_mem_paths_folder]
      exact (or_iff_right fun deeper => ne_nil_of_mem_paths deeper.2 rfl).symm

/-- A visit below a folder, or beside it. -/
theorem cons_mem_visits_folder {skip : α → Bool} {name head : α} {inner rest : Listing α}
    {names : List α} :
    (head :: path, names) ∈ (folder name inner rest).visits skip ↔
      name = head ∧ skip name = false ∧ (path, names) ∈ inner.walk skip ∨
        (head :: path, names) ∈ rest.visits skip := by
  rw [visits, List.mem_append, List.mem_map]
  apply or_congr_left
  constructor
  · intro made
    obtain ⟨visited, entered, same⟩ := made
    obtain ⟨led, rfl⟩ := Prod.mk.inj same
    obtain ⟨named, rfl⟩ := List.cons.inj led
    cases skipped : skip name with
    | true =>
        rw [skipped, if_pos rfl] at entered
        cases entered
    | false =>
        rw [skipped] at entered
        exact ⟨named, rfl, entered⟩
  · intro made
    obtain ⟨rfl, entered, inside⟩ := made
    rw [entered]
    exact ⟨(path, names), inside, rfl⟩

theorem ne_nil_of_mem_visits {skip : α → Bool} {names : List α}
    (listed : (path, names) ∈ listing.visits skip) : path ≠ [] := by
  intro nothing
  subst nothing
  induction listing with
  | empty => cases listed
  | file name rest ih => exact ih listed
  | folder name inner rest _ ih =>
      cases List.mem_append.mp listed with
      | inl entered =>
          obtain ⟨_, _, same⟩ := List.mem_map.mp entered
          cases same
      | inr later => exact ih later

theorem cons_mem_walk {skip : α → Bool} {head : α} {names : List α} :
    (head :: path, names) ∈ listing.walk skip ↔ (head :: path, names) ∈ listing.visits skip := by
  rw [walk, List.mem_cons]
  exact or_iff_right fun same => List.cons_ne_nil _ _ (Prod.mk.inj same).1

theorem nil_mem_walk {skip : α → Bool} {name : α} :
    (∃ names, ([], names) ∈ listing.walk skip ∧ name ∈ names) ↔
      [] ++ [name] ∈ listing.paths ∧ ∀ passed ∈ [], skip passed = false := by
  rw [List.nil_append, ← mem_files, and_iff_left fun _ none => (List.not_mem_nil none).elim]
  constructor
  · intro visited
    obtain ⟨names, listed, member⟩ := visited
    cases List.mem_cons.mp listed with
    | inl top =>
        rw [(Prod.mk.inj top).2] at member
        exact member
    | inr deeper => exact (ne_nil_of_mem_visits deeper rfl).elim
  · exact fun listed => ⟨listing.files, List.mem_cons_self, listed⟩

/-- **Walking a tree.** A walk comes to the files that no skipped folder leads to. -/
theorem mem_walk {skip : α → Bool} {folders : List α} {name : α} :
    (∃ names, (folders, names) ∈ listing.walk skip ∧ name ∈ names) ↔
      folders ++ [name] ∈ listing.paths ∧ ∀ passed ∈ folders, skip passed = false := by
  cases folders with
  | nil => exact nil_mem_walk
  | cons head more =>
      simp only [cons_mem_walk]
      induction listing generalizing head more with
      | empty => simp only [visits, paths, List.not_mem_nil, false_and, exists_false]
      | file other rest ih =>
          rw [visits, ih, paths, List.mem_cons, or_iff_right]
          intro same
          exact List.append_ne_nil_of_right_ne_nil more (List.cons_ne_nil name [])
            (List.cons.inj same).2
      | folder other inner rest ihInner ihRest =>
          have inside : (∃ names, (more, names) ∈ inner.walk skip ∧ name ∈ names) ↔
              more ++ [name] ∈ inner.paths ∧ ∀ passed ∈ more, skip passed = false := by
            cases more with
            | nil => exact nil_mem_walk
            | cons next last =>
                simp only [cons_mem_walk]
                exact ihInner next last
          rw [List.cons_append, cons_mem_paths_folder, or_and_right, ← List.cons_append,
            ← ihRest]
          simp only [cons_mem_visits_folder, or_and_right, exists_or]
          apply or_congr_left
          simp only [and_assoc, exists_and_left, List.forall_mem_cons]
          rw [inside]
          constructor
          · intro entered
            obtain ⟨rfl, open', listed, free⟩ := entered
            exact ⟨rfl, listed, open', free⟩
          · intro reached
            obtain ⟨rfl, listed, open', free⟩ := reached
            exact ⟨rfl, open', listed, free⟩

end Walk

section Write

variable {α : Type*} [DecidableEq α]

/-- Write a file into a directory; a folder of that name stands in the way. -/
def place (name : α) : Listing α → Option (Listing α)
  | empty => some (file name empty)
  | file other rest =>
      if other = name then some (file other rest) else (rest.place name).map (file other)
  | folder other inner rest =>
      if other = name then none else (rest.place name).map (folder other inner)

/-- Change what is in a folder, which is made unless it is there; a file of that name
stands in the way. -/
def enter (name : α) (change : Listing α → Option (Listing α)) : Listing α → Option (Listing α)
  | empty => (change empty).map fun inner => folder name inner empty
  | file other rest =>
      if other = name then none else (rest.enter name change).map (file other)
  | folder other inner rest =>
      if other = name then (change inner).map fun changed => folder other changed rest
      else (rest.enter name change).map (folder other inner)

/-- Write a file at a path. -/
def write : List α → Listing α → Option (Listing α)
  | [], _ => none
  | [name], listing => listing.place name
  | name :: next :: more, listing => listing.enter name (write (next :: more))

variable {listing written : Listing α} {path : List α}

theorem mem_paths_place {name : α} (placed : listing.place name = some written) :
    path ∈ written.paths ↔ path = [name] ∨ path ∈ listing.paths := by
  induction listing generalizing written with
  | empty =>
      cases placed
      simp only [paths, List.mem_singleton, List.not_mem_nil, or_false]
  | file other rest ih =>
      rw [place] at placed
      split at placed
      case isTrue same =>
        cases placed
        rw [paths, List.mem_cons, same, or_self_left]
      case isFalse =>
        obtain ⟨changed, later, rfl⟩ := Option.map_eq_some_iff.mp placed
        rw [paths, paths, List.mem_cons, List.mem_cons, ih later]
        exact or_left_comm
  | folder other inner rest _ ih =>
      rw [place] at placed
      split at placed
      case isTrue => cases placed
      case isFalse =>
        obtain ⟨changed, later, rfl⟩ := Option.map_eq_some_iff.mp placed
        rw [paths, paths, List.mem_append, List.mem_append, ih later]
        exact or_left_comm

theorem mem_paths_enter {name : α} {change : Listing α → Option (Listing α)} {added : List α}
    (changes : ∀ {inner changed : Listing α}, change inner = some changed →
      ∀ path, path ∈ changed.paths ↔ path = added ∨ path ∈ inner.paths)
    (entered : listing.enter name change = some written) :
    path ∈ written.paths ↔ path = name :: added ∨ path ∈ listing.paths := by
  induction listing generalizing written with
  | empty =>
      obtain ⟨changed, inside, rfl⟩ := Option.map_eq_some_iff.mp entered
      have single : ∀ path, path ∈ changed.paths ↔ path = added := by
        intro path
        rw [changes inside, paths, or_iff_left List.not_mem_nil]
      simp only [paths, List.append_nil, List.mem_map, single, exists_eq_left, List.not_mem_nil,
        or_false]
      exact eq_comm
  | file other rest ih =>
      rw [enter] at entered
      split at entered
      case isTrue => cases entered
      case isFalse =>
        obtain ⟨changed, later, rfl⟩ := Option.map_eq_some_iff.mp entered
        rw [paths, paths, List.mem_cons, List.mem_cons, ih later]
        exact or_left_comm
  | folder other inner rest _ ih =>
      rw [enter] at entered
      split at entered
      case isTrue same =>
        obtain ⟨changed, inside, rfl⟩ := Option.map_eq_some_iff.mp entered
        rw [paths, paths, List.mem_append, List.mem_append, ← or_assoc]
        apply or_congr_left
        simp only [List.mem_map, changes inside, or_and_right, exists_or, exists_eq_left, same]
        exact or_congr_left eq_comm
      case isFalse =>
        obtain ⟨changed, later, rfl⟩ := Option.map_eq_some_iff.mp entered
        rw [paths, paths, List.mem_append, List.mem_append, ih later]
        exact or_left_comm

/-- **Writing.** A file that is written adds its path and no other. -/
theorem mem_paths_write {added : List α} (wrote : listing.write added = some written) :
    path ∈ written.paths ↔ path = added ∨ path ∈ listing.paths := by
  induction added generalizing listing written path with
  | nil => cases wrote
  | cons name more ih =>
      cases more with
      | nil => exact mem_paths_place wrote
      | cons next last => exact mem_paths_enter (fun inside _ => ih inside) wrote

/-- Nothing stands in the way in an empty directory. -/
theorem isSome_write_empty (some : path ≠ []) : ((empty : Listing α).write path).isSome := by
  induction path with
  | nil => exact (some rfl).elim
  | cons name more ih =>
      cases more with
      | nil => rfl
      | cons next last =>
          rw [write, enter, Option.isSome_map]
          exact ih (List.cons_ne_nil next last)

end Write

end Listing

end GraphIngest.Foundation
