import GraphIngest.Foundation.Dict
import Mathlib.Data.List.Infix
import Mathlib.Data.List.Induction

/-! # Files and folders below a root

Folders and files stand under paths of names. A folder is made with those above it; a file
in its way stops that. A file is opened for writing in a folder that is there, and is empty
from then on; a folder of its path stops that. Bytes are written at an offset, whatever
others have made of the file in between, so that a gap can arise, and is filled up.

Files stored one after the other are all stored exactly when all can be read and none of
them stands where another needs a folder; of those under one path the last remains.
-/

namespace GraphIngest.Foundation

section Overlay

variable {β : Type*} (hole : β)

/-- A content after bytes were written at an offset. -/
def overlay (offset : Nat) (chunk old : List β) : List β :=
  (old ++ List.replicate (offset - old.length) hole).take offset ++ chunk ++
    old.drop (offset + chunk.length)

/-- A content that begins as a text does for a while, and is not longer. -/
structure Carries (whole : List β) (count : Nat) (content : List β) : Prop where
  begun : ∀ place < count, content[place]? = whole[place]?
  reaches : count ≤ content.length
  short : content.length ≤ whole.length

variable {hole} {whole content front chunk back : List β} {count : Nat}

theorem length_overlay (offset : Nat) (chunk old : List β) :
    (overlay hole offset chunk old).length = max (offset + chunk.length) old.length := by
  simp only [overlay, List.length_append, List.length_take, List.length_replicate,
    List.length_drop]
  omega

/-- Behind the offset stand the bytes written, elsewhere what was there. -/
theorem getElem?_overlay (offset : Nat) (chunk old : List β) {place : Nat}
    (known : place < old.length) :
    (overlay hole offset chunk old)[place]? =
      if offset ≤ place ∧ place < offset + chunk.length then chunk[place - offset]?
      else old[place]? := by
  have filled : ((old ++ List.replicate (offset - old.length) hole).take offset).length =
      offset := by
    rw [List.length_take, List.length_append, List.length_replicate]
    omega
  unfold overlay
  rw [List.append_assoc, List.getElem?_append, filled]
  split
  · next before =>
      rw [List.getElem?_take_of_lt before, List.getElem?_append_left known, if_neg (by omega)]
  · next behind =>
      rw [List.getElem?_append]
      split
      · next inside => rw [if_pos (by omega)]
      · next past =>
          rw [List.getElem?_drop, if_neg (by omega)]
          congr 1
          omega

theorem carries_nil (whole : List β) : Carries whole 0 [] :=
  ⟨fun _ below => (Nat.not_lt_zero _ below).elim, Nat.le_refl 0, Nat.zero_le _⟩

/-- A content that begins as the text does to its end is the text. -/
theorem Carries.eq (carries : Carries whole whole.length content) : content = whole := by
  have same : content.length = whole.length := Nat.le_antisymm carries.short carries.reaches
  apply List.ext_getElem?
  intro place
  by_cases below : place < whole.length
  · exact carries.begun place below
  · rw [List.getElem?_eq_none (by omega), List.getElem?_eq_none (by omega)]

/-- Bytes of the text, written where they belong, keep what a content has of it, whoever
writes them; who has written all in front of them has written them too. -/
theorem Carries.overlay (carries : Carries (front ++ chunk ++ back) count content) :
    Carries (front ++ chunk ++ back) count (overlay hole front.length chunk content) ∧
      (count = front.length → Carries (front ++ chunk ++ back) (front ++ chunk).length
        (overlay hole front.length chunk content)) := by
  have long := @length_overlay _ hole front.length chunk content
  have short := carries.short
  have reaches := carries.reaches
  rw [List.length_append, List.length_append] at short
  have own : ∀ place, front.length ≤ place → place < front.length + chunk.length →
      (front ++ chunk ++ back)[place]? = chunk[place - front.length]? := by
    intro place behind inside
    rw [List.append_assoc, List.getElem?_append_right behind, List.getElem?_append_left (by omega)]
  have kept : ∀ place < count, (Foundation.overlay hole front.length chunk content)[place]? =
      (front ++ chunk ++ back)[place]? := by
    intro place below
    rw [getElem?_overlay _ _ _ (by omega)]
    split
    · next written => exact (own place written.1 written.2).symm
    · exact carries.begun place below
  refine ⟨⟨kept, by omega, by rw [long, List.length_append, List.length_append]; omega⟩, ?_⟩
  intro all
  refine ⟨?_, by rw [long, List.length_append]; omega,
    by rw [long, List.length_append, List.length_append]; omega⟩
  intro place below
  rw [List.length_append] at below
  by_cases before : place < count
  · exact kept place before
  · have filled : (content ++ List.replicate (front.length - content.length) hole).take
        front.length = content.take front.length := by
      rw [Nat.sub_eq_zero_of_le (by omega), List.replicate_zero, List.append_nil]
    rw [own place (by omega) below, Foundation.overlay, filled, List.append_assoc,
      List.getElem?_append_right (by rw [List.length_take]; omega),
      List.getElem?_append_left (by rw [List.length_take]; omega), List.length_take,
      Nat.min_eq_left (by omega)]

end Overlay

/-- What is to be stored under a path; the content of some cannot be read. -/
structure Deposit (α β : Type*) where
  path : List α
  data : Option (List β)
deriving DecidableEq

/-- The folders and the files below a root. -/
structure Disk (α β : Type*) where
  folders : List (List α)
  files : Dict (List α) (List β)

namespace Disk

variable {α β : Type*} [DecidableEq α]

/-- The root alone. -/
def fresh : Disk α β := ⟨[], .empty⟩

/-- Make a folder and those above it, unless a file stands in the way. -/
def makeFolders (disk : Disk α β) (path : List α) : Option (Disk α β) :=
  if path.inits.any fun front => disk.files.keys.contains front then none
  else some { disk with folders := disk.folders ++ path.inits }

/-- Open a file for writing in a folder that is there. -/
def create (disk : Disk α β) (path : List α) : Option (Disk α β) :=
  if path ≠ [] ∧ (path.dropLast = [] ∨ path.dropLast ∈ disk.folders) ∧ path ∉ disk.folders then
    some { disk with files := disk.files.set path [] }
  else none

variable (hole : β)

/-- Write into a file at an offset. -/
def writeAt (disk : Disk α β) (path : List α) (offset : Nat) (chunk : List β) : Disk α β :=
  { disk with files := disk.files.set path (overlay hole offset chunk (disk.files.getD path [])) }

/-- Make the folders of a file, read it, and write all of it. -/
def store (disk : Disk α β) (deposit : Deposit α β) : Option (Disk α β) :=
  (disk.makeFolders deposit.path.dropLast).bind fun made =>
    deposit.data.bind fun bytes =>
      (made.create deposit.path).map fun opened => opened.writeAt hole deposit.path 0 bytes

/-- Store one after the other. -/
def storeAll : List (Deposit α β) → Disk α β → Option (Disk α β)
  | [], disk => some disk
  | deposit :: rest, disk => (disk.store hole deposit).bind (storeAll rest)

/-- Make the folders of all files. -/
def prepare (disk : Disk α β) : List (Deposit α β) → Option (Disk α β)
  | [] => some disk
  | deposit :: rest => (disk.makeFolders deposit.path.dropLast).bind fun made => made.prepare rest

end Disk

/-- All can be read, and no file stands where another needs a folder. -/
structure Storable {α β : Type*} (deposits : List (Deposit α β)) : Prop where
  readable : ∀ deposit ∈ deposits, deposit.data.isSome
  apart : ∀ deposit ∈ deposits, ∀ other ∈ deposits, ¬ deposit.path <+: other.path.dropLast

namespace Disk

section Storing

variable {α β : Type*} [DecidableEq α] {hole : β} {disk next : Disk α β}
  {deposits : List (Deposit α β)} {deposit : Deposit α β}

/-- The last of the deposits under a path. -/
def lastUnder (deposits : List (Deposit α β)) (path : List α) : Option (Deposit α β) :=
  deposits.reverse.find? fun deposit => deposit.path = path

/-- The disk that deposits leave: their folders, and under each path what the last one
holds. -/
structure Holds (deposits : List (Deposit α β)) (disk : Disk α β) : Prop where
  folders : ∀ path, path ∈ disk.folders ↔ ∃ deposit ∈ deposits, path <+: deposit.path.dropLast
  files : ∀ path, disk.files.get? path = (lastUnder deposits path).bind Deposit.data

theorem lastUnder_concat (path : List α) :
    lastUnder (deposits ++ [deposit]) path =
      if deposit.path = path then some deposit else lastUnder deposits path := by
  unfold lastUnder
  rw [List.reverse_append, List.reverse_singleton, List.singleton_append, List.find?_cons]
  by_cases same : deposit.path = path
  · rw [decide_eq_true same, if_pos same]
  · rw [decide_eq_false same, if_neg same]

theorem mem_of_lastUnder {path : List α} (last : lastUnder deposits path = some deposit) :
    deposit ∈ deposits ∧ deposit.path = path :=
  ⟨List.mem_reverse.mp (List.mem_of_find?_eq_some last), of_decide_eq_true (List.find?_some last :)⟩

theorem exists_lastUnder (listed : deposit ∈ deposits) :
    ∃ last, lastUnder deposits deposit.path = some last := by
  apply Option.isSome_iff_exists.mp
  rw [lastUnder, List.find?_isSome]
  exact ⟨deposit, List.mem_reverse.mpr listed, decide_eq_true rfl⟩

theorem holds_fresh : Holds [] (fresh : Disk α β) := by
  refine ⟨fun path => ?_, fun path => rfl⟩
  rw [fresh]
  simp only [List.not_mem_nil, false_and, exists_false]

/-- The files that readable deposits leave. -/
theorem Holds.mem_keys (holds : Holds deposits disk)
    (readable : ∀ deposit ∈ deposits, deposit.data.isSome) {path : List α} :
    path ∈ disk.files.keys ↔ ∃ deposit ∈ deposits, deposit.path = path := by
  rw [Dict.mem_keys_iff, holds.files]
  constructor
  · intro found
    obtain ⟨bytes, found⟩ := found
    obtain ⟨last, under, _⟩ := Option.bind_eq_some_iff.mp found
    exact ⟨last, mem_of_lastUnder under⟩
  · intro stored
    obtain ⟨deposit, listed, rfl⟩ := stored
    obtain ⟨last, under⟩ := exists_lastUnder listed
    obtain ⟨bytes, held⟩ :=
      Option.isSome_iff_exists.mp (readable last (mem_of_lastUnder under).1)
    exact ⟨bytes, by rw [under, Option.bind_some, held]⟩

theorem not_isPrefix_dropLast {path : List α} (filled : path ≠ []) : ¬ path <+: path.dropLast := by
  intro leads
  have short := leads.length_le
  rw [List.length_dropLast] at short
  have long := List.length_pos_iff.mpr filled
  omega

/-- When folders can be made, and what that leaves. -/
theorem makeFolders_eq_some_iff {path : List α} :
    disk.makeFolders path = some next ↔
      (∀ file ∈ disk.files.keys, ¬ file <+: path) ∧
        next = { disk with folders := disk.folders ++ path.inits } := by
  unfold makeFolders
  rw [Option.ite_none_left_eq_some, Option.some.injEq, List.any_eq_true]
  simp only [List.mem_inits, List.contains_iff_mem, not_exists, not_and]
  constructor
  · exact fun made => ⟨fun file listed leads => made.1 file leads listed, made.2.symm⟩
  · exact fun made => ⟨fun file leads listed => made.1 file listed leads, made.2.symm⟩

/-- When a file can be opened, and what that leaves. -/
theorem create_eq_some_iff {path : List α} :
    disk.create path = some next ↔
      (path ≠ [] ∧ (path.dropLast = [] ∨ path.dropLast ∈ disk.folders) ∧ path ∉ disk.folders) ∧
        next = { disk with files := disk.files.set path [] } := by
  rw [create, Option.ite_none_right_eq_some, Option.some.injEq]
  exact and_congr_right fun _ => eq_comm

/-- When a file can be stored. -/
theorem exists_store_iff (filled : deposit.path ≠ []) :
    (∃ next, disk.store hole deposit = some next) ↔
      deposit.data.isSome ∧ (∀ file ∈ disk.files.keys, ¬ file <+: deposit.path.dropLast) ∧
        deposit.path ∉ disk.folders := by
  have inside : deposit.path.dropLast ∈ disk.folders ++ deposit.path.dropLast.inits :=
    List.mem_append_right _ ((List.mem_inits _ _).mpr (List.prefix_refl _))
  have outside : deposit.path ∉ deposit.path.dropLast.inits := fun listed =>
    not_isPrefix_dropLast filled ((List.mem_inits _ _).mp listed)
  constructor
  · intro stored
    obtain ⟨next, stored⟩ := stored
    obtain ⟨made, foldersMade, rest⟩ := Option.bind_eq_some_iff.mp stored
    obtain ⟨bytes, data, rest⟩ := Option.bind_eq_some_iff.mp rest
    obtain ⟨opened, created, _⟩ := Option.map_eq_some_iff.mp rest
    obtain ⟨free, rfl⟩ := makeFolders_eq_some_iff.mp foldersMade
    refine ⟨by rw [data]; rfl, free, fun folder => ?_⟩
    exact (create_eq_some_iff.mp created).1.2.2 (List.mem_append_left _ folder)
  · intro possible
    obtain ⟨readable, free, plain⟩ := possible
    obtain ⟨bytes, data⟩ := Option.isSome_iff_exists.mp readable
    let made : Disk α β := { disk with folders := disk.folders ++ deposit.path.dropLast.inits }
    have foldersMade : disk.makeFolders deposit.path.dropLast = some made :=
      makeFolders_eq_some_iff.mpr ⟨free, rfl⟩
    have apart : deposit.path ∉ made.folders := fun listed =>
      (List.mem_append.mp listed).elim plain outside
    have created : made.create deposit.path = some { made with files := _ } :=
      create_eq_some_iff.mpr ⟨⟨filled, .inr inside, apart⟩, rfl⟩
    exact ⟨_, Option.bind_eq_some_iff.mpr ⟨made, foldersMade, Option.bind_eq_some_iff.mpr
      ⟨bytes, data, Option.map_eq_some_iff.mpr ⟨_, created, rfl⟩⟩⟩⟩

/-- A file that was emptied holds what is written into it. -/
theorem get?_writeAt_set (disk : Disk α β) (path : List α) (bytes : List β) (other : List α) :
    (writeAt hole { disk with files := disk.files.set path [] } path 0 bytes).files.get? other =
      if other = path then some bytes else disk.files.get? other := by
  have whole : overlay hole 0 bytes [] = bytes := by
    rw [overlay, List.take_zero, List.nil_append, List.drop_nil, List.append_nil]
  have emptied : (disk.files.set path []).getD path [] = [] := by
    rw [Dict.getD, Dict.get?_set_self, Option.getD_some]
  rw [writeAt, emptied, whole, Dict.get?_set]
  split
  · rfl
  · next outside => rw [Dict.get?_set, if_neg outside]

/-- What a file that is stored leaves. -/
theorem of_store (stored : disk.store hole deposit = some next) :
    next.folders = disk.folders ++ deposit.path.dropLast.inits ∧
      ∀ path, next.files.get? path =
        if path = deposit.path then deposit.data else disk.files.get? path := by
  obtain ⟨made, foldersMade, rest⟩ := Option.bind_eq_some_iff.mp stored
  obtain ⟨bytes, data, rest⟩ := Option.bind_eq_some_iff.mp rest
  obtain ⟨opened, created, rfl⟩ := Option.map_eq_some_iff.mp rest
  obtain ⟨_, rfl⟩ := makeFolders_eq_some_iff.mp foldersMade
  obtain ⟨_, rfl⟩ := create_eq_some_iff.mp created
  refine ⟨rfl, fun path => ?_⟩
  rw [get?_writeAt_set, data]

/-- **Storing.** One deposit more. -/
theorem Holds.store (holds : Holds deposits disk) (stored : disk.store hole deposit = some next) :
    Holds (deposits ++ [deposit]) next := by
  obtain ⟨folders, files⟩ := of_store stored
  refine ⟨fun path => ?_, fun path => ?_⟩
  · rw [folders, List.mem_append, holds.folders, List.mem_inits]
    simp only [List.mem_append, List.mem_singleton, or_and_right, exists_or, exists_eq_left]
  · rw [files, lastUnder_concat]
    by_cases same : path = deposit.path
    · rw [if_pos same, if_pos same.symm, Option.bind_some]
    · rw [if_neg same, if_neg (Ne.symm same), holds.files]

theorem storeAll_append (first rest : List (Deposit α β)) (disk : Disk α β) :
    storeAll hole (first ++ rest) disk = (storeAll hole first disk).bind (storeAll hole rest) := by
  induction first generalizing disk with
  | nil => rfl
  | cons deposit others ih =>
      rw [List.cons_append, storeAll, storeAll, Option.bind_assoc]
      congr 1
      exact funext ih

/-- **Storing all.** It goes through exactly when the deposits can be stored, and then the last
of each path remains. -/
theorem storeAll_fresh (filled : ∀ deposit ∈ deposits, deposit.path ≠ []) :
    ((∃ disk, storeAll hole deposits fresh = some disk) ↔ Storable deposits) ∧
      ∀ disk, storeAll hole deposits fresh = some disk → Holds deposits disk := by
  induction deposits using List.reverseRecOn with
  | nil =>
      refine ⟨iff_of_true ⟨fresh, rfl⟩ ⟨List.forall_mem_nil _, List.forall_mem_nil _⟩, ?_⟩
      intro disk stored
      cases stored
      exact holds_fresh
  | append_singleton earlier deposit ih =>
      obtain ⟨goes, leaves⟩ := ih fun other listed => filled other (List.mem_append_left _ listed)
      have own := filled deposit (List.mem_append_right _ List.mem_cons_self)
      have last : ∀ disk, storeAll hole (earlier ++ [deposit]) fresh = some disk ↔
          ∃ before, storeAll hole earlier fresh = some before ∧
            before.store hole deposit = some disk := by
        intro disk
        rw [storeAll_append, Option.bind_eq_some_iff]
        apply exists_congr
        intro before
        have nothing : storeAll hole ([] : List (Deposit α β)) = some := funext fun _ => rfl
        rw [storeAll, nothing, Option.bind_fun_some]
      refine ⟨⟨fun stored => ?_, fun storable => ?_⟩, fun disk stored => ?_⟩
      · obtain ⟨disk, stored⟩ := stored
        obtain ⟨before, front, stored⟩ := (last disk).mp stored
        obtain ⟨readable, apart⟩ := goes.mp ⟨before, front⟩
        have holds := leaves before front
        obtain ⟨data, free, plain⟩ := (exists_store_iff own).mp ⟨disk, stored⟩
        rw [holds.folders, not_exists] at plain
        refine ⟨?_, ?_⟩
        · rw [List.forall_mem_append, List.forall_mem_singleton]
          exact ⟨readable, data⟩
        · simp only [List.forall_mem_append, List.forall_mem_singleton]
          refine ⟨fun other listed => ⟨apart other listed, ?_⟩, fun other listed leads => ?_,
            not_isPrefix_dropLast own⟩
          · exact free _ ((holds.mem_keys readable).mpr ⟨other, listed, rfl⟩)
          · exact plain other ⟨listed, leads⟩
      · obtain ⟨readable, apart⟩ := storable
        simp only [List.forall_mem_append, List.forall_mem_singleton] at readable apart
        obtain ⟨before, front⟩ :=
          goes.mpr ⟨readable.1, fun other listed => (apart.1 other listed).1⟩
        have holds := leaves before front
        have possible := (@exists_store_iff _ _ _ hole before _ own).mpr ⟨readable.2, ?_, ?_⟩
        · obtain ⟨disk, stored⟩ := possible
          exact ⟨disk, (last disk).mpr ⟨before, front, stored⟩⟩
        · intro file listed
          obtain ⟨other, member, rfl⟩ := (holds.mem_keys readable.1).mp listed
          exact (apart.1 other member).2
        · rw [holds.folders]
          intro folder
          obtain ⟨other, member, leads⟩ := folder
          exact apart.2.1 other member leads
      · obtain ⟨before, front, stored⟩ := (last disk).mp stored
        exact (leaves before front).store stored

/-- **Folders first.** Without files nothing is in the way of the folders. -/
theorem exists_prepare (deposits : List (Deposit α β)) (empty : disk.files = .empty) :
    ∃ made, disk.prepare deposits = some made ∧ made.files = .empty ∧
      ∀ path, path ∈ made.folders ↔
        path ∈ disk.folders ∨ ∃ deposit ∈ deposits, path <+: deposit.path.dropLast := by
  induction deposits generalizing disk with
  | nil =>
      refine ⟨disk, rfl, empty, fun path => ?_⟩
      simp only [List.not_mem_nil, false_and, exists_false, or_false]
  | cons deposit rest ih =>
      have free : ∀ file ∈ disk.files.keys, ¬ file <+: deposit.path.dropLast := by
        rw [empty]
        exact List.forall_mem_nil _
      obtain ⟨made, goes, files, folders⟩ :=
        @ih { disk with folders := disk.folders ++ deposit.path.dropLast.inits } empty
      refine ⟨made, ?_, files, fun path => ?_⟩
      · rw [prepare, makeFolders_eq_some_iff.mpr ⟨free, rfl⟩]
        exact goes
      · rw [folders, List.mem_append, List.mem_inits, or_assoc, List.exists_mem_cons_iff]

end Storing

end Disk

end GraphIngest.Foundation
