import GraphIngest.Foundation.Disk
import Mathlib.Data.List.Perm.Basic

/-! # A pool of writers

Deposits are handed to a pool that works on a bounded number of them at a time and takes them
up in their order. Each is read, its file is opened, which empties it, and its bytes are
written piece by piece, all in any interleaving with the others. The folders have been made
before. A deposit that cannot be read, or whose path is a folder, is finished without success,
and the others go on.

A pool that has come to its end has failed exactly when the deposits cannot be stored one
after the other. When it has not, each file holds what was opened last under its path,
provided that no two deposits with different contents are ever worked on under one path.
-/

namespace GraphIngest.Foundation.WritePool

variable {α β : Type*} [DecidableEq α]

/-- How far a deposit is: the bytes read, those written and those to be written. -/
inductive Phase (β : Type*)
  | reading
  | opening (bytes : List β)
  | writing (written rest : List β)

/-- A deposit that is worked on. -/
structure Task (α β : Type*) where
  deposit : Deposit α β
  phase : Phase β

/-- The deposits not taken up, those worked on, and those finished, each with its success;
the files opened so far, in their order. -/
structure Pool (α β : Type*) where
  waiting : List (Deposit α β)
  running : List (Task α β) := []
  finished : List (Deposit α β × Bool) := []
  opened : List (Deposit α β) := []
  disk : Disk α β

variable (hole : β) (workers : Nat)

/-- A step of the pool. -/
inductive Step : Pool α β → Pool α β → Prop
  | start {pool deposit rest} (queued : pool.waiting = deposit :: rest)
      (room : pool.running.length < workers) :
      Step pool
        { pool with waiting := rest, running := pool.running ++ [⟨deposit, .reading⟩] }
  | read {pool front deposit back bytes}
      (place : pool.running = front ++ ⟨deposit, .reading⟩ :: back)
      (readable : deposit.data = some bytes) :
      Step pool { pool with running := front ++ ⟨deposit, .opening bytes⟩ :: back }
  | failRead {pool front deposit back}
      (place : pool.running = front ++ ⟨deposit, .reading⟩ :: back)
      (unreadable : deposit.data = none) :
      Step pool
        { pool with
          running := front ++ back
          finished := pool.finished ++ [(deposit, false)] }
  | open {pool front deposit back bytes disk}
      (place : pool.running = front ++ ⟨deposit, .opening bytes⟩ :: back)
      (created : pool.disk.create deposit.path = some disk) :
      Step pool
        { pool with
          running := front ++ ⟨deposit, .writing [] bytes⟩ :: back
          opened := pool.opened ++ [deposit]
          disk := disk }
  | failOpen {pool front deposit back bytes}
      (place : pool.running = front ++ ⟨deposit, .opening bytes⟩ :: back)
      (refused : pool.disk.create deposit.path = none) :
      Step pool
        { pool with
          running := front ++ back
          finished := pool.finished ++ [(deposit, false)] }
  | write {pool front deposit back written chunk rest}
      (place : pool.running = front ++ ⟨deposit, .writing written (chunk ++ rest)⟩ :: back)
      (some : chunk ≠ []) :
      Step pool
        { pool with
          running := front ++ ⟨deposit, .writing (written ++ chunk) rest⟩ :: back
          disk := pool.disk.writeAt hole deposit.path written.length chunk }
  | finish {pool front deposit back written}
      (place : pool.running = front ++ ⟨deposit, .writing written []⟩ :: back) :
      Step pool
        { pool with
          running := front ++ back
          finished := pool.finished ++ [(deposit, true)] }

/-- The pools that one handed some deposits can become. -/
inductive Reachable (start : Pool α β) : Pool α β → Prop
  | refl : Reachable start start
  | step {pool next} (before : Reachable start pool) (step : Step hole workers pool next) :
      Reachable start next

/-- Nothing is left to do. -/
def Pool.Completed (pool : Pool α β) : Prop := pool.waiting = [] ∧ pool.running = []

/-- Whether all that was finished was a success. -/
def Pool.successful (pool : Pool α β) : Bool := pool.finished.all Prod.snd

/-- All deposits, from those finished to those not taken up. -/
def Pool.held (pool : Pool α β) : List (Deposit α β) :=
  pool.finished.map Prod.fst ++ pool.running.map Task.deposit ++ pool.waiting

/-- A deposit whose file is open. -/
structure Writer (α β : Type*) where
  deposit : Deposit α β
  written : List β
  rest : List β

omit [DecidableEq α] in
/-- A task that has opened its file. -/
def Task.writer (task : Task α β) : Option (Writer α β) :=
  match task.phase with
  | .writing written rest => some ⟨task.deposit, written, rest⟩
  | .reading => none
  | .opening _ => none

/-- The files that are open. -/
def Pool.writers (pool : Pool α β) : List (Writer α β) := pool.running.filterMap Task.writer

/-- The deposits whose files have been opened, those finished first. -/
def Pool.begun (pool : Pool α β) : List (Deposit α β) :=
  (pool.finished.filter Prod.snd).map Prod.fst ++ pool.writers.map Writer.deposit

section Contents

variable {hole} {front back : List (Writer α β)} {opened : List (Deposit α β)}
  {files : Dict (List α) (List β)} {deposit : Deposit α β} {written chunk rest : List β}

/-- Under each path stands what was opened last under it, as far as one of those who have it
open has come; all who have a file open write the same. -/
structure Current (writers : List (Writer α β)) (opened : List (Deposit α β))
    (files : Dict (List α) (List β)) : Prop where
  untouched : ∀ path, Disk.lastUnder opened path = none → files.get? path = none
  covered : ∀ path last, Disk.lastUnder opened path = some last → ∃ bytes content count,
    last.data = some bytes ∧ files.get? path = some content ∧ Carries bytes count content ∧
      (count = bytes.length ∨ ∃ writer ∈ writers, writer.deposit.path = path ∧
        writer.written.length = count ∧ writer.written ++ writer.rest = bytes)
  agree : ∀ writer ∈ writers, ∃ last, Disk.lastUnder opened writer.deposit.path = some last ∧
    last.data = some (writer.written ++ writer.rest)

theorem mem_middle {γ : Type*} {front back : List γ} {item other : γ} :
    other ∈ front ++ item :: back ↔ other = item ∨ other ∈ front ++ back := by
  rw [List.mem_append, List.mem_cons, List.mem_append]
  exact or_left_comm

/-- Opening a file, if those who have it open write the same. -/
theorem Current.open (current : Current (front ++ back) opened files)
    (data : deposit.data = some rest)
    (quiet : ∀ writer ∈ front ++ back, writer.deposit.path = deposit.path →
      writer.written ++ writer.rest = rest) :
    Current (front ++ ⟨deposit, [], rest⟩ :: back) (opened ++ [deposit])
      (files.set deposit.path []) where
  untouched := by
    intro path none
    rw [Disk.lastUnder_concat] at none
    by_cases same : deposit.path = path
    · rw [if_pos same] at none
      cases none
    · rw [if_neg same] at none
      rw [Dict.get?_set, if_neg (Ne.symm same), current.untouched path none]
  covered := by
    intro path last under
    rw [Disk.lastUnder_concat] at under
    by_cases same : deposit.path = path
    · rw [if_pos same, Option.some.injEq] at under
      subst under
      refine ⟨rest, [], 0, data, ?_, carries_nil rest,
        .inr ⟨_, mem_middle.mpr (.inl rfl), same, rfl, rfl⟩⟩
      rw [same, Dict.get?_set_self]
    · rw [if_neg same] at under
      obtain ⟨bytes, content, count, held, found, carries, whole⟩ :=
        current.covered path last under
      refine ⟨bytes, content, count, held, ?_, carries, whole.imp_right fun some => ?_⟩
      · rw [Dict.get?_set, if_neg (Ne.symm same), found]
      · obtain ⟨writer, listed, far⟩ := some
        exact ⟨writer, mem_middle.mpr (.inr listed), far⟩
  agree := by
    intro writer listed
    rw [Disk.lastUnder_concat]
    cases mem_middle.mp listed with
    | inl own =>
        rw [own, if_pos rfl]
        exact ⟨deposit, rfl, data⟩
    | inr other =>
        by_cases same : deposit.path = writer.deposit.path
        · rw [if_pos same, quiet writer other same.symm]
          exact ⟨deposit, rfl, data⟩
        · rw [if_neg same]
          exact current.agree writer other

/-- Writing a piece. -/
theorem Current.write
    (current : Current (front ++ ⟨deposit, written, chunk ++ rest⟩ :: back) opened files) :
    Current (front ++ ⟨deposit, written ++ chunk, rest⟩ :: back) opened
      (files.set deposit.path
        (overlay hole written.length chunk (files.getD deposit.path []))) where
  untouched := by
    intro path none
    obtain ⟨last, under, _⟩ := current.agree _ (mem_middle.mpr (.inl rfl))
    have other : path ≠ deposit.path := by
      intro same
      rw [same, under] at none
      cases none
    rw [Dict.get?_set, if_neg other, current.untouched path none]
  covered := by
    intro path last under
    obtain ⟨bytes, content, count, held, found, carries, whole⟩ := current.covered path last under
    by_cases same : path = deposit.path
    · subst same
      obtain ⟨own, underToo, data⟩ := current.agree _ (mem_middle.mpr (.inl rfl))
      rw [under, Option.some.injEq] at underToo
      rw [← underToo, held, Option.some.injEq] at data
      dsimp only at data
      rw [← List.append_assoc] at data
      subst data
      obtain ⟨kept, further⟩ := @Carries.overlay _ hole _ _ _ _ _ carries
      rw [Dict.get?_set_self, Dict.getD, found, Option.getD_some]
      have own : ∃ writer ∈ front ++ ⟨deposit, written ++ chunk, rest⟩ :: back,
          writer.deposit.path = deposit.path ∧ writer.written.length = (written ++ chunk).length ∧
            writer.written ++ writer.rest = written ++ chunk ++ rest :=
        ⟨_, mem_middle.mpr (.inl rfl), rfl, rfl, rfl⟩
      rcases whole with all | ⟨writer, listed, place, far, text⟩
      · exact ⟨_, _, count, held, rfl, kept, .inl all⟩
      · cases mem_middle.mp listed with
        | inl mine =>
            subst mine
            exact ⟨_, _, _, held, rfl, further far.symm, .inr own⟩
        | inr other =>
            exact ⟨_, _, count, held, rfl, kept,
              .inr ⟨writer, mem_middle.mpr (.inr other), place, far, text⟩⟩
    · refine ⟨bytes, content, count, held, ?_, carries, whole.imp_right fun some => ?_⟩
      · rw [Dict.get?_set, if_neg same, found]
      · obtain ⟨writer, listed, place, far⟩ := some
        cases mem_middle.mp listed with
        | inl mine => exact (same (by rw [← place, mine])).elim
        | inr other => exact ⟨writer, mem_middle.mpr (.inr other), place, far⟩
  agree := by
    intro writer listed
    cases mem_middle.mp listed with
    | inl own =>
        rw [own]
        obtain ⟨last, under, data⟩ := current.agree _ (mem_middle.mpr (.inl rfl))
        exact ⟨last, under, by rw [data, List.append_assoc]⟩
    | inr other => exact current.agree writer (mem_middle.mpr (.inr other))

/-- Closing a file that is written. -/
theorem Current.close
    (current : Current (front ++ ⟨deposit, written, []⟩ :: back) opened files) :
    Current (front ++ back) opened files where
  untouched := current.untouched
  covered := by
    intro path last under
    obtain ⟨bytes, content, count, held, found, carries, whole⟩ := current.covered path last under
    refine ⟨bytes, content, count, held, found, carries, ?_⟩
    rcases whole with all | ⟨writer, listed, place, far, text⟩
    · exact .inl all
    · cases mem_middle.mp listed with
      | inl own =>
          subst own
          rw [List.append_nil] at text
          exact .inl (by rw [← far, ← text])
      | inr other => exact .inr ⟨writer, other, place, far, text⟩
  agree := fun writer listed => current.agree writer (mem_middle.mpr (.inr listed))

/-- When no file is open, each holds what was opened last. -/
theorem Current.get?_eq (current : Current [] opened files) (path : List α) :
    files.get? path = (Disk.lastUnder opened path).bind Deposit.data := by
  cases under : Disk.lastUnder opened path with
  | none => exact current.untouched path under
  | some last =>
      obtain ⟨bytes, content, count, held, found, carries, whole⟩ :=
        current.covered path last under
      rcases whole with all | ⟨_, listed, _⟩
      · subst all
        rw [found, Option.bind_some, held, carries.eq]
      · cases listed

end Contents

section Accounts

variable {hole workers} {deposits : List (Deposit α β)} {folders : List (List α)}
  {pool next : Pool α β}

/-- A path at which a file can be opened. -/
def Placeable (folders : List (List α)) (path : List α) : Prop :=
  path ≠ [] ∧ (path.dropLast = [] ∨ path.dropLast ∈ folders) ∧ path ∉ folders

/-- A deposit that can be stored. -/
def Fit (folders : List (List α)) (deposit : Deposit α β) : Prop :=
  deposit.data.isSome ∧ Placeable folders deposit.path

/-- What is known of a task. -/
def Task.Sound (folders : List (List α)) (task : Task α β) : Prop :=
  match task.phase with
  | .reading => True
  | .opening bytes => task.deposit.data = some bytes
  | .writing written rest =>
      task.deposit.data = some (written ++ rest) ∧ Placeable folders task.deposit.path

/-- One list is the other in some order, and in the same order when there is one worker. -/
def Rearranged (workers : Nat) (first second : List (Deposit α β)) : Prop :=
  first.Perm second ∧ (workers ≤ 1 → first = second)

/-- Nothing gets lost in a pool, and what is finished is known to be fit or not. -/
structure Accounts (workers : Nat) (deposits : List (Deposit α β)) (folders : List (List α))
    (pool : Pool α β) : Prop where
  few : pool.running.length ≤ workers
  held : Rearranged workers pool.held deposits
  opened : Rearranged workers pool.opened pool.begun
  kept : pool.disk.folders = folders
  finished : ∀ entry ∈ pool.finished, entry.2 = true ↔ Fit folders entry.1
  tasks : ∀ task ∈ pool.running, task.Sound folders

omit [DecidableEq α] in
theorem Rearranged.trans {first second third : List (Deposit α β)}
    (left : Rearranged workers first second) (right : Rearranged workers second third) :
    Rearranged workers first third :=
  ⟨left.1.trans right.1, fun one => (left.2 one).trans (right.2 one)⟩

omit [DecidableEq α] in
/-- An item of the middle goes to the front of it. -/
theorem rearranged_front {before front back : List (Deposit α β)} {item : Deposit α β}
    (first : workers ≤ 1 → front = []) :
    Rearranged workers (before ++ [item] ++ (front ++ back))
      (before ++ (front ++ item :: back)) := by
  rw [List.append_assoc, List.singleton_append]
  refine ⟨List.Perm.append_left _ List.perm_middle.symm, fun one => ?_⟩
  rw [first one]
  rfl

omit [DecidableEq α] in
/-- An item behind the middle goes into it. -/
theorem rearranged_back {before front back : List (Deposit α β)} {item : Deposit α β}
    (last : workers ≤ 1 → back = []) :
    Rearranged workers (before ++ (front ++ back) ++ [item])
      (before ++ (front ++ item :: back)) := by
  refine ⟨?_, fun one => ?_⟩
  · rw [List.append_assoc, List.append_assoc]
    exact List.Perm.append_left _ (List.Perm.append_left _ List.perm_append_comm)
  · rw [last one, List.append_nil, List.append_assoc]

omit [DecidableEq α] in
theorem Rearranged.symm {first second : List (Deposit α β)}
    (rearranged : Rearranged workers first second) : Rearranged workers second first :=
  ⟨rearranged.1.symm, fun one => (rearranged.2 one).symm⟩

omit [DecidableEq α] in
/-- More deposits can follow what is rearranged. -/
theorem Rearranged.append_right {first second : List (Deposit α β)}
    (rearranged : Rearranged workers first second) (after : List (Deposit α β)) :
    Rearranged workers (first ++ after) (second ++ after) :=
  ⟨rearranged.1.append_right after, fun one => by rw [rearranged.2 one]⟩

/-- A file can be made exactly where its place is not taken by a folder or below a file. -/
theorem create_isSome_iff {disk : Disk α β} {path : List α} :
    (∃ made, disk.create path = some made) ↔ Placeable disk.folders path := by
  simp only [Disk.create_eq_some_iff, exists_and_left, exists_eq, and_true]
  rfl

variable {front back : List (Task α β)} {task other : Task α β}

omit [DecidableEq α] in
/-- A single worker works on one deposit at most. -/
theorem Accounts.alone (accounts : Accounts workers deposits folders pool)
    (place : pool.running = front ++ task :: back) (one : workers ≤ 1) :
    front = [] ∧ back = [] := by
  have few := accounts.few
  rw [place, List.length_append, List.length_cons] at few
  exact ⟨List.length_eq_zero_iff.mp (by omega), List.length_eq_zero_iff.mp (by omega)⟩

omit [DecidableEq α] in
/-- The writers are those in front of a task, its own and those behind it. -/
theorem writers_middle (place : pool.running = front ++ task :: back) :
    pool.writers = front.filterMap Task.writer ++ task.writer.toList ++
      back.filterMap Task.writer := by
  rw [Pool.writers, place, List.filterMap_append, List.append_assoc]
  congr 1
  rw [List.filterMap_cons]
  cases task.writer <;> rfl

omit [DecidableEq α] in
theorem writers_removed {pool : Pool α β} (place : pool.running = front ++ back) :
    pool.writers = front.filterMap Task.writer ++ back.filterMap Task.writer := by
  rw [Pool.writers, place, List.filterMap_append]

omit [DecidableEq α] in
/-- A task goes on, and no file is opened or closed. -/
theorem Accounts.advance (accounts : Accounts workers deposits folders pool)
    (place : pool.running = front ++ task :: back) (same : other.deposit = task.deposit)
    (sound : other.Sound folders)
    (files : other.writer.map Writer.deposit = task.writer.map Writer.deposit) {disk : Disk α β}
    (kept : disk.folders = pool.disk.folders) :
    Accounts workers deposits folders
      { pool with running := front ++ other :: back, disk := disk } where
  few := by
    have few := accounts.few
    rw [place, List.length_append, List.length_cons] at few
    rwa [List.length_append, List.length_cons]
  held := by
    have held := accounts.held
    rw [Pool.held, place, List.map_append, List.map_cons, ← same, ← List.map_cons,
      ← List.map_append] at held
    exact held
  opened := by
    have begun : pool.begun =
        Pool.begun { pool with running := front ++ other :: back, disk := disk } := by
      rw [Pool.begun, Pool.begun, writers_middle place, writers_middle rfl]
      simp only [List.map_append, ← Option.toList_map, files]
    rw [← begun]
    exact accounts.opened
  kept := kept.trans accounts.kept
  finished := accounts.finished
  tasks := by
    intro known listed
    cases mem_middle.mp listed with
    | inl own => rwa [own]
    | inr others =>
        apply accounts.tasks known
        rw [place]
        exact mem_middle.mpr (.inr others)

omit [DecidableEq α] in
/-- A task opens its file. -/
theorem Accounts.open (accounts : Accounts workers deposits folders pool)
    {deposit : Deposit α β} {bytes : List β}
    (place : pool.running = front ++ ⟨deposit, .opening bytes⟩ :: back)
    (data : deposit.data = some bytes) (placeable : Placeable folders deposit.path)
    {disk : Disk α β} (kept : disk.folders = pool.disk.folders) :
    Accounts workers deposits folders
      { pool with
        running := front ++ ⟨deposit, .writing [] bytes⟩ :: back
        opened := pool.opened ++ [deposit]
        disk := disk } where
  few := by
    have few := accounts.few
    rw [place, List.length_append, List.length_cons] at few
    rwa [List.length_append, List.length_cons]
  held := by
    have held := accounts.held
    rw [Pool.held, place] at held
    simp only [List.map_append, List.map_cons] at held
    rw [Pool.held]
    simp only [List.map_append, List.map_cons]
    exact held
  opened := by
    refine (accounts.opened.append_right [deposit]).trans ?_
    have closed : Task.writer ⟨deposit, .opening bytes⟩ = none := rfl
    have opens : Task.writer ⟨deposit, .writing [] bytes⟩ = some ⟨deposit, [], bytes⟩ := rfl
    rw [Pool.begun, Pool.begun, writers_middle place, writers_middle rfl, closed, opens]
    simp only [Option.toList_none, List.append_nil, Option.toList_some, List.map_append,
      List.map_cons, List.map_nil]
    rw [List.append_assoc (List.map _ (List.filterMap _ front)), List.singleton_append]
    exact rearranged_back fun one => by rw [(accounts.alone place one).2]; rfl
  kept := kept.trans accounts.kept
  finished := accounts.finished
  tasks := by
    intro known listed
    cases mem_middle.mp listed with
    | inl own =>
        rw [own]
        exact ⟨data, placeable⟩
    | inr others =>
        apply accounts.tasks known
        rw [place]
        exact mem_middle.mpr (.inr others)

omit [DecidableEq α] in
/-- A task comes to its end. -/
theorem Accounts.leave (accounts : Accounts workers deposits folders pool)
    (place : pool.running = front ++ task :: back) {success : Bool}
    (right : success = true ↔ Fit folders task.deposit)
    (files : task.writer.map Writer.deposit = if success then some task.deposit else none) :
    Accounts workers deposits folders
      { pool with
        running := front ++ back
        finished := pool.finished ++ [(task.deposit, success)] } where
  few := by
    have few := accounts.few
    rw [place, List.length_append, List.length_cons] at few
    rw [List.length_append]
    omega
  held := by
    refine Rearranged.trans ?_ accounts.held
    rw [Pool.held, Pool.held, place]
    simp only [List.map_append, List.map_cons, List.map_nil]
    apply Rearranged.append_right
    exact rearranged_front fun one => by rw [(accounts.alone place one).1, List.map_nil]
  opened := by
    refine accounts.opened.trans ?_
    rw [Pool.begun, Pool.begun, writers_middle place, writers_removed rfl]
    cases success with
    | false =>
        have closed : task.writer = none := Option.map_eq_none_iff.mp files
        simp only [closed, Option.toList_none, List.append_nil, List.filter_append,
          List.filter_cons, List.filter_nil, Bool.false_eq_true, ↓reduceIte]
        exact ⟨List.Perm.refl _, fun _ => rfl⟩
    | true =>
        rw [if_pos rfl] at files
        obtain ⟨writer, opens, named⟩ := Option.map_eq_some_iff.mp files
        simp only [opens, Option.toList_some, List.map_append, List.map_cons, List.map_nil, named,
          List.filter_append, List.filter_cons, List.filter_nil, ↓reduceIte]
        rw [List.append_assoc (List.map _ (List.filterMap _ front)), List.singleton_append]
        apply Rearranged.symm
        exact rearranged_front fun one => by rw [(accounts.alone place one).1]; rfl
  kept := accounts.kept
  finished := by
    intro entry listed
    cases List.mem_append.mp listed with
    | inl before => exact accounts.finished entry before
    | inr now =>
        rw [List.mem_singleton.mp now]
        exact right
  tasks := by
    intro known listed
    apply accounts.tasks known
    rw [place]
    exact mem_middle.mpr (.inr listed)

omit [DecidableEq α] in
/-- A task that writes is sound where what it has written and what is left are its data. -/
theorem sound_writing {deposit : Deposit α β} {written rest : List β} :
    Task.Sound folders ⟨deposit, .writing written rest⟩ ↔
      deposit.data = some (written ++ rest) ∧ Placeable folders deposit.path := Iff.rfl

omit [DecidableEq α] in
/-- Who has a file open writes its deposit. -/
theorem data_of_writer {writer : Writer α β} (opens : task.writer = some writer)
    (sound : task.Sound folders) :
    writer.deposit = task.deposit ∧ task.deposit.data = some (writer.written ++ writer.rest) := by
  obtain ⟨deposit, phase⟩ := task
  cases phase with
  | reading => cases opens
  | opening bytes => cases opens
  | writing written rest =>
      cases opens
      exact ⟨rfl, sound.1⟩

omit [DecidableEq α] in
/-- What is running was handed over. -/
theorem Accounts.mem_of_running (accounts : Accounts workers deposits folders pool)
    (running : task ∈ pool.running) : task.deposit ∈ deposits := by
  apply accounts.held.1.mem_iff.mp
  exact List.mem_append_left _ (List.mem_append_right _ (List.mem_map_of_mem running))

/-- **Accounts.** Every step keeps them. -/
theorem Accounts.step (accounts : Accounts workers deposits folders pool)
    (step : Step hole workers pool next) : Accounts workers deposits folders next := by
  have known : ∀ {front back : List (Task α β)} {task : Task α β},
      pool.running = front ++ task :: back → task.Sound folders := by
    intro front back task place
    apply accounts.tasks
    rw [place]
    exact mem_middle.mpr (.inl rfl)
  cases step with
  | @start deposit rest queued room =>
      refine ⟨?_, ?_, ?_, accounts.kept, accounts.finished, ?_⟩
      · rw [List.length_append, List.length_singleton]
        exact room
      · have held := accounts.held
        rw [Pool.held, queued] at held
        rw [Pool.held, List.map_append, ← List.append_assoc, List.append_assoc]
        exact held
      · have same : Pool.writers { pool with
            waiting := rest, running := pool.running ++ [⟨deposit, .reading⟩] } = pool.writers := by
          rw [Pool.writers, List.filterMap_append]
          exact List.append_nil _
        rw [Pool.begun, same]
        exact accounts.opened
      · intro task listed
        cases List.mem_append.mp listed with
        | inl before => exact accounts.tasks task before
        | inr now =>
            rw [List.mem_singleton.mp now]
            trivial
  | read place readable =>
      apply accounts.advance place
      · rfl
      · exact readable
      · rfl
      · rfl
  | failRead place unreadable =>
      refine accounts.leave place (iff_of_false Bool.false_ne_true ?_) rfl
      intro fit
      rw [Fit, unreadable] at fit
      cases fit.1
  | @«open» front deposit back bytes disk place created =>
      have placeable := create_isSome_iff.mp ⟨disk, created⟩
      rw [accounts.kept] at placeable
      obtain ⟨_, rfl⟩ := Disk.create_eq_some_iff.mp created
      exact accounts.open place (known place) placeable rfl
  | @failOpen front deposit back bytes place refused =>
      refine accounts.leave place (iff_of_false Bool.false_ne_true ?_) rfl
      intro fit
      obtain ⟨made, created⟩ := create_isSome_iff.mpr (by rw [accounts.kept]; exact fit.2)
      rw [refused] at created
      cases created
  | write place some =>
      have writing := sound_writing.mp (known place)
      apply accounts.advance place
      · rfl
      · refine sound_writing.mpr ⟨?_, writing.2⟩
        rw [List.append_assoc]
        exact writing.1
      · rfl
      · rfl
  | finish place =>
      have written := sound_writing.mp (known place)
      refine accounts.leave place (iff_of_true rfl ⟨?_, written.2⟩) rfl
      rw [written.1]
      rfl

/-- Whoever work on one path at once have the same to write. -/
def Pool.Calm (pool : Pool α β) : Prop :=
  ∀ front task back, pool.running = front ++ task :: back → ∀ other ∈ front ++ back,
    other.deposit.path = task.deposit.path → other.deposit.data = task.deposit.data

/-- **Contents.** A step of a calm pool keeps the files at what was opened last. -/
theorem Current.step (current : Current pool.writers pool.opened pool.disk.files)
    (accounts : Accounts workers deposits folders pool) (calm : pool.Calm)
    (step : Step hole workers pool next) : Current next.writers next.opened next.disk.files := by
  cases step with
  | @start deposit rest queued room =>
      have same : Pool.writers { pool with
          waiting := rest, running := pool.running ++ [⟨deposit, .reading⟩] } = pool.writers := by
        rw [Pool.writers, List.filterMap_append]
        exact List.append_nil _
      rw [same]
      exact current
  | read place readable =>
      rw [writers_middle place] at current
      rw [writers_middle rfl]
      exact current
  | failRead place unreadable =>
      rw [writers_middle place, Task.writer, Option.toList_none, List.append_nil] at current
      rw [writers_removed rfl]
      exact current
  | @«open» front deposit back bytes disk place created =>
      obtain ⟨_, rfl⟩ := Disk.create_eq_some_iff.mp created
      rw [writers_middle place, Task.writer, Option.toList_none, List.append_nil] at current
      rw [writers_middle rfl, Task.writer, Option.toList_some, List.append_assoc,
        List.singleton_append]
      have read : deposit.data = some bytes :=
        accounts.tasks ⟨deposit, .opening bytes⟩ (by rw [place]; exact mem_middle.mpr (.inl rfl))
      apply current.open read
      intro writer listed same
      rw [← List.filterMap_append, List.mem_filterMap] at listed
      obtain ⟨task, running, opens⟩ := listed
      have sound := accounts.tasks task (by rw [place]; exact mem_middle.mpr (.inr running))
      obtain ⟨named, data⟩ := data_of_writer opens sound
      rw [named] at same
      have alike := calm _ _ _ place task running same
      rw [data, read, Option.some.injEq] at alike
      exact alike
  | failOpen place refused =>
      rw [writers_middle place, Task.writer, Option.toList_none, List.append_nil] at current
      rw [writers_removed rfl]
      exact current
  | write place some =>
      rw [writers_middle place, Task.writer, Option.toList_some, List.append_assoc,
        List.singleton_append] at current
      rw [writers_middle rfl, Task.writer, Option.toList_some, List.append_assoc,
        List.singleton_append]
      exact current.write
  | finish place =>
      rw [writers_middle place, Task.writer, Option.toList_some, List.append_assoc,
        List.singleton_append] at current
      rw [writers_removed rfl]
      exact current.close

end Accounts

/-- A pool that deposits have been handed to. -/
def Pool.handed (deposits : List (Deposit α β)) (disk : Disk α β) : Pool α β where
  waiting := deposits
  disk := disk

/-- Deposits under one path have one content. -/
def Unequivocal (deposits : List (Deposit α β)) : Prop :=
  ∀ deposit ∈ deposits, ∀ other ∈ deposits, deposit.path = other.path → deposit.data = other.data

section Runs

variable {hole workers} {deposits : List (Deposit α β)} {disk : Disk α β} {pool next : Pool α β}

/-- The accounts hold in every state of the pool. -/
theorem accounts_of_reachable (reachable : Reachable hole workers (.handed deposits disk) pool) :
    Accounts workers deposits disk.folders pool := by
  induction reachable with
  | refl =>
      exact ⟨Nat.zero_le _, ⟨List.Perm.refl _, fun _ => rfl⟩, ⟨List.Perm.refl _, fun _ => rfl⟩, rfl,
        List.forall_mem_nil _, List.forall_mem_nil _⟩
  | step _ step ih => exact ih.step step

/-- At every moment, each file is that of a deposit. -/
theorem exists_deposit_of_file (empty : disk.files = .empty)
    (reachable : Reachable hole workers (.handed deposits disk) pool) :
    ∀ path ∈ pool.disk.files.keys, ∃ deposit ∈ deposits, deposit.path = path := by
  have bound : ∀ {files : Dict (List α) (List β)} {deposit : Deposit α β} {bytes : List β},
      deposit ∈ deposits → (∀ path ∈ files.keys, ∃ known ∈ deposits, known.path = path) →
        ∀ path ∈ (files.set deposit.path bytes).keys, ∃ known ∈ deposits, known.path = path := by
    intro files deposit bytes given before path listed
    obtain ⟨content, found⟩ := (Dict.mem_keys_iff _ _).mp listed
    rw [Dict.get?_set] at found
    by_cases same : path = deposit.path
    · exact ⟨deposit, given, same.symm⟩
    · rw [if_neg same] at found
      exact before path ((Dict.mem_keys_iff _ _).mpr ⟨content, found⟩)
  induction reachable with
  | refl =>
      rw [Pool.handed, empty]
      exact List.forall_mem_nil _
  | @step pool next before step ih =>
      have given : ∀ task ∈ pool.running, task.deposit ∈ deposits :=
        fun _ running => (accounts_of_reachable before).mem_of_running running
      cases step with
      | start queued room => exact ih
      | read place readable => exact ih
      | failRead place unreadable => exact ih
      | «open» place created =>
          obtain ⟨_, rfl⟩ := Disk.create_eq_some_iff.mp created
          rw [place] at given
          exact bound (given _ (mem_middle.mpr (.inl rfl))) ih
      | failOpen place refused => exact ih
      | write place some =>
          rw [place] at given
          exact bound (given _ (mem_middle.mpr (.inl rfl))) ih
      | finish place => exact ih

/-- In a pool that stays calm the files are those of the last writers. -/
theorem current_of_reachable (empty : disk.files = .empty)
    (calm : ∀ pool, Reachable hole workers (.handed deposits disk) pool → pool.Calm)
    (reachable : Reachable hole workers (.handed deposits disk) pool) :
    Current pool.writers pool.opened pool.disk.files := by
  induction reachable with
  | refl =>
      refine ⟨fun path _ => ?_, fun path last under => ?_, List.forall_mem_nil _⟩
      · rw [Pool.handed, empty, Dict.get?_empty]
      · cases under
  | step before step ih => exact ih.step (accounts_of_reachable before) (calm _ before) step

/-- Where nothing was before, the deposits are fit for the folders made for them exactly when
they can be stored one after the other. -/
theorem fit_of_prepared (filled : ∀ deposit ∈ deposits, deposit.path ≠ [])
    (prepared : Disk.fresh.prepare deposits = some disk) :
    disk.files = .empty ∧
      ((∀ deposit ∈ deposits, Fit disk.folders deposit) ↔ Storable deposits) := by
  obtain ⟨made, goes, empty, folders⟩ :=
    @Disk.exists_prepare α β _ .fresh deposits rfl
  rw [prepared, Option.some.injEq] at goes
  subst goes
  have inside : ∀ path, path ∈ disk.folders ↔ ∃ deposit ∈ deposits,
      path <+: deposit.path.dropLast := by
    intro path
    rw [folders, Disk.fresh]
    exact or_iff_right List.not_mem_nil
  refine ⟨empty, fun fit => ⟨fun deposit given => (fit deposit given).1, ?_⟩, fun storable => ?_⟩
  · intro deposit given other givenToo leads
    exact (fit deposit given).2.2.2 ((inside _).mpr ⟨other, givenToo, leads⟩)
  · intro deposit given
    refine ⟨storable.readable deposit given, filled deposit given,
      .inr ((inside _).mpr ⟨deposit, given, List.prefix_refl _⟩), fun folder => ?_⟩
    obtain ⟨other, givenToo, leads⟩ := (inside _).mp folder
    exact storable.apart deposit given other givenToo leads

/-- A single worker, or deposits that say the same, make a pool calm. -/
theorem calm_of_reachable (quiet : workers ≤ 1 ∨ Unequivocal deposits)
    (reachable : Reachable hole workers (.handed deposits disk) pool) : pool.Calm := by
  have accounts := accounts_of_reachable reachable
  intro front task back place other listed same
  cases quiet with
  | inl one =>
      obtain ⟨rfl, rfl⟩ := accounts.alone place one
      cases listed
  | inr alike =>
      have given : ∀ task ∈ pool.running, task.deposit ∈ deposits :=
        fun _ running => accounts.mem_of_running running
      rw [place] at given
      exact alike _ (given other (mem_middle.mpr (.inr listed))) _
        (given task (mem_middle.mpr (.inl rfl))) same

/-- **Success.** A pool at its end has succeeded exactly when every deposit is fit. -/
theorem successful_iff (reachable : Reachable hole workers (.handed deposits disk) pool)
    (completed : pool.Completed) :
    pool.successful = true ↔ ∀ deposit ∈ deposits, Fit disk.folders deposit := by
  have accounts := accounts_of_reachable reachable
  have held := accounts.held.1
  rw [Pool.held, completed.1, completed.2, List.map_nil, List.append_nil, List.append_nil] at held
  rw [Pool.successful, List.all_eq_true]
  constructor
  · intro success deposit given
    obtain ⟨entry, listed, rfl⟩ := List.mem_map.mp (held.mem_iff.mpr given)
    exact (accounts.finished entry listed).mp (success entry listed)
  · intro fit entry listed
    apply (accounts.finished entry listed).mpr
    exact fit entry.1 (held.mem_iff.mp (List.mem_map_of_mem listed))

/-- A pool that has succeeded has opened the file of every deposit. -/
theorem opened_of_successful (reachable : Reachable hole workers (.handed deposits disk) pool)
    (completed : pool.Completed) (successful : pool.successful = true) :
    Rearranged workers pool.opened deposits := by
  have accounts := accounts_of_reachable reachable
  have same : pool.begun = pool.held := by
    rw [Pool.begun, Pool.held, Pool.writers, completed.1, completed.2,
      List.filter_eq_self.mpr (List.all_eq_true.mp successful)]
    exact (List.append_nil _).symm
  have opened := accounts.opened
  rw [same] at opened
  exact opened.trans accounts.held

/-- What was opened last under a path holds what the last deposit under it does. -/
theorem lastUnder_opened (quiet : workers ≤ 1 ∨ Unequivocal deposits)
    {opened : List (Deposit α β)} (rearranged : Rearranged workers opened deposits)
    (path : List α) :
    (Disk.lastUnder opened path).bind Deposit.data =
      (Disk.lastUnder deposits path).bind Deposit.data := by
  cases quiet with
  | inl one => rw [rearranged.2 one]
  | inr alike =>
      cases under : Disk.lastUnder opened path with
      | some last =>
          obtain ⟨listed, rfl⟩ := Disk.mem_of_lastUnder under
          have given := rearranged.1.mem_iff.mp listed
          obtain ⟨other, underToo⟩ := Disk.exists_lastUnder given
          obtain ⟨givenToo, same⟩ := Disk.mem_of_lastUnder underToo
          rw [underToo, Option.bind_some, Option.bind_some]
          exact alike last given other givenToo same.symm
      | none =>
          cases underToo : Disk.lastUnder deposits path with
          | none => rfl
          | some other =>
              obtain ⟨given, rfl⟩ := Disk.mem_of_lastUnder underToo
              obtain ⟨last, found⟩ := Disk.exists_lastUnder (rearranged.1.mem_iff.mpr given)
              rw [under] at found
              cases found

/-- **Contents.** Behind a successful run of a calm pool each file holds what the last deposit
under its path does. -/
theorem files_of_successful (quiet : workers ≤ 1 ∨ Unequivocal deposits)
    (empty : disk.files = .empty) (reachable : Reachable hole workers (.handed deposits disk) pool)
    (completed : pool.Completed) (successful : pool.successful = true) (path : List α) :
    pool.disk.files.get? path = (Disk.lastUnder deposits path).bind Deposit.data := by
  have current := current_of_reachable empty (fun _ => calm_of_reachable quiet) reachable
  rw [Pool.writers, completed.2] at current
  rw [current.get?_eq path,
    lastUnder_opened quiet (opened_of_successful reachable completed successful)]

end Runs

section Schedules

variable {hole workers} {start pool : Pool α β} {deposit : Deposit α β}

/-- A deposit that has been read is finished before any other goes on. -/
theorem exists_finished {front back : List (Task α β)} {bytes : List β}
    (reachable : Reachable hole workers start pool)
    (place : pool.running = front ++ ⟨deposit, .opening bytes⟩ :: back)
    (placeable : Placeable pool.disk.folders deposit.path) :
    ∃ next, Reachable hole workers start next ∧ next.waiting = pool.waiting ∧
      next.running = front ++ back ∧ next.disk.folders = pool.disk.folders ∧
        next.disk.files.get? deposit.path = some bytes := by
  obtain ⟨made, created⟩ := create_isSome_iff.mpr placeable
  have opened := reachable.step (.open place created)
  obtain ⟨_, rfl⟩ := Disk.create_eq_some_iff.mp created
  by_cases nothing : bytes = []
  · subst nothing
    exact ⟨_, opened.step (.finish rfl), rfl, rfl, rfl, Dict.get?_set_self _ _ _⟩
  · have pieces : bytes = bytes ++ [] := (List.append_nil bytes).symm
    rw [pieces] at opened
    have written := opened.step (.write rfl nothing)
    refine ⟨_, written.step (.finish rfl), rfl, rfl, rfl, ?_⟩
    exact (Disk.get?_writeAt_set pool.disk deposit.path bytes deposit.path).trans (if_pos rfl)

/-- The next deposit is taken up and finished before any other goes on. -/
theorem exists_stored {rest : List (Deposit α β)} (reachable : Reachable hole workers start pool)
    (queued : pool.waiting = deposit :: rest) (room : pool.running.length < workers)
    (fit : Fit pool.disk.folders deposit) :
    ∃ next, Reachable hole workers start next ∧ next.waiting = rest ∧
      next.running = pool.running ∧ next.disk.folders = pool.disk.folders := by
  obtain ⟨bytes, data⟩ := Option.isSome_iff_exists.mp fit.1
  have started := reachable.step (.start queued room)
  have read := started.step (.read rfl data)
  obtain ⟨next, reached, waiting, running, folders, _⟩ := exists_finished read rfl fit.2
  exact ⟨next, reached, waiting, by rw [running, List.append_nil], folders⟩

/-- So are several. -/
theorem exists_stored_all {several rest : List (Deposit α β)}
    (reachable : Reachable hole workers start pool) (queued : pool.waiting = several ++ rest)
    (room : pool.running.length < workers)
    (fit : ∀ deposit ∈ several, Fit pool.disk.folders deposit) :
    ∃ next, Reachable hole workers start next ∧ next.waiting = rest ∧
      next.running = pool.running ∧ next.disk.folders = pool.disk.folders := by
  induction several generalizing pool with
  | nil => exact ⟨pool, reachable, queued, rfl, rfl⟩
  | cons deposit others ih =>
      obtain ⟨fitting, fit⟩ := List.forall_mem_cons.mp fit
      obtain ⟨next, reached, waiting, running, folders⟩ :=
        exists_stored reachable queued room fitting
      rw [← running] at room
      rw [← folders] at fit
      obtain ⟨last, reached, waiting, runningToo, foldersToo⟩ := ih reached waiting room fit
      exact ⟨last, reached, waiting, runningToo.trans running, foldersToo.trans folders⟩

/-- **Overtaking.** With two workers a deposit can be read in its turn and written after all
that come later. -/
theorem exists_overtaken {before after : List (Deposit α β)} {disk : Disk α β}
    (two : 1 < workers)
    (fit : ∀ known ∈ before ++ deposit :: after, Fit disk.folders known) :
    ∃ pool, Reachable hole workers (.handed (before ++ deposit :: after) disk) pool ∧
      pool.Completed ∧ pool.disk.files.get? deposit.path = deposit.data := by
  rw [List.forall_mem_append, List.forall_mem_cons] at fit
  obtain ⟨fitBefore, own, fitAfter⟩ := fit
  obtain ⟨bytes, data⟩ := Option.isSome_iff_exists.mp own.1
  have handed : Reachable hole workers (.handed (before ++ deposit :: after) disk)
      (.handed (before ++ deposit :: after) disk) := .refl
  obtain ⟨first, reached, waiting, running, folders⟩ :=
    exists_stored_all handed rfl (Nat.lt_of_succ_lt two) fitBefore
  have idle : first.running = [] := running
  have kept : first.disk.folders = disk.folders := folders
  have started := reached.step (.start waiting (by rw [idle]; exact Nat.lt_of_succ_lt two))
  have read := started.step (.read rfl data)
  rw [idle] at read
  rw [← kept] at own fitAfter
  obtain ⟨second, reached, waiting, running, folders⟩ :=
    exists_stored_all read (List.append_nil after).symm two fitAfter
  have keptToo : second.disk.folders = first.disk.folders := folders
  rw [← keptToo] at own
  obtain ⟨third, reached, waitingToo, runningToo, _, found⟩ :=
    exists_finished reached running own.2
  refine ⟨third, reached, ⟨?_, runningToo⟩, ?_⟩
  · rw [waitingToo, waiting]
  · rw [found, data]

end Schedules

section Progress

variable {hole workers} {pool next : Pool α β}

/-- The steps that a deposit still takes at most. -/
def Task.left (task : Task α β) : Nat :=
  match task.phase with
  | .reading => (task.deposit.data.getD []).length + 3
  | .opening bytes => bytes.length + 2
  | .writing _ rest => rest.length + 1

/-- The steps of several tasks. -/
def totalLeft : List (Task α β) → Nat
  | [] => 0
  | task :: rest => task.left + totalLeft rest

/-- The steps that a pool still takes at most. -/
def Pool.left (pool : Pool α β) : Nat :=
  totalLeft (pool.waiting.map fun deposit => ⟨deposit, .reading⟩) + pool.waiting.length +
    totalLeft pool.running

omit [DecidableEq α] in
theorem totalLeft_append (front back : List (Task α β)) :
    totalLeft (front ++ back) = totalLeft front + totalLeft back := by
  induction front with
  | nil => rw [List.nil_append, totalLeft, Nat.zero_add]
  | cons task rest ih => rw [List.cons_append, totalLeft, totalLeft, ih, Nat.add_assoc]

/-- **Progress.** A step leaves fewer steps, and a pool with a worker that is not at its end
can make one. -/
theorem left_lt (step : Step hole workers pool next) : next.left < pool.left := by
  cases step with
  | start queued room =>
      simp only [Pool.left, queued, totalLeft_append, List.map_cons, totalLeft, List.length_cons]
      omega
  | read place readable =>
      simp only [Pool.left, place, totalLeft_append, totalLeft, Task.left, readable,
        Option.getD_some]
      omega
  | failRead place unreadable =>
      simp only [Pool.left, place, totalLeft_append, totalLeft, Task.left]
      omega
  | «open» place created =>
      simp only [Pool.left, place, totalLeft_append, totalLeft, Task.left]
      omega
  | failOpen place refused =>
      simp only [Pool.left, place, totalLeft_append, totalLeft, Task.left]
      omega
  | write place some =>
      have filled := List.length_pos_iff.mpr some
      simp only [Pool.left, place, totalLeft_append, totalLeft, Task.left, List.length_append]
      omega
  | finish place =>
      simp only [Pool.left, place, totalLeft_append, totalLeft, Task.left]
      omega

/-- A pool with a worker can go on until it is completed. -/
theorem exists_step (staffed : 0 < workers) (unfinished : ¬ pool.Completed) :
    ∃ next, Step hole workers pool next := by
  cases busy : pool.running with
  | nil =>
      have queued : pool.waiting ≠ [] := fun none => unfinished ⟨none, busy⟩
      obtain ⟨deposit, rest, queued⟩ := List.exists_cons_of_ne_nil queued
      exact ⟨_, .start queued (by rw [busy]; exact staffed)⟩
  | cons task back =>
      obtain ⟨deposit, phase⟩ := task
      cases phase with
      | reading =>
          cases data : deposit.data with
          | none => exact ⟨_, @Step.failRead _ _ _ _ _ _ [] _ _ busy data⟩
          | some bytes => exact ⟨_, @Step.read _ _ _ _ _ _ [] _ _ _ busy data⟩
      | opening bytes =>
          cases created : pool.disk.create deposit.path with
          | none => exact ⟨_, @Step.failOpen _ _ _ _ _ _ [] _ _ _ busy created⟩
          | some disk => exact ⟨_, @Step.open _ _ _ _ _ _ [] _ _ _ _ busy created⟩
      | writing written rest =>
          cases rest with
          | nil => exact ⟨_, @Step.finish _ _ _ _ _ _ [] _ _ _ busy⟩
          | cons byte others =>
              exact ⟨_, @Step.write _ _ _ _ _ _ [] _ _ _ [byte] others busy
                (List.cons_ne_nil _ _)⟩

/-- **End.** A pool with a worker comes to its end from wherever it is. -/
theorem exists_completed (staffed : 0 < workers) (pool : Pool α β) :
    ∃ last, Reachable hole workers pool last ∧ last.Completed := by
  have onward : ∀ (fuel : Nat) (current : Pool α β), current.left < fuel →
      Reachable hole workers pool current →
        ∃ last, Reachable hole workers pool last ∧ last.Completed := by
    intro fuel
    induction fuel with
    | zero => exact fun current below => (Nat.not_lt_zero _ below).elim
    | succ fuel ih =>
        intro current below reachable
        by_cases ended : current.Completed
        · exact ⟨current, reachable, ended⟩
        · obtain ⟨next, step⟩ := exists_step staffed ended
          exact ih next (by have fewer := left_lt step; omega) (reachable.step step)
  exact onward (pool.left + 1) pool (Nat.lt_succ_self _) .refl

end Progress

end GraphIngest.Foundation.WritePool
