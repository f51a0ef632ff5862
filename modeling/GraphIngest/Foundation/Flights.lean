import Mathlib.Data.List.Nodup
import Mathlib.Data.List.Perm.Basic
import Mathlib.Data.List.Range
import Mathlib.Order.WellFounded

/-! # Batches in flight

A caller takes batches one by one from a source and has each of them executed. With one
worker it executes a batch itself before it takes the next. With several it hands the first
ones to a pool, waits until some are done, and for each of these, in any order, takes its
result, reports the progress and hands over one batch more. When a batch has failed, or the
source or the report raises, it hands over no more, and raises as soon as the pool is idle.

No batch is executed twice, the batches in flight are no more than the workers, the progress
does not go back, and what is returned is the number of all rows, every batch having been
executed with success. Every run comes to an end, and to no other than by a return or a raise.
-/

namespace GraphIngest.Foundation.Flights

/-- Where the caller is. Without a pool: before the next batch, in the call for one, before the
report. With a pool: filling it, with room for some more; waiting; taking the results of those
done; before the report; before the refill. Then: an exception is on its way; raised;
returned. -/
inductive Control
  | looping
  | calling (job : Nat)
  | noting
  | filling (room : Nat)
  | waiting
  | taking (done : List Nat)
  | reporting (done : List Nat)
  | refilling (done : List Nat)
  | failing
  | raised
  | returned (total : Nat)

/-- Where the source or the report can raise. -/
def Control.mayRaise : Control → Bool
  | looping | noting | filling _ | reporting _ | refilling _ => true
  | calling _ | waiting | taking _ | failing | raised | returned _ => false

/-- The state of the caller and of the executions: the number of batches taken, those in flight
by their place, those being executed, those executed with their success, all executions in the
order of their begin; the rows counted and the counts reported. -/
structure State where
  control : Control
  cursor : Nat := 0
  inFlight : List Nat := []
  running : List Nat := []
  settled : List (Nat × Bool) := []
  started : List Nat := []
  written : Nat := 0
  reports : List Nat := []

/-- The state at the call. -/
def start (limit : Nat) : State where
  control := if limit ≤ 1 then .looping else .filling limit

variable {ρ : Type*} (batches : List (List ρ)) (limit : Nat)

/-- The rows of the batch at a place. -/
def rowsAt (job : Nat) : List ρ := batches.getD job []

/-- A step of the caller or of an execution. -/
inductive Step : State → State → Prop
  | pull {state} (place : state.control = .looping) (more : state.cursor < batches.length) :
      Step state
        { state with
          control := .calling state.cursor
          cursor := state.cursor + 1
          inFlight := state.inFlight ++ [state.cursor]
          running := state.running ++ [state.cursor]
          started := state.started ++ [state.cursor] }
  | answer {state job} (place : state.control = .calling job)
      (succeeded : (job, true) ∈ state.settled) :
      Step state
        { state with
          control := .noting
          inFlight := state.inFlight.erase job
          written := state.written + (rowsAt batches job).length }
  | note {state} (place : state.control = .noting) :
      Step state { state with control := .looping, reports := state.reports ++ [state.written] }
  | endLoop {state} (place : state.control = .looping) (none : state.cursor = batches.length) :
      Step state { state with control := .returned state.written }
  | submit {state room} (place : state.control = .filling (room + 1))
      (more : state.cursor < batches.length) :
      Step state
        { state with
          control := .filling room
          cursor := state.cursor + 1
          inFlight := state.inFlight ++ [state.cursor] }
  | filled {state room} (place : state.control = .filling room)
      (full : room = 0 ∨ state.cursor = batches.length) :
      Step state { state with control := .waiting }
  | wake {state done} (place : state.control = .waiting) (some : done ≠ []) (once : done.Nodup)
      (ready : ∀ job ∈ done, job ∈ state.inFlight ∧ ∃ success, (job, success) ∈ state.settled) :
      Step state { state with control := .taking done }
  | take {state job done} (place : state.control = .taking (job :: done))
      (succeeded : (job, true) ∈ state.settled) :
      Step state
        { state with
          control := .reporting done
          inFlight := state.inFlight.erase job
          written := state.written + (rowsAt batches job).length }
  | report {state done} (place : state.control = .reporting done) :
      Step state
        { state with control := .refilling done, reports := state.reports ++ [state.written] }
  | refill {state done} (place : state.control = .refilling done)
      (more : state.cursor < batches.length) :
      Step state
        { state with
          control := .taking done
          cursor := state.cursor + 1
          inFlight := state.inFlight ++ [state.cursor] }
  | exhausted {state done} (place : state.control = .refilling done)
      (none : state.cursor = batches.length) :
      Step state { state with control := .taking done }
  | drained {state} (place : state.control = .taking []) :
      Step state { state with control := .waiting }
  | leave {state} (place : state.control = .waiting) (none : state.inFlight = []) :
      Step state { state with control := .returned state.written }
  | refuse {state job}
      (place : state.control = .calling job ∨ ∃ done, state.control = .taking (job :: done))
      (failed : (job, false) ∈ state.settled) :
      Step state { state with control := .failing }
  | raise {state} (place : state.control.mayRaise = true) :
      Step state { state with control := .failing }
  | shutdown {state} (place : state.control = .failing)
      (idle : ∀ job < state.cursor, ∃ success, (job, success) ∈ state.settled) :
      Step state { state with control := .raised }
  | begin {state job} (submitted : job < state.cursor) (fresh : job ∉ state.started)
      (room : state.running.length < limit) :
      Step state
        { state with running := state.running ++ [job], started := state.started ++ [job] }
  | finish {state front job back} (busy : state.running = front ++ job :: back) (success : Bool) :
      Step state
        { state with
          running := front ++ back
          settled := state.settled ++ [(job, success)] }

/-- The states of a run. -/
inductive Reachable : State → Prop
  | start : Reachable (start limit)
  | step {state next} (before : Reachable state) (step : Step batches limit state next) :
      Reachable next

section Invariant

/-- The results left to take are of batches in flight. -/
structure Ready (state : State) (done : List Nat) : Prop where
  once : done.Nodup
  ready : ∀ job ∈ done, job ∈ state.inFlight ∧ ∃ success, (job, success) ∈ state.settled

/-- What holds where the caller is: how many batches are in flight, and which results are left
to take. -/
def Control.Holds (state : State) : Control → Prop
  | looping => limit ≤ 1 ∧ state.inFlight = []
  | calling job => limit ≤ 1 ∧ state.inFlight = [job] ∧ job ∈ state.started
  | noting => limit ≤ 1 ∧ state.inFlight = []
  | filling room => 1 < limit ∧ state.inFlight.length + room = limit
  | waiting => 1 < limit ∧ (state.cursor = batches.length ∨ state.inFlight.length = limit)
  | taking done =>
      (1 < limit ∧ (state.cursor = batches.length ∨ state.inFlight.length = limit)) ∧
        Ready state done
  | reporting done =>
      (1 < limit ∧ (state.cursor = batches.length ∨ state.inFlight.length + 1 = limit)) ∧
        Ready state done
  | refilling done =>
      (1 < limit ∧ (state.cursor = batches.length ∨ state.inFlight.length + 1 = limit)) ∧
        Ready state done
  | failing => True
  | raised => True
  | returned total =>
      state.inFlight = [] ∧ state.cursor = batches.length ∧ total = state.written

/-- What holds wherever the caller is. -/
structure Sound (state : State) : Prop where
  within : state.cursor ≤ batches.length
  distinct : state.inFlight.Nodup
  known : ∀ job ∈ state.inFlight, job < state.cursor
  few : state.inFlight.length ≤ max 1 limit
  executed : state.started.Perm (state.running ++ state.settled.map Prod.fst)
  once : state.started.Nodup
  submitted : ∀ job ∈ state.started, job < state.cursor
  landed : ∀ job < state.cursor, job ∉ state.inFlight → (job, true) ∈ state.settled
  counted : state.written + (state.inFlight.flatMap (rowsAt batches)).length =
    ((List.range state.cursor).flatMap (rowsAt batches)).length
  rising : state.reports.Pairwise (· ≤ ·)
  below : ∀ count ∈ state.reports, count ≤ state.written

/-- What holds in every state of a run. -/
structure Invariant (state : State) : Prop where
  sound : Sound batches limit state
  holds : state.control.Holds batches limit state

variable {batches limit} {state : State}

theorem Invariant.at_place (invariant : Invariant batches limit state) {control : Control}
    (place : state.control = control) : control.Holds batches limit state :=
  place ▸ invariant.holds

theorem Invariant.start : Invariant batches limit (start limit) where
  sound :=
    { within := Nat.zero_le _
      distinct := List.nodup_nil
      known := fun _ listed => absurd listed List.not_mem_nil
      few := Nat.zero_le _
      executed := List.Perm.refl _
      once := List.nodup_nil
      submitted := fun _ listed => absurd listed List.not_mem_nil
      landed := fun _ before => absurd before (Nat.not_lt_zero _)
      counted := rfl
      rising := List.Pairwise.nil
      below := fun _ listed => absurd listed List.not_mem_nil }
  holds := by
    rw [Flights.start]
    split
    · next single => exact ⟨single, rfl⟩
    · next several => exact ⟨Nat.lt_of_not_le several, Nat.zero_add limit⟩

/-- Where the caller is has no part in it. -/
theorem Sound.redirect (sound : Sound batches limit state) (control : Control) :
    Sound batches limit { state with control := control } :=
  ⟨sound.within, sound.distinct, sound.known, sound.few, sound.executed, sound.once,
    sound.submitted, sound.landed, sound.counted, sound.rising, sound.below⟩

/-- A further report. -/
theorem Sound.report (sound : Sound batches limit state) :
    Sound batches limit { state with reports := state.reports ++ [state.written] } where
  within := sound.within
  distinct := sound.distinct
  known := sound.known
  few := sound.few
  executed := sound.executed
  once := sound.once
  submitted := sound.submitted
  landed := sound.landed
  counted := sound.counted
  rising := by
    apply List.pairwise_append.mpr
    refine ⟨sound.rising, List.pairwise_singleton _ _, ?_⟩
    intro count listed last lone
    rw [List.mem_singleton.mp lone]
    exact sound.below count listed
  below := by
    intro count listed
    rcases List.mem_append.mp listed with earlier | now
    · exact sound.below count earlier
    · exact (List.mem_singleton.mp now).le

/-- The rows of a batch taken from those in flight. -/
theorem length_flatMap_erase {ρ : Type*} {rows : Nat → List ρ} {jobs : List Nat} {job : Nat}
    (listed : job ∈ jobs) :
    (rows job).length + ((jobs.erase job).flatMap rows).length = (jobs.flatMap rows).length := by
  have moved := ((List.perm_cons_erase listed).flatMap_right rows).length_eq
  rw [moved, List.flatMap_cons, List.length_append]

/-- A result taken. -/
theorem Sound.collect (sound : Sound batches limit state) {job : Nat}
    (listed : job ∈ state.inFlight) (succeeded : (job, true) ∈ state.settled) :
    Sound batches limit
      { state with
        inFlight := state.inFlight.erase job
        written := state.written + (rowsAt batches job).length } where
  within := sound.within
  distinct := sound.distinct.erase job
  known := fun other flying => sound.known other (List.mem_of_mem_erase flying)
  few := (List.length_erase_le).trans sound.few
  executed := sound.executed
  once := sound.once
  submitted := sound.submitted
  landed := by
    intro other before gone
    by_cases same : other = job
    · rw [same]
      exact succeeded
    · apply sound.landed other before
      intro flying
      exact gone ((List.mem_erase_of_ne same).mpr flying)
  counted := by
    rw [Nat.add_assoc, length_flatMap_erase listed]
    exact sound.counted
  rising := sound.rising
  below := fun count listed => (sound.below count listed).trans (Nat.le_add_right _ _)

/-- A batch handed over. -/
theorem Sound.submit (sound : Sound batches limit state) (more : state.cursor < batches.length)
    (room : state.inFlight.length < max 1 limit) :
    Sound batches limit
      { state with
        cursor := state.cursor + 1
        inFlight := state.inFlight ++ [state.cursor] } where
  within := more
  distinct := by
    refine List.Nodup.append sound.distinct (List.nodup_singleton _) ?_
    intro job flying lone
    rw [List.mem_singleton.mp lone] at flying
    exact absurd (sound.known _ flying) (Nat.lt_irrefl _)
  known := by
    intro job flying
    rcases List.mem_append.mp flying with earlier | now
    · exact Nat.lt_succ_of_lt (sound.known job earlier)
    · rw [List.mem_singleton.mp now]
      exact Nat.lt_succ_self _
  few := by
    rw [List.length_append, List.length_singleton]
    exact room
  executed := sound.executed
  once := sound.once
  submitted := fun job begun => Nat.lt_succ_of_lt (sound.submitted job begun)
  landed := by
    intro job before gone
    rw [List.mem_append, List.mem_singleton, not_or] at gone
    exact sound.landed job (Nat.lt_of_le_of_ne (Nat.lt_succ_iff.mp before) gone.2) gone.1
  counted := by
    rw [List.flatMap_append, List.length_append, ← Nat.add_assoc, sound.counted,
      List.range_succ, List.flatMap_append, List.length_append, List.flatMap_singleton]
  rising := sound.rising
  below := sound.below

/-- An execution begins. -/
theorem Sound.begin (sound : Sound batches limit state) {job : Nat} (before : job < state.cursor)
    (fresh : job ∉ state.started) :
    Sound batches limit
      { state with running := state.running ++ [job], started := state.started ++ [job] } where
  within := sound.within
  distinct := sound.distinct
  known := sound.known
  few := sound.few
  executed := by
    rw [List.append_assoc, List.singleton_append]
    exact (List.perm_append_singleton job _).trans
      ((sound.executed.cons job).trans List.perm_middle.symm)
  once := by
    refine List.Nodup.append sound.once (List.nodup_singleton _) ?_
    intro other begun lone
    exact fresh (List.mem_singleton.mp lone ▸ begun)
  submitted := by
    intro other begun
    rcases List.mem_append.mp begun with earlier | now
    · exact sound.submitted other earlier
    · rw [List.mem_singleton.mp now]
      exact before
  landed := sound.landed
  counted := sound.counted
  rising := sound.rising
  below := sound.below

/-- An execution comes to its end. -/
theorem Sound.finish (sound : Sound batches limit state) {front back : List Nat} {job : Nat}
    (busy : state.running = front ++ job :: back) (success : Bool) :
    Sound batches limit
      { state with
        running := front ++ back
        settled := state.settled ++ [(job, success)] } where
  within := sound.within
  distinct := sound.distinct
  known := sound.known
  few := sound.few
  executed := by
    have ended : (job :: (front ++ back ++ state.settled.map Prod.fst)).Perm
        (front ++ back ++ (state.settled ++ [(job, success)]).map Prod.fst) := by
      rw [List.map_append, ← List.append_assoc]
      exact (List.perm_append_singleton job _).symm
    refine (sound.executed.trans ?_).trans ended
    rw [busy]
    exact (List.perm_middle).append_right _
  once := sound.once
  submitted := sound.submitted
  landed := fun other before gone => List.mem_append_left _ (sound.landed other before gone)
  counted := sound.counted
  rising := sound.rising
  below := sound.below

/-- What holds where the caller is stays when more has begun and more is settled. -/
theorem Control.Holds.grow {control : Control} (holds : control.Holds batches limit state)
    (running : List Nat) (settled : List (Nat × Bool)) (started : List Nat) :
    control.Holds batches limit
      { state with
        running := running
        settled := state.settled ++ settled
        started := state.started ++ started } := by
  have kept {done : List Nat} (ready : Ready state done) :
      Ready
        { state with
          running := running
          settled := state.settled ++ settled
          started := state.started ++ started } done := by
    refine ⟨ready.once, fun job listed => ?_⟩
    obtain ⟨flying, success, ended⟩ := ready.ready job listed
    exact ⟨flying, success, List.mem_append_left _ ended⟩
  cases control with
  | calling job => exact ⟨holds.1, holds.2.1, List.mem_append_left _ holds.2.2⟩
  | taking done => exact ⟨holds.1, kept holds.2⟩
  | reporting done => exact ⟨holds.1, kept holds.2⟩
  | refilling done => exact ⟨holds.1, kept holds.2⟩
  | _ => exact holds

/-- When a result is taken, the others are still there. -/
theorem Ready.tail {job : Nat} {done : List Nat} (ready : Ready state (job :: done)) :
    Ready { state with inFlight := state.inFlight.erase job } done := by
  obtain ⟨fresh, distinct⟩ := List.nodup_cons.mp ready.once
  refine ⟨distinct, fun other listed => ?_⟩
  obtain ⟨flying, ended⟩ := ready.ready other (List.mem_cons_of_mem job listed)
  have differ : other ≠ job := fun same => fresh (same ▸ listed)
  exact ⟨(List.mem_erase_of_ne differ).mpr flying, ended⟩

/-- One step keeps the invariant. -/
theorem Invariant.step {next : State} (invariant : Invariant batches limit state)
    (step : Step batches limit state next) : Invariant batches limit next := by
  have sound := invariant.sound
  cases step with
  | pull place more =>
      obtain ⟨single, empty⟩ := invariant.at_place place
      have room : state.inFlight.length < max 1 limit := by
        rw [empty]
        exact Nat.lt_of_lt_of_le Nat.one_pos (Nat.le_max_left 1 limit)
      have fresh : state.cursor ∉ state.started :=
        fun begun => absurd (sound.submitted _ begun) (Nat.lt_irrefl _)
      refine ⟨((sound.submit more room).begin (Nat.lt_succ_self _) fresh).redirect _,
        single, ?_, List.mem_append_right _ (List.mem_singleton_self _)⟩
      rw [empty]
      exact List.nil_append _
  | @answer job place succeeded =>
      obtain ⟨single, flying, _⟩ := invariant.at_place place
      have listed : job ∈ state.inFlight := flying ▸ List.mem_singleton_self job
      refine ⟨(sound.collect listed succeeded).redirect _, single, ?_⟩
      rw [flying]
      exact List.erase_cons_head job []
  | note place => exact ⟨sound.report.redirect _, invariant.at_place place⟩
  | endLoop place none =>
      exact ⟨sound.redirect _, (invariant.at_place place).2, none, rfl⟩
  | submit place more =>
      obtain ⟨several, filling⟩ := invariant.at_place place
      refine ⟨(sound.submit more (by omega)).redirect _, several, ?_⟩
      rw [List.length_append, List.length_singleton]
      omega
  | filled place full =>
      obtain ⟨several, filling⟩ := invariant.at_place place
      refine ⟨sound.redirect _, several, full.symm.imp_right fun none => ?_⟩
      rw [none] at filling
      exact filling
  | wake place _ once ready =>
      exact ⟨sound.redirect _, invariant.at_place place, once, ready⟩
  | @take job done place succeeded =>
      obtain ⟨⟨several, full⟩, ready⟩ := invariant.at_place place
      have listed := (ready.ready job List.mem_cons_self).1
      refine ⟨(sound.collect listed succeeded).redirect _, ⟨several, ?_⟩, ready.once.of_cons,
        ready.tail.ready⟩
      have counted := List.length_erase_of_mem listed
      have some := List.length_pos_of_mem listed
      refine full.imp_right fun many => ?_
      dsimp only
      omega
  | report place =>
      obtain ⟨full, ready⟩ := invariant.at_place place
      exact ⟨sound.report.redirect _, full, ready.once, ready.ready⟩
  | @refill done place more =>
      obtain ⟨⟨several, full⟩, ready⟩ := invariant.at_place place
      have room : state.inFlight.length + 1 = limit := full.resolve_left (by omega)
      refine ⟨(sound.submit more (by omega)).redirect _, ⟨several, Or.inr ?_⟩, ready.once, ?_⟩
      · rw [List.length_append, List.length_singleton]
        exact room
      · intro job listed
        exact (ready.ready job listed).imp_left (List.mem_append_left _)
  | exhausted place none =>
      obtain ⟨⟨several, _⟩, ready⟩ := invariant.at_place place
      exact ⟨sound.redirect _, ⟨several, Or.inl none⟩, ready.once, ready.ready⟩
  | drained place => exact ⟨sound.redirect _, (invariant.at_place place).1⟩
  | leave place none =>
      obtain ⟨several, full⟩ := invariant.at_place place
      refine ⟨sound.redirect _, none, full.resolve_right ?_, rfl⟩
      rw [none, List.length_nil]
      omega
  | refuse _ _ => exact ⟨sound.redirect _, trivial⟩
  | raise _ => exact ⟨sound.redirect _, trivial⟩
  | shutdown _ _ => exact ⟨sound.redirect _, trivial⟩
  | @begin job submitted fresh _ =>
      have grown := invariant.holds.grow (state.running ++ [job]) [] [job]
      rw [List.append_nil] at grown
      exact ⟨sound.begin submitted fresh, grown⟩
  | @finish front job back busy success =>
      have grown := invariant.holds.grow (front ++ back) [(job, success)] []
      rw [List.append_nil] at grown
      exact ⟨sound.finish busy success, grown⟩

/-- The invariant holds in every state of a run. -/
theorem Reachable.invariant (reached : Reachable batches limit state) :
    Invariant batches limit state := by
  induction reached with
  | start => exact Invariant.start
  | step _ step ih => exact ih.step step

/-- No more have begun than were taken. -/
theorem Sound.length_started_le (sound : Sound batches limit state) :
    state.started.length ≤ batches.length := by
  have listed : state.started ⊆ List.range state.cursor :=
    fun job begun => List.mem_range.mpr (sound.submitted job begun)
  have fewer := (List.subperm_of_subset sound.once listed).length_le
  rw [List.length_range] at fewer
  exact fewer.trans sound.within

theorem Sound.length_started (sound : Sound batches limit state) :
    state.started.length = state.running.length + state.settled.length := by
  rw [sound.executed.length_eq, List.length_append, List.length_map]

/-- What is executed is not settled. -/
theorem Sound.not_settled (sound : Sound batches limit state) {job : Nat}
    (busy : job ∈ state.running) (success : Bool) : (job, success) ∉ state.settled := by
  intro ended
  have distinct := sound.executed.nodup_iff.mp sound.once
  exact List.disjoint_of_nodup_append distinct busy (List.mem_map_of_mem ended)

/-- No batch has both failed and been executed with success. -/
theorem Sound.not_failed (sound : Sound batches limit state) {job : Nat}
    (succeeded : (job, true) ∈ state.settled) : (job, false) ∉ state.settled := by
  intro failed
  have distinct := (List.nodup_append.mp (sound.executed.nodup_iff.mp sound.once)).2.1
  have same := List.inj_on_of_nodup_map distinct succeeded failed rfl
  cases same

/-- A batch that was handed over and is not settled is in flight. -/
theorem Sound.in_flight (sound : Sound batches limit state) {job : Nat}
    (before : job < state.cursor) (pending : ∀ success, (job, success) ∉ state.settled) :
    job ∈ state.inFlight := by
  by_contra gone
  exact pending true (sound.landed job before gone)

/-- No more are executed than are in flight. -/
theorem Sound.length_running_le (sound : Sound batches limit state) :
    state.running.length ≤ state.inFlight.length := by
  have distinct := (List.nodup_append.mp (sound.executed.nodup_iff.mp sound.once)).1
  refine (List.subperm_of_subset distinct fun job busy => ?_).length_le
  have begun := sound.executed.mem_iff.mpr (List.mem_append_left _ busy)
  exact sound.in_flight (sound.submitted job begun) (sound.not_settled busy)

theorem range_flatMap_rowsAt : (List.range batches.length).flatMap (rowsAt batches) =
    batches.flatten := by
  rw [List.flatMap]
  congr 1
  apply List.ext_getElem
  · rw [List.length_map, List.length_range]
  · intro place _ bound
    rw [List.getElem_map, List.getElem_range, rowsAt, List.getD_eq_getElem?_getD,
      List.getElem?_eq_getElem bound, Option.getD_some]

/-- What a return says: every batch was executed with success, and all rows were counted. -/
theorem Invariant.returned (invariant : Invariant batches limit state) {total : Nat}
    (place : state.control = .returned total) :
    (∀ job < batches.length, (job, true) ∈ state.settled) ∧ total = batches.flatten.length := by
  obtain ⟨empty, all, counted⟩ := invariant.at_place place
  refine ⟨fun job before => ?_, ?_⟩
  · apply invariant.sound.landed job (all ▸ before)
    rw [empty]
    exact List.not_mem_nil
  · have rows := invariant.sound.counted
    rw [empty, List.flatMap_nil, List.length_nil, Nat.add_zero, all, range_flatMap_rowsAt] at rows
    exact counted.trans rows

/-- While a batch handed over is not settled, an execution can begin or come to its end. -/
theorem Invariant.moves (invariant : Invariant batches limit state) (some : 0 < limit)
    {job : Nat} (before : job < state.cursor)
    (pending : ∀ success, (job, success) ∉ state.settled) :
    ∃ next, Step batches limit state next := by
  cases running : state.running with
  | cons busy rest => exact ⟨_, Step.finish (running.trans (List.nil_append _).symm) true⟩
  | nil =>
      refine ⟨_, Step.begin before (fun begun => ?_) ?_⟩
      · have ended := invariant.sound.executed.mem_iff.mp begun
        rw [running, List.nil_append] at ended
        obtain ⟨⟨_, success⟩, settled, rfl⟩ := List.mem_map.mp ended
        exact pending success settled
      · rw [running]
        exact some

/-- In every state the caller has come to its end or there is a step, also when nothing more
raises. -/
theorem Invariant.progress (invariant : Invariant batches limit state) (some : 0 < limit) :
    (∃ next, Step batches limit state next) ∨ state.control = .raised ∨
      ∃ total, state.control = .returned total := by
  have sound := invariant.sound
  have settled_or (job : Nat) (before : job < state.cursor) :
      (∃ next, Step batches limit state next) ∨ ∃ success, (job, success) ∈ state.settled := by
    by_cases ended : ∃ success, (job, success) ∈ state.settled
    · exact Or.inr ended
    · exact Or.inl (invariant.moves some before fun success settled => ended ⟨success, settled⟩)
  have exhausted_or : state.cursor < batches.length ∨ state.cursor = batches.length :=
    Nat.lt_or_eq_of_le sound.within
  cases place : state.control with
  | looping =>
      rcases exhausted_or with more | none
      · exact Or.inl ⟨_, Step.pull place more⟩
      · exact Or.inl ⟨_, Step.endLoop place none⟩
  | calling job =>
      obtain ⟨_, _, begun⟩ := invariant.at_place place
      rcases settled_or job (sound.submitted job begun) with move | ⟨success, settled⟩
      · exact Or.inl move
      · cases success with
        | true => exact Or.inl ⟨_, Step.answer place settled⟩
        | false => exact Or.inl ⟨_, Step.refuse (Or.inl place) settled⟩
  | noting => exact Or.inl ⟨_, Step.note place⟩
  | filling room =>
      cases room with
      | zero => exact Or.inl ⟨_, Step.filled place (Or.inl rfl)⟩
      | succ room =>
          rcases exhausted_or with more | none
          · exact Or.inl ⟨_, Step.submit place more⟩
          · exact Or.inl ⟨_, Step.filled place (Or.inr none)⟩
  | waiting =>
      cases flying : state.inFlight with
      | nil => exact Or.inl ⟨_, Step.leave place flying⟩
      | cons job rest =>
          have listed : job ∈ state.inFlight := flying ▸ List.mem_cons_self
          rcases settled_or job (sound.known job listed) with move | settled
          · exact Or.inl move
          · have ready : ∀ other ∈ [job], other ∈ state.inFlight ∧
                ∃ success, (other, success) ∈ state.settled := by
              intro other lone
              rw [List.mem_singleton.mp lone]
              exact ⟨listed, settled⟩
            exact Or.inl ⟨_, Step.wake place (List.cons_ne_nil job []) (List.nodup_singleton job)
              ready⟩
  | taking done =>
      cases done with
      | nil => exact Or.inl ⟨_, Step.drained place⟩
      | cons job done =>
          obtain ⟨_, ready⟩ := invariant.at_place place
          obtain ⟨_, success, settled⟩ := ready.ready job List.mem_cons_self
          cases success with
          | true => exact Or.inl ⟨_, Step.take place settled⟩
          | false => exact Or.inl ⟨_, Step.refuse (Or.inr ⟨done, place⟩) settled⟩
  | reporting done => exact Or.inl ⟨_, Step.report place⟩
  | refilling done =>
      rcases exhausted_or with more | none
      · exact Or.inl ⟨_, Step.refill place more⟩
      · exact Or.inl ⟨_, Step.exhausted place none⟩
  | failing =>
      by_cases idle : ∀ job < state.cursor, ∃ success, (job, success) ∈ state.settled
      · exact Or.inl ⟨_, Step.shutdown place idle⟩
      · obtain ⟨job, pending⟩ := not_forall.mp idle
        obtain ⟨before, pending⟩ := Classical.not_imp.mp pending
        exact Or.inl ((settled_or job before).resolve_right pending)
  | raised => exact Or.inr (Or.inl rfl)
  | returned total => exact Or.inr (Or.inr ⟨total, rfl⟩)

/-- How much the caller has before it until the next result is taken. -/
def Control.stage : Control → Nat
  | looping | calling _ | taking (_ :: _) => 2
  | noting | reporting _ => 6
  | filling room => room + 7
  | waiting => 3
  | taking [] => 4
  | refilling _ => 5
  | failing => 1
  | raised | returned _ => 0

theorem Control.stage_taking_le (done : List Nat) : (Control.taking done).stage ≤ 4 := by
  cases done with
  | nil => exact Nat.le_refl _
  | cons _ _ => exact (by omega : 2 ≤ 4)

/-- How much there is left to do. -/
def State.remaining (total : Nat) (state : State) : Nat :=
  (total - state.started.length) + (total - state.settled.length) +
    8 * (total - state.cursor + state.inFlight.length) + state.control.stage

theorem State.remaining_redirect {total : Nat} {control target : Control} {reports : List Nat}
    (place : state.control = control) (less : target.stage < control.stage) :
    State.remaining total { state with control := target, reports := reports } <
      state.remaining total := by
  rw [← place] at less
  exact Nat.add_lt_add_left less _

theorem Control.stage_of_mayRaise {control : Control} (mayRaise : control.mayRaise = true) :
    2 ≤ control.stage := by
  cases control with
  | looping => exact Nat.le_refl 2
  | noting => exact (by omega : 2 ≤ 6)
  | filling room => exact Nat.le_add_left_of_le (by omega : 2 ≤ 7)
  | reporting done => exact (by omega : 2 ≤ 6)
  | refilling done => exact (by omega : 2 ≤ 5)
  | _ => cases mayRaise

/-- Every step leaves less to do. -/
theorem Invariant.remaining_lt (invariant : Invariant batches limit state) {next : State}
    (step : Step batches limit state next) :
    next.remaining batches.length < state.remaining batches.length := by
  have begun := (invariant.step step).sound.length_started_le
  have ended := (invariant.step step).sound.length_started
  cases step with
  | pull place more =>
      have stage := congrArg Control.stage place
      simp only [State.remaining, Control.stage, List.length_append, List.length_singleton]
        at begun stage ⊢
      omega
  | @answer job place succeeded =>
      have stage := congrArg Control.stage place
      have listed : job ∈ state.inFlight := by
        rw [(invariant.at_place place).2.1]
        exact List.mem_singleton_self job
      have some := List.length_pos_of_mem listed
      simp only [State.remaining, Control.stage, List.length_erase_of_mem listed] at stage ⊢
      omega
  | note place => exact State.remaining_redirect place (by omega : 2 < 6)
  | endLoop place none => exact State.remaining_redirect place (by omega : 0 < 2)
  | submit place more =>
      have stage := congrArg Control.stage place
      simp only [State.remaining, Control.stage, List.length_append, List.length_singleton]
        at stage ⊢
      omega
  | filled place full =>
      exact State.remaining_redirect place (Nat.lt_add_left _ (by omega : 3 < 7))
  | @wake done place some once ready =>
      obtain ⟨job, rest, rfl⟩ := List.exists_cons_of_ne_nil some
      exact State.remaining_redirect place (by omega : 2 < 3)
  | @take job done place succeeded =>
      have stage := congrArg Control.stage place
      have listed := ((invariant.at_place place).2.ready job List.mem_cons_self).1
      have some := List.length_pos_of_mem listed
      simp only [State.remaining, Control.stage, List.length_erase_of_mem listed] at stage ⊢
      omega
  | report place => exact State.remaining_redirect place (by omega : 5 < 6)
  | @refill done place more =>
      have stage := congrArg Control.stage place
      have least := Control.stage_taking_le done
      simp only [State.remaining, List.length_append, List.length_singleton] at stage ⊢
      rw [stage, Control.stage]
      omega
  | @exhausted done place none =>
      exact State.remaining_redirect place (Nat.lt_succ_of_le (Control.stage_taking_le done))
  | drained place => exact State.remaining_redirect place (by omega : 3 < 4)
  | leave place none => exact State.remaining_redirect place (by omega : 0 < 3)
  | refuse place failed =>
      rcases place with place | ⟨done, place⟩
      · exact State.remaining_redirect place (by omega : 1 < 2)
      · exact State.remaining_redirect place (by omega : 1 < 2)
  | raise place => exact State.remaining_redirect rfl (Control.stage_of_mayRaise place)
  | shutdown place idle => exact State.remaining_redirect place (by omega : 0 < 1)
  | begin submitted fresh room =>
      simp only [State.remaining, List.length_append, List.length_singleton] at begun ⊢
      omega
  | finish busy success =>
      simp only [State.remaining, List.length_append, List.length_singleton] at begun ended ⊢
      omega

/-- Every run comes to an end. -/
theorem Invariant.accessible (invariant : Invariant batches limit state) :
    Acc (fun next state => Step batches limit state next) state := by
  induction work : state.remaining batches.length using Nat.strong_induction_on
    generalizing state with
  | h work ih =>
      apply Acc.intro
      intro next step
      exact ih _ (work ▸ invariant.remaining_lt step) (invariant.step step) rfl

end Invariant

end GraphIngest.Foundation.Flights
