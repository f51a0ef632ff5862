import Mathlib.Data.List.Infix

/-! # One producer, one worker, a bounded queue

A producer puts items into a queue of bounded capacity, and a worker takes them out
one by one and performs the calls of each. A call may fail; the failure is noted, the
rest of the item is left, and the worker goes on. The producer looks at the failures
before every put. At its end, or when it is interrupted, it puts a sentinel, waits for
the worker to stop, and looks at the failures once more. An item put before the worker
is waited for is opened by the producer outside of that frame.

Producer and worker step in any order. What has been performed is always what the
items ask for in the order of the puts, and the producer gets past the wait only when
every call of every item has succeeded.
-/

namespace GraphIngest.Foundation.WorkQueue

variable {α ω : Type*}

/-- The items of a producer: one that it opens with, and the others. -/
structure Job (α : Type*) where
  opening : Option α
  plan : List α

/-- The items of a job in their order. -/
def Job.items (job : Job α) : List α := job.opening.toList ++ job.plan

/-- Where the producer is: before the look at the failures of an item, before its put,
before the put of the sentinel, in the wait for the worker, and behind it. The flag says
whether an exception is on its way. -/
inductive Producer (α : Type*)
  | opening (item : α) (plan : List α)
  | openingPut (item : α) (plan : List α)
  | working (plan : List α)
  | putting (item : α) (plan : List α)
  | closing (raised : Bool)
  | joining (raised : Bool)
  | passed
  | aborted

/-- Where the worker is: at the queue, or in an item with some calls done. -/
inductive Worker (α ω : Type*)
  | waiting
  | busy (item : α) (performed rest : List ω)
  | stopped

/-- The state of both, with what was put so far and the calls made so far, each with its
success. The sentinel is `none`. -/
structure State (α ω : Type*) where
  producer : Producer α
  worker : Worker α ω := .waiting
  queue : List (Option α) := []
  failures : List ω := []
  enqueued : List α := []
  performed : List (ω × Bool) := []

/-- The state in which a job begins. -/
def start (job : Job α) : State α ω where
  producer :=
    match job.opening with
    | some item => .opening item job.plan
    | none => .working job.plan

variable (calls : α → List ω) (capacity : Nat)

/-- A step of the worker. -/
inductive WorkerStep : State α ω → State α ω → Prop
  | take {state item rest} (idle : state.worker = .waiting) (front : state.queue = some item :: rest) :
      WorkerStep state { state with worker := .busy item [] (calls item), queue := rest }
  | stop {state rest} (idle : state.worker = .waiting) (front : state.queue = none :: rest) :
      WorkerStep state { state with worker := .stopped, queue := rest }
  | succeed {state item performed call rest}
      (busy : state.worker = .busy item performed (call :: rest)) :
      WorkerStep state
        { state with
          worker := .busy item (performed ++ [call]) rest
          performed := state.performed ++ [(call, true)] }
  | fail {state item performed call rest}
      (busy : state.worker = .busy item performed (call :: rest)) :
      WorkerStep state
        { state with
          worker := .waiting
          failures := state.failures ++ [call]
          performed := state.performed ++ [(call, false)] }
  | finish {state item performed} (busy : state.worker = .busy item performed []) :
      WorkerStep state { state with worker := .waiting }

/-- A step of the producer. -/
inductive ProducerStep : State α ω → State α ω → Prop
  | acceptOpening {state item plan} (at_item : state.producer = .opening item plan)
      (clean : state.failures = []) :
      ProducerStep state { state with producer := .openingPut item plan }
  | refuseOpening {state item plan} (at_item : state.producer = .opening item plan)
      (failed : state.failures ≠ []) : ProducerStep state { state with producer := .aborted }
  | putOpening {state item plan} (at_put : state.producer = .openingPut item plan)
      (room : state.queue.length < capacity) :
      ProducerStep state
        { state with
          producer := .working plan
          queue := state.queue ++ [some item]
          enqueued := state.enqueued ++ [item] }
  | accept {state item plan} (at_item : state.producer = .working (item :: plan))
      (clean : state.failures = []) :
      ProducerStep state { state with producer := .putting item plan }
  | refuse {state item plan} (at_item : state.producer = .working (item :: plan))
      (failed : state.failures ≠ []) :
      ProducerStep state { state with producer := .closing true }
  | put {state item plan} (at_put : state.producer = .putting item plan)
      (room : state.queue.length < capacity) :
      ProducerStep state
        { state with
          producer := .working plan
          queue := state.queue ++ [some item]
          enqueued := state.enqueued ++ [item] }
  | interrupt {state plan} (at_work : state.producer = .working plan) :
      ProducerStep state { state with producer := .closing true }
  | interruptPut {state item plan} (at_put : state.producer = .putting item plan) :
      ProducerStep state { state with producer := .closing true }
  | finish {state} (at_end : state.producer = .working []) :
      ProducerStep state { state with producer := .closing false }
  | close {state raised} (at_end : state.producer = .closing raised)
      (room : state.queue.length < capacity) :
      ProducerStep state
        { state with producer := .joining raised, queue := state.queue ++ [none] }
  | raise {state} (waiting : state.producer = .joining true) (joined : state.worker = .stopped) :
      ProducerStep state { state with producer := .aborted }
  | reraise {state} (waiting : state.producer = .joining false)
      (joined : state.worker = .stopped) (failed : state.failures ≠ []) :
      ProducerStep state { state with producer := .aborted }
  | pass {state} (waiting : state.producer = .joining false)
      (joined : state.worker = .stopped) (clean : state.failures = []) :
      ProducerStep state { state with producer := .passed }

/-- The states that a job can be in, whoever steps and whatever fails. -/
inductive Reachable (job : Job α) : State α ω → Prop
  | start : Reachable job (start job)
  | worker {state next} (reachable : Reachable job state) (step : WorkerStep calls state next) :
      Reachable job next
  | producer {state next} (reachable : Reachable job state)
      (step : ProducerStep capacity state next) : Reachable job next

section Statement

/-- An item with the calls made for it, each with its success. -/
structure Attempt (α ω : Type*) where
  item : α
  log : List (ω × Bool)

/-- All calls of the item have been made and have succeeded. -/
def Attempt.Complete (attempt : Attempt α ω) : Prop :=
  attempt.log = (calls attempt.item).map fun call => (call, true)

/-- The calls of the item have been made in their order, up to one that failed. -/
def Attempt.Failed (attempt : Attempt α ω) : Prop :=
  ∃ performed call rest, calls attempt.item = performed ++ call :: rest ∧
    attempt.log = (performed.map fun call => (call, true)) ++ [(call, false)]

/-- Some calls of the item have been made in their order, and have succeeded. -/
def Attempt.Begun (attempt : Attempt α ω) : Prop :=
  ∃ performed rest, calls attempt.item = performed ++ rest ∧
    attempt.log = performed.map fun call => (call, true)

/-- What has been performed is what some of the items ask for that were put: those in
front, in the order of the puts, each of them once, and each done with before the next
one is begun. -/
def InOrder (state : State α ω) : Prop :=
  ∃ (attempts : List (Attempt α ω)) (current : Option (Attempt α ω)),
    (∀ attempt ∈ attempts, attempt.Complete calls ∨ attempt.Failed calls) ∧
    (∀ attempt ∈ current, attempt.Begun calls) ∧
    (attempts ++ current.toList).map Attempt.item <+: state.enqueued ∧
    state.performed = (attempts ++ current.toList).flatMap Attempt.log

end Statement

section Invariant

/-- The item the worker is in, with the calls made for it. -/
def Worker.current : Worker α ω → Option (Attempt α ω)
  | .busy item performed _ => some ⟨item, performed.map fun call => (call, true)⟩
  | _ => none

/-- The items in the queue. -/
def State.queued (state : State α ω) : List α := state.queue.filterMap id

/-- What has been put of a job, by the place of the producer. -/
def Producer.Covers (job : Job α) (enqueued : List α) : Producer α → Prop
  | .opening item plan | .openingPut item plan | .putting item plan =>
      job.items = enqueued ++ item :: plan
  | .working plan => job.items = enqueued ++ plan
  | .closing false | .joining false | .passed => job.items = enqueued
  | .closing true | .joining true | .aborted => enqueued <+: job.items

/-- The sentinel has not been put. -/
def State.Open (state : State α ω) : Prop := none ∉ state.queue ∧ state.worker ≠ .stopped

/-- The sentinel comes last in the queue. -/
def State.Closing (state : State α ω) : Prop :=
  (∃ front, none ∉ front ∧ state.queue = front ++ [none]) ∧ state.worker ≠ .stopped

/-- The worker has met the sentinel, behind everything else. -/
def State.Drained (state : State α ω) : Prop := state.queue = [] ∧ state.worker = .stopped

/-- Where the sentinel is, by the place of the producer. -/
def State.Sealed (state : State α ω) : Producer α → Prop
  | .joining _ => state.Closing ∨ state.Drained
  | .passed => state.Drained ∧ state.failures = []
  | .aborted => state.Open ∨ state.Drained
  | _ => state.Open

/-- The invariant: the items that were put are those done with, the one the worker is in
and the queued ones, in this order. -/
structure Invariant (job : Job α) (state : State α ω) (attempts : List (Attempt α ω)) : Prop where
  order : state.enqueued =
    (attempts ++ state.worker.current.toList).map Attempt.item ++ state.queued
  log : state.performed = (attempts ++ state.worker.current.toList).flatMap Attempt.log
  ended : ∀ attempt ∈ attempts, attempt.Complete calls ∨ attempt.Failed calls
  begun : ∀ item performed rest, state.worker = .busy item performed rest →
    calls item = performed ++ rest
  clean : state.failures = [] → ∀ attempt ∈ attempts, attempt.Complete calls
  covers : state.producer.Covers job state.enqueued
  sealed : state.Sealed state.producer

variable {calls capacity} {job : Job α} {state next : State α ω} {attempts : List (Attempt α ω)}

theorem waiting_ne_stopped : (Worker.waiting : Worker α ω) ≠ .stopped := by
  intro same
  cases same

theorem busy_ne_stopped {item : α} {performed rest : List ω} :
    Worker.busy item performed rest ≠ .stopped := by
  intro same
  cases same

/-- The sentinel is where it should be after a step that moves it no further. -/
theorem sealed_of_step {place : Producer α} (moving : state.worker ≠ .stopped)
    (opened : state.Open → next.Open) (closing : state.Closing → next.Closing ∨ next.Drained)
    (before : state.Sealed place) : next.Sealed place := by
  have stays : ¬ state.Drained := fun drained => moving drained.2
  cases place with
  | joining raised => exact closing (before.resolve_right stays)
  | passed => exact absurd before.1 stays
  | aborted => exact .inl (opened (before.resolve_right stays))
  | opening item plan => exact opened before
  | openingPut item plan => exact opened before
  | working plan => exact opened before
  | putting item plan => exact opened before
  | closing raised => exact opened before

/-- A step that leaves the queue alone leaves the sentinel alone. -/
theorem sealed_of_queue {place : Producer α} (moving : state.worker ≠ .stopped)
    (same : next.queue = state.queue) (goes : next.worker ≠ .stopped)
    (before : state.Sealed place) : next.Sealed place := by
  refine sealed_of_step moving (fun opened => ⟨?_, goes⟩) (fun closing => .inl ⟨?_, goes⟩) before
  · rw [same]
    exact opened.1
  · rw [same]
    exact closing.1

/-- Taking an item from the queue leaves the sentinel behind it. -/
theorem sealed_take {place : Producer α} {item : α} {rest : List (Option α)}
    {worker : Worker α ω} (moving : state.worker ≠ .stopped)
    (front : state.queue = some item :: rest) (goes : worker ≠ .stopped)
    (before : state.Sealed place) :
    { state with worker := worker, queue := rest }.Sealed place := by
  refine sealed_of_step moving (fun opened => ⟨?_, goes⟩) (fun closing => .inl ⟨?_, goes⟩) before
  · have absent := opened.1
    rw [front] at absent
    exact fun listed => absent (List.mem_cons_of_mem _ listed)
  · obtain ⟨ahead, absent, split⟩ := closing.1
    rw [front] at split
    cases ahead with
    | nil => cases split
    | cons first ahead =>
        obtain ⟨_, rfl⟩ := List.cons.inj split
        exact ⟨ahead, fun listed => absent (List.mem_cons_of_mem _ listed), rfl⟩

/-- The worker that takes the sentinel has nothing left in the queue. -/
theorem sealed_stop {place : Producer α} {rest : List (Option α)}
    (moving : state.worker ≠ .stopped) (front : state.queue = none :: rest)
    (before : state.Sealed place) :
    { state with worker := .stopped, queue := rest }.Sealed place := by
  refine sealed_of_step moving (fun opened => ?_) (fun closing => .inr ?_) before
  · have absent := opened.1
    rw [front] at absent
    exact absurd List.mem_cons_self absent
  · obtain ⟨ahead, absent, split⟩ := closing.1
    rw [front] at split
    cases ahead with
    | nil =>
        obtain ⟨_, rfl⟩ := List.cons.inj split
        exact ⟨rfl, rfl⟩
    | cons first ahead =>
        obtain ⟨rfl, _⟩ := List.cons.inj split
        exact absurd List.mem_cons_self absent

section WorkerActions

variable {item : α} {performed rest : List ω} {call : ω}

/-- The worker takes an item. -/
theorem Invariant.take (invariant : Invariant calls job state attempts)
    {queue : List (Option α)} (idle : state.worker = .waiting)
    (front : state.queue = some item :: queue) :
    Invariant calls job { state with worker := .busy item [] (calls item), queue := queue }
      attempts where
  order := by
    have order := invariant.order
    rw [idle] at order
    simp only [Worker.current, State.queued, front, Option.toList_none, Option.toList_some,
      List.append_nil, List.map_append, List.map_singleton,
      List.append_assoc, List.singleton_append, id_eq] at order ⊢
    exact order
  log := by
    have log := invariant.log
    rw [idle] at log
    simp only [Worker.current, Option.toList_none, Option.toList_some, List.append_nil,
      List.flatMap_append, List.flatMap_singleton, List.map_nil] at log ⊢
    exact log
  ended := invariant.ended
  begun := by
    intro other performed left busy
    obtain ⟨rfl, rfl, rfl⟩ := Worker.busy.inj busy
    rfl
  clean := invariant.clean
  covers := invariant.covers
  sealed := by
    have moving : state.worker ≠ .stopped := by rw [idle]; exact waiting_ne_stopped
    exact sealed_take moving front busy_ne_stopped invariant.sealed

/-- The worker takes the sentinel. -/
theorem Invariant.stop (invariant : Invariant calls job state attempts)
    {queue : List (Option α)} (idle : state.worker = .waiting)
    (front : state.queue = none :: queue) :
    Invariant calls job { state with worker := .stopped, queue := queue } attempts where
  order := by
    have order := invariant.order
    rw [idle] at order
    simp only [Worker.current, State.queued, front, Option.toList_none, List.append_nil,
      List.filterMap_cons_none, id_eq] at order ⊢
    exact order
  log := by
    have log := invariant.log
    rw [idle] at log
    exact log
  ended := invariant.ended
  begun := by
    intro other performed left busy
    cases busy
  clean := invariant.clean
  covers := invariant.covers
  sealed := by
    have moving : state.worker ≠ .stopped := by rw [idle]; exact waiting_ne_stopped
    exact sealed_stop moving front invariant.sealed

/-- A call succeeds. -/
theorem Invariant.succeed (invariant : Invariant calls job state attempts)
    (busy : state.worker = .busy item performed (call :: rest)) :
    Invariant calls job
      { state with
        worker := .busy item (performed ++ [call]) rest
        performed := state.performed ++ [(call, true)] } attempts where
  order := by
    have order := invariant.order
    rw [busy] at order
    simp only [Worker.current, Option.toList_some, List.map_append, List.map_singleton] at order ⊢
    exact order
  log := by
    have log := invariant.log
    rw [busy] at log
    simp only [log, Worker.current, Option.toList_some, List.flatMap_append,
      List.flatMap_singleton, List.map_append, List.map_singleton, List.append_assoc]
  ended := invariant.ended
  begun := by
    intro other done left again
    obtain ⟨rfl, rfl, rfl⟩ := Worker.busy.inj again
    rw [invariant.begun item performed (call :: rest) busy, List.append_assoc,
      List.singleton_append]
  clean := invariant.clean
  covers := invariant.covers
  sealed := by
    have moving : state.worker ≠ .stopped := by rw [busy]; exact busy_ne_stopped
    exact sealed_of_queue moving rfl busy_ne_stopped invariant.sealed

/-- A call fails, and with it its item. -/
theorem Invariant.fail (invariant : Invariant calls job state attempts)
    (busy : state.worker = .busy item performed (call :: rest)) :
    Invariant calls job
      { state with
        worker := .waiting
        failures := state.failures ++ [call]
        performed := state.performed ++ [(call, false)] }
      (attempts ++ [⟨item, (performed.map fun call => (call, true)) ++ [(call, false)]⟩]) where
  order := by
    have order := invariant.order
    rw [busy] at order
    simp only [Worker.current, Option.toList_some, Option.toList_none, List.append_nil,
      List.map_append, List.map_singleton] at order ⊢
    exact order
  log := by
    have log := invariant.log
    rw [busy] at log
    simp only [log, Worker.current, Option.toList_some, Option.toList_none,
      List.append_nil, List.flatMap_append, List.flatMap_singleton, List.append_assoc]
  ended := by
    refine List.forall_mem_append.mpr ⟨invariant.ended, List.forall_mem_singleton.mpr ?_⟩
    exact .inr ⟨performed, call, rest, invariant.begun item performed _ busy, rfl⟩
  begun := by
    intro other done left again
    cases again
  clean := fun none => absurd none (List.append_ne_nil_of_right_ne_nil _ (List.cons_ne_nil _ _))
  covers := invariant.covers
  sealed := by
    have moving : state.worker ≠ .stopped := by rw [busy]; exact busy_ne_stopped
    exact sealed_of_queue moving rfl waiting_ne_stopped invariant.sealed

/-- An item is done with. -/
theorem Invariant.finish (invariant : Invariant calls job state attempts)
    (busy : state.worker = .busy item performed []) :
    Invariant calls job { state with worker := .waiting }
      (attempts ++ [⟨item, performed.map fun call => (call, true)⟩]) := by
  have complete : (⟨item, performed.map fun call => (call, true)⟩ : Attempt α ω).Complete
      calls := by
    rw [Attempt.Complete, invariant.begun item performed [] busy, List.append_nil]
  have moving : state.worker ≠ .stopped := by rw [busy]; exact busy_ne_stopped
  have order := invariant.order
  have log := invariant.log
  rw [busy] at order log
  refine ⟨?_, ?_, ?_, ?_, fun none => ?_, invariant.covers,
    sealed_of_queue moving rfl waiting_ne_stopped invariant.sealed⟩
  · simp only [Worker.current, Option.toList_some, Option.toList_none, List.append_nil] at order ⊢
    exact order
  · simp only [Worker.current, Option.toList_some, Option.toList_none, List.append_nil] at log ⊢
    exact log
  · exact List.forall_mem_append.mpr
      ⟨invariant.ended, List.forall_mem_singleton.mpr (.inl complete)⟩
  · intro other done left again
    cases again
  · exact List.forall_mem_append.mpr
      ⟨invariant.clean none, List.forall_mem_singleton.mpr complete⟩

end WorkerActions

/-- **Worker.** Every step of the worker keeps the invariant. -/
theorem Invariant.workerStep (invariant : Invariant calls job state attempts)
    (step : WorkerStep calls state next) : ∃ attempts, Invariant calls job next attempts := by
  cases step with
  | take idle front => exact ⟨_, invariant.take idle front⟩
  | stop idle front => exact ⟨_, invariant.stop idle front⟩
  | succeed busy => exact ⟨_, invariant.succeed busy⟩
  | fail busy => exact ⟨_, invariant.fail busy⟩
  | finish busy => exact ⟨_, invariant.finish busy⟩

/-- A step of the producer that puts nothing. -/
theorem Invariant.move (invariant : Invariant calls job state attempts) {place : Producer α}
    (covers : place.Covers job state.enqueued) (sealed : state.Sealed place) :
    Invariant calls job { state with producer := place } attempts :=
  ⟨invariant.order, invariant.log, invariant.ended, invariant.begun, invariant.clean, covers, sealed⟩

/-- A step of the producer that puts an item. -/
theorem Invariant.put (invariant : Invariant calls job state attempts) {item : α} {plan : List α}
    (left : job.items = state.enqueued ++ item :: plan) (opened : state.Open) :
    Invariant calls job
      { state with
        producer := .working plan
        queue := state.queue ++ [some item]
        enqueued := state.enqueued ++ [item] } attempts where
  order := by
    simp only [invariant.order, State.queued, List.filterMap_append, List.append_assoc]
    rfl
  log := invariant.log
  ended := invariant.ended
  begun := invariant.begun
  clean := invariant.clean
  covers := by
    rw [Producer.Covers, left, List.append_assoc, List.singleton_append]
  sealed := by
    refine ⟨fun listed => ?_, opened.2⟩
    rcases List.mem_append.mp listed with before | now
    · exact opened.1 before
    · cases List.mem_singleton.mp now

/-- **Producer.** Every step of the producer keeps the invariant. -/
theorem Invariant.producerStep (invariant : Invariant calls job state attempts)
    (step : ProducerStep capacity state next) : Invariant calls job next attempts := by
  have covers := invariant.covers
  have sealed := invariant.sealed
  cases step with
  | acceptOpening at_item _ =>
      rw [at_item] at covers sealed
      exact invariant.move covers sealed
  | refuseOpening at_item _ =>
      rw [at_item] at covers sealed
      exact invariant.move ⟨_, covers.symm⟩ (.inl sealed)
  | putOpening at_put _ =>
      rw [at_put] at covers sealed
      exact invariant.put covers sealed
  | accept at_item _ =>
      rw [at_item] at covers sealed
      exact invariant.move covers sealed
  | refuse at_item _ =>
      rw [at_item] at covers sealed
      exact invariant.move ⟨_, covers.symm⟩ sealed
  | put at_put _ =>
      rw [at_put] at covers sealed
      exact invariant.put covers sealed
  | interrupt at_work =>
      rw [at_work] at covers sealed
      exact invariant.move ⟨_, covers.symm⟩ sealed
  | interruptPut at_put =>
      rw [at_put] at covers sealed
      exact invariant.move ⟨_, covers.symm⟩ sealed
  | finish at_end =>
      rw [at_end, Producer.Covers, List.append_nil] at covers
      rw [at_end] at sealed
      exact invariant.move covers sealed
  | @close raised at_end _ =>
      rw [at_end] at covers sealed
      refine ⟨?_, invariant.log, invariant.ended, invariant.begun, invariant.clean, ?_, ?_⟩
      · simp only [invariant.order, State.queued, List.filterMap_append]
        exact congrArg _ (List.append_nil _).symm
      · cases raised with
        | true => exact covers
        | false => exact covers
      · exact .inl ⟨⟨state.queue, sealed.1, rfl⟩, sealed.2⟩
  | raise waiting joined =>
      rw [waiting] at covers sealed
      exact invariant.move covers (.inr (sealed.resolve_left fun closing => closing.2 joined))
  | reraise waiting joined _ =>
      rw [waiting] at covers sealed
      exact invariant.move ⟨[], by rw [List.append_nil]; exact covers.symm⟩
        (.inr (sealed.resolve_left fun closing => closing.2 joined))
  | pass waiting joined clean =>
      rw [waiting] at covers sealed
      exact invariant.move covers ⟨sealed.resolve_left fun closing => closing.2 joined, clean⟩

/-- **Runs.** The invariant holds in every state a job can be in. -/
theorem exists_invariant (reachable : Reachable calls capacity job state) :
    ∃ attempts, Invariant calls job state attempts := by
  induction reachable with
  | start =>
      obtain ⟨opening, plan⟩ := job
      refine ⟨[], rfl, rfl, List.forall_mem_nil _, ?_, fun _ => List.forall_mem_nil _, ?_, ?_⟩
      · intro item performed rest busy
        cases busy
      · cases opening <;> exact rfl
      · cases opening <;> exact ⟨List.not_mem_nil, waiting_ne_stopped⟩
  | worker _ step ih =>
      obtain ⟨attempts, invariant⟩ := ih
      exact invariant.workerStep step
  | producer _ step ih =>
      obtain ⟨attempts, invariant⟩ := ih
      exact ⟨attempts, invariant.producerStep step⟩

end Invariant

section Safety

variable {calls capacity} {job : Job α} {state : State α ω}

/-- The calls are made in the order of the puts. -/
theorem inOrder_of_reachable (reachable : Reachable calls capacity job state) :
    InOrder calls state := by
  obtain ⟨attempts, invariant⟩ := exists_invariant reachable
  refine ⟨attempts, state.worker.current, invariant.ended, ?_, ⟨state.queued, invariant.order.symm⟩,
    invariant.log⟩
  intro attempt current
  cases place : state.worker with
  | waiting => rw [place] at current; cases current
  | stopped => rw [place] at current; cases current
  | busy item performed rest =>
      rw [place] at current
      obtain rfl := Option.some.inj current
      exact ⟨performed, rest, invariant.begun item performed rest place, rfl⟩

/-- Behind the wait, every item of the job has been put, and every call of it made with
success. -/
theorem performed_of_passed (reachable : Reachable calls capacity job state)
    (passed : state.producer = .passed) :
    state.enqueued = job.items ∧
      state.performed = (job.items.flatMap calls).map fun call => (call, true) := by
  obtain ⟨attempts, invariant⟩ := exists_invariant reachable
  have covers := invariant.covers
  have sealed := invariant.sealed
  rw [passed] at covers sealed
  obtain ⟨⟨empty, stopped⟩, clean⟩ := sealed
  have order := invariant.order
  have log := invariant.log
  rw [stopped] at order log
  simp only [Worker.current, State.queued, empty, Option.toList_none, List.append_nil,
    List.filterMap_nil] at order log
  refine ⟨covers.symm, ?_⟩
  have items : job.items = attempts.map Attempt.item := covers.trans order
  rw [log, items, List.flatMap_map, List.map_flatMap]
  exact List.flatMap_congr fun attempt listed => invariant.clean clean attempt listed

end Safety

end GraphIngest.Foundation.WorkQueue
