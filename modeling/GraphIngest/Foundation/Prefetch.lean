import Mathlib.Data.List.Infix
import Mathlib.Data.List.ReduceOption

/-! # Loading ahead

A loader loads batches one by one and puts each into a bounded queue; a load can find nothing,
or raise, which ends the loader. A consumer takes the batches and delivers what is in them
item by item, and can be abandoned between two items. Then a stop event is set, at which the
loader looks before each load and, again and again, before and within each put. Behind the last
batch the loader puts an end marker.

What is delivered is at all times the first part of what the loads contain. The consumer waits
in vain in some run exactly when a load raises. Besides the batch that is consumed and those in
the queue the loader can hold one more.
-/

namespace GraphIngest.Foundation.Prefetch

variable {ε β α : Type*}

/-- Where the loader is: before the look at the stop event for the next batch, in a load,
before the look at it for a put, in the put, at its end. The end marker is `none`. -/
inductive Loader (ε β : Type*)
  | checking (rest : List (Except ε (Option β)))
  | loading (load : Except ε (Option β)) (rest : List (Except ε (Option β)))
  | polling (item : Option (Option β)) (rest : List (Except ε (Option β)))
  | offering (item : Option (Option β)) (rest : List (Except ε (Option β)))
  | ended

/-- Where the consumer is: at the queue, in a batch before an item, behind one that was
delivered; it came to the end, or was abandoned. -/
inductive Consumer (α : Type*)
  | waiting
  | yielding (rest : List α)
  | suspended (rest : List α)
  | finished
  | abandoned (rest : List α)

/-- The state of both, with the batches taken and the items delivered so far. -/
structure State (ε β α : Type*) where
  loader : Loader ε β
  consumer : Consumer α := .waiting
  queue : List (Option (Option β)) := []
  stopped : Bool := false
  received : List (Option β) := []
  delivered : List α := []

variable (items : β → List α) (capacity : Nat)

/-- A step of the loader. -/
inductive LoaderStep : State ε β α → State ε β α → Prop
  | stop {state load rest} (place : state.loader = .checking (load :: rest))
      (set : state.stopped = true) : LoaderStep state { state with loader := .ended }
  | begin {state load rest} (place : state.loader = .checking (load :: rest))
      (unset : state.stopped = false) : LoaderStep state { state with loader := .loading load rest }
  | load {state batch rest} (place : state.loader = .loading (.ok batch) rest) :
      LoaderStep state { state with loader := .polling (some batch) rest }
  | fail {state error rest} (place : state.loader = .loading (.error error) rest) :
      LoaderStep state { state with loader := .ended }
  | close {state} (place : state.loader = .checking []) :
      LoaderStep state { state with loader := .polling none [] }
  | offer {state item rest} (place : state.loader = .polling item rest)
      (unset : state.stopped = false) :
      LoaderStep state { state with loader := .offering item rest }
  | giveUp {state item rest} (place : state.loader = .polling item rest)
      (set : state.stopped = true) : LoaderStep state { state with loader := .ended }
  | timeout {state item rest} (place : state.loader = .offering item rest)
      (full : capacity ≤ state.queue.length) :
      LoaderStep state { state with loader := .polling item rest }
  | put {state batch rest} (place : state.loader = .offering (some batch) rest)
      (room : state.queue.length < capacity) :
      LoaderStep state
        { state with loader := .checking rest, queue := state.queue ++ [some batch] }
  | mark {state rest} (place : state.loader = .offering none rest)
      (room : state.queue.length < capacity) :
      LoaderStep state { state with loader := .ended, queue := state.queue ++ [none] }

/-- A step of the consumer. -/
inductive ConsumerStep : State ε β α → State ε β α → Prop
  | take {state batch queue} (place : state.consumer = .waiting)
      (front : state.queue = some (some batch) :: queue) :
      ConsumerStep state
        { state with
          consumer := .yielding (items batch)
          queue := queue
          received := state.received ++ [some batch] }
  | pass {state queue} (place : state.consumer = .waiting)
      (front : state.queue = some none :: queue) :
      ConsumerStep state { state with queue := queue, received := state.received ++ [none] }
  | finish {state queue} (place : state.consumer = .waiting) (front : state.queue = none :: queue) :
      ConsumerStep state { state with consumer := .finished, queue := queue, stopped := true }
  | yield {state item rest} (place : state.consumer = .yielding (item :: rest)) :
      ConsumerStep state
        { state with consumer := .suspended rest, delivered := state.delivered ++ [item] }
  | resume {state rest} (place : state.consumer = .suspended rest) :
      ConsumerStep state { state with consumer := .yielding rest }
  | exhaust {state} (place : state.consumer = .yielding []) :
      ConsumerStep state { state with consumer := .waiting }
  | abandon {state rest} (place : state.consumer = .suspended rest) :
      ConsumerStep state { state with consumer := .abandoned rest, stopped := true }

/-- The states of a run, in any interleaving. -/
inductive Reachable (plan : List (Except ε (Option β))) : State ε β α → Prop
  | start : Reachable plan { loader := .checking plan }
  | load {state next} (before : Reachable plan state) (step : LoaderStep capacity state next) :
      Reachable plan next
  | consume {state next} (before : Reachable plan state) (step : ConsumerStep items state next) :
      Reachable plan next

/-- The consumer waits at the empty queue, and the loader has ended. -/
structure State.Stuck (state : State ε β α) : Prop where
  waits : state.consumer = .waiting
  empty : state.queue = []
  ended : state.loader = .ended

/-- Whether what is put is a batch. -/
def isBatch : Option (Option β) → Bool
  | some (some _) => true
  | some none | none => false

/-- Whether the loader has a batch in its hands. -/
def Loader.resident : Loader ε β → Nat
  | polling item _ | offering item _ => if isBatch item then 1 else 0
  | checking _ | loading _ _ | ended => 0

/-- Whether the consumer has one. -/
def Consumer.resident : Consumer α → Nat
  | yielding _ | suspended _ => 1
  | waiting | finished | abandoned _ => 0

/-- The number of batches that are loaded and not yet fully consumed. -/
def State.resident (state : State ε β α) : Nat :=
  state.consumer.resident + state.queue.countP isBatch + state.loader.resident

/-- So many batches in a row that they fill the queue and the hands of both, and before them no
load that raises. -/
def Crowded (capacity : Nat) (plan : List (Except ε (Option β))) : Prop :=
  ∃ (front : List (Option β)) (window : List β) (rest : List (Except ε (Option β))),
    plan = (front ++ window.map some).map .ok ++ rest ∧ window.length = capacity + 2

/-- What is in a batch, if there is one. -/
def batchItems : Option β → List α
  | some batch => items batch
  | none => []

/-- What a load contains. -/
def loadItems : Except ε (Option β) → List α
  | .ok batch => batchItems items batch
  | .error _ => []

section Invariant

/-- What is left of the batch that is or was consumed. -/
def Consumer.pending : Consumer α → List α
  | waiting | finished => []
  | yielding rest | suspended rest | abandoned rest => rest

/-- Whether the consumer has left. -/
def Consumer.gone : Consumer α → Bool
  | waiting | yielding _ | suspended _ => false
  | finished | abandoned _ => true

/-- Whether the consumer came to the end. -/
def Consumer.complete : Consumer α → Bool
  | finished => true
  | waiting | yielding _ | suspended _ | abandoned _ => false

/-- Whether the consumer is in a batch. -/
def Consumer.within : Consumer α → Bool
  | yielding _ | suspended _ => true
  | waiting | finished | abandoned _ => false

/-- Whether the loader runs. -/
def Loader.running : Loader ε β → Bool
  | ended => false
  | checking _ | loading _ _ | polling _ _ | offering _ _ => true

/-- The batches that were put. -/
def State.past (state : State ε β α) : List (Option β) :=
  state.received ++ state.queue.reduceOption

/-- How the batches that were put and what the loader has before it make up the plan. -/
def Loader.Agrees (plan : List (Except ε (Option β))) (past : List (Option β)) :
    Loader ε β → Prop
  | checking rest => past.map .ok ++ rest = plan
  | loading load rest => past.map .ok ++ load :: rest = plan
  | polling item rest => (past ++ item.toList).map .ok ++ rest = plan ∧ (item = none → rest = [])
  | offering item rest => (past ++ item.toList).map .ok ++ rest = plan ∧ (item = none → rest = [])
  | ended => past.map .ok <+: plan

/-- What holds in every state of a run. -/
structure Invariant (plan : List (Except ε (Option β))) (state : State ε β α) : Prop where
  agrees : state.loader.Agrees plan state.past
  read : state.delivered ++ state.consumer.pending = state.received.flatMap (batchItems items)
  current : state.consumer.within = true → ∃ past batch, state.received = past ++ [some batch]
  stop : state.stopped = state.consumer.gone
  room : state.queue.length ≤ capacity
  marked : state.loader = .ended →
    none ∈ state.queue ∨ state.consumer.gone = true ∨ ∃ error, .error error ∈ plan
  closed : none ∈ state.queue ∨ state.consumer.complete = true →
    state.loader = .ended ∧ state.past.map .ok = plan
  last : ∀ front back, state.queue = front ++ none :: back → back = []
  drained : state.consumer.complete = true → state.queue = []

variable {items capacity} {plan : List (Except ε (Option β))} {state next : State ε β α}

theorem Loader.Agrees.isPrefix {past : List (Option β)} {loader : Loader ε β}
    (agrees : loader.Agrees plan past) : past.map .ok <+: plan := by
  cases loader with
  | checking rest => exact ⟨rest, agrees⟩
  | loading load rest => exact ⟨load :: rest, agrees⟩
  | polling item rest =>
      refine ⟨item.toList.map .ok ++ rest, ?_⟩
      rw [← List.append_assoc, ← List.map_append]
      exact agrees.1
  | offering item rest =>
      refine ⟨item.toList.map .ok ++ rest, ?_⟩
      rw [← List.append_assoc, ← List.map_append]
      exact agrees.1
  | ended => exact agrees

/-- The invariant holds at the start. -/
theorem Invariant.start : Invariant items capacity plan { loader := .checking plan } where
  agrees := rfl
  read := rfl
  current := fun within => absurd within Bool.false_ne_true
  stop := rfl
  room := Nat.zero_le _
  marked := by
    intro ended
    cases ended
  closed := by
    intro closed
    rcases closed with listed | finished
    · exact absurd listed List.not_mem_nil
    · cases finished
  last := fun front _ split =>
    absurd split.symm (List.append_ne_nil_of_right_ne_nil front (List.cons_ne_nil _ _))
  drained := fun _ => rfl

theorem Invariant.at_place (invariant : Invariant items capacity plan state) {loader : Loader ε β}
    (place : state.loader = loader) : loader.Agrees plan state.past :=
  place ▸ invariant.agrees

/-- While the loader runs, there is no end marker. -/
theorem Invariant.unmarked (invariant : Invariant items capacity plan state) {loader : Loader ε β}
    (place : state.loader = loader) (runs : loader.running = true) :
    ¬ (none ∈ state.queue ∨ state.consumer.complete = true) := by
  intro closed
  rw [← place, (invariant.closed closed).1] at runs
  cases runs

/-- The loader goes on. -/
theorem Invariant.turn (invariant : Invariant items capacity plan state) {loader : Loader ε β}
    (place : state.loader = loader) (runs : loader.running = true) {target : Loader ε β}
    (goesOn : target.running = true) (agrees : target.Agrees plan state.past) :
    Invariant items capacity plan { state with loader := target } where
  agrees := agrees
  read := invariant.read
  current := invariant.current
  stop := invariant.stop
  room := invariant.room
  marked := by
    intro ended
    rw [show target = .ended from ended] at goesOn
    cases goesOn
  closed := fun closed => absurd closed (invariant.unmarked place runs)
  last := invariant.last
  drained := invariant.drained

/-- The loader ends before it has put the end marker. -/
theorem Invariant.halt (invariant : Invariant items capacity plan state) {loader : Loader ε β}
    (place : state.loader = loader) (runs : loader.running = true)
    (ends : state.stopped = true ∨ ∃ error, .error error ∈ plan) :
    Invariant items capacity plan { state with loader := .ended } where
  agrees := invariant.agrees.isPrefix
  read := invariant.read
  current := invariant.current
  stop := invariant.stop
  room := invariant.room
  marked := fun _ => Or.inr (ends.imp_left fun set => invariant.stop.symm.trans set)
  closed := fun closed => absurd closed (invariant.unmarked place runs)
  last := invariant.last
  drained := invariant.drained

/-- What the loader puts is put behind the rest. -/
theorem State.past_put (state : State ε β α) (loader : Loader ε β) (item : Option (Option β)) :
    State.past { state with loader := loader, queue := state.queue ++ [item] } =
      state.past ++ item.toList := by
  rw [State.past, State.past, List.reduceOption_append, List.append_assoc]
  cases item with
  | none => rfl
  | some batch => rfl

/-- The loader puts a batch. -/
theorem Invariant.put (invariant : Invariant items capacity plan state) {batch : Option β}
    {rest : List (Except ε (Option β))} (place : state.loader = .offering (some batch) rest)
    (room : state.queue.length < capacity) :
    Invariant items capacity plan
      { state with loader := .checking rest, queue := state.queue ++ [some batch] } := by
  have unmarked := invariant.unmarked place rfl
  have kept : none ∈ state.queue ++ [some batch] → none ∈ state.queue := by
    intro listed
    exact (List.mem_append.mp listed).resolve_right fun lone =>
      Option.some_ne_none batch (List.mem_singleton.mp lone).symm
  constructor
  · rw [State.past_put]
    exact (invariant.at_place place).1
  · exact invariant.read
  · exact invariant.current
  · exact invariant.stop
  · rw [List.length_append, List.length_singleton]
    exact room
  · intro ended
    cases ended
  · exact fun closed => absurd (closed.imp_left kept) unmarked
  · intro front back split
    refine absurd (Or.inl (kept ?_)) unmarked
    change state.queue ++ [some batch] = front ++ none :: back at split
    rw [split]
    exact List.mem_append_right _ List.mem_cons_self
  · exact fun complete => absurd (Or.inr complete) unmarked

/-- The loader puts the end marker. -/
theorem Invariant.mark (invariant : Invariant items capacity plan state)
    {rest : List (Except ε (Option β))} (place : state.loader = .offering none rest)
    (room : state.queue.length < capacity) :
    Invariant items capacity plan
      { state with loader := .ended, queue := state.queue ++ [none] } := by
  obtain ⟨agrees, last⟩ := invariant.at_place place
  have unmarked := invariant.unmarked place rfl
  have whole : (state.past ++ (none : Option (Option β)).toList).map .ok = plan := by
    rw [last rfl, List.append_nil] at agrees
    exact agrees
  constructor
  · rw [State.past_put, Loader.Agrees, whole]
  · exact invariant.read
  · exact invariant.current
  · exact invariant.stop
  · rw [List.length_append, List.length_singleton]
    exact room
  · exact fun _ => Or.inl (List.mem_append_right _ (List.mem_singleton_self _))
  · refine fun _ => ⟨rfl, ?_⟩
    rw [State.past_put]
    exact whole
  · intro front back split
    rcases List.eq_nil_or_concat back with empty | ⟨more, final, rfl⟩
    · exact empty
    · change state.queue ++ [none] = front ++ none :: more.concat final at split
      rw [List.concat_eq_append, ← List.cons_append, ← List.append_assoc] at split
      have before := (List.append_inj' split rfl).1
      exact absurd (Or.inl (before ▸ List.mem_append_right _ List.mem_cons_self)) unmarked
  · exact fun complete => absurd (Or.inr complete) unmarked

/-- A step of the loader keeps the invariant. -/
theorem Invariant.loaderStep (invariant : Invariant items capacity plan state)
    (step : LoaderStep capacity state next) : Invariant items capacity plan next := by
  cases step with
  | stop place set => exact invariant.halt place rfl (Or.inl set)
  | begin place _ =>
      have agrees := invariant.at_place place
      exact invariant.turn place rfl rfl agrees
  | @load batch rest place =>
      refine invariant.turn place rfl rfl ⟨?_, fun same => absurd same (Option.some_ne_none _)⟩
      rw [Option.toList_some, List.map_append, List.append_assoc]
      exact invariant.at_place place
  | @fail error rest place =>
      apply invariant.halt place rfl
      refine Or.inr ⟨error, ?_⟩
      rw [← invariant.at_place place]
      exact List.mem_append_right _ List.mem_cons_self
  | close place =>
      refine invariant.turn place rfl rfl ⟨?_, fun _ => rfl⟩
      rw [Option.toList_none, List.append_nil, List.append_nil]
      exact (List.append_nil _).symm.trans (invariant.at_place place)
  | offer place _ =>
      have agrees := invariant.at_place place
      exact invariant.turn place rfl rfl agrees
  | giveUp place set => exact invariant.halt place rfl (Or.inl set)
  | timeout place _ =>
      have agrees := invariant.at_place place
      exact invariant.turn place rfl rfl agrees
  | put place room => exact invariant.put place room
  | mark place room => exact invariant.mark place room

/-- The consumer goes on in a batch, or leaves it. -/
theorem Invariant.move (invariant : Invariant items capacity plan state)
    (stays : state.consumer.gone = false) {consumer : Consumer α} {delivered : List α}
    {stopped : Bool}
    (read : delivered ++ consumer.pending = state.received.flatMap (batchItems items))
    (within : consumer.within = true → state.consumer.within = true)
    (stop : stopped = consumer.gone) (unfinished : consumer.complete = false) :
    Invariant items capacity plan
      { state with consumer := consumer, delivered := delivered, stopped := stopped } where
  agrees := invariant.agrees
  read := read
  current := fun inside => invariant.current (within inside)
  stop := stop
  room := invariant.room
  marked := by
    intro ended
    refine (invariant.marked ended).imp_right (Or.imp_left fun gone => ?_)
    rw [stays] at gone
    cases gone
  closed := fun closed =>
    invariant.closed (Or.inl (closed.resolve_right (Bool.eq_false_iff.mp unfinished)))
  last := invariant.last
  drained := fun complete => absurd complete (Bool.eq_false_iff.mp unfinished)

/-- What is taken out of the queue has been put. -/
theorem State.past_take {batch : Option β} {queue : List (Option (Option β))}
    (front : state.queue = some batch :: queue) :
    state.received ++ [batch] ++ queue.reduceOption = state.past := by
  rw [State.past, front, List.reduceOption_cons_of_some, List.append_assoc]
  rfl

/-- The consumer takes out of the queue what is not the end marker, and begins with what is in
it. -/
theorem Invariant.receive (invariant : Invariant items capacity plan state)
    (place : state.consumer = .waiting) {batch : Option β} {queue : List (Option (Option β))}
    (front : state.queue = some batch :: queue) {consumer : Consumer α}
    (stays : consumer.gone = false) (unfinished : consumer.complete = false)
    (begins : consumer.pending = batchItems items batch)
    (current : consumer.within = true → ∃ held, batch = some held) :
    Invariant items capacity plan
      { state with
        consumer := consumer
        queue := queue
        received := state.received ++ [batch] } where
  agrees := by
    rw [State.past, State.past_take front]
    exact invariant.agrees
  read := by
    have read := invariant.read
    rw [place, Consumer.pending, List.append_nil] at read
    rw [begins, List.flatMap_append, List.flatMap_singleton, read]
  current := by
    intro within
    obtain ⟨held, rfl⟩ := current within
    exact ⟨state.received, held, rfl⟩
  stop := by
    rw [stays]
    exact invariant.stop.trans (place ▸ rfl)
  room := by
    have room := invariant.room
    rw [front] at room
    exact (Nat.le_succ _).trans room
  marked := by
    intro ended
    rcases invariant.marked ended with listed | gone | raised
    · rw [front] at listed
      exact Or.inl ((List.mem_cons.mp listed).resolve_left (Option.some_ne_none _).symm)
    · rw [place] at gone
      cases gone
    · exact Or.inr (Or.inr raised)
  closed := by
    intro closed
    have listed := closed.resolve_right (Bool.eq_false_iff.mp unfinished)
    rw [State.past, State.past_take front]
    exact invariant.closed (Or.inl (front ▸ List.mem_cons_of_mem _ listed))
  last := fun before back split =>
    invariant.last (some batch :: before) back (front.trans (congrArg _ split))
  drained := fun complete => absurd complete (Bool.eq_false_iff.mp unfinished)

/-- The consumer takes the end marker out of the queue. -/
theorem Invariant.finish (invariant : Invariant items capacity plan state)
    (place : state.consumer = .waiting) {queue : List (Option (Option β))}
    (front : state.queue = none :: queue) :
    Invariant items capacity plan
      { state with consumer := .finished, queue := queue, stopped := true } := by
  have read := invariant.read
  have room := invariant.room
  rw [place] at read
  rw [front] at room
  have past : state.received ++ queue.reduceOption = state.past := by
    rw [State.past, front, List.reduceOption_cons_of_none]
  have listed : none ∈ state.queue := front ▸ List.mem_cons_self
  constructor
  · rw [State.past, past]
    exact invariant.agrees
  · exact read
  · exact fun inside => absurd inside Bool.false_ne_true
  · rfl
  · exact (Nat.le_succ _).trans room
  · exact fun _ => Or.inr (Or.inl rfl)
  · intro _
    rw [State.past, past]
    exact invariant.closed (Or.inl listed)
  · exact fun before back split =>
      invariant.last (none :: before) back (front.trans (congrArg _ split))
  · exact fun _ => invariant.last [] queue front

/-- A step of the consumer keeps the invariant. -/
theorem Invariant.consumerStep (invariant : Invariant items capacity plan state)
    (step : ConsumerStep items state next) : Invariant items capacity plan next := by
  have read := invariant.read
  have stop := invariant.stop
  cases step with
  | @take batch queue place front =>
      exact invariant.receive place front rfl rfl rfl fun _ => ⟨batch, rfl⟩
  | pass place front =>
      apply invariant.receive place front (place ▸ rfl) (place ▸ rfl) (place ▸ rfl)
      intro within
      rw [place] at within
      cases within
  | finish place front => exact invariant.finish place front
  | @yield item rest place =>
      rw [place] at read stop
      have stays : state.consumer.gone = false := place ▸ rfl
      refine invariant.move stays ?_ (fun _ => place ▸ rfl) stop rfl
      rw [List.append_assoc]
      exact read
  | resume place =>
      rw [place] at read stop
      have stays : state.consumer.gone = false := place ▸ rfl
      exact invariant.move stays read (fun _ => place ▸ rfl) stop rfl
  | exhaust place =>
      rw [place] at read stop
      have stays : state.consumer.gone = false := place ▸ rfl
      exact invariant.move stays read (fun inside => absurd inside Bool.false_ne_true) stop rfl
  | abandon place =>
      rw [place] at read
      have stays : state.consumer.gone = false := place ▸ rfl
      exact invariant.move stays read (fun inside => absurd inside Bool.false_ne_true) rfl rfl

/-- The invariant holds in every state of a run. -/
theorem Reachable.invariant (reached : Reachable items capacity plan state) :
    Invariant items capacity plan state := by
  induction reached with
  | start => exact Invariant.start
  | load _ step ih => exact ih.loaderStep step
  | consume _ step ih => exact ih.consumerStep step

/-- The items of batches that were all loaded are those of the batches. -/
theorem flatMap_loadItems (batches : List (Option β)) :
    (batches.map .ok).flatMap (@loadItems ε β α items) = batches.flatMap (batchItems items) :=
  (List.flatMap_map _ _ batches).trans rfl

/-- What was delivered is the first part of what the loads contain. -/
theorem Invariant.isPrefix (invariant : Invariant items capacity plan state) :
    state.delivered <+: plan.flatMap (loadItems items) := by
  have read : state.delivered <+: state.received.flatMap (batchItems items) :=
    ⟨_, invariant.read⟩
  have taken : state.received.map .ok <+: plan :=
    ((List.prefix_append _ _).map Except.ok).trans invariant.agrees.isPrefix
  have contents := taken.flatMap (loadItems items)
  rw [flatMap_loadItems] at contents
  exact read.trans contents

/-- A consumer that came to the end has delivered everything. -/
theorem Invariant.complete (invariant : Invariant items capacity plan state)
    (complete : state.consumer = .finished) :
    state.delivered = plan.flatMap (loadItems items) := by
  have complete : state.consumer.complete = true := complete ▸ rfl
  have whole := (invariant.closed (Or.inr complete)).2
  have read := invariant.read
  have nothing : state.consumer.pending = [] := by
    cases place : state.consumer with
    | finished => rfl
    | waiting => rfl
    | yielding _ => rw [place] at complete; cases complete
    | suspended _ => rw [place] at complete; cases complete
    | abandoned _ => rw [place] at complete; cases complete
  rw [State.past, invariant.drained complete, List.reduceOption_nil, List.append_nil] at whole
  rw [nothing, List.append_nil] at read
  rw [read, ← whole, flatMap_loadItems]

/-- Who waits in vain does so because a load has raised. -/
theorem Invariant.raised (invariant : Invariant items capacity plan state) (stuck : state.Stuck) :
    ∃ error, .error error ∈ plan := by
  rcases invariant.marked stuck.ended with listed | gone | raised
  · rw [stuck.empty] at listed
    cases listed
  · rw [stuck.waits] at gone
    cases gone
  · exact raised

end Invariant

/-- The first load that raises. -/
theorem exists_first_error {plan : List (Except ε (Option β))}
    (raised : ∃ error, .error error ∈ plan) :
    ∃ (front : List (Option β)) (error : ε) (rest : List (Except ε (Option β))),
      plan = front.map .ok ++ .error error :: rest := by
  induction plan with
  | nil =>
      obtain ⟨error, listed⟩ := raised
      cases listed
  | cons load plan ih =>
      cases load with
      | error error => exact ⟨[], error, plan, rfl⟩
      | ok batch =>
          obtain ⟨error, listed⟩ := raised
          rcases List.mem_cons.mp listed with same | later
          · cases same
          · obtain ⟨front, first, rest, rfl⟩ := ih ⟨error, later⟩
            exact ⟨batch :: front, first, rest, rfl⟩

section Runs

variable {items capacity} {plan : List (Except ε (Option β))} {rest : List (Except ε (Option β))}
  {consumer : Consumer α} {queue : List (Option (Option β))} {received : List (Option β)}
  {delivered : List α}

/-- The loader loads a batch and looks at the stop event once more. -/
theorem Reachable.loads {batch : Option β}
    (reached : Reachable items capacity plan
      ⟨.checking (.ok batch :: rest), consumer, queue, false, received, delivered⟩) :
    Reachable items capacity plan
      ⟨.offering (some batch) rest, consumer, queue, false, received, delivered⟩ :=
  ((reached.load (.begin rfl rfl)).load (.load rfl)).load (.offer rfl rfl)

/-- The loader fills the queue. -/
theorem Reachable.fills {batches : List (Option β)}
    (room : queue.length + batches.length ≤ capacity)
    (reached : Reachable items capacity plan
      ⟨.checking (batches.map .ok ++ rest), consumer, queue, false, received, delivered⟩) :
    Reachable items capacity plan
      ⟨.checking rest, consumer, queue ++ batches.map some, false, received, delivered⟩ := by
  induction batches generalizing queue with
  | nil =>
      rw [List.map_nil, List.append_nil]
      exact reached
  | cons batch batches ih =>
      rw [List.length_cons] at room
      have before : queue.length < capacity := by omega
      have put : Reachable items capacity plan
          ⟨.checking (batches.map .ok ++ rest), consumer, queue ++ [some batch], false, received,
            delivered⟩ := reached.loads.load (.put rfl before)
      rw [List.map_cons, List.append_cons]
      refine ih ?_ put
      rw [List.length_append, List.length_singleton]
      omega

/-- The consumer delivers all that is left of a batch. -/
theorem Reachable.delivers {left : List α} {loader : Loader ε β}
    (reached : Reachable items capacity plan
      ⟨loader, .yielding left, queue, false, received, delivered⟩) :
    Reachable items capacity plan
      ⟨loader, .waiting, queue, false, received, delivered ++ left⟩ := by
  induction left generalizing delivered with
  | nil =>
      rw [List.append_nil]
      exact reached.consume (.exhaust rfl)
  | cons item left ih =>
      rw [List.append_cons]
      exact ih ((reached.consume (.yield rfl)).consume (.resume rfl))

/-- The consumer takes a batch and delivers what is in it. -/
theorem Reachable.consumes {batch : Option β} {loader : Loader ε β}
    (reached : Reachable items capacity plan
      ⟨loader, .waiting, [some batch], false, received, delivered⟩) :
    Reachable items capacity plan
      ⟨loader, .waiting, [], false, received ++ [batch], delivered ++ batchItems items batch⟩ := by
  cases batch with
  | none =>
      rw [batchItems, List.append_nil]
      exact reached.consume (.pass rfl rfl)
  | some batch => exact (reached.consume (.take rfl rfl)).delivers

/-- In turns, the loader loads a batch and the consumer delivers what is in it. -/
theorem Reachable.inTurns (positive : 0 < capacity) {front : List (Option β)} :
    Reachable items capacity (front.map .ok ++ rest)
      ⟨.checking rest, .waiting, [], false, front, front.flatMap (batchItems items)⟩ := by
  induction front using List.reverseRecOn generalizing rest with
  | nil => exact Reachable.start
  | append_singleton front batch ih =>
      rw [List.map_append, List.append_assoc, List.flatMap_append, List.flatMap_singleton]
      exact (@Reachable.fills _ _ _ _ _ _ rest _ _ _ _ [batch] positive ih).consumes

/-- **When the consumer waits in vain.** It does in some run exactly when a load raises. -/
theorem exists_stuck_iff (positive : 0 < capacity) :
    (∃ state, Reachable items capacity plan state ∧ state.Stuck) ↔
      ∃ error, .error error ∈ plan := by
  constructor
  · intro found
    obtain ⟨state, reached, stuck⟩ := found
    exact reached.invariant.raised stuck
  · intro raised
    obtain ⟨front, error, rest, rfl⟩ := exists_first_error raised
    refine ⟨_, ((Reachable.inTurns positive).load (.begin rfl rfl)).load (.fail rfl), ?_⟩
    exact ⟨rfl, rfl, rfl⟩

/-- A queue of batches only. -/
theorem exists_batches {queue : List (Option (Option β))}
    (only : ∀ item ∈ queue, isBatch item = true) :
    ∃ batches : List β, queue = (batches.map some).map some := by
  induction queue with
  | nil => exact ⟨[], rfl⟩
  | cons item queue ih =>
      obtain ⟨batches, rfl⟩ := ih fun other listed => only other (List.mem_cons_of_mem item listed)
      obtain ⟨batch, rfl⟩ : ∃ batch : β, item = some (some batch) := by
        have here := only item List.mem_cons_self
        rcases item with _ | _ | batch
        · cases here
        · cases here
        · exact ⟨batch, rfl⟩
      exact ⟨batch :: batches, rfl⟩

theorem reduceOption_map_some {γ : Type*} (things : List γ) :
    (things.map some).reduceOption = things := by
  induction things with
  | nil => rfl
  | cons thing things ih => rw [List.map_cons, List.reduceOption_cons_of_some, ih]

/-- A row of two or more has a first, a last and those between them. -/
theorem exists_ends {γ : Type*} {row : List γ} {between : Nat} (long : row.length = between + 2) :
    ∃ first middle last, row = first :: (middle ++ [last]) ∧ middle.length = between := by
  obtain ⟨first, others, rfl⟩ := List.exists_cons_of_length_eq_add_one long
  rw [List.length_cons] at long
  rcases List.eq_nil_or_concat others with rfl | ⟨middle, last, rfl⟩
  · cases long
  · rw [List.concat_eq_append, List.length_append, List.length_singleton] at long
    exact ⟨first, middle, last, by rw [List.concat_eq_append], by omega⟩

theorem exists_map_eq {γ δ : Type*} {image : γ → δ} {things : List δ}
    (all : ∀ thing ∈ things, ∃ source, image source = thing) :
    ∃ sources : List γ, sources.map image = things := by
  induction things with
  | nil => exact ⟨[], rfl⟩
  | cons thing things ih =>
      obtain ⟨sources, rfl⟩ := ih fun other listed => all other (List.mem_cons_of_mem thing listed)
      obtain ⟨source, rfl⟩ := all thing List.mem_cons_self
      exact ⟨source :: sources, rfl⟩

/-- So many batches in a row, by their places. -/
theorem crowded_range_iff {total : Nat} {load : Nat → Except ε (Option β)} :
    Crowded capacity ((List.range total).map load) ↔
      ∃ place, place + capacity + 1 < total ∧
        (∀ earlier < place, ∃ batch, load earlier = .ok batch) ∧
        ∀ index, place ≤ index → index ≤ place + capacity + 1 →
          ∃ batch, load index = .ok (some batch) := by
  constructor
  · intro crowded
    obtain ⟨front, window, rest, whole, long⟩ := crowded
    have count : front.length + (capacity + 2) + rest.length = total := by
      have lengths := congrArg List.length whole
      rw [List.length_map, List.length_range, List.length_append, List.length_map,
        List.length_append, List.length_map, long] at lengths
      exact lengths.symm
    have loaded (index : Nat) (before : index < (front ++ window.map some).length) :
        load index = .ok (front ++ window.map some)[index] := by
      have within : index < total := by
        rw [List.length_append, List.length_map, long] at before
        omega
      have here := congrArg (fun loads => loads[index]?) whole
      rw [List.getElem?_map, List.getElem?_range within, List.getElem?_append_left
        (by rwa [List.length_map]), List.getElem?_map, List.getElem?_eq_getElem before] at here
      exact Option.some.inj here
    refine ⟨front.length, by omega, fun earlier before => ?_, fun index after before => ?_⟩
    · exact ⟨_, loaded earlier (by rw [List.length_append]; omega)⟩
    · have listed : index < (front ++ window.map some).length := by
        rw [List.length_append, List.length_map, long]
        omega
      refine ⟨window[index - front.length], (loaded index listed).trans ?_⟩
      rw [List.getElem_append_right after, List.getElem_map]
  · intro found
    obtain ⟨place, within, earlier, row⟩ := found
    obtain ⟨front, fronts⟩ := @exists_map_eq _ _ Except.ok ((List.range place).map load) (by
      intro thing listed
      obtain ⟨index, before, rfl⟩ := List.mem_map.mp listed
      obtain ⟨batch, same⟩ := earlier index (List.mem_range.mp before)
      exact ⟨batch, same.symm⟩)
    obtain ⟨window, windows⟩ := @exists_map_eq _ _ (fun batch : β => Except.ok (some batch))
      ((List.range' place (capacity + 2)).map load) (by
        intro thing listed
        obtain ⟨index, between, rfl⟩ := List.mem_map.mp listed
        obtain ⟨after, before⟩ := List.mem_range'_1.mp between
        obtain ⟨batch, same⟩ := row index after (by omega)
        exact ⟨batch, same.symm⟩)
    refine ⟨front, window, (List.range' (place + (capacity + 2))
      (total - (place + (capacity + 2)))).map load, ?_, ?_⟩
    · have parts : List.range total = List.range place ++ List.range' place (capacity + 2) ++
          List.range' (place + (capacity + 2)) (total - (place + (capacity + 2))) := by
        have front := @List.range'_append_1 0 place (capacity + 2)
        have whole := @List.range'_append_1 0 (place + (capacity + 2))
          (total - (place + (capacity + 2)))
        rw [Nat.zero_add] at front whole
        rw [List.range_eq_range', List.range_eq_range', front, whole,
          Nat.add_sub_cancel' (by omega)]
      rw [parts, List.map_append, List.map_append, List.map_append, fronts, List.map_map, ← windows]
      rfl
    · have lengths := congrArg List.length windows
      rw [List.length_map, List.length_map, List.length_range'] at lengths
      exact lengths

/-- The batch the loader has in its hands is the next one. -/
theorem Invariant.exists_held {state : State ε β α}
    (invariant : Invariant items capacity plan state) (held : 0 < state.loader.resident) :
    ∃ (batch : β) (rest : List (Except ε (Option β))),
      plan = (state.past ++ [some batch]).map .ok ++ rest := by
  have agrees := invariant.agrees
  cases place : state.loader with
  | polling item rest =>
      rw [place] at agrees held
      rcases item with _ | _ | batch
      · cases held
      · cases held
      · exact ⟨batch, rest, agrees.1.symm⟩
  | offering item rest =>
      rw [place] at agrees held
      rcases item with _ | _ | batch
      · cases held
      · cases held
      · exact ⟨batch, rest, agrees.1.symm⟩
  | _ =>
      rw [place] at held
      cases held

/-- The loader holds one batch at most. -/
theorem Loader.resident_le (loader : Loader ε β) : loader.resident ≤ 1 := by
  have few (item : Option (Option β)) : (if isBatch item then 1 else 0) ≤ 1 := by
    split
    · exact Nat.le_refl 1
    · exact Nat.zero_le 1
  cases loader with
  | polling item rest => exact few item
  | offering item rest => exact few item
  | _ => exact Nat.zero_le 1

/-- The consumer holds one batch while it is inside it, else none. -/
theorem Consumer.resident_le (consumer : Consumer α) :
    consumer.resident = 1 ∧ consumer.within = true ∨ consumer.resident = 0 := by
  cases consumer with
  | yielding rest => exact Or.inl ⟨rfl, rfl⟩
  | suspended rest => exact Or.inl ⟨rfl, rfl⟩
  | _ => exact Or.inr rfl

/-- Where queue and hands are full, they hold batches in a row. -/
theorem Invariant.crowded {state : State ε β α} (invariant : Invariant items capacity plan state)
    (many : capacity + 1 < state.resident) : Crowded capacity plan := by
  have few := state.loader.resident_le
  have listed := @List.countP_le_length _ isBatch state.queue
  have room := invariant.room
  rw [State.resident] at many
  rcases state.consumer.resident_le with ⟨here, within⟩ | idle
  · obtain ⟨front, first, received⟩ := invariant.current within
    obtain ⟨last, rest, whole⟩ := invariant.exists_held (by omega)
    have full : state.queue.countP isBatch = state.queue.length := by omega
    obtain ⟨batches, queue⟩ := exists_batches (List.countP_eq_length.mp full)
    have past : state.past = front ++ (first :: batches).map some := by
      rw [State.past, received, queue, reduceOption_map_some, List.append_assoc]
      rfl
    refine ⟨front, first :: batches ++ [last], rest, ?_, ?_⟩
    · rw [whole, past, List.append_assoc, List.map_append (f := some)]
      rfl
    · have long : state.queue.length = batches.length := by
        rw [queue, List.length_map, List.length_map]
      rw [List.cons_append, List.length_cons, List.length_append, List.length_singleton, ← long]
      omega
  · omega

/-- Queue and hands are filled with batches that follow one another. -/
theorem Reachable.crowds (positive : 0 < capacity) {front : List (Option β)} {first last : β}
    {middle : List β} (fits : middle.length ≤ capacity) :
    Reachable items capacity
      (front.map .ok ++ .ok (some first) ::
        ((middle.map some).map .ok ++ .ok (some last) :: rest))
      ⟨.offering (some (some last)) rest, .yielding (items first), (middle.map some).map some,
        false, front ++ [some first], front.flatMap (batchItems items)⟩ := by
  have turned := @Reachable.inTurns ε β α items capacity (.ok (some first) ::
    ((middle.map some).map .ok ++ .ok (some last) :: rest)) positive front
  have queued := turned.loads.load (.put rfl positive)
  have taken := queued.consume (.take rfl rfl)
  refine (taken.fills ?_).loads
  rw [List.length_map, List.length_nil, Nat.zero_add]
  exact fits

/-- **How many batches are loaded at a time.** The batch that is consumed and those for which
the queue has room are the only ones in every run exactly when never so many batches follow one
another that the loader holds one more. -/
theorem exists_resident_iff (positive : 0 < capacity) :
    (∃ state, Reachable items capacity plan state ∧ capacity + 1 < state.resident) ↔
      Crowded capacity plan := by
  constructor
  · intro found
    obtain ⟨state, reached, many⟩ := found
    exact reached.invariant.crowded many
  · intro crowded
    obtain ⟨front, window, rest, rfl, long⟩ := crowded
    obtain ⟨first, middle, last, rfl, fits⟩ := exists_ends long
    have parts : (front ++ (first :: (middle ++ [last])).map some).map .ok ++ rest =
        front.map .ok ++ .ok (some first) ::
          ((middle.map some).map .ok ++ .ok (some last) :: rest) := by
      simp only [List.map_append, List.map_cons, List.map_nil, List.append_assoc,
        List.cons_append, List.nil_append]
    have all : ((middle.map some).map some).countP isBatch = capacity := by
      rw [List.countP_map, List.countP_map]
      exact (List.countP_eq_length.mpr fun _ _ => rfl).trans fits
    refine ⟨_, parts ▸ Reachable.crowds positive fits.le, ?_⟩
    change capacity + 1 < 1 + ((middle.map some).map some).countP isBatch + 1
    rw [all]
    omega

end Runs

end GraphIngest.Foundation.Prefetch
