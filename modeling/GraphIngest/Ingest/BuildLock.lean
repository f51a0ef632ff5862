import GraphIngest.Ingest.Indexing
import Mathlib.Logic.Function.Basic

/-! # Runs under the build lock

Runs of one namespace share a metadata record, which holds lock and status, and a
graph. A run takes the lock if it is free or was taken before the run's staleness
bound, reads the metadata, marks the namespace as being indexed, writes the graph
step by step, publishes the hash and releases the lock. Each of these is one
operation on the store, between any two of them any time passes and other runs go
on, and a run can fail or crash at any of them.
-/

namespace GraphIngest.Ingest

open Foundation

/-- The status of a namespace. -/
inductive Status
  | indexing | ready | error
deriving DecidableEq, Repr

/-- The metadata of a namespace. -/
structure GraphMeta where
  codebaseHash : Option Str := none
  status : Option Status := none
  lockedAt : Option Int := none
  lockToken : Option Nat := none
deriving DecidableEq

/-- Where a run stands: before its claim of the lock, under it, or at its end. -/
inductive Phase
  | waiting
  | begun (staleBefore : Int)
  | claiming (staleBefore now : Int)
  | refused
  | holding
  | compared (baseline : Option Str)
  | planned (mode : Mode)
  | indexing (mode : Mode)
  | published
  | failed
  | closing
  | ended
deriving DecidableEq

namespace Phase

/-- Whether a run is between its claim and its release. -/
def live : Phase → Bool
  | .holding | .compared _ | .planned _ | .indexing _ | .published | .failed | .closing => true
  | _ => false

/-- Whether an exception is handled. -/
def guarded : Phase → Bool
  | .holding | .compared _ | .planned _ | .indexing _ | .published => true
  | _ => false

theorem live_of_guarded {phase : Phase} (guarded : phase.guarded = true) : phase.live = true := by
  cases phase <;> first | rfl | cases guarded

end Phase

/-- A run: where it stands, and the writes it has not done yet. -/
structure RunState (G : Type) where
  phase : Phase := .waiting
  pending : Script G := .done

/-- The store, the clock, and the runs by their tokens. -/
structure World (G : Type) where
  clock : Int
  graphMeta : Option GraphMeta
  graph : G
  runs : Nat → RunState G

namespace World

variable {G : Type} (world : World G)

/-- Change a run. -/
def setRun (run : Nat) (state : RunState G) : World G :=
  { world with runs := Function.update world.runs run state }

/-- Move a run on. -/
def goto (run : Nat) (phase : Phase) : World G :=
  world.setRun run { phase := phase, pending := (world.runs run).pending }

/-- `upsert_graph_meta`. -/
def upsertMeta (change : GraphMeta → GraphMeta) : World G :=
  { world with graphMeta := some (change (world.graphMeta.getD {})) }

/-- `release_lock`: only by the token in the lock. -/
def releaseLock (run : Nat) : World G :=
  { world with
    graphMeta := world.graphMeta.map fun found =>
      if found.lockToken = some run then { found with lockedAt := none, lockToken := none }
      else found }

end World

/-- What a run indexes: the manifest of its codebase, and what `index_repo` does to the
graph. -/
structure Job (G : Type) where
  manifest : Dict Str Str
  index : Mode → Script G

/-- The runs of a namespace, with the hash of manifests, the file hashes read off a
graph, and the time after which a lock is stale. -/
structure Namespace (G : Type) where
  digest : Str → Str
  fileShas : G → Dict Str Str
  staleSeconds : Int
  jobs : Nat → Job G

namespace Namespace

variable {G : Type} (space : Namespace G)

/-- The hash of the codebase of a run. -/
def hash (run : Nat) : Str := codebaseHash space.digest (space.jobs run).manifest

/-- The hash to compare with: that of a ready graph. -/
def baseline (graphMeta : Option GraphMeta) : Option Str :=
  match graphMeta with
  | none => none
  | some found =>
      found.codebaseHash.filter fun hash => decide (hash ≠ []) && found.status == some .ready

/-- How a run brings a graph up to date. -/
def change (run : Nat) (graph : G) : Mode :=
  updateMode (space.jobs run).manifest (space.fileShas graph)

/-- The plan of a run. -/
def plan (run : Nat) (baseline : Option Str) (graph : G) : Phase :=
  match baseline with
  | none => .planned .full
  | some hash => if hash = space.hash run then .closing else .planned (space.change run graph)

/-- Whether the lock can be taken. -/
def free (graphMeta : Option GraphMeta) (staleBefore : Int) : Bool :=
  match graphMeta.bind GraphMeta.lockedAt with
  | none => true
  | some lockedAt => lockedAt < staleBefore

/-- What happens next. -/
inductive Action
  | tick (passed : Nat)
  | begin (run : Nat)
  | stamp (run : Nat)
  | acquire (run : Nat)
  | compare (run : Nat)
  | plan (run : Nat)
  | mark (run : Nat)
  | write (run : Nat)
  | publish (run : Nat)
  | return (run : Nat)
  | fail (run : Nat) (left : Nat)
  | markError (run : Nat)
  | skipError (run : Nat)
  | release (run : Nat)
  | crash (run : Nat)

/-- One operation: what may happen, and what it makes of the world. Only the
operations between claim and release are guarded by the handler of exceptions; a
handler that fails itself is skipped, and a failing run may leave some of its writes
to a thread that goes on. -/
inductive Step : World G → Action → World G → Prop
  | tick (world : World G) (passed : Nat) :
      Step world (.tick passed) { world with clock := world.clock + passed }
  | begin {world : World G} (run : Nat) (here : (world.runs run).phase = .waiting) :
      Step world (.begin run) (world.goto run (.begun (world.clock - space.staleSeconds)))
  | stamp {world : World G} (run : Nat) {staleBefore : Int}
      (here : (world.runs run).phase = .begun staleBefore) :
      Step world (.stamp run) (world.goto run (.claiming staleBefore world.clock))
  | acquire {world : World G} (run : Nat) {staleBefore now : Int}
      (here : (world.runs run).phase = .claiming staleBefore now)
      (available : free world.graphMeta staleBefore = true) :
      Step world (.acquire run)
        ((world.upsertMeta fun found =>
          { found with lockedAt := some now, lockToken := some run }).goto run .holding)
  | refuse {world : World G} (run : Nat) {staleBefore now : Int}
      (here : (world.runs run).phase = .claiming staleBefore now)
      (taken : free world.graphMeta staleBefore = false) :
      Step world (.acquire run) (world.goto run .refused)
  | compare {world : World G} (run : Nat) (here : (world.runs run).phase = .holding) :
      Step world (.compare run) (world.goto run (.compared (baseline world.graphMeta)))
  | plan {world : World G} (run : Nat) {found : Option Str}
      (here : (world.runs run).phase = .compared found) :
      Step world (.plan run) (world.goto run (space.plan run found world.graph))
  | mark {world : World G} (run : Nat) {mode : Mode}
      (here : (world.runs run).phase = .planned mode) :
      Step world (.mark run)
        ((world.upsertMeta fun found => { found with status := some .indexing }).setRun run
          { phase := .indexing mode, pending := (space.jobs run).index mode })
  | write {world : World G} (run : Nat) {change : G → G} {next : G → Script G}
      (left : (world.runs run).pending = .step change next) :
      Step world (.write run)
        ({ world with graph := change world.graph }.setRun run
          { phase := (world.runs run).phase, pending := next world.graph })
  | publish {world : World G} (run : Nat) {mode : Mode}
      (here : (world.runs run).phase = .indexing mode)
      (finished : (world.runs run).pending = .done) :
      Step world (.publish run)
        ((world.upsertMeta fun found =>
          { found with codebaseHash := some (space.hash run), status := some .ready }).goto run
            .published)
  | return {world : World G} (run : Nat) (here : (world.runs run).phase = .published) :
      Step world (.return run) (world.goto run .closing)
  | fail {world : World G} (run left : Nat)
      (guarded : (world.runs run).phase.guarded = true) :
      Step world (.fail run left)
        (world.setRun run { phase := .failed, pending := (world.runs run).pending.cut left })
  | markError {world : World G} (run : Nat) (here : (world.runs run).phase = .failed) :
      Step world (.markError run)
        ((world.upsertMeta fun found => { found with status := some .error }).goto run .closing)
  | skipError {world : World G} (run : Nat) (here : (world.runs run).phase = .failed) :
      Step world (.skipError run) (world.goto run .closing)
  | release {world : World G} (run : Nat) (here : (world.runs run).phase = .closing) :
      Step world (.release run) ((world.releaseLock run).goto run .ended)
  | crash (world : World G) (run : Nat) :
      Step world (.crash run) (world.setRun run { phase := .ended, pending := .done })

/-- The worlds without a metadata record and without a run begun. -/
def Initial (world : World G) : Prop := world.graphMeta = none ∧ ∀ run, world.runs run = {}

/-- The worlds that operations lead to, each of which fits. -/
inductive Reached (Fits : World G → Action → Prop) : World G → Prop
  | initial {world : World G} (fresh : Initial world) : Reached Fits world
  | step {world later : World G} {action : Action} (before : Reached Fits world)
      (moves : space.Step world action later) (fits : Fits world action) : Reached Fits later

/-- The graphs that a single run has written for a codebase with a hash: a full ingest, or
an update of such a graph. -/
inductive Written : Str → G → Prop
  | full (run : Nat) (before : G) :
      Written (space.hash run) (((space.jobs run).index .full).run before)
  | update (run : Nat) {prior : Str} {before : G} (ready : Written prior before) :
      Written (space.hash run) (((space.jobs run).index (space.change run before)).run before)

/-- At most one run is between its claim and its release. -/
def OneHolder (world : World G) : Prop :=
  ∀ first second, (world.runs first).phase.live = true → (world.runs second).phase.live = true →
    first = second

/-- What is ready has been written by a single run for a codebase of its hash. -/
def ReadyExact (world : World G) : Prop :=
  ∀ found, world.graphMeta = some found → found.status = some .ready →
    ∃ hash, found.codebaseHash = some hash ∧ space.Written hash world.graph

/-- No claim is made while the holder of the lock is at work and the lock is older than
the claim's bound, and no failing run leaves writes behind. -/
def Prompt (world : World G) : Action → Prop
  | .acquire run => ∀ staleBefore now found lockedAt holder,
      (world.runs run).phase = .claiming staleBefore now → world.graphMeta = some found →
        found.lockedAt = some lockedAt → found.lockToken = some holder →
          (world.runs holder).phase.live = true → staleBefore ≤ lockedAt
  | .fail run left => (world.runs run).pending.cut left = .done
  | _ => True

end Namespace

end GraphIngest.Ingest
