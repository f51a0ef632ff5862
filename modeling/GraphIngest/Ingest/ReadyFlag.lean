import GraphIngest.Ingest.BuildLock

/-! # The lock and the ready flag

While no claim finds the holder of a stale lock at work and no failing run leaves
writes behind, the token in the lock is that of the one run under it. Then nobody
else writes the graph or the status, so that what is published as ready is what
that run has written.
-/

namespace GraphIngest.Ingest

open Foundation

namespace Namespace

variable {G : Type} (space : Namespace G)

/-- A mode in which a run may write a graph: all of it, or an update of a written one. -/
def Founded (run : Nat) (graph : G) (mode : Mode) : Prop :=
  mode = .full ∨ ∃ hash, space.Written hash graph ∧ mode = space.change run graph

/-- What is known of the store from where a run stands. -/
def Stage (graphMeta : Option GraphMeta) (graph : G) (run : Nat) (state : RunState G) : Prop :=
  match state.phase with
  | .compared (some hash) =>
      ∃ found, graphMeta = some found ∧ found.status = some .ready ∧
        found.codebaseHash = some hash
  | .planned mode => space.Founded run graph mode
  | .indexing mode =>
      (∃ found, graphMeta = some found ∧ found.status = some .indexing) ∧
        ∃ before, space.Founded run before mode ∧
          state.pending.run graph = ((space.jobs run).index mode).run before
  | _ => True

/-- A run holds the lock of a record. -/
def Holds (graphMeta : Option GraphMeta) (run : Nat) : Prop :=
  ∃ found lockedAt, graphMeta = some found ∧ found.lockedAt = some lockedAt ∧
    found.lockToken = some run

/-- The invariant of worlds. -/
structure Sound (world : World G) : Prop where
  held : ∀ run, (world.runs run).phase.live = true → Holds world.graphMeta run
  quiet : ∀ run, (world.runs run).pending ≠ .done → ∃ mode, (world.runs run).phase = .indexing mode
  exact : space.ReadyExact world
  stage : ∀ run, space.Stage world.graphMeta world.graph run (world.runs run)

variable {space} {world : World G}

/-- Of a run that is not at work nothing is known. -/
theorem stage_of_not_live {graphMeta : Option GraphMeta} {graph : G} {run : Nat}
    {state : RunState G} (idle : state.phase.live = false) :
    space.Stage graphMeta graph run state := by
  unfold Stage
  split
  · next stands => rw [stands] at idle; cases idle
  · next stands => rw [stands] at idle; cases idle
  · next stands => rw [stands] at idle; cases idle
  · trivial

namespace Sound

/-- The lock has one token, so there is one holder. -/
theorem oneHolder (sound : space.Sound world) : OneHolder world := by
  intro first second firstLive secondLive
  obtain ⟨found, _, same, _, token⟩ := sound.held first firstLive
  obtain ⟨other, _, alike, _, word⟩ := sound.held second secondLive
  cases same.symm.trans alike
  exact Option.some.inj (token.symm.trans word)

/-- At most one run is at work in a sound world. -/
theorem idle_of_ne (sound : space.Sound world) {run other : Nat}
    (live : (world.runs run).phase.live = true) (different : other ≠ run) :
    (world.runs other).phase.live = false := by
  by_contra active
  exact different (sound.oneHolder other run (Bool.not_eq_false _ ▸ active) live)

/-- A step of one run that keeps what the others hold. -/
theorem change (sound : space.Sound world) {run : Nat} {state : RunState G} {later : World G}
    (runs : later.runs = Function.update world.runs run state)
    (others : ∀ other ≠ run, (world.runs other).phase.live = true →
      Holds later.graphMeta other ∧
        space.Stage later.graphMeta later.graph other (world.runs other))
    (held : state.phase.live = true → Holds later.graphMeta run)
    (quiet : state.pending ≠ .done → ∃ mode, state.phase = .indexing mode)
    (exact : space.ReadyExact later)
    (stage : space.Stage later.graphMeta later.graph run state) : space.Sound later where
  held := by
    intro other live
    by_cases same : other = run
    · subst same
      rw [runs, Function.update_self] at live
      exact held live
    · rw [runs, Function.update_of_ne same] at live
      exact (others other same live).1
  quiet := by
    intro other
    by_cases same : other = run
    · subst same
      simpa only [runs, Function.update_self] using quiet
    · simpa only [runs, Function.update_of_ne same] using sound.quiet other
  exact := exact
  stage := by
    intro other
    by_cases same : other = run
    · subst same
      simpa only [runs, Function.update_self] using stage
    · rw [runs, Function.update_of_ne same]
      cases live : (world.runs other).phase.live with
      | true => exact (others other same live).2
      | false => exact stage_of_not_live live

/-- A step of one run that leaves the store as it is. -/
theorem setRun (sound : space.Sound world) {run : Nat} {state : RunState G}
    (keeps : state.phase.live = true → (world.runs run).phase.live = true)
    (quiet : state.pending ≠ .done → ∃ mode, state.phase = .indexing mode)
    (stage : space.Stage world.graphMeta world.graph run state) :
    space.Sound (world.setRun run state) :=
  sound.change rfl (fun other _ live => ⟨sound.held other live, sound.stage other⟩)
    (fun live => sound.held run (keeps live)) quiet sound.exact stage

/-- A step of the run that holds the lock, or of any run while nobody does. -/
theorem alone (sound : space.Sound world) {run : Nat} {state : RunState G} {later : World G}
    (runs : later.runs = Function.update world.runs run state)
    (idle : ∀ other ≠ run, (world.runs other).phase.live = false)
    (held : state.phase.live = true → Holds later.graphMeta run)
    (quiet : state.pending ≠ .done → ∃ mode, state.phase = .indexing mode)
    (exact : space.ReadyExact later)
    (stage : space.Stage later.graphMeta later.graph run state) : space.Sound later := by
  refine sound.change runs (fun other different live => ?_) held quiet exact stage
  rw [idle other different] at live
  cases live

/-- A run that is not writing has no writes left. -/
theorem pending_eq_done (sound : space.Sound world) {run : Nat} {phase : Phase}
    (here : (world.runs run).phase = phase) (elsewhere : ∀ mode, phase ≠ .indexing mode) :
    (world.runs run).pending = .done := by
  by_contra left
  obtain ⟨mode, there⟩ := sound.quiet run left
  exact elsewhere mode (here.symm.trans there)

/-- Moving on to another phase. -/
theorem goto (sound : space.Sound world) {run : Nat} {phase next : Phase}
    (here : (world.runs run).phase = phase) (elsewhere : ∀ mode, phase ≠ .indexing mode)
    (keeps : next.live = true → phase.live = true)
    (stage : space.Stage world.graphMeta world.graph run
      { phase := next, pending := (world.runs run).pending }) :
    space.Sound (world.goto run next) :=
  sound.setRun (fun live => here ▸ keeps live)
    (fun left => (left (sound.pending_eq_done here elsewhere)).elim) stage

end Sound

/-- The store under a lock operation: ready as before. -/
theorem readyExact_of_same {later : World G} (exact : space.ReadyExact world)
    (graph : later.graph = world.graph)
    (same : ∀ found, later.graphMeta = some found → found.status = some .ready →
      ∃ before, world.graphMeta = some before ∧ before.status = some .ready ∧
        before.codebaseHash = found.codebaseHash) : space.ReadyExact later := by
  intro found stored ready
  obtain ⟨before, there, already, hash⟩ := same found stored ready
  obtain ⟨known, published, written⟩ := exact before there already
  exact ⟨known, hash ▸ published, graph ▸ written⟩

/-- What a run may write is written when it is done. -/
theorem Founded.written {run : Nat} {before : G} {mode : Mode}
    (founded : space.Founded run before mode) :
    space.Written (space.hash run) (((space.jobs run).index mode).run before) := by
  rcases founded with rfl | ⟨hash, prior, rfl⟩
  · exact .full run before
  · exact .update run prior

/-- A baseline is the hash of a graph that is ready. -/
theorem baseline_eq_some {graphMeta : Option GraphMeta} {hash : Str}
    (known : baseline graphMeta = some hash) :
    ∃ found, graphMeta = some found ∧ found.status = some .ready ∧
      found.codebaseHash = some hash := by
  unfold baseline at known
  split at known
  · cases known
  · next found =>
    obtain ⟨published, kept⟩ := Option.filter_eq_some_iff.mp known
    exact ⟨found, rfl, eq_of_beq (Bool.and_eq_true_iff.mp kept).2, published⟩

/-- Nobody is at work when a claim in time succeeds. -/
theorem Sound.idle_of_free (sound : space.Sound world) {run : Nat} {staleBefore now : Int}
    (here : (world.runs run).phase = .claiming staleBefore now)
    (available : free world.graphMeta staleBefore = true)
    (prompt : Prompt world (.acquire run)) (other : Nat) :
    (world.runs other).phase.live = false := by
  by_contra active
  have live : (world.runs other).phase.live = true := Bool.not_eq_false _ ▸ active
  obtain ⟨found, lockedAt, stored, locked, token⟩ := sound.held other live
  have young := prompt staleBefore now found lockedAt other here stored locked token live
  have old : lockedAt < staleBefore := by
    simpa only [free, stored, Option.bind_some, locked, decide_eq_true_eq] using available
  omega

/-- A record with the lock as it was is held by the run that held it. -/
theorem Sound.holds_of_same (sound : space.Sound world) {run : Nat}
    (live : (world.runs run).phase.live = true) {after : GraphMeta}
    (lockedAt : after.lockedAt = (world.graphMeta.getD {}).lockedAt)
    (token : after.lockToken = (world.graphMeta.getD {}).lockToken) : Holds (some after) run := by
  obtain ⟨found, since, stored, locked, named⟩ := sound.held run live
  rw [stored] at lockedAt token
  exact ⟨after, since, rfl, lockedAt.trans locked, token.trans named⟩

theorem Sound.acquire (sound : space.Sound world) {run : Nat} {staleBefore now : Int}
    (here : (world.runs run).phase = .claiming staleBefore now)
    (idle : ∀ other, (world.runs other).phase.live = false) :
    space.Sound ((world.upsertMeta fun found =>
      { found with lockedAt := some now, lockToken := some run }).goto run .holding) := by
  refine sound.alone rfl (fun other _ => idle other) (fun _ => ⟨_, now, rfl, rfl, rfl⟩)
    (fun left => (left (sound.pending_eq_done here nofun)).elim) ?_ trivial
  refine readyExact_of_same sound.exact rfl fun found stored ready => ?_
  cases Option.some.inj stored
  cases known : world.graphMeta with
  | none =>
      rw [known] at ready
      cases ready
  | some before =>
      rw [known] at ready
      exact ⟨before, rfl, ready, rfl⟩

/-- Choosing what to do keeps the world sound. -/
theorem Sound.plan (sound : space.Sound world) {run : Nat} {found : Option Str}
    (here : (world.runs run).phase = .compared found) :
    space.Sound (world.goto run (space.plan run found world.graph)) := by
  refine sound.goto here nofun (fun _ => rfl) ?_
  have stage := sound.stage run
  rw [Stage, here] at stage
  unfold Namespace.plan
  split
  · exact Or.inl rfl
  · next hash =>
    split
    · trivial
    · obtain ⟨before, stored, ready, published⟩ := stage
      obtain ⟨known, same, written⟩ := sound.exact before stored ready
      exact Or.inr ⟨known, written, rfl⟩

/-- Marking the graph as building keeps the world sound. -/
theorem Sound.mark (sound : space.Sound world) {run : Nat} {mode : Mode}
    (here : (world.runs run).phase = .planned mode) :
    space.Sound ((world.upsertMeta fun found => { found with status := some .indexing }).setRun run
      { phase := .indexing mode, pending := (space.jobs run).index mode }) := by
  have live : (world.runs run).phase.live = true := by
    rw [here]
    rfl
  have stage := sound.stage run
  rw [Stage, here] at stage
  refine sound.alone rfl (fun other => sound.idle_of_ne live)
    (fun _ => sound.holds_of_same live rfl rfl) (fun _ => ⟨mode, rfl⟩) ?_
    ⟨⟨_, rfl, rfl⟩, world.graph, stage, rfl⟩
  intro found stored ready
  cases Option.some.inj stored
  cases ready

/-- A write of the run at work keeps the world sound, since the graph is not marked ready. -/
theorem Sound.write (sound : space.Sound world) {run : Nat} {change : G → G}
    {next : G → Script G} (left : (world.runs run).pending = .step change next) :
    space.Sound ({ world with graph := change world.graph }.setRun run
      { phase := (world.runs run).phase, pending := next world.graph }) := by
  obtain ⟨mode, here⟩ := sound.quiet run (by rw [left]; nofun)
  have live : (world.runs run).phase.live = true := by
    rw [here]
    rfl
  have stage := sound.stage run
  rw [Stage, here] at stage
  obtain ⟨⟨found, stored, marked⟩, before, founded, same⟩ := stage
  refine sound.alone rfl (fun other => sound.idle_of_ne live) (fun _ => sound.held run live)
    (fun _ => ⟨mode, here⟩) ?_ ?_
  · intro other there ready
    cases Option.some.inj (stored.symm.trans there)
    rw [marked] at ready
    cases ready
  · rw [Stage, here]
    refine ⟨⟨found, stored, marked⟩, before, founded, ?_⟩
    rw [← same, left]
    rfl

/-- Publishing keeps the world sound, since all that was planned is written. -/
theorem Sound.publish (sound : space.Sound world) {run : Nat} {mode : Mode}
    (here : (world.runs run).phase = .indexing mode)
    (finished : (world.runs run).pending = .done) :
    space.Sound ((world.upsertMeta fun found =>
      { found with codebaseHash := some (space.hash run), status := some .ready }).goto run
        .published) := by
  have live : (world.runs run).phase.live = true := by
    rw [here]
    rfl
  have stage := sound.stage run
  rw [Stage, here] at stage
  obtain ⟨_, before, founded, same⟩ := stage
  rw [finished] at same
  refine sound.alone rfl (fun other => sound.idle_of_ne live)
    (fun _ => sound.holds_of_same live rfl rfl) (fun left => (left finished).elim)
    ?_ trivial
  intro found stored _
  cases Option.some.inj stored
  refine ⟨space.hash run, rfl, ?_⟩
  have written := founded.written
  rw [← same] at written
  exact written

/-- Marking a failure keeps the world sound. -/
theorem Sound.markError (sound : space.Sound world) {run : Nat}
    (here : (world.runs run).phase = .failed) :
    space.Sound ((world.upsertMeta fun found => { found with status := some .error }).goto run
      .closing) := by
  have live : (world.runs run).phase.live = true := by
    rw [here]
    rfl
  refine sound.alone rfl (fun other => sound.idle_of_ne live)
    (fun _ => sound.holds_of_same live rfl rfl)
    (fun left => (left (sound.pending_eq_done here nofun)).elim) ?_ trivial
  intro found stored ready
  cases Option.some.inj stored
  cases ready

/-- Releasing the lock keeps the world sound. -/
theorem Sound.release (sound : space.Sound world) {run : Nat}
    (here : (world.runs run).phase = .closing) :
    space.Sound ((world.releaseLock run).goto run .ended) := by
  have live : (world.runs run).phase.live = true := by
    rw [here]
    rfl
  refine sound.alone rfl (fun other => sound.idle_of_ne live) (fun ended => nomatch ended)
    (fun left => (left (sound.pending_eq_done here nofun)).elim) ?_ trivial
  refine readyExact_of_same sound.exact rfl fun found stored ready => ?_
  obtain ⟨before, there, rfl⟩ := Option.map_eq_some_iff.mp stored
  refine ⟨before, there, ?_, ?_⟩
  · split at ready <;> exact ready
  · split <;> rfl

/-- **One operation.** A prompt one keeps the invariant. -/
theorem Sound.step (sound : space.Sound world) {action : Action} {later : World G}
    (prompt : Prompt world action) (moves : space.Step world action later) :
    space.Sound later := by
  cases moves with
  | tick => exact ⟨sound.held, sound.quiet, sound.exact, sound.stage⟩
  | begin run here => exact sound.goto here nofun nofun trivial
  | stamp run here => exact sound.goto here nofun nofun trivial
  | acquire run here available =>
      exact sound.acquire here (sound.idle_of_free here available prompt)
  | refuse run here taken => exact sound.goto here nofun nofun trivial
  | compare run here =>
      refine sound.goto here nofun (fun _ => rfl) ?_
      unfold Stage
      cases known : baseline world.graphMeta with
      | none => trivial
      | some hash => exact baseline_eq_some known
  | plan run here => exact sound.plan here
  | mark run here => exact sound.mark here
  | write run left => exact sound.write left
  | publish run here finished => exact sound.publish here finished
  | «return» run here => exact sound.goto here nofun (fun _ => rfl) trivial
  | fail run left guarded =>
      exact sound.setRun (fun _ => Phase.live_of_guarded guarded) (fun kept => (kept prompt).elim)
        trivial
  | markError run here => exact sound.markError here
  | skipError run here => exact sound.goto here nofun (fun _ => rfl) trivial
  | release run here => exact sound.release here
  | crash => exact sound.setRun nofun (fun left => (left rfl).elim) trivial

/-- Nothing is known of a namespace without metadata. -/
theorem Initial.sound (fresh : Initial world) : space.Sound world := by
  have waiting : ∀ run, (world.runs run).phase = .waiting := by
    intro run
    rw [fresh.2 run]
  refine ⟨fun run live => ?_, fun run left => ?_, fun found stored => ?_, fun run => ?_⟩
  · rw [waiting run] at live
    cases live
  · rw [fresh.2 run] at left
    exact (left rfl).elim
  · rw [fresh.1] at stored
    cases stored
  · exact stage_of_not_live (by rw [waiting run]; rfl)

/-- **Interleavings.** In every world that prompt operations lead to, at most one run is
between its claim and its release, and a ready graph is the one that a single run wrote
for a codebase of its hash. -/
theorem lock_of_prompt (space : Namespace G) {world : World G}
    (reached : space.Reached Prompt world) : OneHolder world ∧ space.ReadyExact world := by
  have sound : space.Sound world := by
    induction reached with
    | initial fresh => exact fresh.sound
    | step before moves prompt ih => exact ih.step prompt moves
  exact ⟨sound.oneHolder, sound.exact⟩

section Samples

/-- Two codebases of one file: the first is indexed in two writes, any other one in one. -/
def sampleSpace : Namespace Nat where
  digest := fun text => text
  fileShas := fun _ => Dict.empty
  staleSeconds := 1800
  jobs := fun run =>
    if run = 0 then
      { manifest := Dict.empty.set ['A'] ['0']
        index := fun _ =>
          .step (fun _ => 10) fun _ => .step (fun graph => graph + 1) fun _ => .done }
    else
      { manifest := Dict.empty.set ['A'] ['1']
        index := fun _ => .step (fun _ => 20) fun _ => .done }

/-- An empty namespace. -/
def sampleWorld : World Nat where
  clock := 0
  graphMeta := none
  graph := 0
  runs := fun _ => {}

/-- While the first run writes, the second is refused. After the first has crashed and its lock
has become stale, the third takes the lock over, publishes and releases; the fourth takes the free
lock. -/
theorem lock_of_prompt_sample : ∃ published later, sampleSpace.Reached Prompt published ∧
    published.graphMeta.bind GraphMeta.lockToken = some 2 ∧
      published.graphMeta.bind GraphMeta.status = some .ready ∧ published.graph = 20 ∧
        OneHolder published ∧ sampleSpace.ReadyExact published ∧
    sampleSpace.Reached Prompt later ∧ later.graphMeta.bind GraphMeta.lockToken = some 3 ∧
      OneHolder later ∧ sampleSpace.ReadyExact later := by
  have fresh : sampleSpace.Reached Prompt sampleWorld := .initial ⟨rfl, fun _ => rfl⟩
  have begun := fresh.step (.begin 0 rfl) trivial
  have claiming := begun.step (.stamp 0 rfl) trivial
  have holding := claiming.step (.acquire 0 rfl rfl) fun _ _ _ _ _ _ stored => nomatch stored
  have compared := holding.step (.compare 0 rfl) trivial
  have planned := compared.step (.plan 0 rfl) trivial
  have indexing := planned.step (.mark 0 rfl) trivial
  have halfway := indexing.step (.write 0 rfl) trivial
  have secondBegun := halfway.step (.begin 1 rfl) trivial
  have secondClaiming := secondBegun.step (.stamp 1 rfl) trivial
  have refused := secondClaiming.step (.refuse 1 rfl rfl) (by
    intro staleBefore now found lockedAt holder here stored locked token live
    cases here
    cases stored
    cases locked
    decide)
  have crashed := refused.step (.crash _ 0) trivial
  have late := crashed.step (.tick _ 3600) trivial
  have thirdBegun := late.step (.begin 2 rfl) trivial
  have thirdClaiming := thirdBegun.step (.stamp 2 rfl) trivial
  have thirdHolding := thirdClaiming.step (.acquire 2 rfl rfl) (by
    intro staleBefore now found lockedAt holder here stored locked token live
    cases stored
    cases token
    cases live)
  have thirdCompared := thirdHolding.step (.compare 2 rfl) trivial
  have thirdPlanned := thirdCompared.step (.plan 2 rfl) trivial
  have thirdIndexing := thirdPlanned.step (.mark 2 rfl) trivial
  have thirdWritten := thirdIndexing.step (.write 2 rfl) trivial
  have published := thirdWritten.step (.publish 2 rfl rfl) trivial
  have returned := published.step (.return 2 rfl) trivial
  have released := returned.step (.release 2 rfl) trivial
  have fourthBegun := released.step (.begin 3 rfl) trivial
  have fourthClaiming := fourthBegun.step (.stamp 3 rfl) trivial
  have fourthHolding := fourthClaiming.step (.acquire 3 rfl rfl) (by
    intro staleBefore now found lockedAt holder here stored locked
    cases stored
    cases locked)
  obtain ⟨oneHolder, readyExact⟩ := lock_of_prompt sampleSpace published
  exact ⟨_, _, published, rfl, rfl, rfl, oneHolder, readyExact, fourthHolding, rfl,
    lock_of_prompt sampleSpace fourthHolding⟩

theorem written_sample {word : Str} {graph : Nat} (written : sampleSpace.Written word graph) :
    word = sampleSpace.hash 0 ∧ graph = 11 ∨ word = sampleSpace.hash 1 ∧ graph = 20 := by
  have outcome : ∀ run mode before,
      sampleSpace.hash run = sampleSpace.hash 0 ∧
          ((sampleSpace.jobs run).index mode).run before = 11 ∨
        sampleSpace.hash run = sampleSpace.hash 1 ∧
          ((sampleSpace.jobs run).index mode).run before = 20 := by
    intro run mode before
    by_cases first : run = 0
    · subst first
      exact Or.inl ⟨rfl, rfl⟩
    · have job : sampleSpace.jobs run = sampleSpace.jobs 1 := if_neg first
      rw [hash, hash, job]
      exact Or.inr ⟨rfl, rfl⟩
  cases written with
  | full run before => exact outcome run .full before
  | update run _ => exact outcome run _ _

/-- A run whose lock has become stale goes on while another one takes the lock and
publishes: two runs are under the lock, and what is ready was written by neither. -/
theorem stale_holder_interferes : ∃ world, sampleSpace.Reached (fun _ _ => True) world ∧
    ¬ OneHolder world ∧ ¬ sampleSpace.ReadyExact world := by
  have fresh : sampleSpace.Reached (fun _ _ => True) sampleWorld := .initial ⟨rfl, fun _ => rfl⟩
  have begun := fresh.step (.begin 0 rfl) trivial
  have claiming := begun.step (.stamp 0 rfl) trivial
  have holding := claiming.step (.acquire 0 rfl rfl) trivial
  have compared := holding.step (.compare 0 rfl) trivial
  have planned := compared.step (.plan 0 rfl) trivial
  have indexing := planned.step (.mark 0 rfl) trivial
  have halfway := indexing.step (.write 0 rfl) trivial
  have late := halfway.step (.tick _ 3600) trivial
  have secondBegun := late.step (.begin 1 rfl) trivial
  have secondClaiming := secondBegun.step (.stamp 1 rfl) trivial
  have secondHolding := secondClaiming.step (.acquire 1 rfl rfl) trivial
  have secondCompared := secondHolding.step (.compare 1 rfl) trivial
  have secondPlanned := secondCompared.step (.plan 1 rfl) trivial
  have secondIndexing := secondPlanned.step (.mark 1 rfl) trivial
  have secondWritten := secondIndexing.step (.write 1 rfl) trivial
  have published := secondWritten.step (.publish 1 rfl rfl) trivial
  have overwritten := published.step (.write 0 rfl) trivial
  refine ⟨_, overwritten, fun alone => ?_, fun exact => ?_⟩
  · exact absurd (alone 0 1 rfl rfl) (by decide)
  · obtain ⟨hash, stored, written⟩ := exact _ rfl rfl
    rcases written_sample written with ⟨same, _⟩ | ⟨_, twenty⟩
    · rw [same] at stored
      exact absurd stored (by decide +kernel)
    · exact absurd twenty (by decide)

end Samples

end Namespace

end GraphIngest.Ingest
