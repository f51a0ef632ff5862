import GraphIngest.Ingest.ReadyFlag
import Mathlib.Logic.Relation

/-! # Recovery

However runs have interleaved, failed or crashed, the lock they leave is not newer than the
clock. Once it has become stale, a run that nobody disturbs takes it; and it can only end with
the graph brought up to date, the namespace ready under its hash, and the lock free.
-/

namespace GraphIngest.Ingest

open Foundation

namespace Namespace

variable {G : Type} (space : Namespace G)

section Turns

/-- The operations of a run that goes on: no exception, no crash, no writes left behind. -/
def Proceeds (run : Nat) (world : World G) : Action → Prop
  | .begin other | .stamp other | .acquire other | .compare other | .plan other | .mark other
  | .publish other | .return other | .release other => other = run
  | .write other => other = run ∧ ∃ mode, (world.runs run).phase = .indexing mode
  | _ => False

/-- A run goes on by one operation. -/
def Turn (run : Nat) (world later : World G) : Prop :=
  ∃ action, Proceeds run world action ∧ space.Step world action later

/-- What the next operation of a run makes of the world. -/
def advance (run : Nat) (world : World G) : Option (World G) :=
  match (world.runs run).phase with
  | .waiting => some (world.goto run (.begun (world.clock - space.staleSeconds)))
  | .begun staleBefore => some (world.goto run (.claiming staleBefore world.clock))
  | .claiming staleBefore now =>
      some (if free world.graphMeta staleBefore then
        (world.upsertMeta fun found =>
          { found with lockedAt := some now, lockToken := some run }).goto run .holding
      else world.goto run .refused)
  | .holding => some (world.goto run (.compared (baseline world.graphMeta)))
  | .compared found => some (world.goto run (space.plan run found world.graph))
  | .planned mode =>
      some ((world.upsertMeta fun found => { found with status := some .indexing }).setRun run
        { phase := .indexing mode, pending := (space.jobs run).index mode })
  | .indexing mode =>
      match (world.runs run).pending with
      | .step change next =>
          some ({ world with graph := change world.graph }.setRun run
            { phase := .indexing mode, pending := next world.graph })
      | .done =>
          some ((world.upsertMeta fun found =>
            { found with codebaseHash := some (space.hash run), status := some .ready }).goto run
              .published)
  | .published => some (world.goto run .closing)
  | .closing => some ((world.releaseLock run).goto run .ended)
  | .refused | .failed | .ended => none

variable {space} {run : Nat} {world later : World G}

theorem advance_of_turn (turn : space.Turn run world later) :
    space.advance run world = some later := by
  obtain ⟨action, proceeds, step⟩ := turn
  cases step with
  | begin other here => cases proceeds; simp only [advance, here]
  | stamp other here => cases proceeds; simp only [advance, here]
  | acquire other here available =>
      cases proceeds
      simp only [advance, here, available, ↓reduceIte]
  | refuse other here taken =>
      cases proceeds
      simp only [advance, here, taken, Bool.false_eq_true, ↓reduceIte]
  | compare other here => cases proceeds; simp only [advance, here]
  | plan other here => cases proceeds; simp only [advance, here]
  | mark other here => cases proceeds; simp only [advance, here]
  | write other left =>
      obtain ⟨rfl, mode, here⟩ := proceeds
      simp only [advance, here, left]
  | publish other here finished => cases proceeds; simp only [advance, here, finished]
  | «return» other here => cases proceeds; simp only [advance, here]
  | release other here => cases proceeds; simp only [advance, here]
  | tick | fail | markError | skipError | crash => cases proceeds

/-- A run on its own has no choice. -/
theorem turn_rightUnique : Relator.RightUnique (space.Turn run) := by
  intro world first second one other
  exact Option.some.inj ((advance_of_turn one).symm.trans (advance_of_turn other))

end Turns

section Outcome

/-- A run has ended with the namespace ready under its hash, some graph, and the lock free. -/
structure Updated (run : Nat) (graph : G) (world : World G) : Prop where
  ended : (world.runs run).phase = .ended
  graph : world.graph = graph
  ready : ∃ found, world.graphMeta = some found ∧ found.codebaseHash = some (space.hash run) ∧
    found.status = some .ready ∧ found.lockedAt = none ∧ found.lockToken = none

/-- A run that nobody disturbs comes to an end with some graph. -/
def Leads (run : Nat) (graph : G) (world : World G) : Prop :=
  ∃ later, Relation.ReflTransGen (space.Turn run) world later ∧ space.Updated run graph later

variable {space} {run : Nat} {world later : World G} {graph : G}

/-- What leads on from behind a turn leads on from in front of it. -/
theorem Leads.turn (leads : space.Leads run graph later) (turn : space.Turn run world later) :
    space.Leads run graph world := by
  obtain ⟨last, path, updated⟩ := leads
  exact ⟨last, .head turn path, updated⟩

@[simp] theorem runs_setRun_self (world : World G) (run : Nat) (state : RunState G) :
    (world.setRun run state).runs run = state :=
  Function.update_self ..

@[simp] theorem phase_goto_self (world : World G) (run : Nat) (phase : Phase) :
    ((world.goto run phase).runs run).phase = phase :=
  congrArg RunState.phase (runs_setRun_self ..)

/-- A run that closes leaves its graph as it is. -/
theorem leads_of_closing (here : (world.runs run).phase = .closing) {found : GraphMeta}
    (stored : world.graphMeta = some found) (token : found.lockToken = some run)
    (hash : found.codebaseHash = some (space.hash run)) (ready : found.status = some .ready) :
    space.Leads run world.graph world := by
  have released : space.Step world (.release run) ((world.releaseLock run).goto run .ended) :=
    .release run here
  refine ⟨_, .single ⟨.release run, rfl, released⟩, phase_goto_self .., rfl, ?_⟩
  refine ⟨{ found with lockedAt := none, lockToken := none }, ?_, hash, ready, rfl, rfl⟩
  rw [World.goto, World.setRun, World.releaseLock, stored]
  exact congrArg some (if_pos token)

/-- What is written without interruption is what the script makes of the graph. -/
theorem leads_of_indexing {mode : Mode} {script : Script G}
    (here : world.runs run = { phase := .indexing mode, pending := script }) {found : GraphMeta}
    (stored : world.graphMeta = some found) (token : found.lockToken = some run) :
    space.Leads run (script.run world.graph) world := by
  have phase := congrArg RunState.phase here
  have pending := congrArg RunState.pending here
  induction script generalizing world with
  | done =>
      have published : space.Step world (.publish run) _ := .publish run phase pending
      refine Leads.turn ?_ ⟨.publish run, rfl, published⟩
      refine Leads.turn ?_ ⟨.return run, rfl, .return run (phase_goto_self ..)⟩
      refine leads_of_closing (phase_goto_self ..) rfl ?_ rfl rfl
      rw [stored]
      exact token
  | step change next ih =>
      have written : space.Step world (.write run) _ := .write run pending
      refine Leads.turn ?_ ⟨.write run, ⟨rfl, mode, phase⟩, written⟩
      rw [phase]
      exact ih world.graph (runs_setRun_self ..) stored (by rw [runs_setRun_self])
        (by rw [runs_setRun_self])

/-- The graph after a run that finds some hash to compare with. -/
def broughtUp (space : Namespace G) (run : Nat) (found : Option Str) (graph : G) : G :=
  match found with
  | none => ((space.jobs run).index .full).run graph
  | some hash =>
      if hash = space.hash run then graph
      else ((space.jobs run).index (space.change run graph)).run graph

/-- A run with a plan writes the graph of its plan. -/
theorem leads_of_planned {mode : Mode} (here : (world.runs run).phase = .planned mode)
    {found : GraphMeta} (stored : world.graphMeta = some found)
    (token : found.lockToken = some run) :
    space.Leads run (((space.jobs run).index mode).run world.graph) world := by
  have marked : space.Step world (.mark run) _ := .mark run here
  refine Leads.turn ?_ ⟨.mark run, rfl, marked⟩
  refine leads_of_indexing (runs_setRun_self ..) rfl ?_
  rw [stored]
  exact token

/-- A run that has compared brings the graph up to date. -/
theorem leads_of_compared {compare : Option Str}
    (here : (world.runs run).phase = .compared compare) {found : GraphMeta}
    (stored : world.graphMeta = some found) (token : found.lockToken = some run)
    (known : baseline world.graphMeta = compare) :
    space.Leads run (space.broughtUp run compare world.graph) world := by
  have planned : space.Step world (.plan run) _ := .plan run here
  refine Leads.turn ?_ ⟨.plan run, rfl, planned⟩
  cases compare with
  | none => exact leads_of_planned (phase_goto_self ..) stored token
  | some hash =>
      obtain ⟨ready, published, status, hashed⟩ := baseline_eq_some known
      obtain rfl := Option.some.inj (stored.symm.trans published)
      by_cases same : hash = space.hash run
      · rw [broughtUp, if_pos same]
        refine leads_of_closing ?_ stored token (same ▸ hashed) status
        rw [phase_goto_self, plan, if_pos same]
      · rw [broughtUp, if_neg same]
        refine leads_of_planned ?_ stored token
        rw [phase_goto_self, plan, if_neg same]

/-- A run with the lock brings the graph up to date with the baseline that it finds. -/
theorem leads_of_holding (here : (world.runs run).phase = .holding) {found : GraphMeta}
    (stored : world.graphMeta = some found) (token : found.lockToken = some run) :
    space.Leads run (space.broughtUp run (baseline world.graphMeta) world.graph) world := by
  have compared : space.Step world (.compare run) _ := .compare run here
  refine Leads.turn ?_ ⟨.compare run, rfl, compared⟩
  exact leads_of_compared (phase_goto_self ..) stored token rfl

/-- Taking the lock does not change the hash to compare with. -/
theorem baseline_locked (graphMeta : Option GraphMeta) (lockedAt : Option Int)
    (lockToken : Option Nat) :
    baseline (some { graphMeta.getD {} with lockedAt := lockedAt, lockToken := lockToken }) =
      baseline graphMeta := by
  cases graphMeta <;> rfl

/-- A run that claims a free lock gets it, and brings the graph up to date. -/
theorem leads_of_claiming {staleBefore now : Int}
    (here : (world.runs run).phase = .claiming staleBefore now)
    (available : free world.graphMeta staleBefore = true) :
    space.Leads run (space.broughtUp run (baseline world.graphMeta) world.graph) world := by
  have acquired : space.Step world (.acquire run) _ := .acquire run here available
  refine Leads.turn ?_ ⟨.acquire run, rfl, acquired⟩
  rw [← baseline_locked world.graphMeta (some now) (some run)]
  exact leads_of_holding (phase_goto_self ..) rfl rfl

/-- A run that waits for a free lock claims it, and brings the graph up to date. -/
theorem leads_of_waiting (here : (world.runs run).phase = .waiting)
    (available : free world.graphMeta (world.clock - space.staleSeconds) = true) :
    space.Leads run (space.broughtUp run (baseline world.graphMeta) world.graph) world := by
  have begun : space.Step world (.begin run) _ := .begin run here
  refine Leads.turn ?_ ⟨.begin run, rfl, begun⟩
  refine Leads.turn ?_ ⟨.stamp run, rfl, .stamp run (phase_goto_self ..)⟩
  exact leads_of_claiming (phase_goto_self ..) available

end Outcome

section Clock

/-- What the clock has to do with a run: a claim is stamped when it is made, and a run that
waits has no writes left. -/
structure InTime (clock : Int) (state : RunState G) : Prop where
  stamped : ∀ staleBefore now, state.phase = .claiming staleBefore now → now ≤ clock
  fresh : state.phase = .waiting → state.pending = .done

/-- Neither the lock nor a claim is newer than the clock. -/
structure Timely (world : World G) : Prop where
  locked : ∀ found lockedAt, world.graphMeta = some found → found.lockedAt = some lockedAt →
    lockedAt ≤ world.clock
  runs : ∀ run, InTime world.clock (world.runs run)

variable {space} {run : Nat} {world later : World G}

/-- Time that passes leaves a state in time. -/
theorem InTime.mono {clock more : Int} {state : RunState G} (inTime : InTime clock state)
    (passes : clock ≤ more) : InTime more state :=
  ⟨fun staleBefore now here => (inTime.stamped staleBefore now here).trans passes, inTime.fresh⟩

/-- A phase that is neither waiting nor claiming has nothing to do with the clock. -/
theorem inTime_of_ne {clock : Int} {state : RunState G} (started : state.phase ≠ .waiting)
    (settled : ∀ staleBefore now, state.phase ≠ .claiming staleBefore now) : InTime clock state :=
  ⟨fun staleBefore now here => absurd here (settled staleBefore now),
    fun here => absurd here started⟩

/-- A step that leaves the clock alone and does not touch the time of the lock. -/
theorem Timely.move (timely : Timely world) {state : RunState G} (clock : later.clock = world.clock)
    (runs : later.runs = Function.update world.runs run state)
    (inTime : InTime world.clock state)
    (locked : ∀ found lockedAt, later.graphMeta = some found → found.lockedAt = some lockedAt →
      lockedAt ≤ world.clock) : Timely later := by
  refine ⟨clock ▸ locked, fun other => ?_⟩
  rw [clock, runs]
  by_cases same : other = run
  · rw [same, Function.update_self]
    exact inTime
  · rw [Function.update_of_ne same]
    exact timely.runs other

/-- A change of the record that keeps the time of the lock. -/
theorem Timely.upsert (timely : Timely world) {change : GraphMeta → GraphMeta}
    (keeps : ∀ found, (change found).lockedAt = found.lockedAt) {state : RunState G}
    (inTime : InTime world.clock state) :
    Timely ((world.upsertMeta change).setRun run state) := by
  refine timely.move rfl rfl inTime fun found lockedAt stored locked => ?_
  obtain rfl := Option.some.inj stored
  rw [keeps] at locked
  cases held : world.graphMeta with
  | none =>
      rw [held] at locked
      cases locked
  | some before =>
      rw [held] at locked
      exact timely.locked before lockedAt held locked

theorem inTime_plan {clock : Int} {found : Option Str} {graph : G} {pending : Script G} :
    InTime clock { phase := space.plan run found graph, pending := pending } := by
  unfold plan
  cases found with
  | none => exact inTime_of_ne nofun nofun
  | some hash =>
      dsimp only
      split
      · exact inTime_of_ne nofun nofun
      · exact inTime_of_ne nofun nofun

/-- Every step keeps the runs in time. -/
theorem Timely.step (timely : Timely world) {action : Action}
    (moves : space.Step world action later) : Timely later := by
  cases moves with
  | tick passed =>
      have passes : world.clock ≤ world.clock + passed := by omega
      exact ⟨fun found lockedAt stored locked =>
        (timely.locked found lockedAt stored locked).trans passes,
        fun run => (timely.runs run).mono passes⟩
  | begin run here =>
      exact timely.move rfl rfl (inTime_of_ne nofun nofun) timely.locked
  | stamp run here =>
      refine timely.move rfl rfl ⟨fun staleBefore now same => ?_, nofun⟩ timely.locked
      cases same
      exact le_refl _
  | acquire run here available =>
      refine timely.move rfl rfl (inTime_of_ne nofun nofun) fun found lockedAt stored locked => ?_
      obtain rfl := Option.some.inj stored
      obtain rfl := Option.some.inj locked
      exact (timely.runs run).stamped _ _ here
  | refuse run here taken => exact timely.move rfl rfl (inTime_of_ne nofun nofun) timely.locked
  | compare run here => exact timely.move rfl rfl (inTime_of_ne nofun nofun) timely.locked
  | plan run here => exact timely.move rfl rfl inTime_plan timely.locked
  | mark run here =>
      refine timely.upsert ?_ ?_
      · exact fun _ => rfl
      · exact inTime_of_ne nofun nofun
  | write run left =>
      refine timely.move rfl rfl ⟨(timely.runs run).stamped, fun here => ?_⟩ timely.locked
      have none := (timely.runs run).fresh here
      rw [left] at none
      cases none
  | publish run here finished =>
      refine timely.upsert ?_ ?_
      · exact fun _ => rfl
      · exact inTime_of_ne nofun nofun
  | «return» run here => exact timely.move rfl rfl (inTime_of_ne nofun nofun) timely.locked
  | fail run left guarded => exact timely.move rfl rfl (inTime_of_ne nofun nofun) timely.locked
  | markError run here =>
      refine timely.upsert ?_ ?_
      · exact fun _ => rfl
      · exact inTime_of_ne nofun nofun
  | skipError run here => exact timely.move rfl rfl (inTime_of_ne nofun nofun) timely.locked
  | release run here =>
      refine timely.move rfl rfl (inTime_of_ne nofun nofun) fun found lockedAt stored locked => ?_
      obtain ⟨before, held, rfl⟩ := Option.map_eq_some_iff.mp stored
      split at locked
      · cases locked
      · exact timely.locked before lockedAt held locked
  | crash run => exact timely.move rfl rfl (inTime_of_ne nofun nofun) timely.locked

/-- Every world reached has its runs in time. -/
theorem timely_of_reached {Fits : World G → Action → Prop} (reached : space.Reached Fits world) :
    Timely world := by
  induction reached with
  | initial fresh =>
      refine ⟨fun found lockedAt stored => ?_, fun run => ?_⟩
      · rw [fresh.1] at stored
        cases stored
      · rw [fresh.2 run]
        exact ⟨nofun, fun _ => rfl⟩
  | step before moves fits ih => exact ih.step moves

end Clock

/-- **Recovery.** From every world that runs have left, once more time has passed than a lock
lasts, a run that waits and is not disturbed comes to its end in the only way it can: the graph
is brought up to date from what was there, the namespace is ready under the hash of the run, and
the lock is free. -/
theorem recovers {Fits : World G → Action → Prop} {world : World G}
    (reached : space.Reached Fits world) {run : Nat} (waits : (world.runs run).phase = .waiting)
    {passed : Nat} (stale : space.staleSeconds < passed) :
    ∃ later, Relation.ReflTransGen (space.Turn run)
        { world with clock := world.clock + passed } later ∧
      space.Updated run (space.broughtUp run (baseline world.graphMeta) world.graph) later ∧
      ∀ other, Relation.ReflTransGen (space.Turn run)
        { world with clock := world.clock + passed } other →
          Relation.ReflTransGen (space.Turn run) other later := by
  have available : free world.graphMeta (world.clock + passed - space.staleSeconds) = true := by
    unfold free
    cases held : world.graphMeta.bind GraphMeta.lockedAt with
    | none => rfl
    | some lockedAt =>
        obtain ⟨found, stored, locked⟩ := Option.bind_eq_some_iff.mp held
        have old := (timely_of_reached reached).locked found lockedAt stored locked
        exact decide_eq_true (by omega)
  obtain ⟨later, path, updated⟩ := @leads_of_waiting _ space run
    { world with clock := world.clock + passed } waits available
  refine ⟨later, path, updated, fun other also => ?_⟩
  rcases Relation.ReflTransGen.total_of_right_unique turn_rightUnique also path with on | back
  · exact on
  · obtain rfl | ⟨next, turn, -⟩ := back.cases_head
    · exact .refl
    · have stopped := advance_of_turn turn
      rw [advance, updated.ended] at stopped
      cases stopped

/-- The first run crashes between its two writes, with the lock; an hour later the second one
brings the graph up to date. -/
theorem recovers_sample : ∃ world later : World Nat,
    sampleSpace.Reached (fun _ _ => True) world ∧ world.graph = 10 ∧
      world.graphMeta.bind GraphMeta.lockToken = some 0 ∧ sampleSpace.Updated 1 20 later := by
  have fresh : sampleSpace.Reached (fun _ _ => True) sampleWorld := .initial ⟨rfl, fun _ => rfl⟩
  have begun := fresh.step (.begin 0 rfl) trivial
  have claiming := begun.step (.stamp 0 rfl) trivial
  have holding := claiming.step (.acquire 0 rfl rfl) trivial
  have compared := holding.step (.compare 0 rfl) trivial
  have planned := compared.step (.plan 0 rfl) trivial
  have indexing := planned.step (.mark 0 rfl) trivial
  have halfway := indexing.step (.write 0 rfl) trivial
  have crashed := halfway.step (.crash _ 0) trivial
  obtain ⟨later, -, updated, -⟩ := @recovers _ sampleSpace _ _ crashed 1 rfl 3600 (by decide)
  exact ⟨_, later, crashed, rfl, rfl, updated⟩

end Namespace

end GraphIngest.Ingest
