import GraphIngest.Analysis.ReachKinds

/-! # Marking again

Marks stay on the functions between runs. A run clears those of its repository
before it marks, but not those of functions of other repositories, and it follows
calls into these: a mark that was left there leads back to the callers, and a
forward mark that was set there is never taken off.
-/

namespace GraphIngest.Analysis

open Foundation Graph External

/-- The marks without those of some nodes. -/
def Marks.remove (marks : Marks) (gone : NodeId → Bool) : Marks where
  reachesSink := marks.reachesSink.filter fun id => !gone id
  sinkKinds := fun id => if gone id then [] else marks.sinkKinds id
  reachesSinkKinds := fun id => if gone id then [] else marks.reachesSinkKinds id
  fromEntry := marks.fromEntry.filter fun id => !gone id

/-- The same functions are marked, with the same kinds. -/
structure Marks.Same (first second : Marks) : Prop where
  sinks : ∀ id, id ∈ first.reachesSink ↔ id ∈ second.reachesSink
  sinkKinds : ∀ id, first.sinkKinds id = second.sinkKinds id
  reachesSinkKinds : ∀ id, first.reachesSinkKinds id = second.reachesSinkKinds id
  entries : ∀ id, id ∈ first.fromEntry ↔ id ∈ second.fromEntry

/-- Marks that runs over any graphs and repositories can have left, each of them
finished or stopped after any of its queries; nodes may have been deleted since. -/
inductive LeftByRuns : Marks → Prop
  | none : LeftByRuns {}
  | removed {marks : Marks} (gone : NodeId → Bool) (left : LeftByRuns marks) :
      LeftByRuns (marks.remove gone)
  | cleared {marks : Marks} (graph : CodeGraph) (left : LeftByRuns marks) :
      LeftByRuns (graph.clearMarks marks)
  | called {marks : Marks} (graph : CodeGraph) (kinds : List ExternalKind)
      (left : LeftByRuns marks) : LeftByRuns (graph.seedCalls kinds marks)
  | summarised {marks : Marks} (graph : CodeGraph) (left : LeftByRuns marks) :
      LeftByRuns (graph.seedSummaries marks)
  | catalogued {marks : Marks} (graph : CodeGraph) (left : LeftByRuns marks) :
      LeftByRuns (graph.seedCatalog marks)
  | backward {marks : Marks} (graph : CodeGraph) (rounds : Nat) (left : LeftByRuns marks) :
      LeftByRuns { marks with
        reachesSink := saturate graph.callersOf rounds marks.reachesSink }
  | collected {marks : Marks} (graph : CodeGraph) (rounds : Nat) (left : LeftByRuns marks) :
      LeftByRuns { marks with
        reachesSinkKinds := settle graph.trustedCalls rounds (graph.seedKinds marks) }
  | entered {marks : Marks} (graph : CodeGraph) (tests : List (NodeId → Bool))
      (left : LeftByRuns marks) :
      LeftByRuns { marks with fromEntry := tests.foldl graph.seedEntry marks.fromEntry }
  | forward {marks : Marks} (graph : CodeGraph) (rounds : Nat) (left : LeftByRuns marks) :
      LeftByRuns { marks with
        fromEntry := saturate graph.trustedCalls rounds marks.fromEntry }

namespace CodeGraph

variable (graph : CodeGraph) (kinds : List ExternalKind)

section Statement

/-- Where backward marks begin: at a seed, and at a function of another repository on
which one was left. -/
def SinkStart (marks : Marks) (id : NodeId) : Prop :=
  graph.SinkSeed (wantedKinds kinds) id ∨ graph.isOwn id = false ∧ id ∈ marks.reachesSink

/-- Where forward marks begin. -/
def EntryStart (marks : Marks) (id : NodeId) : Prop :=
  graph.EntrySeed id ∨ graph.isOwn id = false ∧ id ∈ marks.fromEntry

/-- Neither the backward nor the forward loop stops at its guard. -/
def LoopsStop (marks : Marks) : Prop :=
  converges graph.callersOf maxIterations
      (graph.seedSinks (wantedKinds kinds) (graph.clearMarks marks)).reachesSink = true ∧
    converges graph.trustedCalls maxIterations
      ((graph.entryTests entryAnnotations).foldl graph.seedEntry
        (graph.clearMarks marks).fromEntry) = true

/-- The marks are those of the closures, and marking again changes none. -/
structure MarksExact (marks : Marks) : Prop where
  sinks : ∀ id, id ∈ (graph.markAll kinds marks).reachesSink ↔
    ∃ target, graph.SinkStart kinds marks target ∧ graph.Reaches id target
  entries : ∀ id, id ∈ (graph.markAll kinds marks).fromEntry ↔
    ∃ seed, graph.EntryStart marks seed ∧ graph.Reaches seed id
  again : (graph.markAll kinds (graph.markAll kinds marks)).Same (graph.markAll kinds marks)

end Statement

variable {graph kinds}

section Left

/-- A run leaves marks of runs. -/
theorem leftByRuns_markAll {marks : Marks} (left : LeftByRuns marks) :
    LeftByRuns (graph.markAll kinds marks) :=
  .forward graph maxIterations <|
    .entered graph (graph.entryTests entryAnnotations) <|
      .collected graph maxIterations <| .backward graph maxIterations <|
        .catalogued graph <| .summarised graph <| .called graph (wantedKinds kinds) <|
          .cleared graph left

/-- Sinks are recorded on marked functions only. -/
theorem reachesSink_of_recorded {marks : Marks} (left : LeftByRuns marks) :
    ∀ id, marks.sinkKinds id ≠ [] → id ∈ marks.reachesSink := by
  induction left with
  | none => exact fun _ present => (present rfl).elim
  | removed gone _ ih =>
      intro id present
      simp only [Marks.remove, List.mem_filter] at present ⊢
      cases absent : gone id with
      | true => exact (present (by rw [absent]; rfl)).elim
      | false =>
          rw [absent] at present
          exact ⟨ih id present, rfl⟩
  | cleared graph _ ih =>
      intro id present
      simp only [clearMarks, List.mem_filter] at present ⊢
      split at present
      · exact (present rfl).elim
      · next kept =>
          exact ⟨ih id present, (Bool.not_eq_true' _).mpr (eq_false_of_ne_true kept)⟩
  | called graph kinds _ ih =>
      intro id present
      simp only [seedCalls, List.mem_append] at present ⊢
      split at present
      · next seed => exact Or.inr seed
      · exact Or.inl (ih id present)
  | summarised graph _ ih => exact fun id present => List.mem_append_left _ (ih id present)
  | catalogued graph _ ih =>
      intro id present
      simp only [seedCatalog, List.mem_append] at present ⊢
      split at present
      · next seed => exact Or.inr seed
      · exact Or.inl (ih id present)
  | backward graph rounds _ ih =>
      exact fun id present => mem_saturate.mpr ⟨id, ih id present, 0, Nat.zero_le _, .nil⟩
  | collected graph rounds _ ih => exact ih
  | entered graph tests _ ih => exact ih
  | forward graph rounds _ ih => exact ih

end Left

section Cleared

/-- What is left of the backward marks is on functions of other repositories. -/
theorem mem_reachesSink_clearMarks {marks : Marks} {id : NodeId} :
    id ∈ (graph.clearMarks marks).reachesSink ↔
      graph.isOwn id = false ∧ id ∈ marks.reachesSink := by
  rw [clearMarks, List.mem_filter, and_comm]
  refine and_congr_left fun marked => ?_
  dsimp only
  rw [decide_eq_true marked, Bool.true_or, Bool.true_or, Bool.and_true, Bool.not_eq_true']

theorem mem_fromEntry_clearMarks {marks : Marks} {id : NodeId} :
    id ∈ (graph.clearMarks marks).fromEntry ↔
      graph.isOwn id = false ∧ id ∈ marks.fromEntry := by
  rw [clearMarks, List.mem_filter, and_comm]
  refine and_congr_left fun marked => ?_
  dsimp only
  rw [decide_eq_true marked, Bool.or_true, Bool.true_or, Bool.and_true, Bool.not_eq_true']

/-- Recorded sinks are cleared with the marks beside them. -/
theorem sinkKinds_clearMarks {marks : Marks} (left : LeftByRuns marks) (id : NodeId) :
    (graph.clearMarks marks).sinkKinds id =
      if graph.isOwn id then [] else marks.sinkKinds id := by
  rw [clearMarks]
  cases own : graph.isOwn id with
  | false => simp only [own, Bool.false_and, Bool.false_eq_true, ↓reduceIte]
  | true =>
      by_cases present : marks.sinkKinds id = []
      · simp only [present, ite_self]
      · have marked := reachesSink_of_recorded left id present
        simp only [own, marked, decide_true, Bool.true_or, Bool.true_and, ↓reduceIte]

theorem reachesSinkKinds_clearMarks (marks : Marks) (id : NodeId) :
    (graph.clearMarks marks).reachesSinkKinds id =
      if graph.isOwn id then [] else marks.reachesSinkKinds id := by
  rw [clearMarks]
  cases own : graph.isOwn id with
  | false => simp only [own, Bool.false_and, Bool.false_eq_true, ↓reduceIte]
  | true =>
      by_cases present : marks.reachesSinkKinds id = []
      · simp only [present, ite_self]
      · simp only [own, List.isEmpty_eq_false_iff.mpr present, Bool.not_false, Bool.or_true,
          Bool.and_true, ↓reduceIte]

end Cleared

section Foreign

/-- No call is followed that begins outside the repository. -/
theorem not_mem_trustedCalls {id : NodeId} (foreign : graph.isOwn id = false) (next : NodeId) :
    (id, next) ∉ graph.trustedCalls := by
  intro listed
  have own := (mem_trustedCalls.mp listed).2.1
  rw [foreign] at own
  cases own

/-- A chain of calls from outside the repository has no call. -/
theorem eq_of_chain_foreign {length : Nat} {id other : NodeId} (foreign : graph.isOwn id = false)
    (chain : graph.TrustedChain length id other) : other = id := by
  cases chain with
  | nil => rfl
  | cons head _ => exact absurd head (not_mem_trustedCalls foreign _)

theorem sinkKinds_seedSinks_foreign {marks : Marks} {id : NodeId}
    (foreign : graph.isOwn id = false) :
    (graph.seedSinks kinds marks).sinkKinds id = marks.sinkKinds id := by
  simp only [seedSinks, seedCatalog, seedSummaries, seedCalls, List.mem_filter, mem_functions,
    foreign, Bool.false_eq_true, false_and, ↓reduceIte]

/-- Backward marks outside the repository stay as they were. -/
theorem mem_markReachesSink_foreign {marks : Marks} {id : NodeId}
    (foreign : graph.isOwn id = false) :
    id ∈ (graph.markReachesSink kinds marks).reachesSink ↔ id ∈ marks.reachesSink := by
  rw [markReachesSink, mem_saturate]
  constructor
  · rintro ⟨first, start, length, _, chain⟩
    obtain rfl := eq_of_chain_foreign foreign (chain_callersOf.mp chain)
    refine (mem_seedSinks.mp start).resolve_right fun seed => ?_
    exact Bool.false_ne_true (foreign.symm.trans seed.1)
  · intro marked
    exact ⟨id, mem_seedSinks.mpr (.inl marked), 0, Nat.zero_le _, .nil⟩

/-- Kinds outside the repository stay as they were. -/
theorem reachesSinkKinds_foreign {marks : Marks} {id : NodeId}
    (foreign : graph.isOwn id = false) :
    (graph.markReachesSinkKinds marks).reachesSinkKinds id = marks.reachesSinkKinds id := by
  have held := @settle_of_no_successors _ _ _ _ _ maxIterations (graph.seedKinds marks) id
    (not_mem_trustedCalls foreign)
  refine held.trans ?_
  simp only [seedKinds, foreign, Bool.false_and, Bool.false_eq_true, ↓reduceIte]

end Foreign

section Again

/-- Two sets of marks that agree but for the forward marks. -/
structure Alike (first second : Marks) : Prop where
  sinks : ∀ id, id ∈ first.reachesSink ↔ id ∈ second.reachesSink
  sinkKinds : ∀ id, first.sinkKinds id = second.sinkKinds id
  reachesSinkKinds : ∀ id, first.reachesSinkKinds id = second.reachesSinkKinds id

theorem Alike.seedSinks {first second : Marks} (alike : Alike first second) :
    Alike (graph.seedSinks kinds first) (graph.seedSinks kinds second) where
  sinks id := by rw [mem_seedSinks, mem_seedSinks, alike.sinks]
  sinkKinds id := by
    simp only [CodeGraph.seedSinks, seedCatalog, seedSummaries, seedCalls, List.mem_append,
      List.mem_filter, alike.sinks, alike.sinkKinds]
  reachesSinkKinds := alike.reachesSinkKinds

theorem Alike.markReachesSink {first second : Marks} (alike : Alike first second) :
    Alike (graph.markReachesSink kinds first) (graph.markReachesSink kinds second) where
  sinks id := by
    simp only [CodeGraph.markReachesSink, mem_saturate, mem_seedSinks, alike.sinks]
  sinkKinds := (@Alike.seedSinks graph kinds _ _ alike).sinkKinds
  reachesSinkKinds := alike.reachesSinkKinds

theorem Alike.markReachesSinkKinds {first second : Marks} (alike : Alike first second) :
    Alike (graph.markReachesSinkKinds first) (graph.markReachesSinkKinds second) where
  sinks := alike.sinks
  sinkKinds := alike.sinkKinds
  reachesSinkKinds id := by
    have seeds : graph.seedKinds first = graph.seedKinds second := by
      funext id
      simp only [seedKinds, alike.sinkKinds, alike.reachesSinkKinds]
    simp only [CodeGraph.markReachesSinkKinds, seeds]

/-- A run clears what it marked, but for forward marks outside the repository. -/
theorem alike_clearMarks_markAll {marks : Marks} (left : LeftByRuns marks) :
    Alike (graph.clearMarks (graph.markAll kinds marks)) (graph.clearMarks marks) where
  sinks id := by
    rw [mem_reachesSink_clearMarks, mem_reachesSink_clearMarks]
    refine and_congr_right fun foreign => ?_
    have kept := @mem_markReachesSink_foreign graph (wantedKinds kinds) (graph.clearMarks marks) id
      foreign
    rw [mem_reachesSink_clearMarks, and_iff_right foreign] at kept
    exact kept
  sinkKinds id := by
    rw [sinkKinds_clearMarks (leftByRuns_markAll left), sinkKinds_clearMarks left]
    cases own : graph.isOwn id with
    | true => rfl
    | false =>
        have kept := @sinkKinds_seedSinks_foreign graph (wantedKinds kinds)
          (graph.clearMarks marks) id own
        rw [sinkKinds_clearMarks left, own] at kept
        exact kept
  reachesSinkKinds id := by
    rw [reachesSinkKinds_clearMarks, reachesSinkKinds_clearMarks]
    cases own : graph.isOwn id with
    | true => rfl
    | false =>
        have kept := @reachesSinkKinds_foreign graph
          (graph.markReachesSink (wantedKinds kinds) (graph.clearMarks marks)) id own
        have before := @reachesSinkKinds_clearMarks graph marks id
        rw [own] at before
        exact kept.trans before

/-- The forward marks of a run, whether its loop stops or meets the guard. -/
theorem mem_fromEntry_markAll {marks : Marks} {id : NodeId} :
    id ∈ (graph.markAll kinds marks).fromEntry ↔
      ∃ seed, graph.EntryStart marks seed ∧
        ∃ length ≤ maxIterations, graph.TrustedChain length seed id := by
  change id ∈ saturate graph.trustedCalls maxIterations
    ((graph.entryTests entryAnnotations).foldl graph.seedEntry
      (graph.clearMarks marks).fromEntry) ↔ _
  rw [mem_saturate]
  simp only [mem_foldl_seedEntry, mem_fromEntry_clearMarks, EntryStart, EntrySeed, or_comm]

/-- Marking again marks the same functions forward. -/
theorem mem_fromEntry_again {marks : Marks} {id : NodeId} :
    id ∈ (graph.markAll kinds (graph.markAll kinds marks)).fromEntry ↔
      id ∈ (graph.markAll kinds marks).fromEntry := by
  rw [mem_fromEntry_markAll]
  constructor
  · intro ⟨seed, start, length, within, chain⟩
    rcases start with entry | ⟨foreign, marked⟩
    · exact mem_fromEntry_markAll.mpr ⟨seed, .inl entry, length, within, chain⟩
    · rw [eq_of_chain_foreign foreign chain]
      exact marked
  · intro marked
    cases own : graph.isOwn id with
    | false => exact ⟨id, .inr ⟨own, marked⟩, 0, Nat.zero_le _, .nil⟩
    | true =>
        obtain ⟨seed, start, length, within, chain⟩ := mem_fromEntry_markAll.mp marked
        rcases start with entry | ⟨foreign, _⟩
        · exact ⟨seed, .inl entry, length, within, chain⟩
        · rw [eq_of_chain_foreign foreign chain, foreign] at own
          cases own

/-- Marking again changes nothing. -/
theorem same_markAll {marks : Marks} (left : LeftByRuns marks) :
    (graph.markAll kinds (graph.markAll kinds marks)).Same (graph.markAll kinds marks) := by
  have alike := @Alike.markReachesSink graph (wantedKinds kinds) _ _
    (@alike_clearMarks_markAll graph kinds marks left)
  exact
    { sinks := alike.sinks
      sinkKinds := alike.sinkKinds
      reachesSinkKinds := (@Alike.markReachesSinkKinds graph _ _ alike).reachesSinkKinds
      entries := fun _ => mem_fromEntry_again }

end Again

/-- **Marks.** Where the loops stop by themselves, the marks are those of the closures
from what was left outside the repository and the seeds, and marking again changes
none. -/
theorem marksExact (graph : CodeGraph) (kinds : List ExternalKind) {marks : Marks}
    (left : LeftByRuns marks) (stop : graph.LoopsStop kinds marks) :
    graph.MarksExact kinds marks where
  sinks id := by
    change id ∈ saturate graph.callersOf maxIterations
      (graph.seedSinks (wantedKinds kinds) (graph.clearMarks marks)).reachesSink ↔ _
    rw [mem_saturate_of_converges stop.1]
    simp only [mem_seedSinks, mem_reachesSink_clearMarks, chain_callersOf, SinkStart, Reaches,
      or_comm]
  entries id := by
    change id ∈ saturate graph.trustedCalls maxIterations
      ((graph.entryTests entryAnnotations).foldl graph.seedEntry
        (graph.clearMarks marks).fromEntry) ↔ _
    rw [mem_saturate_of_converges stop.2]
    simp only [mem_foldl_seedEntry, mem_fromEntry_clearMarks, EntryStart, EntrySeed, Reaches,
      or_comm]
  again := same_markAll left

section Sample

/-- A function that calls into another repository, and what a model read of it. -/
def libraryGraph (entry : Bool) : CodeGraph where
  repo := "demo"
  store := sampleStore
    [sampleFunction sampleId, { sampleFunction calleeId with repo := "library" }]
    [{ src := sampleId, dst := calleeId, type := .calls, strategy := "bytecode" }]
  taint := fun _ => {}
  reading := fun _ => { sigEntry := entry }

/-- The marks of a run for which the caller was an entry point. -/
def libraryMarks : Marks := (libraryGraph true).markAll [] {}

theorem leftByRuns_libraryMarks : LeftByRuns libraryMarks := leftByRuns_markAll .none

theorem loopsStop_libraryGraph : (libraryGraph false).LoopsStop [] libraryMarks :=
  ⟨by decide +kernel, by decide +kernel⟩

/-- The marks that the earlier run left, followed by the later one. -/
theorem marksExact_libraryGraph : (libraryGraph false).MarksExact [] libraryMarks :=
  marksExact (libraryGraph false) [] leftByRuns_libraryMarks loopsStop_libraryGraph

/-- The function of the other repository keeps its forward mark when nothing is an entry
point any more. -/
theorem libraryGraph_stale : ¬ ∀ (graph : CodeGraph) (kinds : List ExternalKind) (marks : Marks),
    LeftByRuns marks → graph.LoopsStop kinds marks →
      (∀ id, id ∈ (graph.markAll kinds marks).reachesSink ↔
        ∃ seed, graph.SinkSeed (wantedKinds kinds) seed ∧ graph.Reaches id seed) ∧
      (∀ id, id ∈ (graph.markAll kinds marks).fromEntry ↔
        ∃ seed, graph.EntrySeed seed ∧ graph.Reaches seed id) ∧
      (graph.markAll kinds (graph.markAll kinds marks)).Same (graph.markAll kinds marks) := by
  intro exact_marks
  obtain ⟨_, entries, _⟩ := exact_marks (libraryGraph false) [] libraryMarks
    (leftByRuns_markAll .none) ⟨by decide +kernel, by decide +kernel⟩
  have marked : calleeId ∈ ((libraryGraph false).markAll [] libraryMarks).fromEntry := by
    decide +kernel
  obtain ⟨seed, ⟨own, test, listed, passed⟩, _⟩ := (entries calleeId).mp marked
  have quiet : ((libraryGraph false).functions.all fun id =>
      ((libraryGraph false).entryTests entryAnnotations).all fun test => !test id) = true := by
    decide +kernel
  have silent := List.all_eq_true.mp
    (List.all_eq_true.mp quiet seed (mem_functions.mpr own)) test listed
  rw [passed] at silent
  cases silent

end Sample

end CodeGraph

end GraphIngest.Analysis
