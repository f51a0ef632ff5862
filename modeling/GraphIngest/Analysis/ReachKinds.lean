import GraphIngest.Analysis.Reach

/-! # The kinds of sinks a function reaches

The kinds are collected from what the seeds have recorded when they were marked:
a seed known from its calls records the kinds of these, one known from the
catalog alone those of its categories, and one known from its summary none. A
seed that several sources know records what the first of them gives.
-/

namespace GraphIngest.Analysis

open Foundation Text Graph External

namespace CodeGraph

variable (graph : CodeGraph) (kinds : List ExternalKind)

section Statement

/-- A chain of trusted calls of whatever length. -/
def Reaches (id other : NodeId) : Prop := ∃ length, graph.TrustedChain length id other

/-- The kinds that the sources of a seed give it; a summary gives none. -/
def sourceKinds (id : NodeId) : List ExternalKind :=
  graph.callKinds kinds id ++ graph.catalogKinds id

/-- Neither loop of the backward passes stops at its guard. -/
def Converged : Prop :=
  converges graph.callersOf maxIterations
      (graph.seedSinks (wantedKinds kinds) {}).reachesSink = true ∧
    settles graph.trustedCalls maxIterations
      (graph.seedKinds (graph.markReachesSink (wantedKinds kinds) {})) = true

/-- Every marked function holds some kind, and it holds the kinds of all seeds it
reaches. -/
def KindsCover (left : graph.Leftover) : Prop :=
  ∀ id ∈ (graph.markAll kinds left.marks).reachesSink,
    (graph.markAll kinds left.marks).reachesSinkKinds id ≠ [] ∧
      ∀ kind, kind ∈ (graph.markAll kinds left.marks).reachesSinkKinds id ↔
        ∃ seed, graph.SinkSeed (wantedKinds kinds) seed ∧ graph.Reaches id seed ∧
          kind ∈ graph.sourceKinds (wantedKinds kinds) seed

/-- The kinds a seed records: those of the first source that knows it. -/
def recordedKinds (id : NodeId) : List ExternalKind :=
  if graph.callKinds kinds id ≠ [] then graph.callKinds kinds id
  else if graph.summarised id then []
  else graph.catalogKinds id

/-- Every seed reaches a function that records some kind, and for each kind its
sources give it one that records this kind. -/
def KindsRecorded : Prop :=
  ∀ seed, graph.SinkSeed kinds seed →
    (∃ other, graph.isOwn other = true ∧ graph.Reaches seed other ∧
      graph.recordedKinds kinds other ≠ []) ∧
    ∀ kind ∈ graph.sourceKinds kinds seed,
      ∃ other, graph.isOwn other = true ∧ graph.Reaches seed other ∧
        kind ∈ graph.recordedKinds kinds other

end Statement

variable {graph kinds}

theorem Reaches.refl (id : NodeId) : graph.Reaches id id := ⟨0, .nil⟩

theorem Reaches.trans {id middle other : NodeId} (first : graph.Reaches id middle)
    (second : graph.Reaches middle other) : graph.Reaches id other := by
  obtain ⟨_, chain⟩ := first
  obtain ⟨_, rest⟩ := second
  exact chain.append rest

/-- What a seed has recorded when the kinds start to be collected. -/
theorem mem_seedKinds {id : NodeId} {kind : ExternalKind} :
    kind ∈ graph.seedKinds (graph.markReachesSink kinds {}) id ↔
      graph.isOwn id = true ∧ kind ∈ graph.recordedKinds kinds id := by
  simp only [seedKinds, markReachesSink, seedSinks, seedCatalog, seedSummaries, seedCalls,
    recordedKinds, List.nil_append, List.mem_append, List.mem_filter, mem_functions,
    Bool.and_eq_true, Bool.not_eq_true', List.isEmpty_eq_false_iff, List.isEmpty_nil, and_true,
    decide_eq_true_eq, ne_eq]
  by_cases own : graph.isOwn id = true
  · by_cases called : graph.callKinds kinds id = []
    · by_cases read : graph.summarised id = true
      · simp only [own, called, read, not_true, not_false_eq_true, and_false, true_and, or_true,
          ↓reduceIte, List.not_mem_nil]
      · by_cases known : graph.catalogKinds id = []
        · simp only [own, called, read, known, not_true, false_and, and_false, ↓reduceIte,
            Bool.false_eq_true, List.not_mem_nil]
        · simp only [own, called, read, known, not_true, not_false_eq_true, false_and, and_false,
            or_self, and_self, true_and, ↓reduceIte, Bool.false_eq_true]
    · simp only [own, called, not_false_eq_true, true_and, true_or, not_true, and_false,
        ↓reduceIte]
  · simp only [own, false_and, ↓reduceIte, Bool.false_eq_true, List.not_mem_nil]

/-- A function that records a kind is a seed, and its sources give it the kind. -/
theorem sources_of_recorded {id : NodeId} (own : graph.isOwn id = true) {kind : ExternalKind}
    (recorded : kind ∈ graph.recordedKinds kinds id) :
    graph.SinkSeed kinds id ∧ kind ∈ graph.sourceKinds kinds id := by
  unfold recordedKinds at recorded
  split at recorded
  · next called => exact ⟨⟨own, Or.inl called⟩, List.mem_append_left _ recorded⟩
  · split at recorded
    · exact (List.not_mem_nil recorded).elim
    · exact ⟨⟨own, Or.inr (Or.inr (List.ne_nil_of_mem recorded))⟩,
        List.mem_append_right _ recorded⟩

/-- **Collected kinds.** Where the loops converge, a function holds what the
functions it reaches have recorded. -/
theorem mem_reachesSinkKinds (left : graph.Leftover) (converged : graph.Converged kinds)
    {id : NodeId} {kind : ExternalKind} :
    kind ∈ (graph.markAll kinds left.marks).reachesSinkKinds id ↔
      ∃ other, graph.isOwn other = true ∧ graph.Reaches id other ∧
        kind ∈ graph.recordedKinds (wantedKinds kinds) other := by
  rw [markAll, clearMarks_leftover]
  change kind ∈ settle graph.trustedCalls maxIterations
    (graph.seedKinds (graph.markReachesSink (wantedKinds kinds) {})) id ↔ _
  rw [mem_settle_of_settles converged.2]
  constructor
  · rintro ⟨other, length, chain, held⟩
    obtain ⟨own, recorded⟩ := mem_seedKinds.mp held
    exact ⟨other, own, ⟨length, chain⟩, recorded⟩
  · rintro ⟨other, own, ⟨length, chain⟩, recorded⟩
    exact ⟨other, length, chain, mem_seedKinds.mpr ⟨own, recorded⟩⟩

/-- **Kinds.** Where the loops converge, the kinds cover what a function reaches
exactly when the seeds have them recorded. -/
theorem kindsCover_iff (graph : CodeGraph) (kinds : List ExternalKind) (left : graph.Leftover)
    (converged : graph.Converged kinds) :
    graph.KindsCover kinds left ↔ graph.KindsRecorded (wantedKinds kinds) := by
  constructor
  · intro covered seed known
    have marked : seed ∈ (graph.markAll kinds left.marks).reachesSink :=
      mem_reachesSink.mpr ⟨seed, known, 0, Nat.zero_le _, .nil⟩
    obtain ⟨present, same⟩ := covered seed marked
    constructor
    · obtain ⟨kind, held⟩ := List.exists_mem_of_ne_nil _ present
      obtain ⟨other, own, reached, recorded⟩ := (mem_reachesSinkKinds left converged).mp held
      exact ⟨other, own, reached, List.ne_nil_of_mem recorded⟩
    · intro kind given
      exact (mem_reachesSinkKinds left converged).mp
        ((same kind).mpr ⟨seed, known, .refl seed, given⟩)
  · intro recorded id marked
    obtain ⟨seed, known, length, _, chain⟩ := mem_reachesSink.mp marked
    constructor
    · obtain ⟨other, own, further, some⟩ := (recorded seed known).1
      obtain ⟨kind, held⟩ := List.exists_mem_of_ne_nil _ some
      exact List.ne_nil_of_mem ((mem_reachesSinkKinds left converged).mpr
        ⟨other, own, Reaches.trans ⟨length, chain⟩ further, held⟩)
    · intro kind
      rw [mem_reachesSinkKinds left converged]
      constructor
      · rintro ⟨other, own, reached, held⟩
        obtain ⟨known, given⟩ := sources_of_recorded own held
        exact ⟨other, known, reached, given⟩
      · rintro ⟨other, known, reached, given⟩
        obtain ⟨final, own, further, held⟩ := (recorded other known).2 kind given
        exact ⟨final, own, reached.trans further, held⟩

/-- A fresh summary that says of a function that it touches a database. -/
def summaryReading : Reading where
  bodyHash := some "1f".toList
  summaryHash := some "1f".toList
  summaryJson := some ("\x7b".toList ++ quoted "touches" ++ ":[".toList ++ quoted "sql" ++
    "]\x7d".toList)

/-- One function with that summary. -/
def summaryGraph : CodeGraph where
  repo := "demo"
  store := sampleStore [sampleFunction sampleId] []
  taint := fun _ => {}
  reading := fun _ => summaryReading

/-- The function with the summary calls another one, which the catalog has marked. -/
def delegatingGraph : CodeGraph where
  repo := "demo"
  store := sampleStore [sampleFunction sampleId, sampleFunction calleeId]
    [{ type := .calls, src := sampleId, dst := calleeId, strategy := "bytecode".toList }]
  taint := fun id =>
    if id = calleeId then { categories := ["CWE-89/sql-injection".toList] } else {}
  reading := fun id => if id = sampleId then summaryReading else {}

theorem kindsRecorded_delegatingGraph : delegatingGraph.KindsRecorded (wantedKinds []) := by
  have functions : delegatingGraph.functions = [sampleId, calleeId] := by decide +kernel
  have called : (sampleId, calleeId) ∈ delegatingGraph.trustedCalls := by decide +kernel
  have own : delegatingGraph.isOwn calleeId = true := by decide +kernel
  have recorded : delegatingGraph.recordedKinds (wantedKinds []) calleeId = [.dbExecute] := by
    decide +kernel
  have given : ∀ id ∈ delegatingGraph.functions,
      ∀ kind ∈ delegatingGraph.sourceKinds (wantedKinds []) id, kind = .dbExecute := by
    decide +kernel
  intro seed known
  have listed := mem_functions.mpr known.1
  have reached : delegatingGraph.Reaches seed calleeId := by
    rw [functions] at listed
    rcases List.mem_pair.mp listed with rfl | rfl
    · exact ⟨1, .cons called .nil⟩
    · exact .refl _
  refine ⟨⟨calleeId, own, reached, ?_⟩, fun kind source => ⟨calleeId, own, reached, ?_⟩⟩
  · rw [recorded]
    exact List.cons_ne_nil _ _
  · rw [recorded, given seed listed kind source]
    exact List.mem_cons_self

/-- The caller is marked by its summary and holds the kind of the function it calls. -/
theorem kindsCover_delegatingGraph :
    delegatingGraph.Converged [] ∧ sampleId ∈ (delegatingGraph.markAll [] {}).reachesSink ∧
      delegatingGraph.KindsCover [] {} := by
  have converged : delegatingGraph.Converged [] := ⟨by decide +kernel, by decide +kernel⟩
  exact ⟨converged, by decide +kernel,
    (kindsCover_iff delegatingGraph [] {} converged).mpr kindsRecorded_delegatingGraph⟩

/-- The function is marked and holds no kind. -/
theorem summaryGraph_uncovered : ¬ ∀ (graph : CodeGraph) (kinds : List ExternalKind)
    (left : graph.Leftover), graph.Converged kinds → graph.KindsCover kinds left := by
  intro covered
  let id : NodeId := ⟨"f".toList, List.cons_ne_nil _ _⟩
  have marked : id ∈ (summaryGraph.markAll [] {}).reachesSink := by decide +kernel
  have unkind : (summaryGraph.markAll [] {}).reachesSinkKinds id = [] := by decide +kernel
  have converged : summaryGraph.Converged [] := ⟨by decide +kernel, by decide +kernel⟩
  exact (covered summaryGraph [] {} converged id marked).1 unkind

end CodeGraph

end GraphIngest.Analysis
