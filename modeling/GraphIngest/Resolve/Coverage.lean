import GraphIngest.Foundation.KeyedLog
import GraphIngest.Resolve.Run
import Mathlib.Algebra.BigOperators.Group.List.Basic

/-! # What a run counts

A reference that is tried ends once: judged under its own type, taken out of
that type and judged as a symbol use, or judged under both. A reference of a
dropped type is counted and never judged.
-/

namespace GraphIngest.Resolve

open Foundation Text Graph External

attribute [ext] Coverage

namespace Coverage

/-- The references that have ended in some bucket. -/
def ended (coverage : Coverage) : Nat :=
  coverage.resolved + coverage.ambiguous + coverage.unresolved + coverage.external

/-- Every reference counted has ended. -/
def Balanced (coverage : Coverage) : Prop := coverage.total = coverage.ended

instance (coverage : Coverage) : Decidable coverage.Balanced :=
  inferInstanceAs (Decidable (_ = _))

instance : Zero Coverage := ⟨{}⟩

instance : Add Coverage where
  add one other :=
    { total := one.total + other.total
      resolved := one.resolved + other.resolved
      ambiguous := one.ambiguous + other.ambiguous
      unresolved := one.unresolved + other.unresolved
      external := one.external + other.external }

theorem add_def (one other : Coverage) :
    one + other =
      ⟨one.total + other.total, one.resolved + other.resolved, one.ambiguous + other.ambiguous,
        one.unresolved + other.unresolved, one.external + other.external⟩ := rfl

theorem zero_def : (0 : Coverage) = ⟨0, 0, 0, 0, 0⟩ := rfl

instance : AddCommMonoid Coverage where
  add_assoc one other third := by
    ext <;> simp only [add_def, Nat.add_assoc]
  zero_add coverage := by
    ext <;> simp only [add_def, zero_def, Nat.zero_add]
  add_zero coverage := by
    ext <;> simp only [add_def, zero_def, Nat.add_zero]
  add_comm one other := by
    ext <;> simp only [add_def, Nat.add_comm]
  nsmul := nsmulRec

@[simp] theorem total_add (one other : Coverage) :
    (one + other).total = one.total + other.total := rfl

@[simp] theorem ended_add (one other : Coverage) :
    (one + other).ended = one.ended + other.ended := by
  simp only [ended, add_def]
  omega

/-- One reference that has ended. -/
def one (verdict : Verdict) : Coverage := ({ total := 1 } : Coverage).judge verdict

theorem balanced_one (verdict : Verdict) : (one verdict).Balanced := by
  cases verdict <;> rfl

/-- Counting a reference and judging it adds one that has ended. -/
theorem judge_succ (coverage : Coverage) (verdict : Verdict) :
    ({ coverage with total := coverage.total + 1 } : Coverage).judge verdict =
      coverage + one verdict := by
  cases verdict <;> rfl

end Coverage

namespace Memo

/-- What is counted for a type. -/
def counted (memo : Memo) (type : EdgeType) : Coverage := memo.coverage.getD type {}

/-- Counting under a type changes the count of that type alone. -/
theorem counted_count (memo : Memo) (type other : EdgeType) (change : Coverage → Coverage) :
    (memo.count type change).counted other =
      if type = other then change (memo.counted type) else memo.counted other := by
  unfold counted count Dict.getD
  rw [Dict.get?_set]
  by_cases same : type = other
  · rw [if_pos same.symm, if_pos same]
    rfl
  · rw [if_neg (Ne.symm same), if_neg same]

/-- Entering adds one to the total of the type entered under. -/
theorem counted_enter (memo : Memo) (type other : EdgeType) :
    (memo.enter type).counted other =
      memo.counted other + if type = other then { total := 1 } else 0 := by
  rw [enter, counted_count]
  split
  · next same => subst same; rfl
  · exact (add_zero _).symm

/-- A reference counted and judged under a type adds one that has ended. -/
theorem counted_judge_enter (memo : Memo) (type other : EdgeType) (verdict : Verdict) :
    ((memo.enter type).judge type verdict).counted other =
      memo.counted other + if type = other then Coverage.one verdict else 0 := by
  rw [judge, counted_count, enter, counted_count, counted_count]
  split
  · next same =>
      subst same
      simp only [↓reduceIte]
      exact Coverage.judge_succ _ verdict
  · exact (add_zero _).symm

/-- The decrement takes back exactly what was counted: it never goes below zero. -/
theorem counted_leave_enter (memo : Memo) (type other : EdgeType) :
    ((memo.enter type).leave type).counted other = memo.counted other := by
  rw [leave, counted_count, enter, counted_count, counted_count]
  split
  · next same =>
      subst same
      simp only [↓reduceIte, Nat.add_sub_cancel]
  · rfl

/-- What is counted is read off the coverage. -/
theorem counted_of_coverage {memo other : Memo} (same : memo.coverage = other.coverage)
    (type : EdgeType) : memo.counted type = other.counted type := by
  unfold counted
  rw [same]

end Memo

/-- How a reference that is tried is counted: judged under its type, demoted to
a symbol use, or judged and kept as a symbol use beside. -/
inductive Ending
  | judged (verdict : Verdict)
  | demoted (verdict : Verdict)
  | doubled (verdict weak : Verdict)

namespace Ending

/-- What an ending writes down for a reference counted under a type. -/
def write (ending : Ending) (type : EdgeType) (memo : Memo) : Memo :=
  match ending with
  | judged verdict => memo.judge type verdict
  | demoted verdict => ((memo.leave type).enter .references).judge .references verdict
  | doubled verdict weak => ((memo.judge type verdict).enter .references).judge .references weak

/-- What an ending adds to the count of a type. -/
def credit (ending : Ending) (type other : EdgeType) : Coverage :=
  match ending with
  | judged verdict => if type = other then Coverage.one verdict else 0
  | demoted verdict => if .references = other then Coverage.one verdict else 0
  | doubled verdict weak =>
      (if type = other then Coverage.one verdict else 0) +
        if .references = other then Coverage.one weak else 0

/-- Entering and ending adds what the ending credits. -/
theorem counted_write_enter (ending : Ending) (type other : EdgeType) (memo : Memo) :
    (ending.write type (memo.enter type)).counted other =
      memo.counted other + ending.credit type other := by
  cases ending with
  | judged verdict => exact memo.counted_judge_enter type other verdict
  | demoted verdict =>
      rw [write, Memo.counted_judge_enter, Memo.counted_leave_enter]
      rfl
  | doubled verdict weak =>
      rw [write, Memo.counted_judge_enter, Memo.counted_judge_enter, credit, add_assoc]

theorem balanced_ite (condition : Prop) [Decidable condition] (verdict : Verdict) :
    (if condition then Coverage.one verdict else 0).Balanced := by
  split
  · exact Coverage.balanced_one verdict
  · rfl

/-- What an ending credits is balanced. -/
theorem balanced_credit (ending : Ending) (type other : EdgeType) :
    (ending.credit type other).Balanced := by
  cases ending with
  | judged verdict => exact balanced_ite ..
  | demoted verdict => exact balanced_ite ..
  | doubled verdict weak =>
      have own := balanced_ite (type = other) verdict
      have beside := balanced_ite (.references = other) weak
      unfold Coverage.Balanced at own beside ⊢
      rw [credit, Coverage.total_add, Coverage.ended_add, own, beside]

/-- Every ending is counted under some type. -/
theorem exists_total_credit_pos (ending : Ending) (type : EdgeType) :
    ∃ other, 0 < (ending.credit type other).total := by
  have one : ∀ verdict, (Coverage.one verdict).total = 1 := by
    intro verdict
    cases verdict <;> rfl
  cases ending with
  | judged verdict =>
      refine ⟨type, ?_⟩
      simp only [credit, ↓reduceIte, one, Nat.zero_lt_one]
  | demoted verdict =>
      refine ⟨.references, ?_⟩
      simp only [credit, ↓reduceIte, one, Nat.zero_lt_one]
  | doubled verdict weak =>
      refine ⟨type, ?_⟩
      simp only [credit, ↓reduceIte, Coverage.total_add, one]
      omega

end Ending

section Run

variable (settings : Settings) (corpus : Corpus)

/-- The resolution of a reference counts it as an ending says. -/
def Ends (ref : RawRef) (step : Memo → Answer) (ending : Ending) : Prop :=
  ∀ memo, (step memo).memo.coverage = (ending.write ref.type memo).coverage

/-- What a reference adds to the count of a type. -/
def share (ref : RawRef) (type : EdgeType) : Coverage :=
  (nextAnswer settings corpus {} ref).memo.counted type

variable {settings corpus}

/-- An emission ends in a verdict. -/
theorem ends_emit (ref : RawRef) (wanted : List Node) (confidence : Confidence)
    (knownInRepo : Bool) (strategy : Str) :
    ∃ verdict, Ends ref
      (fun memo => emit settings memo ref wanted confidence knownInRepo strategy)
      (.judged verdict) := by
  rcases wanted with _ | ⟨node, _ | ⟨next, rest⟩⟩
  · exact ⟨if knownInRepo then .unresolved else .external, fun _ => rfl⟩
  · exact ⟨.resolved, fun _ => rfl⟩
  · by_cases wide : (isNameStrategy strategy && overCap settings (node :: next :: rest)) = true
    · refine ⟨.unresolved, fun memo => ?_⟩
      simp only [emit, wide, ↓reduceIte]
      rfl
    · refine ⟨.ambiguous, fun memo => ?_⟩
      simp only [emit, wide]
      rfl

theorem ends_resolveAnnotated (ref : RawRef) :
    ∃ verdict, Ends ref (fun memo => resolveAnnotated settings memo ref) (.judged verdict) := by
  by_cases noise : ref.targetName ∈ noiseAnnotations
  · refine ⟨.external, fun memo => ?_⟩
    simp only [ resolveAnnotated, noise, ↓reduceIte]
    rfl
  · refine ⟨.resolved, fun memo => ?_⟩
    simp only [ resolveAnnotated, noise, ↓reduceIte]
    split <;> rfl

/-- A call of an endpoint always counts as resolved. -/
theorem ends_resolveApi (ref : RawRef) :
    Ends ref (fun memo => resolveApi settings corpus memo ref) (.judged .resolved) := by
  intro memo
  dsimp only [resolveApi]
  split <;> rfl

theorem ends_resolveFileRef (ref : RawRef) :
    ∃ verdict, Ends ref (fun memo => resolveFileRef settings corpus memo ref)
      (.judged verdict) := by
  by_cases hinted : ref.kindHint = .file
  · dsimp only [resolveFileRef]
    simp only [hinted, ne_eq, not_true_eq_false, ↓reduceIte]
    split <;> exact ends_emit ..
  · refine ⟨.external, fun memo => ?_⟩
    simp only [resolveFileRef, ne_eq, hinted, not_false_eq_true, ↓reduceIte]
    rfl

theorem ends_resolveHandler (ref : RawRef) :
    ∃ verdict, Ends ref (fun memo => resolveHandler settings corpus memo ref)
      (.judged verdict) := by
  dsimp only [resolveHandler]
  cases corpus.classByFqn ref.targetName with
  | some node => exact ⟨.resolved, fun _ => rfl⟩
  | none => exact ends_emit ..

theorem ends_resolveField (ref : RawRef) :
    ∃ verdict, Ends ref (fun memo => resolveField settings corpus memo ref)
      (.judged verdict) := by
  dsimp only [resolveField]
  split
  · exact ends_emit ..
  · cases corpus.nodeById ref.src with
    | none => exact ends_emit ..
    | some source =>
        dsimp only
        split <;> exact ends_emit ..

theorem ends_resolveExternal (ref : RawRef) :
    Ends ref (fun memo => resolveExternal settings memo ref) (.judged .external) := by
  intro memo
  have marked : (markCall settings (memo.judge ref.type .external) ref).coverage =
      (memo.judge ref.type .external).coverage := by
    unfold markCall
    split <;> rfl
  dsimp only [resolveExternal]
  split <;> exact marked

/-- A call on an unknown receiver is demoted before it is judged. -/
theorem ends_resolveUnknownReceiver (ref : RawRef) (wanted : List Node) (strategy : Str) :
    ∃ verdict, Ends ref (fun memo => resolveUnknownReceiver settings memo ref wanted strategy)
      (.demoted verdict) := by
  dsimp only [resolveUnknownReceiver]
  split
  · exact ⟨.resolved, fun _ => rfl⟩
  · split
    · exact ⟨.unresolved, fun _ => rfl⟩
    · exact ⟨.ambiguous, fun _ => rfl⟩

/-- A fallback that finds something is one more reference, judged as a symbol
use. -/
theorem coverage_resolveFallback (ref : RawRef) (strategy : Str) :
    (∀ memo, (resolveFallback corpus memo ref strategy).memo = memo) ∨
      ∃ verdict, ∀ memo, (resolveFallback corpus memo ref strategy).memo =
        (memo.enter .references).judge .references verdict := by
  dsimp only [resolveFallback]
  split
  · exact Or.inl fun _ => rfl
  · exact Or.inr ⟨.resolved, fun _ => rfl⟩
  · exact Or.inr ⟨.ambiguous, fun _ => rfl⟩

theorem judge_coverage_congr {memo other : Memo} (same : memo.coverage = other.coverage)
    (type : EdgeType) (verdict : Verdict) :
    ((memo.enter type).judge type verdict).coverage =
      ((other.enter type).judge type verdict).coverage := by
  simp only [Memo.judge, Memo.enter, Memo.count, same]

theorem ends_resolveInRepoCall (ref : RawRef) :
    ∃ ending, Ends ref (fun memo => resolveInRepoCall settings corpus memo ref) ending := by
  dsimp only [resolveInRepoCall]
  split
  · obtain ⟨verdict, ends⟩ :=
      @ends_resolveUnknownReceiver settings ref (corpus.narrowCall ref).1
        (corpus.narrowCall ref).2
    exact ⟨.demoted verdict, ends⟩
  · obtain ⟨verdict, ends⟩ :=
      @ends_emit settings ref (corpus.narrowCall ref).1 .inferred
        (!(corpus.byName ref.targetName).isEmpty) (corpus.narrowCall ref).2
    split
    · rcases @coverage_resolveFallback corpus ref (corpus.narrowCall ref).2 with
        none | ⟨weak, found⟩
      · refine ⟨.judged verdict, fun memo => ?_⟩
        dsimp only
        rw [none]
        exact ends memo
      · refine ⟨.doubled verdict weak, fun memo => ?_⟩
        dsimp only
        rw [found]
        exact judge_coverage_congr (ends memo) .references weak
    · exact ⟨.judged verdict, ends⟩

/-- Every call comes to an ending, in the repository or out of it. -/
theorem ends_resolveCall (ref : RawRef) :
    ∃ ending, Ends ref (fun memo => resolveCall settings corpus memo ref) ending := by
  dsimp only [resolveCall]
  split
  · exact ⟨.judged .external, fun _ => rfl⟩
  · split
    · exact ⟨.judged .external, ends_resolveExternal ref⟩
    · exact ends_resolveInRepoCall ref

/-- **One reference.** Unless its type is dropped, it ends in one of the three
ways, whatever has been resolved before. -/
theorem ends_resolveOneRef {ref : RawRef} (tried : dropped ref.type = false) :
    ∃ ending, Ends ref (fun memo => resolveOneRef settings corpus memo ref) ending := by
  have judged : ∀ step : Memo → Answer, (∃ verdict, Ends ref step (.judged verdict)) →
      ∃ ending, Ends ref step ending :=
    fun _ ⟨verdict, ends⟩ => ⟨.judged verdict, ends⟩
  simp only [resolveOneRef, tried, Bool.false_eq_true, ↓reduceIte]
  split
  · exact judged _ ( ends_resolveAnnotated ref)
  · exact ⟨.judged .resolved, ends_resolveApi ref⟩
  · exact judged _ (ends_resolveFileRef ref)
  · exact judged _ (ends_resolveFileRef ref)
  · exact judged _ (ends_resolveFileRef ref)
  · exact judged _ (ends_resolveHandler ref)
  · exact ends_resolveCall ref
  · exact judged _ (ends_resolveField ref)
  · exact judged _ (ends_resolveField ref)
  · exact judged _ (ends_emit ..)
  · exact judged _ (ends_emit ..)
  · exact judged _ (ends_emit ..)
  · exact judged _ (ends_emit ..)
  · exact judged _ (ends_emit ..)

/-- A reference of a dropped type is entered and goes no further. -/
theorem nextAnswer_of_dropped {ref : RawRef} (skipped : dropped ref.type = true) (memo : Memo) :
    nextAnswer settings corpus memo ref = { memo := memo.enter ref.type } := by
  simp only [nextAnswer, resolveOneRef, skipped, ↓reduceIte]

/-- What a reference adds: one that never ends, or what its ending says. -/
theorem credited (ref : RawRef) :
    ∃ credit : EdgeType → Coverage,
      (∀ memo type, (nextAnswer settings corpus memo ref).memo.counted type =
        memo.counted type + credit type) ∧
      (∃ type, 0 < (credit type).total) ∧
      ∀ type, (credit type).total =
        (credit type).ended + if dropped ref.type = true ∧ ref.type = type then 1 else 0 := by
  cases tried : dropped ref.type with
  | true =>
      refine ⟨fun type => if ref.type = type then { total := 1 } else 0, ?_, ⟨ref.type, ?_⟩, ?_⟩
      · intro memo type
        rw [nextAnswer_of_dropped tried]
        exact memo.counted_enter ref.type type
      · simp only [↓reduceIte, Nat.zero_lt_one]
      · intro type
        dsimp only
        split
        · next same => simp only [same, and_self, ↓reduceIte]; rfl
        · next other => simp only [other, and_false, ↓reduceIte]; rfl
  | false =>
      obtain ⟨ending, ends⟩ := ends_resolveOneRef tried
      refine ⟨ending.credit ref.type, ?_, ending.exists_total_credit_pos ref.type, ?_⟩
      · intro memo type
        rw [← ending.counted_write_enter]
        exact Memo.counted_of_coverage (ends _) type
      · intro type
        simp only [Bool.false_eq_true, false_and, ↓reduceIte, Nat.add_zero]
        exact ending.balanced_credit ref.type type

/-- The share of a reference is what it adds to any memory. -/
theorem share_eq {ref : RawRef} {credit : EdgeType → Coverage}
    (adds : ∀ memo type, (nextAnswer settings corpus memo ref).memo.counted type =
      memo.counted type + credit type) (type : EdgeType) :
    share settings corpus ref type = credit type := by
  rw [share, adds]
  exact zero_add _

/-- **Counting, one reference.** It adds its share, whatever was counted before. -/
theorem counted_nextAnswer (memo : Memo) (ref : RawRef) (type : EdgeType) :
    (nextAnswer settings corpus memo ref).memo.counted type =
      memo.counted type + share settings corpus ref type := by
  obtain ⟨credit, adds, _, _⟩ := credited ref
  rw [adds, share_eq adds]

/-- **Counting, a run.** Every reference adds its share. -/
theorem counted_memoAfter (refs : List RawRef) (memo : Memo) (type : EdgeType) :
    (memoAfter settings corpus refs memo).counted type =
      memo.counted type + (refs.map fun ref => share settings corpus ref type).sum := by
  induction refs generalizing memo with
  | nil => exact (add_zero _).symm
  | cons ref rest ih =>
      calc (memoAfter settings corpus (ref :: rest) memo).counted type
        _ = (nextAnswer settings corpus memo ref).memo.counted type +
            (rest.map fun ref => share settings corpus ref type).sum := ih _
        _ = _ := by
          rw [counted_nextAnswer, List.map_cons, List.sum_cons, add_assoc]

/-- A share is balanced but for a reference of a dropped type. -/
theorem total_share (ref : RawRef) (type : EdgeType) :
    (share settings corpus ref type).total = (share settings corpus ref type).ended +
      if dropped ref.type = true ∧ ref.type = type then 1 else 0 := by
  obtain ⟨credit, adds, _, balance⟩ := credited ref
  rw [share_eq adds]
  exact balance type

/-- Every reference is counted somewhere. -/
theorem exists_total_share_pos (ref : RawRef) :
    ∃ type, 0 < (share settings corpus ref type).total := by
  obtain ⟨credit, adds, ⟨type, counted⟩, _⟩ := credited ref
  refine ⟨type, ?_⟩
  rw [share_eq adds]
  exact counted

/-- The references counted under a type are those that ended and those dropped. -/
theorem total_sum_share (refs : List RawRef) (type : EdgeType) :
    (refs.map fun ref => share settings corpus ref type).sum.total =
      (refs.map fun ref => share settings corpus ref type).sum.ended +
        refs.countP fun ref => dropped ref.type && ref.type == type := by
  induction refs with
  | nil => rfl
  | cons ref rest ih =>
      rw [List.map_cons, List.sum_cons, Coverage.total_add, Coverage.ended_add, ih, total_share,
        List.countP_cons]
      simp only [Bool.and_eq_true, beq_iff_eq]
      omega

end Run

section Entries

theorem isSome_count (memo : Memo) (type other : EdgeType) (change : Coverage → Coverage) :
    ((memo.count type change).coverage.get? other).isSome = true ↔
      type = other ∨ (memo.coverage.get? other).isSome = true := by
  rw [Memo.count, Dict.get?_set]
  by_cases same : other = type
  · rw [if_pos same]
    exact iff_of_true rfl (Or.inl same.symm)
  · rw [if_neg same]
    exact (or_iff_right (Ne.symm same)).symm

/-- The types an ending counts under. -/
def Ending.Counts : Ending → EdgeType → EdgeType → Prop
  | .judged _, type, other => type = other
  | .demoted _, type, other | .doubled _ _, type, other => type = other ∨ .references = other

/-- A type is in the coverage behind an ending where it was before or is counted by it. -/
theorem isSome_write_enter (ending : Ending) (type other : EdgeType) (memo : Memo) :
    ((ending.write type (memo.enter type)).coverage.get? other).isSome = true ↔
      (memo.coverage.get? other).isSome = true ∨ ending.Counts type other := by
  cases ending <;>
    simp only [Ending.write, Ending.Counts, Memo.judge, Memo.enter, Memo.leave, isSome_count] <;>
    tauto

variable (settings : Settings) (corpus : Corpus)

/-- Whether a reference makes a run count under a type. -/
def CountsUnder (ref : RawRef) (type : EdgeType) : Prop :=
  ((nextAnswer settings corpus {} ref).memo.coverage.get? type).isSome = true

variable {settings corpus}

/-- A type is in the coverage behind a reference where it was before or the reference counts under
it. -/
theorem isSome_nextAnswer (memo : Memo) (ref : RawRef) (type : EdgeType) :
    ((nextAnswer settings corpus memo ref).memo.coverage.get? type).isSome = true ↔
      (memo.coverage.get? type).isSome = true ∨ CountsUnder settings corpus ref type := by
  have shared : ∃ counts : Prop, ∀ memo : Memo,
      ((nextAnswer settings corpus memo ref).memo.coverage.get? type).isSome = true ↔
        (memo.coverage.get? type).isSome = true ∨ counts := by
    cases tried : dropped ref.type with
    | true =>
        refine ⟨ref.type = type, fun memo => ?_⟩
        rw [nextAnswer_of_dropped tried, Memo.enter, isSome_count, or_comm]
    | false =>
        obtain ⟨ending, ends⟩ := @ends_resolveOneRef settings corpus ref tried
        refine ⟨ending.Counts ref.type type, fun memo => ?_⟩
        rw [nextAnswer, ends, isSome_write_enter]
  obtain ⟨counts, each⟩ := shared
  have own : CountsUnder settings corpus ref type ↔ counts :=
    (each {}).trans (or_iff_right Bool.false_ne_true)
  rw [each, own]

/-- A run has an entry for a type when some reference counts under it. -/
theorem isSome_memoAfter (refs : List RawRef) (memo : Memo) (type : EdgeType) :
    ((memoAfter settings corpus refs memo).coverage.get? type).isSome = true ↔
      (memo.coverage.get? type).isSome = true ∨ ∃ ref ∈ refs, CountsUnder settings corpus ref type :=
  foldl_iff (fun memo : Memo => (memo.coverage.get? type).isSome = true)
    (fun memo ref => isSome_nextAnswer memo ref type) refs memo

end Entries

section Conservation

variable (settings : Settings) (corpus : Corpus)

/-- The count of a type exceeds what has ended by its dropped references. -/
theorem total_counted (type : EdgeType) :
    ((resolve settings corpus).coverage.getD type {}).total =
      ((resolve settings corpus).coverage.getD type {}).ended +
        corpus.refs.countP fun ref => dropped ref.type && ref.type == type := by
  have counted : (resolve settings corpus).coverage.getD type {} =
      (corpus.refs.map fun ref => share settings corpus ref type).sum :=
    (counted_memoAfter corpus.refs {} type).trans (zero_add _)
  rw [counted]
  exact total_sum_share corpus.refs type

/-- A repository without catalog, cap or precise tier. -/
def plainSettings : Settings where
  repo := []
  makeId := spelledId
  nameCap := 0
  catalog := {}
  skipCallFiles := []

/-- A file that imports `os` and does nothing else. -/
def importingCorpus : Corpus where
  nodes := []
  edges := []
  refs :=
    [{ type := .imports, src := letterId 'm', targetName := ['o', 's'],
       kindHint := .import, importFqn := ['o', 's'], refFile := ['m'], refLine := 1 }]

end Conservation

end GraphIngest.Resolve
