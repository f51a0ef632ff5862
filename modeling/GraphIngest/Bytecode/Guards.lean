import GraphIngest.Bytecode.ClassOrder

/-! # The guards of the pass

A descriptor that is refused stops the pass, and it is discarded when no class is of the
repository or when too few methods are pinned to their nodes. All of this can be read off
the classes, without the scan.
-/

namespace GraphIngest.Bytecode

open Foundation Text Graph External

section Rate

variable (settings : Settings) (index : NodeIndex)

/-- Whether a method was pinned to its node. -/
def Caller.matched? : Caller → Bool
  | .looked (.matched _) => true
  | _ => false

/-- Whether a method should have had a node and was not pinned to one. -/
def Caller.missed? : Caller → Bool
  | .looked .unmatchedClass | .looked .unmatchedMethod | .looked .ambiguous => true
  | _ => false

/-- Whether too few of the methods are pinned to their nodes. -/
def Stale (classes : List ClassInfo) : Prop :=
  let matched := (callers settings index classes).countP Caller.matched?
  let missed := (callers settings index classes).countP Caller.missed?
  (matched : ℚ) / ((matched + missed : ℕ) : ℚ) < settings.minMatchRate

variable {settings index}

/-- The tally counts the callers. -/
theorem foldl_tally (callers : List Caller) (stats : MatchStats) :
    (callers.foldl MatchStats.tally stats).matchedMethods =
        stats.matchedMethods + callers.countP Caller.matched? ∧
      (callers.foldl MatchStats.tally stats).unmatchedMethod +
          (callers.foldl MatchStats.tally stats).unmatchedClass +
            (callers.foldl MatchStats.tally stats).ambiguousMethod =
        stats.unmatchedMethod + stats.unmatchedClass + stats.ambiguousMethod +
          callers.countP Caller.missed? := by
  induction callers generalizing stats with
  | nil => exact ⟨rfl, rfl⟩
  | cons caller rest ih =>
      obtain ⟨matched, missed⟩ := ih (stats.tally caller)
      rw [List.foldl_cons, matched, missed, List.countP_cons, List.countP_cons]
      cases caller with
      | looked result =>
          cases result <;>
            simp only [MatchStats.tally, MatchStats.count, MatchStats.rated, Caller.matched?,
              Caller.missed?, Bool.false_eq_true, ↓reduceIte] <;> omega
      | _ =>
          simp only [MatchStats.tally, Caller.matched?, Caller.missed?, Bool.false_eq_true,
            ↓reduceIte]
          omega

/-- The guard against stale builds. -/
theorem stale_iff (classes : List ClassInfo) :
    (scanClasses settings index classes).stats.matchRate < settings.minMatchRate ↔
      Stale settings index classes := by
  obtain ⟨matched, missed⟩ := foldl_tally (callers settings index classes) {}
  change _ = 0 + (callers settings index classes).countP Caller.matched? at matched
  change _ = 0 + (callers settings index classes).countP Caller.missed? at missed
  rw [← rated_scanClasses, Nat.zero_add] at matched missed
  rw [← matchRate_rated, MatchStats.matchRate, matched, missed, Stale]
  split
  · next none =>
      have zero : (callers settings index classes).countP Caller.matched? = 0 := by omega
      rw [zero, Nat.cast_zero, zero_div]
  · rfl

/-- No class of the list is of the repository. -/
theorem classesInRepo_eq_zero_iff (classes : List ClassInfo) :
    (scanClasses settings index classes).classesInRepo = 0 ↔
      ∀ info ∈ classes, ownerOf index info = none := by
  have counted : ∀ count : Nat, classes.foldl (fun count info =>
      if (ownerOf index info).isSome then count + 1 else count) count =
        count + classes.countP fun info => (ownerOf index info).isSome := by
    induction classes with
    | nil => exact fun count => rfl
    | cons info rest ih =>
        intro count
        rw [List.foldl_cons, ih, List.countP_cons]
        split <;> omega
  rw [classesInRepo_scanClasses, counted, Nat.zero_add, List.countP_eq_zero]
  simp only [Option.not_isSome_iff_eq_none]

end Rate

section Runs

/-- The guards let the pass through: no descriptor is refused, some class is of the repository,
and enough methods are pinned to their nodes. -/
structure Passes (settings : Settings) (index : NodeIndex) (classes : List ClassInfo) : Prop where
  read : ¬ ∃ caller ∈ callers settings index classes, caller.failed?
  owned : ¬ ∀ info ∈ classes, ownerOf index info = none
  fresh : ¬ Stale settings index classes

variable {settings : Settings} {nodes : List Node} {classes : List ClassInfo}

/-- A refused descriptor stops the pass. -/
theorem run_of_failed
    (failed : ∃ caller ∈ callers settings (NodeIndex.build nodes) classes, caller.failed?) :
    ∃ error, resolveJavaBytecode settings nodes classes = .error error := by
  obtain ⟨error, raised⟩ := Option.isSome_iff_exists.mp ((raised_scanClasses_iff classes).mpr failed)
  refine ⟨error, ?_⟩
  rw [resolveJavaBytecode, scanned, raised]

/-- A pass over foreign or stale classes is discarded. -/
theorem run_of_discarded
    (read : ¬ ∃ caller ∈ callers settings (NodeIndex.build nodes) classes, caller.failed?)
    (dropped : (∀ info ∈ classes, ownerOf (NodeIndex.build nodes) info = none) ∨
      Stale settings (NodeIndex.build nodes) classes) :
    ∃ reason, resolveJavaBytecode settings nodes classes =
      .ok (discardedOutcome settings nodes classes reason) := by
  have unraised := mt (raised_scanClasses_iff classes).mp read
  rw [Option.not_isSome_iff_eq_none] at unraised
  rw [← classesInRepo_eq_zero_iff, ← stale_iff] at dropped
  unfold resolveJavaBytecode discardReason scanned
  rw [unraised]
  dsimp only
  split
  · next reason _ => exact ⟨reason, rfl⟩
  · next passed =>
      split at passed
      · cases passed
      · next owned =>
          split at passed
          · cases passed
          · next fresh => exact (dropped.elim owned fresh).elim

/-- A pass that the guards let through is kept. -/
theorem Passes.kept (passes : Passes settings (NodeIndex.build nodes) classes) :
    Kept settings nodes classes (keptOutcome settings nodes classes) := by
  obtain ⟨read, owned, fresh⟩ := passes
  have unraised := mt (raised_scanClasses_iff classes).mp read
  rw [Option.not_isSome_iff_eq_none] at unraised
  rw [← classesInRepo_eq_zero_iff] at owned
  rw [← stale_iff] at fresh
  refine Kept.of_guards ⟨unraised, ?_⟩
  unfold discardReason scanned
  rw [if_neg owned, if_neg fresh]

/-- A pass is kept exactly when the guards let it through. -/
theorem exists_kept_iff :
    (∃ outcome, Kept settings nodes classes outcome) ↔
      Passes settings (NodeIndex.build nodes) classes := by
  refine ⟨?_, fun passes => ⟨_, passes.kept⟩⟩
  rintro ⟨outcome, ran, available⟩
  have read : ¬ ∃ caller ∈ callers settings (NodeIndex.build nodes) classes, caller.failed? := by
    intro failed
    obtain ⟨error, raised⟩ := run_of_failed failed
    cases raised.symm.trans ran
  have undropped : ¬ ((∀ info ∈ classes, ownerOf (NodeIndex.build nodes) info = none) ∨
      Stale settings (NodeIndex.build nodes) classes) := by
    intro dropped
    obtain ⟨reason, discarded⟩ := run_of_discarded read dropped
    cases discarded.symm.trans ran
    cases available
  obtain ⟨owned, fresh⟩ := not_or.mp undropped
  exact ⟨read, owned, fresh⟩

end Runs

end GraphIngest.Bytecode
