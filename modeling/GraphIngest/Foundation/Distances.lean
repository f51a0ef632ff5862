import GraphIngest.Foundation.Nearest
import Mathlib.Data.List.Forall2
import Mathlib.Data.List.Nodup

/-! # The order of a search by levels

Before a round, what is seen is what some number of steps leads to, and the frontier
leads on by one step more. What a round finds thus lies one step farther than what is
seen, so that a search lists what it finds once, by distance from the start.
-/

namespace GraphIngest.Foundation

variable {κ : Type*} {next : κ → List κ} {start : κ}

variable (next start) in
/-- The least number of steps to a point. -/
structure Distance (steps : Nat) (point : κ) : Prop where
  walk : StepsTo next steps start point
  least : ∀ fewer < steps, ¬ StepsTo next fewer start point

/-- The last of some steps. -/
theorem StepsTo.exists_last {steps : Nat} {start goal : κ}
    (walk : StepsTo next (steps + 1) start goal) :
    ∃ point, StepsTo next steps start point ∧ goal ∈ next point := by
  induction steps generalizing start with
  | zero =>
      obtain ⟨later, step, rfl⟩ := walk
      exact ⟨start, rfl, step⟩
  | succ steps ih =>
      obtain ⟨later, step, rest⟩ := walk
      obtain ⟨point, before, last⟩ := ih rest
      exact ⟨point, ⟨later, step, before⟩, last⟩

variable (next start) in
/-- Where a search stands after some rounds. -/
structure Stage (rounds : Nat) (seen frontier : List κ) : Prop where
  known : ∀ point, point ∈ seen ↔ ∃ steps ≤ rounds, StepsTo next steps start point
  ahead : ∀ point, StepsTo next (rounds + 1) start point → point ∈ seen ∨ point ∈ frontier
  reached : ∀ point ∈ frontier, StepsTo next (rounds + 1) start point

theorem Stage.initial : Stage next start 0 [start] (next start) where
  known point := by
    rw [List.mem_singleton]
    constructor
    · rintro rfl
      exact ⟨0, Nat.le_refl 0, rfl⟩
    · rintro ⟨steps, none, walk⟩
      obtain rfl := Nat.le_zero.mp none
      exact walk.symm
  ahead point walk := by
    obtain ⟨later, step, rfl⟩ := walk
    exact .inr step
  reached point step := ⟨point, step, rfl⟩

section Rounds

variable [DecidableEq κ] {rounds : Nat} {seen frontier : List κ}

/-- One round more. -/
theorem Stage.onward (stage : Stage next start rounds seen frontier) :
    Stage next start (rounds + 1) (seen ++ (level next seen frontier).1)
      (level next seen frontier).2 where
  known point := by
    rw [List.mem_append, mem_level]
    constructor
    · rintro (old | ⟨waiting, -⟩)
      · obtain ⟨steps, few, walk⟩ := (stage.known point).mp old
        exact ⟨steps, Nat.le_succ_of_le few, walk⟩
      · exact ⟨rounds + 1, Nat.le_refl _, stage.reached point waiting⟩
    · rintro ⟨steps, few, walk⟩
      by_cases old : point ∈ seen
      · exact .inl old
      · rcases Nat.lt_or_eq_of_le few with fewer | rfl
        · exact .inl ((stage.known point).mpr ⟨steps, Nat.le_of_lt_succ fewer, walk⟩)
        · exact .inr ⟨(stage.ahead point walk).resolve_left old, old⟩
  ahead point walk := by
    obtain ⟨before, steps, last⟩ := walk.exists_last
    by_cases old : before ∈ seen
    · -- The step before was taken from a point seen earlier: the point was due by now.
      obtain ⟨fewer, few, way⟩ := (stage.known before).mp old
      have due := way.tail last
      refine .inl (List.mem_append.mpr ?_)
      rcases Nat.lt_or_eq_of_le few with less | rfl
      · exact .inl ((stage.known point).mpr ⟨fewer + 1, less, due⟩)
      · by_cases known : point ∈ seen
        · exact .inl known
        · exact .inr (mem_level.mpr ⟨(stage.ahead point due).resolve_left known, known⟩)
    · have now : before ∈ (level next seen frontier).1 :=
        mem_level.mpr ⟨(stage.ahead before steps).resolve_left old, old⟩
      rw [snd_level]
      exact .inr (List.mem_flatMap.mpr ⟨before, now, last⟩)
  reached point step := by
    rw [snd_level] at step
    obtain ⟨before, now, last⟩ := List.mem_flatMap.mp step
    exact (stage.reached before (mem_level.mp now).1).tail last

/-- What a round finds lies one step farther. -/
theorem Stage.distance (stage : Stage next start rounds seen frontier) {point : κ}
    (found : point ∈ (level next seen frontier).1) :
    Distance next start (rounds + 1) point where
  walk := stage.reached point (mem_level.mp found).1
  least fewer less walk :=
    (mem_level.mp found).2 ((stage.known point).mpr ⟨fewer, Nat.le_of_lt_succ less, walk⟩)

/-- A search lists what it finds by distance. -/
theorem Stage.exists_distances (stage : Stage next start rounds seen frontier) (more : Nat) :
    ∃ steps : List Nat, List.Forall₂ (Distance next start) steps (search next more seen frontier) ∧
      steps.Pairwise (· ≤ ·) ∧ ∀ step ∈ steps, rounds < step := by
  induction more generalizing rounds seen frontier with
  | zero => exact ⟨[], .nil, .nil, fun step listed => absurd listed List.not_mem_nil⟩
  | succ more ih =>
      rw [search]
      split
      · exact ⟨[], .nil, .nil, fun step listed => absurd listed List.not_mem_nil⟩
      · obtain ⟨later, far, sorted, above⟩ := ih stage.onward
        have near : List.Forall₂ (Distance next start)
            ((level next seen frontier).1.map fun _ => rounds + 1)
            (level next seen frontier).1 := by
          rw [List.forall₂_map_left_iff, List.forall₂_same]
          exact fun point found => stage.distance found
        refine ⟨_, List.rel_append near far, ?_, ?_⟩
        · rw [List.pairwise_append]
          refine ⟨?_, sorted, ?_⟩
          · rw [List.pairwise_map]
            exact List.pairwise_of_forall fun _ _ => Nat.le_refl _
          · intro step listed other farther
            obtain ⟨_, _, rfl⟩ := List.mem_map.mp listed
            exact Nat.le_of_lt (above other farther)
        · intro step listed
          rcases List.mem_append.mp listed with now | after
          · obtain ⟨_, _, rfl⟩ := List.mem_map.mp now
            exact Nat.lt_succ_self rounds
          · exact Nat.lt_of_succ_lt (above step after)

end Rounds

section Once

variable [DecidableEq κ]

/-- A round finds a point once. -/
theorem nodup_level (seen frontier : List κ) : (level next seen frontier).1.Nodup := by
  have each : ∀ (rest : List κ) (found : List κ × List κ), found.1.Nodup →
      (rest.foldl (fun found point =>
        if point ∈ seen ∨ point ∈ found.1 then found
        else (found.1 ++ [point], found.2 ++ next point)) found).1.Nodup := by
    intro rest
    induction rest with
    | nil => exact fun found once => once
    | cons head rest ih =>
        intro found once
        rw [List.foldl_cons]
        apply ih
        split
        · exact once
        · next new =>
            rw [not_or] at new
            exact List.nodup_append.mpr ⟨once, List.nodup_singleton head, by
              intro point old other single same
              exact new.2 (List.mem_singleton.mp single ▸ same ▸ old)⟩
  exact each frontier ([], []) List.nodup_nil

/-- A search finds a point once. -/
theorem nodup_search (rounds : Nat) (seen frontier : List κ) :
    (search next rounds seen frontier).Nodup := by
  induction rounds generalizing seen frontier with
  | zero => exact List.nodup_nil
  | succ rounds ih =>
      rw [search]
      split
      · exact List.nodup_nil
      · refine List.nodup_append.mpr ⟨nodup_level seen frontier, ih _ _, ?_⟩
        intro point now other later same
        have fresh := (reached_of_mem_search later).1
        exact fresh (List.mem_append_right _ (same ▸ now))

end Once

end GraphIngest.Foundation
