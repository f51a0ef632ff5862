import Mathlib.Data.List.Forall2

/-! # Computations that may fail

Whether a computation comes to a value, read off its parts: a sequence does when its first part
does and what follows on that value, a step over a list when it does on every item.
-/

namespace GraphIngest.Foundation

variable {ε α β : Type*}

/-- A computation that comes to a value. -/
def Runs (computation : Except ε α) : Prop := ∃ value, computation = .ok value

@[simp] theorem runs_ok (value : α) : Runs (.ok value : Except ε α) := ⟨value, rfl⟩

@[simp] theorem not_runs_error (error : ε) : ¬ Runs (.error error : Except ε α) := by
  intro runs
  obtain ⟨value, same⟩ := runs
  cases same

theorem bind_eq_ok {first : Except ε α} {next : α → Except ε β} {result : β} :
    first.bind next = .ok result ↔ ∃ value, first = .ok value ∧ next value = .ok result := by
  cases first with
  | error error => simp only [Except.bind, reduceCtorEq, false_and, exists_false]
  | ok value => simp only [Except.bind, Except.ok.injEq, exists_eq_left']

theorem runs_bind {first : Except ε α} {next : α → Except ε β} :
    Runs (first.bind next) ↔ ∃ value, first = .ok value ∧ Runs (next value) := by
  unfold Runs
  simp only [bind_eq_ok]
  constructor
  · intro runs
    obtain ⟨result, value, came, later⟩ := runs
    exact ⟨value, came, result, later⟩
  · intro runs
    obtain ⟨value, came, result, later⟩ := runs
    exact ⟨result, value, came, later⟩

theorem map_eq_ok {first : Except ε α} {change : α → β} {result : β} :
    first.map change = .ok result ↔ ∃ value, first = .ok value ∧ change value = result := by
  cases first with
  | error error => simp only [Except.map, reduceCtorEq, false_and, exists_false]
  | ok value => simp only [Except.map, Except.ok.injEq, exists_eq_left']

theorem runs_map {first : Except ε α} {change : α → β} :
    Runs (first.map change) ↔ Runs first := by
  cases first with
  | error error => exact iff_of_false (not_runs_error error) (not_runs_error error)
  | ok value => exact iff_of_true (runs_ok _) (runs_ok value)

/-- A step over a list comes to a value exactly when it does on every item. -/
theorem runs_mapM {step : α → Except ε β} {items : List α} :
    Runs (items.mapM step) ↔ ∀ item ∈ items, Runs (step item) := by
  induction items with
  | nil => exact iff_of_true ⟨[], rfl⟩ fun _ member => (List.not_mem_nil member).elim
  | cons item rest ih =>
      rw [List.mapM_cons, List.forall_mem_cons, ← ih]
      cases step item with
      | error error => exact iff_of_false (not_runs_error error) fun both => not_runs_error _ both.1
      | ok value =>
          rw [and_iff_right (runs_ok value)]
          cases rest.mapM step with
          | error error => exact iff_of_false (not_runs_error error) (not_runs_error error)
          | ok values => exact iff_of_true (runs_ok _) (runs_ok values)

/-- So does a loop, when what a step comes to hangs on the item alone. -/
theorem runs_foldlM {σ : Type*} {step : σ → α → Except ε σ} {good : α → Prop}
    (each : ∀ state item, Runs (step state item) ↔ good item) {items : List α} {state : σ} :
    Runs (items.foldlM step state) ↔ ∀ item ∈ items, good item := by
  induction items generalizing state with
  | nil => exact iff_of_true (runs_ok state) fun _ member => (List.not_mem_nil member).elim
  | cons item rest ih =>
      rw [List.foldlM_cons, List.forall_mem_cons, ← each state item]
      refine runs_bind.trans ?_
      simp only [ih]
      exact exists_and_right

/-- The values of a step over a list are those of the step on its items. -/
theorem forall₂_of_mapM {step : α → Except ε β} {items : List α} {values : List β}
    (came : items.mapM step = .ok values) :
    List.Forall₂ (fun item value => step item = .ok value) items values := by
  induction items generalizing values with
  | nil =>
      cases came
      exact .nil
  | cons item rest ih =>
      rw [List.mapM_cons] at came
      obtain ⟨first, here, came⟩ := bind_eq_ok.mp came
      obtain ⟨later, there, came⟩ := bind_eq_ok.mp came
      cases came
      exact .cons here (ih there)

/-- A step that comes to a value on every item comes to those values on the list. -/
theorem mapM_of_forall₂ {step : α → Except ε β} {items : List α} {values : List β}
    (each : List.Forall₂ (fun item value => step item = .ok value) items values) :
    items.mapM step = .ok values := by
  induction each with
  | nil => rfl
  | cons here _ ih =>
      rw [List.mapM_cons, here, ih]
      rfl

theorem mapM_eq_ok {step : α → Except ε β} {value : α → β} {items : List α}
    (each : ∀ item ∈ items, step item = .ok (value item)) :
    items.mapM step = .ok (items.map value) := by
  apply mapM_of_forall₂
  rw [List.forall₂_map_right_iff, List.forall₂_same]
  exact each

section Lookups

variable {step : α → Option β} {items : List α} {values : List β}

/-- A step over a list finds a value exactly when it does for every item. -/
theorem isSome_mapM :
    (items.mapM step).isSome = true ↔ ∀ item ∈ items, (step item).isSome = true := by
  induction items with
  | nil => exact iff_of_true rfl fun _ member => (List.not_mem_nil member).elim
  | cons item rest ih =>
      rw [List.mapM_cons, List.forall_mem_cons, ← ih]
      cases step item with
      | none => exact iff_of_false Bool.noConfusion fun both => Bool.noConfusion both.1
      | some value =>
          rw [and_iff_right Option.isSome_some]
          cases rest.mapM step <;> rfl

/-- What holds of all that is found holds of what is found for each item. -/
theorem forall_mem_of_mapM {good : β → Prop} (came : items.mapM step = some values) :
    (∀ value ∈ values, good value) ↔ ∀ item ∈ items, ∀ value ∈ step item, good value := by
  induction items generalizing values with
  | nil =>
      cases came
      exact iff_of_true (fun _ member => (List.not_mem_nil member).elim)
        fun _ member => (List.not_mem_nil member).elim
  | cons item rest ih =>
      rw [List.mapM_cons] at came
      obtain ⟨first, here, came⟩ := Option.bind_eq_some_iff.mp came
      obtain ⟨later, there, came⟩ := Option.bind_eq_some_iff.mp came
      cases came
      rw [List.forall_mem_cons, List.forall_mem_cons, ih there, here]
      simp only [Option.mem_def, Option.some.injEq, forall_eq']

end Lookups

end GraphIngest.Foundation
