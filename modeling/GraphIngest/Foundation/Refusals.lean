import GraphIngest.Foundation.Decoding
import GraphIngest.Foundation.Fallible

/-! # What a decoder is refused with

Errors of one kind, read off the parts of a decoder: a sequence fails with one
when its first part does, or when that part comes to a value and what follows on
it does. A decoder is clean when it never fails so, wherever it starts. Counted
repetition fails in one of its turns, behind turns that all came to a value.
-/

namespace GraphIngest.Foundation

variable {ε α β γ : Type} {bad : ε → Prop}

/-- The computation fails, with an error of this kind. -/
def Fails (bad : ε → Prop) (computation : Except ε α) : Prop :=
  ∃ error, computation = .error error ∧ bad error

@[simp]
theorem not_fails_ok (value : α) : ¬ Fails bad (.ok value : Except ε α) := by
  intro fails
  obtain ⟨error, same, -⟩ := fails
  cases same

@[simp]
theorem fails_error {error : ε} : Fails bad (.error error : Except ε α) ↔ bad error := by
  simp only [Fails, Except.error.injEq, exists_eq_left']

/-- A sequence fails in its first step or, with that done, in the next. -/
theorem fails_bind {first : Except ε α} {next : α → Except ε β} :
    Fails bad (first.bind next) ↔
      Fails bad first ∨ ∃ value, first = .ok value ∧ Fails bad (next value) := by
  cases first with
  | error error => simp only [Except.bind, fails_error, reduceCtorEq, false_and, exists_false,
      or_false]
  | ok value => simp only [Except.bind, not_fails_ok, false_or, Except.ok.injEq, exists_eq_left']

theorem fails_map {first : Except ε α} {change : α → β} :
    Fails bad (first.map change) ↔ Fails bad first := by
  cases first with
  | error error => simp only [Except.map, fails_error]
  | ok value => exact iff_of_false (not_fails_ok _) (not_fails_ok value)

/-- Once the first part is known to fail otherwise at most, what follows counts. -/
theorem fails_bind_of_not {first : Except ε α} {next : α → Except ε β} (clean : ¬ Fails bad first) :
    Fails bad (first.bind next) ↔ ∃ value, first = .ok value ∧ Fails bad (next value) := by
  rw [fails_bind, or_iff_right clean]

namespace Decoder

variable {decoder : Decoder ε β α} {next : α → Decoder ε β γ} {cursor : Cursor β}

/-- A sequence of decoders ends where the second ends behind the first. -/
theorem run_bind_eq_ok {result : γ × Cursor β} :
    (decoder >>= next).run cursor = .ok result ↔
      ∃ value after, decoder.run cursor = .ok (value, after) ∧
        (next value).run after = .ok result := by
  rw [StateT.run_bind]
  exact bind_eq_ok.trans Prod.exists

/-- A sequence of decoders fails in the first or, behind it, in the second. -/
theorem fails_run_bind :
    Fails bad ((decoder >>= next).run cursor) ↔
      Fails bad (decoder.run cursor) ∨
        ∃ value after, decoder.run cursor = .ok (value, after) ∧
          Fails bad ((next value).run after) := by
  rw [StateT.run_bind]
  exact fails_bind.trans (or_congr Iff.rfl Prod.exists)

theorem fails_runOn {data : List β} :
    Fails bad (decoder.runOn data) ↔ Fails bad (decoder.run ⟨data, 0⟩) := by
  change Fails bad ((decoder.run ⟨data, 0⟩).bind fun result => .ok result.1) ↔ _
  rw [fails_bind]
  exact or_iff_left fun later => by
    obtain ⟨_, -, fails⟩ := later
    exact not_fails_ok _ fails

theorem fails_run_lift {step : Except ε α} :
    Fails bad ((liftM step : Decoder ε β α).run cursor) ↔ Fails bad step := by
  have lifted :
      (liftM step : Decoder ε β α).run cursor = step.map fun value => (value, cursor) := by
    cases step <;> rfl
  rw [lifted, fails_map]

variable (bad decoder) in
/-- The decoder never fails with an error of this kind. -/
def Clean : Prop := ∀ cursor, ¬ Fails bad (decoder.run cursor)

namespace Clean

theorem pure (value : α) : Clean bad (pure value : Decoder ε β α) := fun _ => not_fails_ok _

theorem bind (first : Clean bad decoder) (later : ∀ value, Clean bad (next value)) :
    Clean bad (decoder >>= next) := by
  intro cursor fails
  obtain here | ⟨value, after, -, there⟩ := fails_run_bind.mp fails
  · exact first cursor here
  · exact later value after there

theorem lift {step : Except ε α} (clean : ¬ Fails bad step) :
    Clean bad (liftM step : Decoder ε β α) :=
  fun _ fails => clean (fails_run_lift.mp fails)

theorem throw {error : ε} (good : ¬ bad error) : Clean bad (throw error : Decoder ε β α) :=
  fun _ fails => good (fails_error.mp fails)

theorem slice {short : Cursor β → ε} (good : ∀ cursor, ¬ bad (short cursor)) (count : Nat) :
    Clean bad (Decoder.slice short count) := by
  intro cursor fails
  change Fails bad (if cursor.data.length < cursor.pos + count then _ else _) at fails
  split at fails
  · exact good cursor (fails_error.mp fails)
  · exact not_fails_ok _ fails

theorem number {short : Cursor UInt8 → ε} (good : ∀ cursor, ¬ bad (short cursor)) (width : Nat) :
    Clean bad (Decoder.number short width) :=
  (slice good width).bind fun bytes => pure (ofBigEndian bytes)

theorem times (each : Clean bad decoder) (count : Nat) :
    Clean bad (Decoder.times count decoder) := by
  induction count with
  | zero => exact pure []
  | succ count ih => exact each.bind fun value => ih.bind fun rest => pure (value :: rest)

end Clean

/-- Behind a clean decoder only the next one can fail. -/
theorem fails_run_bind_of_clean (clean : Clean bad decoder) :
    Fails bad ((decoder >>= next).run cursor) ↔
      ∃ value after, decoder.run cursor = .ok (value, after) ∧
        Fails bad ((next value).run after) := by
  rw [fails_run_bind, or_iff_right (clean cursor)]

/-- A computed value in the end changes nothing. -/
theorem fails_run_bind_pure {change : α → γ} :
    Fails bad ((decoder >>= fun value => Pure.pure (change value)).run cursor) ↔
      Fails bad (decoder.run cursor) := by
  rw [fails_run_bind]
  exact or_iff_left fun later => by
    obtain ⟨_, _, -, fails⟩ := later
    exact not_fails_ok _ fails

/-- Repetition fails in a turn that follows on turns that came to a value. -/
theorem fails_run_times {count : Nat} :
    Fails bad ((Decoder.times count decoder).run cursor) ↔
      ∃ turn < count, ∃ values after,
        (Decoder.times turn decoder).run cursor = .ok (values, after) ∧
          Fails bad (decoder.run after) := by
  induction count generalizing cursor with
  | zero =>
      refine iff_of_false (not_fails_ok _) fun later => ?_
      obtain ⟨turn, less, _⟩ := later
      exact absurd less (Nat.not_lt_zero turn)
  | succ count ih =>
      rw [Decoder.times, fails_run_bind]
      simp only [fails_run_bind_pure, ih]
      constructor
      · intro fails
        obtain here | ⟨value, middle, first, turn, less, values, after, before, fails⟩ := fails
        · exact ⟨0, Nat.zero_lt_succ count, [], cursor, rfl, here⟩
        · refine ⟨turn + 1, Nat.succ_lt_succ less, value :: values, after, ?_, fails⟩
          exact run_bind_eq_ok.mpr ⟨value, middle, first,
            run_bind_eq_ok.mpr ⟨values, after, before, rfl⟩⟩
      · intro fails
        obtain ⟨turn, less, values, after, before, fails⟩ := fails
        cases turn with
        | zero =>
            obtain ⟨rfl, rfl⟩ := Prod.mk.inj (Except.ok.inj before)
            exact .inl fails
        | succ turn =>
            obtain ⟨value, middle, first, later⟩ := run_bind_eq_ok.mp before
            obtain ⟨rest, last, others, same⟩ := run_bind_eq_ok.mp later
            obtain ⟨-, rfl⟩ := Prod.mk.inj (Except.ok.inj same)
            exact .inr ⟨value, middle, first, turn, Nat.lt_of_succ_lt_succ less, rest, last,
              others, fails⟩

end Decoder

end GraphIngest.Foundation
