import Mathlib.Data.List.Basic

/-! # Logs deduplicated by key

A producer appends records to a log and remembers the keys it has already
emitted. A keyed emission is dropped when its key was seen; an unkeyed push is
always kept and not remembered. Every remembered key belongs to a kept record,
so a key is in the log exactly when some emission or push carried it.
-/

namespace GraphIngest.Foundation

/-- A property that one step of a loop acquires exactly from its own item is
acquired by the whole loop exactly from some item. -/
theorem foldl_iff {σ α : Type*} {step : σ → α → σ} (holds : σ → Prop) {source : α → Prop}
    (stepIff : ∀ state item, holds (step state item) ↔ holds state ∨ source item)
    (items : List α) (state : σ) :
    holds (items.foldl step state) ↔ holds state ∨ ∃ item ∈ items, source item := by
  induction items generalizing state with
  | nil => simp only [List.foldl_nil, List.not_mem_nil, false_and, exists_false, or_false]
  | cons item rest ih =>
      rw [List.foldl_cons, ih, stepIff, or_assoc]
      simp only [List.mem_cons, exists_eq_or_imp]

/-- A property that one step of a loop acquires at most from its own item is
acquired by the whole loop at most from some item. -/
theorem foldl_origin {σ α : Type*} {step : σ → α → σ} (holds : σ → Prop) {source : α → Prop}
    (stepOnly : ∀ state item, holds (step state item) → holds state ∨ source item)
    (items : List α) (state : σ) (held : holds (items.foldl step state)) :
    holds state ∨ ∃ item ∈ items, source item := by
  induction items generalizing state with
  | nil => exact Or.inl held
  | cons item rest ih =>
      rcases ih (step state item) held with before | ⟨later, member, brought⟩
      · exact (stepOnly state item before).imp_right fun brought =>
          ⟨item, List.mem_cons_self, brought⟩
      · exact Or.inr ⟨later, List.mem_cons_of_mem _ member, brought⟩

/-- A property that every step of a loop preserves holds at its end. -/
theorem foldl_preserves {σ α : Type*} {step : σ → α → σ} (holds : σ → Prop) (items : List α)
    (stepHolds : ∀ state, ∀ item ∈ items, holds state → holds (step state item)) (state : σ)
    (initial : holds state) : holds (items.foldl step state) := by
  induction items generalizing state with
  | nil => exact initial
  | cons item rest ih =>
      exact ih (fun state item member => stepHolds state item (List.mem_cons_of_mem _ member))
        _ (stepHolds state item List.mem_cons_self initial)

/-- A property that steps keep and that some item of a loop brings about holds at
its end. -/
theorem foldl_acquires {σ α : Type*} {step : σ → α → σ} (holds : σ → Prop) {items : List α}
    {item : α} (member : item ∈ items) (gains : ∀ state, holds (step state item))
    (keeps : ∀ state item, holds state → holds (step state item)) (state : σ) :
    holds (items.foldl step state) := by
  obtain ⟨before, after, rfl⟩ := List.append_of_mem member
  rw [List.foldl_append, List.foldl_cons]
  exact foldl_preserves holds after (fun state item _ => keeps state item) _ (gains _)

/-- A property that an item can bring about and an item can undo holds at the end of a loop
exactly when it was brought about, or held to begin with, and was not undone since. The states
of the loop may be limited to good ones. -/
theorem foldl_iff_since {σ α : Type*} {step : σ → α → σ} (good holds : σ → Prop)
    {gains loses : α → Prop} (stays : ∀ state item, good state → good (step state item))
    (stepIff : ∀ state item, good state →
      (holds (step state item) ↔ gains item ∨ holds state ∧ ¬ loses item))
    (items : List α) {state : σ} (initial : good state) :
    holds (items.foldl step state) ↔
      (∃ before item after, items = before ++ item :: after ∧ gains item ∧
        ∀ later ∈ after, ¬ loses later) ∨ holds state ∧ ∀ item ∈ items, ¬ loses item := by
  induction items generalizing state with
  | nil =>
      constructor
      · exact fun held => .inr ⟨held, fun _ member => nomatch member⟩
      · rintro (⟨before, item, after, parts, -⟩ | held)
        · exact absurd parts.symm (List.append_ne_nil_of_right_ne_nil _ (List.cons_ne_nil _ _))
        · exact held.1
  | cons item rest ih =>
      rw [List.foldl_cons, ih (stays state item initial), stepIff state item initial]
      constructor
      · rintro (⟨before, later, after, rfl, gained, kept⟩ | ⟨gained | ⟨held, kept⟩, keeps⟩)
        · exact .inl ⟨item :: before, later, after, rfl, gained, kept⟩
        · exact .inl ⟨[], item, rest, rfl, gained, keeps⟩
        · exact .inr ⟨held, List.forall_mem_cons.mpr ⟨kept, keeps⟩⟩
      · rintro (⟨before, later, after, parts, gained, kept⟩ | ⟨held, keeps⟩)
        · rcases before with _ | ⟨first, before⟩
          · obtain ⟨rfl, rfl⟩ := List.cons.inj parts
            exact .inr ⟨.inl gained, kept⟩
          · obtain ⟨rfl, rfl⟩ := List.cons.inj parts
            exact .inl ⟨before, later, after, rfl, gained, kept⟩
        · obtain ⟨kept, keeps⟩ := List.forall_mem_cons.mp keeps
          exact .inr ⟨.inr ⟨held, kept⟩, keeps⟩

/-- A quantity that no step of a loop changes is unchanged at its end. -/
theorem foldl_frame {σ α β : Type*} {step : σ → α → σ} (read : σ → β)
    (stepSame : ∀ state item, read (step state item) = read state) (items : List α) (state : σ) :
    read (items.foldl step state) = read state :=
  foldl_preserves (fun final => read final = read state) items
    (fun current item _ same => (stepSame current item).trans same) state rfl

/-- A list to which every step of a loop adds what its item brings has at its end what all
items bring. -/
theorem foldl_gathers {σ α β : Type*} {step : σ → α → σ} (read : σ → List β) {bring : α → List β}
    (stepGathers : ∀ state item, read (step state item) = read state ++ bring item)
    (items : List α) (state : σ) :
    read (items.foldl step state) = read state ++ items.flatMap bring := by
  induction items generalizing state with
  | nil => exact (List.append_nil _).symm
  | cons item rest ih =>
      rw [List.foldl_cons, ih, stepGathers, List.flatMap_cons, List.append_assoc]

/-- Records kept in order of arrival, with the keys emitted so far. -/
structure KeyedLog {α κ : Type*} (key : α → κ) where
  entries : List α
  seen : List κ
  recorded : ∀ seenKey ∈ seen, ∃ entry ∈ entries, key entry = seenKey

namespace KeyedLog

variable {α κ : Type*} {key : α → κ}

/-- The log before anything was emitted. -/
def empty : KeyedLog key := ⟨[], [], fun _ member => (List.not_mem_nil member).elim⟩

/-- Some kept record carries the key. -/
def Has (log : KeyedLog key) (wanted : κ) : Prop := ∃ entry ∈ log.entries, key entry = wanted

/-- Keep a record without looking at its key. -/
def push (log : KeyedLog key) (entry : α) : KeyedLog key where
  entries := log.entries ++ [entry]
  seen := log.seen
  recorded := fun seenKey member => by
    obtain ⟨kept, present, named⟩ := log.recorded seenKey member
    exact ⟨kept, List.mem_append_left _ present, named⟩

variable [DecidableEq κ]

/-- Keep a record unless its key was emitted before. -/
def emit (log : KeyedLog key) (entry : α) : KeyedLog key :=
  if key entry ∈ log.seen then log
  else
    { entries := log.entries ++ [entry]
      seen := key entry :: log.seen
      recorded := fun seenKey member => by
        rcases List.mem_cons.mp member with rfl | earlier
        · exact ⟨entry, List.mem_append_right _ List.mem_cons_self, rfl⟩
        · obtain ⟨kept, present, named⟩ := log.recorded seenKey earlier
          exact ⟨kept, List.mem_append_left _ present, named⟩ }

omit [DecidableEq κ] in
/-- The empty log has no key. -/
@[simp] theorem not_has_empty (wanted : κ) : ¬ (empty : KeyedLog key).Has wanted := by
  rintro ⟨entry, member, _⟩
  exact List.not_mem_nil member

omit [DecidableEq κ] in
/-- A push adds the key of its record. -/
@[simp] theorem has_push (log : KeyedLog key) (entry : α) (wanted : κ) :
    (log.push entry).Has wanted ↔ log.Has wanted ∨ key entry = wanted := by
  simp only [Has, push, List.mem_append, List.mem_singleton, or_and_right, exists_or,
    exists_eq_left]

/-- An emission adds the key of its record, kept or not. -/
@[simp] theorem has_emit (log : KeyedLog key) (entry : α) (wanted : κ) :
    (log.emit entry).Has wanted ↔ log.Has wanted ∨ key entry = wanted := by
  unfold emit
  split
  · next member =>
      constructor
      · exact Or.inl
      · rintro (present | rfl)
        · exact present
        · exact log.recorded _ member
  · simp only [Has, List.mem_append, List.mem_singleton, or_and_right, exists_or,
      exists_eq_left]

omit [DecidableEq κ] in
/-- What a push leaves in the log. -/
theorem mem_push {log : KeyedLog key} {entry kept : α} :
    kept ∈ (log.push entry).entries ↔ kept ∈ log.entries ∨ kept = entry := by
  simp only [push, List.mem_append, List.mem_singleton]

/-- An emission keeps what was there and adds at most its own record. -/
theorem mem_of_mem_emit {log : KeyedLog key} {entry kept : α}
    (member : kept ∈ (log.emit entry).entries) : kept ∈ log.entries ∨ kept = entry := by
  unfold emit at member
  split at member
  · exact Or.inl member
  · exact mem_push.mp member

omit [DecidableEq κ] in
variable (key) in
/-- Every kept record that passes a test was emitted, so that no two of them have one key. -/
structure Distinct (test : α → Bool) (log : KeyedLog key) : Prop where
  nodup : ((log.entries.filter test).map key).Nodup
  emitted : ∀ entry ∈ log.entries, test entry = true → key entry ∈ log.seen

variable {test : α → Bool}

omit [DecidableEq κ] in
theorem distinct_empty : Distinct key test empty :=
  ⟨List.nodup_nil, List.forall_mem_nil _⟩

/-- Emissions keep the keys apart. -/
theorem Distinct.emit {log : KeyedLog key} (distinct : Distinct key test log) (entry : α) :
    Distinct key test (log.emit entry) := by
  unfold KeyedLog.emit
  split
  · exact distinct
  · next fresh =>
      refine ⟨?_, fun kept member passes => ?_⟩
      · rw [List.filter_append, List.map_append]
        refine List.nodup_append.mpr ⟨distinct.nodup, ?_, ?_⟩
        · exact (List.pairwise_singleton _ _).sublist (List.filter_sublist.map key)
        · intro known listed own single same
          obtain ⟨kept, member, rfl⟩ := List.mem_map.mp listed
          obtain ⟨added, placed, rfl⟩ := List.mem_map.mp single
          rw [List.mem_singleton.mp (List.mem_of_mem_filter placed)] at same
          obtain ⟨before, passes⟩ := List.mem_filter.mp member
          exact fresh (same ▸ distinct.emitted kept before passes)
      · rcases List.mem_append.mp member with before | own
        · exact List.mem_cons_of_mem _ (distinct.emitted kept before passes)
        · rw [List.mem_singleton.mp own]
          exact List.mem_cons_self

omit [DecidableEq κ] in
/-- A push of another record keeps the keys apart. -/
theorem Distinct.push {log : KeyedLog key} (distinct : Distinct key test log) {entry : α}
    (other : test entry = false) : Distinct key test (log.push entry) where
  nodup := by
    have same : (log.push entry).entries.filter test = log.entries.filter test := by
      simp only [KeyedLog.push, List.filter_append, List.filter_cons, other, Bool.false_eq_true,
        ↓reduceIte, List.filter_nil, List.append_nil]
    rw [same]
    exact distinct.nodup
  emitted := by
    intro kept member passes
    rcases mem_push.mp member with before | own
    · exact distinct.emitted kept before passes
    · rw [own, other] at passes
      cases passes

end KeyedLog

end GraphIngest.Foundation
