import GraphIngest.Foundation.Decoding
import Mathlib.Data.List.Infix
import Mathlib.Data.List.Induction

/-! # Finding words in a text

Where a word stands in a text, the first place from which it does, and the earliest of
several words, the one named first where several stand at one place.
-/

namespace GraphIngest.Foundation

variable {α : Type}

/-- The part of a text between two places. -/
def slice (text : List α) (start stop : Nat) : List α := (text.drop start).take (stop - start)

/-- The letters in front of a place are those in front of an earlier one, then those between. -/
theorem take_append_slice (text : List α) {start stop : Nat} (ordered : start ≤ stop) :
    text.take start ++ slice text start stop = text.take stop := by
  rw [slice, ← List.take_add, Nat.add_sub_cancel' ordered]

theorem StandsAt.slice_eq {word text : List α} {place : Nat} (stands : StandsAt word text place) :
    Foundation.slice text place (place + word.length) = word := by
  rw [Foundation.slice, Nat.add_sub_cancel_left, stands.slice]

theorem standsAt_iff_prefix {word text : List α} {place : Nat} (filled : word ≠ []) :
    StandsAt word text place ↔ word <+: text.drop place := by
  constructor
  · rintro ⟨before, after, rfl, rfl⟩
    rw [List.drop_left]
    exact List.prefix_append word after
  · intro front
    have inside : place ≤ text.length := by
      have fits := front.length_le
      have some := List.length_pos_of_ne_nil filled
      rw [List.length_drop] at fits
      omega
    obtain ⟨after, whole⟩ := front
    exact ⟨text.take place, after, by rw [whole, List.take_append_drop],
      List.length_take_of_le inside⟩

section Find

variable [DecidableEq α]

/-- The first place, from some place on, at which a word stands. -/
def findFrom (word text : List α) (start : Nat) : Option Nat :=
  (List.range' start (text.length + 1 - start)).find? fun place =>
    word.isPrefixOf (text.drop place)

variable {word text : List α} {start place : Nat}

theorem isPrefixOf_drop (filled : word ≠ []) :
    word.isPrefixOf (text.drop place) = true ↔ StandsAt word text place := by
  rw [List.isPrefixOf_iff_prefix, standsAt_iff_prefix filled]

theorem findFrom_eq_some (filled : word ≠ []) :
    findFrom word text start = some place ↔
      start ≤ place ∧ StandsAt word text place ∧
        ∀ other, start ≤ other → other < place → ¬ StandsAt word text other := by
  rw [findFrom, List.find?_range'_eq_some, List.mem_range'_1]
  simp only [Bool.not_eq_true', ← Bool.not_eq_true, isPrefixOf_drop filled]
  constructor
  · rintro ⟨stands, ⟨late, -⟩, first⟩
    exact ⟨late, stands, first⟩
  · rintro ⟨late, stands, first⟩
    have fits := stands.le_length
    exact ⟨stands, ⟨late, by omega⟩, first⟩

theorem findFrom_eq_none (filled : word ≠ []) :
    findFrom word text start = none ↔ ∀ place, start ≤ place → ¬ StandsAt word text place := by
  rw [findFrom, List.find?_range'_eq_none]
  simp only [Bool.not_eq_true', ← Bool.not_eq_true, isPrefixOf_drop filled]
  constructor
  · intro absent place late stands
    have fits := stands.le_length
    exact absent place late (by omega) stands
  · exact fun absent place late _ => absent place late

/-- Where a word stands it is found, there or before. -/
theorem exists_findFrom_le (filled : word ≠ []) (late : start ≤ place)
    (stands : StandsAt word text place) :
    ∃ held ≤ place, findFrom word text start = some held := by
  cases found : findFrom word text start with
  | none => exact absurd stands ((findFrom_eq_none filled).mp found place late)
  | some held =>
      have least := ((findFrom_eq_some filled).mp found).2.2
      exact ⟨held, Nat.le_of_not_lt fun less => least place late less stands, rfl⟩

end Find

section Earliest

variable {β : Type*}

/-- An item against the best so far: it takes its place if it comes earlier. -/
def keepEarlier (place : β → Option Nat) (best : Option (β × Nat)) (item : β) : Option (β × Nat) :=
  match place item with
  | none => best
  | some own => if best.all fun held => own < held.2 then some (item, own) else best

/-- The item that comes earliest, the first of those at one place. -/
def earliest (place : β → Option Nat) (items : List β) : Option (β × Nat) :=
  items.foldl (keepEarlier place) none

/-- An item that comes before all those named ahead of it and not behind any named
after it. -/
structure Leads (place : β → Option Nat) (items : List β) (item : β) (own : Nat) : Prop where
  spot : place item = some own
  ordered : ∃ front back, items = front ++ item :: back ∧
    (∀ other ∈ front, ∀ held, place other = some held → own < held) ∧
    ∀ other ∈ back, ∀ held, place other = some held → own ≤ held

variable {place : β → Option Nat} {items : List β} {item last : β} {own : Nat}

/-- No item comes before the one that leads. -/
theorem Leads.le (leads : Leads place items item own) {other : β} (listed : other ∈ items)
    {held : Nat} (found : place other = some held) : own ≤ held := by
  obtain ⟨front, back, rfl, first, later⟩ := leads.ordered
  rcases List.mem_append.mp listed with ahead | rest
  · exact Nat.le_of_lt (first other ahead held found)
  · rcases List.mem_cons.mp rest with rfl | behind
    · rw [leads.spot] at found
      exact Nat.le_of_eq (Option.some.inj found)
    · exact later other behind held found

/-- It still leads with one more item that does not come before it. -/
theorem Leads.concat (leads : Leads place items item own)
    (notEarlier : ∀ held, place last = some held → own ≤ held) :
    Leads place (items ++ [last]) item own := by
  obtain ⟨front, back, rfl, first, later⟩ := leads.ordered
  refine ⟨leads.spot, front, back ++ [last], ?_, first, ?_⟩
  · rw [List.append_assoc, List.cons_append]
  · intro other listed held found
    rcases List.mem_append.mp listed with behind | single
    · exact later other behind held found
    · rw [List.mem_singleton.mp single] at found
      exact notEarlier held found

/-- An item that comes before all others leads at their end. -/
theorem Leads.of_earlier (spot : place last = some own)
    (earlier : ∀ other ∈ items, ∀ held, place other = some held → own < held) :
    Leads place (items ++ [last]) last own :=
  ⟨spot, items, [], rfl, earlier, fun _ listed => absurd listed List.not_mem_nil⟩

/-- Either no item has a place, or the earliest leads. -/
theorem earliest_cases (place : β → Option Nat) (items : List β) :
    (earliest place items = none ∧ ∀ item ∈ items, place item = none) ∨
      ∃ item own, earliest place items = some (item, own) ∧ Leads place items item own := by
  induction items using List.reverseRecOn with
  | nil => exact .inl ⟨rfl, fun item listed => absurd listed List.not_mem_nil⟩
  | append_singleton items last ih =>
      have step : earliest place (items ++ [last]) =
          keepEarlier place (earliest place items) last := by
        rw [earliest, List.foldl_append]
        rfl
      rw [step, keepEarlier]
      cases placed : place last with
      | none =>
          rcases ih with ⟨nothing, missing⟩ | ⟨item, own, best, leads⟩
          · refine .inl ⟨nothing, fun item listed => ?_⟩
            rcases List.mem_append.mp listed with earlier | single
            · exact missing item earlier
            · exact (List.mem_singleton.mp single) ▸ placed
          · refine .inr ⟨item, own, best, leads.concat fun held found => ?_⟩
            rw [placed] at found
            cases found
      | some now =>
          rcases ih with ⟨nothing, missing⟩ | ⟨item, own, best, leads⟩
          · refine .inr ⟨last, now, by rw [nothing]; rfl, .of_earlier placed ?_⟩
            intro other listed held found
            rw [missing other listed] at found
            cases found
          · rw [best]
            by_cases earlier : now < own
            · refine .inr ⟨last, now, ?_, .of_earlier placed fun other listed held found => ?_⟩
              · simp only [Option.all_some, earlier, decide_true, ↓reduceIte]
              · exact Nat.lt_of_lt_of_le earlier (leads.le listed found)
            · refine .inr ⟨item, own, ?_, leads.concat fun held found => ?_⟩
              · simp only [Option.all_some, earlier, decide_false, Bool.false_eq_true, ↓reduceIte]
              · rw [placed] at found
                exact Option.some.inj found ▸ Nat.le_of_not_lt earlier

end Earliest

end GraphIngest.Foundation
