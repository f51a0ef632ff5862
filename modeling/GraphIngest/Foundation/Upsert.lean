import GraphIngest.Foundation.Dict
import GraphIngest.Foundation.KeyedLog

/-! # Merging into a dictionary

A store that merges never forgets a key: a record written under a key is put over
the one held there, and what putting over means is a parameter. What a key holds
in the end is what the records written under it leave when put one over the other
in their order (`get?_foldl_upsert`).
-/

namespace GraphIngest.Foundation

variable {κ ν : Type*} (put : ν → ν → ν)

/-- Put a record over the one held, if any. -/
def putOver (held : Option ν) (record : ν) : ν :=
  match held with
  | some old => put old record
  | none => record

/-- What is held once some records have been put over it. -/
def settled (held : Option ν) (records : List ν) : Option ν :=
  records.foldl (fun held record => some (putOver put held record)) held

variable {put}

@[simp] theorem settled_nil (held : Option ν) : settled put held [] = held := rfl

@[simp] theorem settled_cons (held : Option ν) (record : ν) (records : List ν) :
    settled put held (record :: records) =
      settled put (some (putOver put held record)) records := rfl

theorem settled_append (held : Option ν) (first second : List ν) :
    settled put held (first ++ second) = settled put (settled put held first) second :=
  List.foldl_append

/-- Something is held once a record has been put. -/
theorem isSome_settled {held : Option ν} {records : List ν} :
    (settled put held records).isSome ↔ held.isSome ∨ records ≠ [] := by
  induction records generalizing held with
  | nil => simp only [settled_nil, ne_eq, not_true, or_false]
  | cons record records ih =>
      rw [settled_cons, ih]
      exact iff_of_true (Or.inl rfl) (Or.inr (List.cons_ne_nil _ _))

/-- What holds of every record put, and of what is held, holds of the outcome. -/
theorem settled_preserves {holds : ν → Prop} (keeps : ∀ old new, holds old → holds new →
    holds (put old new)) {held : Option ν} {records : List ν} (before : ∀ old ∈ held, holds old)
    (written : ∀ record ∈ records, holds record) : ∀ final ∈ settled put held records,
      holds final := by
  induction records generalizing held with
  | nil => exact before
  | cons record records ih =>
      rw [settled_cons]
      refine ih ?_ fun later listed => written later (List.mem_cons_of_mem _ listed)
      intro old same
      obtain rfl := Option.some.inj (Option.mem_def.mp same)
      cases held with
      | none => exact written record List.mem_cons_self
      | some old => exact keeps old record (before old rfl) (written record List.mem_cons_self)

/-- Something that one of the records put shows, or what is held, shows in the outcome. -/
theorem settled_shows {shows : ν → Prop} (splits : ∀ old new, shows (put old new) ↔
    shows old ∨ shows new) {held : Option ν} {records : List ν} :
    (∃ final ∈ settled put held records, shows final) ↔
      (∃ old ∈ held, shows old) ∨ ∃ record ∈ records, shows record := by
  refine foldl_iff (fun held : Option ν => ∃ old ∈ held, shows old) ?_ records held
  intro held record
  simp only [Option.mem_some_iff, exists_eq_left']
  cases held with
  | none => simp only [putOver, Option.not_mem_none, false_and, exists_false, false_or]
  | some old => simp only [putOver, splits, Option.mem_some_iff, exists_eq_left']

/-- Where putting over is associative, records put over one that is held leave what they
leave alone, put over it. -/
theorem settled_some (assoc : ∀ first second third, put (put first second) third =
    put first (put second third)) (old : ν) (records : List ν) :
    settled put (some old) records =
      some ((settled put none records).elim old (put old)) := by
  induction records generalizing old with
  | nil => rfl
  | cons record records ih =>
      rw [settled_cons, settled_cons, putOver, putOver, ih, ih record]
      cases settled put none records with
      | none => rfl
      | some new => exact congrArg some (assoc old record new)

/-- A view of records that putting over respects may be taken before or after. -/
theorem settled_map {μ : Type*} {under : μ → μ → μ} (view : ν → μ)
    (respects : ∀ old new, view (put old new) = under (view old) (view new)) (held : Option ν)
    (records : List ν) : (settled put held records).map view =
      settled under (held.map view) (records.map view) := by
  induction records generalizing held with
  | nil => rfl
  | cons record records ih =>
      rw [settled_cons, ih, List.map_cons, settled_cons]
      cases held with
      | none => rfl
      | some old =>
          change settled under (some (view (put old record))) _ = _
          rw [respects]
          rfl

/-- Nothing is held only if nothing was and no record has been put. -/
theorem settled_eq_none {held : Option ν} {records : List ν} :
    settled put held records = none ↔ held = none ∧ records = [] := by
  rw [← not_iff_not, ← ne_eq, Option.ne_none_iff_isSome, isSome_settled, not_and_or, ← ne_eq,
    Option.ne_none_iff_isSome, ne_eq]

namespace Dict

variable [DecidableEq κ]

/-- Write a record under a key. -/
def upsert (put : ν → ν → ν) (dict : Dict κ ν) (entry : κ × ν) : Dict κ ν :=
  dict.set entry.1 (putOver put (dict.get? entry.1) entry.2)

/-- **Merging.** What a key holds after some writes. -/
theorem get?_foldl_upsert (entries : List (κ × ν)) (dict : Dict κ ν) (key : κ) :
    (entries.foldl (upsert put) dict).get? key =
      settled put (dict.get? key)
        ((entries.filter fun entry => entry.1 = key).map Prod.snd) := by
  induction entries generalizing dict with
  | nil => rfl
  | cons entry entries ih =>
      rw [List.foldl_cons, ih, upsert, get?_set]
      by_cases same : entry.1 = key
      · rw [List.filter_cons_of_pos (by exact decide_eq_true same), List.map_cons, settled_cons,
          if_pos same.symm, same]
      · rw [List.filter_cons_of_neg (by simpa only [decide_eq_true_eq] using same),
          if_neg fun equal => same equal.symm]

/-- Raise the number under a key. -/
def bump (dict : Dict κ Nat) (key : κ) (more : Nat) : Dict κ Nat :=
  dict.set key (dict.getD key 0 + more)

theorem getD_bump (dict : Dict κ Nat) (key other : κ) (more : Nat) :
    (dict.bump key more).getD other 0 = dict.getD other 0 + if key = other then more else 0 := by
  rw [bump, getD, get?_set]
  by_cases same : other = key
  · rw [if_pos same, if_pos same.symm, same, Option.getD_some]
  · rw [if_neg same, if_neg (Ne.symm same), Nat.add_zero, getD]

end Dict

section Creation

/-- What becomes of a value when something is created where nothing is held: what is held
stays, and one of the values to create, if there are any, takes an empty place. -/
def Completes {ν : Type*} (held : Option ν) (creates : ν → Prop) (final : Option ν) : Prop :=
  match held with
  | some old => final = some old
  | none =>
      match final with
      | some new => creates new
      | none => ∀ new, ¬ creates new

variable {ν : Type*} {held final : Option ν} {creates : ν → Prop}

theorem completes_some {old : ν} : Completes (some old) creates final ↔ final = some old := Iff.rfl

theorem completes_none_some {new : ν} : Completes none creates (some new) ↔ creates new := Iff.rfl

/-- Something is there in the end if it was or can be created. -/
theorem Completes.isSome_iff (completes : Completes held creates final) :
    final.isSome ↔ held.isSome ∨ ∃ new, creates new := by
  cases held with
  | some old => exact iff_of_true (completes ▸ rfl) (Or.inl rfl)
  | none =>
      cases final with
      | some new => exact iff_of_true rfl (Or.inr ⟨new, completes⟩)
      | none => exact iff_of_false nofun (Or.rec nofun fun ⟨new, created⟩ => completes new created)

theorem completes_congr {others : ν → Prop} (same : ∀ new, creates new ↔ others new) :
    Completes held creates final ↔ Completes held others final := by
  rw [funext fun new => propext (same new)]

/-- Creating entries one after the other, the first one of a key counts. -/
theorem Dict.completes_foldl_setdefault {κ : Type*} [DecidableEq κ] (created : List (κ × ν))
    (dict : Dict κ ν) (key : κ) :
    Completes (dict.get? key) (fun value => (key, value) ∈ created)
      ((created.foldl (fun dict entry => dict.setdefault entry.1 entry.2) dict).get? key) := by
  have loop := Dict.get?_foldl_setdefault (fun _ => true) Prod.fst Prod.snd created dict key
  simp only [↓reduceIte, Bool.true_and] at loop
  rw [loop]
  cases dict.get? key with
  | some old => rfl
  | none =>
      cases found : created.find? fun entry => decide (entry.1 = key) with
      | none =>
          intro value listed
          exact List.find?_eq_none.mp found _ listed (decide_eq_true rfl)
      | some entry =>
          have picked := List.find?_some found
          have same : entry.1 = key := of_decide_eq_true picked
          exact same ▸ List.mem_of_find?_eq_some found

end Creation

end GraphIngest.Foundation
