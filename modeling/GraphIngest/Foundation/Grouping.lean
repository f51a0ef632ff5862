import GraphIngest.Foundation.Dict
import Mathlib.Data.List.Induction
import Mathlib.Data.List.Sort

/-! # Grouping by a key

Items are collected under their keys, and a group is spoken for by one of its
items: the first among those of least size, which is what a stable sort by size
puts in front, or the first among those of greatest size, which is what a loop keeps
that replaces a smaller one.
-/

namespace GraphIngest.Foundation

section Groups

variable {κ α : Type*} [DecidableEq κ]

/-- The items under their keys, a group in the place of its first item. -/
def grouped (key : α → κ) (items : List α) : Dict κ (List α) :=
  items.foldl (fun groups item => groups.append (key item) item) Dict.empty

variable {key : α → κ}

theorem get?_foldl_append_key (items : List α) (groups : Dict κ (List α)) (wanted : κ) :
    (items.foldl (fun groups item => groups.append (key item) item) groups).get? wanted =
      if items.filter (fun item => decide (key item = wanted)) = [] then groups.get? wanted
      else some (groups.getD wanted [] ++ items.filter fun item => decide (key item = wanted)) := by
  induction items generalizing groups with
  | nil => rfl
  | cons item rest ih =>
      rw [List.foldl_cons, ih, List.filter_cons]
      by_cases same : key item = wanted
      · subst same
        rw [Dict.getD_append, if_pos rfl, Dict.append, Dict.get?_set, if_pos rfl]
        simp only [decide_true, ↓reduceIte, List.cons_ne_nil]
        split
        · next lone => rw [lone]
        · rw [List.append_assoc, List.singleton_append]
      · rw [Dict.getD_append, if_neg (Ne.symm same), Dict.append, Dict.get?_set,
          if_neg (Ne.symm same)]
        simp only [same, decide_false, Bool.false_eq_true, ↓reduceIte]

/-- A group holds, in order, the items with its key, and there is one of them. -/
theorem mem_entries_grouped {items : List α} {wanted : κ} {group : List α} :
    (wanted, group) ∈ (grouped key items).entries ↔
      group = items.filter (fun item => decide (key item = wanted)) ∧ group ≠ [] := by
  rw [Dict.mem_entries_iff, grouped, get?_foldl_append_key, Dict.get?_empty]
  split
  · next missing =>
    constructor
    · intro found
      cases found
    · rintro ⟨same, filled⟩
      exact absurd (same.trans missing) filled
  · next filled =>
    have whole : (Dict.empty : Dict κ (List α)).getD wanted [] ++
        items.filter (fun item => decide (key item = wanted)) =
          items.filter fun item => decide (key item = wanted) := rfl
    rw [whole, Option.some.injEq]
    constructor
    · rintro rfl
      exact ⟨rfl, filled⟩
    · rintro ⟨same, _⟩
      exact same.symm

theorem entries_foldl_append_key {items : List α} (distinct : (items.map key).Nodup)
    {groups : Dict κ (List α)} (fresh : ∀ item ∈ items, key item ∉ groups.keys) :
    (items.foldl (fun groups item => groups.append (key item) item) groups).entries =
      groups.entries ++ items.map fun item => (key item, [item]) := by
  induction items generalizing groups with
  | nil => exact (List.append_nil _).symm
  | cons item rest ih =>
      have absent := fresh item List.mem_cons_self
      have unbound : groups.getD (key item) [] = [] := by
        cases bound : groups.get? (key item) with
        | none => rw [Dict.getD, bound, Option.getD_none]
        | some group => exact absurd ((groups.mem_keys_iff _).mpr ⟨group, bound⟩) absent
      have grown : (groups.append (key item) item).entries =
          groups.entries ++ [(key item, [item])] := by
        rw [Dict.append, unbound]
        exact Dict.setEntries_of_absent absent _
      rw [List.map_cons, List.nodup_cons] at distinct
      rw [List.foldl_cons, ih distinct.2, grown, List.append_assoc]
      · rfl
      · intro other listed known
        rw [Dict.keys, grown, List.map_append, List.mem_append] at known
        rcases known with before | now
        · exact fresh other (List.mem_cons_of_mem _ listed) before
        · rw [List.map_singleton, List.mem_singleton] at now
          have same : key other = key item := now
          exact distinct.1 (same ▸ List.mem_map_of_mem listed)

/-- An item put at the end of its group is put among all items. -/
theorem flatMap_setEntries_perm (wanted : κ) (item : α) (entries : List (κ × List α)) :
    ((Dict.setEntries wanted ((entries.lookup wanted).getD [] ++ [item]) entries).flatMap
      Prod.snd).Perm (entries.flatMap Prod.snd ++ [item]) := by
  induction entries with
  | nil => exact List.Perm.refl _
  | cons entry rest ih =>
      rw [List.lookup_cons, Dict.setEntries, List.flatMap_cons]
      by_cases same : entry.1 = wanted
      · rw [if_pos same, ← same, beq_self_eq_true, List.flatMap_cons, List.append_assoc,
          List.append_assoc]
        exact (List.perm_append_comm).append_left entry.2
      · rw [if_neg same, beq_false_of_ne (Ne.symm same), List.flatMap_cons, List.append_assoc]
        exact ih.append_left entry.2

/-- The groups hold all items. -/
theorem flatMap_grouped_perm (items : List α) :
    ((grouped key items).entries.flatMap Prod.snd).Perm items := by
  induction items using List.reverseRecOn with
  | nil => exact List.Perm.refl _
  | append_singleton items item ih =>
      rw [grouped, List.foldl_append, List.foldl_cons, List.foldl_nil]
      exact (flatMap_setEntries_perm (key item) item _).trans (ih.append_right [item])

/-- Items of distinct keys are groups of their own. -/
theorem values_grouped_of_nodup {items : List α} (distinct : (items.map key).Nodup) :
    (grouped key items).values = items.map fun item => [item] := by
  have none : ∀ item ∈ items, key item ∉ (Dict.empty : Dict κ (List α)).keys :=
    fun _ _ => List.not_mem_nil
  have alone := entries_foldl_append_key distinct none
  rw [Dict.values, grouped, alone, List.map_append, List.map_map]
  rfl

end Groups

section Leading

variable {α : Type*} (size : α → Nat)

/-- The first among the items of least size. -/
def First (lead : α) (items : List α) : Prop :=
  ∃ before after, items = before ++ lead :: after ∧ (∀ item ∈ before, size lead < size item) ∧
    ∀ item ∈ after, size lead ≤ size item

variable {size}

theorem First.mem {lead : α} {items : List α} (leads : First size lead items) : lead ∈ items := by
  obtain ⟨before, after, rfl, _⟩ := leads
  exact List.mem_append_right _ List.mem_cons_self

theorem First.least {lead item : α} {items : List α} (leads : First size lead items)
    (listed : item ∈ items) : size lead ≤ size item := by
  obtain ⟨before, after, rfl, earlier, later⟩ := leads
  rcases List.mem_append.mp listed with ahead | behind
  · exact (earlier item ahead).le
  · rcases List.mem_cons.mp behind with rfl | behind
    · exact le_rfl
    · exact later item behind

/-- One more item in front leads when it is no larger than the one that led. -/
theorem first_cons_iff {lead item : α} {items : List α} :
    First size lead (item :: items) ↔
      lead = item ∧ (∀ other ∈ items, size item ≤ size other) ∨
        First size lead items ∧ size lead < size item := by
  constructor
  · intro ⟨before, after, split, earlier, later⟩
    cases before with
    | nil =>
        obtain ⟨rfl, rfl⟩ := List.cons.inj split
        exact .inl ⟨rfl, later⟩
    | cons head before =>
        obtain ⟨rfl, rfl⟩ := List.cons.inj split
        refine .inr ⟨⟨before, after, rfl, ?_, later⟩, earlier item List.mem_cons_self⟩
        exact fun other ahead => earlier other (List.mem_cons_of_mem _ ahead)
  · rintro (⟨rfl, least⟩ | ⟨⟨before, after, rfl, earlier, later⟩, smaller⟩)
    · exact ⟨[], items, rfl, fun _ ahead => absurd ahead List.not_mem_nil, least⟩
    · refine ⟨item :: before, after, rfl, ?_, later⟩
      intro other ahead
      rcases List.mem_cons.mp ahead with rfl | ahead
      · exact smaller
      · exact earlier other ahead

/-- A stable sort by size puts the leading item in front. -/
theorem head?_insertionSort_iff {lead : α} {items : List α} :
    (items.insertionSort fun item other => size item ≤ size other).head? = some lead ↔
      First size lead items := by
  induction items generalizing lead with
  | nil =>
      constructor
      · intro found
        cases found
      · intro leads
        exact absurd leads.mem List.not_mem_nil
  | cons item rest ih =>
      rw [first_cons_iff, List.insertionSort_cons]
      cases sorted : rest.insertionSort fun item other => size item ≤ size other with
      | nil =>
          have alone : rest = [] := by
            have length := List.length_insertionSort (fun item other => size item ≤ size other) rest
            rw [sorted] at length
            exact List.eq_nil_of_length_eq_zero length.symm
          subst alone
          rw [List.orderedInsert_nil, List.head?_cons, Option.some.injEq]
          constructor
          · intro same
            exact .inl ⟨same.symm, fun _ listed => absurd listed List.not_mem_nil⟩
          · rintro (⟨same, _⟩ | ⟨leads, _⟩)
            · exact same.symm
            · exact absurd leads.mem List.not_mem_nil
      | cons front others =>
          have led : First size front rest := ih.mp (by rw [sorted, List.head?_cons])
          rw [List.orderedInsert_cons]
          split
          · next smaller =>
            rw [List.head?_cons, Option.some.injEq]
            constructor
            · intro same
              exact .inl ⟨same.symm, fun other listed => smaller.trans (led.least listed)⟩
            · rintro (⟨same, _⟩ | ⟨leads, less⟩)
              · exact same.symm
              · have bound := led.least leads.mem
                omega
          · next larger =>
            rw [List.head?_cons]
            constructor
            · intro same
              obtain rfl := Option.some.inj same
              exact .inr ⟨led, Nat.lt_of_not_le larger⟩
            · rintro (⟨rfl, least⟩ | ⟨leads, _⟩)
              · exact absurd (least front led.mem) larger
              · rw [← ih.mpr leads, sorted, List.head?_cons]

theorem exists_first {items : List α} (filled : items ≠ []) : ∃ lead, First size lead items := by
  cases sorted : (items.insertionSort fun item other => size item ≤ size other).head? with
  | some lead => exact ⟨lead, head?_insertionSort_iff.mp sorted⟩
  | none =>
      have length := List.length_insertionSort (fun item other => size item ≤ size other) items
      rw [List.head?_eq_none_iff.mp sorted] at length
      exact absurd (List.eq_nil_of_length_eq_zero length.symm) filled

/-- A change of the items that leaves the sizes alone changes the one that leads. -/
theorem first_map_iff {β : Type*} {change : β → α} {image : α} {items : List β} :
    First size image (items.map change) ↔
      ∃ lead, First (fun item => size (change item)) lead items ∧ change lead = image := by
  constructor
  · intro ⟨before, after, split, earlier, later⟩
    obtain ⟨front, back, rfl, rfl, parts⟩ := List.map_eq_append_iff.mp split
    obtain ⟨lead, rest, rfl, rfl, rfl⟩ := List.map_eq_cons_iff.mp parts
    refine ⟨lead, ⟨front, rest, rfl, ?_, ?_⟩, rfl⟩
    · exact fun item ahead => earlier _ (List.mem_map_of_mem ahead)
    · exact fun item behind => later _ (List.mem_map_of_mem behind)
  · rintro ⟨lead, ⟨before, after, rfl, earlier, later⟩, rfl⟩
    refine ⟨before.map change, after.map change, ?_, ?_, ?_⟩
    · rw [List.map_append, List.map_cons]
    · intro item ahead
      obtain ⟨origin, listed, rfl⟩ := List.mem_map.mp ahead
      exact earlier origin listed
    · intro item behind
      obtain ⟨origin, listed, rfl⟩ := List.mem_map.mp behind
      exact later origin listed

end Leading

section Largest

variable {κ α : Type*} [DecidableEq κ] (key : α → Option κ) (size : α → Nat)

/-- Keep one item of each key: a larger one replaces a smaller one. Items without a key
are passed over. -/
def keepLargest (best : Dict κ α) (item : α) : Dict κ α :=
  match key item with
  | none => best
  | some found =>
      match best.get? found with
      | some previous => if size previous < size item then best.set found item else best
      | none => best.set found item

/-- The first among the largest items of a key. -/
def Largest (wanted : κ) (lead : α) (items : List α) : Prop :=
  ∃ before after, items = before ++ lead :: after ∧ key lead = some wanted ∧
    (∀ item ∈ before, key item = some wanted → size item < size lead) ∧
      ∀ item ∈ after, key item = some wanted → size item ≤ size lead

variable {key size} {wanted : κ} {lead : α} {items : List α}

omit [DecidableEq κ] in
theorem Largest.mem (leads : Largest key size wanted lead items) : lead ∈ items := by
  obtain ⟨before, after, rfl, _⟩ := leads
  exact List.mem_append_right _ List.mem_cons_self

omit [DecidableEq κ] in
theorem Largest.key_eq (leads : Largest key size wanted lead items) : key lead = some wanted := by
  obtain ⟨_, _, _, same, _⟩ := leads
  exact same

omit [DecidableEq κ] in
/-- No item of the key is larger. -/
theorem Largest.greatest (leads : Largest key size wanted lead items) {item : α}
    (listed : item ∈ items) (same : key item = some wanted) : size item ≤ size lead := by
  obtain ⟨before, after, rfl, _, earlier, later⟩ := leads
  rcases List.mem_append.mp listed with ahead | behind
  · exact (earlier item ahead same).le
  · rcases List.mem_cons.mp behind with rfl | behind
    · exact le_rfl
    · exact later item behind same

omit [DecidableEq κ] in
/-- A smaller item of the key, or one of another key, changes nothing behind the
others. -/
theorem Largest.concat (leads : Largest key size wanted lead items) {item : α}
    (smaller : key item = some wanted → size item ≤ size lead) :
    Largest key size wanted lead (items ++ [item]) := by
  obtain ⟨before, after, rfl, same, earlier, later⟩ := leads
  refine ⟨before, after ++ [item], ?_, same, earlier, ?_⟩
  · rw [List.append_assoc, List.cons_append]
  · intro other listed known
    rcases List.mem_append.mp listed with behind | last
    · exact later other behind known
    · rw [List.mem_singleton.mp last] at known ⊢
      exact smaller known

/-- What is kept of some items: the first among the largest of each key they have. -/
structure KeepsLargest (key : α → Option κ) (size : α → Nat) (items : List α) (best : Dict κ α) :
    Prop where
  largest : ∀ {wanted lead}, best.get? wanted = some lead → Largest key size wanted lead items
  complete : ∀ {wanted}, best.get? wanted = none → ∀ item ∈ items, key item ≠ some wanted

namespace KeepsLargest

variable {best : Dict κ α}

/-- An item that is passed over changes nothing. -/
theorem pass (keeps : KeepsLargest key size items best) {item : α}
    (covered : ∀ found, key item = some found →
      ∃ lead, best.get? found = some lead ∧ size item ≤ size lead) :
    KeepsLargest key size (items ++ [item]) best where
  largest := by
    intro wanted lead held
    refine (keeps.largest held).concat fun same => ?_
    obtain ⟨other, found, smaller⟩ := covered wanted same
    rw [Option.some.inj (held.symm.trans found)]
    exact smaller
  complete := by
    intro wanted absent item listed same
    rcases List.mem_append.mp listed with before | last
    · exact keeps.complete absent item before same
    · rw [List.mem_singleton.mp last] at same
      obtain ⟨lead, found, _⟩ := covered wanted same
      rw [absent] at found
      cases found

/-- An item larger than what is kept of its key takes its place. -/
theorem replace (keeps : KeepsLargest key size items best) {item : α} {found : κ}
    (keyed : key item = some found) (larger : ∀ lead, best.get? found = some lead →
      size lead < size item) :
    KeepsLargest key size (items ++ [item]) (best.set found item) where
  largest := by
    intro wanted lead held
    rw [Dict.get?_set] at held
    split at held
    · next same =>
      subst same
      obtain rfl := Option.some.inj held
      refine ⟨items, [], rfl, keyed, fun old before known => ?_,
        fun _ listed => absurd listed List.not_mem_nil⟩
      cases kept : best.get? wanted with
      | none => exact absurd known (keeps.complete kept old before)
      | some previous =>
          have bound := (keeps.largest kept).greatest before known
          have step := larger previous kept
          omega
    · next other =>
      refine (keeps.largest held).concat fun same => ?_
      exact absurd (Option.some.inj (same.symm.trans keyed)) other
  complete := by
    intro wanted absent old listed same
    rw [Dict.get?_set] at absent
    split at absent
    · cases absent
    · next other =>
      rcases List.mem_append.mp listed with before | last
      · exact keeps.complete absent old before same
      · rw [List.mem_singleton.mp last, keyed] at same
        exact other (Option.some.inj same).symm

theorem step (keeps : KeepsLargest key size items best) (item : α) :
    KeepsLargest key size (items ++ [item]) (keepLargest key size best item) := by
  unfold keepLargest
  cases keyed : key item with
  | none =>
      refine keeps.pass fun found same => ?_
      rw [keyed] at same
      cases same
  | some found =>
      dsimp only
      cases held : best.get? found with
      | none =>
          refine keeps.replace keyed fun lead same => ?_
          rw [held] at same
          cases same
      | some previous =>
          dsimp only
          by_cases larger : size previous < size item
          · rw [if_pos larger]
            refine keeps.replace keyed fun lead same => ?_
            rw [← Option.some.inj (held.symm.trans same)]
            exact larger
          · rw [if_neg larger]
            refine keeps.pass fun other same => ⟨previous, ?_, Nat.le_of_not_lt larger⟩
            rw [← Option.some.inj (keyed.symm.trans same)]
            exact held

end KeepsLargest

/-- The loop keeps the first among the largest items of each key. -/
theorem keepsLargest_foldl (key : α → Option κ) (size : α → Nat) (items : List α) :
    KeepsLargest key size items (items.foldl (keepLargest key size) Dict.empty) := by
  induction items using List.reverseRecOn with
  | nil =>
      refine ⟨fun held => ?_, fun _ _ listed => absurd listed List.not_mem_nil⟩
      cases held
  | append_singleton items item ih =>
      rw [List.foldl_concat]
      exact ih.step item

end Largest

end GraphIngest.Foundation
