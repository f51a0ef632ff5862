import GraphIngest.Foundation.Registry
import Mathlib.Data.List.Perm.Basic

/-! # The order of arrival

Pieces arrive in some order, and of the items of one name the first is kept.
What is kept does not depend on the order exactly when no two pieces come first
with different items of one name.
-/

namespace GraphIngest.Foundation

variable {α β κ : Type*} [DecidableEq κ] {name : α → κ}

/-- A name not known before picks the first item handed in under it. -/
theorem find?_accepted {known : List κ} {wanted : κ} (unknown : wanted ∉ known)
    (items : List α) :
    (accepted name known items).find? (fun item => name item = wanted) =
      items.find? fun item => name item = wanted := by
  induction items generalizing known with
  | nil => rfl
  | cons item rest ih =>
      by_cases same : name item = wanted
      · simp only [accepted, same, unknown, ↓reduceIte, List.find?_cons, decide_true]
      · simp only [accepted, List.find?_cons, same, decide_false]
        split
        · exact ih unknown
        · simp only [List.find?_cons, same, decide_false]
          apply ih
          intro listed
          cases List.mem_cons.mp listed with
          | inl here => exact same here.symm
          | inr before => exact unknown before

/-- The kept items are those found first under their name. -/
theorem mem_accepted_iff {items : List α} {item : α} :
    item ∈ accepted name [] items ↔
      items.find? (fun other => name other = name item) = some item := by
  rw [← @find?_accepted _ _ _ name [] (name item) List.not_mem_nil items]
  constructor
  · intro kept
    have alone := filter_name_eq (nodup_map_accepted [] items) kept
    rw [← List.head?_filter, alone]
    rfl
  · exact List.mem_of_find?_eq_some

/-- The first item of a name in the pieces is the first one of some piece. -/
theorem exists_accepted_of_flatMap {contents : β → List α} {pieces : List β} {item : α}
    (kept : item ∈ accepted name [] (pieces.flatMap contents)) :
    ∃ piece ∈ pieces, item ∈ accepted name [] (contents piece) := by
  rw [mem_accepted_iff] at kept
  induction pieces with
  | nil => cases kept
  | cons piece rest ih =>
      rw [List.flatMap_cons, List.find?_append] at kept
      cases first : (contents piece).find? fun other => name other = name item with
      | some other =>
          rw [first, Option.some_or, Option.some.injEq] at kept
          subst kept
          exact ⟨piece, List.mem_cons_self, mem_accepted_iff.mpr first⟩
      | none =>
          rw [first, Option.none_or] at kept
          obtain ⟨later, listed, found⟩ := ih kept
          exact ⟨later, List.mem_cons_of_mem _ listed, found⟩

/-- What the piece that comes first keeps is kept. -/
theorem mem_accepted_flatMap_cons {contents : β → List α} {piece : β} {rest : List β} {item : α}
    (kept : item ∈ accepted name [] (contents piece)) :
    item ∈ accepted name [] ((piece :: rest).flatMap contents) := by
  rw [mem_accepted_iff] at kept ⊢
  rw [List.flatMap_cons, List.find?_append, kept, Option.some_or]

/-- Two pieces never come first with different items of one name. -/
def Compatible (name : α → κ) (contents : β → List α) (pieces : List β) : Prop :=
  ∀ first ∈ pieces, ∀ second ∈ pieces, ∀ item ∈ accepted name [] (contents first),
    ∀ other ∈ accepted name [] (contents second), name item = name other → item = other

/-- Of compatible pieces the items each keeps are kept. -/
theorem mem_accepted_flatMap_iff {contents : β → List α} {pieces : List β}
    (compatible : Compatible name contents pieces) {item : α} :
    item ∈ accepted name [] (pieces.flatMap contents) ↔
      ∃ piece ∈ pieces, item ∈ accepted name [] (contents piece) := by
  constructor
  · exact exists_accepted_of_flatMap
  · intro ⟨piece, listed, kept⟩
    have handed : name item ∈ (pieces.flatMap contents).map name :=
      List.mem_map_of_mem (List.mem_flatMap.mpr
        ⟨piece, listed, (accepted_sublist [] _).mem kept⟩)
    obtain ⟨other, first, same⟩ :=
      List.mem_map.mp (mem_map_accepted.mpr ⟨handed, List.not_mem_nil⟩)
    obtain ⟨source, among, found⟩ := exists_accepted_of_flatMap first
    rw [compatible piece listed source among item kept other found same.symm]
    exact first

/-- **Order of arrival.** Every order keeps the same items exactly when the
pieces are compatible. -/
theorem accepted_perm_iff {contents : β → List α} {pieces : List β} :
    (∀ order : List β, order.Perm pieces → ∀ item,
        item ∈ accepted name [] (order.flatMap contents) ↔
        item ∈ accepted name [] (pieces.flatMap contents)) ↔
      Compatible name contents pieces := by
  constructor
  · intro same first firstListed second secondListed item kept other found named
    have stays : ∀ piece ∈ pieces, ∀ item ∈ accepted name [] (contents piece),
        item ∈ accepted name [] (pieces.flatMap contents) := by
      intro piece listed item kept
      obtain ⟨before, after, rfl⟩ := List.append_of_mem listed
      exact (same (piece :: (before ++ after)) List.perm_middle.symm item).mp
        (mem_accepted_flatMap_cons kept)
    have itemKept := stays first firstListed item kept
    have otherKept := stays second secondListed other found
    exact List.inj_on_of_nodup_map (nodup_map_accepted [] _) itemKept otherKept named
  · intro compatible order perm item
    have reordered : Compatible name contents order :=
      fun first firstListed second secondListed =>
        compatible first (perm.mem_iff.mp firstListed) second (perm.mem_iff.mp secondListed)
    rw [mem_accepted_flatMap_iff compatible, mem_accepted_flatMap_iff reordered]
    constructor
    · exact fun ⟨piece, listed, kept⟩ => ⟨piece, perm.mem_iff.mp listed, kept⟩
    · exact fun ⟨piece, listed, kept⟩ => ⟨piece, perm.mem_iff.mpr listed, kept⟩

/-- In another order other items may be kept, but under the same names. -/
theorem map_accepted_perm {items others : List α} (perm : items.Perm others) :
    ((accepted name [] items).map name).Perm ((accepted name [] others).map name) := by
  apply (List.perm_ext_iff_of_nodup (nodup_map_accepted [] _) (nodup_map_accepted [] _)).mpr
  intro wanted
  rw [mem_map_accepted, mem_map_accepted, (perm.map name).mem_iff]

end GraphIngest.Foundation
