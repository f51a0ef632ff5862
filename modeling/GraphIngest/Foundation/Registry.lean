import Mathlib.Data.List.Nodup

/-! # First-come registration

Several producers hand in items under names. A registry keeps the first item of
each name and remembers every name it has heard of, kept or only announced. What
was announced beforehand is refused later: announcing names without handing in
their items loses the items.
-/

namespace GraphIngest.Foundation

section Accepted

variable {α κ : Type*} [DecidableEq κ] (name : α → κ)

/-- The items of names not known before, the first one for each name. -/
def accepted : List κ → List α → List α
  | _, [] => []
  | known, item :: rest =>
      if name item ∈ known then accepted known rest
      else item :: accepted (name item :: known) rest

variable {name}

/-- The accepted names are those handed in and not known before. -/
theorem mem_map_accepted {known : List κ} {items : List α} {wanted : κ} :
    wanted ∈ (accepted name known items).map name ↔
      wanted ∈ items.map name ∧ wanted ∉ known := by
  induction items generalizing known with
  | nil => simp only [accepted, List.map_nil, List.not_mem_nil, false_and]
  | cons item rest ih =>
      unfold accepted
      split
      · next heard =>
          rw [ih, List.map_cons, List.mem_cons]
          constructor
          · exact fun ⟨handed, unknown⟩ => ⟨Or.inr handed, unknown⟩
          · rintro ⟨rfl | handed, unknown⟩
            · exact (unknown heard).elim
            · exact ⟨handed, unknown⟩
      · next unheard =>
          rw [List.map_cons, List.mem_cons, ih, List.map_cons, List.mem_cons, List.mem_cons]
          by_cases same : wanted = name item
          · subst same
            exact iff_of_true (Or.inl rfl) ⟨Or.inl rfl, unheard⟩
          · simp only [same, false_or]

/-- Among items of distinct names, a name picks its item. -/
theorem filter_name_eq {items : List α} (distinct : (items.map name).Nodup) {item : α}
    (member : item ∈ items) : (items.filter fun other => name other = name item) = [item] := by
  induction items with
  | nil => cases member
  | cons first rest ih =>
      rw [List.map_cons, List.nodup_cons, List.mem_map] at distinct
      rcases List.mem_cons.mp member with rfl | later
      · have others : (rest.filter fun other => name other = name item) = [] :=
          List.filter_eq_nil_iff.mpr fun other listed same =>
            distinct.1 ⟨other, listed, of_decide_eq_true same⟩
        simp only [List.filter_cons, decide_true, ↓reduceIte, others]
      · have different : name first ≠ name item := fun same => distinct.1 ⟨item, later, same.symm⟩
        simp only [List.filter_cons, different, decide_false, Bool.false_eq_true, ↓reduceIte]
        exact ih distinct.2 later

theorem nodup_map_accepted (known : List κ) (items : List α) :
    ((accepted name known items).map name).Nodup := by
  induction items generalizing known with
  | nil => exact List.nodup_nil
  | cons item rest ih =>
      unfold accepted
      split
      · exact ih known
      · rw [List.map_cons, List.nodup_cons]
        refine ⟨?_, ih _⟩
        intro again
        exact (mem_map_accepted.mp again).2 List.mem_cons_self

/-- The accepted items were handed in, in this order. -/
theorem accepted_sublist (known : List κ) (items : List α) :
    (accepted name known items).Sublist items := by
  induction items generalizing known with
  | nil => exact List.Sublist.slnil
  | cons item rest ih =>
      unfold accepted
      split
      · exact (ih known).cons item
      · exact (ih _).cons_cons item

/-- A loop that does nothing on an item whose name it has met before does on all
items what it does on the accepted ones. -/
theorem foldl_accepted {σ : Type*} {step : σ → α → σ}
    (again : ∀ state item other, name other = name item →
      step (step state item) other = step state item)
    (stays : ∀ state item other, step state other = state →
      step (step state item) other = step state item)
    {known : List κ} (items : List α) {state : σ}
    (done : ∀ other, name other ∈ known → step state other = state) :
    (accepted name known items).foldl step state = items.foldl step state := by
  induction items generalizing known state with
  | nil => rfl
  | cons item rest ih =>
      unfold accepted
      split
      · next heard =>
        rw [ih done, List.foldl_cons, done item heard]
      · refine ih fun other met => ?_
        rcases List.mem_cons.mp met with same | before
        · exact again state item other same
        · exact stays state item other (done other before)

theorem accepted_append_congr {items others : List α}
    (same : ∀ known, accepted name known items = accepted name known others) (known : List κ)
    (front : List α) :
    accepted name known (front ++ items) = accepted name known (front ++ others) := by
  induction front generalizing known with
  | nil => exact same known
  | cons head rest ih => simp only [List.cons_append, accepted, ih]

/-- What has been thinned out before is thinned out again to the same. -/
theorem accepted_accepted_append {met known : List κ} (heard : ∀ word ∈ met, word ∈ known)
    (items more : List α) :
    accepted name known (accepted name met items ++ more) =
      accepted name known (items ++ more) := by
  induction items generalizing met known with
  | nil => rfl
  | cons item rest ih =>
      by_cases before : name item ∈ met
      · simp only [accepted, before, heard _ before, List.cons_append, ↓reduceIte]
        exact ih heard
      · by_cases old : name item ∈ known
        · simp only [accepted, before, old, List.cons_append, ↓reduceIte]
          refine ih fun word listed => ?_
          rcases List.mem_cons.mp listed with rfl | earlier
          · exact old
          · exact heard word earlier
        · simp only [accepted, before, old, List.cons_append, ↓reduceIte]
          refine congrArg (item :: ·) (ih fun word listed => ?_)
          rcases List.mem_cons.mp listed with rfl | earlier
          · exact List.mem_cons_self
          · exact List.mem_cons_of_mem _ (heard word earlier)

/-- Thinning out piece by piece and then as a whole is thinning out the whole. -/
theorem accepted_flatMap_accepted (pieces : List (List α)) (known : List κ) :
    accepted name known (pieces.flatMap (accepted name [])) =
      accepted name known pieces.flatten := by
  induction pieces generalizing known with
  | nil => rfl
  | cons piece rest ih =>
      rw [List.flatMap_cons, List.flatten_cons,
        accepted_accepted_append (List.forall_mem_nil _)]
      exact accepted_append_congr ih known piece

end Accepted

/-- The items kept so far, one for each name, and the names heard of. -/
structure Registry {α κ : Type*} (name : α → κ) where
  known : List κ
  items : List α
  registered : ∀ item ∈ items, name item ∈ known
  distinct : (items.map name).Nodup

namespace Registry

variable {α κ : Type*} {name : α → κ}

/-- The registry of items with distinct names. -/
def ofItems (items : List α) (distinct : (items.map name).Nodup) : Registry name where
  known := items.map name
  items := items
  registered := fun _ member => List.mem_map_of_mem member
  distinct := distinct

/-- Hear of names without their items. -/
def announce (registry : Registry name) (names : List κ) : Registry name where
  known := registry.known ++ names
  items := registry.items
  registered := fun item member => List.mem_append_left _ (registry.registered item member)
  distinct := registry.distinct

variable [DecidableEq κ]

/-- Hand in items: those of unknown names are kept. -/
def extend (registry : Registry name) (items : List α) : Registry name where
  known := registry.known ++ (accepted name registry.known items).map name
  items := registry.items ++ accepted name registry.known items
  registered := fun item member => by
    rcases List.mem_append.mp member with before | now
    · exact List.mem_append_left _ (registry.registered item before)
    · exact List.mem_append_right _ (List.mem_map_of_mem now)
  distinct := by
    rw [List.map_append]
    refine List.nodup_append.mpr ⟨registry.distinct, nodup_map_accepted _ _, ?_⟩
    intro first kept second new same
    obtain ⟨item, member, rfl⟩ := List.mem_map.mp kept
    exact (mem_map_accepted.mp (same ▸ new)).2 (registry.registered item member)

/-- Hand in one item. -/
def add (registry : Registry name) (item : α) : Registry name :=
  if heard : name item ∈ registry.known then registry
  else
    { known := name item :: registry.known
      items := registry.items ++ [item]
      registered := fun other member => by
        rcases List.mem_append.mp member with before | now
        · exact List.mem_cons_of_mem _ (registry.registered other before)
        · rw [List.mem_singleton.mp now]
          exact List.mem_cons_self
      distinct := by
        rw [List.map_append, List.map_singleton, ← List.concat_eq_append]
        refine List.Nodup.concat ?_ registry.distinct
        intro kept
        obtain ⟨other, member, same⟩ := List.mem_map.mp kept
        exact heard (same ▸ registry.registered other member) }

/-- Handing in items one by one keeps those of names not known before. -/
theorem items_foldl_add (registry : Registry name) (items : List α) :
    (items.foldl add registry).items = registry.items ++ accepted name registry.known items := by
  induction items generalizing registry with
  | nil => exact (List.append_nil _).symm
  | cons item rest ih =>
      rw [List.foldl_cons, ih]
      by_cases heard : name item ∈ registry.known
      · simp only [add, accepted, heard, ↓reduceDIte, ↓reduceIte]
      · simp only [add, accepted, heard, ↓reduceDIte, ↓reduceIte, List.append_assoc,
          List.singleton_append]

omit [DecidableEq κ] in
theorem mem_known_foldl_announce {β : Type*} (names : β → List κ) (batches : List β)
    (registry : Registry name) {wanted : κ} :
    wanted ∈ (batches.foldl (fun registry batch => registry.announce (names batch))
        registry).known ↔
      wanted ∈ registry.known ∨ wanted ∈ batches.flatMap names := by
  induction batches generalizing registry with
  | nil => simp only [List.foldl_nil, List.flatMap_nil, List.not_mem_nil, or_false]
  | cons batch rest ih =>
      rw [List.foldl_cons, ih, List.flatMap_cons, announce, List.mem_append, List.mem_append,
        or_assoc]

omit [DecidableEq κ] in
theorem items_foldl_announce {β : Type*} (names : β → List κ) (batches : List β)
    (registry : Registry name) :
    (batches.foldl (fun registry batch => registry.announce (names batch)) registry).items =
      registry.items := by
  induction batches generalizing registry with
  | nil => rfl
  | cons batch rest ih => exact ih (registry.announce (names batch))

/-- The names kept after handing in items. -/
theorem mem_names_extend {registry : Registry name} {items : List α} {wanted : κ} :
    wanted ∈ (registry.extend items).items.map name ↔
      wanted ∈ registry.items.map name ∨ wanted ∈ items.map name ∧ wanted ∉ registry.known := by
  rw [extend, List.map_append, List.mem_append, mem_map_accepted]

/-- The names heard of after handing in items. -/
theorem mem_known_extend {registry : Registry name} {items : List α} {wanted : κ} :
    wanted ∈ (registry.extend items).known ↔
      wanted ∈ registry.known ∨ wanted ∈ items.map name := by
  rw [extend, List.mem_append, mem_map_accepted]
  by_cases heard : wanted ∈ registry.known
  · simp only [heard, true_or]
  · simp only [heard, not_false_eq_true, and_true]

/-- Items whose names were all heard of before change nothing. -/
theorem items_extend_of_known {registry : Registry name} {items : List α}
    (heard : ∀ item ∈ items, name item ∈ registry.known) :
    (registry.extend items).items = registry.items := by
  have none : accepted name registry.known items = [] := by
    rw [List.eq_nil_iff_forall_not_mem]
    intro item member
    obtain ⟨handed, unknown⟩ := mem_map_accepted.mp (List.mem_map_of_mem member)
    obtain ⟨twin, present, same⟩ := List.mem_map.mp handed
    exact unknown (same ▸ heard twin present)
  have kept : (registry.extend items).items =
      registry.items ++ accepted name registry.known items := rfl
  rw [kept, none, List.append_nil]

end Registry

end GraphIngest.Foundation
