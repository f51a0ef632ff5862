import GraphIngest.Foundation.Dict

/-! # Slots of one item or several

An index that keeps a single item bare and lists only several. Whatever the shape of a
slot, the items of a key are those entered under it, in the order of entry.
-/

namespace GraphIngest.Foundation

/-- What is kept under a key: a single item, or a list. -/
inductive Slot (ν : Type*)
  | one (item : ν)
  | many (items : List ν)
deriving DecidableEq, Repr

namespace Slot

variable {κ ν α : Type*} [DecidableEq κ]

/-- The items of a slot as a list. -/
def items : Slot ν → List ν
  | one item => [item]
  | many items => items

/-- A slot with one item more. -/
def add (item : ν) : Slot ν → Slot ν
  | one first => many [first, item]
  | many items => many (items ++ [item])

/-- Enter an item under a key. -/
def indexMember (index : Dict κ (Slot ν)) (key : κ) (item : ν) : Dict κ (Slot ν) :=
  match index.get? key with
  | none => index.set key (one item)
  | some slot => index.set key (slot.add item)

/-- The items of a key, none where there is no slot. -/
def members (index : Dict κ (Slot ν)) (key : κ) : List ν :=
  match index.get? key with
  | none => []
  | some slot => slot.items

theorem items_add (slot : Slot ν) (item : ν) : (slot.add item).items = slot.items ++ [item] := by
  cases slot <;> rfl

@[simp] theorem members_empty (key : κ) : members (Dict.empty : Dict κ (Slot ν)) key = [] := rfl

/-- The items of a key after entering one. -/
@[simp] theorem members_indexMember (index : Dict κ (Slot ν)) (key other : κ) (item : ν) :
    members (indexMember index key item) other =
      members index other ++ if other = key then [item] else [] := by
  unfold members indexMember
  by_cases same : other = key
  · subst same
    rw [if_pos rfl]
    cases held : index.get? other with
    | none => simp only [Dict.get?_set, ↓reduceIte, items, List.nil_append]
    | some slot => simp only [Dict.get?_set, ↓reduceIte, items_add]
  · rw [if_neg same, List.append_nil]
    cases held : index.get? key with
    | none => simp only [Dict.get?_set, same, ↓reduceIte]
    | some slot => simp only [Dict.get?_set, same, ↓reduceIte]

/-- A loop that enters the items that have a key lists, in order, those with one key. -/
theorem members_foldl {key : α → Option κ} {value : α → ν} (loop : List α)
    (index : Dict κ (Slot ν)) (wanted : κ) :
    members (loop.foldl (fun index item =>
      (key item).elim index fun key => indexMember index key (value item)) index) wanted =
      members index wanted ++
        (loop.filter fun item => decide (key item = some wanted)).map value := by
  induction loop generalizing index with
  | nil => rw [List.foldl_nil, List.filter_nil, List.map_nil, List.append_nil]
  | cons item rest ih =>
      rw [List.foldl_cons, ih, List.filter_cons]
      cases keyed : key item with
      | none =>
          rw [decide_eq_false (Option.some_ne_none wanted ∘ Eq.symm), if_neg Bool.false_ne_true]
          rfl
      | some own =>
          rw [Option.elim_some, members_indexMember]
          by_cases same : own = wanted
          · rw [if_pos same.symm, decide_eq_true (congrArg some same), if_pos rfl,
              List.append_assoc, List.map_cons, List.singleton_append]
          · rw [if_neg (Ne.symm same), decide_eq_false (same ∘ Option.some.inj),
              if_neg Bool.false_ne_true, List.append_nil]

end Slot

end GraphIngest.Foundation
