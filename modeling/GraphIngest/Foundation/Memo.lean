import GraphIngest.Foundation.Dict

/-! # Values remembered under a key

A loop over items needs a value of each, and looks it up in a dictionary under the key of
the item. At a key it does not find it computes the value and binds it. So the value of an
item is that of the first item met under its key, in this loop or in those before it that
filled the dictionary; where items of one key have one value, it is the item's own.
-/

namespace GraphIngest.Foundation.Memo

variable {α κ ν : Type*} [DecidableEq κ] (key : α → κ) (compute : α → ν)

/-- The value held under the key of an item, computed and bound if there is none. -/
def lookUp (cache : Dict κ ν) (item : α) : ν × Dict κ ν :=
  match cache.get? (key item) with
  | some held => (held, cache)
  | none => (compute item, cache.set (key item) (compute item))

/-- The item met first under the key of an item, in a list that may go without it. -/
def firstMet (met : List α) (item : α) : α :=
  (met.find? fun other => key other = key item).getD item

/-- A step of a loop that keeps the items whose value passes a test. -/
def keepStep (test : ν → Bool) (state : List α × Dict κ ν) (item : α) : List α × Dict κ ν :=
  let found := lookUp key compute state.2 item
  (if test found.1 then state.1 ++ [item] else state.1, found.2)

/-- The dictionary holds the values of the first items met under each key. -/
def Remembers (cache : Dict κ ν) (met : List α) : Prop :=
  ∀ wanted, cache.get? wanted = (met.find? fun other => key other = wanted).map compute

theorem remembers_empty : Remembers key compute .empty [] := fun _ => rfl

variable {key compute} {cache : Dict κ ν} {met : List α}

/-- An item met is known from then on. -/
theorem firstMet_append_of_mem {item : α} (known : item ∈ met) (later : List α) :
    firstMet key (met ++ later) item = firstMet key met item := by
  unfold firstMet
  have found : (met.find? fun other => key other = key item).isSome := by
    rw [List.find?_isSome]
    exact ⟨item, known, decide_eq_true rfl⟩
  rw [List.find?_append]
  congr 1
  exact Option.or_of_isSome found

/-- **Recall.** The value is that of the first item met under the key, which the dictionary
then holds. -/
theorem Remembers.lookUp (remembers : Remembers key compute cache met) (item : α) :
    (Memo.lookUp key compute cache item).1 = compute (firstMet key (met ++ [item]) item) ∧
      Remembers key compute (Memo.lookUp key compute cache item).2 (met ++ [item]) := by
  have held := remembers (key item)
  unfold Memo.lookUp firstMet
  cases found : met.find? fun other => key other = key item with
  | some other =>
      rw [found, Option.map_some] at held
      rw [held]
      refine ⟨by rw [List.find?_append, found]; rfl, ?_⟩
      intro wanted
      rw [remembers wanted, List.find?_append]
      by_cases same : key item = wanted
      · rw [← same, found]
        rfl
      · rw [List.find?_cons, decide_eq_false same, List.find?_nil, Option.or_none]
  | none =>
      rw [found, Option.map_none] at held
      rw [held]
      refine ⟨?_, ?_⟩
      · rw [List.find?_append, found, List.find?_cons, decide_eq_true rfl]
        rfl
      · intro wanted
        rw [Dict.get?_set, List.find?_append]
        by_cases same : key item = wanted
        · rw [if_pos same.symm, ← same, found, List.find?_cons, decide_eq_true rfl]
          rfl
        · rw [if_neg (Ne.symm same), remembers wanted, List.find?_cons, decide_eq_false same,
            List.find?_nil, Option.or_none]

/-- **Loop.** It keeps the items whose remembered value passes, in their order. -/
theorem Remembers.foldl_keepStep (remembers : Remembers key compute cache met) (test : ν → Bool)
    (items kept : List α) :
    (items.foldl (keepStep key compute test) (kept, cache)).1 =
        kept ++ items.filter (fun item => test (compute (firstMet key (met ++ items) item))) ∧
      Remembers key compute (items.foldl (keepStep key compute test) (kept, cache)).2
        (met ++ items) := by
  induction items generalizing kept cache met with
  | nil =>
      rw [List.foldl_nil, List.filter_nil, List.append_nil, List.append_nil]
      exact ⟨rfl, remembers⟩
  | cons item rest ih =>
      obtain ⟨value, held⟩ := remembers.lookUp item
      have own : firstMet key (met ++ item :: rest) item = firstMet key (met ++ [item]) item := by
        rw [List.append_cons]
        exact firstMet_append_of_mem (List.mem_append_right _ List.mem_cons_self) rest
      obtain ⟨kept', remembered⟩ := ih held
        (if test (compute (firstMet key (met ++ [item]) item)) then kept ++ [item] else kept)
      rw [List.foldl_cons, keepStep, value, List.append_cons met item rest]
      refine ⟨?_, remembered⟩
      rw [kept', List.filter_cons, ← List.append_cons met item rest, own]
      split
      · rw [List.append_assoc]
        rfl
      · rfl

/-- Where items of one key have one value, an item has the value remembered. -/
theorem compute_firstMet {item : α} (agree : ∀ other ∈ met, key other = key item →
    compute other = compute item) : compute (firstMet key met item) = compute item := by
  unfold firstMet
  cases found : met.find? fun other => key other = key item with
  | none => rfl
  | some other =>
      exact agree other (List.mem_of_find?_eq_some found)
        (of_decide_eq_true (List.find?_some found :))

end GraphIngest.Foundation.Memo
