import Mathlib.Data.List.Nodup

/-! # Insertion-ordered dictionaries

A dictionary keeps its entries in the order in which their keys first arrived:
overwriting a key keeps its place. Keys are distinct by construction. The
lemmas say what a lookup returns after each operation, and what a loop that
fills a dictionary (first writer wins, last writer wins, or collecting) leaves
in it.
-/

namespace GraphIngest.Foundation

/-- A finite map in insertion order, each key once. -/
structure Dict (κ ν : Type*) where
  entries : List (κ × ν)
  keys_nodup : (entries.map Prod.fst).Nodup

namespace Dict

variable {κ ν : Type*}

/-- The dictionary without entries. -/
def empty : Dict κ ν := ⟨[], List.nodup_nil⟩

/-- The keys in insertion order. -/
def keys (dict : Dict κ ν) : List κ := dict.entries.map Prod.fst

/-- The values in insertion order of their keys. -/
def values (dict : Dict κ ν) : List ν := dict.entries.map Prod.snd

variable [DecidableEq κ]

/-- Overwrite a key in place, or append it. -/
def setEntries (key : κ) (value : ν) : List (κ × ν) → List (κ × ν)
  | [] => [(key, value)]
  | entry :: rest =>
      if entry.1 = key then (key, value) :: rest else entry :: setEntries key value rest

/-- Overwriting keeps the keys, and a new key comes last. -/
theorem map_fst_setEntries (key : κ) (value : ν) (entries : List (κ × ν)) :
    (setEntries key value entries).map Prod.fst =
      if key ∈ entries.map Prod.fst then entries.map Prod.fst
      else entries.map Prod.fst ++ [key] := by
  induction entries with
  | nil => simp only [setEntries, List.map_cons, List.map_nil, List.not_mem_nil, ↓reduceIte,
      List.nil_append]
  | cons entry rest ih =>
      by_cases same : entry.1 = key
      · simp only [setEntries, same, ↓reduceIte, List.map_cons, List.mem_cons, true_or]
      · simp only [setEntries, same, ↓reduceIte, List.map_cons, ih, List.mem_cons, Ne.symm same,
          false_or]
        split <;> rfl

/-- A new key comes last. -/
theorem setEntries_of_absent {key : κ} {entries : List (κ × ν)}
    (absent : key ∉ entries.map Prod.fst) (value : ν) :
    setEntries key value entries = entries ++ [(key, value)] := by
  induction entries with
  | nil => rfl
  | cons entry rest ih =>
      rw [List.map_cons, List.mem_cons, not_or] at absent
      rw [setEntries, if_neg (Ne.symm absent.1), ih absent.2, List.cons_append]

/-- Bind a key to a value. -/
def set (dict : Dict κ ν) (key : κ) (value : ν) : Dict κ ν where
  entries := setEntries key value dict.entries
  keys_nodup := by
    rw [map_fst_setEntries]
    split
    · exact dict.keys_nodup
    · next absent =>
        exact List.nodup_append.mpr ⟨dict.keys_nodup, List.nodup_singleton _, by
          intro old member new single same
          rw [List.mem_singleton] at single
          exact absent (single ▸ same ▸ member)⟩

/-- The value bound to a key. -/
def get? (dict : Dict κ ν) (key : κ) : Option ν := dict.entries.lookup key

/-- The value bound to a key, a default when there is none. -/
def getD (dict : Dict κ ν) (key : κ) (default : ν) : ν := (dict.get? key).getD default

/-- Bind a key unless it is bound already. -/
def setdefault (dict : Dict κ ν) (key : κ) (value : ν) : Dict κ ν :=
  match dict.get? key with
  | some _ => dict
  | none => dict.set key value

/-- Append a value to the list bound to a key. -/
def append (dict : Dict κ (List ν)) (key : κ) (value : ν) : Dict κ (List ν) :=
  dict.set key (dict.getD key [] ++ [value])

@[simp] theorem get?_empty (key : κ) : (empty : Dict κ ν).get? key = none := rfl

/-- A lookup after binding a key. -/
@[simp] theorem get?_set (dict : Dict κ ν) (key other : κ) (value : ν) :
    (dict.set key value).get? other = if other = key then some value else dict.get? other := by
  change (setEntries key value dict.entries).lookup other = _
  unfold get?
  induction dict.entries with
  | nil =>
      by_cases same : other = key
      · simp only [setEntries, same, List.lookup_cons, BEq.rfl, ↓reduceIte]
      · simp only [setEntries, List.lookup_cons, List.lookup_nil, beq_false_of_ne same, same,
          ↓reduceIte]
  | cons entry rest ih =>
      obtain ⟨bound, held⟩ := entry
      by_cases here : bound = key
      · subst here
        by_cases same : other = bound
        · simp only [setEntries, ↓reduceIte, List.lookup_cons, same, BEq.rfl]
        · simp only [setEntries, ↓reduceIte, List.lookup_cons, beq_false_of_ne same, same]
      · simp only [setEntries, here, ↓reduceIte, List.lookup_cons]
        by_cases same : other = bound
        · have different : other ≠ key := fun equal => here (same ▸ equal)
          simp only [same, BEq.rfl, here, ↓reduceIte]
        · simp only [beq_false_of_ne same, ih]

theorem get?_set_self (dict : Dict κ ν) (key : κ) (value : ν) :
    (dict.set key value).get? key = some value := by
  rw [get?_set, if_pos rfl]

/-- A lookup after a first-writer binding. -/
@[simp] theorem get?_setdefault (dict : Dict κ ν) (key other : κ) (value : ν) :
    (dict.setdefault key value).get? other =
      if other = key then some ((dict.get? key).getD value) else dict.get? other := by
  unfold setdefault
  cases found : dict.get? key with
  | some held =>
      by_cases same : other = key
      · simp only [same, found, Option.getD_some, ↓reduceIte]
      · simp only [same, ↓reduceIte]
  | none => simp only [get?_set, Option.getD_none]

/-- A collected list after appending to one key. -/
@[simp] theorem getD_append (dict : Dict κ (List ν)) (key other : κ) (value : ν) :
    (dict.append key value).getD other [] =
      if other = key then dict.getD key [] ++ [value] else dict.getD other [] := by
  unfold append getD
  rw [get?_set]
  split <;> rfl

/-- An entry is what a lookup of its key returns. -/
theorem mem_entries_iff (dict : Dict κ ν) (key : κ) (value : ν) :
    (key, value) ∈ dict.entries ↔ dict.get? key = some value := by
  obtain ⟨entries, nodup⟩ := dict
  change (key, value) ∈ entries ↔ entries.lookup key = some value
  induction entries with
  | nil => simp only [List.not_mem_nil, List.lookup_nil, reduceCtorEq]
  | cons entry rest ih =>
      obtain ⟨bound, held⟩ := entry
      obtain ⟨fresh, restNodup⟩ := List.nodup_cons.mp nodup
      by_cases same : key = bound
      · subst same
        have absent : (key, value) ∉ rest := fun member =>
          fresh (List.mem_map.mpr ⟨(key, value), member, rfl⟩)
        simp only [List.mem_cons, Prod.mk.injEq, true_and, absent, or_false,
          List.lookup_cons, BEq.rfl, Option.some.injEq]
        exact eq_comm
      · simp only [List.mem_cons, Prod.mk.injEq, same, false_and, false_or,
          List.lookup_cons, beq_false_of_ne same]
        exact ih restNodup

/-- A collected value lies in the list of some entry. -/
theorem mem_getD_iff {dict : Dict κ (List ν)} {key : κ} {value : ν} :
    value ∈ dict.getD key [] ↔ ∃ values, (key, values) ∈ dict.entries ∧ value ∈ values := by
  unfold getD
  simp only [mem_entries_iff]
  cases dict.get? key with
  | none => simp only [Option.getD_none, List.not_mem_nil, reduceCtorEq, false_and, exists_false]
  | some values => simp only [Option.getD_some, Option.some.injEq, exists_eq_left']

/-- A key is listed exactly when a lookup finds it. -/
theorem mem_keys_iff (dict : Dict κ ν) (key : κ) :
    key ∈ dict.keys ↔ ∃ value, dict.get? key = some value := by
  constructor
  · intro member
    obtain ⟨⟨bound, value⟩, present, rfl⟩ := List.mem_map.mp member
    exact ⟨value, (dict.mem_entries_iff _ _).mp present⟩
  · rintro ⟨value, found⟩
    exact List.mem_map.mpr ⟨(key, value), (dict.mem_entries_iff _ _).mpr found, rfl⟩

section Whole

variable (dict : Dict κ ν)

omit [DecidableEq κ] in
/-- Keep some entries. -/
def filter (keep : κ → ν → Bool) : Dict κ ν where
  entries := dict.entries.filter fun entry => keep entry.1 entry.2
  keys_nodup := dict.keys_nodup.sublist (List.filter_sublist.map _)

/-- Change every value in place. -/
def mapValues (change : κ → ν → ν) : Dict κ ν where
  entries := dict.entries.map fun entry => (entry.1, change entry.1 entry.2)
  keys_nodup := by
    rw [List.map_map]
    exact dict.keys_nodup

theorem get?_filter (keep : κ → ν → Bool) (key : κ) :
    (dict.filter keep).get? key = (dict.get? key).filter (keep key) := by
  refine Option.ext fun value => ?_
  rw [Option.filter_eq_some_iff, ← mem_entries_iff, ← mem_entries_iff]
  exact List.mem_filter

theorem get?_mapValues (change : κ → ν → ν) (key : κ) :
    (dict.mapValues change).get? key = (dict.get? key).map (change key) := by
  refine Option.ext fun value => ?_
  rw [Option.map_eq_some_iff, ← mem_entries_iff]
  constructor
  · intro listed
    obtain ⟨⟨found, old⟩, present, same⟩ := List.mem_map.mp listed
    obtain ⟨rfl, rfl⟩ := Prod.mk.inj same
    exact ⟨old, (dict.mem_entries_iff _ _).mp present, rfl⟩
  · rintro ⟨old, found, rfl⟩
    exact List.mem_map.mpr ⟨(key, old), (dict.mem_entries_iff _ _).mpr found, rfl⟩

end Whole

section Loops

variable {α : Type*} (test : α → Bool) (key : α → κ) (value : α → ν)

/-- A loop that binds each key once keeps the first writer of each key. -/
theorem get?_foldl_setdefault (items : List α) (dict : Dict κ ν) (wanted : κ) :
    (items.foldl (fun dict item => if test item then dict.setdefault (key item) (value item)
      else dict) dict).get? wanted =
      (dict.get? wanted).or
        ((items.find? fun item => test item && decide (key item = wanted)).map value) := by
  induction items generalizing dict with
  | nil => simp only [List.foldl_nil, List.find?_nil, Option.map_none, Option.or_none]
  | cons item rest ih =>
      simp only [List.foldl_cons]
      rw [ih]
      cases tested : test item with
      | false => simp only [Bool.false_eq_true, ↓reduceIte, List.find?_cons, tested, Bool.false_and]
      | true =>
          by_cases same : key item = wanted
          · subst same
            cases held : dict.get? (key item) <;>
              simp only [↓reduceIte, get?_setdefault, held, Option.getD_some, Option.getD_none,
                Option.some_or, Option.none_or, List.find?_cons, tested, Bool.true_and,
                decide_true, Option.map_some]
          · simp only [↓reduceIte, get?_setdefault, Ne.symm same, List.find?_cons, tested,
              Bool.true_and, same, decide_false]

/-- A loop that overwrites keeps the last writer of each key. -/
theorem get?_foldl_set (items : List α) (dict : Dict κ ν) (wanted : κ) :
    (items.foldl (fun dict item => if test item then dict.set (key item) (value item)
      else dict) dict).get? wanted =
      (((items.reverse.find? fun item => test item && decide (key item = wanted)).map value).or
        (dict.get? wanted)) := by
  induction items generalizing dict with
  | nil => simp only [List.foldl_nil, List.reverse_nil, List.find?_nil, Option.map_none,
      Option.none_or]
  | cons item rest ih =>
      simp only [List.foldl_cons, List.reverse_cons, List.find?_append]
      rw [ih]
      cases found : rest.reverse.find? fun item => test item && decide (key item = wanted) with
      | some last => simp only [Option.map_some, Option.some_or]
      | none =>
          cases tested : test item with
          | false => simp only [Option.map_none, Option.none_or, Bool.false_eq_true, ↓reduceIte,
              List.find?_cons, tested, Bool.false_and, List.find?_nil]
          | true =>
              by_cases same : key item = wanted
              · subst same
                simp only [Option.map_none, Option.none_or, ↓reduceIte, get?_set, List.find?_cons,
                  tested, Bool.true_and, decide_true, Option.map_some, Option.some_or]
              · simp only [Option.map_none, Option.none_or, ↓reduceIte, get?_set, Ne.symm same,
                  List.find?_cons, tested, Bool.true_and, same, decide_false, List.find?_nil]

/-- A collecting loop gathers, in order, the values of the items with a key. -/
theorem getD_foldl_append (items : List α) (dict : Dict κ (List ν)) (wanted : κ) :
    (items.foldl (fun dict item => if test item then dict.append (key item) (value item)
      else dict) dict).getD wanted [] =
      dict.getD wanted [] ++
        (items.filter fun item => test item && decide (key item = wanted)).map value := by
  induction items generalizing dict with
  | nil => simp only [List.foldl_nil, List.filter_nil, List.map_nil, List.append_nil]
  | cons item rest ih =>
      simp only [List.foldl_cons]
      rw [ih]
      cases tested : test item with
      | false => simp only [Bool.false_eq_true, ↓reduceIte, List.filter_cons, tested,
          Bool.false_and]
      | true =>
          by_cases same : key item = wanted
          · subst same
            simp only [↓reduceIte, getD_append, List.append_assoc, List.filter_cons, tested,
              Bool.true_and, decide_true, List.map_cons, List.cons_append, List.nil_append]
          · simp only [↓reduceIte, getD_append, Ne.symm same, List.filter_cons, tested,
              Bool.true_and, same, decide_false, Bool.false_eq_true]

end Loops

end Dict

end GraphIngest.Foundation
