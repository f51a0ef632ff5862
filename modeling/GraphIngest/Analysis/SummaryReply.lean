import GraphIngest.Analysis.Contract
import GraphIngest.Foundation.Dict
import Mathlib.Data.Char
import Mathlib.Data.List.Dedup
import Mathlib.Data.List.Lex

/-! # The reply of the summary pass

A model answers for a file with one summary a function, each in a flat shape. The reply is
checked against the functions that were asked about, and the summaries are put back into
the nested shape before they are looked at once more. What fails a check is sampled again;
nothing else may go wrong.
-/

namespace GraphIngest.Analysis

open Foundation

section Shape

/-- The members that a schema requires. -/
def requiredOf : Schema → List Str
  | .object required _ => required
  | _ => []

/-- `_FLATTEN`: the blocks of a summary, what their members begin with on the wire, and their
schemas. -/
def flattenedBlocks : List (Str × Str × Schema) :=
  [("contracts".toList, "contract_".toList, contractsSchema),
   ("db".toList, "db_".toList, dbSchema),
   ("source".toList, "src_".toList, sourceSchema),
   ("guards".toList, "guard_".toList, guardsSchema)]

/-- `_FLAT_TO_NESTED`: the block of a name on the wire, and its name there. -/
def flatToNested : List (Str × Str × Str) :=
  flattenedBlocks.flatMap fun block =>
    (requiredOf block.2.2).map fun sub => (block.2.1 ++ sub, block.1, sub)

/-- `_SIGNAL_BLOCKS`. -/
def signalBlocks : List Str := ["source", "guards", "db", "contracts"]

end Shape

section Faults

/-- What a reply is refused for. -/
inductive ContractFault
  | notAnObject (found : Json)
  | missingSummaries
  | entryNotAnObject
  | unknownId (found : Json) (requested : Nat)
  | duplicate (id : Str)
  | missing (count : Nat) (first : List Str)
  | blockOmitted (block : Str) (count : Nat)

/-- What checking a reply raises: the error that it is refused with, or an error of the
operations themselves. -/
inductive ReplyFault
  | validation (fault : ContractFault)
  | typeError

/-- The name of the type of a value. -/
def typeName : Json → Str
  | .null => "NoneType"
  | .bool _ => "bool"
  | .int _ => "int"
  | .real _ => "float"
  | .string _ => "str"
  | .array _ => "list"
  | .object _ => "dict"

/-- The text of a refusal; values are shown by `repr`. -/
def ContractFault.message (pyRepr : Json → Str) : ContractFault → Str
  | notAnObject found => "expected an object, got ".toList ++ typeName found
  | missingSummaries => "missing 'summaries' array"
  | entryNotAnObject => "summary entry is not an object"
  | unknownId found requested =>
      "unknown function id ".toList ++ pyRepr found ++ " — not one of the ".toList ++
        (toString requested).toList ++ " requested".toList
  | duplicate id => "duplicate summary for ".toList ++ pyRepr (.string id)
  | missing count first =>
      (toString count).toList ++ " requested function(s) missing from the response: [".toList ++
        ", ".toList.intercalate (first.map fun id => pyRepr (.string id)) ++ "]".toList
  | blockOmitted block count =>
      "every summary omits the ".toList ++ pyRepr (.string block) ++
        " block — the response is not following the schema. Left unchecked this stores ".toList ++
        (toString count).toList ++ " all-default summaries that read as 'nothing found'.".toList

end Faults

section Validation

/-- The members of an object as a dictionary; a name stands in it once. -/
def dictOf (members : List (Str × Json)) : Dict Str Json :=
  members.foldl (fun dict field => dict.setdefault field.1 field.2) .empty

/-- Whether a value can be looked for in a set. -/
def hashable : Json → Bool
  | .array _ => false
  | .object _ => false
  | _ => true

/-- The id of a summary that was asked for and has not been seen. -/
def checkId (expected seen : List Str) : Json → Except ReplyFault Str
  | .object members =>
      match (members.lookup "id".toList).getD .null with
      | .string id =>
          if id ∉ expected then
            .error (.validation (.unknownId (.string id) expected.length))
          else if id ∈ seen then .error (.validation (.duplicate id))
          else .ok id
      | found =>
          if hashable found then .error (.validation (.unknownId found expected.length))
          else .error .typeError
  | _ => .error (.validation .entryNotAnObject)

/-- The check of the ids, one summary after another; what has been seen comes back. -/
def checkIds (expected : List Str) : List Str → List Json → Except ReplyFault (List Str)
  | seen, [] => .ok seen
  | seen, row :: rest =>
      match checkId expected seen row with
      | .error fault => .error fault
      | .ok id => checkIds expected (seen ++ [id]) rest

/-- One member of a flat summary; only an object takes a member. -/
def nestMember (out : Dict Str Json) (field : Str × Json) : Except ReplyFault (Dict Str Json) :=
  match flatToNested.lookup field.1 with
  | none => .ok (out.set field.1 field.2)
  | some (block, sub) =>
      match (out.get? block).getD (.object []) with
      | .object members => .ok (out.set block (.object (Dict.setEntries sub field.2 members)))
      | _ => .error .typeError

/-- `nest`; what is no object does not come this far. -/
def nest : Json → Except ReplyFault Json
  | .object members =>
      ((dictOf members).entries.foldlM nestMember .empty).map fun out => .object out.entries
  | _ => .error .typeError

/-- Whether a value is an object. -/
def isObject : Json → Bool
  | .object _ => true
  | _ => false

/-- `_check_blocks`. -/
def checkBlocks (rows : List Json) : Except ReplyFault Unit :=
  if rows.isEmpty then .ok ()
  else
    match signalBlocks.find? fun block =>
      rows.all fun row => !((row.get? block).map isObject).getD false with
    | some block => .error (.validation (.blockOmitted block rows.length))
    | none => .ok ()

/-- `validate`. -/
def validate (payload : Json) (expectedIds : List Str) : Except ReplyFault (List Json) :=
  match payload with
  | .object members =>
      match members.lookup "summaries".toList with
      | some (.array rows) => do
          let expected := expectedIds.dedup
          let seen ← checkIds expected [] rows
          let missing := expected.filter fun id => id ∉ seen
          if missing ≠ [] then
            .error (.validation (.missing missing.length
              ((missing.insertionSort fun id other => id ≤ other).take 5)))
          else
            let nested ← rows.mapM nest
            checkBlocks nested
            pure nested
      | _ => .error (.validation .missingSummaries)
  | found => .error (.validation (.notAnObject found))

end Validation

section Ids

/-- The id of a summary. -/
def idOf (row : Json) : Option Json := row.get? "id".toList

variable {expected seen ids : List Str} {rows : List Json}

/-- An id is accepted where it is expected and not seen before. -/
theorem checkId_eq_ok {row : Json} {id : Str} :
    checkId expected seen row = .ok id ↔
      idOf row = some (.string id) ∧ id ∈ expected ∧ id ∉ seen := by
  cases row with
  | object members =>
      unfold checkId
      dsimp only [idOf, Json.get?]
      cases members.lookup "id".toList with
      | none => simp only [Option.getD_none, hashable, ↓reduceIte, reduceCtorEq, false_and]
      | some found =>
          rw [Option.getD_some]
          cases found with
          | string text =>
              dsimp only
              by_cases asked : text ∈ expected
              · by_cases known : text ∈ seen
                · rw [if_neg (not_not.mpr asked), if_pos known]
                  simp only [reduceCtorEq, Option.some.injEq, Json.string.injEq, false_iff, not_and,
                    not_not]
                  intro same _
                  rwa [← same]
                · rw [if_neg (not_not.mpr asked), if_neg known]
                  simp only [Except.ok.injEq, Option.some.injEq, Json.string.injEq]
                  constructor
                  · intro same
                    exact ⟨same, same ▸ asked, same ▸ known⟩
                  · exact And.left
              · rw [if_pos asked]
                simp only [reduceCtorEq, Option.some.injEq, Json.string.injEq, false_iff, not_and]
                intro same listed
                exact (asked (same ▸ listed)).elim
          | _ => simp only [hashable, ↓reduceIte, Bool.false_eq_true, reduceCtorEq,
              Option.some.injEq, false_and]
  | _ => simp only [checkId, idOf, Json.get?, reduceCtorEq, false_and]

/-- The only error besides a refusal comes from an id that cannot be looked for. -/
theorem checkId_eq_typeError {row : Json} :
    checkId expected seen row = .error .typeError ↔
      ∃ found, idOf row = some found ∧ hashable found = false := by
  cases row with
  | object members =>
      unfold checkId
      dsimp only [idOf, Json.get?]
      cases members.lookup "id".toList with
      | none => simp only [Option.getD_none, hashable, ↓reduceIte, reduceCtorEq, false_and,
          exists_false, Except.error.injEq]
      | some found =>
          rw [Option.getD_some]
          cases found with
          | string text =>
              dsimp only
              split
              · simp [hashable]
              · split <;> simp [hashable]
          | _ => simp [hashable]
  | _ => simp only [checkId, idOf, Json.get?, reduceCtorEq, false_and, exists_false,
      Except.error.injEq]

/-- Summaries with these ids, each of them asked for and each for the first time. -/
structure Passes (expected seen ids : List Str) (rows : List Json) : Prop where
  read : rows.map idOf = ids.map fun id => some (.string id)
  distinct : ids.Nodup
  asked : ∀ id ∈ ids, id ∈ expected ∧ id ∉ seen

/-- Rows pass where the first has an acceptable id and the rest pass behind it. -/
theorem passes_cons {row : Json} :
    Passes expected seen ids (row :: rows) ↔ ∃ id more, ids = id :: more ∧
      checkId expected seen row = .ok id ∧ Passes expected (seen ++ [id]) more rows := by
  constructor
  · intro passes
    cases ids with
    | nil => cases passes.read
    | cons id more =>
        obtain ⟨first, later⟩ := List.cons.inj passes.read
        obtain ⟨fresh, distinct⟩ := List.nodup_cons.mp passes.distinct
        obtain ⟨wanted, others⟩ := List.forall_mem_cons.mp passes.asked
        refine ⟨id, more, rfl, checkId_eq_ok.mpr ⟨first, wanted⟩, later, distinct, ?_⟩
        intro other member
        refine ⟨(others other member).1, ?_⟩
        rw [List.mem_append, List.mem_singleton, not_or]
        exact ⟨(others other member).2, fun same => fresh (same ▸ member)⟩
  · intro split
    obtain ⟨id, more, rfl, first, passes⟩ := split
    obtain ⟨read, wanted⟩ := checkId_eq_ok.mp first
    refine ⟨?_, ?_, ?_⟩
    · rw [List.map_cons, List.map_cons, read, passes.read]
    · rw [List.nodup_cons]
      refine ⟨fun member => (passes.asked id member).2 ?_, passes.distinct⟩
      exact List.mem_append_right _ List.mem_cons_self
    · rw [List.forall_mem_cons]
      refine ⟨wanted, fun other member => ⟨(passes.asked other member).1, fun known => ?_⟩⟩
      exact (passes.asked other member).2 (List.mem_append_left _ known)

theorem passes_nil : Passes expected seen ids [] ↔ ids = [] := by
  constructor
  · intro passes
    exact List.map_eq_nil_iff.mp passes.read.symm
  · intro none
    subst none
    exact ⟨rfl, List.nodup_nil, fun _ member => (List.not_mem_nil member).elim⟩

/-- The check passes summaries with distinct ids that were asked for. -/
theorem checkIds_eq_ok {after : List Str} :
    checkIds expected seen rows = .ok after ↔
      ∃ ids, Passes expected seen ids rows ∧ after = seen ++ ids := by
  induction rows generalizing seen with
  | nil =>
      simp only [checkIds, passes_nil, exists_eq_left, List.append_nil, Except.ok.injEq]
      exact eq_comm
  | cons row rest ih =>
      rw [checkIds]
      cases checked : checkId expected seen row with
      | error fault =>
          simp only [passes_cons, checked, reduceCtorEq, false_and, and_false, exists_false]
      | ok id =>
          dsimp only
          rw [ih]
          simp only [passes_cons, checked, Except.ok.injEq]
          constructor
          · intro later
            obtain ⟨more, passes, rfl⟩ := later
            exact ⟨id :: more, ⟨id, more, rfl, rfl, passes⟩, List.append_assoc seen [id] more⟩
          · intro whole
            obtain ⟨_, ⟨_, more, rfl, rfl, passes⟩, rfl⟩ := whole
            exact ⟨more, passes, (List.append_assoc seen [id] more).symm⟩

/-- It raises anything but a refusal exactly when it comes to an id that cannot be looked for. -/
theorem checkIds_eq_typeError :
    checkIds expected seen rows = .error .typeError ↔
      ∃ front row back, rows = front ++ row :: back ∧ (∃ ids, Passes expected seen ids front) ∧
        ∃ found, idOf row = some found ∧ hashable found = false := by
  induction rows generalizing seen with
  | nil =>
      simp only [checkIds, reduceCtorEq, List.nil_eq_append_iff, and_false, false_and, exists_false]
  | cons row rest ih =>
      rw [checkIds]
      constructor
      · intro raised
        cases checked : checkId expected seen row with
        | error fault =>
            rw [checked] at raised
            cases raised
            exact ⟨[], row, rest, rfl, ⟨[], passes_nil.mpr rfl⟩, checkId_eq_typeError.mp checked⟩
        | ok id =>
            rw [checked] at raised
            obtain ⟨front, other, back, rfl, ⟨ids, passes⟩, stuck⟩ := ih.mp raised
            exact ⟨row :: front, other, back, rfl,
              ⟨id :: ids, passes_cons.mpr ⟨id, ids, rfl, checked, passes⟩⟩, stuck⟩
      · intro split
        obtain ⟨front, other, back, same, ⟨ids, passes⟩, stuck⟩ := split
        cases front with
        | nil =>
            obtain ⟨rfl, rfl⟩ := List.cons.inj same
            rw [checkId_eq_typeError.mpr stuck]
        | cons first more =>
            obtain ⟨rfl, rfl⟩ := List.cons.inj same
            obtain ⟨id, others, rfl, checked, later⟩ := passes_cons.mp passes
            rw [checked]
            exact ih.mpr ⟨more, other, back, rfl, ⟨others, later⟩, stuck⟩

end Ids

section Nesting

/-- A block that stands in a row with a value that is no object, in front of one of the block's
names on the wire. -/
def Clashes (row : Json) : Prop :=
  ∃ members block held name sub value, row = .object members ∧
    flatToNested.lookup name = some (block, sub) ∧ isObject held = false ∧
      [(block, held), (name, value)].Sublist (dictOf members).entries

/-- What stands under a name so far is a value that is no object. -/
def Blocked (out : Dict Str Json) (block : Str) : Prop :=
  ∃ held, out.get? block = some held ∧ isObject held = false

/-- A name on the wire belongs to a signal block, and is neither the name of one nor the id. -/
theorem flatToNested_spec {name block sub : Str}
    (flat : flatToNested.lookup name = some (block, sub)) :
    block ∈ signalBlocks ∧ name ∉ signalBlocks ∧ name ≠ "id".toList := by
  obtain ⟨front, back, split, _⟩ := List.lookup_eq_some_iff.mp flat
  have listed : (name, block, sub) ∈ flatToNested := by
    rw [split]
    exact List.mem_append_right _ List.mem_cons_self
  have all : ∀ entry ∈ flatToNested, entry.2.1 ∈ signalBlocks ∧ entry.1 ∉ signalBlocks ∧
      entry.1 ≠ "id".toList := by decide +kernel
  exact all _ listed

/-- A member whose block is blocked cannot be put in its place. -/
theorem nestMember_of_blocked {out : Dict Str Json} {field : Str × Json} {block sub : Str}
    (flat : flatToNested.lookup field.1 = some (block, sub)) (blocked : Blocked out block) :
    nestMember out field = .error .typeError := by
  obtain ⟨held, found, other⟩ := blocked
  rw [nestMember, flat]
  dsimp only
  rw [found, Option.getD_some]
  cases held with
  | object members => cases other
  | _ => rfl

/-- Any other member on the wire leaves an object under the name of its block. -/
theorem nestMember_of_free {out : Dict Str Json} {field : Str × Json} {block sub : Str}
    (flat : flatToNested.lookup field.1 = some (block, sub)) (free : ¬ Blocked out block) :
    ∃ members, nestMember out field = .ok (out.set block (.object members)) := by
  rw [nestMember, flat]
  dsimp only
  cases found : out.get? block with
  | none => exact ⟨_, rfl⟩
  | some held =>
      rw [Option.getD_some]
      cases held with
      | object members => exact ⟨_, rfl⟩
      | _ => exact (free ⟨_, found, rfl⟩).elim

/-- What blocks a name behind the members in front. -/
def BlockedBy (front : List (Str × Json)) (block : Str) : Prop :=
  ∃ held, (block, held) ∈ front ∧ isObject held = false

/-- A field is refused exactly where its block is blocked by a value that is no object. -/
theorem nestMember_cases (out : Dict Str Json) (field : Str × Json) :
    (nestMember out field = .error .typeError ∧
      ∃ block sub, flatToNested.lookup field.1 = some (block, sub) ∧ Blocked out block) ∨
    (∃ next, nestMember out field = .ok next) ∧
      ∀ block sub, flatToNested.lookup field.1 = some (block, sub) → ¬ Blocked out block := by
  cases flat : flatToNested.lookup field.1 with
  | none =>
      refine .inr ⟨⟨out.set field.1 field.2, ?_⟩, fun block sub found => by cases found⟩
      rw [nestMember, flat]
  | some target =>
      obtain ⟨block, sub⟩ := target
      by_cases blocked : Blocked out block
      · exact .inl ⟨nestMember_of_blocked flat blocked, block, sub, rfl, blocked⟩
      · obtain ⟨members, placed⟩ := nestMember_of_free flat blocked
        refine .inr ⟨⟨_, placed⟩, fun other _ found => ?_⟩
        cases found
        exact blocked

/-- One more field blocks its own block where its value is no object. -/
theorem blockedBy_append {front : List (Str × Json)} {field : Str × Json} {block : Str} :
    BlockedBy (front ++ [field]) block ↔
      BlockedBy front block ∨ field.1 = block ∧ isObject field.2 = false := by
  simp only [BlockedBy, List.mem_append, List.mem_singleton, or_and_right, exists_or]
  apply or_congr_right
  constructor
  · intro last
    obtain ⟨held, rfl, other⟩ := last
    exact ⟨rfl, other⟩
  · intro last
    exact ⟨field.2, by rw [← last.1], last.2⟩

/-- Setting a field blocks or frees its own block alone. -/
theorem blocked_set {out : Dict Str Json} {name block : Str} {value : Json} :
    Blocked (out.set name value) block ↔
      if block = name then isObject value = false else Blocked out block := by
  unfold Blocked
  rw [Dict.get?_set]
  split
  · simp only [Option.some.injEq, exists_eq_left']
  · rfl

/-- One member keeps track of what is blocked. -/
theorem tracked_nestMember {front : List (Str × Json)} {out next : Dict Str Json}
    {field : Str × Json} (fresh : field.1 ∉ front.map Prod.fst)
    (tracked : ∀ block ∈ signalBlocks, Blocked out block ↔ BlockedBy front block)
    (nested : nestMember out field = .ok next) :
    ∀ block ∈ signalBlocks, Blocked next block ↔ BlockedBy (front ++ [field]) block := by
  intro block listed
  rw [blockedBy_append]
  cases flat : flatToNested.lookup field.1 with
  | none =>
      rw [nestMember, flat] at nested
      cases nested
      rw [blocked_set]
      split
      case isTrue same =>
        subst same
        have clear : ¬ BlockedBy front field.1 := by
          intro blocked
          obtain ⟨held, member, _⟩ := blocked
          exact fresh (List.mem_map.mpr ⟨_, member, rfl⟩)
        rw [or_iff_right clear, and_iff_right rfl]
      case isFalse other =>
        rw [tracked block listed, or_iff_left fun last => other last.1.symm]
  | some target =>
      obtain ⟨owner, sub⟩ := target
      obtain ⟨signal, named, _⟩ := flatToNested_spec flat
      have other : field.1 ≠ block := fun same => named (same ▸ listed)
      have free : ¬ Blocked out owner := by
        intro blocked
        rw [nestMember_of_blocked flat blocked] at nested
        cases nested
      obtain ⟨members, placed⟩ := nestMember_of_free flat free
      rw [placed] at nested
      cases nested
      rw [blocked_set, or_iff_left fun last => other last.1]
      split
      case isTrue same =>
        subst same
        exact iff_of_false Bool.noConfusion (fun blocked => free ((tracked _ signal).mpr blocked))
      case isFalse => exact tracked block listed

/-- A nesting fails at the first name on the wire whose block is blocked. -/
theorem foldlM_nestMember_eq_error {front rest : List (Str × Json)} {out : Dict Str Json}
    (distinct : ((front ++ rest).map Prod.fst).Nodup)
    (tracked : ∀ block ∈ signalBlocks, Blocked out block ↔ BlockedBy front block) :
    rest.foldlM nestMember out = .error .typeError ↔
      ∃ mid field back block sub, rest = mid ++ field :: back ∧
        flatToNested.lookup field.1 = some (block, sub) ∧ BlockedBy (front ++ mid) block := by
  induction rest generalizing front out with
  | nil =>
      rw [List.foldlM_nil]
      constructor
      · intro raised
        cases raised
      · intro split
        obtain ⟨mid, _, _, _, _, same, _⟩ := split
        exact (List.append_ne_nil_of_right_ne_nil mid (List.cons_ne_nil _ _) same.symm).elim
  | cons field rest ih =>
      have fresh : field.1 ∉ front.map Prod.fst := by
        rw [List.map_append, List.map_cons] at distinct
        exact fun member => (List.nodup_append.mp distinct).2.2 _ member _ List.mem_cons_self rfl
      have moved : front ++ field :: rest = front ++ [field] ++ rest := by
        rw [List.append_assoc, List.singleton_append]
      rw [List.foldlM_cons]
      cases nestMember_cases out field with
      | inl stuck =>
          obtain ⟨raised, block, sub, flat, blocked⟩ := stuck
          have signal := (flatToNested_spec flat).1
          rw [raised]
          refine iff_of_true rfl ⟨[], field, rest, block, sub, rfl, flat, ?_⟩
          rw [List.append_nil]
          exact (tracked block signal).mp blocked
      | inr nested =>
          obtain ⟨⟨next, placed⟩, free⟩ := nested
          rw [moved] at distinct
          have later := ih distinct (tracked_nestMember fresh tracked placed)
          rw [placed]
          refine later.trans ?_
          constructor
          · intro split
            obtain ⟨mid, other, back, block, sub, rfl, flat, blocked⟩ := split
            refine ⟨field :: mid, other, back, block, sub, rfl, flat, ?_⟩
            rwa [List.append_assoc, List.singleton_append] at blocked
          · intro split
            obtain ⟨mid, other, back, block, sub, same, flat, blocked⟩ := split
            cases mid with
            | nil =>
                obtain ⟨rfl, rfl⟩ := List.cons.inj same
                rw [List.append_nil] at blocked
                exact (free block sub flat ((tracked block (flatToNested_spec flat).1).mpr
                  blocked)).elim
            | cons first more =>
                obtain ⟨rfl, rfl⟩ := List.cons.inj same
                refine ⟨more, other, back, block, sub, rfl, flat, ?_⟩
                rwa [List.append_assoc, List.singleton_append]

/-- Only a blocked block stops the nesting, with a `TypeError`. -/
theorem fault_of_foldlM {rest : List (Str × Json)} {out : Dict Str Json} {fault : ReplyFault}
    (raised : rest.foldlM nestMember out = .error fault) : fault = .typeError := by
  induction rest generalizing out with
  | nil => cases raised
  | cons field rest ih =>
      rw [List.foldlM_cons] at raised
      cases nestMember_cases out field with
      | inl stuck =>
          rw [stuck.1] at raised
          cases raised
          rfl
      | inr nested =>
          obtain ⟨next, placed⟩ := nested.1
          rw [placed] at raised
          exact ih raised

/-- A member that is put in its place leaves the id alone, or is the id. -/
theorem get?_id_nestMember {out next : Dict Str Json} {field : Str × Json}
    (nested : nestMember out field = .ok next) :
    next.get? "id".toList =
      if "id".toList = field.1 then some field.2 else out.get? "id".toList := by
  cases flat : flatToNested.lookup field.1 with
  | none =>
      rw [nestMember, flat] at nested
      cases nested
      exact Dict.get?_set _ _ _ _
  | some target =>
      obtain ⟨block, sub⟩ := target
      obtain ⟨signal, _, named⟩ := flatToNested_spec flat
      have free : ¬ Blocked out block := by
        intro blocked
        rw [nestMember_of_blocked flat blocked] at nested
        cases nested
      obtain ⟨members, placed⟩ := nestMember_of_free flat free
      rw [placed] at nested
      cases nested
      have apart : "id".toList ≠ block := by
        intro same
        have unsignalled : "id".toList ∉ signalBlocks := by decide
        rw [same] at unsignalled
        exact unsignalled signal
      rw [Dict.get?_set, if_neg apart, if_neg (Ne.symm named)]

/-- The id stays where it is. -/
theorem get?_id_foldlM {rest : List (Str × Json)} {out next : Dict Str Json}
    (distinct : (rest.map Prod.fst).Nodup) (nested : rest.foldlM nestMember out = .ok next) :
    next.get? "id".toList = (rest.lookup "id".toList).or (out.get? "id".toList) := by
  induction rest generalizing out with
  | nil =>
      cases nested
      rfl
  | cons field rest ih =>
      obtain ⟨fresh, distinct⟩ := List.nodup_cons.mp distinct
      rw [List.foldlM_cons] at nested
      cases nestMember_cases out field with
      | inl stuck =>
          rw [stuck.1] at nested
          cases nested
      | inr taken =>
          obtain ⟨middle, placed⟩ := taken.1
          rw [placed] at nested
          rw [ih distinct nested, get?_id_nestMember placed, List.lookup_cons]
          by_cases named : "id".toList = field.1
          · have absent : rest.lookup "id".toList = none := by
              apply List.lookup_eq_none_iff.mpr
              intro other member
              apply bne_iff_ne.mpr
              rw [named]
              intro same
              apply fresh
              rw [same]
              exact List.mem_map_of_mem member
            rw [absent, if_pos named, named, BEq.rfl]
            rfl
          · rw [if_neg named, beq_false_of_ne named]

/-- Two items stand in a list in this order where it can be cut in front of the second. -/
theorem pair_sublist_iff {α : Type*} {first second : α} {items : List α} :
    [first, second].Sublist items ↔
      ∃ front back, items = front ++ second :: back ∧ first ∈ front := by
  rw [List.cons_sublist_iff]
  constructor
  · intro split
    obtain ⟨before, behind, rfl, member, later⟩ := split
    obtain ⟨between, back, rfl⟩ := List.append_of_mem (List.singleton_sublist.mp later)
    refine ⟨before ++ between, back, (List.append_assoc _ _ _).symm, ?_⟩
    exact List.mem_append_left _ member
  · intro split
    obtain ⟨front, back, rfl, member⟩ := split
    exact ⟨front, second :: back, rfl, member, List.singleton_sublist.mpr List.mem_cons_self⟩

theorem lookup_dictOf (members : List (Str × Json)) (name : Str) :
    (dictOf members).entries.lookup name = members.lookup name := by
  have general (dict : Dict Str Json) :
      (members.foldl (fun dict field => dict.setdefault field.1 field.2) dict).get? name =
        (dict.get? name).or (members.lookup name) := by
    induction members generalizing dict with
    | nil => rw [List.foldl_nil, List.lookup_nil, Option.or_none]
    | cons field rest ih =>
        rw [List.foldl_cons, ih, Dict.get?_setdefault, List.lookup_cons]
        by_cases same : name = field.1
        · rw [if_pos same, same, BEq.rfl]
          cases dict.get? field.1 <;> rfl
        · rw [if_neg same, beq_false_of_ne same]
  have whole := general .empty
  rw [Dict.get?_empty, Option.none_or] at whole
  refine Eq.trans ?_ whole
  unfold Dict.get?
  congr 1
  exact lawful_beq_subsingleton _ _

/-- **Nesting.** It fails exactly where the value of a block that is no object stands in front of
one of the block's names on the wire; else the id of the summary stays. -/
theorem nest_object (members : List (Str × Json)) :
    (Clashes (.object members) ∧ nest (.object members) = .error .typeError) ∨
      ¬ Clashes (.object members) ∧
        ∃ nested, nest (.object members) = .ok nested ∧ idOf nested = idOf (.object members) := by
  have distinct := (dictOf members).keys_nodup
  have stuck := @foldlM_nestMember_eq_error [] (dictOf members).entries .empty distinct (by
    intro block _
    simp only [Blocked, Dict.get?_empty, reduceCtorEq, false_and, exists_false, BlockedBy,
      List.not_mem_nil])
  have clashes : Clashes (.object members) ↔
      (dictOf members).entries.foldlM nestMember .empty = .error .typeError := by
    rw [stuck]
    constructor
    · intro clash
      obtain ⟨_, block, held, name, sub, value, same, flat, other, order⟩ := clash
      cases same
      obtain ⟨front, back, split, member⟩ := pair_sublist_iff.mp order
      exact ⟨front, _, back, block, sub, split, flat, held, member, other⟩
    · intro split
      obtain ⟨front, field, back, block, sub, whole, flat, held, member, other⟩ := split
      refine ⟨members, block, held, field.1, sub, field.2, rfl, flat, other, ?_⟩
      exact pair_sublist_iff.mpr ⟨front, back, whole, member⟩
  have unfolded : nest (.object members) =
      ((dictOf members).entries.foldlM nestMember .empty).map fun out => .object out.entries := rfl
  rw [unfolded]
  cases nested : (dictOf members).entries.foldlM nestMember .empty with
  | error fault =>
      have only := fault_of_foldlM nested
      subst only
      exact .inl ⟨clashes.mpr nested, rfl⟩
  | ok out =>
      refine .inr ⟨fun clash => ?_, _, rfl, ?_⟩
      · rw [clashes.mp clash] at nested
        cases nested
      · have id := get?_id_foldlM distinct nested
        rw [lookup_dictOf, Dict.get?_empty, Option.or_none] at id
        refine Eq.trans ?_ id
        unfold Dict.get?
        dsimp only [idOf, Json.get?]
        congr 1
        exact lawful_beq_subsingleton _ _

/-- The summaries of a reply are put back one after another, until one of them fails. -/
theorem mapM_nest {rows : List Json} (objects : ∀ row ∈ rows, ∃ members, row = .object members) :
    ((∃ row ∈ rows, Clashes row) ∧ rows.mapM nest = .error .typeError) ∨
      (¬ ∃ row ∈ rows, Clashes row) ∧
        ∃ nested, rows.mapM nest = .ok nested ∧ nested.map idOf = rows.map idOf := by
  induction rows with
  | nil =>
      refine .inr ⟨fun clash => ?_, [], rfl, rfl⟩
      obtain ⟨_, member, _⟩ := clash
      exact List.not_mem_nil member
  | cons row rest ih =>
      obtain ⟨⟨members, rfl⟩, others⟩ := List.forall_mem_cons.mp objects
      rw [List.mapM_cons, List.exists_mem_cons_iff, List.map_cons]
      cases nest_object members with
      | inl failed =>
          rw [failed.2]
          exact .inl ⟨.inl failed.1, rfl⟩
      | inr placed =>
          obtain ⟨clear, first, nested, same⟩ := placed
          rw [nested, or_iff_right clear]
          cases ih others with
          | inl failed =>
              rw [failed.2]
              exact .inl ⟨failed.1, rfl⟩
          | inr placed =>
              obtain ⟨clear, later, nested, agree⟩ := placed
              rw [nested]
              refine .inr ⟨clear, first :: later, rfl, ?_⟩
              rw [List.map_cons, same, agree]

end Nesting

section Reply

variable {payload : Json} {expectedIds seen : List Str} {rows : List Json}

/-- The check of the blocks ends without a fault or with one of its own. -/
theorem checkBlocks_cases (rows : List Json) :
    checkBlocks rows = .ok () ∨ ∃ fault, checkBlocks rows = .error (.validation fault) := by
  unfold checkBlocks
  split
  · exact .inl rfl
  · split
    · exact .inr ⟨_, rfl⟩
    · exact .inl rfl

/-- A payload without a list of summaries is refused. -/
theorem validate_of_unread
    (unread : ∀ rows, payload.get? "summaries".toList ≠ some (.array rows)) :
    ∃ fault, validate payload expectedIds = .error (.validation fault) := by
  cases payload with
  | object members =>
      unfold validate
      dsimp only
      split
      case h_1 rows read => exact (unread rows read).elim
      case h_2 => exact ⟨_, rfl⟩
  | _ => exact ⟨_, rfl⟩

theorem validate_of_read (read : payload.get? "summaries".toList = some (.array rows)) :
    validate payload expectedIds = (checkIds expectedIds.dedup [] rows).bind fun seen =>
      let missing := expectedIds.dedup.filter fun id => id ∉ seen
      if missing ≠ [] then
        .error (.validation (.missing missing.length
          ((missing.insertionSort fun id other => id ≤ other).take 5)))
      else (rows.mapM nest).bind fun nested => (checkBlocks nested).map fun _ => nested := by
  cases payload with
  | object members =>
      dsimp only [Json.get?] at read
      unfold validate
      dsimp only
      rw [read]
      rfl
  | _ => cases read

/-- The ids of summaries that pass are those of the request. -/
theorem perm_of_passes {ids : List Str} (passes : Passes expectedIds.dedup [] ids rows)
    (whole : ∀ id ∈ expectedIds, id ∈ ids) :
    (rows.map idOf).Perm (expectedIds.dedup.map fun id => some (.string id)) := by
  rw [passes.read]
  apply List.Perm.map
  apply (List.perm_ext_iff_of_nodup passes.distinct (List.nodup_dedup _)).mpr
  intro id
  constructor
  · exact fun member => (passes.asked id member).1
  · exact fun member => whole id (List.mem_dedup.mp member)

/-- Summaries that pass are objects. -/
theorem objects_of_passes {ids : List Str} (passes : Passes expectedIds.dedup [] ids rows) :
    ∀ row ∈ rows, ∃ members, row = .object members := by
  intro row member
  have read : idOf row ∈ ids.map fun id => some (Json.string id) := by
    rw [← passes.read]
    exact List.mem_map_of_mem member
  obtain ⟨id, _, named⟩ := List.mem_map.mp read
  cases row with
  | object members => exact ⟨members, rfl⟩
  | _ => cases named

/-- What checking a reply promises: the summaries that come back are those that were asked for,
each of them once, and nothing else is raised but a refusal. -/
def Checked (payload : Json) (expectedIds : List Str) : Prop :=
  (∀ rows, validate payload expectedIds = .ok rows →
    (rows.map idOf).Perm (expectedIds.dedup.map fun id => some (.string id))) ∧
  ∀ raised, validate payload expectedIds = .error raised → ∃ fault, raised = .validation fault

/-- A refusal is a check. -/
theorem checked_of_refused {fault : ContractFault}
    (refused : validate payload expectedIds = .error (.validation fault)) :
    Checked payload expectedIds := by
  refine ⟨fun rows accepted => ?_, fun raised other => ⟨fault, ?_⟩⟩
  · rw [refused] at accepted
    cases accepted
  · rw [refused] at other
    exact (Except.error.inj other).symm

/-- A `TypeError` is no check. -/
theorem not_checked_of_typeError (raised : validate payload expectedIds = .error .typeError) :
    ¬ Checked payload expectedIds := by
  intro checked
  obtain ⟨fault, same⟩ := checked.2 _ raised
  cases same

/-- What is accepted with each expected id once is checked. -/
theorem checked_of_accepted (accepted : validate payload expectedIds = .ok rows)
    (same : (rows.map idOf).Perm (expectedIds.dedup.map fun id => some (.string id))) :
    Checked payload expectedIds := by
  refine ⟨fun others again => ?_, fun raised other => ?_⟩
  · rw [accepted] at again
    cases again
    exact same
  · rw [accepted] at other
    cases other

/-- A reply with an id that is no word behind summaries that pass, or with all that was asked for
and a block in two spellings, the first of them no object. -/
def Trips (payload : Json) (expectedIds : List Str) : Prop :=
  ∃ rows, payload.get? "summaries".toList = some (.array rows) ∧
    ((∃ front row back, rows = front ++ row :: back ∧
        (∃ ids, Passes expectedIds.dedup [] ids front) ∧
          ∃ found, idOf row = some found ∧ hashable found = false) ∨
      ∃ ids, Passes expectedIds.dedup [] ids rows ∧ (∀ id ∈ expectedIds, id ∈ ids) ∧
        ∃ row ∈ rows, Clashes row)

/-- Where the ids are refused, nothing else is raised, and nothing trips. -/
theorem not_trips_of_refused {fault : ContractFault}
    (read : payload.get? "summaries".toList = some (.array rows))
    (refused : checkIds expectedIds.dedup [] rows = .error (.validation fault)) :
    ¬ Trips payload expectedIds := by
  intro trips
  obtain ⟨others, again, reason⟩ := trips
  rw [read] at again
  cases again
  cases reason with
  | inl unhashable =>
      rw [checkIds_eq_typeError.mpr unhashable] at refused
      cases refused
  | inr clash =>
      obtain ⟨ids, passes, _⟩ := clash
      rw [checkIds_eq_ok.mpr ⟨ids, passes, rfl⟩] at refused
      cases refused

/-- Where the ids pass, only a block in two spellings trips. -/
theorem trips_of_passes {ids : List Str}
    (read : payload.get? "summaries".toList = some (.array rows))
    (passes : Passes expectedIds.dedup [] ids rows) :
    Trips payload expectedIds ↔ (∀ id ∈ expectedIds, id ∈ ids) ∧ ∃ row ∈ rows, Clashes row := by
  have checked := checkIds_eq_ok.mpr ⟨ids, passes, rfl⟩
  constructor
  · intro trips
    obtain ⟨others, again, reason⟩ := trips
    rw [read] at again
    cases again
    cases reason with
    | inl unhashable =>
        rw [checkIds_eq_typeError.mpr unhashable] at checked
        cases checked
    | inr clash =>
        obtain ⟨same, others, later⟩ := clash
        rw [checkIds_eq_ok.mpr ⟨same, others, rfl⟩] at checked
        cases checked
        exact later
  · intro clash
    exact ⟨rows, read, .inr ⟨ids, passes, clash⟩⟩

/-- The check of a reply whose ids pass. -/
theorem validate_of_passes {ids : List Str}
    (read : payload.get? "summaries".toList = some (.array rows))
    (passes : Passes expectedIds.dedup [] ids rows) :
    (¬ (∀ id ∈ expectedIds, id ∈ ids) ∧
      ∃ fault, validate payload expectedIds = .error (.validation fault)) ∨
    (∀ id ∈ expectedIds, id ∈ ids) ∧ validate payload expectedIds =
      (rows.mapM nest).bind fun nested => (checkBlocks nested).map fun _ => nested := by
  have checked := checkIds_eq_ok.mpr ⟨ids, passes, rfl⟩
  rw [List.nil_append] at checked
  have unfolded := @validate_of_read payload expectedIds rows read
  rw [checked] at unfolded
  dsimp only [Except.bind] at unfolded
  by_cases whole : ∀ id ∈ expectedIds, id ∈ ids
  · refine .inr ⟨whole, ?_⟩
    have none : expectedIds.dedup.filter (fun id => id ∉ ids) = [] := by
      rw [List.filter_eq_nil_iff]
      intro id member absent
      exact of_decide_eq_true absent (whole id (List.mem_dedup.mp member))
    rwa [none, if_neg (not_not.mpr rfl)] at unfolded
  · refine .inl ⟨whole, ?_⟩
    have some : expectedIds.dedup.filter (fun id => id ∉ ids) ≠ [] := by
      intro none
      rw [List.filter_eq_nil_iff] at none
      apply whole
      intro id member
      exact not_not.mp fun absent => none id (List.mem_dedup.mpr member) (decide_eq_true absent)
    rw [if_pos some] at unfolded
    exact ⟨_, unfolded⟩

/-- **Replies.** Checking a reply keeps its promise exactly for the replies that do not trip it. -/
theorem checked_iff (payload : Json) (expectedIds : List Str) :
    Checked payload expectedIds ↔ ¬ Trips payload expectedIds := by
  by_cases shaped : ∃ rows, payload.get? "summaries".toList = some (.array rows)
  case neg =>
    obtain ⟨fault, refused⟩ := @validate_of_unread payload expectedIds
      fun rows read => shaped ⟨rows, read⟩
    have clear : ¬ Trips payload expectedIds := by
      intro trips
      obtain ⟨rows, read, _⟩ := trips
      exact shaped ⟨rows, read⟩
    exact iff_of_true (checked_of_refused refused) clear
  obtain ⟨rows, read⟩ := shaped
  cases checked : checkIds expectedIds.dedup [] rows with
  | error raised =>
      have unfolded := @validate_of_read payload expectedIds rows read
      rw [checked] at unfolded
      cases raised with
      | typeError =>
          have trips : Trips payload expectedIds :=
            ⟨rows, read, .inl (checkIds_eq_typeError.mp checked)⟩
          exact iff_of_false (not_checked_of_typeError unfolded) (not_not.mpr trips)
      | validation fault =>
          exact iff_of_true (checked_of_refused unfolded) (not_trips_of_refused read checked)
  | ok seen =>
      obtain ⟨ids, passes, rfl⟩ := checkIds_eq_ok.mp checked
      rw [trips_of_passes read passes]
      cases validate_of_passes read passes with
      | inl short =>
          obtain ⟨fault, refused⟩ := short.2
          exact iff_of_true (checked_of_refused refused) fun trips => short.1 trips.1
      | inr whole =>
          obtain ⟨whole, unfolded⟩ := whole
          cases mapM_nest (objects_of_passes passes) with
          | inl failed =>
              rw [failed.2] at unfolded
              exact iff_of_false (not_checked_of_typeError unfolded)
                (not_not.mpr ⟨whole, failed.1⟩)
          | inr placed =>
              obtain ⟨clear, nested, succeeded, same⟩ := placed
              refine iff_of_true ?_ fun trips => clear trips.2
              rw [succeeded] at unfolded
              cases checkBlocks_cases nested with
              | inl sound =>
                  rw [Except.bind, sound] at unfolded
                  exact checked_of_accepted unfolded (same ▸ perm_of_passes passes whole)
              | inr refused =>
                  obtain ⟨fault, refused⟩ := refused
                  rw [Except.bind, refused] at unfolded
                  exact checked_of_refused unfolded

/-- A list for an id, and a block that is null in front of one of its names on the wire. -/
theorem replies_trip :
    ¬ Checked (.object [("summaries".toList, .array [.object [("id".toList, .array [])]])]) ["a"] ∧
      ¬ Checked (.object [("summaries".toList, .array [.object [("id".toList, .string "a"),
          ("db".toList, .null), ("db_acquires".toList, .bool true)]])]) ["a"] := by
  constructor
  · apply not_checked_of_typeError
    rfl
  · apply not_checked_of_typeError
    rfl

end Reply

end GraphIngest.Analysis
