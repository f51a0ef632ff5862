import GraphIngest.Analysis.Rendering
import GraphIngest.Foundation.Fallible

/-! # Summaries that can be put into text

A stored summary may have values of other kinds in the places that a frame of a path, or a
function in a neighbourhood, is put into text from. Which summaries give a text is read off those
places.
-/

namespace GraphIngest.Analysis

open Foundation Graph

section Joins

theorem runs_textItem {value : Json} : Runs (textItem value) ↔ isText value = true := by
  cases value with
  | string text => exact iff_of_true (runs_ok text) rfl
  | _ => exact iff_of_false (not_runs_error _) Bool.noConfusion

/-- Values are joined when all of them are words. -/
theorem runs_joinTexts {sep : Str} {values : List Json} :
    Runs (joinTexts sep values) ↔ ∀ value ∈ values, isText value = true := by
  refine runs_map.trans ?_
  simp only [runs_mapM, runs_textItem]

/-- The values of a member besides `none`, where it can be gone through. -/
def valuesIn (found : Option Json) : List Json :=
  (itemsIn (orElse found (.array []))).filter fun value => !isWord "none" value

/-- Values are found where what stands there can be gone through. -/
theorem valuesBut_eq_ok {found : Option Json} {values : List Json} :
    valuesBut found = .ok values ↔
      iterable (orElse found (.array [])) = true ∧ valuesIn found = values := by
  refine map_eq_ok.trans ?_
  simp only [iterate_eq_ok, and_assoc, exists_and_left, exists_eq_left', valuesIn]

/-- A list of flags is rendered where all of them are texts. -/
theorem runs_listFlag {name : Str} {values : List Json} :
    Runs (listFlag name values) ↔ ∀ value ∈ values, isText value = true := by
  unfold listFlag
  cases values with
  | nil => exact iff_of_true (runs_ok _) fun _ member => (List.not_mem_nil member).elim
  | cons value rest => exact runs_map.trans runs_joinTexts

/-- A member of words, `none` apart. -/
def Listed (found : Option Json) : Prop :=
  iterable (orElse found (.array [])) = true ∧ ∀ value ∈ valuesIn found, isText value = true

/-- Whether the first four values can be joined. -/
def fourWords : Json → Bool
  | .array items => (items.take 4).all isText
  | .string _ => true
  | _ => false

/-- The first four of a list are rendered where its first four are texts. -/
theorem runs_firstFour {value : Json} :
    (∃ items, firstFour value = .ok items ∧ ∀ item ∈ items, isText item = true) ↔
      fourWords value = true := by
  cases value with
  | array items =>
      simp only [firstFour, Except.ok.injEq, exists_eq_left', fourWords, List.all_eq_true]
  | string text =>
      refine iff_of_true ⟨_, rfl, fun item member => ?_⟩ rfl
      obtain ⟨letter, _, rfl⟩ := List.mem_map.mp member
      rfl
  | _ => simp only [firstFour, reduceCtorEq, false_and, exists_false, fourWords, Bool.false_eq_true]

end Joins

section Frames

variable {pyStr : Json → Str} {known : Dict Str (List Str)} {bodies : NodeId → Str}

/-- A parameter whose targets are words. -/
def ParamShaped (param : Json) : Prop :=
  ∃ fields, param = .object fields ∧
    iterable (orElse (fields.lookup "flows_to".toList) (.array [])) = true ∧
      ∀ value ∈ itemsIn (orElse (fields.lookup "flows_to".toList) (.array [])), isText value = true

/-- A parameter is rendered where it has its shape. -/
theorem runs_paramText {param : Json} : Runs (paramText pyStr param) ↔ ParamShaped param := by
  refine runs_bind.trans ?_
  unfold ParamShaped
  simp only [fieldsOf_eq_ok]
  apply exists_congr
  intro fields
  apply and_congr_right
  intro _
  refine runs_bind.trans ?_
  simp only [iterate_eq_ok, and_assoc, exists_and_left, exists_eq_left']
  apply and_congr_right
  intro _
  rw [← @runs_joinTexts ", "]
  exact runs_map

/-- Parameters whose targets are words. -/
def ParamsShaped (found : Option Json) : Prop :=
  iterable (orElse found (.array [])) = true ∧
    ∀ param ∈ itemsIn (orElse found (.array [])), ParamShaped param

theorem runs_paramsText {members : List (Str × Json)} :
    Runs (paramsText pyStr members) ↔ ParamsShaped (members.lookup "params".toList) := by
  refine runs_bind.trans ?_
  unfold ParamsShaped
  simp only [iterate_eq_ok, and_assoc, exists_and_left, exists_eq_left']
  apply and_congr_right
  intro _
  simp only [← @runs_paramText pyStr]
  rw [← runs_mapM]
  exact runs_map

theorem runs_entryFlags {src : List (Str × Json)} :
    Runs (entryFlags src) ↔
      (flag src "is_entry_point" = true → Listed (src.lookup "kinds".toList)) := by
  unfold entryFlags
  split
  case isTrue entry =>
    rw [forall_prop_of_true entry]
    refine runs_bind.trans ?_
    simp only [valuesBut_eq_ok, and_assoc, exists_and_left, exists_eq_left', Listed]
    apply and_congr_right
    intro _
    rw [← @runs_joinTexts "/"]
    exact runs_map
  case isFalse other => exact iff_of_true (runs_ok _) fun entry => (other entry).elim

theorem runs_sanitizerFlags {guards : List (Str × Json)} :
    Runs (sanitizerFlags guards) ↔ (flag guards "sanitizers_called" = true →
      fourWords ((guards.lookup "sanitizers_called".toList).getD .null) = true) := by
  unfold sanitizerFlags
  split
  case isTrue called =>
    rw [forall_prop_of_true called, ← runs_firstFour]
    refine runs_bind.trans ?_
    apply exists_congr
    intro items
    apply and_congr_right
    intro _
    rw [← @runs_joinTexts "/"]
    exact runs_map
  case isFalse none => exact iff_of_true (runs_ok _) fun called => (none called).elim

/-- The shape of a summary, its `source`, its `guards` and its `risk`, that the flags of a frame
are made from. -/
structure FlagsShaped (members src checks hazards : List (Str × Json)) : Prop where
  db : isObject (orElse (members.lookup "db".toList) (.object [])) = true
  touches : Listed (members.lookup "touches".toList)
  source : orElse (members.lookup "source".toList) (.object []) = .object src
  kinds : flag src "is_entry_point" = true → Listed (src.lookup "kinds".toList)
  guards : orElse (members.lookup "guards".toList) (.object []) = .object checks
  called : flag checks "sanitizers_called" = true →
    fourWords ((checks.lookup "sanitizers_called".toList).getD .null) = true
  risk : orElse (members.lookup "risk".toList) (.object []) = .object hazards
  reasons : Listed (hazards.lookup "reasons".toList)

/-- The flags of a frame are rendered where they have their shape. -/
theorem runs_frameFlags {members : List (Str × Json)} :
    Runs (frameFlags members) ↔ ∃ src checks hazards, FlagsShaped members src checks hazards := by
  constructor
  · intro runs
    obtain ⟨db, based, runs⟩ := runs_bind.mp runs
    obtain ⟨touches, touched, runs⟩ := runs_bind.mp runs
    obtain ⟨touchFlags, touchFlagged, runs⟩ := runs_bind.mp runs
    obtain ⟨src, sourced, runs⟩ := runs_bind.mp runs
    obtain ⟨entry, entered, runs⟩ := runs_bind.mp runs
    obtain ⟨checks, guarded, runs⟩ := runs_bind.mp runs
    obtain ⟨called, listed, runs⟩ := runs_bind.mp runs
    obtain ⟨hazards, risked, runs⟩ := runs_bind.mp runs
    obtain ⟨reasons, reasoned, runs⟩ := runs_bind.mp runs
    obtain ⟨risky, riskFlagged, _⟩ := runs_bind.mp runs
    obtain ⟨touchable, rfl⟩ := valuesBut_eq_ok.mp touched
    obtain ⟨reasonable, rfl⟩ := valuesBut_eq_ok.mp reasoned
    refine ⟨src, checks, hazards, ?_⟩
    exact
      { db := runs_fieldsOf.mp ⟨db, based⟩
        touches := ⟨touchable, runs_listFlag.mp ⟨touchFlags, touchFlagged⟩⟩
        source := fieldsOf_eq_ok.mp sourced
        kinds := runs_entryFlags.mp ⟨entry, entered⟩
        guards := fieldsOf_eq_ok.mp guarded
        called := runs_sanitizerFlags.mp ⟨called, listed⟩
        risk := fieldsOf_eq_ok.mp risked
        reasons := ⟨reasonable, runs_listFlag.mp ⟨risky, riskFlagged⟩⟩ }
  · intro shaped
    obtain ⟨src, checks, hazards, shaped⟩ := shaped
    obtain ⟨db, based⟩ := runs_fieldsOf.mpr shaped.db
    obtain ⟨touchFlags, touchFlagged⟩ := (@runs_listFlag "touches:" _).mpr shaped.touches.2
    obtain ⟨entry, entered⟩ := runs_entryFlags.mpr shaped.kinds
    obtain ⟨called, listed⟩ := runs_sanitizerFlags.mpr shaped.called
    obtain ⟨risky, riskFlagged⟩ := (@runs_listFlag "risk:" _).mpr shaped.reasons.2
    refine runs_bind.mpr ⟨db, based, ?_⟩
    refine runs_bind.mpr ⟨_, valuesBut_eq_ok.mpr ⟨shaped.touches.1, rfl⟩, ?_⟩
    refine runs_bind.mpr ⟨touchFlags, touchFlagged, ?_⟩
    refine runs_bind.mpr ⟨src, fieldsOf_eq_ok.mpr shaped.source, ?_⟩
    refine runs_bind.mpr ⟨entry, entered, ?_⟩
    refine runs_bind.mpr ⟨checks, fieldsOf_eq_ok.mpr shaped.guards, ?_⟩
    refine runs_bind.mpr ⟨called, listed, ?_⟩
    refine runs_bind.mpr ⟨hazards, fieldsOf_eq_ok.mpr shaped.risk, ?_⟩
    refine runs_bind.mpr ⟨_, valuesBut_eq_ok.mpr ⟨shaped.reasons.1, rfl⟩, ?_⟩
    refine runs_bind.mpr ⟨risky, riskFlagged, ?_⟩
    exact runs_ok _

/-- A summary that a frame of a path can be made of. -/
def FrameShaped (summary : Json) : Prop :=
  ∃ members, summary = .object members ∧ ParamsShaped (members.lookup "params".toList) ∧
    ∃ src checks hazards, FlagsShaped members src checks hazards

/-- A frame has a text exactly where its summary has the shape for it. -/
theorem runs_frameText {frame : Frame} :
    Runs (frameText pyStr known bodies frame) ↔ FrameShaped frame.summary := by
  refine runs_bind.trans ?_
  simp only [fieldsOf_eq_ok, FrameShaped, ← runs_frameFlags, ← @runs_paramsText pyStr]
  apply exists_congr
  intro members
  apply and_congr_right
  intro _
  refine runs_bind.trans ?_
  constructor
  · intro runs
    obtain ⟨params, listed, runs⟩ := runs
    exact ⟨⟨params, listed⟩, runs_map.mp runs⟩
  · intro runs
    obtain ⟨⟨params, listed⟩, flags⟩ := runs
    exact ⟨params, listed, runs_map.mpr flags⟩

/-- A path runs into a text, or into none, exactly where its frames have the shape for it. -/
theorem runs_renderPath {summaries : Dict NodeId Json} {index : Nat} {path : JudgedPath} :
    Runs (renderPath pyStr known bodies summaries index path) ↔
      ∀ frames, framesOf summaries path = some frames →
        ∀ frame ∈ frames, FrameShaped frame.summary := by
  unfold renderPath
  cases found : framesOf summaries path with
  | none => exact iff_of_true (runs_ok none) fun _ same => by cases same
  | some frames =>
      refine runs_map.trans ?_
      simp only [runs_mapM, runs_frameText, Option.some.injEq, forall_eq']

end Frames

section Blocks

variable {pyStr : Json → Str} {known : Dict Str (List Str)}

/-- Resources that a function in a neighbourhood can be shown with. -/
def ResourcesShaped (db : List (Str × Json)) : Prop :=
  flag db "resource_types" = true →
    iterable ((db.lookup "resource_types".toList).getD .null) = true ∧
      ∀ value ∈ itemsIn ((db.lookup "resource_types".toList).getD .null), isText value = true

theorem runs_neighborFlags {db : List (Str × Json)} :
    Runs (neighborFlags db) ↔ ResourcesShaped db := by
  refine runs_map.trans ?_
  unfold ResourcesShaped
  split
  case isTrue named =>
    rw [forall_prop_of_true named]
    refine runs_map.trans (runs_bind.trans ?_)
    simp only [iterate_eq_ok, and_assoc, exists_and_left, exists_eq_left', runs_joinTexts]
  case isFalse none => exact iff_of_true (runs_ok _) fun named => (none named).elim

/-- A summary that a function in a neighbourhood can be shown with. -/
def BlockShaped (summary : Json) : Prop :=
  ∃ members db, summary = .object members ∧
    orElse (members.lookup "db".toList) (.object []) = .object db ∧ ResourcesShaped db

/-- A block is rendered exactly where it has its shape. -/
theorem runs_blockText {indent fqn : Str} {summary : Json} :
    Runs (blockText pyStr indent fqn summary) ↔ BlockShaped summary := by
  refine runs_bind.trans ?_
  simp only [fieldsOf_eq_ok, BlockShaped, exists_and_left, ← runs_neighborFlags]
  apply exists_congr
  intro members
  apply and_congr_right
  intro _
  refine runs_bind.trans ?_
  apply exists_congr
  intro db
  apply and_congr fieldsOf_eq_ok
  exact runs_map

/-- A neighbourhood runs into a text, or into none, exactly where what is shown of it has the
shape for it. -/
theorem runs_renderNeighborhood {summaries : Dict NodeId Json} {target : Target} :
    Runs (renderNeighborhood pyStr known summaries target) ↔
      ∀ own, summaryIn summaries target.id = some own →
        BlockShaped own ∧ ∀ entry ∈ calleesShown summaries target, BlockShaped entry.2 := by
  unfold renderNeighborhood
  cases found : summaryIn summaries target.id with
  | none => exact iff_of_true (runs_ok none) fun _ same => by cases same
  | some own =>
      refine runs_bind.trans ?_
      simp only [Option.some.injEq, forall_eq']
      constructor
      · intro runs
        obtain ⟨text, written, runs⟩ := runs
        obtain ⟨callees, listed, _⟩ := runs_bind.mp runs
        refine ⟨runs_blockText.mp ⟨text, written⟩, fun entry member => ?_⟩
        exact runs_blockText.mp (runs_map.mp (runs_mapM.mp ⟨callees, listed⟩ entry member))
      · intro shaped
        obtain ⟨self, each⟩ := shaped
        obtain ⟨text, written⟩ := runs_blockText.mpr self
        refine ⟨text, written, runs_map.mpr (runs_mapM.mpr fun entry member => ?_)⟩
        exact runs_map.mpr (runs_blockText.mpr (each entry member))

end Blocks

end GraphIngest.Analysis
