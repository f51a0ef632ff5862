import GraphIngest.Analysis.Priority
import GraphIngest.Analysis.Subjects
import GraphIngest.Foundation.Fallible

/-! # What a judge is shown

Stored summaries are loaded by the ids of functions, and paths and neighbourhoods are put
into text with them. A path is shown only when there is a summary for each of its frames; a
neighbourhood is shown with the callees that there are summaries for.
-/

namespace GraphIngest.Analysis

open Foundation Graph External

section Loading

/-- `load_summaries`; a summary that cannot be read is left out. -/
def CodeGraph.loadSummaries (loads : Str → Option Json) (graph : CodeGraph) (ids : List NodeId) :
    Dict NodeId Json :=
  ids.foldl (fun out id =>
    match graph.summary? loads id with
    | some summary => out.set id summary
    | none => out) .empty

variable {loads : Str → Option Json} {graph : CodeGraph}

theorem get?_foldl_load (ids : List NodeId) (out : Dict NodeId Json) (wanted : NodeId) :
    (ids.foldl (fun out id =>
      match graph.summary? loads id with
      | some summary => out.set id summary
      | none => out) out).get? wanted =
      if wanted ∈ ids then (graph.summary? loads wanted).or (out.get? wanted)
      else out.get? wanted := by
  induction ids generalizing out with
  | nil => rfl
  | cons id rest ih =>
      rw [List.foldl_cons, ih]
      by_cases same : wanted = id
      · subst same
        rw [if_pos List.mem_cons_self]
        cases graph.summary? loads wanted with
        | none => exact ite_self _
        | some summary =>
            rw [Dict.get?_set, if_pos rfl]
            exact ite_self _
      · simp only [List.mem_cons, same, false_or]
        cases graph.summary? loads id with
        | none => rfl
        | some summary => rw [Dict.get?_set, if_neg same]

/-- A summary that is asked for is loaded when it is stored and can be read. -/
theorem CodeGraph.get?_loadSummaries {ids : List NodeId} {wanted : NodeId} (asked : wanted ∈ ids) :
    (graph.loadSummaries loads ids).get? wanted = graph.summary? loads wanted := by
  unfold loadSummaries
  rw [get?_foldl_load, if_pos asked, Dict.get?_empty, Option.or_none]

end Loading

section Pieces

variable (pyStr : Json → Str)

/-- A text among the items of a join. -/
def textItem : Json → Except Fault Str
  | .string text => .ok text
  | _ => .error .typeError

/-- `sep.join(values)`. -/
def joinTexts (sep : Str) (values : List Json) : Except Fault Str :=
  (values.mapM textItem).map fun texts => sep.intercalate texts

/-- The values of a member besides `none`. -/
def valuesBut (found : Option Json) : Except Fault (List Json) :=
  (iterate (orElse found (.array []))).map fun values =>
    values.filter fun value => !isWord "none" value

/-- A flag with the values it is about, when there are any. -/
def listFlag (name : Str) (values : List Json) : Except Fault (List Str) :=
  if values.isEmpty then .ok [] else (joinTexts "/" values).map fun text => [name ++ text]

/-- `value[:4]`, gone through. -/
def firstFour : Json → Except Fault (List Json)
  | .array items => .ok (items.take 4)
  | .string text => .ok ((text.take 4).map fun letter => .string [letter])
  | _ => .error .typeError

/-- One parameter of a summary. -/
def paramText (param : Json) : Except Fault Str := do
  let fields ← fieldsOf param
  let targets ← iterate (orElse (fields.lookup "flows_to".toList) (.array []))
  let flows ← joinTexts ", " targets
  .ok (shown pyStr ((fields.lookup "name".toList).getD .null) ++
    (if flag fields "validated" then " [validated]".toList else []) ++ " -> ".toList ++
      (if flows.isEmpty then "nowhere".toList else flows))

/-- The parameters of a summary. -/
def paramsText (summary : List (Str × Json)) : Except Fault Str := do
  let params ← iterate (orElse (summary.lookup "params".toList) (.array []))
  let texts ← params.mapM (paramText pyStr)
  let text : Str := "; ".toList.intercalate texts
  .ok (if text.isEmpty then "(no parameters)".toList else text)

/-- The flags of a `db` block in a frame of a path. -/
def databaseFlags (db : List (Str × Json)) : List Str :=
  (if flag db "acquires" then ["acquires-db".toList] else []) ++
  (if flag db "executes_sql" then
    ["executes-sql".toList ++
      (if flag db "sql_is_dynamic" then "(DYNAMIC)".toList else "(parameterized)".toList)]
  else []) ++
  (if flag db "acquires" && !flag db "released_in_finally" then
    ["release-NOT-guaranteed".toList]
  else []) ++
  (if flag db "throws_between_acquire_and_release" then ["can-throw-before-release".toList] else [])

/-- The flag of an entry point, with its kinds. -/
def entryFlags (source : List (Str × Json)) : Except Fault (List Str) :=
  if flag source "is_entry_point" then do
    let kinds ← valuesBut (source.lookup "kinds".toList)
    let text ← joinTexts "/" kinds
    .ok ["ENTRY-POINT".toList ++
      (if kinds.isEmpty then [] else "(".toList ++ text ++ ")".toList)]
  else .ok []

/-- The flag of the sanitizers that a function calls. -/
def sanitizerFlags (guards : List (Str × Json)) : Except Fault (List Str) :=
  if flag guards "sanitizers_called" then do
    let called ← firstFour ((guards.lookup "sanitizers_called".toList).getD .null)
    let text ← joinTexts "/" called
    .ok ["calls-validators:".toList ++ text]
  else .ok []

/-- The flags of a frame. -/
def frameFlags (summary : List (Str × Json)) : Except Fault (List Str) := do
  let db ← blockOf summary "db"
  let touches ← valuesBut (summary.lookup "touches".toList)
  let touched ← listFlag "touches:" touches
  let source ← blockOf summary "source"
  let entry ← entryFlags source
  let guards ← blockOf summary "guards"
  let called ← sanitizerFlags guards
  let risk ← blockOf summary "risk"
  let reasons ← valuesBut (risk.lookup "reasons".toList)
  let risky ← listFlag "risk:" reasons
  .ok (databaseFlags db ++ touched ++ entry ++
    (if flag source "reads_untrusted" then ["reads-untrusted-input".toList] else []) ++
    (if flag guards "is_sanitizer" then
      ["SANITIZER — input is neutralized here; data downstream of ".toList ++
        "this frame is NOT attacker-controlled unless re-tainted".toList]
    else []) ++
    (if flag guards "authenticates" || flag guards "authorizes" then ["auth-check".toList]
    else []) ++
    called ++ risky)

/-- A line of text. -/
def line (text : Str) : Str := text ++ ['\n']

end Pieces

section Paths

/-- The name of a kind of external target. -/
def kindName : ExternalKind → Str
  | .dbAcquire => "db_acquire"
  | .dbExecute => "db_execute"
  | .dbRelease => "db_release"
  | .dbOther => "db_other"
  | .reflection => "reflection"
  | .other => "other"
  | .taintSource => "taint_source"
  | .taintSink => "taint_sink"
  | .taintSanitizer => "taint_sanitizer"
  | .exec => "exec"
  | .fileWrite => "file_write"
  | .deserialize => "deserialize"
  | .response => "response"

namespace JudgedPath

def fqns : JudgedPath → List Str
  | sink row => row.fqns
  | leak row => row.fqns

/-- `sink_kinds`, which the rows of leaks do not have. -/
def sinkKinds : JudgedPath → List ExternalKind
  | sink row => row.sinkKinds
  | leak _ => []

/-- `sink_names`, which the rows of leaks do not have. -/
def sinkNames : JudgedPath → List Str
  | sink row => row.sinkNames
  | leak _ => []

end JudgedPath

/-- A frame of a path with its summary. -/
structure Frame where
  depth : Nat
  id : NodeId
  fqn : Str
  summary : Json

/-- The frames of a path, when there is a summary for each of them. -/
def framesOf (summaries : Dict NodeId Json) (path : JudgedPath) : Option (List Frame) :=
  if path.ids = [] then none
  else path.ids.zipIdx.mapM fun entry =>
    (summaries.get? entry.1).map fun summary =>
      ⟨entry.2, entry.1, (path.fqns[entry.2]?).getD [], summary⟩

variable {summaries : Dict NodeId Json} {path : JudgedPath}

theorem forall_mem_zipIdx_ids (good : NodeId → Prop) :
    (∀ entry ∈ path.ids.zipIdx, good entry.1) ↔ ∀ id ∈ path.ids, good id := by
  rw [← List.forall_mem_map, List.zipIdx_map_fst]

/-- A path has its frames when it has any and there is a summary for each. -/
theorem isSome_framesOf : (framesOf summaries path).isSome = true ↔
    path.ids ≠ [] ∧ ∀ id ∈ path.ids, (summaries.get? id).isSome = true := by
  unfold framesOf
  split
  case isTrue empty => exact iff_of_false Bool.noConfusion fun both => both.1 empty
  case isFalse filled =>
    rw [isSome_mapM, and_iff_right filled]
    simp only [Option.isSome_map]
    exact forall_mem_zipIdx_ids fun id => (summaries.get? id).isSome = true

/-- What holds of the summaries of all frames holds of those of the ids. -/
theorem forall_mem_framesOf {good : Json → Prop} {frames : List Frame}
    (found : framesOf summaries path = some frames) :
    (∀ frame ∈ frames, good frame.summary) ↔
      ∀ id ∈ path.ids, ∀ summary ∈ summaries.get? id, good summary := by
  unfold framesOf at found
  split at found
  case isTrue => cases found
  case isFalse =>
    rw [@forall_mem_of_mapM _ _ _ _ _ (fun frame : Frame => good frame.summary) found]
    simp only [Option.mem_def, Option.map_eq_some_iff, forall_exists_index, and_imp,
      forall_apply_eq_imp_iff₂]
    exact forall_mem_zipIdx_ids fun id => ∀ summary, summaries.get? id = some summary → good summary

variable (pyStr : Json → Str) (known : Dict Str (List Str)) (bodies : NodeId → Str)

/-- The text of a frame. -/
def frameText (frame : Frame) : Except Fault Str := do
  let summary ← fieldsOf frame.summary
  let params ← paramsText pyStr summary
  let flags ← frameFlags summary
  .ok (line ("  [".toList ++ (toString frame.depth).toList ++ "] ".toList ++ frame.fqn) ++
    line ("      does: ".toList ++
      shown pyStr ((summary.lookup "does".toList).getD (.string []))) ++
    line ("      params: ".toList ++ params) ++
    line ("      returns: ".toList ++
      shown pyStr ((summary.lookup "returns".toList).getD (.string []))) ++
    (if flags.isEmpty then []
      else line ("      flags: ".toList ++ ", ".toList.intercalate flags)) ++
    (((known.getD frame.fqn []).take 3).flatMap fun text =>
      line ("      ALREADY REPORTED: ".toList ++ text)) ++
    (if (bodies frame.id).isEmpty then []
      else line "      --- ACTUAL SOURCE (authoritative — trust over the summary) ---" ++
        line (bodies frame.id)))

/-- The lines in front of the frames of a path. -/
def pathHead (index : Nat) (path : JudgedPath) : List Str :=
  ("### PATH ".toList ++ (toString index).toList ++ "  (".toList ++
    (toString path.ids.length).toList ++ " frame(s))".toList) ::
  (if path.sinkKinds.isEmpty then []
    else ["Dangerous operation reached: ".toList ++
      ", ".toList.intercalate (path.sinkKinds.map kindName) ++ " via ".toList ++
        ", ".toList.intercalate path.sinkNames])

/-- `_render_path`. -/
def renderPath (summaries : Dict NodeId Json) (index : Nat) (path : JudgedPath) :
    Except Fault (Option Str) :=
  match framesOf summaries path with
  | none => .ok none
  | some frames =>
      (frames.mapM (frameText pyStr known bodies)).map fun texts =>
        some (['\n'].intercalate (pathHead index path ++ texts))

end Paths

section Neighborhoods

variable (pyStr : Json → Str) (known : Dict Str (List Str))

/-- The flags of a function in a neighbourhood. -/
def neighborFlags (db : List (Str × Json)) : Except Fault (List Str) :=
  (if flag db "resource_types" then
    ((iterate ((db.lookup "resource_types".toList).getD .null)).bind (joinTexts "/")).map
      fun text => ["resources:".toList ++ text]
  else .ok []).map fun resources =>
    (if flag db "acquires" then ["acquires-db".toList] else []) ++
    (if flag db "releases" then ["releases".toList] else []) ++
    (if flag db "acquires" && !flag db "released_in_finally" then
      ["release-NOT-guaranteed".toList]
    else []) ++ resources

/-- The text of a function in a neighbourhood. -/
def blockText (indent fqn : Str) (summary : Json) : Except Fault Str := do
  let fields ← fieldsOf summary
  let db ← blockOf fields "db"
  let flags ← neighborFlags db
  .ok (line (indent ++ fqn) ++
    line (indent ++ "  does: ".toList ++
      shown pyStr ((fields.lookup "does".toList).getD (.string []))) ++
    line (indent ++ "  returns: ".toList ++
      shown pyStr ((fields.lookup "returns".toList).getD (.string []))) ++
    (if flags.isEmpty then []
      else line (indent ++ "  flags: ".toList ++ ", ".toList.intercalate flags)))

/-- A summary that is there and counts as true. -/
def summaryIn (summaries : Dict NodeId Json) (id : NodeId) : Option Json :=
  (summaries.get? id).filter Json.truthy

/-- The callees that are shown, with their summaries. -/
def calleesShown (summaries : Dict NodeId Json) (target : Target) : List (Callee × Json) :=
  target.callees.filterMap fun callee =>
    (summaryIn summaries callee.id).map fun summary => (callee, summary)

/-- The lines about the callees, by their depth. -/
def calleeLines (texts : List (Nat × Str)) : List Str :=
  ((grouped Prod.fst texts).entries.insertionSort fun entry other => entry.1 ≤ other.1).flatMap
    fun entry => (['\n'] ++ "CALLS (depth ".toList ++ (toString entry.1).toList ++ "):".toList) ::
      entry.2.map Prod.snd

/-- The lines about what was reported on a function before. -/
def priorLines (prior : List Str) : List Str :=
  if prior.isEmpty then []
  else "ALREADY REPORTED for this function (do NOT repeat these):".toList ::
    (prior.take 6).map fun text => "    - ".toList ++ text

/-- `_render`. -/
def renderNeighborhood (summaries : Dict NodeId Json) (target : Target) :
    Except Fault (Option Str) :=
  match summaryIn summaries target.id with
  | none => .ok none
  | some summary => do
      let own ← blockText pyStr "  " target.fqn summary
      let callees ← (calleesShown summaries target).mapM fun entry =>
        (blockText pyStr "    " entry.1.fqn entry.2).map fun text => (max entry.1.depth 1, text)
      .ok (some (['\n'].intercalate ("TARGET FUNCTION:".toList :: own ::
        priorLines (known.getD target.fqn []) ++ calleeLines callees)))

end Neighborhoods

end GraphIngest.Analysis
