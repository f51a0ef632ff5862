import GraphIngest.Analysis.Balloting
import GraphIngest.Analysis.Rendering
import GraphIngest.Foundation.Fallible
import GraphIngest.Foundation.Joining

/-! # Judging a batch

A batch of paths, or of neighbourhoods, is put to a model in one request: what can be rendered
is numbered in the order of the batch, the reply is checked against how many there are, and
each verdict goes to the item that stands under its index.
-/

namespace GraphIngest.Analysis

open Foundation Graph

section Numbering

variable {ι τ ε : Type*}

/-- Items shown under consecutive numbers: those among the items seen that can be rendered, each
with its text. -/
structure Numbered (render : Nat → ι → Except ε (Option τ)) (renders : ι → Bool) (seen : List ι)
    (texts : List τ) (items : List ι) : Prop where
  items_eq : items = seen.filter renders
  length_eq : texts.length = items.length
  text_of : ∀ index item, items[index]? = some item →
    ∃ text, texts[index]? = some text ∧ render index item = .ok (some text)

variable {render : Nat → ι → Except ε (Option τ)} {renders : ι → Bool} {seen items : List ι}
  {texts : List τ}

theorem numbered_nil : Numbered render renders [] [] [] where
  items_eq := rfl
  length_eq := rfl
  text_of := fun _ _ found => by cases found

/-- An item that cannot be rendered takes no number. -/
theorem Numbered.skip (numbered : Numbered render renders seen texts items) {item : ι}
    (hidden : renders item = false) : Numbered render renders (seen ++ [item]) texts items where
  items_eq := by
    rw [List.filter_append, List.filter_singleton, hidden, ← numbered.items_eq]
    exact (List.append_nil _).symm
  length_eq := numbered.length_eq
  text_of := numbered.text_of

/-- An item that is rendered takes the next number. -/
theorem Numbered.push (numbered : Numbered render renders seen texts items) {item : ι} {text : τ}
    (visible : renders item = true) (rendered : render items.length item = .ok (some text)) :
    Numbered render renders (seen ++ [item]) (texts ++ [text]) (items ++ [item]) where
  items_eq := by
    rw [List.filter_append, List.filter_singleton, visible, ← numbered.items_eq]
    rfl
  length_eq := by
    rw [List.length_append, List.length_append, numbered.length_eq]
    rfl
  text_of := by
    intro index other found
    by_cases earlier : index < items.length
    · rw [List.getElem?_append_left earlier] at found
      obtain ⟨old, written, same⟩ := numbered.text_of index other found
      refine ⟨old, ?_, same⟩
      rwa [List.getElem?_append_left (numbered.length_eq ▸ earlier)]
    · rw [List.getElem?_append_right (not_lt.mp earlier)] at found
      have last : index = items.length := by
        have bound := (List.getElem?_eq_some_iff.mp found).1
        rw [List.length_singleton] at bound
        omega
      subst last
      rw [Nat.sub_self] at found
      cases found
      refine ⟨text, ?_, rendered⟩
      rw [← numbered.length_eq, List.getElem?_concat_length]

theorem filterMap_getElem?_range (items : List ι) :
    (List.range items.length).filterMap (fun index => items[index]?) = items := by
  induction items with
  | nil => rfl
  | cons item rest ih =>
      rw [List.length_cons, List.range_succ_eq_map,
        List.filterMap_cons_some List.getElem?_cons_zero, List.filterMap_map]
      exact congrArg (item :: ·) ih

/-- Under distinct numbers stand distinct places of a list. -/
theorem subperm_of_indices {indices : List Nat} (distinct : indices.Nodup)
    (inside : ∀ index ∈ indices, index < items.length) :
    (indices.filterMap fun index => items[index]?).Subperm items := by
  have among : indices.Subperm (List.range items.length) :=
    List.subperm_of_subset distinct fun index member => List.mem_range.mpr (inside index member)
  obtain ⟨chosen, same, below⟩ := among
  refine ⟨chosen.filterMap fun index => items[index]?, same.filterMap _, ?_⟩
  have sub := below.filterMap fun index => items[index]?
  rwa [filterMap_getElem?_range] at sub

end Numbering

section Asking

/-- What judging a batch comes to: verdicts, answers, and what was skipped. -/
structure Outcome (α σ : Type) where
  verdicts : List α
  results : List LLMResult
  skipped : σ

/-- A fault in judging a batch. -/
inductive JudgeFault
  | rendering (fault : Fault)
  | strayIndex
deriving DecidableEq

/-- The verdicts of an answer, when they are accepted. -/
def acceptedVerdicts (usable : LLMResult → Option (List (Str × Json))) (count : Nat)
    (res : LLMResult) : Option (List Json) :=
  (usable res).bind fun members => (validateVerdicts (.object members) count).toOption

/-- Ask until the verdicts are accepted or there is no attempt left. -/
def ask (usable : LLMResult → Option (List (Str × Json))) (answer : Nat → LLMResult)
    (count : Nat) : List Nat → List LLMResult → Option (List Json) × List LLMResult
  | [], results => (none, results)
  | attempt :: rest, results =>
      match acceptedVerdicts usable count (answer attempt) with
      | some verdicts => (some verdicts, results ++ [answer attempt])
      | none => ask usable answer count rest (results ++ [answer attempt])

variable {usable : LLMResult → Option (List (Str × Json))} {answer : Nat → LLMResult} {count : Nat}

/-- The verdicts that come back were accepted. -/
theorem accepted_of_ask {attempts : List Nat} {results : List LLMResult} {verdicts : List Json}
    (came : (ask usable answer count attempts results).1 = some verdicts) :
    ∃ members, validateVerdicts (.object members) count = .ok verdicts := by
  induction attempts generalizing results with
  | nil => cases came
  | cons attempt rest ih =>
      rw [ask] at came
      cases accepted : acceptedVerdicts usable count (answer attempt) with
      | none =>
          rw [accepted] at came
          exact ih came
      | some found =>
          rw [accepted] at came
          cases came
          obtain ⟨members, _, valid⟩ := Option.bind_eq_some_iff.mp accepted
          refine ⟨members, ?_⟩
          cases checked : validateVerdicts (.object members) count with
          | error fault =>
              rw [checked] at valid
              cases valid
          | ok rows =>
              rw [checked] at valid
              cases valid
              rfl

/-- Every answer is one to the request. -/
theorem mem_results_ask {attempts : List Nat} {results : List LLMResult} {res : LLMResult}
    (member : res ∈ (ask usable answer count attempts results).2) :
    res ∈ results ∨ ∃ attempt, res = answer attempt := by
  induction attempts generalizing results with
  | nil => exact .inl member
  | cons attempt rest ih =>
      rw [ask] at member
      cases accepted : acceptedVerdicts usable count (answer attempt) with
      | some found =>
          rw [accepted] at member
          cases List.mem_append.mp member with
          | inl before => exact .inl before
          | inr last => exact .inr ⟨attempt, List.mem_singleton.mp last⟩
      | none =>
          rw [accepted] at member
          cases ih member with
          | inl earlier =>
              cases List.mem_append.mp earlier with
              | inl before => exact .inl before
              | inr last => exact .inr ⟨attempt, List.mem_singleton.mp last⟩
          | inr later => exact .inr later

/-- The index that a verdict names. -/
def indexOf (verdict : Json) : Option Int := wholeOf (verdict.get? "path_index")

/-- Verdicts that pass the check name distinct indices within the range. -/
theorem indices_of_checkVerdicts {seen : List Int} {rows : List Json}
    (checked : checkVerdicts count seen rows = .ok ()) :
    ∃ indices : List Nat, rows.map indexOf = indices.map (fun index : Nat => some (index : Int)) ∧
      indices.Nodup ∧ ∀ index ∈ indices, index < count ∧ (index : Int) ∉ seen := by
  induction rows generalizing seen with
  | nil => exact ⟨[], rfl, List.nodup_nil, fun _ member => (List.not_mem_nil member).elim⟩
  | cons row rest ih =>
      cases row with
      | object members =>
          rw [checkVerdicts] at checked
          split at checked
          case h_1 index found =>
            split at checked
            case isTrue inside =>
              split at checked
              case isTrue => cases checked
              case isFalse fresh =>
                obtain ⟨indices, named, distinct, each⟩ := ih checked
                obtain ⟨number, rfl⟩ := Int.eq_ofNat_of_zero_le inside.1
                refine ⟨number :: indices, ?_, ?_, ?_⟩
                · rw [List.map_cons, List.map_cons, named]
                  exact congrArg (· :: _) found
                · exact List.nodup_cons.mpr
                    ⟨fun member => (each number member).2 List.mem_cons_self, distinct⟩
                · rw [List.forall_mem_cons]
                  refine ⟨⟨by omega, fresh⟩, fun other member => ⟨(each other member).1, ?_⟩⟩
                  exact fun known => (each other member).2 (List.mem_cons_of_mem _ known)
            case isFalse => cases checked
          case h_2 => cases checked
      | _ => simp only [checkVerdicts, reduceCtorEq] at checked

/-- Accepted verdicts name distinct indices of the batch. -/
theorem indices_of_accepted {members : List (Str × Json)} {verdicts : List Json}
    (accepted : validateVerdicts (.object members) count = .ok verdicts) :
    ∃ indices : List Nat,
      verdicts.map indexOf = indices.map (fun index : Nat => some (index : Int)) ∧
        indices.Nodup ∧ ∀ index ∈ indices, index < count := by
  unfold validateVerdicts at accepted
  dsimp only at accepted
  split at accepted
  case h_1 rows _ =>
    obtain ⟨_, checked, rfl⟩ := map_eq_ok.mp accepted
    obtain ⟨indices, named, distinct, each⟩ := indices_of_checkVerdicts checked
    exact ⟨indices, named, distinct, fun index member => (each index member).1⟩
  case h_2 => cases accepted

variable {ι : Type} {items : List ι}

/-- Each verdict goes to the item under its index, and no item takes two. -/
structure Attached (items : List ι) (verdicts : List (Json × ι)) : Prop where
  each : ∀ entry ∈ verdicts, ∃ index : Nat,
    indexOf entry.1 = some (index : Int) ∧ items[index]? = some entry.2
  once : (verdicts.map Prod.snd).Subperm items

/-- A verdict with the item under its index. -/
def GoesTo (items : List ι) (verdict : Json) (entry : Json × ι) : Prop :=
  entry.1 = verdict ∧ ∃ index : Nat, indexOf verdict = some (index : Int) ∧
    items[index]? = some entry.2

/-- Verdicts that name distinct indices within the range can all be attached. -/
theorem exists_attached {verdicts : List Json} {indices : List Nat}
    (named : verdicts.map indexOf = indices.map fun index : Nat => some (index : Int))
    (distinct : indices.Nodup) (inside : ∀ index ∈ indices, index < items.length) :
    ∃ entries, List.Forall₂ (GoesTo items) verdicts entries ∧ Attached items entries := by
  have paired : ∃ entries, List.Forall₂ (GoesTo items) verdicts entries ∧
      entries.map Prod.snd = indices.filterMap fun index => items[index]? := by
    clear distinct
    induction verdicts generalizing indices with
    | nil =>
        cases List.map_eq_nil_iff.mp named.symm
        exact ⟨[], .nil, rfl⟩
    | cons verdict rest ih =>
        cases indices with
        | nil => cases named
        | cons index more =>
            obtain ⟨first, later⟩ := List.cons.inj named
            obtain ⟨here, there⟩ := List.forall_mem_cons.mp inside
            obtain ⟨entries, goes, same⟩ := ih later there
            have found := List.getElem?_eq_getElem here
            refine ⟨(verdict, items[index]) :: entries, .cons ⟨rfl, index, first, found⟩ goes, ?_⟩
            rw [List.map_cons, same, List.filterMap_cons_some found]
  obtain ⟨entries, goes, same⟩ := paired
  refine ⟨entries, goes, ⟨fun entry member => ?_, same ▸ subperm_of_indices distinct inside⟩⟩
  clear same named
  induction goes with
  | nil => exact (List.not_mem_nil member).elim
  | @cons verdict first _ _ here _ ih =>
      cases List.mem_cons.mp member with
      | inl same =>
          subst same
          obtain ⟨rfl, found⟩ := here
          exact found
      | inr later => exact ih later

/-- The entries hold the verdicts in their order. -/
theorem map_fst_of_goesTo {verdicts : List Json} {entries : List (Json × ι)}
    (goes : List.Forall₂ (GoesTo items) verdicts entries) : entries.map Prod.fst = verdicts := by
  induction goes with
  | nil => rfl
  | cons here _ ih => rw [List.map_cons, ih, here.1]

/-- Verdicts that came for a whole batch are attached to its items. -/
theorem exists_attached_of_ask {attempts : List Nat} {results : List LLMResult}
    {verdicts : List Json} (whole : count = items.length)
    (came : (ask usable answer count attempts results).1 = some verdicts) :
    ∃ entries, List.Forall₂ (GoesTo items) verdicts entries ∧ Attached items entries := by
  obtain ⟨members, accepted⟩ := accepted_of_ask came
  obtain ⟨indices, named, distinct, inside⟩ := indices_of_accepted accepted
  exact exists_attached named distinct (whole ▸ inside)

/-- A batch that is judged right: what can be rendered is shown under consecutive numbers, all
answers are answers to that, and the verdicts that are accepted are attached. -/
def JudgedRight (render : Nat → ι → Except Fault (Option Str)) (renders : ι → Bool)
    (usable : LLMResult → Option (List (Str × Json))) (request : List Str → Str)
    (client : Str → Nat → LLMResult) (batch : List ι) (results : List LLMResult)
    (verdicts : List (Json × ι)) : Prop :=
  ∃ texts items, Numbered render renders batch texts items ∧
    (∀ res ∈ results, ∃ attempt, res = client (request texts) attempt) ∧
      Attached items verdicts ∧
        ∀ accepted, (ask usable (client (request texts)) texts.length [1, 2] []).1 = some accepted →
          texts ≠ [] → verdicts.map Prod.fst = accepted

theorem attached_nil : Attached items [] where
  each := fun _ member => (List.not_mem_nil member).elim
  once := List.nil_subperm

variable {render : Nat → ι → Except Fault (Option Str)} {renders : ι → Bool}
  {request : List Str → Str} {client : Str → Nat → LLMResult} {batch : List ι} {texts : List Str}
  {results : List LLMResult}

/-- Every result of a question came from the client, at one of its attempts. -/
theorem results_of_ask {found : Option (List Json)}
    (asked : ask usable (client (request texts)) texts.length [1, 2] [] = (found, results)) :
    ∀ res ∈ results, ∃ attempt, res = client (request texts) attempt := by
  intro res member
  have either := @mem_results_ask usable (client (request texts)) texts.length [1, 2] [] res
    (by rwa [asked])
  exact either.resolve_left List.not_mem_nil

/-- A batch of which nothing is shown. -/
theorem judgedRight_of_unshown (numbered : Numbered render renders batch texts items)
    (empty : texts.isEmpty = true) :
    JudgedRight render renders usable request client batch [] [] := by
  refine ⟨texts, items, numbered, ?_, attached_nil, ?_⟩
  · exact fun _ member => (List.not_mem_nil member).elim
  · exact fun _ _ filled => (filled (List.isEmpty_iff.mp empty)).elim

/-- A batch to which no answer is accepted. -/
theorem judgedRight_of_unanswered (numbered : Numbered render renders batch texts items)
    (asked : ask usable (client (request texts)) texts.length [1, 2] [] = (none, results)) :
    JudgedRight render renders usable request client batch results [] := by
  refine ⟨texts, items, numbered, results_of_ask asked, attached_nil, fun accepted came _ => ?_⟩
  rw [asked] at came
  cases came

/-- A batch to which an answer is accepted. -/
theorem exists_judgedRight {verdicts : List Json}
    (numbered : Numbered render renders batch texts items)
    (asked : ask usable (client (request texts)) texts.length [1, 2] [] =
      (some verdicts, results)) :
    ∃ entries, List.Forall₂ (GoesTo items) verdicts entries ∧
      JudgedRight render renders usable request client batch results entries := by
  have came := congrArg Prod.fst asked
  obtain ⟨entries, goes, attached⟩ := exists_attached_of_ask numbered.length_eq came
  refine ⟨entries, goes, texts, items, numbered, results_of_ask asked, attached,
    fun others given _ => ?_⟩
  rw [map_fst_of_goesTo goes]
  exact Option.some.inj (came.symm.trans given)

end Asking

section Paths

/-- The numberings of `_judge_batch`. -/
structure ShownPaths where
  rendered : List Str := []
  indexMap : List JudgedPath := []
  skipped : List Nat := []

/-- A path with the text that it is rendered as, if it is. -/
def ShownPaths.add (batch : List JudgedPath) (shown : ShownPaths) (path : JudgedPath) :
    Option Str → ShownPaths
  | none => { shown with skipped := shown.skipped ++ [batch.idxOf path] }
  | some text =>
      { shown with
        rendered := shown.rendered ++ [text]
        indexMap := shown.indexMap ++ [path] }

/-- What is put to the model about some paths. -/
def pathRequest (rendered : List Str) : Str :=
  "Judge the following ".toList ++ (toString rendered.length).toList ++
    " path(s). Return one verdict per path, using the PATH index shown.\n\n".toList ++
      "\n\n".toList.intercalate rendered

/-- An answer that was given without a failure. -/
def pathUsable (res : LLMResult) : Option (List (Str × Json)) := if res.ok then res.parsed else none

/-- `v["_path"] = index_map[v["path_index"]]`. -/
def attachPath (indexMap : List JudgedPath) (verdict : Json) :
    Except JudgeFault (Json × JudgedPath) :=
  match (indexOf verdict).bind fun index => indexMap[index.toNat]? with
  | some path => .ok (verdict, path)
  | none => .error .strayIndex

variable (pyStr : Json → Str) (known : Dict Str (List Str)) (bodies : NodeId → Str)
variable (summaries : Dict NodeId Json) (client : Str → Nat → LLMResult)

/-- One path of a batch. -/
def showPath (batch : List JudgedPath) (shown : ShownPaths) (path : JudgedPath) :
    Except Fault ShownPaths :=
  (renderPath pyStr known bodies summaries shown.rendered.length path).map (shown.add batch path)

/-- `_judge_batch`. -/
def judgeBatch (batch : List JudgedPath) :
    Except JudgeFault (Outcome (Json × JudgedPath) (List Nat)) :=
  match batch.foldlM (showPath pyStr known bodies summaries batch) {} with
  | .error fault => .error (.rendering fault)
  | .ok shown =>
      if shown.rendered.isEmpty then .ok ⟨[], [], shown.skipped⟩
      else
        match ask pathUsable (client (pathRequest shown.rendered)) shown.rendered.length [1, 2] []
            with
        | (none, results) => .ok ⟨[], results, shown.skipped⟩
        | (some verdicts, results) =>
            (verdicts.mapM (attachPath shown.indexMap)).map fun attached =>
              ⟨attached, results, shown.skipped⟩

/-- Whether there is a summary for each frame of a path. -/
def complete (path : JudgedPath) : Bool := (framesOf summaries path).isSome

variable {pyStr known bodies summaries client}

/-- A path is rendered exactly where its frames are complete. -/
theorem complete_of_renderPath {index : Nat} {path : JudgedPath} {text : Option Str}
    (rendered : renderPath pyStr known bodies summaries index path = .ok text) :
    complete summaries path = text.isSome := by
  unfold renderPath at rendered
  unfold complete
  split at rendered
  case h_1 missing =>
    cases rendered
    rw [missing]
    rfl
  case h_2 frames present =>
    obtain ⟨_, _, rfl⟩ := map_eq_ok.mp rendered
    rw [present]
    rfl

/-- One path keeps the numberings in step. -/
theorem numbered_showPath {batch seen : List JudgedPath} {shown next : ShownPaths}
    {path : JudgedPath}
    (numbered : Numbered (renderPath pyStr known bodies summaries) (complete summaries) seen
      shown.rendered shown.indexMap)
    (step : showPath pyStr known bodies summaries batch shown path = .ok next) :
    Numbered (renderPath pyStr known bodies summaries) (complete summaries) (seen ++ [path])
        next.rendered next.indexMap ∧
      next.skipped = shown.skipped ++
        if complete summaries path then [] else [batch.idxOf path] := by
  obtain ⟨text, rendered, rfl⟩ := map_eq_ok.mp step
  have visible := complete_of_renderPath rendered
  cases text with
  | none =>
      refine ⟨numbered.skip visible, ?_⟩
      rw [visible]
      rfl
  | some text =>
      rw [numbered.length_eq] at rendered
      refine ⟨numbered.push visible rendered, ?_⟩
      rw [visible]
      exact (List.append_nil _).symm

/-- A batch of paths is numbered in its order, and what is skipped is what is incomplete. -/
theorem numbered_foldlM_showPath {batch seen rest : List JudgedPath} {shown last : ShownPaths}
    (numbered : Numbered (renderPath pyStr known bodies summaries) (complete summaries) seen
      shown.rendered shown.indexMap)
    (run : rest.foldlM (showPath pyStr known bodies summaries batch) shown = .ok last) :
    Numbered (renderPath pyStr known bodies summaries) (complete summaries) (seen ++ rest)
        last.rendered last.indexMap ∧
      last.skipped = shown.skipped ++
        (rest.filter fun path => !complete summaries path).map batch.idxOf := by
  induction rest generalizing seen shown with
  | nil =>
      cases run
      rw [List.append_nil]
      exact ⟨numbered, (List.append_nil _).symm⟩
  | cons path rest ih =>
      obtain ⟨next, step, later⟩ := bind_eq_ok.mp run
      obtain ⟨here, skipped⟩ := numbered_showPath numbered step
      obtain ⟨there, whole⟩ := ih here later
      rw [List.append_assoc, List.singleton_append] at there
      refine ⟨there, ?_⟩
      rw [whole, skipped, List.append_assoc, List.filter_cons]
      cases complete summaries path <;> rfl

/-- Attaching the verdicts of a batch gives its entries. -/
theorem mapM_attachPath {items : List JudgedPath} {verdicts : List Json}
    {entries : List (Json × JudgedPath)} (goes : List.Forall₂ (GoesTo items) verdicts entries) :
    verdicts.mapM (attachPath items) = .ok entries := by
  apply mapM_of_forall₂
  refine goes.imp fun verdict entry here => ?_
  obtain ⟨rfl, index, named, found⟩ := here
  unfold attachPath
  rw [named, Option.bind_some, Int.toNat_natCast, found]

/-- A batch of paths that can be put into text is judged right. -/
theorem judgeBatch_of_run {batch : List JudgedPath} {shown : ShownPaths}
    (run : batch.foldlM (showPath pyStr known bodies summaries batch) {} = .ok shown) :
    ∃ out, judgeBatch pyStr known bodies summaries client batch = .ok out ∧
      JudgedRight (renderPath pyStr known bodies summaries) (complete summaries) pathUsable
        pathRequest client batch out.results out.verdicts ∧
      out.skipped = (batch.filter fun path => !complete summaries path).map batch.idxOf := by
  unfold judgeBatch
  obtain ⟨numbered, skipped⟩ := numbered_foldlM_showPath numbered_nil run
  rw [List.nil_append] at numbered
  rw [run]
  dsimp only
  by_cases empty : shown.rendered.isEmpty
  · rw [if_pos empty]
    exact ⟨_, rfl, judgedRight_of_unshown numbered empty, skipped⟩
  · rw [if_neg empty]
    cases asked : ask pathUsable (client (pathRequest shown.rendered)) shown.rendered.length
        [1, 2] [] with
    | mk found results =>
        cases found with
        | none => exact ⟨_, rfl, judgedRight_of_unanswered numbered asked, skipped⟩
        | some verdicts =>
            obtain ⟨entries, goes, right⟩ := exists_judgedRight numbered asked
            dsimp only
            rw [mapM_attachPath goes]
            exact ⟨_, rfl, right, skipped⟩

/-- A fault in rendering ends the batch. -/
theorem judgeBatch_of_fault {batch : List JudgedPath} {fault : Fault}
    (run : batch.foldlM (showPath pyStr known bodies summaries batch) {} = .error fault) :
    judgeBatch pyStr known bodies summaries client batch = .error (.rendering fault) := by
  unfold judgeBatch
  rw [run]

/-- A batch of paths is judged right, or a path of it cannot be put into text. -/
theorem judgeBatch_spec (batch : List JudgedPath) :
    (∃ fault, judgeBatch pyStr known bodies summaries client batch = .error (.rendering fault)) ∨
      ∃ out, judgeBatch pyStr known bodies summaries client batch = .ok out ∧
        JudgedRight (renderPath pyStr known bodies summaries) (complete summaries) pathUsable
          pathRequest client batch out.results out.verdicts ∧
        out.skipped = (batch.filter fun path => !complete summaries path).map batch.idxOf := by
  cases run : batch.foldlM (showPath pyStr known bodies summaries batch) {} with
  | error fault => exact .inl ⟨fault, judgeBatch_of_fault run⟩
  | ok shown => exact .inr (judgeBatch_of_run run)

end Paths

section Neighborhoods

/-- The numberings of `_judge`. -/
structure ShownTargets where
  rendered : List Str := []
  kept : List Target := []

/-- The text of a neighbourhood under its number. -/
def numberedText (index : Nat) (text : Str) : Str :=
  "### NEIGHBOURHOOD ".toList ++ (toString index).toList ++ ['\n'] ++ text

/-- A function with the text that its neighbourhood is rendered as, if it is. -/
def ShownTargets.add (shown : ShownTargets) (target : Target) : Option Str → ShownTargets
  | none => shown
  | some text =>
      if text.isEmpty then shown
      else
        { rendered := shown.rendered ++ [numberedText shown.kept.length text]
          kept := shown.kept ++ [target] }

/-- What is put to the model about some neighbourhoods. -/
def neighborhoodRequest (rendered : List Str) : Str :=
  "Review the following ".toList ++ (toString rendered.length).toList ++
    " neighbourhood(s). Return one verdict per neighbourhood, using `path_index` for ".toList ++
      "the NEIGHBOURHOOD number shown.\n\n".toList ++ "\n\n".toList.intercalate rendered

/-- An answer that is there and not empty. -/
def neighborhoodUsable (res : LLMResult) : Option (List (Str × Json)) :=
  res.parsed.filter fun members => !members.isEmpty

/-- `v["_target"] = kept[idx]`, for an index within the range. -/
def attachTarget (kept : List Target) (verdict : Json) : Json × Option Target :=
  let index := (indexOf verdict).getD 0
  (verdict, if 0 ≤ index ∧ index < kept.length then kept[index.toNat]? else none)

variable (pyStr : Json → Str) (known : Dict Str (List Str)) (summaries : Dict NodeId Json)
variable (client : Str → Nat → LLMResult)

/-- One function of a batch. -/
def showTarget (shown : ShownTargets) (target : Target) : Except Fault ShownTargets :=
  (renderNeighborhood pyStr known summaries target).map (shown.add target)

/-- `_judge`; what is skipped is a number. -/
def judge (batch : List Target) : Except Fault (Outcome (Json × Option Target) Nat) :=
  (batch.foldlM (showTarget pyStr known summaries) {}).map fun shown =>
    if shown.rendered.isEmpty then ⟨[], [], batch.length⟩
    else
      match ask neighborhoodUsable (client (neighborhoodRequest shown.rendered))
          shown.rendered.length [1, 2] [] with
      | (none, results) => ⟨[], results, batch.length⟩
      | (some verdicts, results) =>
          ⟨verdicts.map (attachTarget shown.kept), results, batch.length - shown.kept.length⟩

/-- Whether there is a summary for a function. -/
def summed (target : Target) : Bool := (summaryIn summaries target.id).isSome

/-- The text of a neighbourhood, under a number. -/
def renderNumbered (index : Nat) (target : Target) : Except Fault (Option Str) :=
  (renderNeighborhood pyStr known summaries target).map (Option.map (numberedText index))

variable {pyStr known summaries client}

/-- A neighbourhood is rendered exactly where its target is summed up. -/
theorem summed_of_renderNeighborhood {target : Target} {text : Option Str}
    (rendered : renderNeighborhood pyStr known summaries target = .ok text) :
    summed summaries target = text.isSome ∧ text ≠ some [] := by
  unfold renderNeighborhood at rendered
  unfold summed
  split at rendered
  case h_1 missing =>
    cases rendered
    rw [missing]
    exact ⟨rfl, Option.some_ne_none _ |>.symm⟩
  case h_2 summary present =>
    obtain ⟨own, _, rendered⟩ := bind_eq_ok.mp rendered
    obtain ⟨callees, _, rendered⟩ := bind_eq_ok.mp rendered
    cases rendered
    rw [present]
    refine ⟨rfl, fun empty => ?_⟩
    have none := Option.some.inj empty
    rw [List.cons_append, List.cons_append, intercalate_cons _ (List.cons_ne_nil _ _)] at none
    exact List.cons_ne_nil _ _ (List.append_eq_nil_iff.mp none).2

/-- One function keeps the numberings in step. -/
theorem numbered_showTarget {seen : List Target} {shown next : ShownTargets} {target : Target}
    (numbered : Numbered (renderNumbered pyStr known summaries) (summed summaries) seen
      shown.rendered shown.kept)
    (step : showTarget pyStr known summaries shown target = .ok next) :
    Numbered (renderNumbered pyStr known summaries) (summed summaries) (seen ++ [target])
      next.rendered next.kept := by
  obtain ⟨text, rendered, rfl⟩ := map_eq_ok.mp step
  obtain ⟨visible, filled⟩ := summed_of_renderNeighborhood rendered
  cases text with
  | none => exact numbered.skip visible
  | some text =>
      have written : text.isEmpty = false := by
        rw [List.isEmpty_eq_false_iff]
        exact fun empty => filled (congrArg some empty)
      unfold ShownTargets.add
      dsimp only
      rw [written]
      apply numbered.push visible
      unfold renderNumbered
      rw [rendered]
      rfl

/-- A batch of neighbourhoods is numbered in its order. -/
theorem numbered_foldlM_showTarget {seen rest : List Target} {shown last : ShownTargets}
    (numbered : Numbered (renderNumbered pyStr known summaries) (summed summaries) seen
      shown.rendered shown.kept)
    (run : rest.foldlM (showTarget pyStr known summaries) shown = .ok last) :
    Numbered (renderNumbered pyStr known summaries) (summed summaries) (seen ++ rest)
      last.rendered last.kept := by
  induction rest generalizing seen shown with
  | nil =>
      cases run
      rwa [List.append_nil]
  | cons target rest ih =>
      obtain ⟨next, step, later⟩ := bind_eq_ok.mp run
      have whole := ih (numbered_showTarget numbered step) later
      rwa [List.append_assoc, List.singleton_append] at whole

/-- Attaching the verdicts of the targets gives their entries. -/
theorem map_attachTarget {items : List Target} {verdicts : List Json}
    {entries : List (Json × Target)} (goes : List.Forall₂ (GoesTo items) verdicts entries) :
    verdicts.map (attachTarget items) = entries.map fun entry => (entry.1, some entry.2) := by
  induction goes with
  | nil => rfl
  | @cons verdict entry _ _ here _ ih =>
      obtain ⟨rfl, index, named, found⟩ := here
      have inside : index < items.length := (List.getElem?_eq_some_iff.mp found).1
      rw [List.map_cons, List.map_cons, ih]
      unfold attachTarget
      dsimp only
      rw [named, Option.getD_some, if_pos ⟨Int.natCast_nonneg index, Int.ofNat_lt.mpr inside⟩,
        Int.toNat_natCast, found]

/-- A batch of neighbourhoods is judged right, and every verdict has its function. -/
theorem judge_spec {batch : List Target} {out : Outcome (Json × Option Target) Nat}
    (judged : judge pyStr known summaries client batch = .ok out) :
    ∃ entries, out.verdicts = entries.map (fun entry => (entry.1, some entry.2)) ∧
      JudgedRight (renderNumbered pyStr known summaries) (summed summaries) neighborhoodUsable
        neighborhoodRequest client batch out.results entries := by
  obtain ⟨shown, run, rfl⟩ := map_eq_ok.mp judged
  have numbered := numbered_foldlM_showTarget numbered_nil run
  rw [List.nil_append] at numbered
  by_cases empty : shown.rendered.isEmpty
  · rw [if_pos empty]
    exact ⟨[], rfl, judgedRight_of_unshown numbered empty⟩
  · rw [if_neg empty]
    cases asked : ask neighborhoodUsable (client (neighborhoodRequest shown.rendered))
        shown.rendered.length [1, 2] [] with
    | mk found results =>
        cases found with
        | none => exact ⟨[], rfl, judgedRight_of_unanswered numbered asked⟩
        | some verdicts =>
            obtain ⟨entries, goes, right⟩ := exists_judgedRight numbered asked
            exact ⟨entries, map_attachTarget goes, right⟩

/-- **Attachment.** In every batch that is judged, of paths or of neighbourhoods, every verdict
that is accepted goes to the item shown under its index, no item takes two, and none goes to an
item that was not shown; no index of an accepted verdict goes astray. -/
theorem verdicts_attached (pyStr : Json → Str) (known : Dict Str (List Str))
    (bodies : NodeId → Str) (summaries : Dict NodeId Json) (client : Str → Nat → LLMResult) :
    (∀ batch, judgeBatch pyStr known bodies summaries client batch ≠ .error .strayIndex ∧
      ∀ out, judgeBatch pyStr known bodies summaries client batch = .ok out →
        JudgedRight (renderPath pyStr known bodies summaries) (complete summaries) pathUsable
          pathRequest client batch out.results out.verdicts) ∧
    ∀ batch out, judge pyStr known summaries client batch = .ok out →
      ∃ entries, out.verdicts = entries.map (fun entry => (entry.1, some entry.2)) ∧
        JudgedRight (renderNumbered pyStr known summaries) (summed summaries) neighborhoodUsable
          neighborhoodRequest client batch out.results entries := by
  refine ⟨fun batch => ?_, fun batch out judged => judge_spec judged⟩
  rcases @judgeBatch_spec pyStr known bodies summaries client batch with
    ⟨fault, failed⟩ | ⟨out, judged, right, _⟩
  · rw [failed]
    refine ⟨fun stray => ?_, fun out judged => ?_⟩
    · cases stray
    · cases judged
  · rw [judged]
    refine ⟨fun stray => ?_, fun other same => ?_⟩
    · cases stray
    · cases same
      exact right

/-- A path of one frame below an acquiring function. -/
def lonePath (id : NodeId) : JudgedPath :=
  .leak
    { ids := [id]
      fqns := [id.val]
      acquireId := id
      acquireFqn := id.val
      acquireFile := []
      acquireLine := 0
      hops := 0 }

/-- The one verdict of an answer. -/
def firstVerdict : Json := .object [("path_index".toList, .int 0)]

/-- A model that always gives that verdict. -/
def firstClient (_ : Str) (_ : Nat) : LLMResult :=
  { ok := true, parsed := some [("verdicts".toList, .array [firstVerdict])] }

/-- Of two paths the first cannot be rendered: the verdict under index 0 is on the second. -/
theorem second_judged :
    ∃ out, judgeBatch (fun _ => []) .empty (fun _ => []) (Dict.empty.set sampleId (.object []))
        firstClient [lonePath ⟨"g".toList, List.cons_ne_nil _ _⟩, lonePath sampleId] = .ok out ∧
      out.verdicts = [(firstVerdict, lonePath sampleId)] ∧
      JudgedRight
        (renderPath (fun _ => []) .empty (fun _ => []) (Dict.empty.set sampleId (.object [])))
        (complete (Dict.empty.set sampleId (.object []))) pathUsable pathRequest firstClient
        [lonePath ⟨"g".toList, List.cons_ne_nil _ _⟩, lonePath sampleId] out.results
        out.verdicts := by
  refine ⟨_, rfl, rfl, ?_⟩
  have attached := verdicts_attached (fun _ => []) .empty (fun _ => [])
    (Dict.empty.set sampleId (.object [])) firstClient
  exact (attached.1 [lonePath ⟨"g".toList, List.cons_ne_nil _ _⟩, lonePath sampleId]).2 _ rfl

end Neighborhoods

end GraphIngest.Analysis
