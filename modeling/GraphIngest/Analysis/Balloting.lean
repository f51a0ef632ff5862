import GraphIngest.Analysis.Panel
import GraphIngest.Analysis.ReplyObject
import GraphIngest.Analysis.Verdicts
import GraphIngest.Foundation.KeyedLog
import Mathlib.Algebra.BigOperators.Group.List.Basic
import Mathlib.Algebra.Group.Prod
import Mathlib.Logic.Function.Basic

/-! # Balloting

The lenses are asked about every finding, all at once or each on its own, and the answers
come in any order. What is usable in them is counted on the finding it was asked about.
An answer that fails or is ill-formed counts for nothing, so that the panel of a finding
is as large as the verdicts that were collected on it.
-/

namespace GraphIngest.Analysis

open Foundation

section Answers

/-- A usable verdict of a lens, with its other members as they stand. -/
structure Ballot where
  lens : Str
  refuted : Bool
  confidence : Option Json
  reason : Option Json

/-- `_TAINT_LENSES`. -/
def taintLenses : List Str := ["attacker_control", "sanitization", "reachability"]

/-- `_LEAK_LENSES`. -/
def leakLenses : List Str := ["leak_control_flow", "resource_ownership", "reachability"]

/-- `_lenses_for`. -/
def lensesFor (finding : FindingRow) : List Str :=
  if finding.kind = "resource_leak".toList then leakLenses else taintLenses

/-- The ballot of an object that says whether it refutes. -/
def ballotOf (lens : Str) (members : List (Str × Json)) : Option Ballot :=
  match members.lookup "refuted".toList with
  | some (.bool refuted) =>
      some
        { lens := lens
          refuted := refuted
          confidence := members.lookup "confidence".toList
          reason := members.lookup "reason".toList }
  | _ => none

/-- `_vote`. -/
def vote (lens : Str) (res : LLMResult) : List Ballot :=
  if res.ok then (res.parsed.bind (ballotOf lens)).toList else []

/-- The lens an entry is counted under: by its position, and behind the last lens by the name it
gives itself. -/
def lensAt (pyStr : Json → Str) (lenses : List Str) (position : Nat) (members : List (Str × Json)) :
    Str :=
  match lenses[position]? with
  | some lens => lens
  | none =>
      match (members.lookup "lens".toList).filter Json.truthy with
      | some (.string name) => name
      | some value => pyStr value
      | none => "lens".toList ++ (toString position).toList

/-- The ballot of an entry at its position. -/
def entryBallot (pyStr : Json → Str) (lenses : List Str) (entry : Json × Nat) : Option Ballot :=
  match entry.1 with
  | .object members => ballotOf (lensAt pyStr lenses entry.2 members) members
  | _ => none

/-- The ballots of the entries of a combined answer. -/
def entryBallots (pyStr : Json → Str) (lenses : List Str) (entries : List Json) : List Ballot :=
  entries.zipIdx.filterMap (entryBallot pyStr lenses)

/-- What iterating over a value that has no items says. -/
def notIterable : Json → Str
  | .bool _ => "'bool' object is not iterable"
  | .int _ => "'int' object is not iterable"
  | _ => "'float' object is not iterable"

/-- `_vote_all`; the members of an object and the letters of a text are no verdicts. -/
def voteAll (pyStr : Json → Str) (lenses : List Str) (res : LLMResult) :
    Except Str (List Ballot) :=
  match if res.ok then res.parsed.bind (List.lookup "lenses".toList) else none with
  | some (.array entries) => .ok (entryBallots pyStr lenses entries)
  | some (.object _) => .ok []
  | some (.string _) => .ok []
  | some value => if value.truthy then .error (notIterable value) else .ok []
  | none => .ok []

end Answers

section Pass

/-- A finding that is handed in, with its identity. -/
structure Submitted where
  id : Nat
  row : FindingRow

/-- A request: about a finding, through one lens or through all of them. -/
structure Request where
  finding : Submitted
  lens : Option Str

/-- What a request returns or raises. -/
abbrev Answers : Type := Request → Except Str LLMResult

/-- The requests about a finding. -/
def requestsFor (single : Bool) (finding : Submitted) : List Request :=
  if single then [⟨finding, none⟩]
  else (lensesFor finding.row).map fun lens => ⟨finding, some lens⟩

/-- The ballots an answer comes to, unless it raises. -/
def castOf (pyStr : Json → Str) (answers : Answers) (request : Request) :
    Except Str (List Ballot × LLMResult) :=
  match answers request, request.lens with
  | .error message, _ => .error message
  | .ok res, some lens => .ok (vote lens res, res)
  | .ok res, none => (voteAll pyStr (lensesFor request.finding.row) res).map fun cast => (cast, res)

/-- What has been counted so far. -/
structure Tally where
  votes : Nat → List Ballot := fun _ => []
  votesCast : Nat := 0
  callsMade : Nat := 0
  inputTokens : Nat := 0
  outputTokens : Nat := 0
  errors : List Str := []

/-- Count an answer. -/
def count (pyStr : Json → Str) (answers : Answers) (tally : Tally) (request : Request) : Tally :=
  match castOf pyStr answers request with
  | .error message => { tally with errors := tally.errors ++ [message] }
  | .ok (cast, res) =>
      { tally with
        votes := Function.update tally.votes request.finding.id
          (tally.votes request.finding.id ++ cast)
        votesCast := tally.votesCast + cast.length
        callsMade := tally.callsMade + 1
        inputTokens := tally.inputTokens + res.inputTokens
        outputTokens := tally.outputTokens + res.outputTokens }

/-- A finding that has been ruled on, with the ballots that were counted on it. -/
structure Ruled where
  finding : Submitted
  ballots : List Ballot := []

/-- `PassDReport`. -/
structure PassDReport where
  findingsIn : Nat
  confirmed : Nat := 0
  killed : Nat := 0
  votesCast : Nat := 0
  callsMade : Nat := 0
  inputTokens : Nat := 0
  outputTokens : Nat := 0
  confirmedFindings : List Ruled := []
  killedFindings : List Ruled := []
  errors : List Str := []

/-- A ballot as it is noted, a member that is no text as if it were absent. -/
def Ballot.vote (ballot : Ballot) : Vote where
  lens := ballot.lens
  refuted := ballot.refuted
  confidence := textOf ballot.confidence
  reason := textOf ballot.reason

/-- The reason of a ballot can be joined with others: it is a text or absent. -/
def Ballot.textual (ballot : Ballot) : Bool :=
  match ballot.reason with
  | none | some (.string _) => true
  | _ => false

/-- The joining of reasons meets one that is no text. -/
structure JoinFault where
  finding : Nat
deriving DecidableEq

/-- Rule on a finding. -/
def ruleOn (killOnTie : Bool) (votes : Nat → List Ballot) (rep : PassDReport)
    (finding : Submitted) : Except JoinFault PassDReport :=
  let cast := votes finding.id
  if killedBy killOnTie (cast.map Ballot.vote) then
    if (cast.filter Ballot.refuted).all Ballot.textual then
      .ok
        { rep with
          killed := rep.killed + 1
          killedFindings := rep.killedFindings ++
            [⟨⟨finding.id, kill (cast.map Ballot.vote) finding.row⟩, cast⟩] }
    else .error ⟨finding.id⟩
  else
    .ok
      { rep with
        confirmed := rep.confirmed + 1
        confirmedFindings := rep.confirmedFindings ++
          [⟨⟨finding.id, confirm (cast.map Ballot.vote) finding.row⟩, cast⟩] }

/-- `run_adversarial_pass`, for the order in which the requests complete. -/
def runPass (pyStr : Json → Str) (killOnTie : Bool) (answers : Answers) (completed : List Request)
    (findings : List Submitted) : Except JoinFault PassDReport :=
  let live := findings.filter fun finding => !finding.row.dismissed
  let alreadyDismissed := findings.filter fun finding => finding.row.dismissed
  let rep : PassDReport :=
    { findingsIn := findings.length
      killed := alreadyDismissed.length
      killedFindings := alreadyDismissed.map fun finding => { finding := finding } }
  if live.isEmpty then .ok rep
  else
    let tally := completed.foldl (count pyStr answers) {}
    live.foldlM (ruleOn killOnTie tally.votes)
      { rep with
        votesCast := tally.votesCast
        callsMade := tally.callsMade
        inputTokens := tally.inputTokens
        outputTokens := tally.outputTokens
        errors := tally.errors }

end Pass

section Counting

variable (pyStr : Json → Str) (answers : Answers)

/-- The ballots an answer adds. -/
def castBallots (request : Request) : List Ballot :=
  match castOf pyStr answers request with
  | .ok (cast, _) => cast
  | .error _ => []

/-- The undismissed findings. -/
def liveOf (findings : List Submitted) : List Submitted :=
  findings.filter fun finding => !finding.row.dismissed

/-- The requests about some findings. -/
def requestsOf (single : Bool) (findings : List Submitted) : List Request :=
  (liveOf findings).flatMap (requestsFor single)

/-- The ballots that the answers about a finding come to. -/
def ballotsFor (single : Bool) (finding : Submitted) : List Ballot :=
  (requestsFor single finding).flatMap (castBallots pyStr answers)

variable {pyStr answers} {single : Bool} {completed : List Request} {findings : List Submitted}

/-- The ballots on a finding are those of its requests, as they complete. -/
theorem votes_foldl_count (tally : Tally) (id : Nat) :
    (completed.foldl (count pyStr answers) tally).votes id = tally.votes id ++
      (completed.filter fun request => request.finding.id = id).flatMap
        (castBallots pyStr answers) := by
  induction completed generalizing tally with
  | nil => exact (List.append_nil _).symm
  | cons request rest ih =>
      have counted : (count pyStr answers tally request).votes id = tally.votes id ++
          if request.finding.id = id then castBallots pyStr answers request else [] := by
        unfold count castBallots
        cases castOf pyStr answers request with
        | error message =>
            dsimp only
            rw [ite_self, List.append_nil]
        | ok cast =>
            dsimp only
            split
            case isTrue same =>
              subst same
              rw [Function.update_self]
            case isFalse other =>
              rw [Function.update_of_ne (Ne.symm other), List.append_nil]
      rw [List.foldl_cons, ih, counted, List.append_assoc, List.filter_cons]
      split
      case isTrue same => rw [if_pos (decide_eq_true same), List.flatMap_cons]
      case isFalse other =>
        rw [if_neg (by rwa [decide_eq_true_iff]), List.nil_append]

theorem finding_of_mem_requestsFor {finding : Submitted} {request : Request}
    (listed : request ∈ requestsFor single finding) : request.finding = finding := by
  unfold requestsFor at listed
  split at listed
  · rw [List.mem_singleton.mp listed]
  · obtain ⟨lens, _, rfl⟩ := List.mem_map.mp listed
    rfl

/-- The requests that concern one of several distinct findings are its own. -/
theorem filter_requestsOf (distinct : (findings.map Submitted.id).Nodup) {finding : Submitted}
    (listed : finding ∈ findings) (live : finding.row.dismissed = false) :
    (requestsOf single findings).filter (fun request => request.finding.id = finding.id) =
      requestsFor single finding := by
  have own : ∀ other : Submitted, (requestsFor single other).filter
      (fun request => request.finding.id = finding.id) =
        if other.id = finding.id then requestsFor single other else [] := by
    intro other
    split
    case isTrue same =>
      apply List.filter_eq_self.mpr
      intro request member
      rw [finding_of_mem_requestsFor member]
      exact decide_eq_true same
    case isFalse differ =>
      apply List.filter_eq_nil_iff.mpr
      intro request member concerned
      rw [finding_of_mem_requestsFor member] at concerned
      exact differ (of_decide_eq_true concerned)
  unfold requestsOf liveOf
  rw [List.filter_flatMap]
  simp only [own]
  induction findings with
  | nil => cases listed
  | cons first rest ih =>
      rw [List.map_cons, List.nodup_cons] at distinct
      have absent : ∀ other ∈ rest, other.id ≠ first.id := by
        intro other member same
        exact distinct.1 (same ▸ List.mem_map_of_mem member)
      cases List.mem_cons.mp listed with
      | inl same =>
          subst same
          have others : (rest.filter fun other => !other.row.dismissed).flatMap (fun other =>
              if other.id = finding.id then requestsFor single other else []) = [] := by
            apply List.flatMap_eq_nil_iff.mpr
            intro other member
            exact if_neg (absent other (List.mem_filter.mp member).1)
          rw [List.filter_cons_of_pos (by rw [live, Bool.not_false]), List.flatMap_cons, others,
            if_pos rfl, List.append_nil]
      | inr later =>
          have other : first.id ≠ finding.id := Ne.symm (absent finding later)
          rw [List.filter_cons]
          split
          · rw [List.flatMap_cons, if_neg other, List.nil_append, ih distinct.2 later]
          · exact ih distinct.2 later

variable (distinct : (findings.map Submitted.id).Nodup)
  (order : completed.Perm (requestsOf single findings)) {finding : Submitted}
  (listed : finding ∈ findings) (live : finding.row.dismissed = false)

include distinct order listed live in
/-- **Counting.** In whatever order the requests complete, what is counted on a finding are the
ballots that the answers about it come to. -/
theorem votes_perm :
    ((completed.foldl (count pyStr answers) {}).votes finding.id).Perm
      (ballotsFor pyStr answers single finding) := by
  rw [votes_foldl_count, List.nil_append, ballotsFor, ← filter_requestsOf distinct listed live]
  exact (order.filter _).flatMap_right _

include distinct order listed live in
/-- With one request a finding, its ballots are counted as the answer has them. -/
theorem votes_eq (alone : single = true) :
    (completed.foldl (count pyStr answers) {}).votes finding.id =
      ballotsFor pyStr answers single finding := by
  have own := (order.filter fun request => request.finding.id = finding.id).trans
    (List.Perm.of_eq (filter_requestsOf distinct listed live))
  rw [requestsFor, if_pos alone] at own
  rw [votes_foldl_count, List.nil_append, List.perm_singleton.mp own, ballotsFor, requestsFor,
    if_pos alone]

end Counting

section Lenses

variable {pyStr : Json → Str} {answers : Answers}

theorem lens_of_ballotOf {lens : Str} {members : List (Str × Json)} {ballot : Ballot}
    (usable : ballotOf lens members = some ballot) : ballot.lens = lens := by
  unfold ballotOf at usable
  split at usable
  · cases usable
    rfl
  · cases usable

/-- A separate answer gives its lens at most one ballot. -/
theorem lenses_vote (lens : Str) (res : LLMResult) :
    ((vote lens res).map Ballot.lens).Sublist [lens] := by
  unfold vote
  split
  · cases usable : res.parsed.bind (ballotOf lens) with
    | none => exact List.nil_sublist _
    | some ballot =>
        obtain ⟨members, _, made⟩ := Option.bind_eq_some_iff.mp usable
        rw [Option.toList_some, List.map_cons, List.map_nil, lens_of_ballotOf made]
  · exact List.nil_sublist _

/-- The entries of a combined answer. -/
def entriesOf (answer : Except Str LLMResult) : List Json :=
  match answer with
  | .ok res => itemsOf (if res.ok then res.parsed.bind (List.lookup "lenses".toList) else none)
  | .error _ => []

/-- The ballots of a combined answer are those of its entries. -/
theorem castBallots_none (finding : Submitted) :
    castBallots pyStr answers ⟨finding, none⟩ =
      entryBallots pyStr (lensesFor finding.row) (entriesOf (answers ⟨finding, none⟩)) := by
  unfold castBallots castOf
  cases answers ⟨finding, none⟩ with
  | error message => rfl
  | ok res =>
      dsimp only [entriesOf, voteAll]
      generalize (if res.ok then res.parsed.bind (List.lookup "lenses".toList) else none) = listed
      cases listed with
      | none => rfl
      | some value =>
          cases value with
          | array entries => rfl
          | object members => rfl
          | string text => rfl
          | _ =>
              dsimp only
              cases Json.truthy _ <;> rfl

/-- An entry at the place of a lens is counted under it. -/
theorem lens_of_entryBallot {lenses : List Str} {entry : Json} {position : Nat} {lens : Str}
    {ballot : Ballot} (placed : lenses[position]? = some lens)
    (usable : entryBallot pyStr lenses (entry, position) = some ballot) : ballot.lens = lens := by
  cases entry with
  | object members =>
      rw [lens_of_ballotOf usable, lensAt, placed]
  | _ => cases usable

/-- The entries at the places of the lenses give each lens at most one ballot. -/
theorem lenses_entryBallots {lenses : List Str} {entries : List Json} {offset : Nat}
    (within : offset + entries.length ≤ lenses.length) :
    (((entries.zipIdx offset).filterMap (entryBallot pyStr lenses)).map Ballot.lens).Sublist
      (lenses.drop offset) := by
  induction entries generalizing offset with
  | nil => exact List.nil_sublist _
  | cons entry rest ih =>
      rw [List.length_cons] at within
      have placed : offset < lenses.length := by omega
      have later := @ih (offset + 1) (by omega)
      rw [List.zipIdx_cons, List.filterMap_cons, List.drop_eq_getElem_cons placed]
      split
      case h_1 => exact later.cons _
      case h_2 ballot usable =>
        rw [List.map_cons, lens_of_entryBallot (List.getElem?_eq_getElem placed) usable]
        exact later.cons_cons _

/-- The entries behind the last lens, which are counted under the names they give themselves. -/
def extraEntries (answers : Answers) (single : Bool) (finding : Submitted) : Nat :=
  if single then
    (entriesOf (answers ⟨finding, none⟩)).length - (lensesFor finding.row).length
  else 0

/-- **One ballot a lens.** Apart from entries beyond the lens list, at most one ballot is counted
for each assigned lens. -/
theorem lenses_ballotsFor (single : Bool) (finding : Submitted) :
    ∃ front extra, ballotsFor pyStr answers single finding = front ++ extra ∧
      (front.map Ballot.lens).Sublist (lensesFor finding.row) ∧
        extra.length ≤ extraEntries answers single finding := by
  unfold ballotsFor requestsFor extraEntries
  cases single with
  | true =>
      rw [if_pos rfl, if_pos rfl, List.flatMap_cons, List.flatMap_nil, List.append_nil,
        castBallots_none, entryBallots]
      generalize entriesOf (answers ⟨finding, none⟩) = entries
      generalize lensesFor finding.row = lenses
      have split := List.take_append_drop lenses.length entries
      refine ⟨_, _, by rw [← split, List.zipIdx_append, List.filterMap_append], ?_, ?_⟩
      · have placed := @lenses_entryBallots pyStr lenses (entries.take lenses.length) 0
          (by rw [List.length_take]; omega)
        rwa [List.drop_zero] at placed
      · refine (List.length_filterMap_le _ _).trans ?_
        rw [List.length_zipIdx, List.length_drop]
  | false =>
      rw [if_neg Bool.false_ne_true, if_neg Bool.false_ne_true]
      refine ⟨_, [], (List.append_nil _).symm, ?_, Nat.le_refl 0⟩
      generalize lensesFor finding.row = lenses
      induction lenses with
      | nil => exact List.nil_sublist _
      | cons lens rest ih =>
          have cast : ((castBallots pyStr answers ⟨finding, some lens⟩).map Ballot.lens).Sublist
              [lens] := by
            unfold castBallots castOf
            cases answers ⟨finding, some lens⟩ with
            | error message => exact List.nil_sublist _
            | ok res => exact lenses_vote lens res
          rw [List.map_cons, List.flatMap_cons, List.map_append]
          exact cast.append ih

end Lenses

section Ruling

/-- What the ballots say for a finding: more of them let it stand than refute it, or as many where
a tie does not kill, or there are none. -/
def Survives (killOnTie : Bool) (cast : List Ballot) : Prop :=
  cast = [] ∨ cast.countP Ballot.refuted < cast.countP (fun ballot => !ballot.refuted) ∨
    killOnTie = false ∧ cast.countP Ballot.refuted = cast.countP fun ballot => !ballot.refuted

instance (killOnTie : Bool) (cast : List Ballot) : Decidable (Survives killOnTie cast) :=
  decidable_of_iff (cast.isEmpty = true ∨
    cast.countP Ballot.refuted < cast.countP (fun ballot => !ballot.refuted) ∨
      killOnTie = false ∧ cast.countP Ballot.refuted = cast.countP fun ballot => !ballot.refuted)
    (or_congr_left List.isEmpty_iff)

theorem killedBy_eq (killOnTie : Bool) (cast : List Ballot) :
    killedBy killOnTie (cast.map Ballot.vote) = !decide (Survives killOnTie cast) := by
  have refuting : refutes (cast.map Ballot.vote) = cast.countP Ballot.refuted := by
    rw [refutes, List.countP_map]
    rfl
  have total := List.length_eq_countP_add_countP Ballot.refuted (l := cast)
  have others : cast.countP (fun ballot => decide ¬ ballot.refuted = true) =
      cast.countP fun ballot => !ballot.refuted := by
    congr 1
    funext ballot
    cases ballot.refuted <;> rfl
  rw [others] at total
  rw [killedBy, refuting, List.length_map, List.isEmpty_map, Bool.eq_iff_iff, Bool.not_eq_true',
    decide_eq_false_iff_not, Survives, total]
  simp only [Bool.and_eq_true, Bool.or_eq_true, Bool.not_eq_true', decide_eq_true_eq,
    List.isEmpty_eq_false_iff]
  cases killOnTie with
  | true =>
      simp only [true_and, Bool.true_eq_false, false_and, or_false, not_or]
      exact and_congr_right fun _ => by omega
  | false =>
      simp only [Bool.false_eq_true, false_and, or_false, true_and, not_or]
      exact and_congr_right fun _ => by omega

/-- Survival does not depend on the order of the ballots. -/
theorem survives_of_perm {killOnTie : Bool} {cast other : List Ballot} (same : cast.Perm other) :
    Survives killOnTie cast ↔ Survives killOnTie other := by
  unfold Survives
  rw [same.countP_eq, same.countP_eq, ← List.length_eq_zero_iff, ← List.length_eq_zero_iff,
    same.length_eq]

/-- A finding that stands, and one that falls. -/
def standing (votes : Nat → List Ballot) (finding : Submitted) : Ruled :=
  ⟨⟨finding.id, confirm ((votes finding.id).map Ballot.vote) finding.row⟩, votes finding.id⟩

def falling (votes : Nat → List Ballot) (finding : Submitted) : Ruled :=
  ⟨⟨finding.id, kill ((votes finding.id).map Ballot.vote) finding.row⟩, votes finding.id⟩

/-- Where every reason that refutes is a text, a finding stands or falls by its ballots. -/
theorem ruleOn_eq {killOnTie : Bool} {votes : Nat → List Ballot} {finding : Submitted}
    (textual : ∀ ballot ∈ votes finding.id, ballot.refuted → ballot.textual)
    (rep : PassDReport) :
    ruleOn killOnTie votes rep finding = .ok
      (if Survives killOnTie (votes finding.id) then
        { rep with
          confirmed := rep.confirmed + 1
          confirmedFindings := rep.confirmedFindings ++ [standing votes finding] }
      else
        { rep with
          killed := rep.killed + 1
          killedFindings := rep.killedFindings ++ [falling votes finding] }) := by
  unfold ruleOn
  dsimp only
  rw [killedBy_eq]
  by_cases stands : Survives killOnTie (votes finding.id)
  · rw [decide_eq_true stands, if_pos stands]
    rfl
  · have joined : ((votes finding.id).filter Ballot.refuted).all Ballot.textual := by
      rw [List.all_eq_true]
      intro ballot member
      obtain ⟨counted, refutes⟩ := List.mem_filter.mp member
      exact textual ballot counted refutes
    rw [decide_eq_false stands, if_neg stands, if_pos Bool.not_false, if_pos joined]
    rfl

/-- Where every reason that refutes is a text, the findings are ruled on one after another. -/
theorem foldlM_ruleOn {killOnTie : Bool} {votes : Nat → List Ballot} {live : List Submitted}
    (textual : ∀ finding ∈ live, ∀ ballot ∈ votes finding.id,
      ballot.refuted → ballot.textual) (rep : PassDReport) :
    live.foldlM (ruleOn killOnTie votes) rep = .ok
      { rep with
        confirmed := rep.confirmed +
          (live.filter fun finding => Survives killOnTie (votes finding.id)).length
        killed := rep.killed +
          (live.filter fun finding => ¬ Survives killOnTie (votes finding.id)).length
        confirmedFindings := rep.confirmedFindings ++
          (live.filter fun finding => Survives killOnTie (votes finding.id)).map (standing votes)
        killedFindings := rep.killedFindings ++
          (live.filter fun finding => ¬ Survives killOnTie (votes finding.id)).map
            (falling votes) } := by
  induction live generalizing rep with
  | nil =>
      rw [List.foldlM_nil]
      simp only [List.filter_nil, List.length_nil, Nat.add_zero, List.map_nil, List.append_nil]
      rfl
  | cons finding rest ih =>
      rw [List.forall_mem_cons] at textual
      rw [List.foldlM_cons, ruleOn_eq textual.1]
      refine (ih textual.2 _).trans ?_
      simp only [List.filter_cons, decide_not]
      by_cases stands : Survives killOnTie (votes finding.id)
      · simp only [stands, decide_true, Bool.not_true, Bool.false_eq_true, ↓reduceIte,
          List.length_cons, List.map_cons, List.append_assoc, List.singleton_append,
          Nat.add_assoc, Nat.add_comm 1]
      · simp only [stands, decide_false, Bool.not_false, Bool.false_eq_true, ↓reduceIte,
          List.length_cons, List.map_cons, List.append_assoc, List.singleton_append,
          Nat.add_assoc, Nat.add_comm 1]

end Ruling

section Report

variable (pyStr : Json → Str) (killOnTie : Bool) (answers : Answers)

/-- What a request adds to the figures: ballots, calls, and tokens in and out. -/
def figureOf (request : Request) : Nat × Nat × Nat × Nat :=
  match castOf pyStr answers request with
  | .ok (cast, res) => (cast.length, 1, res.inputTokens, res.outputTokens)
  | .error _ => 0

/-- The message of a request that raises. -/
def errorOf (request : Request) : Option Str :=
  match castOf pyStr answers request with
  | .ok _ => none
  | .error message => some message

def Tally.figures (tally : Tally) : Nat × Nat × Nat × Nat :=
  (tally.votesCast, tally.callsMade, tally.inputTokens, tally.outputTokens)

def PassDReport.figures (rep : PassDReport) : Nat × Nat × Nat × Nat :=
  (rep.votesCast, rep.callsMade, rep.inputTokens, rep.outputTokens)

theorem figures_foldl_count (completed : List Request) (tally : Tally) :
    (completed.foldl (count pyStr answers) tally).figures =
      tally.figures + (completed.map (figureOf pyStr answers)).sum := by
  induction completed generalizing tally with
  | nil => exact (add_zero _).symm
  | cons request rest ih =>
      have counted : (count pyStr answers tally request).figures =
          tally.figures + figureOf pyStr answers request := by
        unfold count figureOf
        cases castOf pyStr answers request with
        | error message => exact (add_zero _).symm
        | ok cast => rfl
      rw [List.foldl_cons, ih, counted, List.map_cons, List.sum_cons, add_assoc]

theorem errors_foldl_count (completed : List Request) (tally : Tally) :
    (completed.foldl (count pyStr answers) tally).errors =
      tally.errors ++ completed.filterMap (errorOf pyStr answers) := by
  rw [List.filterMap_eq_flatMap_toList]
  apply foldl_gathers Tally.errors
  intro tally request
  unfold count errorOf
  cases castOf pyStr answers request with
  | error message => rfl
  | ok cast => exact (List.append_nil _).symm

variable (findings : List Submitted) (completed : List Request)

/-- The report of a pass that comes to its end. -/
def passReport : PassDReport :=
  let tally := completed.foldl (count pyStr answers) {}
  let votes := tally.votes
  let dismissed := findings.filter fun finding => finding.row.dismissed
  { findingsIn := findings.length
    confirmed :=
      ((liveOf findings).filter fun finding => Survives killOnTie (votes finding.id)).length
    killed := dismissed.length +
      ((liveOf findings).filter fun finding => ¬ Survives killOnTie (votes finding.id)).length
    votesCast := tally.votesCast
    callsMade := tally.callsMade
    inputTokens := tally.inputTokens
    outputTokens := tally.outputTokens
    confirmedFindings :=
      ((liveOf findings).filter fun finding => Survives killOnTie (votes finding.id)).map
        (standing votes)
    killedFindings := dismissed.map (fun finding => { finding := finding }) ++
      ((liveOf findings).filter fun finding => ¬ Survives killOnTie (votes finding.id)).map
        (falling votes)
    errors := tally.errors }

variable {pyStr killOnTie answers findings completed} {single : Bool}

/-- Every reason that a ballot refutes for is a text or absent. -/
def Textual (pyStr : Json → Str) (answers : Answers) (single : Bool)
    (findings : List Submitted) : Prop :=
  ∀ request ∈ requestsOf single findings, ∀ ballot ∈ castBallots pyStr answers request,
    ballot.refuted → ballot.textual

/-- **The pass.** It comes to its end when the reasons that refute are texts. -/
theorem runPass_eq (distinct : (findings.map Submitted.id).Nodup)
    (order : completed.Perm (requestsOf single findings))
    (textual : Textual pyStr answers single findings) :
    runPass pyStr killOnTie answers completed findings =
      .ok (passReport pyStr killOnTie answers findings completed) := by
  have texts : ∀ finding ∈ liveOf findings,
      ∀ ballot ∈ (completed.foldl (count pyStr answers) {}).votes finding.id,
        ballot.refuted → ballot.textual := by
    intro finding member ballot counted
    obtain ⟨listed, live⟩ := List.mem_filter.mp member
    rw [Bool.not_eq_true'] at live
    have own := (votes_perm distinct order listed live).mem_iff.mp counted
    obtain ⟨request, asked, cast⟩ := List.mem_flatMap.mp own
    exact textual request (List.mem_flatMap.mpr ⟨finding, member, asked⟩) ballot cast
  unfold runPass
  dsimp only
  split
  case isTrue none =>
    have nothing : liveOf findings = [] := List.isEmpty_iff.mp none
    have noRequests : completed = [] := by
      apply List.perm_nil.mp
      refine order.trans (List.Perm.of_eq ?_)
      rw [requestsOf, nothing, List.flatMap_nil]
    rw [passReport, nothing, noRequests]
    simp only [List.foldl_nil, List.filter_nil, List.length_nil, List.map_nil, List.append_nil,
      Nat.add_zero]
  case isFalse =>
    refine (foldlM_ruleOn texts _).trans ?_
    simp only [Nat.zero_add, List.nil_append]
    rfl

/-- **Refinement of the panel.** Where the votes on a row are the ballots counted on it, the pass
confirms and kills the rows that the panel confirms and kills. -/
theorem passReport_rows {votes : FindingRow → List Vote}
    (read : ∀ finding ∈ findings, votes finding.row =
      ((completed.foldl (count pyStr answers) {}).votes finding.id).map Ballot.vote) :
    (passReport pyStr killOnTie answers findings completed).confirmedFindings.map
        (fun ruled => ruled.finding.row) =
      (runAdversarialPass votes killOnTie (findings.map Submitted.row)).confirmed ∧
    (passReport pyStr killOnTie answers findings completed).killedFindings.map
        (fun ruled => ruled.finding.row) =
      (runAdversarialPass votes killOnTie (findings.map Submitted.row)).killed := by
  unfold passReport runAdversarialPass liveOf
  dsimp only
  generalize (completed.foldl (count pyStr answers) {}).votes = counted at read ⊢
  have readLive : ∀ finding ∈ findings.filter fun finding => !finding.row.dismissed,
      votes finding.row = (counted finding.id).map Ballot.vote :=
    fun finding member => read finding (List.mem_of_mem_filter member)
  simp only [List.filter_map, List.map_map, List.map_append, Function.comp_def]
  generalize (findings.filter fun finding => !finding.row.dismissed) = live at readLive ⊢
  have stands : live.filter (fun finding => !killedBy killOnTie (votes finding.row)) =
      live.filter fun finding => Survives killOnTie (counted finding.id) :=
    List.filter_congr fun finding member => by
      rw [readLive finding member, killedBy_eq, Bool.not_not]
  have falls : live.filter (fun finding => killedBy killOnTie (votes finding.row)) =
      live.filter fun finding => ¬ Survives killOnTie (counted finding.id) :=
    List.filter_congr fun finding member => by
      rw [readLive finding member, killedBy_eq, decide_not]
  rw [stands, falls]
  refine ⟨List.map_congr_left fun finding kept => ?_,
    congrArg _ (List.map_congr_left fun finding kept => ?_)⟩
  · rw [readLive finding (List.mem_of_mem_filter kept)]
    rfl
  · rw [readLive finding (List.mem_of_mem_filter kept)]
    rfl

variable {other : List Request}

/-- Two reports that differ at most in the order of what was noted: of the errors, and of the
ballots on a finding, which are in one order when the lenses are asked all at once. -/
structure SameOutcome (single : Bool) (rep repToo : PassDReport) : Prop where
  confirmed : rep.confirmedFindings.map (fun ruled => ruled.finding.id) =
    repToo.confirmedFindings.map fun ruled => ruled.finding.id
  killed : rep.killedFindings.map (fun ruled => ruled.finding.id) =
    repToo.killedFindings.map fun ruled => ruled.finding.id
  counts : (rep.findingsIn, rep.confirmed, rep.killed) =
    (repToo.findingsIn, repToo.confirmed, repToo.killed)
  figures : rep.figures = repToo.figures
  errors : rep.errors.Perm repToo.errors
  ruled : single = true → rep.confirmedFindings = repToo.confirmedFindings ∧
    rep.killedFindings = repToo.killedFindings

theorem survives_votes_iff (distinct : (findings.map Submitted.id).Nodup)
    (order : completed.Perm (requestsOf single findings)) {finding : Submitted}
    (member : finding ∈ liveOf findings) :
    Survives killOnTie ((completed.foldl (count pyStr answers) {}).votes finding.id) ↔
      Survives killOnTie (ballotsFor pyStr answers single finding) := by
  obtain ⟨listed, live⟩ := List.mem_filter.mp member
  rw [Bool.not_eq_true'] at live
  exact survives_of_perm (votes_perm distinct order listed live)

/-- Who stands and who falls, without regard to the order. -/
theorem ids_passReport (distinct : (findings.map Submitted.id).Nodup)
    (order : completed.Perm (requestsOf single findings)) :
    (passReport pyStr killOnTie answers findings completed).confirmedFindings.map
        (fun ruled => ruled.finding.id) =
      ((liveOf findings).filter fun finding =>
        Survives killOnTie (ballotsFor pyStr answers single finding)).map Submitted.id ∧
    (passReport pyStr killOnTie answers findings completed).killedFindings.map
        (fun ruled => ruled.finding.id) =
      (findings.filter fun finding => finding.row.dismissed).map Submitted.id ++
        ((liveOf findings).filter fun finding =>
          ¬ Survives killOnTie (ballotsFor pyStr answers single finding)).map Submitted.id := by
  have stands : (liveOf findings).filter (fun finding =>
      Survives killOnTie ((completed.foldl (count pyStr answers) {}).votes finding.id)) =
      (liveOf findings).filter fun finding =>
        Survives killOnTie (ballotsFor pyStr answers single finding) :=
    List.filter_congr fun finding member =>
      decide_eq_decide.mpr (survives_votes_iff distinct order member)
  have falls : (liveOf findings).filter (fun finding =>
      ¬ Survives killOnTie ((completed.foldl (count pyStr answers) {}).votes finding.id)) =
      (liveOf findings).filter fun finding =>
        ¬ Survives killOnTie (ballotsFor pyStr answers single finding) :=
    List.filter_congr fun finding member =>
      decide_eq_decide.mpr (not_congr (survives_votes_iff distinct order member))
  unfold passReport
  dsimp only
  rw [stands, falls, List.map_map, List.map_append, List.map_map, List.map_map]
  exact ⟨rfl, rfl⟩

/-- What is noted on an undismissed finding are its ballots, and it stands or falls by them: the
reasons for its dismissal are theirs. -/
theorem ballots_of_ruled (distinct : (findings.map Submitted.id).Nodup)
    (order : completed.Perm (requestsOf single findings)) {finding : Submitted}
    (listed : finding ∈ findings) (live : finding.row.dismissed = false) {ruled : Ruled}
    (member : ruled ∈ (passReport pyStr killOnTie answers findings completed).confirmedFindings ++
      (passReport pyStr killOnTie answers findings completed).killedFindings)
    (named : ruled.finding.id = finding.id) :
    ruled.ballots.Perm (ballotsFor pyStr answers single finding) ∧
      ruled.finding.row.adjudication =
        some (adjudicationOf (ruled.ballots.map Ballot.vote)) ∧
      (ruled.finding.row = confirm (ruled.ballots.map Ballot.vote) finding.row ∨
        ruled.finding.row = kill (ruled.ballots.map Ballot.vote) finding.row) := by
  have own : ∀ found ∈ findings, found.id = finding.id → found = finding := fun found member =>
    List.inj_on_of_nodup_map distinct member listed
  have noted : ruled.ballots = (completed.foldl (count pyStr answers) {}).votes ruled.finding.id ∧
      ruled.finding.row.adjudication = some (adjudicationOf (ruled.ballots.map Ballot.vote)) ∧
      (ruled.finding.row = confirm (ruled.ballots.map Ballot.vote) finding.row ∨
        ruled.finding.row = kill (ruled.ballots.map Ballot.vote) finding.row) := by
    rw [List.mem_append] at member
    cases member with
    | inl stands =>
        obtain ⟨found, kept, rfl⟩ := List.mem_map.mp stands
        obtain rfl := own found (List.mem_filter.mp (List.mem_filter.mp kept).1).1 named
        exact ⟨rfl, rfl, Or.inl rfl⟩
    | inr falls =>
        cases List.mem_append.mp falls with
        | inr killed =>
            obtain ⟨found, kept, rfl⟩ := List.mem_map.mp killed
            obtain rfl := own found (List.mem_filter.mp (List.mem_filter.mp kept).1).1 named
            exact ⟨rfl, rfl, Or.inr rfl⟩
        | inl before =>
            obtain ⟨found, kept, rfl⟩ := List.mem_map.mp before
            obtain ⟨foundListed, gone⟩ := List.mem_filter.mp kept
            rw [own found foundListed named, live] at gone
            cases gone
  rw [named] at noted
  exact ⟨noted.1 ▸ votes_perm distinct order listed live, noted.2⟩

/-- With the lenses asked all at once the ballots are in one order. -/
theorem votes_order (distinct : (findings.map Submitted.id).Nodup)
    (order : completed.Perm (requestsOf true findings))
    (orderToo : other.Perm (requestsOf true findings)) {finding : Submitted}
    (member : finding ∈ liveOf findings) :
    (completed.foldl (count pyStr answers) {}).votes finding.id =
      (other.foldl (count pyStr answers) {}).votes finding.id := by
  obtain ⟨listed, live⟩ := List.mem_filter.mp member
  rw [Bool.not_eq_true'] at live
  rw [votes_eq distinct order listed live rfl, votes_eq distinct orderToo listed live rfl]

/-- The order of completion makes no difference but to the order of what is noted. -/
theorem sameOutcome (distinct : (findings.map Submitted.id).Nodup)
    (order : completed.Perm (requestsOf single findings))
    (orderToo : other.Perm (requestsOf single findings)) :
    SameOutcome single (passReport pyStr killOnTie answers findings completed)
      (passReport pyStr killOnTie answers findings other) := by
  have ids := @ids_passReport pyStr killOnTie answers _ _ _ distinct order
  have idsToo := @ids_passReport pyStr killOnTie answers _ _ _ distinct orderToo
  have both : completed.Perm other := order.trans orderToo.symm
  refine ⟨ids.1.trans idsToo.1.symm, ids.2.trans idsToo.2.symm, ?_, ?_, ?_, fun alone => ?_⟩
  · have confirmed := congrArg List.length (ids.1.trans idsToo.1.symm)
    have killed := congrArg List.length (ids.2.trans idsToo.2.symm)
    unfold passReport at confirmed killed ⊢
    simp only [List.length_map, List.length_append] at confirmed killed ⊢
    rw [confirmed, killed]
  · have figures : ∀ completed : List Request,
        (passReport pyStr killOnTie answers findings completed).figures =
          (completed.foldl (count pyStr answers) {}).figures := fun _ => rfl
    rw [figures, figures, figures_foldl_count, figures_foldl_count,
      (both.map (figureOf pyStr answers)).sum_eq]
  · have errors : ∀ completed : List Request,
        (passReport pyStr killOnTie answers findings completed).errors =
          (completed.foldl (count pyStr answers) {}).errors := fun _ => rfl
    rw [errors, errors, errors_foldl_count, errors_foldl_count]
    exact (both.filterMap _).append_left _
  · subst alone
    have votes : ∀ finding ∈ liveOf findings,
        (completed.foldl (count pyStr answers) {}).votes finding.id =
          (other.foldl (count pyStr answers) {}).votes finding.id :=
      fun _ member => votes_order distinct order orderToo member
    unfold passReport
    dsimp only
    generalize (completed.foldl (count pyStr answers) {}).votes = first at votes ⊢
    generalize (other.foldl (count pyStr answers) {}).votes = second at votes ⊢
    have stands : (liveOf findings).filter (fun finding => Survives killOnTie (first finding.id)) =
        (liveOf findings).filter fun finding => Survives killOnTie (second finding.id) :=
      List.filter_congr fun finding member => by rw [votes finding member]
    have falls : (liveOf findings).filter (fun finding => ¬ Survives killOnTie (first finding.id)) =
        (liveOf findings).filter fun finding => ¬ Survives killOnTie (second finding.id) :=
      List.filter_congr fun finding member => by rw [votes finding member]
    rw [stands, falls]
    refine ⟨List.map_congr_left fun finding kept => ?_,
      congrArg _ (List.map_congr_left fun finding kept => ?_)⟩
    · rw [standing, standing, votes finding (List.mem_of_mem_filter kept)]
    · rw [falling, falling, votes finding (List.mem_of_mem_filter kept)]

/-- **Adversarial panel.** Every distinct finding ends once, confirmed or killed. An undismissed
one is confirmed exactly when its ballots let it survive, which are at most one for each assigned
lens but for entries beyond the lens list, and which are noted on it. The order in which the
requests complete does not matter. -/
theorem runPass_outcome (distinct : (findings.map Submitted.id).Nodup)
    (order : completed.Perm (requestsOf single findings))
    (textual : Textual pyStr answers single findings) :
    ∃ rep, runPass pyStr killOnTie answers completed findings = .ok rep ∧
      ((rep.confirmedFindings ++ rep.killedFindings).map fun ruled => ruled.finding.id).Perm
        (findings.map Submitted.id) ∧
      (∀ finding ∈ findings, finding.row.dismissed = false →
        (finding.id ∈ rep.confirmedFindings.map (fun ruled => ruled.finding.id) ↔
          Survives killOnTie (ballotsFor pyStr answers single finding)) ∧
        (∀ ruled ∈ rep.confirmedFindings ++ rep.killedFindings, ruled.finding.id = finding.id →
          ruled.ballots.Perm (ballotsFor pyStr answers single finding) ∧
            ruled.finding.row.adjudication =
              some (adjudicationOf (ruled.ballots.map Ballot.vote)) ∧
            (ruled.finding.row = confirm (ruled.ballots.map Ballot.vote) finding.row ∨
              ruled.finding.row = kill (ruled.ballots.map Ballot.vote) finding.row)) ∧
        ∃ front extra, ballotsFor pyStr answers single finding = front ++ extra ∧
          (front.map Ballot.lens).Sublist (lensesFor finding.row) ∧
            extra.length ≤ extraEntries answers single finding) ∧
      ∀ other : List Request, other.Perm (requestsOf single findings) →
        ∃ repToo, runPass pyStr killOnTie answers other findings = .ok repToo ∧
          SameOutcome single rep repToo := by
  have ids := @ids_passReport pyStr killOnTie answers _ _ _ distinct order
  refine ⟨_, runPass_eq distinct order textual, ?_, fun finding listed live => ⟨?_,
    fun ruled => ballots_of_ruled distinct order listed live, lenses_ballotsFor single finding⟩,
    fun other orderToo => ⟨_, runPass_eq distinct orderToo textual,
      sameOutcome distinct order orderToo⟩⟩
  · rw [List.map_append, ids.1, ids.2]
    have ruled := (List.filter_append_perm
      (fun finding => decide (Survives killOnTie (ballotsFor pyStr answers single finding)))
      (liveOf findings)).map Submitted.id
    have all := (List.filter_append_perm (fun finding : Submitted => !finding.row.dismissed)
      findings).map Submitted.id
    simp only [List.map_append, Bool.not_not] at ruled all
    simp only [decide_not]
    refine (List.perm_append_comm.append_left _).trans ?_
    rw [← List.append_assoc]
    exact (ruled.append_right _).trans all
  · rw [ids.1, List.mem_map]
    constructor
    · intro stands
      obtain ⟨found, kept, named⟩ := stands
      obtain ⟨foundLive, survives⟩ := List.mem_filter.mp kept
      have same := List.inj_on_of_nodup_map distinct (List.mem_filter.mp foundLive).1 listed named
      rw [← same]
      exact of_decide_eq_true survives
    · intro survives
      refine ⟨finding, List.mem_filter.mpr ⟨List.mem_filter.mpr ⟨listed, ?_⟩, ?_⟩, rfl⟩
      · rw [live, Bool.not_false]
      · exact decide_eq_true survives

end Report

section Sample

/-- A finding on a path into a page. -/
def sampleFinding : Submitted where
  id := 0
  row := { kind := "xss", severity := "high" }

/-- A verdict. -/
def sampleVerdict (refuted : Bool) : List (Str × Json) :=
  [("refuted", .bool refuted), ("confidence", .string "high"), ("reason", .string "r")]

/-- One lens refutes. -/
def splitAnswers : Answers := fun request =>
  .ok
    { ok := true
      parsed := some (sampleVerdict (request.lens = some "reachability".toList)) }

/-- Two lenses out of three keep the finding, whichever of them answers first. -/
theorem split_confirms :
    ∃ rep, runPass (fun _ => []) true splitAnswers (requestsOf false [sampleFinding]).reverse
        [sampleFinding] = .ok rep ∧
      sampleFinding.id ∈ rep.confirmedFindings.map fun ruled => ruled.finding.id := by
  have textual : Textual (fun _ => []) splitAnswers false [sampleFinding] := by
    unfold Textual
    decide +kernel
  have distinct : ([sampleFinding].map Submitted.id).Nodup := List.nodup_singleton _
  obtain ⟨rep, ran, _, rules, _⟩ := @runPass_outcome (fun _ => []) true splitAnswers _ _ false
    distinct (List.reverse_perm _) textual
  exact ⟨rep, ran, (rules sampleFinding List.mem_cons_self rfl).1.mpr (by decide +kernel)⟩

/-- A combined answer with one entry. -/
def loneAnswers : Answers := fun _ =>
  .ok { ok := true, parsed := some [("lenses", .array [.object (sampleVerdict false)])] }

/-- One verdict that lets it stand confirms a finding that three lenses were to look at. -/
theorem lone_verdict_confirms :
    ¬ ∀ (answers : Answers) (findings : List Submitted) (rep : PassDReport),
      runPass (fun _ => []) true answers (requestsOf true findings) findings = .ok rep →
        ∀ finding ∈ findings, finding.row.dismissed = false →
          (finding.id ∈ rep.confirmedFindings.map (fun ruled => ruled.finding.id) ↔
            (lensesFor finding.row).length < 2 *
                (ballotsFor (fun _ => []) answers true finding).countP
                  (fun ballot => !ballot.refuted) ∨
              ballotsFor (fun _ => []) answers true finding = []) := by
  intro assigned
  have textual : Textual (fun _ => []) loneAnswers true [sampleFinding] := by
    unfold Textual
    decide +kernel
  have distinct : ([sampleFinding].map Submitted.id).Nodup := List.nodup_singleton _
  have ran := @runPass_eq (fun _ => []) true loneAnswers _ _ true distinct (.refl _) textual
  have confirmed : sampleFinding.id ∈ (passReport (fun _ => []) true loneAnswers [sampleFinding]
      (requestsOf true [sampleFinding])).confirmedFindings.map fun ruled => ruled.finding.id := by
    decide +kernel
  have majority := (assigned loneAnswers _ _ ran sampleFinding List.mem_cons_self rfl).mp confirmed
  cases majority with
  | inl most => exact absurd most (by decide +kernel)
  | inr none => exact absurd (congrArg List.length none) (by decide +kernel)

end Sample

end GraphIngest.Analysis
