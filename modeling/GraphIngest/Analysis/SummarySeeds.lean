import GraphIngest.Analysis.Reach
import GraphIngest.Analysis.Rescoring
import GraphIngest.Foundation.WrittenWords

/-! # Seeds read off summaries

A summary is stored as text. The second seeds of the backward marks are the functions whose
stored text holds the name of a sink in quotation marks, whatever it stands for in the summary;
what is meant is that the summary names it among the things that the function touches.
-/

namespace GraphIngest.Analysis

open Foundation Graph External

section Storing

/-- A summary to be stored, with the hash of the body it was made of. -/
structure SummaryRow where
  id : NodeId
  summary : Json
  bodyHash : Str

namespace ScoredGraph

/-- `SET f.summary_json = row.summary, f.summary_hash = row.hash` and `SET f += row.sig`. -/
def setSummary (graph : ScoredGraph) (entry : SummaryRow × Signals) : ScoredGraph :=
  if (graph.store.nodes.get? entry.1.id).isSome then
    let scored := graph.setSignals (entry.1.id, entry.2)
    { scored with
      reading := fun id =>
        if id = entry.1.id then
          { scored.reading id with
            summaryJson := some entry.1.summary.dumps
            summaryHash := some entry.1.bodyHash }
        else scored.reading id }
  else graph

variable (pyStr : Json → Str) (sortNumbers : List Json → List Json)

/-- `write_summaries`: the graph, and the number of summaries. -/
def writeSummaries (graph : ScoredGraph) (rows : List SummaryRow) :
    Except Fault (ScoredGraph × Nat) :=
  (rows.mapM fun row => (deriveSignals pyStr sortNumbers row.summary).map fun sig => (row, sig)).map
    fun payload => (payload.foldl setSummary graph, payload.length)

/-- Every stored summary is a written value. -/
def Serialized (graph : ScoredGraph) : Prop :=
  ∀ id json, (graph.reading id).summaryJson = some json →
    ∃ summary : Json, summary.PlainNumbers ∧ json = summary.dumps

variable {pyStr sortNumbers}

theorem summaryJson_setSignals (graph : ScoredGraph) (entry : NodeId × Signals) (id : NodeId) :
    ((graph.setSignals entry).reading id).summaryJson = (graph.reading id).summaryJson := by
  unfold setSignals
  dsimp only
  split <;> rfl

theorem Serialized.setSummary {graph : ScoredGraph} (serialized : graph.Serialized)
    {entry : SummaryRow × Signals} (plain : entry.1.summary.PlainNumbers) :
    (graph.setSummary entry).Serialized := by
  intro id json held
  unfold ScoredGraph.setSummary at held
  split at held
  case isTrue =>
    dsimp only at held
    split at held
    case isTrue => exact ⟨entry.1.summary, plain, (Option.some.inj held).symm⟩
    case isFalse =>
      rw [summaryJson_setSignals] at held
      exact serialized id json held
  case isFalse => exact serialized id json held

/-- Storing summaries keeps all of them written values. -/
theorem Serialized.writeSummaries {graph : ScoredGraph} (serialized : graph.Serialized)
    {rows : List SummaryRow} (plain : ∀ row ∈ rows, row.summary.PlainNumbers)
    {out : ScoredGraph × Nat}
    (stored : graph.writeSummaries pyStr sortNumbers rows = .ok out) : out.1.Serialized := by
  unfold ScoredGraph.writeSummaries at stored
  obtain ⟨payload, made, rfl⟩ := map_eq_ok.mp stored
  have each := forall₂_of_mapM made
  clear made stored
  induction each generalizing graph with
  | nil => exact serialized
  | @cons row entry rows payload here _ ih =>
      obtain ⟨first, later⟩ := List.forall_mem_cons.mp plain
      obtain ⟨sig, _, rfl⟩ := map_eq_ok.mp here
      exact ih (serialized.setSummary first) later

end ScoredGraph

end Storing

section Seeding

/-- Whether a summary names a sink among the things that the function touches. -/
def TouchesSink (summary : Json) : Prop :=
  ∃ items, summary.get? "touches".toList = some (.array items) ∧
    ∃ sink ∈ summarySinks, .string sink ∈ items

/-- Whether a string is the name of a sink, or ends in a quotation mark and one. -/
def EndsInSink (text : Str) : Prop :=
  ∃ sink ∈ summarySinks, Json.quote :: sink <:+ Json.quote :: text

namespace CodeGraph

/-- A function with a fresh summary that no other seed has marked. -/
structure OnlySummary (graph : CodeGraph) (kinds : List ExternalKind) (marks : Marks)
    (id : NodeId) (summary : Json) : Prop where
  own : graph.isOwn id = true
  stored : (graph.reading id).summaryJson = some summary.dumps
  fresh : (graph.reading id).summaryHash.isSome = true ∧
    (graph.reading id).summaryHash = (graph.reading id).bodyHash
  unmarked : id ∉ marks.reachesSink
  uncalled : graph.callKinds kinds id = []
  uncatalogued : graph.catalogKinds id = []

variable {graph : CodeGraph} {kinds : List ExternalKind} {marks : Marks} {id : NodeId}
  {summary : Json}

/-- A name of a sink is written as itself. -/
theorem plain_of_sink {sink : Str} (listed : sink ∈ summarySinks) :
    ∀ letter ∈ sink, Json.Plain letter := by
  have all : (summarySinks.all fun sink => sink.all fun letter =>
      decide (Json.escape letter = [letter]) && decide (letter ∉ Json.punctuation)) = true := by
    decide +kernel
  intro letter member
  have tested := List.all_eq_true.mp (List.all_eq_true.mp all sink listed) letter member
  rw [Bool.and_eq_true, decide_eq_true_eq, decide_eq_true_eq] at tested
  exact tested

/-- Such a function is a seed exactly when some string of its summary ends in a sink. -/
theorem OnlySummary.mem_seedSinks (only : graph.OnlySummary kinds marks id summary)
    (plain : summary.PlainNumbers) :
    id ∈ (graph.seedSinks kinds marks).reachesSink ↔ ∃ text ∈ summary.strings, EndsInSink text := by
  rw [CodeGraph.mem_seedSinks, or_iff_right only.unmarked, SinkSeed, and_iff_right only.own,
    only.uncalled, only.uncatalogued]
  simp only [ne_eq, not_true_eq_false, false_or, or_false]
  unfold summarised
  rw [only.stored]
  dsimp only
  rw [Bool.and_eq_true, decide_eq_true_eq, and_iff_right only.fresh, List.any_eq_true]
  constructor
  · intro named
    obtain ⟨sink, listed, inside⟩ := named
    have written := Json.quoted_infix_dumps_iff (plain_of_sink listed) summary plain
    obtain ⟨text, member, ends⟩ := written.mp (of_decide_eq_true inside)
    exact ⟨text, member, sink, listed, ends⟩
  · intro named
    obtain ⟨text, member, sink, listed, ends⟩ := named
    have written := Json.quoted_infix_dumps_iff (plain_of_sink listed) summary plain
    exact ⟨sink, listed, decide_eq_true (written.mpr ⟨text, member, ends⟩)⟩

theorem endsInSink_of_touchesSink (touches : TouchesSink summary) :
    ∃ text ∈ summary.strings, EndsInSink text := by
  obtain ⟨items, held, sink, listed, member⟩ := touches
  refine ⟨sink, ?_, sink, listed, List.suffix_refl _⟩
  apply Json.mem_strings_of_get? held
  rw [Json.strings]
  apply Json.mem_stringsItems member
  rw [Json.strings]
  exact List.mem_singleton_self sink

/-- **Summary seeds.** A function with a fresh summary and no other seed is marked by what its
summary touches exactly when the summary touches a sink, or no string of it ends in one. -/
theorem seeded_by_touches_iff (only : graph.OnlySummary kinds marks id summary)
    (plain : summary.PlainNumbers) :
    ((id ∈ (graph.seedSinks kinds marks).reachesSink ↔ TouchesSink summary) ↔
      (TouchesSink summary ∨ ∀ text ∈ summary.strings, ¬ EndsInSink text)) := by
  rw [only.mem_seedSinks plain]
  constructor
  · intro same
    by_cases touches : TouchesSink summary
    · exact .inl touches
    · exact .inr fun text member ends => touches (same.mp ⟨text, member, ends⟩)
  · intro either
    cases either with
    | inl touches => exact iff_of_true (endsInSink_of_touchesSink touches) touches
    | inr none =>
        refine ⟨fun some => ?_, endsInSink_of_touchesSink⟩
        obtain ⟨text, member, ends⟩ := some
        exact (none text member ends).elim

/-- A function with a fresh summary, and nothing around it. -/
def readGraph (summary : Json) : CodeGraph where
  repo := "demo"
  store := sampleStore [sampleFunction sampleId] []
  taint := fun _ => {}
  reading := fun _ =>
    { bodyHash := some "h", summaryHash := some "h", summaryJson := some summary.dumps }

theorem onlySummary_readGraph (summary : Json) :
    (readGraph summary).OnlySummary dangerousKinds {} sampleId summary where
  own := rfl
  stored := rfl
  fresh := ⟨rfl, rfl⟩
  unmarked := List.not_mem_nil
  uncalled := rfl
  uncatalogued := rfl

/-- A summary that touches a sink. -/
def touchingSummary : Json := .object [("touches".toList, .array [.string "exec"])]

theorem touchesSink_touchingSummary : TouchesSink touchingSummary :=
  ⟨[.string "exec"], rfl, "exec".toList, by decide, List.mem_cons_self⟩

/-- The sink that is touched makes the seed. -/
theorem seeded_by_touchingSummary :
    sampleId ∈ ((readGraph touchingSummary).seedSinks dangerousKinds {}).reachesSink :=
  ((seeded_by_touches_iff (onlySummary_readGraph touchingSummary)
    fun _ member => (List.not_mem_nil member).elim).mpr
      (.inl touchesSink_touchingSummary)).mpr touchesSink_touchingSummary

/-- A summary that touches nothing and has an unguarded call of the name of a sink. -/
def callingSummary : Json :=
  .object
    [("contracts".toList, .object [("unguarded_calls".toList, .array [.string "exec"])]),
     ("touches".toList, .array [.string "none"])]

/-- The name of a call makes a seed. -/
theorem callingSummary_seeds :
    (readGraph callingSummary).OnlySummary dangerousKinds {} sampleId callingSummary ∧
      ¬ (sampleId ∈ ((readGraph callingSummary).seedSinks dangerousKinds {}).reachesSink ↔
        TouchesSink callingSummary) := by
  refine ⟨onlySummary_readGraph callingSummary, fun same => ?_⟩
  have seeded : sampleId ∈
      ((readGraph callingSummary).seedSinks dangerousKinds {}).reachesSink := by decide +kernel
  obtain ⟨items, held, sink, listed, member⟩ := same.mp seeded
  cases held
  rw [List.mem_singleton, Json.string.injEq] at member
  subst member
  revert listed
  decide

end CodeGraph

end Seeding

end GraphIngest.Analysis
