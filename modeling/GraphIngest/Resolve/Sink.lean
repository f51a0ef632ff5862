import GraphIngest.Resolve.Coverage
import GraphIngest.Resolve.LinkEnds

/-! # Resolving into a sink

A sink takes the edges a run has emitted since it was last asked, after the nodes
synthesized since then, and returns what is kept of them: any list, which is put in
their place. Two watermarks say how far the two lists have been handed over. Whatever
the sink returns, it is handed what a run without sink returns.
-/

namespace GraphIngest.Resolve

open Foundation Text Graph External

/-- An entry of the list of edges: an edge, or what the sink put in the place of
edges. -/
inductive Retained (ρ : Type)
  | edge (edge : Edge)
  | standIn (item : ρ)
deriving DecidableEq

/-- A sink with a state of its own. -/
abbrev EdgeSink (ρ σ : Type) := σ → List Node → List (Retained ρ) → List (Retained ρ) × σ

/-- A call of the sink: what it was handed, and what it returned. -/
structure SinkCall (ρ : Type) where
  nodes : List Node
  batch : List (Retained ρ)
  kept : List (Retained ρ)
deriving DecidableEq

/-- The variables of the main loop, with the calls of the sink so far. -/
structure Loop (ρ σ : Type) where
  sink : σ
  memo : Memo := {}
  extraNodes : List Node := []
  outEdges : List (Retained ρ) := []
  flushedEdges : Nat := 0
  flushedNodes : Nat := 0
  calls : List (SinkCall ρ) := []

section Definitions

variable {ρ σ : Type} (settings : Settings) (corpus : Corpus)

/-- `_sink_flush`. -/
def Loop.sinkFlush (edgeSink : EdgeSink ρ σ) (loop : Loop ρ σ) : Loop ρ σ :=
  if loop.flushedEdges = loop.outEdges.length ∧ loop.flushedNodes = loop.extraNodes.length then
    loop
  else
    let nodes := loop.extraNodes.drop loop.flushedNodes
    let batch := loop.outEdges.drop loop.flushedEdges
    let answer := edgeSink loop.sink nodes batch
    let outEdges := loop.outEdges.take loop.flushedEdges ++ answer.1
    { loop with
      sink := answer.2
      outEdges := outEdges
      flushedEdges := outEdges.length
      flushedNodes := loop.extraNodes.length
      calls := loop.calls ++ [⟨nodes, batch, answer.1⟩] }

/-- The check before a reference. -/
def Loop.makeRoom (edgeSink : Option (EdgeSink ρ σ)) (loop : Loop ρ σ) : Loop ρ σ :=
  match edgeSink with
  | some edgeSink =>
      if sinkBatch ≤ loop.outEdges.length - loop.flushedEdges then loop.sinkFlush edgeSink
      else loop
  | none => loop

/-- Resolve one reference. -/
def Loop.take (loop : Loop ρ σ) (ref : RawRef) : Loop ρ σ :=
  let answer := nextAnswer settings corpus loop.memo ref
  { loop with
    memo := answer.memo
    extraNodes := loop.extraNodes ++ answer.chunk.declares
    outEdges := loop.outEdges ++ answer.chunk.links.map .edge }

/-- One round of the main loop. -/
def Loop.round (edgeSink : Option (EdgeSink ρ σ)) (loop : Loop ρ σ) (ref : RawRef) : Loop ρ σ :=
  (loop.makeRoom edgeSink).take settings corpus ref

/-- `resolve`, with a sink or without. -/
def resolveInto (edgeSink : Option (EdgeSink ρ σ)) (sink : σ) : Loop ρ σ :=
  let last := corpus.refs.foldl (Loop.round settings corpus edgeSink) { sink }
  match edgeSink with
  | some edgeSink => last.sinkFlush edgeSink
  | none => last

/-- The id of a listed node, or of one handed over. -/
def Known (handed : List Node) (id : NodeId) : Prop :=
  (∃ node ∈ corpus.nodes, node.id = id) ∨ ∃ node ∈ handed, node.id = id

/-- An edge of a batch: it begins where a reference does, and ends at a listed node or at
one handed over with its batch or before. -/
structure EndsKnown (handed : List Node) (edge : Edge) : Prop where
  src : ∃ ref ∈ corpus.refs, edge.src = ref.src
  dst : Known corpus handed edge.dst

/-- A run with a sink hands over what a run without one returns. -/
structure HandsOver {τ : Type} (sinked : Loop ρ σ) (plain : Loop ρ τ) : Prop where
  edges : sinked.calls.flatMap SinkCall.batch = plain.outEdges
  nodes : sinked.calls.flatMap SinkCall.nodes = sinked.extraNodes
  alike : sinked.extraNodes = plain.extraNodes ∧ sinked.memo = plain.memo
  returned : sinked.outEdges = sinked.calls.flatMap SinkCall.kept
  ends : ∀ before call after, sinked.calls = before ++ call :: after → ∀ item ∈ call.batch,
    ∃ edge, item = .edge edge ∧
      EndsKnown corpus ((before ++ [call]).flatMap SinkCall.nodes) edge

end Definitions

variable {ρ σ : Type} {settings : Settings} {corpus : Corpus}

/-- What the sink is handed of a chunk. -/
def handover (chunk : Chunk Node Edge) : List Node × List (Retained ρ) :=
  (chunk.declares, chunk.links.map .edge)

/-- What the sink was handed in a call. -/
def SinkCall.given (call : SinkCall ρ) : List Node × List (Retained ρ) := (call.nodes, call.batch)

namespace Loop

/-- The watermarks separate what the calls left from what has been emitted since. -/
structure Tracks (loop : Loop ρ σ) (pending : Chunk Node Edge) : Prop where
  outEdges : loop.outEdges = loop.calls.flatMap SinkCall.kept ++ pending.links.map .edge
  flushedEdges : loop.flushedEdges = (loop.calls.flatMap SinkCall.kept).length
  extraNodes : loop.extraNodes = loop.calls.flatMap SinkCall.nodes ++ pending.declares
  flushedNodes : loop.flushedNodes = (loop.calls.flatMap SinkCall.nodes).length

/-- The pending edges are those behind the watermark. -/
theorem Tracks.pending_length {loop : Loop ρ σ} {pending : Chunk Node Edge}
    (tracks : loop.Tracks pending) :
    loop.outEdges.length - loop.flushedEdges = pending.links.length := by
  rw [tracks.outEdges, tracks.flushedEdges, List.length_append, List.length_map]
  omega

/-- Nothing is handed over when nothing is pending. -/
theorem Tracks.sinkFlush_of_isEmpty {loop : Loop ρ σ} {pending : Chunk Node Edge}
    (tracks : loop.Tracks pending) (idle : pending.isEmpty = true) (edgeSink : EdgeSink ρ σ) :
    loop.sinkFlush edgeSink = loop := by
  rw [Chunk.isEmpty, Bool.and_eq_true, List.isEmpty_iff, List.isEmpty_iff] at idle
  unfold sinkFlush
  rw [if_pos]
  rw [tracks.outEdges, tracks.flushedEdges, tracks.extraNodes, tracks.flushedNodes, idle.1, idle.2,
    List.map_nil, List.append_nil, List.append_nil]
  exact ⟨rfl, rfl⟩

/-- What is pending is handed over, and the watermarks move behind what was returned. -/
theorem Tracks.sinkFlush {loop : Loop ρ σ} {pending : Chunk Node Edge}
    (tracks : loop.Tracks pending) (busy : pending.isEmpty = false) (edgeSink : EdgeSink ρ σ) :
    (loop.sinkFlush edgeSink).Tracks {} ∧ (loop.sinkFlush edgeSink).memo = loop.memo ∧
      (loop.sinkFlush edgeSink).calls.map SinkCall.given =
        loop.calls.map SinkCall.given ++ [handover pending] := by
  have unflushed : ¬ (loop.flushedEdges = loop.outEdges.length ∧
      loop.flushedNodes = loop.extraNodes.length) := by
    intro ⟨edges, nodes⟩
    rw [tracks.outEdges, tracks.flushedEdges, List.length_append, List.length_map] at edges
    rw [tracks.extraNodes, tracks.flushedNodes, List.length_append] at nodes
    have none : pending.isEmpty = true := by
      rw [Chunk.isEmpty, Bool.and_eq_true, List.isEmpty_iff_length_eq_zero,
        List.isEmpty_iff_length_eq_zero]
      omega
    exact Bool.false_ne_true (busy.symm.trans none)
  have batch : loop.outEdges.drop loop.flushedEdges = pending.links.map .edge := by
    rw [tracks.outEdges, tracks.flushedEdges]
    exact List.drop_left
  have before : loop.outEdges.take loop.flushedEdges = loop.calls.flatMap SinkCall.kept := by
    rw [tracks.outEdges, tracks.flushedEdges]
    exact List.take_left
  have nodes : loop.extraNodes.drop loop.flushedNodes = pending.declares := by
    rw [tracks.extraNodes, tracks.flushedNodes]
    exact List.drop_left
  unfold Loop.sinkFlush
  rw [if_neg unflushed, batch, before, nodes]
  refine ⟨⟨?_, ?_, ?_, ?_⟩, rfl, ?_⟩
  · simp only [List.flatMap_append, List.flatMap_singleton, List.map_nil, List.append_nil]
  · simp only [List.flatMap_append, List.flatMap_singleton]
  · simp only [tracks.extraNodes, List.flatMap_append, List.flatMap_singleton, List.append_nil]
  · simp only [tracks.extraNodes, List.flatMap_append, List.flatMap_singleton]
  · rw [List.map_append]
    rfl

/-- A reference puts its chunk behind what is pending. -/
theorem Tracks.take {loop : Loop ρ σ} {pending : Chunk Node Edge} (tracks : loop.Tracks pending)
    (ref : RawRef) :
    (loop.take settings corpus ref).Tracks
      (pending.append (nextAnswer settings corpus loop.memo ref).chunk) where
  outEdges := by
    simp only [Loop.take, tracks.outEdges, Chunk.append, List.map_append, List.append_assoc]
  flushedEdges := tracks.flushedEdges
  extraNodes := by
    simp only [Loop.take, tracks.extraNodes, Chunk.append, List.append_assoc]
  flushedNodes := tracks.flushedNodes

/-- **Rounds.** The calls of the sink are the batches of the chunks. -/
theorem Tracks.rounds {loop : Loop ρ σ} {pending : Chunk Node Edge} (tracks : loop.Tracks pending)
    (edgeSink : EdgeSink ρ σ) (refs : List RawRef) :
    let last := (refs.foldl (round settings corpus (some edgeSink)) loop).sinkFlush edgeSink
    last.Tracks {} ∧ last.memo = memoAfter settings corpus refs loop.memo ∧
      last.calls.map SinkCall.given = loop.calls.map SinkCall.given ++
        (batches sinkBatch pending (chunksFrom settings corpus loop.memo refs)).map handover := by
  induction refs generalizing loop pending with
  | nil =>
      dsimp only [List.foldl_nil, chunksFrom, batches, memoAfter]
      cases idle : pending.isEmpty with
      | true =>
          have clear : loop.Tracks {} := by
            rw [Chunk.isEmpty, Bool.and_eq_true, List.isEmpty_iff, List.isEmpty_iff] at idle
            obtain ⟨outEdges, flushedEdges, extraNodes, flushedNodes⟩ := tracks
            rw [idle.2] at outEdges
            rw [idle.1] at extraNodes
            exact ⟨outEdges, flushedEdges, extraNodes, flushedNodes⟩
          rw [tracks.sinkFlush_of_isEmpty idle, if_pos rfl, List.map_nil, List.append_nil]
          exact ⟨clear, rfl, rfl⟩
      | false => exact tracks.sinkFlush idle edgeSink
  | cons ref rest ih =>
      rw [List.foldl_cons, round, makeRoom]
      dsimp only [chunksFrom, memoAfter, List.foldl_cons]
      unfold batches
      rw [tracks.pending_length]
      by_cases full : sinkBatch ≤ pending.links.length
      · rw [if_pos full, if_pos full]
        have busy : pending.isEmpty = false := by
          have some : pending.links ≠ [] := by
            intro none
            rw [none] at full
            exact absurd full (by decide)
          rw [Chunk.isEmpty, List.isEmpty_eq_false_iff.mpr some, Bool.and_false]
        obtain ⟨clear, memo, calls⟩ := tracks.sinkFlush busy edgeSink
        obtain ⟨final, remembered, handed⟩ :=
          ih (@Tracks.take _ _ settings corpus _ _ clear ref)
        have took : ((loop.sinkFlush edgeSink).take settings corpus ref).memo =
            (nextAnswer settings corpus loop.memo ref).memo := by
          rw [← memo]
          rfl
        rw [took] at remembered handed
        rw [memo] at handed
        refine ⟨final, remembered, handed.trans ?_⟩
        change (loop.sinkFlush edgeSink).calls.map SinkCall.given ++ _ = _
        rw [calls, List.append_assoc]
        rfl
      · rw [if_neg full, if_neg full]
        exact ih (tracks.take ref)

/-- Without a sink the lists grow, and nothing else happens. -/
theorem rounds_none (refs : List RawRef) (loop : Loop ρ σ) :
    let last := refs.foldl (round settings corpus none) loop
    last.outEdges = loop.outEdges ++
        ((chunksFrom settings corpus loop.memo refs).flatMap Chunk.links).map .edge ∧
      last.extraNodes = loop.extraNodes ++
        (chunksFrom settings corpus loop.memo refs).flatMap Chunk.declares ∧
      last.memo = memoAfter settings corpus refs loop.memo := by
  induction refs generalizing loop with
  | nil =>
      dsimp only [List.foldl_nil, chunksFrom, memoAfter]
      rw [List.flatMap_nil, List.flatMap_nil, List.map_nil, List.append_nil, List.append_nil]
      exact ⟨rfl, rfl, rfl⟩
  | cons ref rest ih =>
      obtain ⟨outEdges, extraNodes, memo⟩ := ih (loop.round settings corpus none ref)
      dsimp only at outEdges extraNodes memo ⊢
      rw [List.foldl_cons, outEdges, extraNodes, memo]
      dsimp only [chunksFrom]
      rw [List.flatMap_cons, List.flatMap_cons, List.map_append, ← List.append_assoc,
        ← List.append_assoc]
      exact ⟨rfl, rfl, rfl⟩

end Loop

/-- An edge of a chunk ends at a listed node or at one synthesized by then. -/
theorem joins_chunksFrom {made : List NodeId} {memo : Memo} {refs : List RawRef}
    (remembers : Remembers settings made memo) {earlier later : List (Chunk Node Edge)}
    {chunk : Chunk Node Edge} (split : chunksFrom settings corpus memo refs = earlier ++ chunk :: later)
    {edge : Edge} (carried : edge ∈ chunk.links) :
    (∃ ref ∈ refs, edge.src = ref.src) ∧
      ((∃ node ∈ corpus.nodes, node.id = edge.dst) ∨
        edge.dst ∈ made ++ ((earlier ++ [chunk]).flatMap Chunk.declares).map Node.id) := by
  induction refs generalizing made memo earlier with
  | nil => cases earlier <;> cases split
  | cons ref rest ih =>
      have entered : Remembers settings made (memo.enter ref.type) :=
        ⟨remembers.annotations, remembers.endpoints, remembers.externals⟩
      have step : Synthesizes settings corpus made ref (nextAnswer settings corpus memo ref) :=
        synthesizes_resolveOneRef ref entered
      rw [chunksFrom] at split
      cases earlier with
      | nil =>
          obtain ⟨rfl, _⟩ := List.cons.inj split
          have own : (nextAnswer settings corpus memo ref).chunk.links = linksOf settings corpus ref :=
            links_resolveOneRef fun name id met => (entered.annotations name id met).1
          rw [own] at carried
          obtain ⟨src, dst⟩ := joins_linksOf edge carried
          refine ⟨⟨ref, List.mem_cons_self, src⟩, dst.imp_right fun asked => ?_⟩
          rw [List.nil_append, List.flatMap_singleton]
          exact step.made _ asked
      | cons first earlier =>
          obtain ⟨rfl, further⟩ := List.cons.inj split
          obtain ⟨⟨other, listed, src⟩, dst⟩ := ih step.remembers further
          refine ⟨⟨other, List.mem_cons_of_mem _ listed, src⟩, dst.imp_right fun declared => ?_⟩
          rw [List.cons_append, List.flatMap_cons, List.map_append, ← List.append_assoc]
          exact declared

/-- What was handed over in calls, put together. -/
theorem flatMap_of_given {calls : List (SinkCall ρ)} {handed : List (Chunk Node Edge)}
    (same : calls.map SinkCall.given = handed.map handover) :
    calls.flatMap SinkCall.batch = (handed.flatMap Chunk.links).map .edge ∧
      calls.flatMap SinkCall.nodes = handed.flatMap Chunk.declares := by
  constructor
  · have second : calls.flatMap SinkCall.batch = (calls.map SinkCall.given).flatMap Prod.snd := by
      rw [List.flatMap_map]
      rfl
    rw [second, same, List.flatMap_map, List.map_flatMap]
    rfl
  · have first : calls.flatMap SinkCall.nodes = (calls.map SinkCall.given).flatMap Prod.fst := by
      rw [List.flatMap_map]
      rfl
    rw [first, same, List.flatMap_map]
    rfl

/-- An edge of a batch ends at a listed node or at one handed over by then. -/
theorem endsKnown_of_batches {before after : List (Chunk Node Edge)} {batch : Chunk Node Edge}
    (split : batches sinkBatch {} (chunksFrom settings corpus {} corpus.refs) =
      before ++ batch :: after) {edge : Edge} (carried : edge ∈ batch.links) :
    EndsKnown corpus ((before ++ [batch]).flatMap Chunk.declares) edge := by
  obtain ⟨front, chunk, back, chunks, brought, declared⟩ := exists_chunk_of_mem_batches split carried
  cases front with
  | nil =>
      obtain ⟨rfl, _⟩ := List.cons.inj chunks
      cases brought
  | cons _ front =>
      obtain ⟨rfl, parts⟩ := List.cons.inj chunks
      obtain ⟨src, dst⟩ := joins_chunksFrom (remembers_nil settings) parts brought
      refine ⟨src, dst.imp_right fun made => ?_⟩
      obtain ⟨node, synthesized, same⟩ := List.mem_map.mp made
      exact ⟨node, declared node synthesized, same⟩

/-- An edge handed over ends at a listed node or at one handed over by then. -/
theorem endsKnown_of_given {calls before after : List (SinkCall ρ)} {call : SinkCall ρ}
    (same : calls.map SinkCall.given =
      (batches sinkBatch {} (chunksFrom settings corpus {} corpus.refs)).map handover)
    (split : calls = before ++ call :: after) {item : Retained ρ} (listed : item ∈ call.batch) :
    ∃ edge, item = .edge edge ∧
      EndsKnown corpus ((before ++ [call]).flatMap SinkCall.nodes) edge := by
  rw [split, List.map_append, List.map_cons] at same
  obtain ⟨earlier, rest, parts, first, others⟩ := List.map_eq_append_iff.mp same.symm
  obtain ⟨batch, later, rfl, given, _⟩ := List.map_eq_cons_iff.mp others
  have handed : (before ++ [call]).map SinkCall.given = (earlier ++ [batch]).map handover := by
    rw [List.map_append, List.map_append, first, List.map_singleton, List.map_singleton, given]
  have links : batch.links.map .edge = call.batch := congrArg Prod.snd given
  rw [← links] at listed
  obtain ⟨edge, carried, rfl⟩ := List.mem_map.mp listed
  refine ⟨edge, rfl, ?_⟩
  rw [(flatMap_of_given handed).2]
  exact endsKnown_of_batches parts carried

/-- **Sink.** Whatever a sink returns, it is handed what a run without sink returns, after
the nodes at which it ends, and the run returns what the sink did. -/
theorem handsOver_resolveInto (settings : Settings) (corpus : Corpus) {ρ σ τ : Type}
    (edgeSink : EdgeSink ρ σ) (sink : σ) (other : τ) :
    HandsOver corpus (resolveInto settings corpus (some edgeSink) sink)
      (resolveInto settings corpus (none : Option (EdgeSink ρ τ)) other) := by
  have start : Loop.Tracks ({ sink := sink } : Loop ρ σ) {} := ⟨rfl, rfl, rfl, rfl⟩
  obtain ⟨final, memo, handed⟩ :=
    @Loop.Tracks.rounds ρ σ settings corpus _ _ start edgeSink corpus.refs
  obtain ⟨outEdges, extraNodes, remembered⟩ :=
    @Loop.rounds_none ρ τ settings corpus corpus.refs { sink := other }
  have nodes := final.extraNodes
  have kept := final.outEdges
  rw [List.append_nil] at nodes
  rw [List.map_nil, List.append_nil] at kept
  have given := flatMap_of_given handed
  rw [flatMap_links_batches] at given
  rw [flatMap_declares_batches] at given
  refine ⟨given.1.trans outEdges.symm, nodes.symm, ⟨?_, memo.trans remembered.symm⟩, kept, ?_⟩
  · exact nodes.trans (given.2.trans extraNodes.symm)
  · exact fun before call after split item listed => endsKnown_of_given handed split listed

section Sample

/-- A class and a reference to it that comes from no listed node. -/
def ghostCorpus : Corpus where
  nodes := [{ id := letterId 'a', label := .cls, name := "A", fqn := "A", repo := [] }]
  edges := []
  refs := [{ type := .extends, src := letterId 'g', targetName := "A" }]

/-- The sink that keeps nothing is handed an edge whose source is no listed node. -/
theorem ghost_unknown : ¬ ∀ (settings : Settings) (corpus : Corpus)
    (edgeSink : EdgeSink Unit Unit) (before after : List (SinkCall Unit)) (call : SinkCall Unit),
    (resolveInto settings corpus (some edgeSink) ()).calls = before ++ call :: after →
      ∀ edge, Retained.edge edge ∈ call.batch →
        Known corpus ((before ++ [call]).flatMap SinkCall.nodes) edge.src ∧
          Known corpus ((before ++ [call]).flatMap SinkCall.nodes) edge.dst := by
  intro known
  let edge : Edge :=
    { type := .extends, src := letterId 'g', dst := letterId 'a', confidence := .extracted,
      extractor := "heuristic", strategy := "unique" }
  have called : (resolveInto plainSettings ghostCorpus
      (some fun (_ : Unit) (_ : List Node) (_ : List (Retained Unit)) => ([], ())) ()).calls =
        [] ++ ⟨[], [.edge edge], []⟩ :: [] := by decide +kernel
  have source := (known _ _ _ _ _ _ called edge List.mem_cons_self).1
  rcases source with ⟨node, listed, same⟩ | ⟨node, handed, _⟩
  · rw [List.mem_singleton.mp listed] at same
    exact absurd same (by decide)
  · exact absurd handed List.not_mem_nil

end Sample

end GraphIngest.Resolve
