import GraphIngest.Pipeline.Writing

/-! # The queries after the last write

Two queries create what a run leaves to the database: calls of overriders, and the
acquires of methods that return a connection. They match what is held, and create only
what is not there yet; of several rows that would create the same thing, whichever the
database meets first does.
-/

namespace GraphIngest.Pipeline

open Foundation Text Graph External

namespace IndexRun

variable (run : IndexRun) (base : Holding)

/-- The call created for an overrider, from a call of the overridden method. -/
def dispatchedLink (call : Relationship) : Relationship where
  confidence := .ambiguous
  origin := .derived
  evidenceLine := call.evidenceLine
  strategy := "polymorphic_dispatch"

/-- The edge created for an acquire. -/
def acquiredLink : Relationship where
  confidence := .extracted
  origin := .derived
  evidenceLine := 0
  strategy := "inrepo_return_type"

def acquiredNode (function : StoredNode) : NodeId × NodeRecord :=
  row (fun _ => []) (fun _ => {})
    { id := acquireId function.fqn, label := .external, name := function.name,
      fqn := function.fqn, repo := "external", kind := .external .dbAcquire,
      lang := function.lang }

/-- Whether a node is a function of the repository that returns a connection. -/
def acquires? (record : NodeRecord) : Bool :=
  decide (NodeLabel.function ∈ record.labels) &&
    decide (record.props.repo = run.input.options.repo) &&
      decide (record.props.returnType ∈ connectionTypes.map Prod.snd)

section Matches

/-- `synthesize_polymorphic_calls_cypher`: a caller of an overridden method and an overrider
of the repository. -/
def Dispatches (key : EdgeKey) (link : Relationship) : Prop :=
  run.input.options.polymorphicDispatch = true ∧
    ∃ caller child ancestor record override call,
      key = (.calls, caller, child) ∧ link = dispatchedLink call ∧
        base.nodes.get? child = some record ∧ record.props.repo = run.input.options.repo ∧
          base.relationships.get? (.overrides, child, ancestor) = some override ∧
            base.relationships.get? (.calls, caller, ancestor) = some call

/-- `mark_inrepo_acquires_cypher`: a function of the repository that returns a connection. -/
def Acquires (source : NodeId) (found : NodeRecord) : Prop :=
  base.nodes.get? source = some found ∧ run.acquires? found = true

def AcquiresNode (id : NodeId) (record : NodeRecord) : Prop :=
  ∃ source found, run.Acquires base source found ∧ (id, record) = acquiredNode found.props

/-- The edge of an acquire. -/
def AcquiresLink (key : EdgeKey) (link : Relationship) : Prop :=
  ∃ source found, run.Acquires base source found ∧
    key = (.callsExternal, source, acquireId found.props.fqn) ∧ link = acquiredLink

/-- An edge that one of the queries creates. -/
def Creates (key : EdgeKey) (link : Relationship) : Prop :=
  run.Dispatches base key link ∨ run.AcquiresLink base key link

/-- What the database can hold after the queries. -/
structure Finishes (final : Holding) : Prop where
  nodes : ∀ id, Completes (base.nodes.get? id) (run.AcquiresNode base id) (final.nodes.get? id)
  relationships : ∀ key, Completes (base.relationships.get? key) (run.Creates base key)
    (final.relationships.get? key)

end Matches

section Ends

variable {run base}

/-- The queries leave no relationship without its ends. -/
theorem Finishes.closed {final : Holding} (finished : run.Finishes base final)
    (closed : base.Closed) : final.Closed := by
  have there : ∀ {id}, (base.nodes.get? id).isSome → (final.nodes.get? id).isSome := fun present =>
    (finished.nodes _).isSome_iff.mpr (Or.inl present)
  intro key link present
  have completes := finished.relationships key
  cases before : base.relationships.get? key with
  | some old =>
      have ends := closed key old before
      exact ⟨there ends.1, there ends.2⟩
  | none =>
      rw [before, present, completes_none_some] at completes
      rcases completes with dispatched | ⟨source, found, acquires, rfl, _⟩
      · obtain ⟨_, caller, child, ancestor, _, _, call, rfl, _, declared, _, _, calling⟩ := dispatched
        exact ⟨there (closed _ call calling).1, there (declared ▸ rfl)⟩
      · refine ⟨there (acquires.1 ▸ rfl), (finished.nodes _).isSome_iff.mpr (Or.inr ?_)⟩
        exact ⟨(acquiredNode found.props).2, source, found, acquires, rfl⟩

end Ends

section Execution

/-- The functions that acquire, in the order in which they have been created. -/
def acquirers : List (NodeId × NodeRecord) :=
  base.nodes.entries.filter fun entry => run.acquires? entry.2

/-- Whether an id is that of a node of the repository. -/
def holds (id : NodeId) : Bool :=
  match base.nodes.get? id with
  | some record => decide (record.props.repo = run.input.options.repo)
  | none => false

/-- The calls of overriders. -/
def dispatched : List (EdgeKey × Relationship) :=
  if run.input.options.polymorphicDispatch then
    (base.relationships.entries.filter fun entry =>
      decide (entry.1.1 = EdgeType.overrides) && run.holds base entry.1.2.1).flatMap
      fun override =>
        (base.relationships.entries.filter fun entry =>
          decide (entry.1.1 = EdgeType.calls) && decide (entry.1.2.2 = override.1.2.2)).map
          fun call => ((.calls, call.1.2.1, override.1.2.1), dispatchedLink call.2)
  else []

def acquiredNodes : List (NodeId × NodeRecord) :=
  (run.acquirers base).map fun entry => acquiredNode entry.2.props

/-- The edges of acquires. -/
def acquiredLinks : List (EdgeKey × Relationship) :=
  (run.acquirers base).map fun entry =>
    ((EdgeType.callsExternal, entry.1, acquireId entry.2.props.fqn), acquiredLink)

/-- Both queries, the rows in the order in which nodes and relationships have been
created. -/
def finish : Holding where
  nodes := (run.acquiredNodes base).foldl
    (fun nodes entry => nodes.setdefault entry.1 entry.2) base.nodes
  relationships := (run.dispatched base ++ run.acquiredLinks base).foldl
    (fun links entry => links.setdefault entry.1 entry.2) base.relationships

variable {run base}

theorem mem_acquirers {id : NodeId} {record : NodeRecord} :
    (id, record) ∈ run.acquirers base ↔ run.Acquires base id record := by
  rw [acquirers, List.mem_filter, Dict.mem_entries_iff]
  rfl

theorem holds_iff {id : NodeId} : run.holds base id = true ↔
    ∃ record, base.nodes.get? id = some record ∧ record.props.repo = run.input.options.repo := by
  unfold holds
  cases base.nodes.get? id with
  | none => simp only [Bool.false_eq_true, reduceCtorEq, false_and, exists_false]
  | some record => simp only [decide_eq_true_eq, Option.some.injEq, exists_eq_left']

theorem mem_dispatched {key : EdgeKey} {link : Relationship} :
    (key, link) ∈ run.dispatched base ↔ run.Dispatches base key link := by
  unfold dispatched Dispatches
  by_cases enabled : run.input.options.polymorphicDispatch = true
  case neg => simp only [enabled, Bool.false_eq_true, ↓reduceIte, List.not_mem_nil, false_and]
  simp only [enabled, ↓reduceIte, true_and, List.mem_flatMap, List.mem_map, List.mem_filter,
    Bool.and_eq_true, decide_eq_true_eq, holds_iff]
  constructor
  · rintro ⟨⟨⟨type, child, ancestor⟩, override⟩, ⟨overriding, overrides, record, present, own⟩,
      ⟨⟨kind, caller, callee⟩, call⟩, ⟨calling, calls, meets⟩, same⟩
    dsimp only at overrides calls meets
    subst overrides calls meets
    obtain ⟨rfl, rfl⟩ := Prod.mk.inj same
    exact ⟨caller, child, callee, record, override, call, rfl, rfl, present, own,
      (Dict.mem_entries_iff _ _ _).mp overriding, (Dict.mem_entries_iff _ _ _).mp calling⟩
  · rintro ⟨caller, child, ancestor, record, override, call, rfl, rfl, present, own, overriding,
      calling⟩
    exact ⟨_, ⟨(Dict.mem_entries_iff _ _ _).mpr overriding, rfl, record, present, own⟩,
      _, ⟨(Dict.mem_entries_iff _ _ _).mpr calling, rfl, rfl⟩, rfl⟩

theorem mem_acquiredNodes {id : NodeId} {record : NodeRecord} :
    (id, record) ∈ run.acquiredNodes base ↔ run.AcquiresNode base id record := by
  rw [acquiredNodes, List.mem_map]
  constructor
  · rintro ⟨⟨source, found⟩, listed, same⟩
    exact ⟨source, found, mem_acquirers.mp listed, same.symm⟩
  · rintro ⟨source, found, acquires, same⟩
    exact ⟨(source, found), mem_acquirers.mpr acquires, same.symm⟩

theorem mem_acquiredLinks {key : EdgeKey} {link : Relationship} :
    (key, link) ∈ run.acquiredLinks base ↔ run.AcquiresLink base key link := by
  rw [acquiredLinks, List.mem_map]
  constructor
  · rintro ⟨⟨source, found⟩, listed, same⟩
    obtain ⟨rfl, rfl⟩ := Prod.mk.inj same
    exact ⟨source, found, mem_acquirers.mp listed, rfl, rfl⟩
  · rintro ⟨source, found, acquires, rfl, rfl⟩
    exact ⟨(source, found), mem_acquirers.mpr acquires, rfl⟩

/-- The queries leave what they can leave. -/
theorem finishes_finish (run : IndexRun) (base : Holding) :
    run.Finishes base (run.finish base) := by
  constructor
  · intro id
    have created := Dict.completes_foldl_setdefault (run.acquiredNodes base) base.nodes id
    simp only [mem_acquiredNodes] at created
    exact created
  · intro key
    have created := Dict.completes_foldl_setdefault (run.dispatched base ++ run.acquiredLinks base)
      base.relationships key
    simp only [List.mem_append, mem_dispatched, mem_acquiredLinks] at created
    exact created

end Execution

end IndexRun

end GraphIngest.Pipeline
