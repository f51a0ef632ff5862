import GraphIngest.External.Taint
import GraphIngest.Foundation.Saturation
import GraphIngest.Graph.Store
import Mathlib.Data.List.Infix

/-! # The graph under analysis

What the analysis reads: the stored nodes and relationships, the taint properties
of functions, and what a model that read a function has left on it. Its queries
ask for functions of one repository, for calls of a trusted strategy, and for
external targets of given kinds.
-/

namespace GraphIngest.Analysis

open Foundation Graph External

/-- The properties of a function that concern its summary; `none` where a
property is absent. -/
structure Reading where
  bodyHash : Option Str := none
  summaryHash : Option Str := none
  summaryJson : Option Str := none
  sigEntry : Bool := false
deriving DecidableEq, Repr

/-- A stored graph with the properties of its functions, analysed for one
repository. -/
structure CodeGraph where
  repo : Str
  store : GraphStore
  taint : NodeId → FunctionTaint
  reading : NodeId → Reading

/-- `_TRUSTED`: the strategies whose calls are followed. -/
def trusted (strategy : Str) : Bool :=
  strategy == "bytecode".toList || "receiver_type".toList.isPrefixOf strategy ||
    "same_".toList.isPrefixOf strategy

namespace CodeGraph

variable (graph : CodeGraph)

/-- Whether an id is that of a node with a label. -/
def hasLabel (label : NodeLabel) (id : NodeId) : Bool :=
  match graph.store.nodes.get? id with
  | some node => decide (label ∈ node.labels)
  | none => false

/-- Whether an id is that of a function of the repository. -/
def isOwn (id : NodeId) : Bool :=
  match graph.store.nodes.get? id with
  | some node => decide (NodeLabel.function ∈ node.labels) && decide (node.repo = graph.repo)
  | none => false

/-- The functions of the repository. -/
def functions : List NodeId := graph.store.nodes.keys.filter graph.isOwn

/-- The ends of the relationships of a type that begin at a node. -/
def targets (type : EdgeType) (src : NodeId) : List NodeId :=
  (graph.store.relationships.keys.filter fun key =>
    decide (key.1 = type) && decide (key.2.1 = src)).map fun key => key.2.2

def externalKind (id : NodeId) : Option ExternalKind :=
  match graph.store.nodes.get? id with
  | some node =>
      match node.kind with
      | .external kind => if NodeLabel.external ∈ node.labels then some kind else none
      | _ => none
  | none => none

/-- The calls of a trusted strategy between functions, of the repository where
they begin. -/
def trustedCalls : List (NodeId × NodeId) :=
  (graph.store.relationships.entries.filter fun entry =>
    decide (entry.1.1 = EdgeType.calls) && trusted entry.2.strategy && graph.isOwn entry.1.2.1 &&
      graph.hasLabel .function entry.1.2.2).map fun entry => entry.1.2

/-- A chain of trusted calls of a given length. -/
abbrev TrustedChain : Nat → NodeId → NodeId → Prop :=
  Chain fun caller callee => (caller, callee) ∈ graph.trustedCalls

/-- A call that its resolver calls certain. -/
def ExtractedCall (caller callee : NodeId) : Prop :=
  ∃ relationship, graph.store.relationships.get? (.calls, caller, callee) = some relationship ∧
    relationship.confidence = .extracted

/-- A chain of certain calls of a given length. -/
abbrev ExtractedChain : Nat → NodeId → NodeId → Prop := Chain graph.ExtractedCall

variable {graph}

theorem isOwn_of_mem_functions {id : NodeId} (listed : id ∈ graph.functions) :
    graph.isOwn id = true := (List.mem_filter.mp listed).2

/-- The functions of the repository are listed. -/
theorem mem_functions {id : NodeId} : id ∈ graph.functions ↔ graph.isOwn id = true := by
  refine ⟨isOwn_of_mem_functions, fun own => List.mem_filter.mpr ⟨?_, own⟩⟩
  unfold isOwn at own
  rw [Dict.mem_keys_iff]
  cases found : graph.store.nodes.get? id with
  | none =>
      rw [found] at own
      cases own
  | some node => exact ⟨node, rfl⟩

/-- A trusted call is a relationship of that type and strategy, its ends being
functions. -/
theorem mem_trustedCalls {src dst : NodeId} :
    (src, dst) ∈ graph.trustedCalls ↔
      (∃ relationship, graph.store.relationships.get? (.calls, src, dst) = some relationship ∧
        trusted relationship.strategy = true) ∧ graph.isOwn src = true ∧
          graph.hasLabel .function dst = true := by
  simp only [trustedCalls, List.mem_map, List.mem_filter, Bool.and_eq_true, decide_eq_true_eq,
    ← Dict.mem_entries_iff]
  constructor
  · rintro ⟨⟨⟨type, _, _⟩, relationship⟩, ⟨listed, ⟨⟨rfl, fits⟩, own⟩, function⟩, same⟩
    obtain ⟨rfl, rfl⟩ := Prod.mk.inj same
    exact ⟨⟨relationship, listed, fits⟩, own, function⟩
  · rintro ⟨⟨relationship, listed, fits⟩, own, function⟩
    exact ⟨((.calls, src, dst), relationship), ⟨listed, ⟨⟨rfl, fits⟩, own⟩, function⟩, rfl⟩

end CodeGraph

section Samples

/-- The id of a function named `f`. -/
def sampleId : NodeId := ⟨"f".toList, List.cons_ne_nil _ _⟩

/-- The id of a function named `g`. -/
def calleeId : NodeId := ⟨"g".toList, List.cons_ne_nil _ _⟩

def sampleFunction (id : NodeId) : Node where
  id := id
  label := .function
  name := id.val
  fqn := id.val
  repo := "demo"
  kind := .method
  lang := .java

/-- A store into which some nodes and edges have been written. -/
def sampleStore (nodes : List Node) (edges : List Edge) : GraphStore where
  nodes := nodes.foldl mergeNode Dict.empty
  relationships := edges.foldl mergeEdge Dict.empty

end Samples

end GraphIngest.Analysis
