import GraphIngest.Foundation.FirstCome
import GraphIngest.Graph.Bundle

/-! # Merging in the order of completion

Bundles are merged in the order in which cache lookups and workers finish. The
id of a node is made of repository, kind and fqn, not of its file, so two files
may bring different nodes under one id; the merge then keeps whichever came
first.
-/

namespace GraphIngest.Graph

open Foundation

/-- The node of an id. -/
def Bundle.node (bundle : Bundle) (id : NodeId) : Option Node :=
  bundle.nodes.find? fun node => node.id = id

/-- Two merges with the same nodes by id, edges and references. -/
structure SameMerge (first second : Bundle) : Prop where
  nodes : ∀ id, first.node id = second.node id
  edges : ∀ edge, edge ∈ first.edges ↔ edge ∈ second.edges
  refs : ∀ ref, ref ∈ first.refs ↔ ref ∈ second.refs

/-- Two bundles whose first node of a shared id, first edge of a shared place and
first reference of a shared place are the same. -/
structure Agrees (first second : Bundle) : Prop where
  nodes : ∀ node ∈ accepted Node.id [] first.nodes, ∀ other ∈ accepted Node.id [] second.nodes,
    node.id = other.id → node = other
  edges : ∀ edge ∈ accepted Edge.site [] first.edges,
    ∀ other ∈ accepted Edge.site [] second.edges, edge.site = other.site → edge = other
  refs : ∀ ref ∈ keptRefs first.refs, ∀ other ∈ keptRefs second.refs,
    ref.site = other.site → ref = other

/-- The nodes of a merge, by id or as a set. -/
theorem node_mergeBundles_eq_iff (first second : List Bundle) :
    (∀ id, (mergeBundles first).node id = (mergeBundles second).node id) ↔
      ∀ node, node ∈ (mergeBundles first).nodes ↔ node ∈ (mergeBundles second).nodes := by
  have found : ∀ (bundles : List Bundle) (id : NodeId) (node : Node),
      (mergeBundles bundles).node id = some node ↔
        node ∈ (mergeBundles bundles).nodes ∧ node.id = id := by
    intro bundles id node
    have all : (mergeBundles bundles).node id =
        (bundles.flatMap Bundle.nodes).find? fun node => node.id = id :=
      find?_accepted List.not_mem_nil _
    have kept : node ∈ (mergeBundles bundles).nodes ↔ _ :=
      @mem_accepted_iff _ _ _ Node.id (bundles.flatMap Bundle.nodes) node
    rw [all, kept]
    constructor
    · intro first
      have named := List.find?_some first
      rw [decide_eq_true_eq] at named
      subst named
      exact ⟨first, rfl⟩
    · intro ⟨first, named⟩
      subst named
      exact first
  constructor
  · intro same node
    have here := found first node.id node
    have there := found second node.id node
    rw [same] at here
    simp only [and_true] at here there
    exact here.symm.trans there
  · intro same id
    apply Option.ext
    intro node
    rw [found, found, same]

/-- **Completion order.** The merge is the same for every order exactly when the
bundles agree with each other. -/
theorem sameMerge_perm_iff (bundles : List Bundle) :
    (∀ order : List Bundle, order.Perm bundles →
        SameMerge (mergeBundles order) (mergeBundles bundles)) ↔
      ∀ first ∈ bundles, ∀ second ∈ bundles, Agrees first second := by
  have nodes := @accepted_perm_iff _ _ _ _ Node.id Bundle.nodes bundles
  have edges := @accepted_perm_iff _ _ _ _ Edge.site Bundle.edges bundles
  have refs := @accepted_perm_iff _ _ _ _ RawRef.site Bundle.refs bundles
  constructor
  · intro same first firstListed second secondListed
    refine ⟨?_, ?_, ?_⟩
    · exact nodes.mp
        (fun order perm => (node_mergeBundles_eq_iff order bundles).mp (same order perm).nodes)
        first firstListed second secondListed
    · exact edges.mp (fun order perm => (same order perm).edges)
        first firstListed second secondListed
    · exact refs.mp (fun order perm => (same order perm).refs)
        first firstListed second secondListed
  · intro agree order perm
    refine ⟨?_, ?_, ?_⟩
    · apply (node_mergeBundles_eq_iff order bundles).mpr
      exact nodes.mpr (fun first firstListed second secondListed =>
        (agree first firstListed second secondListed).nodes) order perm
    · exact edges.mpr (fun first firstListed second secondListed =>
        (agree first firstListed second secondListed).edges) order perm
    · exact refs.mpr (fun first firstListed second secondListed =>
        (agree first firstListed second secondListed).refs) order perm

/-- `class App` of package `p`, as declared in a file: its id is made without the
file. -/
def declaredIn (file : Str) : Bundle where
  nodes :=
    [{ id := ⟨"shop|p.App|class".toList, by decide⟩, label := .cls, name := "App",
       fqn := "p.App", repo := "shop", kind := .cls, lang := .java, file := file, package := "p",
       startLine := 3, endLine := 9 }]

/-- Two modules declare the class; the file of its node is that of the bundle
that came first. -/
theorem twoModules_order_dependent : ¬ ∀ (bundles order : List Bundle), order.Perm bundles →
    SameMerge (mergeBundles order) (mergeBundles bundles) := by
  intro same
  have nodes := (same [declaredIn "web/App.java", declaredIn "batch/App.java"]
    [declaredIn "batch/App.java", declaredIn "web/App.java"] (List.Perm.swap _ _ _)).nodes
    ⟨"shop|p.App|class".toList, by decide⟩
  revert nodes
  decide +kernel

end GraphIngest.Graph
