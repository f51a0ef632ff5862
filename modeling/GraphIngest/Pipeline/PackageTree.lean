import GraphIngest.Foundation.KeyedLog
import GraphIngest.Graph.Record

/-! # The package tree

One node for the repository, one for each package prefix of a file's package, and
the containment edges from the repository down to the files.
-/

namespace GraphIngest.Pipeline

open Foundation Text Graph

section Tree

variable (makeId : Str → Str → Str → NodeId) (repo : Str)

/-- The nodes and the containment edges made so far, each once. -/
structure Tree where
  nodes : KeyedLog Node.id
  edges : KeyedLog Edge.key

def treeEdge (src dst : NodeId) : Edge where
  type := .contains
  src := src
  dst := dst
  extractor := "structure"

def repositoryId : NodeId := makeId repo repo "repository"

def repositoryNode : Node where
  id := repositoryId makeId repo
  label := .repository
  name := repo
  fqn := repo
  repo := repo
  kind := .repository

/-- The node of a package, named by its last part. -/
def packageNode (lang : Lang) (name fqn : Str) : Node where
  id := makeId repo fqn "package"
  label := .package
  name := name
  fqn := fqn
  repo := repo
  kind := .package
  lang := lang
  package := fqn

/-- The parts of a dotted name, each with the name up to it. -/
def dottedPrefixes : List Str → List Str → List (Str × Str)
  | _, [] => []
  | front, part :: rest =>
      (part, List.intercalate ['.'] (front ++ [part])) :: dottedPrefixes (front ++ [part]) rest

/-- One package below the current parent, which it replaces. -/
def addPackage (lang : Lang) (state : Tree × NodeId) (entry : Str × Str) : Tree × NodeId :=
  let node := packageNode makeId repo lang entry.1 entry.2
  ({ nodes := state.1.nodes.emit node, edges := state.1.edges.emit (treeEdge state.2 node.id) },
    node.id)

/-- The packages of a file, and the file itself below the last one. -/
def addFile (tree : Tree) (file : Node) : Tree :=
  let entries := if file.package = [] then [] else dottedPrefixes [] (splitBy '.' file.package)
  let (grown, parent) :=
    entries.foldl (addPackage makeId repo file.lang) (tree, repositoryId makeId repo)
  { grown with edges := grown.edges.emit (treeEdge parent file.id) }

/-- `_build_package_tree`. -/
def buildPackageTree (nodes : List Node) : Tree :=
  (nodes.filter fun node => node.label = .file).foldl (addFile makeId repo)
    { nodes := KeyedLog.empty.emit (repositoryNode makeId repo), edges := .empty }

variable {makeId repo}

/-- The edges of a tree join its own nodes and listed ones. -/
def Tree.Joins (nodes : List Node) (tree : Tree) : Prop :=
  ∀ edge ∈ tree.edges.entries, (tree.nodes.Has edge.src) ∧
    (tree.nodes.Has edge.dst ∨ ∃ node ∈ nodes, node.id = edge.dst)

theorem joins_addPackage {nodes : List Node} {state : Tree × NodeId}
    (joins : state.1.Joins nodes) (parent : state.1.nodes.Has state.2) (lang : Lang)
    (entry : Str × Str) :
    (addPackage makeId repo lang state entry).1.Joins nodes ∧
      (addPackage makeId repo lang state entry).1.nodes.Has
        (addPackage makeId repo lang state entry).2 := by
  have grows : ∀ id, state.1.nodes.Has id →
      (addPackage makeId repo lang state entry).1.nodes.Has id :=
    fun id held => (KeyedLog.has_emit _ _ _).mpr (Or.inl held)
  have made : (addPackage makeId repo lang state entry).1.nodes.Has
      (addPackage makeId repo lang state entry).2 :=
    (KeyedLog.has_emit _ _ _).mpr (Or.inr rfl)
  refine ⟨?_, made⟩
  intro edge member
  rcases KeyedLog.mem_of_mem_emit member with before | rfl
  · exact ⟨grows _ (joins edge before).1, (joins edge before).2.imp_left (grows _)⟩
  · exact ⟨grows _ parent, Or.inl made⟩

theorem joins_addFile {nodes : List Node} {tree : Tree} (joins : tree.Joins nodes)
    (rooted : tree.nodes.Has (repositoryId makeId repo)) {file : Node} (listed : file ∈ nodes) :
    (addFile makeId repo tree file).Joins nodes ∧
      (addFile makeId repo tree file).nodes.Has (repositoryId makeId repo) := by
  let holds := fun state : Tree × NodeId => state.1.Joins nodes ∧ state.1.nodes.Has state.2 ∧
    state.1.nodes.Has (repositoryId makeId repo)
  have walked : ∀ entries : List (Str × Str), holds
      (entries.foldl (addPackage makeId repo file.lang) (tree, repositoryId makeId repo)) := by
    intro entries
    refine foldl_preserves holds entries ?_ _ ⟨joins, rooted, rooted⟩
    intro state entry _ held
    obtain ⟨kept, made⟩ := joins_addPackage held.1 held.2.1 file.lang entry
    exact ⟨kept, made, (KeyedLog.has_emit _ _ _).mpr (Or.inl held.2.2)⟩
  unfold addFile
  obtain ⟨kept, parent, root⟩ :=
    walked (if file.package = [] then [] else dottedPrefixes [] (splitBy '.' file.package))
  refine ⟨?_, root⟩
  intro edge member
  rcases KeyedLog.mem_of_mem_emit member with before | rfl
  · exact kept edge before
  · exact ⟨parent, Or.inr ⟨file, listed, rfl⟩⟩

/-- **Package tree.** Its edges begin at its nodes, and end at them or at listed nodes. -/
theorem joins_buildPackageTree (makeId : Str → Str → Str → NodeId) (repo : Str)
    (nodes : List Node) : (buildPackageTree makeId repo nodes).Joins nodes := by
  let holds := fun tree : Tree =>
    tree.Joins nodes ∧ tree.nodes.Has (repositoryId makeId repo)
  have start : holds
      { nodes := KeyedLog.empty.emit (repositoryNode makeId repo), edges := .empty } :=
    ⟨List.forall_mem_nil _, (KeyedLog.has_emit _ _ _).mpr (Or.inr rfl)⟩
  refine (foldl_preserves holds _ ?_ _ start).1
  intro tree file member held
  exact joins_addFile held.1 held.2 (List.mem_of_mem_filter member)

end Tree

end GraphIngest.Pipeline
