import GraphIngest.Analysis.Paths
import GraphIngest.Analysis.SingleFile

/-! # What is judged

The path pass judges the paths to sinks and the paths below the functions that
acquire a database resource, one for each pair of ends. The neighbourhood pass
judges every function with a fresh summary that calls another one.
-/

namespace GraphIngest.Analysis

open Foundation Graph External

/-- What a row tells of a path below an acquiring function. -/
structure LeakRow where
  ids : List NodeId
  fqns : List Str
  acquireId : NodeId
  acquireFqn : Str
  acquireFile : Str
  acquireLine : Int
  hops : Nat
deriving DecidableEq, Repr

/-- Rows are ordered by the acquiring function, then by their hops. -/
def LeakRow.Before (row other : LeakRow) : Prop :=
  row.acquireFqn < other.acquireFqn ∨
    ¬ other.acquireFqn < row.acquireFqn ∧ row.hops ≤ other.hops

instance : DecidableRel LeakRow.Before :=
  fun row other => inferInstanceAs (Decidable (row.acquireFqn < other.acquireFqn ∨ _ ∧ _))

deriving instance DecidableEq for PathRow

/-- A row of either kind. -/
inductive JudgedPath
  | sink (row : PathRow)
  | leak (row : LeakRow)
deriving DecidableEq

namespace JudgedPath

def ids : JudgedPath → List NodeId
  | sink row => row.ids
  | leak row => row.ids

def hops : JudgedPath → Nat
  | sink row => row.hops
  | leak row => row.hops

/-- `entry_fqn`, which the rows of leaks do not have. -/
def entryFqn : JudgedPath → Str
  | sink row => row.entryFqn
  | leak _ => []

/-- The order in which rows are judged. -/
def Before (path other : JudgedPath) : Prop :=
  path.hops < other.hops ∨ path.hops = other.hops ∧ ¬ other.entryFqn < path.entryFqn

instance : DecidableRel Before :=
  fun path other => inferInstanceAs (Decidable (path.hops < other.hops ∨ _ ∧ _))

end JudgedPath

/-- Keep the longest path of each pair of ends. -/
def keepLongest (best : Dict (NodeId × NodeId) JudgedPath) (path : JudgedPath) :
    Dict (NodeId × NodeId) JudgedPath :=
  match path.ids.head?, path.ids.getLast? with
  | some first, some last =>
      match best.get? (first, last) with
      | some previous =>
          if previous.ids.length < path.ids.length then best.set (first, last) path else best
      | none => best.set (first, last) path
  | _, _ => best

/-- `dedupe_paths`. -/
def dedupePaths (paths : List JudgedPath) : List JudgedPath :=
  (paths.foldl keepLongest Dict.empty).values.insertionSort JudgedPath.Before

/-- A function in the neighbourhood of another. -/
structure Callee where
  id : NodeId
  fqn : Str
  depth : Nat
deriving DecidableEq, Repr

/-- A function with its neighbourhood. -/
structure Target where
  id : NodeId
  fqn : Str
  file : Str
  line : Int
  callees : List Callee
deriving DecidableEq, Repr

/-- What a verdict is about. -/
inductive Subject
  | path (path : JudgedPath)
  | neighborhood (target : Target)
deriving DecidableEq

namespace CodeGraph

variable (graph : CodeGraph)

section Leaks

/-- The functions of the repository, once for each database acquisition they call. -/
def acquirers : List NodeId :=
  graph.functions.flatMap fun id =>
    ((graph.targets .callsExternal id).filter fun target =>
      decide (graph.externalKind target = some .dbAcquire)).map fun _ => id

/-- The row of a path below an acquiring function. -/
def leakRow (acquire : NodeId) (path : List NodeId) : LeakRow where
  ids := path
  fqns := path.map (graph.property StoredNode.fqn [])
  acquireId := acquire
  acquireFqn := graph.property StoredNode.fqn [] acquire
  acquireFile := graph.property StoredNode.file [] acquire
  acquireLine := graph.property StoredNode.startLine 0 acquire
  hops := path.length - 1

/-- The rows of the paths below a function. -/
def leakRowsFrom (maxDepth : Nat) (hubIds : List NodeId) (acquire : NodeId) : List LeakRow :=
  (trailsFrom graph.callSteps maxDepth [] acquire).filterMap fun path =>
    match path.getLast? with
    | none => none
    | some tail =>
        if graph.hasLabel .function tail = true ∧
            (path.all fun id => decide (id ∉ hubIds)) = true then
          some (graph.leakRow acquire path)
        else none

/-- `leak_paths`. -/
def leakPaths (maxDepth limit : Nat) (hubIds : List NodeId) : List LeakRow :=
  ((graph.acquirers.flatMap (graph.leakRowsFrom maxDepth hubIds)).insertionSort
    LeakRow.Before).take limit

end Leaks

section Neighborhoods

/-- The functions that trusted calls lead to in at most so many hops. -/
def calleesOf (hops : Nat) (id : NodeId) : List Callee :=
  ((trailsFrom graph.callSteps hops [] id).filterMap fun path =>
    match path.getLast? with
    | none => none
    | some last =>
        if 1 < path.length ∧ graph.hasLabel .function last = true then
          some ⟨last, graph.property StoredNode.fqn [] last, path.length - 1⟩
        else none).dedup

def neighborhoodOf (hops : Nat) (id : NodeId) : Target where
  id := id
  fqn := graph.property StoredNode.fqn [] id
  file := graph.property StoredNode.file [] id
  line := graph.property StoredNode.startLine 0 id
  callees := graph.calleesOf hops id

/-- `build`. -/
def neighborhoods (hops : Nat) : List Target :=
  (graph.freshFunctions.map (graph.neighborhoodOf hops)).insertionSort fun target other =>
    ¬ other.fqn < target.fqn

end Neighborhoods

/-- The paths that are judged. -/
def judgedPaths (marks : Marks) (query : PathQuery) : List JudgedPath :=
  dedupePaths ((graph.sinkPaths marks query).map .sink ++
    (graph.leakPaths query.maxDepth (query.limit / 2) query.hubIds).map .leak)

/-- The functions that are judged with their neighbourhoods. -/
def judgedFunctions (hops : Nat) : List Target :=
  (graph.neighborhoods hops).filter fun target => !target.callees.isEmpty

/-- All that is judged. -/
def subjects (marks : Marks) (query : PathQuery) (hops : Nat) : List Subject :=
  (graph.judgedPaths marks query).map .path ++ (graph.judgedFunctions hops).map .neighborhood

end CodeGraph

end GraphIngest.Analysis
