import GraphIngest.Foundation.Registry
import GraphIngest.Graph.Record

/-! # Bundles

What the extractor makes of one file, and the merge of many bundles: of several
nodes with one id, edges with one place or references with one place, the first
is kept.
-/

namespace GraphIngest.Graph

open Foundation

/-- `CanonicalBundle`. -/
structure Bundle where
  nodes : List Node := []
  edges : List Edge := []
  refs : List RawRef := []
deriving DecidableEq

/-- The key under which the merge knows an edge. -/
structure EdgeSite where
  key : EdgeKey
  evidenceLine : Int
  evidenceCol : Int
  evidenceFile : Str
deriving DecidableEq

/-- The key under which the merge knows a reference. -/
structure RefSite where
  type : EdgeType
  src : NodeId
  targetName : Str
  refFile : Str
  refLine : Int
  refCol : Int
deriving DecidableEq

/-- The place of an edge. -/
def Edge.site (edge : Edge) : EdgeSite where
  key := edge.key
  evidenceLine := edge.evidenceLine
  evidenceCol := edge.evidenceCol
  evidenceFile := edge.evidenceFile

/-- The place of a reference. -/
def RawRef.site (ref : RawRef) : RefSite where
  type := ref.type
  src := ref.src
  targetName := ref.targetName
  refFile := ref.refFile
  refLine := ref.refLine
  refCol := ref.refCol

/-- The references the merge keeps. -/
def keptRefs (refs : List RawRef) : List RawRef := accepted RawRef.site [] refs

/-- `merge_bundles`. -/
def mergeBundles (bundles : List Bundle) : Bundle where
  nodes := accepted Node.id [] (bundles.flatMap Bundle.nodes)
  edges := accepted Edge.site [] (bundles.flatMap Bundle.edges)
  refs := keptRefs (bundles.flatMap Bundle.refs)

end GraphIngest.Graph
