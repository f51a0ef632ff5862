import GraphIngest.Analysis.Balloting
import GraphIngest.Analysis.CallNames
import GraphIngest.Analysis.Contract
import GraphIngest.Analysis.EntryPoints
import GraphIngest.Analysis.FilePass
import GraphIngest.Analysis.Findings
import GraphIngest.Analysis.Fingerprint
import GraphIngest.Analysis.Freshness
import GraphIngest.Analysis.Graph
import GraphIngest.Analysis.Judging
import GraphIngest.Analysis.Legibility
import GraphIngest.Analysis.Panel
import GraphIngest.Analysis.PassAccounts
import GraphIngest.Analysis.PassChunks
import GraphIngest.Analysis.PassOrder
import GraphIngest.Analysis.Paths
import GraphIngest.Analysis.Priority
import GraphIngest.Analysis.Reach
import GraphIngest.Analysis.ReachKinds
import GraphIngest.Analysis.Remarking
import GraphIngest.Analysis.Rendering
import GraphIngest.Analysis.ReplyObject
import GraphIngest.Analysis.Rescoring
import GraphIngest.Analysis.Review
import GraphIngest.Analysis.SingleFile
import GraphIngest.Analysis.Stability
import GraphIngest.Analysis.Subjects
import GraphIngest.Analysis.Subpaths
import GraphIngest.Analysis.SummaryReply
import GraphIngest.Analysis.SummarySeeds
import GraphIngest.Analysis.Verdicts
import GraphIngest.Bytecode.Apartness
import GraphIngest.Bytecode.BodyCoverage
import GraphIngest.Bytecode.BodyIdentity
import GraphIngest.Bytecode.CallBinding
import GraphIngest.Bytecode.ClassCopies
import GraphIngest.Bytecode.ClassFile
import GraphIngest.Bytecode.ClassOrder
import GraphIngest.Bytecode.CodeReading
import GraphIngest.Bytecode.Descriptors
import GraphIngest.Bytecode.EdgeEnds
import GraphIngest.Bytecode.Emission
import GraphIngest.Bytecode.ExternalFacts
import GraphIngest.Bytecode.ExternalKinds
import GraphIngest.Bytecode.Format
import GraphIngest.Bytecode.Guards
import GraphIngest.Bytecode.HeadersInUse
import GraphIngest.Bytecode.Hierarchy
import GraphIngest.Bytecode.InstructionScan
import GraphIngest.Bytecode.LineTables
import GraphIngest.Bytecode.Matcher
import GraphIngest.Bytecode.OverrideAuthority
import GraphIngest.Bytecode.OverrideBinding
import GraphIngest.Bytecode.Parser
import GraphIngest.Bytecode.Pass
import GraphIngest.Bytecode.PoolReading
import GraphIngest.Bytecode.RoundTrip
import GraphIngest.Bytecode.Scan
import GraphIngest.Bytecode.ShortReads
import GraphIngest.Catalog.Mining
import GraphIngest.Catalog.Positions
import GraphIngest.External.Classify
import GraphIngest.External.Taint
import GraphIngest.Foundation.Batching
import GraphIngest.Foundation.Copies
import GraphIngest.Foundation.Cutting
import GraphIngest.Foundation.Decoding
import GraphIngest.Foundation.Dict
import GraphIngest.Foundation.Disk
import GraphIngest.Foundation.Distances
import GraphIngest.Foundation.Fallible
import GraphIngest.Foundation.FileTree
import GraphIngest.Foundation.Finding
import GraphIngest.Foundation.FirstCome
import GraphIngest.Foundation.Flights
import GraphIngest.Foundation.Gathering
import GraphIngest.Foundation.Grouping
import GraphIngest.Foundation.Joining
import GraphIngest.Foundation.Json
import GraphIngest.Foundation.KeyedLog
import GraphIngest.Foundation.LevelSearch
import GraphIngest.Foundation.Matching
import GraphIngest.Foundation.Memo
import GraphIngest.Foundation.Nearest
import GraphIngest.Foundation.Nesting
import GraphIngest.Foundation.Preference
import GraphIngest.Foundation.Prefetch
import GraphIngest.Foundation.PropertyGraph
import GraphIngest.Foundation.Refusals
import GraphIngest.Foundation.Registry
import GraphIngest.Foundation.Rewriting
import GraphIngest.Foundation.Rose
import GraphIngest.Foundation.Saturation
import GraphIngest.Foundation.Script
import GraphIngest.Foundation.Sequence
import GraphIngest.Foundation.Slots
import GraphIngest.Foundation.Trails
import GraphIngest.Foundation.Upsert
import GraphIngest.Foundation.Utf8
import GraphIngest.Foundation.WorkQueue
import GraphIngest.Foundation.Worklist
import GraphIngest.Foundation.WritePool
import GraphIngest.Foundation.WrittenWords
import GraphIngest.Graph.BatchWrites
import GraphIngest.Graph.Bundle
import GraphIngest.Graph.Extractor
import GraphIngest.Graph.MergeBatches
import GraphIngest.Graph.MergeOrder
import GraphIngest.Graph.Record
import GraphIngest.Graph.Store
import GraphIngest.Ingest.BuildLock
import GraphIngest.Ingest.Checkpoint
import GraphIngest.Ingest.Discovery
import GraphIngest.Ingest.Extraction
import GraphIngest.Ingest.Indexing
import GraphIngest.Ingest.Namespaces
import GraphIngest.Ingest.ReadyFlag
import GraphIngest.Ingest.Recovery
import GraphIngest.Ingest.RefStream
import GraphIngest.Ingest.Resume
import GraphIngest.Ingest.Update
import GraphIngest.Ingest.UploadPaths
import GraphIngest.Ingest.Uploads
import GraphIngest.Java.Generics
import GraphIngest.Java.Members
import GraphIngest.Java.Resolution
import GraphIngest.Java.Supertypes
import GraphIngest.Java.SyntaxTree
import GraphIngest.Java.TypeWalk
import GraphIngest.Javac.Ambiguity
import GraphIngest.Javac.Resolver
import GraphIngest.Jsp.LineMap
import GraphIngest.Jsp.Markup
import GraphIngest.Jsp.Scan
import GraphIngest.Jsp.Translate
import GraphIngest.Pipeline.Ancestry
import GraphIngest.Pipeline.BackgroundWriter
import GraphIngest.Pipeline.BatchExtraction
import GraphIngest.Pipeline.ClassRoots
import GraphIngest.Pipeline.Deriving
import GraphIngest.Pipeline.Discard
import GraphIngest.Pipeline.ExternalFacts
import GraphIngest.Pipeline.ExtractCache
import GraphIngest.Pipeline.FirstWriter
import GraphIngest.Pipeline.Handoff
import GraphIngest.Pipeline.Holding
import GraphIngest.Pipeline.NodeSet
import GraphIngest.Pipeline.OverrideExactness
import GraphIngest.Pipeline.PackagePaths
import GraphIngest.Pipeline.PackageTree
import GraphIngest.Pipeline.Persistence
import GraphIngest.Pipeline.Queries
import GraphIngest.Pipeline.Reach
import GraphIngest.Pipeline.Renewal
import GraphIngest.Pipeline.Run
import GraphIngest.Pipeline.StoredGraph
import GraphIngest.Pipeline.TaintAgreement
import GraphIngest.Pipeline.Validation
import GraphIngest.Pipeline.Writing
import GraphIngest.Python.Calls
import GraphIngest.Python.Fields
import GraphIngest.Python.GlobalFields
import GraphIngest.Python.Globals
import GraphIngest.Resolve.Agreement
import GraphIngest.Resolve.Ancestors
import GraphIngest.Resolve.CallSteps
import GraphIngest.Resolve.Cap
import GraphIngest.Resolve.Checkpoint
import GraphIngest.Resolve.Coverage
import GraphIngest.Resolve.Dedup
import GraphIngest.Resolve.Endpoints
import GraphIngest.Resolve.Essence
import GraphIngest.Resolve.ExternalFacts
import GraphIngest.Resolve.Index
import GraphIngest.Resolve.Inheritance
import GraphIngest.Resolve.Interleaving
import GraphIngest.Resolve.LinkEnds
import GraphIngest.Resolve.Links
import GraphIngest.Resolve.Narrow
import GraphIngest.Resolve.Receiver
import GraphIngest.Resolve.Route
import GraphIngest.Resolve.RouteForm
import GraphIngest.Resolve.Run
import GraphIngest.Resolve.ScopeIndex
import GraphIngest.Resolve.SegmentCache
import GraphIngest.Resolve.SelfSupers
import GraphIngest.Resolve.Sink
import GraphIngest.Resolve.Step
import GraphIngest.Sql.ForeignKeys
import GraphIngest.Text
import GraphIngest.Transfer.Dump
import GraphIngest.Transfer.Fingerprint
import GraphIngest.Transfer.RoundTrip
