import GraphIngest.Analysis.CallNames
import GraphIngest.Analysis.ReplyObject
import GraphIngest.Analysis.SummaryReply
import GraphIngest.Analysis.SummarySeeds
import GraphIngest.Foundation.Sequence

/-! # The summary pass

Every file with functions that need a summary is handed to a pool of workers. A worker asks
the model for the functions of its file, a chunk at a time and a second time for a chunk whose
first reply is refused, and hands back the summaries of the chunks that were accepted; they are
stored as the files come back, in whatever order that is. What is stored does not depend on
that order, and a pass that follows asks for exactly the functions that were left without a
summary.
-/

namespace GraphIngest.Analysis

open Foundation Graph

section Calls

/-- One attempt: the summaries, if the reply is accepted. -/
def LLMResult.attempt (res : LLMResult) (expected : List Str) :
    Except Fault (Option (List Json)) :=
  if res.ok then
    match res.parsed with
    | none => .ok none
    | some members =>
        match validate (.object members) expected with
        | .ok rows => .ok (some rows)
        | .error (.validation _) => .ok none
        | .error .typeError => .error .typeError
  else .ok none

/-- `_run_chunk`, given what the client would make of each attempt: the summaries, and what the
client made of the attempts there were. -/
def runChunk (expected : List Str) :
    List LLMResult → Except Fault (List Json × List LLMResult)
  | [] => .ok ([], [])
  | res :: later => do
      match ← res.attempt expected with
      | some rows => return (rows, [res])
      | none =>
          let out ← runChunk expected later
          return (out.1, res :: out.2)

end Calls

section Files

/-- A file with the functions that need a summary. -/
structure Job where
  entry : FileRow
  pending : List FunctionRow

/-- What stops the work on a file. -/
inductive FileError
  | unreadable (file : Str)
  | raised (file : Str) (fault : Fault)
deriving DecidableEq, Repr

/-- What a worker hands back. -/
structure FileOutcome where
  rows : List SummaryRow := []
  results : List LLMResult := []
  calls : Nat := 0
  rereads : Nat := 0
  rejected : Nat := 0
  unknown : Nat := 0
  claimed : Nat := 0

/-- What a pass runs on: the tree of sources, what the client makes of every call (of a file in a
language, of a chunk of it, at an attempt), how values are shown and numbers sorted, and how many
functions are asked for at once. -/
structure PassContext where
  readSource : Str → Option Str
  complete : Str → Lang → Nat → Nat → LLMResult
  pyStr : Json → Str
  sortNumbers : List Json → List Json
  perCall : ℕ+

/-- `graph_facts`: the names of the functions that a function calls for certain. -/
def calleeNames (store : GraphStore) (id : NodeId) : List Str :=
  (store.relationships.entries.filter fun entry =>
    decide (entry.1.1 = EdgeType.calls) && decide (entry.1.2.1 = id) &&
      trusted entry.2.strategy).filterMap fun entry =>
        (store.nodes.get? entry.1.2.2).bind fun node =>
          if NodeLabel.function ∈ node.labels ∧ node.name ≠ [] then some node.name else none

/-- `known`: the names for every function of a job that is in the graph. -/
def knownCallees (store : GraphStore) (pending : List FunctionRow) : Dict Str (List Str) :=
  (pending.filter fun row => (store.nodes.get? row.id).isSome).foldl (fun known row =>
    known.set row.id.val (calleeNames store row.id)) .empty

/-- The row of a summary, with the hash of the function of the chunk that it is of. -/
def storedRow (chunk : List FunctionRow) (summary : Json) : Option SummaryRow :=
  (chunk.find? fun row => (idOf summary).any (isWord row.id.val)).map fun row =>
    ⟨row.id, summary, row.bodyHash.getD []⟩

variable (context : PassContext)

/-- What the client would make of the two attempts at a chunk of a file. -/
def PassContext.attempts (entry : FileRow) (index : Nat) : List LLMResult :=
  [1, 2].map fun attempt => context.complete entry.file entry.lang index attempt

/-- One turn of the loop over the chunks of a file. -/
def takeChunk (entry : FileRow) (out : FileOutcome) (chunk : List FunctionRow × Nat) :
    Except Fault FileOutcome := do
  let (rows, results) ← runChunk (chunk.1.map fun row => row.id.val)
    (context.attempts entry chunk.2)
  let out := { out with
    results := out.results ++ results
    calls := out.calls + results.length
    rereads := out.rereads + if chunk.2 = 0 then results.length - 1 else results.length }
  if rows.isEmpty then return { out with rejected := out.rejected + 1 }
  else return { out with rows := out.rows ++ rows.filterMap (storedRow chunk.1) }

/-- `_do_file`, behind the reading of the source. -/
def summarizeFile (store : GraphStore) (job : Job) : Except Fault FileOutcome := do
  let out ← (chunksOf context.perCall job.pending).zipIdx.foldlM (takeChunk context job.entry) {}
  let (unknown, claimed) ← unknownCalleeRate context.pyStr (out.rows.map SummaryRow.summary)
    (knownCallees store job.pending)
  return { out with unknown := unknown, claimed := claimed }

/-- `_do_file`. -/
def doFile (store : GraphStore) (job : Job) : Except FileError FileOutcome :=
  match context.readSource job.entry.file with
  | none => .error (.unreadable job.entry.file)
  | some _ => (summarizeFile context store job).mapError (.raised job.entry.file)

end Files

section Passes

/-- `PassAReport`, without the time. -/
@[ext]
structure PassReport where
  filesSeen : Nat := 0
  filesSkippedFresh : Nat := 0
  functionsSummarized : Nat := 0
  functionsSkippedFresh : Nat := 0
  callsMade : Nat := 0
  rereads : Nat := 0
  chunksRejected : Nat := 0
  throttledCalls : Nat := 0
  unknownCallees : Nat := 0
  claimedCallees : Nat := 0
  inputTokens : Nat := 0
  outputTokens : Nat := 0
  cacheReadTokens : Nat := 0
  cacheWriteTokens : Nat := 0
  errors : List FileError := []

namespace PassReport

variable (report : PassReport)

/-- A file that nothing is asked of, or that is asked about. -/
def count (entry : FileRow) : PassReport :=
  { report with
    functionsSkippedFresh := report.functionsSkippedFresh +
      (entry.functions.length - (needsSummary entry.functions).length)
    filesSkippedFresh := report.filesSkippedFresh +
      if (needsSummary entry.functions).isEmpty then 1 else 0 }

def addCall (res : LLMResult) : PassReport :=
  { report with
    throttledCalls := report.throttledCalls + if res.throttled then 1 else 0
    inputTokens := report.inputTokens + res.inputTokens
    outputTokens := report.outputTokens + res.outputTokens
    cacheReadTokens := report.cacheReadTokens + res.cacheReadTokens
    cacheWriteTokens := report.cacheWriteTokens + res.cacheWriteTokens }

def addFile (out : FileOutcome) : PassReport :=
  out.results.foldl addCall { report with
    filesSeen := report.filesSeen + 1
    callsMade := report.callsMade + out.calls
    rereads := report.rereads + out.rereads
    chunksRejected := report.chunksRejected + out.rejected
    unknownCallees := report.unknownCallees + out.unknown
    claimedCallees := report.claimedCallees + out.claimed }

end PassReport

/-- `jobs`: a file without a function that needs a summary is not read. -/
def jobsOf (files : List FileRow) : List Job :=
  (files.map fun entry => ⟨entry, needsSummary entry.functions⟩).filter fun job =>
    !job.pending.isEmpty

variable (context : PassContext)

/-- The graph and the report of a pass that goes on; one that is stopped by a summary that cannot
be scored has no report. -/
abbrev PassState := ScoredGraph × Except Fault PassReport

/-- What is done with the outcome of a file. -/
def settle (graph : ScoredGraph) (report : PassReport) :
    Except FileError FileOutcome → PassState
  | .error error => (graph, .ok { report with errors := report.errors ++ [error] })
  | .ok out =>
      let report := report.addFile out
      if out.rows.isEmpty then (graph, .ok report)
      else
        match graph.writeSummaries context.pyStr context.sortNumbers out.rows with
        | .error fault => (graph, .error fault)
        | .ok (written, count) =>
            (written, .ok { report with
              functionsSummarized := report.functionsSummarized + count })

/-- The files as they come back. -/
def gather (state : PassState) (job : Job) : PassState :=
  match state.2 with
  | .error _ => state
  | .ok report => settle context state.1 report (doFile context state.1.store job)

/-- `run_file_pass`, the files coming back in an order. -/
def runFilePass (graph : ScoredGraph) (files : List FileRow) (order : List Job) : PassState :=
  order.foldl (gather context) (graph, .ok (files.foldl PassReport.count {}))

/-- The files of a pass: those there are, or the first of them. -/
def passFiles (graph : ScoredGraph) (langs : List Lang) (limit : Option Nat) : List FileRow :=
  match limit with
  | some (count + 1) => (graph.filesWithFunctions langs).take (count + 1)
  | _ => graph.filesWithFunctions langs

end Passes

end GraphIngest.Analysis
