import GraphIngest.Ingest.BuildLock
import GraphIngest.Pipeline.Renewal

/-! # Bringing a namespace up to date

What a returned ingest of a tree leaves in the database: nothing new where the hash of
the sources is that of the ready graph; else the nodes of changed and removed files go, or
the whole repository where no graph is ready, and the run writes over what is kept.
-/

namespace GraphIngest.Ingest

open Foundation Text Graph Pipeline

/-- How trees are indexed: the hashes of files and manifests, the configuration, and the
extraction of nodes and references from source files. -/
structure Indexer where
  bodyHash : Bytes → Str
  digest : Str → Str
  options : Options
  extract : List FileInfo → Extraction

/-- A tree: its files, the class files found, what javac and the derive passes say of
them. -/
structure Tree where
  codebase : Codebase
  relpaths : List Str
  classes : List Bytecode.ClassInfo := []
  oracle : Option Javac.OracleOutput := none
  derived : Derived := { typed := derived_nil }

namespace Indexer

variable (indexer : Indexer) (tree : Tree)

/-- The manifest of a tree. -/
def manifest : Dict Str Str := buildManifest indexer.bodyHash tree.codebase tree.relpaths

/-- The hash of a tree, which is that of its source files. -/
def treeHash : Str := codebaseHash indexer.digest (indexer.manifest tree)

def fileHash (relpath : Str) : Str := (indexer.manifest tree).getD relpath []

/-- What a run on a tree reads. -/
def input : Input where
  options := indexer.options
  extraction := indexer.extract (discover indexer.bodyHash tree.codebase tree.relpaths)
  classes := tree.classes
  oracle := tree.oracle
  derived := tree.derived

/-- What is left to write over. -/
def cleared (mode : Mode) (before : Holding) : Holding :=
  match mode with
  | .full => before.wipe indexer.options.repo
  | .incremental changed deleted =>
      before.deleteFiles indexer.options.repo (changed ++ deleted)

/-- How a tree is ingested, if at all. -/
def mode (graphMeta : Option GraphMeta) (before : Holding) : Option Mode :=
  match Namespace.baseline graphMeta with
  | none => some .full
  | some hash =>
      if hash = indexer.treeHash tree then none
      else some (updateMode (indexer.manifest tree) (before.fileShas indexer.options.repo))

/-- The metadata of a namespace that is ready with a tree. -/
def ready : GraphMeta where
  codebaseHash := some (indexer.treeHash tree)
  status := some .ready

/-- What `index_repo` can leave when it returns. -/
def Indexed (mode : Mode) (before after : Holding) : Prop :=
  ∃ run, indexRepo (indexer.input tree) = .ok run ∧
    run.Finishes (run.written (indexer.fileHash tree) (indexer.cleared mode before)) after

/-- What a full ingest leaves in an empty store. -/
def Full (after : Holding) : Prop := indexer.Indexed tree .full {} after

/-- What `ensure_graph_indexed` can leave when it returns. -/
def Ensured (graphMeta : Option GraphMeta) (before after : Holding) : Prop :=
  match indexer.mode tree graphMeta before with
  | none => after = before
  | some mode => indexer.Indexed tree mode before after

section Scripts

/-- The writes of an ingest, as a job of a namespace. -/
def job : Job Holding where
  manifest := indexer.manifest tree
  index := fun mode =>
    match indexRepo (indexer.input tree) with
    | .error _ => .done
    | .ok run => Script.ofChanges
        [indexer.cleared mode, run.written (indexer.fileHash tree), run.finish]

/-- The runs of a namespace, each on a tree of its own. -/
def space (staleSeconds : Int) (trees : Nat → Tree) : Namespace Holding where
  digest := indexer.digest
  fileShas := fun graph => graph.fileShas indexer.options.repo
  staleSeconds := staleSeconds
  jobs := fun token => indexer.job (trees token)

variable {indexer tree}

/-- **Refinement of a job.** A run that does the writes of its job alone leaves what an ingest can
leave. -/
theorem indexed_job {run : IndexRun} (ran : indexRepo (indexer.input tree) = .ok run) (mode : Mode)
    (before : Holding) :
    indexer.Indexed tree mode before (((indexer.job tree).index mode).run before) := by
  refine ⟨run, ran, ?_⟩
  simp only [job, ran, Script.run_ofChanges, List.foldl_cons, List.foldl_nil]
  exact IndexRun.finishes_finish run _

/-- **Refinement of the plan.** The run of a token plans to ingest its tree in the mode that the
ingest chooses. -/
theorem plan_space (staleSeconds : Int) (trees : Nat → Tree) (token : Nat)
    (graphMeta : Option GraphMeta) (before : Holding) :
    (indexer.space staleSeconds trees).plan token (Namespace.baseline graphMeta) before =
      match indexer.mode (trees token) graphMeta before with
      | none => .closing
      | some mode => .planned mode := by
  unfold Namespace.plan mode
  cases Namespace.baseline graphMeta with
  | none => rfl
  | some hash =>
      change (if hash = indexer.treeHash (trees token) then _ else _) = _
      by_cases same : hash = indexer.treeHash (trees token)
      · simp only [same, ↓reduceIte]
      · simp only [same, ↓reduceIte]
        rfl

end Scripts

/-- Nothing of what was there before shows: what is skipped is up to date, and what is
written over is renewed. -/
def Renewed (graphMeta : Option GraphMeta) (before : Holding) : Prop :=
  match indexer.mode tree graphMeta before with
  | none => indexer.Full tree before
  | some mode => ∀ run, indexRepo (indexer.input tree) = .ok run →
      run.Renews (indexer.fileHash tree) (indexer.cleared mode before)

/-- **Skipped trees.** What is skipped is up to date where the graph was made of the same sources,
class files and answers of the other passes; the hash covers the sources alone. -/
theorem renewed_of_same_input {prior : Tree} {graphMeta : Option GraphMeta} {before : Holding}
    (skipped : indexer.mode tree graphMeta before = none) (written : indexer.Full prior before)
    (manifest : indexer.manifest prior = indexer.manifest tree)
    (input : indexer.input prior = indexer.input tree) :
    indexer.Renewed tree graphMeta before := by
  obtain ⟨run, ran, finished⟩ := written
  unfold Renewed
  rw [skipped]
  refine ⟨run, input ▸ ran, ?_⟩
  have hashes : indexer.fileHash prior = indexer.fileHash tree := by
    unfold fileHash
    rw [manifest]
  exact hashes ▸ finished

section Ends

variable {indexer tree}

theorem closed_cleared {before : Holding} (mode : Mode) (closed : before.Closed) :
    (indexer.cleared mode before).Closed := by
  cases mode with
  | full => exact closed.delete _
  | incremental changed deleted => exact closed.delete _

theorem closed_of_ensured {graphMeta : Option GraphMeta} {before after : Holding}
    (closed : before.Closed) (ensured : indexer.Ensured tree graphMeta before after) :
    after.Closed := by
  unfold Ensured at ensured
  split at ensured
  · exact ensured ▸ closed
  · next mode _ =>
      obtain ⟨run, _, finished⟩ := ensured
      exact finished.closed (IndexRun.closed_written (closed_cleared mode closed))

/-- **Closed database.** Whatever trees are ingested one after the other, the ends of every
relationship in the database are nodes of it. -/
theorem closed_of_ensures {after : Holding} (ensures : Relation.ReflTransGen
      (fun before after => ∃ tree graphMeta, indexer.Ensured tree graphMeta before after)
      {} after) : after.Closed := by
  induction ensures with
  | refl => exact Holding.closed_empty
  | tail _ step closed =>
      obtain ⟨_, _, ensured⟩ := step
      exact closed_of_ensured closed ensured

end Ends

section Samples

/-- A File node of a sample tree. -/
def sampleFile (package file : Str) : Node where
  id := Bytecode.plainId "demo" file "file"
  label := .file
  name := file
  fqn := file
  repo := "demo"
  lang := .java
  file := file
  package := package

/-- `class A extends Base` in `p/A.java`, behind an import of `q.*`. -/
def sampleRefs : List RawRef :=
  [{ type := .imports, src := (sampleFile "p" "p/A.java").id, targetName := "q.*",
     kindHint := .importWildcard, importFqn := "q", refFile := "p/A.java", refLine := 2 },
   { type := .extends, src := (Bytecode.sampleClass "p.A" "p/A.java").id, targetName := "Base",
     kindHint := .type, refFile := "p/A.java", refLine := 3 }]

def sampleContains (package file cls : Str) : Edge where
  type := .contains
  src := (sampleFile package file).id
  dst := (Bytecode.sampleClass cls file).id

/-- `p/A.java` and `q/Base.java`, each with its class. -/
def twoFiles : Extraction where
  nodes :=
    [sampleFile "p" "p/A.java", Bytecode.sampleClass "p.A" "p/A.java",
     sampleFile "q" "q/Base.java", Bytecode.sampleClass "q.Base" "q/Base.java"]
  edges := [sampleContains "p" "p/A.java" "p.A", sampleContains "q" "q/Base.java" "q.Base"]
  refs := sampleRefs
  javaFilesSeen := 2
  distinct := by decide +kernel
  sourced := by decide +kernel
  structural := by decide +kernel
  raw := by decide +kernel

/-- The same files and `p/Base.java`, whose class now is the nearest of its name. -/
def threeFiles : Extraction where
  nodes := twoFiles.nodes ++
    [sampleFile "p" "p/Base.java", Bytecode.sampleClass "p.Base" "p/Base.java"]
  edges := twoFiles.edges ++ [sampleContains "p" "p/Base.java" "p.Base"]
  refs := sampleRefs
  javaFilesSeen := 3
  distinct := by decide +kernel
  sourced := by decide +kernel
  structural := by decide +kernel
  raw := by decide +kernel

/-- An indexer that knows these extractions. -/
def sampleIndexer : Indexer where
  bodyHash := fun source => source.map fun byte => Char.ofNat byte.toNat
  digest := id
  options := sampleOptions
  extract := fun files => if files.length = 2 then twoFiles else threeFiles

/-- A tree of some files, of one byte each. -/
def sampleTree (relpaths : List Str) : Tree where
  codebase := fun relpath => if relpath ∈ relpaths then some [65] else none
  relpaths := relpaths

def firstRun : IndexRun where
  input := sampleIndexer.input (sampleTree ["p/A.java", "q/Base.java"])
  bytecode := none
  ran := rfl

/-- What it leaves in an empty store. -/
def firstGraph : Holding :=
  firstRun.finish (firstRun.written
    (sampleIndexer.fileHash (sampleTree ["p/A.java", "q/Base.java"])) {})

def secondRun : IndexRun where
  input := sampleIndexer.input (sampleTree ["p/A.java", "q/Base.java", "p/Base.java"])
  bytecode := none
  ran := rfl

/-- What it leaves there. -/
def secondGraph : Holding :=
  secondRun.finish (secondRun.written
    (sampleIndexer.fileHash (sampleTree ["p/A.java", "q/Base.java", "p/Base.java"]))
      (sampleIndexer.cleared (.incremental ["p/Base.java"] []) firstGraph))

end Samples

end Indexer

end GraphIngest.Ingest
