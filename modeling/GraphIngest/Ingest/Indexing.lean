import GraphIngest.Foundation.Script
import GraphIngest.Ingest.Discovery
import Mathlib.Data.Char
import Mathlib.Data.List.Lex
import Mathlib.Data.List.Sort

/-! # What an ingest compares

The manifest of a codebase, its hash, and the files by which it differs from what
is stored. A namespace with a ready graph of another hash is updated, any other
one is written anew.
-/

namespace GraphIngest.Ingest

open Foundation Text

/-- `build_manifest`: the hash of each source file. -/
def buildManifest (bodyHash : Bytes → Str) (codebase : Codebase) (relpaths : List Str) :
    Dict Str Str :=
  (discover bodyHash codebase relpaths).foldl (fun manifest file =>
    manifest.set file.relpath file.sha) Dict.empty

/-- The lines of a manifest, sorted by path. -/
def manifestLines (manifest : Dict Str Str) : List Str :=
  (manifest.entries.insertionSort fun first second => first.1 ≤ second.1).map fun entry =>
    entry.1 ++ ':' :: entry.2

/-- `codebase_hash`. -/
def codebaseHash (digest : Str → Str) (manifest : Dict Str Str) : Str :=
  digest (['\n'].intercalate (manifestLines manifest))

/-- How a namespace is brought up to date. -/
inductive Mode
  | full
  | incremental (changed deleted : List Str)
deriving DecidableEq

/-- The files that are new or have another hash than the stored one. -/
def changedFiles (manifest stored : Dict Str Str) : List Str :=
  (manifest.entries.filter fun entry => stored.get? entry.1 ≠ some entry.2).map Prod.fst

/-- The stored files that are gone. -/
def deletedFiles (manifest stored : Dict Str Str) : List Str :=
  stored.keys.filter fun relpath => relpath ∉ manifest.keys

/-- The mode of an ingest on top of a ready graph. -/
def updateMode (manifest stored : Dict Str Str) : Mode :=
  .incremental (changedFiles manifest stored) (deletedFiles manifest stored)

end GraphIngest.Ingest
