import GraphIngest.Foundation.Dict
import GraphIngest.Graph.Record

/-! # Discovery

Which files of a codebase are source files, and what is read of them. A path is
classified by its basename: artifacts come first, so that a declaration file is
never taken for source; then the extension decides on the language.
-/

namespace GraphIngest.Ingest

open Foundation Text Graph

/-- The contents of a file. -/
abbrev Bytes := List UInt8

/-- The kinds of non-source inputs. -/
inductive ArtifactKind
  | bytecode | archive | taglib | stub | buildconfig | webdeploy | jsconfig | pyconfig
deriving DecidableEq, Repr

/-- `EXT_ARTIFACT`. -/
def extArtifact : List (Str × ArtifactKind) :=
  [(".class", .bytecode), (".jar", .archive), (".war", .archive), (".ear", .archive),
   (".tld", .taglib), (".pyi", .stub)]

/-- `ARTIFACT_FILENAMES`. -/
def artifactFilenames : List (Str × ArtifactKind) :=
  [("pom.xml", .buildconfig), ("build.gradle", .buildconfig), ("build.gradle.kts", .buildconfig),
   ("settings.gradle", .buildconfig), ("settings.gradle.kts", .buildconfig),
   ("ivy.xml", .buildconfig), (".classpath", .buildconfig), ("manifest.mf", .buildconfig),
   ("web.xml", .webdeploy), ("tsconfig.json", .jsconfig), ("jsconfig.json", .jsconfig),
   ("package.json", .jsconfig), ("pyproject.toml", .pyconfig), ("pyrightconfig.json", .pyconfig),
   ("setup.cfg", .pyconfig)]

/-- `EXT_LANG`. -/
def extLang : List (Str × Lang) :=
  [(".java", .java), (".py", .python), (".sql", .sql), (".jsp", .jsp), (".jspf", .jsp),
   (".tag", .jsp), (".js", .javascript), (".jsx", .javascript), (".mjs", .javascript),
   (".cjs", .javascript), (".ts", .typescript), (".mts", .typescript), (".cts", .typescript),
   (".tsx", .tsx)]

/-- The extension of a path with its dot; dots at the front of a basename begin no
extension. -/
def extension (path : Str) : Str :=
  let name := afterLast '/' path
  match rpartition '.' name with
  | none => []
  | some (stem, suffix) => if stem.all fun letter => letter == '.' then [] else '.' :: suffix

/-- The artifact kind of a path, backslashes (code point 92) read as slashes. -/
def artifactKind (path : Str) : Option ArtifactKind :=
  let name := lower (afterLast '/' (replaceLetter (Char.ofNat 92) '/' path))
  match artifactFilenames.lookup name with
  | some kind => some kind
  | none =>
      if ".d.ts".toList.isSuffixOf name then some .stub else extArtifact.lookup (extension name)

/-- The language a path is parsed as, if it is source. -/
def sourceLang (path : Str) : Option Lang :=
  if (artifactKind path).isSome then none else extLang.lookup (extension path)

/-- Whether a basename is that of an AppleDouble resource fork. -/
def isMacosCruft (name : Str) : Bool := "._".toList.isPrefixOf name

/-- A source file that has been read. -/
structure FileInfo where
  relpath : Str
  lang : Lang
  sha : Str
  source : Bytes
deriving DecidableEq

/-- What stands behind a root: the contents of the files that can be read. -/
abbrev Codebase := Str → Option Bytes

section Discover

variable (bodyHash : Bytes → Str) (codebase : Codebase)

/-- One candidate. -/
def discoverOne (relpath : Str) : Option FileInfo :=
  if isMacosCruft (afterLast '/' relpath) then none
  else
    match sourceLang relpath with
    | none => none
    | some lang => (codebase relpath).map fun source =>
        { relpath := relpath, lang := lang, sha := bodyHash source, source := source }

/-- `discover`, for listed candidates. -/
def discover (relpaths : List Str) : List FileInfo :=
  relpaths.filterMap (discoverOne bodyHash codebase)

end Discover

example : sourceLang "web/types.d.ts" = none ∧ sourceLang "src/A.java" = some .java := by
  decide +kernel

end GraphIngest.Ingest
