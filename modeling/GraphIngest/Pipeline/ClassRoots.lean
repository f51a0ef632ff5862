import GraphIngest.Bytecode.RoundTrip
import GraphIngest.Pipeline.Run

/-! # Where the class files come from

The bytecode pass reads the configured class roots, if there are any, and else what is
discovered in the tree. Where nothing is discovered the sources may be compiled on demand,
and what they compile to counts only when the whole compilation has succeeded. Over the
output of a build that is there nothing is ever compiled.
-/

namespace GraphIngest.Pipeline

open Foundation Text Graph Bytecode

/-- How javac ended, and the files in its output directory. -/
structure Compilation where
  exitCode : Int
  files : List (Str × List UInt8)

/-- What compiling the sources on demand meets with: the toggle, javac, the sources, and how
javac ends on them, if it can be launched and is in time. -/
structure Autocompile where
  enabled : Bool
  javacAvailable : Bool
  sources : List Str
  ran : Option Compilation

/-- `_MAX_SOURCES`. -/
def maxSources : Nat := 5000

namespace Autocompile

variable (compiler : Autocompile)

/-- `compile_tree`: the output directory. A partial compilation counts as none. -/
def compileTree : Option ClassSource :=
  if !compiler.javacAvailable then none
  else if compiler.sources.isEmpty then none
  else if maxSources < compiler.sources.length then none
  else
    match compiler.ran with
    | none => none
    | some compilation =>
        if compilation.exitCode ≠ 0 then none
        else if compilation.files.any fun file => ".class".toList.isSuffixOf file.1 then
          some (.directory compilation.files)
        else none

/-- `ensure_class_roots`. -/
def ensureClassRoots (existing : List ClassSource) : List ClassSource :=
  if !existing.isEmpty then existing
  else if !compiler.enabled then existing
  else compiler.compileTree.toList

end Autocompile

/-- Where a run looks for class files: the configured roots, those discovered in the tree, and
the compiler. -/
structure ClassSearch where
  configured : List ClassSource
  discovered : List ClassSource
  compiler : Autocompile

namespace ClassSearch

variable (search : ClassSearch)

/-- The class roots the pass is given; without any it discovers them itself. -/
def roots : List ClassSource :=
  if !search.configured.isEmpty then search.configured
  else
    let autoroots := search.compiler.ensureClassRoots search.discovered
    if !autoroots.isEmpty then autoroots else search.discovered

/-- What a run reads that looks for its class files. -/
def input (base : Input) : Input := { base with classes := iterClassSources search.roots }

/-- The same search when it finds no class file, neither in the tree nor under the configured
roots. -/
def foundNothing : ClassSearch :=
  { search with
    configured := search.configured.map fun _ => .directory []
    discovered := [] }

variable {search}

/-- What is discovered is read, whatever the compiler would make of the sources. -/
theorem roots_of_discovered (unconfigured : search.configured = [])
    (found : search.discovered ≠ []) : search.roots = search.discovered := by
  have some : search.discovered.isEmpty = false := List.isEmpty_eq_false_iff.mpr found
  simp only [roots, Autocompile.ensureClassRoots, unconfigured, some, List.isEmpty_nil,
    Bool.not_true, Bool.not_false, Bool.false_eq_true, ↓reduceIte]

/-- **Discovered classes.** Every well-formed class file in a discovered directory reaches the
pass. -/
theorem mem_classes_of_discovered {base : Input} {files : List (Str × List UInt8)} {path : Str}
    {file : Format.ClassFile} (unconfigured : search.configured = [])
    (found : .directory files ∈ search.discovered) (wellFormed : file.WellFormed)
    (listed : (path, file.encode) ∈ files) (isClass : ".class".toList.isSuffixOf path = true) :
    file.projection.info ∈ (search.input base).classes := by
  have whole : (path, file.encode ++ []) ∈ files := by
    rwa [List.append_nil]
  rw [input, roots_of_discovered unconfigured (List.ne_nil_of_mem found)]
  exact Format.mem_iterClassSources wellFormed found whole isClass

/-- Roots without class files hold no class. -/
theorem iterClassSources_emptied (roots : List ClassSource) :
    iterClassSources (roots.map fun _ => .directory []) = [] := by
  rw [iterClassSources, List.map_eq_nil_iff, List.flatMap_eq_nil_iff]
  intro root listed
  obtain ⟨_, _, rfl⟩ := List.mem_map.mp listed
  rfl

/-- Where nothing is found and nothing compiled, the pass is given no class. -/
theorem classes_foundNothing (base : Input)
    (idle : search.configured ≠ [] ∨ search.compiler.enabled = false ∨
      search.compiler.compileTree = none) :
    (search.foundNothing.input base).classes = [] := by
  change iterClassSources search.foundNothing.roots = []
  by_cases unconfigured : search.configured = []
  · have compiled : search.compiler.ensureClassRoots [] = [] := by
      rw [Autocompile.ensureClassRoots, List.isEmpty_nil, Bool.not_true, if_neg Bool.false_ne_true]
      rcases idle.resolve_left (not_not_intro unconfigured) with off | failed
      · rw [off]
        rfl
      · rw [failed]
        split <;> rfl
    have nothing : search.foundNothing.roots = [] := by
      simp only [roots, foundNothing, unconfigured, compiled, List.map_nil, List.isEmpty_nil,
        Bool.not_true, Bool.false_eq_true, ↓reduceIte]
    rw [nothing]
    rfl
  · have emptied : search.foundNothing.roots = search.configured.map fun _ => .directory [] := by
      have some : search.configured.isEmpty = false := List.isEmpty_eq_false_iff.mpr unconfigured
      simp only [roots, foundNothing, List.isEmpty_map, some, Bool.not_false, ↓reduceIte]
    rw [emptied]
    exact iterClassSources_emptied search.configured

end ClassSearch

end GraphIngest.Pipeline
