import GraphIngest.Foundation.Nearest
import GraphIngest.Resolve.Agreement
import GraphIngest.Resolve.Ancestors
import GraphIngest.Resolve.Coverage
import Mathlib.Data.List.Find

/-! # The order of the files

References come file by file, in no fixed order of the files. What they import is kept
file by file, and what a run emits and counts is put together reference by reference. One
list is made across files: a class that is declared in several of them gets its supertypes
in the order of the references. It shows where a call looks a method up, and the files leave
it open which of the nearest declarations comes first.
-/

namespace GraphIngest.Resolve

open Foundation Text Graph External

/-- The same references with the order kept in each file. -/
structure Interleaves (first second : List RawRef) : Prop where
  perm : first.Perm second
  files : ∀ file, first.filter (fun ref => ref.refFile = file) =
    second.filter fun ref => ref.refFile = file

/-- What is compared of an edge. -/
def shown (edge : Edge) : EdgeType × NodeId × NodeId × Confidence × Str :=
  (edge.type, edge.src, edge.dst, edge.confidence, edge.strategy)

/-- Two runs emit the same edges and count the same. -/
structure SameResult (settings : Settings) (first second : Corpus) : Prop where
  edges : ∀ edge, edge ∈ (emitted settings first).map shown ↔
    edge ∈ (emitted settings second).map shown
  coverage : ∀ type, (resolve settings first).coverage.get? type =
    (resolve settings second).coverage.get? type

namespace Corpus

variable (corpus : Corpus)

/-- So many supertypes lead from one class to another. -/
abbrev Up : Nat → NodeId → NodeId → Prop := StepsTo corpus.directSupers

/-- A class other than the one a method is looked up in declares it. -/
def Answers (start : NodeId) (name : Str) (cls : NodeId) : Prop :=
  corpus.methodsOfClass cls name ≠ [] ∧ cls ≠ start

/-- So many supertypes lead to a class that answers. -/
def LeadsUp (start : NodeId) (name : Str) (steps : Nat) (cls : NodeId) : Prop :=
  ∃ above, corpus.Up steps cls above ∧ corpus.Answers start name above

/-- Among the supertypes of a class with a property, some file names this one first. -/
def NamedFirst (cls : NodeId) (holds : NodeId → Prop) (super : NodeId) : Prop :=
  ∃ ref earlier later, corpus.refs.filter (fun other => other.refFile = ref.refFile) =
      earlier ++ ref :: later ∧
    corpus.NamesSuper ref cls super ∧
    ∀ other ∈ earlier, ∀ super, corpus.NamesSuper other cls super → ¬ holds super

/-- Which of the supertypes with a property comes first is up to the order of the files: no
edge gives one, and two files differ on the first. -/
structure OpenChoice (cls : NodeId) (holds : NodeId → Prop) (first second : NodeId) : Prop where
  different : first ≠ second
  unedged : ∀ super, corpus.HierarchyEdge cls super → ¬ holds super
  first_named : corpus.NamedFirst cls holds first
  second_named : corpus.NamedFirst cls holds second

/-- On the way from a class to the nearest ones that answer for a method, it is up to the order
of the files to which of two different ones it leads. -/
structure Rivals (start : NodeId) (name : Str) (below above : Nat)
    (cls first second left right : NodeId) : Prop where
  reached : corpus.Up below start cls
  nearest : ∀ fewer < below + (above + 1), ¬ corpus.LeadsUp start name fewer start
  choice : corpus.OpenChoice cls (corpus.LeadsUp start name above) first second
  left_above : corpus.Up above first left
  right_above : corpus.Up above second right
  left_answers : corpus.Answers start name left
  right_answers : corpus.Answers start name right
  apart : left ≠ right

/-- A method that rivals answer for. -/
def Contested (start : NodeId) (name : Str) : Prop :=
  ∃ below above cls first second left right,
    corpus.Rivals start name below above cls first second left right

/-- No method that a call looks up is contested where it is looked up. -/
def Settled (settings : Settings) : Prop :=
  ∀ ref ∈ corpus.refs, corpus.LooksUp settings ref → ∀ start ∈ corpus.lookupClasses ref,
    ¬ corpus.Contested start ref.targetName

/-- The supertype that a reference names for a class. -/
def namedSuper (cls : NodeId) (ref : RawRef) : Option NodeId :=
  if (ref.type = .extends ∨ ref.type = .implements) ∧ corpus.hierarchySource ref = some cls ∧
      corpus.isClass cls = true then
    (corpus.soleCandidate ref).filter fun super => super ≠ cls
  else none

variable {corpus}

theorem namedSuper_eq_some {cls super : NodeId} {ref : RawRef} :
    corpus.namedSuper cls ref = some super ↔ corpus.NamesSuper ref cls super := by
  unfold namedSuper NamesSuper NamesClass
  split
  · next named =>
      rw [Option.filter_eq_some_iff, decide_eq_true_eq]
      exact ⟨fun ⟨sole, other⟩ => ⟨named.1, named.2.1, named.2.2, sole, other⟩,
        fun names => ⟨names.2.2.2.1, names.2.2.2.2⟩⟩
  · next unnamed =>
      exact iff_of_false (by rintro ⟨⟩) fun names => unnamed ⟨names.1, names.2.1, names.2.2.1⟩

/-- A supertype named first is put last. -/
theorem addSuper_of_names {cls super : NodeId} {supers : List NodeId} {ref : RawRef}
    (names : corpus.NamesSuper ref cls super) (new : super ∉ supers) :
    corpus.addSuper cls supers ref = supers ++ [super] := by
  obtain ⟨typed, source, isClass, sole, other⟩ := names
  unfold soleCandidate at sole
  unfold addSuper
  rw [if_pos typed, if_pos ⟨source, isClass⟩]
  split at sole
  · next node _ =>
      obtain rfl := Option.some.inj sole
      exact if_pos ⟨other, new⟩
  · cases sole

theorem find?_addSuper (wanted : NodeId → Bool) (cls : NodeId) (supers : List NodeId) (ref : RawRef) :
    (corpus.addSuper cls supers ref).find? wanted =
      (supers.find? wanted).or ((corpus.namedSuper cls ref).filter wanted) := by
  cases named : corpus.namedSuper cls ref with
  | none =>
      have idle : corpus.addSuper cls supers ref = supers := by
        refine addSuper_eq_self.mpr fun super names => ?_
        cases named.symm.trans (namedSuper_eq_some.mpr names)
      rw [idle, Option.filter_none, Option.or_none]
  | some super =>
      have names := namedSuper_eq_some.mp named
      by_cases old : super ∈ supers
      · have idle : corpus.addSuper cls supers ref = supers := by
          refine addSuper_eq_self.mpr fun other again => ?_
          rwa [← Option.some.inj (named.symm.trans (namedSuper_eq_some.mpr again))]
        rw [idle, Option.filter_some]
        split
        · next wants =>
            obtain ⟨first, found⟩ := Option.isSome_iff_exists.mp
              (List.find?_isSome.mpr ⟨super, old, wants⟩)
            rw [found, Option.some_or]
        · rw [Option.or_none]
      · rw [addSuper_of_names names old, List.find?_append, List.find?_singleton,
          Option.filter_some]

/-- The first wanted supertype: one that an edge gives, or else one that a reference names. -/
theorem find?_directSupers (wanted : NodeId → Bool) (cls : NodeId) :
    (corpus.directSupers cls).find? wanted = ((corpus.edgedSupers cls).find? wanted).or
      (corpus.refs.findSome? fun ref => (corpus.namedSuper cls ref).filter wanted) := by
  have each : ∀ (refs : List RawRef) (supers : List NodeId),
      (refs.foldl (corpus.addSuper cls) supers).find? wanted = (supers.find? wanted).or
        (refs.findSome? fun ref => (corpus.namedSuper cls ref).filter wanted) := by
    intro refs
    induction refs with
    | nil => exact fun supers => Option.or_none.symm
    | cons ref rest ih =>
        intro supers
        rw [List.foldl_cons, ih, find?_addSuper, Option.or_assoc, List.findSome?_cons]
        cases (corpus.namedSuper cls ref).filter wanted <;> rfl
  rw [directSupers_eq_foldl]
  exact each corpus.refs _

end Corpus

section Order

variable {nodes : List Node} {edges : List EdgeKey} {refs others : List RawRef}

/-- The first hit of a search through the references comes before all other hits of its
file. -/
theorem exists_of_findSome? {α : Type} {hit : RawRef → Option α} {found : α}
    (first : refs.findSome? hit = some found) :
    ∃ ref earlier later, refs.filter (fun other => other.refFile = ref.refFile) =
        earlier ++ ref :: later ∧
      hit ref = some found ∧ ∀ other ∈ earlier, hit other = none := by
  obtain ⟨front, ref, back, rfl, own, before⟩ := List.findSome?_eq_some_iff.mp first
  refine ⟨ref, front.filter fun other => other.refFile = ref.refFile,
    back.filter fun other => other.refFile = ref.refFile, ?_, own, ?_⟩
  · simp only [List.filter_append, List.filter_cons, decide_true, ↓reduceIte]
  · exact fun other kept => before other (List.mem_of_mem_filter kept)

/-- Files import the same in any order. -/
theorem sameImports_of_interleaves (mixed : Interleaves refs others) :
    SameImports ⟨nodes, edges, refs⟩ ⟨nodes, edges, others⟩ := by
  have imports : Corpus.importRefs ⟨nodes, edges, refs⟩ =
      Corpus.importRefs ⟨nodes, edges, others⟩ := by
    funext file
    have split : ∀ list : List RawRef,
        (list.filter fun ref => ref.type = .imports ∧ ref.refFile ≠ [] ∧ ref.refFile = file) =
          (list.filter fun ref => ref.refFile = file).filter fun ref =>
            ref.type = .imports ∧ ref.refFile ≠ [] := by
      intro list
      rw [List.filter_filter]
      refine List.filter_congr fun ref _ => ?_
      simp only [Bool.decide_and, Bool.and_assoc]
    simp only [Corpus.importRefs, split, mixed.files]
  refine ⟨rfl, rfl, ?_, ?_, ?_⟩
  · intro file name
    simp only [Corpus.importsOf, imports]
  · intro file fqn
    simp only [Corpus.importFqnsOf, imports]
  · intro file package
    simp only [Corpus.wildcardPackagesOf, imports]

theorem namedSuper_eq (mixed : Interleaves refs others) :
    Corpus.namedSuper ⟨nodes, edges, refs⟩ = Corpus.namedSuper ⟨nodes, edges, others⟩ := by
  have same := @sameImports_of_interleaves nodes edges refs others mixed
  funext cls ref
  simp only [Corpus.namedSuper, Corpus.hierarchySource, Corpus.soleCandidate, same.narrowType_eq,
    same.symbols]
  rfl

/-- A class has the same supertypes in any order. -/
theorem super_iff (mixed : Interleaves refs others) (cls super : NodeId) :
    super ∈ Corpus.directSupers ⟨nodes, edges, refs⟩ cls ↔
      super ∈ Corpus.directSupers ⟨nodes, edges, others⟩ cls := by
  rw [Corpus.mem_directSupers, Corpus.mem_directSupers]
  refine or_congr Iff.rfl (exists_congr fun ref => and_congr mixed.perm.mem_iff ?_)
  rw [← Corpus.namedSuper_eq_some, ← Corpus.namedSuper_eq_some, namedSuper_eq mixed]

/-- Where two orders put different supertypes first among the wanted ones, the files leave the
choice open. -/
theorem openChoice_of_find? (mixed : Interleaves refs others) {wanted : NodeId → Bool}
    {cls first second : NodeId}
    (found : (Corpus.directSupers ⟨nodes, edges, refs⟩ cls).find? wanted = some first)
    (met : (Corpus.directSupers ⟨nodes, edges, others⟩ cls).find? wanted = some second)
    (different : first ≠ second) :
    Corpus.OpenChoice ⟨nodes, edges, refs⟩ cls (fun super => wanted super = true) first second := by
  have sameEdges : Corpus.edgedSupers ⟨nodes, edges, others⟩ cls =
      Corpus.edgedSupers ⟨nodes, edges, refs⟩ cls := rfl
  rw [Corpus.find?_directSupers] at found met
  rw [sameEdges, ← namedSuper_eq mixed] at met
  cases edged : (Corpus.edgedSupers ⟨nodes, edges, refs⟩ cls).find? wanted with
  | some super =>
      rw [edged, Option.some_or, Option.some.injEq] at found met
      exact (different (found.symm.trans met)).elim
  | none =>
      rw [edged, Option.none_or] at found met
      have names : ∀ {ref super}, (Corpus.namedSuper ⟨nodes, edges, refs⟩ cls ref).filter wanted =
          some super → Corpus.NamesSuper ⟨nodes, edges, refs⟩ ref cls super := fun hit =>
        Corpus.namedSuper_eq_some.mp (Option.filter_eq_some_iff.mp hit).1
      have silent : ∀ {ref}, (Corpus.namedSuper ⟨nodes, edges, refs⟩ cls ref).filter wanted = none →
          ∀ super, Corpus.NamesSuper ⟨nodes, edges, refs⟩ ref cls super → ¬ wanted super = true := by
        intro ref missed super named wants
        rw [Corpus.namedSuper_eq_some.mpr named, Option.filter_some, if_pos wants] at missed
        cases missed
      obtain ⟨ref, earlier, later, split, own, before⟩ := exists_of_findSome? found
      obtain ⟨other, front, back, parts, hit, missed⟩ := exists_of_findSome? met
      rw [← mixed.files] at parts
      exact ⟨different,
        fun super given => List.find?_eq_none.mp edged super (Corpus.mem_edgedSupers.mpr given),
        ⟨ref, earlier, later, split, names own, fun past listed => silent (before past listed)⟩,
        ⟨other, front, back, parts, names hit, fun past listed => silent (missed past listed)⟩⟩

/-- **Inheritance.** What is not contested is inherited alike in any order. -/
theorem inheritedMembers_eq (mixed : Interleaves refs others) {start : NodeId} {name : Str}
    (calm : ¬ Corpus.Contested ⟨nodes, edges, refs⟩ start name) :
    Corpus.inheritedMembers ⟨nodes, edges, refs⟩ [start] name =
      Corpus.inheritedMembers ⟨nodes, edges, others⟩ [start] name := by
  let declares (cls : NodeId) : Bool :=
    !(Corpus.methodsOfClass ⟨nodes, edges, refs⟩ cls name).isEmpty
  let wanted (cls : NodeId) : Bool := declares cls && decide (cls ≠ start)
  have answers : ∀ cls, wanted cls = true ↔
      Corpus.Answers ⟨nodes, edges, refs⟩ start name cls := by
    intro cls
    simp only [wanted, declares, Bool.and_eq_true, Bool.not_eq_true', List.isEmpty_eq_false_iff,
      decide_eq_true_eq, Corpus.Answers]
  have leadsUp : ∀ steps cls,
      leads (Corpus.directSupers ⟨nodes, edges, refs⟩) wanted steps cls = true ↔
        Corpus.LeadsUp ⟨nodes, edges, refs⟩ start name steps cls := by
    intro steps cls
    simp only [leads_iff, answers, Corpus.LeadsUp]
  have found : ∀ list : List RawRef,
      (Corpus.ancestorChain ⟨nodes, edges, list⟩ start).find? declares =
        (search (Corpus.directSupers ⟨nodes, edges, list⟩) (edges.length + list.length + 2) [start]
          (Corpus.directSupers ⟨nodes, edges, list⟩ start)).find? wanted := by
    intro list
    rw [← Corpus.ancestorsFrom_eq_search]
    refine List.find?_congr fun ancestor listed => ?_
    have other : ancestor ≠ start := (Corpus.mem_ancestorChain.mp listed).1
    simp only [wanted, other, ne_eq, not_false_eq_true, decide_true, Bool.and_true]
  have settles : Settles (Corpus.directSupers ⟨nodes, edges, refs⟩) wanted
      (Corpus.directSupers ⟨nodes, edges, others⟩) start := by
    intro below above cls first second reached nearest comes arrives different left right up on
      wants needs
    by_contra apart
    have choice := openChoice_of_find? mixed comes arrives different
    simp only [leadsUp] at choice
    refine calm ⟨below, above, cls, first, second, left, right, reached, ?_, choice, up, on,
      (answers left).mp wants, (answers right).mp needs, apart⟩
    intro fewer bound led
    exact Bool.false_ne_true ((nearest fewer bound).symm.trans ((leadsUp fewer start).mpr led))
  have met : (Corpus.ancestorChain ⟨nodes, edges, refs⟩ start).find? declares =
      (Corpus.ancestorChain ⟨nodes, edges, others⟩ start).find? declares := by
    rw [found, found, ← mixed.perm.length_eq]
    refine find?_search_congr Corpus.mem_supers (super_iff mixed) Corpus.length_supers_le ?_ settles
    simp only [wanted, ne_eq, not_true_eq_false, decide_false, Bool.and_false]
  rw [Corpus.inheritedMembers, Corpus.inheritedMembers, List.flatMap_singleton,
    List.flatMap_singleton, Corpus.firstNonempty_map_eq, Corpus.firstNonempty_map_eq]
  exact congrArg (fun ancestor => (ancestor.map fun cls =>
    Corpus.methodsOfClass ⟨nodes, edges, refs⟩ cls name).getD []) met

end Order

section Runs

variable {settings : Settings} {nodes : List Node} {edges : List EdgeKey}
  {refs others : List RawRef}

theorem Interleaves.symm (mixed : Interleaves refs others) : Interleaves others refs :=
  ⟨mixed.perm.symm, fun file => (mixed.files file).symm⟩

/-- A listed reference is resolved alike in any order. -/
theorem resolveOneRef_interleaved (mixed : Interleaves refs others)
    (settled : Corpus.Settled ⟨nodes, edges, refs⟩ settings) {ref : RawRef} (listed : ref ∈ refs)
    (memo : Memo) :
    resolveOneRef settings ⟨nodes, edges, others⟩ memo ref =
      resolveOneRef settings ⟨nodes, edges, refs⟩ memo ref := by
  refine (sameImports_of_interleaves mixed.symm).resolveOneRef_eq settings ?_ memo
  intro looks start asked
  exact (inheritedMembers_eq mixed (settled ref listed looks start asked)).symm

theorem linksOf_interleaved (mixed : Interleaves refs others)
    (settled : Corpus.Settled ⟨nodes, edges, refs⟩ settings) {ref : RawRef} (listed : ref ∈ refs) :
    linksOf settings ⟨nodes, edges, others⟩ ref = linksOf settings ⟨nodes, edges, refs⟩ ref := by
  rw [linksOf, resolveOneRef_interleaved mixed settled listed, linksOf]

theorem nextAnswer_interleaved (mixed : Interleaves refs others)
    (settled : Corpus.Settled ⟨nodes, edges, refs⟩ settings) {ref : RawRef} (listed : ref ∈ refs) :
    nextAnswer settings ⟨nodes, edges, others⟩ {} ref =
      nextAnswer settings ⟨nodes, edges, refs⟩ {} ref := by
  rw [nextAnswer, resolveOneRef_interleaved mixed settled listed, nextAnswer]

/-- The edges of a run are those of any order. -/
theorem emitted_perm (mixed : Interleaves refs others)
    (settled : Corpus.Settled ⟨nodes, edges, refs⟩ settings) :
    (emitted settings ⟨nodes, edges, refs⟩).Perm (emitted settings ⟨nodes, edges, others⟩) := by
  have same : others.flatMap (linksOf settings ⟨nodes, edges, others⟩) =
      others.flatMap (linksOf settings ⟨nodes, edges, refs⟩) :=
    List.flatMap_congr fun ref listed =>
      linksOf_interleaved mixed settled (mixed.perm.mem_iff.mpr listed)
  rw [emitted_eq, emitted_eq, same]
  exact mixed.perm.flatMap_right _

/-- So are the counts. -/
theorem coverage_interleaved (mixed : Interleaves refs others)
    (settled : Corpus.Settled ⟨nodes, edges, refs⟩ settings) (type : EdgeType) :
    (resolve settings ⟨nodes, edges, refs⟩).coverage.get? type =
      (resolve settings ⟨nodes, edges, others⟩).coverage.get? type := by
  have entries : ((resolve settings ⟨nodes, edges, refs⟩).coverage.get? type).isSome =
      ((resolve settings ⟨nodes, edges, others⟩).coverage.get? type).isSome := by
    rw [Bool.eq_iff_iff]
    refine (isSome_memoAfter refs {} type).trans (Iff.trans ?_ (isSome_memoAfter others {} type).symm)
    refine or_congr Iff.rfl (exists_congr fun ref => ?_)
    rw [mixed.perm.mem_iff]
    refine and_congr_right fun listed => ?_
    rw [CountsUnder, CountsUnder,
      nextAnswer_interleaved mixed settled (mixed.perm.mem_iff.mpr listed)]
  have counts : (resolve settings ⟨nodes, edges, refs⟩).coverage.getD type {} =
      (resolve settings ⟨nodes, edges, others⟩).coverage.getD type {} := by
    have shares : others.map (fun ref => share settings ⟨nodes, edges, others⟩ ref type) =
        others.map fun ref => share settings ⟨nodes, edges, refs⟩ ref type := by
      refine List.map_congr_left fun ref listed => ?_
      rw [share, share, nextAnswer_interleaved mixed settled (mixed.perm.mem_iff.mpr listed)]
    have summed := (counted_memoAfter refs {} type).trans
      ((congrArg _ (mixed.perm.map fun ref => share settings ⟨nodes, edges, refs⟩ ref type).sum_eq))
    rw [← shares] at summed
    exact summed.trans (counted_memoAfter others {} type).symm
  unfold Dict.getD at counts
  cases held : (resolve settings ⟨nodes, edges, refs⟩).coverage.get? type with
  | none =>
      rw [held] at entries
      exact (Option.isSome_eq_false_iff.mp entries.symm |> Option.isNone_iff_eq_none.mp).symm
  | some entry =>
      rw [held] at entries counts
      obtain ⟨other, met⟩ := Option.isSome_iff_exists.mp entries.symm
      rw [met] at counts ⊢
      exact congrArg some counts

end Runs

section Sample

/-- References of different files may trade places. -/
theorem interleaves_swap {first second : RawRef} (apart : first.refFile ≠ second.refFile)
    (rest : List RawRef) : Interleaves (first :: second :: rest) (second :: first :: rest) := by
  refine ⟨.swap second first rest, fun file => ?_⟩
  by_cases own : first.refFile = file
  · have other : second.refFile ≠ file := fun same => apart (own.trans same.symm)
    simp only [List.filter_cons, own, other, decide_true, decide_false, Bool.false_eq_true,
      ↓reduceIte]
  · simp only [List.filter_cons, own, decide_false, Bool.false_eq_true, ↓reduceIte]

/-- A method that one function alone is named after is not contested. -/
theorem not_contested_of_sole {corpus : Corpus} {start : NodeId} {name : Str} {id : NodeId}
    (sole : ∀ node ∈ corpus.nodes, node.label = .function → node.name = name → node.id = id) :
    ¬ corpus.Contested start name := by
  have parent : ∀ cls, corpus.methodsOfClass cls name ≠ [] → corpus.parentOf id = some cls := by
    intro cls declared
    obtain ⟨node, listed⟩ := List.exists_mem_of_ne_nil _ declared
    obtain ⟨member, fits⟩ := List.mem_filter.mp listed
    simp only [Corpus.isMemberOf, Bool.and_eq_true, decide_eq_true_eq] at fits
    rw [← sole node member fits.1.1.1 fits.1.2]
    exact fits.2.1
  rintro ⟨_, _, _, _, _, left, right, rivals⟩
  have same := (parent left rivals.left_answers.1).symm.trans (parent right rivals.right_answers.1)
  exact rivals.apart (Option.some.inj same)

/-- A class or a function of the sample. -/
def spreadSymbol (id : Char) (label : NodeLabel) (name file : Str) : Node where
  id := letterId id
  label := label
  name := name
  fqn := name
  repo := []
  kind := if label = .cls then .cls else .method
  file := file

/-- `Foo` with the two classes it extends, of which `A` has a method `bar`, and `run`. -/
def spreadNodes : List Node :=
  [spreadSymbol 'f' .cls "Foo" "p", spreadSymbol 'a' .cls "A" "a", spreadSymbol 'b' .cls "B" "b",
   spreadSymbol 'x' .function "bar" "a", spreadSymbol 'r' .function "run" "c"]

/-- The methods are contained in their classes. -/
def spreadEdges : List EdgeKey :=
  [(.contains, letterId 'a', letterId 'x'), (.contains, letterId 'b', letterId 'y')]

/-- A file declares `Foo` as a class that extends another. -/
def spreadExtends (file super : Str) : RawRef where
  type := .extends
  src := letterId 'f'
  targetName := super
  refFile := file

/-- The call `foo.bar()` in `run`. -/
def spreadCall : RawRef where
  type := .calls
  src := letterId 'r'
  targetName := "bar"
  kindHint := .call
  recv := "foo"
  recvType := "Foo"
  refFile := "c"

/-- `Foo` extends `A` in the file `p`, and `B` in the file `q`. -/
def spreadRefs : List RawRef := [spreadExtends "p" "A", spreadExtends "q" "B", spreadCall]

/-- The same with `q` in front. -/
def turnedRefs : List RawRef := [spreadExtends "q" "B", spreadExtends "p" "A", spreadCall]

theorem interleaves_turned : Interleaves spreadRefs turnedRefs :=
  interleaves_swap (by decide) [spreadCall]

end Sample

end GraphIngest.Resolve
