import GraphIngest.Foundation.Joining
import GraphIngest.Pipeline.PackageTree
import Mathlib.Data.List.Infix
import Mathlib.Data.List.Induction
import Mathlib.Data.List.Nodup

/-! # The way from a file to the repository

The edges of the package tree are those from the first parts of a file's package to one part
more, and from the whole package to the file. Ids tell names and kinds apart, so that what an
edge leads to has no other edge to it, and nothing leads to the repository. Going up from a
file comes through the packages named by the prefixes of its own, and ends at the repository.
-/

namespace GraphIngest.Pipeline

open Foundation Text Graph

section Climbing

/-- A way up over parents that ends where there is none. -/
inductive Climbs {α : Type*} (parent : α → α → Prop) : α → List α → Prop
  | top {place} (orphan : ∀ above, ¬ parent above place) : Climbs parent place [place]
  | up {above place path} (step : parent above place) (onward : Climbs parent above path) :
      Climbs parent place (place :: path)

variable {α : Type*} {parent : α → α → Prop} {above place : α} {path : List α}

theorem climbs_of_orphan (orphan : ∀ above, ¬ parent above place) :
    Climbs parent place path ↔ path = [place] := by
  constructor
  · intro climbs
    cases climbs with
    | top _ => rfl
    | up step _ => exact (orphan _ step).elim
  · intro alone
    rw [alone]
    exact .top orphan

theorem climbs_of_parent (own : parent above place)
    (sole : ∀ other, parent other place → other = above) :
    Climbs parent place path ↔ ∃ rest, path = place :: rest ∧ Climbs parent above rest := by
  constructor
  · intro climbs
    cases climbs with
    | top orphan => exact (orphan _ own).elim
    | @up _ _ rest step onward => exact ⟨rest, rfl, sole _ step ▸ onward⟩
  · intro climbs
    obtain ⟨rest, rfl, onward⟩ := climbs
    exact .up own onward

theorem filter_eq_singleton {items : List α} {test : α → Bool} {item : α} (once : items.Nodup)
    (listed : item ∈ items) (passes : test item = true)
    (sole : ∀ other ∈ items, test other = true → other = item) : items.filter test = [item] := by
  obtain ⟨front, back, rfl⟩ := List.append_of_mem listed
  have fresh := (List.nodup_cons.mp (List.nodup_middle.mp once)).1
  rw [List.mem_append, not_or] at fresh
  have none : front.filter test = [] := by
    apply List.filter_eq_nil_iff.mpr
    intro other member passesToo
    have same := sole other (List.mem_append_left _ member) passesToo
    exact fresh.1 (same ▸ member)
  have noneToo : back.filter test = [] := by
    apply List.filter_eq_nil_iff.mpr
    intro other member passesToo
    have same := sole other (List.mem_append_right _ (List.mem_cons_of_mem _ member)) passesToo
    exact fresh.2 (same ▸ member)
  rw [List.filter_append, none, List.filter_cons_of_pos passes, noneToo, List.nil_append]

/-- What begins a list and is not empty. -/
theorem mem_tail_inits {whole : List α} {parts : List α} (listed : parts ∈ whole.inits.tail) :
    ∃ front last, parts = front ++ [last] ∧ front ++ [last] <+: whole := by
  cases whole with
  | nil => cases listed
  | cons head rest =>
      rw [List.inits, List.tail_cons, List.mem_map] at listed
      obtain ⟨more, begins, rfl⟩ := listed
      have leads : head :: more <+: head :: rest :=
        List.cons_prefix_cons.mpr ⟨rfl, (List.mem_inits _ _).mp begins⟩
      have split := List.dropLast_append_getLast (List.cons_ne_nil head more)
      exact ⟨_, _, split.symm, by rwa [split]⟩

end Climbing

section Places

variable (makeId : Str → Str → Str → NodeId) (repo : Str)

/-- The parts of a file's package. -/
def packageParts (file : Node) : List Str :=
  if file.package = [] then [] else splitBy '.' file.package

/-- The packages named by the prefixes of a file's package, the outermost first. -/
def packagePrefixes (file : Node) : List Str :=
  (packageParts file).inits.tail.map fun parts => ['.'].intercalate parts

/-- The node for the first parts of a package; that for none is the repository. -/
def placeOf (parts : List Str) : NodeId :=
  if parts = [] then repositoryId makeId repo
  else makeId repo (['.'].intercalate parts) "package"

/-- What the edges for a file are: down along its package, and to itself. -/
def LeadsIn (file : Node) (key : EdgeKey) : Prop :=
  (∃ front part, front ++ [part] <+: packageParts file ∧
    key = (.contains, placeOf makeId repo front, placeOf makeId repo (front ++ [part]))) ∨
  key = (.contains, placeOf makeId repo (packageParts file), file.id)

variable {makeId repo}

theorem placeOf_concat (front : List Str) (part : Str) :
    placeOf makeId repo (front ++ [part]) =
      makeId repo (['.'].intercalate (front ++ [part])) "package" :=
  if_neg (List.append_ne_nil_of_right_ne_nil front (List.cons_ne_nil part []))

/-- First parts of a list with a head are the head alone, or begin with it. -/
theorem exists_concat_isPrefix_cons {α : Type*} {head : α} {rest : List α}
    {holds : List α → α → Prop} :
    (∃ front last, front ++ [last] <+: head :: rest ∧ holds front last) ↔
      holds [] head ∨ ∃ front last, front ++ [last] <+: rest ∧ holds (head :: front) last := by
  constructor
  · intro found
    obtain ⟨front, last, leads, held⟩ := found
    cases front with
    | nil =>
        obtain ⟨rfl, _⟩ := List.cons_prefix_cons.mp leads
        exact .inl held
    | cons first others =>
        rw [List.cons_append, List.cons_prefix_cons] at leads
        obtain ⟨rfl, leads⟩ := leads
        exact .inr ⟨others, last, leads, held⟩
  · intro found
    obtain held | ⟨front, last, leads, held⟩ := found
    · exact ⟨[], head, List.cons_prefix_cons.mpr ⟨rfl, List.nil_prefix⟩, held⟩
    · exact ⟨head :: front, last, List.cons_prefix_cons.mpr ⟨rfl, leads⟩, held⟩

/-- The packages of a file, from some parts on. -/
theorem foldl_addPackage (lang : Lang) (rest front : List Str) (tree : Tree) :
    let final := (dottedPrefixes front rest).foldl (addPackage makeId repo lang)
      (tree, placeOf makeId repo front)
    final.2 = placeOf makeId repo (front ++ rest) ∧
      (∀ node, node ∈ final.1.nodes.entries → node ∈ tree.nodes.entries ∨
        ∃ more part, more ++ [part] <+: rest ∧
          node = packageNode makeId repo lang part (['.'].intercalate (front ++ more ++ [part]))) ∧
      (∀ id, final.1.nodes.Has id ↔ tree.nodes.Has id ∨ ∃ more part, more ++ [part] <+: rest ∧
        placeOf makeId repo (front ++ more ++ [part]) = id) ∧
      ∀ key, final.1.edges.Has key ↔ tree.edges.Has key ∨ ∃ more part, more ++ [part] <+: rest ∧
        key = (.contains, placeOf makeId repo (front ++ more),
          placeOf makeId repo (front ++ more ++ [part])) := by
  dsimp only
  induction rest generalizing front tree with
  | nil =>
      have none : ∀ (more : List Str) (part : Str), ¬ more ++ [part] <+: [] := by
        intro more part leads
        exact List.append_ne_nil_of_right_ne_nil more (List.cons_ne_nil part [])
          (List.prefix_nil.mp leads)
      simp only [dottedPrefixes, List.foldl_nil, List.append_nil, none, false_and, exists_false,
        or_false]
      exact ⟨trivial, fun _ => id, fun _ => trivial, fun _ => trivial⟩
  | cons part rest ih =>
      have place := @placeOf_concat makeId repo front part
      obtain ⟨parent, entries, nodes, edges⟩ := ih (front ++ [part])
        (addPackage makeId repo lang (tree, placeOf makeId repo front)
          (part, ['.'].intercalate (front ++ [part]))).1
      rw [place] at parent entries nodes edges
      simp only [List.append_assoc, List.singleton_append] at parent entries nodes edges
      refine ⟨parent, fun node listed => ?_, fun id => ?_, fun key => ?_⟩
      · rw [exists_concat_isPrefix_cons]
        rcases entries node listed with before | later
        · rcases KeyedLog.mem_of_mem_emit before with earlier | rfl
          · exact .inl earlier
          · exact .inr (.inl (by rw [List.append_nil]))
        · refine .inr (.inr ?_)
          simpa only [List.append_assoc, List.cons_append] using later
      · rw [exists_concat_isPrefix_cons]
        refine (nodes id).trans ?_
        rw [addPackage, KeyedLog.has_emit, or_assoc, List.append_nil, place]
        simp only [List.append_assoc, List.cons_append]
        rfl
      · rw [exists_concat_isPrefix_cons]
        refine (edges key).trans ?_
        rw [addPackage, KeyedLog.has_emit, or_assoc, List.append_nil, place, @eq_comm _ key]
        simp only [List.append_assoc, List.cons_append]
        rfl

variable (makeId repo) in
/-- The tree for some files: a node for the repository and one for each package on the way to
a file, and the edges on these ways, all of them once. -/
structure Grown (files : List Node) (tree : Tree) : Prop where
  nodesOnce : KeyedLog.Distinct Node.id (fun _ => true) tree.nodes
  edgesOnce : KeyedLog.Distinct Edge.key (fun _ => true) tree.edges
  origin : ∀ node ∈ tree.nodes.entries, node = repositoryNode makeId repo ∨
    ∃ file ∈ files, ∃ front part, front ++ [part] <+: packageParts file ∧
      node = packageNode makeId repo file.lang part (['.'].intercalate (front ++ [part]))
  nodes : ∀ id, tree.nodes.Has id ↔ repositoryId makeId repo = id ∨ ∃ file ∈ files,
    ∃ front part, front ++ [part] <+: packageParts file ∧ placeOf makeId repo (front ++ [part]) = id
  edges : ∀ key, tree.edges.Has key ↔ ∃ file ∈ files, LeadsIn makeId repo file key

/-- A file grows the tree by its way. -/
theorem Grown.addFile {files : List Node} {tree : Tree} (grown : Grown makeId repo files tree)
    (file : Node) : Grown makeId repo (files ++ [file]) (addFile makeId repo tree file) := by
  have entries : (if file.package = [] then [] else dottedPrefixes [] (splitBy '.' file.package)) =
      dottedPrefixes [] (packageParts file) := by
    unfold packageParts
    split <;> rfl
  obtain ⟨parent, listed, nodes, edges⟩ :=
    @foldl_addPackage makeId repo file.lang (packageParts file) [] tree
  have once := @foldl_preserves _ _ (addPackage makeId repo file.lang)
    (fun state : Tree × NodeId => KeyedLog.Distinct Node.id (fun _ => true) state.1.nodes ∧
      KeyedLog.Distinct Edge.key (fun _ => true) state.1.edges)
    (dottedPrefixes [] (packageParts file))
    (fun state entry _ kept => ⟨kept.1.emit _, kept.2.emit _⟩) (tree, placeOf makeId repo [])
    ⟨grown.nodesOnce, grown.edgesOnce⟩
  simp only [List.nil_append] at parent listed nodes edges
  unfold Pipeline.addFile
  rw [entries]
  refine ⟨once.1, once.2.emit _, fun node member => ?_, fun id => ?_, fun key => ?_⟩
  · rcases listed node member with before | ⟨front, part, leads, rfl⟩
    · refine (grown.origin node before).imp_right fun known => ?_
      obtain ⟨other, given, known⟩ := known
      exact ⟨other, List.mem_append_left _ given, known⟩
    · exact .inr ⟨file, List.mem_append_right _ List.mem_cons_self, front, part, leads, rfl⟩
  · refine (nodes id).trans ?_
    rw [grown.nodes, or_assoc]
    simp only [List.mem_append, List.mem_singleton, or_and_right, exists_or, exists_eq_left]
  · refine (KeyedLog.has_emit _ _ _).trans ?_
    have rooted : placeOf makeId repo [] = repositoryId makeId repo := rfl
    rw [← rooted, edges, grown.edges, parent, or_assoc, @eq_comm _ _ key]
    simp only [List.mem_append, List.mem_singleton, or_and_right, exists_or, exists_eq_left]
    rfl

theorem grown_buildPackageTree (makeId : Str → Str → Str → NodeId) (repo : Str)
    (nodes : List Node) :
    Grown makeId repo (nodes.filter fun node => node.label = .file)
      (buildPackageTree makeId repo nodes) := by
  unfold buildPackageTree
  induction nodes.filter fun node => node.label = .file using List.reverseRecOn with
  | nil =>
      refine ⟨KeyedLog.distinct_empty.emit _, KeyedLog.distinct_empty, fun node listed => ?_,
        fun id => ?_, fun key => ?_⟩
      · exact .inl ((KeyedLog.mem_of_mem_emit listed).resolve_left List.not_mem_nil)
      · rw [List.foldl_nil, KeyedLog.has_emit]
        simp only [KeyedLog.not_has_empty, List.not_mem_nil, false_and, exists_false, false_or,
          or_false]
        rfl
      · simp only [List.foldl_nil, KeyedLog.not_has_empty, List.not_mem_nil, false_and,
          exists_false]
  | append_singleton files file ih =>
      rw [List.foldl_append]
      exact ih.addFile file

end Places

section Parents

/-- Ids tell repositories, names and kinds apart. -/
def IdsTell (makeId : Str → Str → Str → NodeId) : Prop :=
  ∀ repo fqn kind repoToo fqnToo kindToo,
    makeId repo fqn kind = makeId repoToo fqnToo kindToo →
      repo = repoToo ∧ fqn = fqnToo ∧ kind = kindToo

/-- An edge of the tree leads from one node to another. -/
def Tree.Parent (tree : Tree) (src dst : NodeId) : Prop :=
  ∃ edge ∈ tree.edges.entries, edge.src = src ∧ edge.dst = dst

variable {makeId : Str → Str → Str → NodeId} {repo : Str} {nodes files : List Node} {tree : Tree}
  {file : Node} {front parts others : List Str} {part : Str}

/-- A package is not the repository. -/
theorem package_ne_repository (tell : IdsTell makeId) {fqn : Str} :
    makeId repo fqn "package" ≠ repositoryId makeId repo := by
  have kinds : "package".toList ≠ "repository".toList := by decide
  exact fun same => kinds (tell _ _ _ _ _ _ same).2.2

/-- Different first parts have different nodes. -/
theorem placeOf_inj (tell : IdsTell makeId) (free : ∀ part ∈ parts, '.' ∉ part)
    (freeToo : ∀ part ∈ others, '.' ∉ part)
    (same : placeOf makeId repo parts = placeOf makeId repo others) : parts = others := by
  have read : ∀ {items : List Str}, items ≠ [] → (∀ item ∈ items, '.' ∉ item) →
      splitBy '.' (['.'].intercalate items) = items := by
    intro items some free
    rw [splitBy_intercalate some, flatMap_splitBy_of_free free]
  unfold placeOf at same
  by_cases none : parts = []
  · by_cases noneToo : others = []
    · rw [none, noneToo]
    · rw [if_pos none, if_neg noneToo] at same
      exact (package_ne_repository tell same.symm).elim
  · by_cases noneToo : others = []
    · rw [if_neg none, if_pos noneToo] at same
      exact (package_ne_repository tell same).elim
    · rw [if_neg none, if_neg noneToo] at same
      have names := congrArg (splitBy '.') (tell _ _ _ _ _ _ same).2.1
      rwa [read none free, read noneToo freeToo] at names

/-- A file is no package and not the repository. -/
theorem placeOf_ne_file (tell : IdsTell makeId)
    (made : ∃ repo relpath, file.id = makeId repo relpath "file") :
    placeOf makeId repo parts ≠ file.id := by
  obtain ⟨own, relpath, named⟩ := made
  rw [named]
  intro same
  unfold placeOf at same
  split at same
  · have kinds := (tell _ _ _ _ _ _ same).2.2
    revert kinds
    decide
  · have kinds := (tell _ _ _ _ _ _ same).2.2
    revert kinds
    decide

theorem free_packageParts : ∀ part ∈ packageParts file, '.' ∉ part := by
  unfold packageParts
  split
  · exact List.forall_mem_nil _
  · exact fun part listed => not_mem_of_mem_splitBy listed

theorem type_of_grown (grown : Grown makeId repo files tree) :
    ∀ edge ∈ tree.edges.entries, edge.type = .contains := by
  intro edge listed
  obtain ⟨file, _, ⟨_, _, _, key⟩ | key⟩ := (grown.edges edge.key).mp ⟨edge, listed, rfl⟩
  · exact congrArg Prod.fst key
  · exact congrArg Prod.fst key

theorem parent_iff (grown : Grown makeId repo files tree) {src dst : NodeId} :
    tree.Parent src dst ↔ ∃ file ∈ files,
      (∃ front part, front ++ [part] <+: packageParts file ∧ src = placeOf makeId repo front ∧
        dst = placeOf makeId repo (front ++ [part])) ∨
      src = placeOf makeId repo (packageParts file) ∧ dst = file.id := by
  have named : tree.Parent src dst ↔ tree.edges.Has (.contains, src, dst) := by
    constructor
    · intro joined
      obtain ⟨edge, listed, rfl, rfl⟩ := joined
      exact ⟨edge, listed, by rw [Edge.key, type_of_grown grown edge listed]⟩
    · intro held
      obtain ⟨edge, listed, key⟩ := held
      rw [Edge.key, Prod.mk.injEq, Prod.mk.injEq] at key
      exact ⟨edge, listed, key.2⟩
  rw [named, grown.edges]
  simp only [LeadsIn, Prod.mk.injEq, true_and]

/-- What one parent leads to has one edge to it. -/
theorem exists_filter_eq_singleton (grown : Grown makeId repo files tree) {above place : NodeId}
    (own : tree.Parent above place)
    (sole : ∀ other, tree.Parent other place → other = above) :
    ∃ edge, tree.edges.entries.filter (fun edge => edge.dst = place) = [edge] := by
  obtain ⟨edge, listed, rfl, rfl⟩ := own
  have once : (tree.edges.entries.map Edge.key).Nodup := by
    have nodup := grown.edgesOnce.nodup
    rwa [List.filter_true] at nodup
  refine ⟨edge, filter_eq_singleton (List.Nodup.of_map _ once) listed (decide_eq_true rfl) ?_⟩
  intro known listedToo leads
  rw [decide_eq_true_eq] at leads
  apply List.inj_on_of_nodup_map once listedToo listed
  rw [Edge.key, Edge.key, type_of_grown grown known listedToo, type_of_grown grown edge listed,
    sole known.src ⟨known, listedToo, rfl, leads⟩, leads]

section Files

variable (tell : IdsTell makeId) (grown : Grown makeId repo files tree)
  (made : ∀ file ∈ files, ∃ repo relpath, file.id = makeId repo relpath "file")

include tell grown made

/-- Nothing leads to the repository. -/
theorem orphan_repository : ∀ above, ¬ tree.Parent above (placeOf makeId repo []) := by
  intro above joined
  obtain ⟨file, given, ⟨front, part, leads, _, same⟩ | ⟨_, same⟩⟩ := (parent_iff grown).mp joined
  · have nothing := placeOf_inj tell (List.forall_mem_nil _)
      (fun part listed => free_packageParts part (leads.subset listed)) same
    exact List.append_ne_nil_of_right_ne_nil front (List.cons_ne_nil part []) nothing.symm
  · exact placeOf_ne_file tell (made file given) same

/-- Only what has one part less leads to a package. -/
theorem parent_placeOf (free : ∀ known ∈ front ++ [part], '.' ∉ known) {above : NodeId}
    (joined : tree.Parent above (placeOf makeId repo (front ++ [part]))) :
    above = placeOf makeId repo front := by
  obtain ⟨file, given, ⟨other, last, leads, rfl, same⟩ | ⟨_, same⟩⟩ :=
    (parent_iff grown).mp joined
  · have parts := placeOf_inj tell free
      (fun part listed => free_packageParts part (leads.subset listed)) same
    rw [(List.append_inj' parts rfl).1]
  · exact (placeOf_ne_file tell (made file given) same).elim

/-- Only its whole package leads to a file. -/
theorem parent_file (distinct : (files.map Node.id).Nodup) (given : file ∈ files) {above : NodeId}
    (joined : tree.Parent above file.id) : above = placeOf makeId repo (packageParts file) := by
  obtain ⟨other, givenToo, ⟨front, part, _, _, same⟩ | ⟨rfl, same⟩⟩ := (parent_iff grown).mp joined
  · exact (placeOf_ne_file tell (made file given) same.symm).elim
  · rw [List.inj_on_of_nodup_map distinct given givenToo same]

/-- Going up from first parts comes through all shorter ones. -/
theorem climbs_placeOf (given : file ∈ files) (leads : parts <+: packageParts file)
    {path : List NodeId} :
    Climbs tree.Parent (placeOf makeId repo parts) path ↔
      path = (parts.inits.map (placeOf makeId repo)).reverse := by
  induction parts using List.reverseRecOn generalizing path with
  | nil => exact climbs_of_orphan (orphan_repository tell grown made)
  | append_singleton front part ih =>
      have onward := fun path => @ih ((List.prefix_append front [part]).trans leads) path
      have free : ∀ known ∈ front ++ [part], '.' ∉ known :=
        fun known listed => free_packageParts known (leads.subset listed)
      have own : tree.Parent (placeOf makeId repo front) (placeOf makeId repo (front ++ [part])) :=
        (parent_iff grown).mpr ⟨file, given, .inl ⟨front, part, leads, rfl, rfl⟩⟩
      rw [climbs_of_parent own fun other joined => parent_placeOf tell grown made free joined]
      simp only [onward, exists_eq_right]
      rw [List.inits_append, List.map_append, List.reverse_append]
      rfl

/-- Going up from a file comes through the packages on its way. -/
theorem climbs_file (distinct : (files.map Node.id).Nodup) (given : file ∈ files)
    {path : List NodeId} :
    Climbs tree.Parent file.id path ↔
      path = file.id ::
        (((packagePrefixes file).map fun fqn => makeId repo fqn "package").reverse ++
          [repositoryId makeId repo]) := by
  have own : tree.Parent (placeOf makeId repo (packageParts file)) file.id :=
    (parent_iff grown).mpr ⟨file, given, .inr ⟨rfl, rfl⟩⟩
  have sole := fun above joined => @parent_file _ _ _ _ file tell grown made distinct given above
    joined
  have places : (packageParts file).inits.map (placeOf makeId repo) =
      repositoryId makeId repo ::
        (packagePrefixes file).map fun fqn => makeId repo fqn "package" := by
    unfold packagePrefixes
    cases packageParts file with
    | nil => rfl
    | cons part rest =>
        rw [List.inits, List.map_cons, List.tail_cons, List.map_map, List.map_map, List.map_map]
        rfl
  rw [climbs_of_parent own sole]
  simp only [climbs_placeOf tell grown made given (List.prefix_refl _), exists_eq_right]
  rw [places, List.reverse_cons]

end Files

variable (makeId repo nodes tree) in
/-- The nodes and edges of a package tree, each once, with one repository above all: from every
file the way up comes through the packages of its prefixes, the innermost first, and every
package and file has one parent. -/
structure IsPackageTree : Prop where
  nodesOnce : (tree.nodes.entries.map Node.id).Nodup
  edgesOnce : (tree.edges.entries.map Edge.key).Nodup
  contains : ∀ edge ∈ tree.edges.entries, edge.type = .contains
  repository : tree.nodes.entries.filter (fun node => node.label = .repository) =
    [repositoryNode makeId repo]
  packages : ∀ file ∈ nodes, file.label = .file → ∀ fqn ∈ packagePrefixes file,
    ∃ node ∈ tree.nodes.entries, node.label = .package ∧ node.fqn = fqn ∧
      node.id = makeId repo fqn "package"
  climbs : ∀ file ∈ nodes, file.label = .file → ∀ path, Climbs tree.Parent file.id path ↔
    path = file.id :: (((packagePrefixes file).map fun fqn => makeId repo fqn "package").reverse ++
      [repositoryId makeId repo])
  oneParent : ∀ node, node ∈ tree.nodes.entries ∧ node.label = .package ∨
      node ∈ nodes ∧ node.label = .file →
    ∃ edge, tree.edges.entries.filter (fun edge => edge.dst = node.id) = [edge]

/-- **Package tree.** For nodes of different ids, with those of files made from paths, it is a
tree in which going up from a file comes through the packages of its prefixes. -/
theorem isPackageTree_buildPackageTree (tell : IdsTell makeId)
    (distinct : (nodes.map Node.id).Nodup)
    (made : ∀ file ∈ nodes, file.label = .file →
      ∃ repo relpath, file.id = makeId repo relpath "file") :
    IsPackageTree makeId repo nodes (buildPackageTree makeId repo nodes) := by
  have grown := grown_buildPackageTree makeId repo nodes
  have listed : ∀ file, file ∈ nodes.filter (fun node => node.label = .file) ↔
      file ∈ nodes ∧ file.label = .file := by
    intro file
    rw [List.mem_filter, decide_eq_true_eq]
  have filesMade : ∀ file ∈ nodes.filter (fun node => node.label = .file),
      ∃ repo relpath, file.id = makeId repo relpath "file" :=
    fun file member => made file ((listed file).mp member).1 ((listed file).mp member).2
  have filesDistinct : ((nodes.filter fun node => node.label = .file).map Node.id).Nodup :=
    distinct.sublist (List.filter_sublist.map _)
  have nodesOnce : ((buildPackageTree makeId repo nodes).nodes.entries.map Node.id).Nodup := by
    have nodup := grown.nodesOnce.nodup
    rwa [List.filter_true] at nodup
  refine ⟨nodesOnce, ?_, type_of_grown grown, ?_, fun file member own fqn named => ?_,
    fun file member own path => ?_, fun node known => ?_⟩
  · have nodup := grown.edgesOnce.nodup
    rwa [List.filter_true] at nodup
  · have root : repositoryNode makeId repo ∈
        (buildPackageTree makeId repo nodes).nodes.entries := by
      obtain ⟨node, present, named⟩ := (grown.nodes _).mpr (.inl rfl)
      rcases grown.origin node present with rfl | ⟨file, given, front, part, leads, rfl⟩
      · exact present
      · exact (package_ne_repository tell named).elim
    refine filter_eq_singleton (List.Nodup.of_map _ nodesOnce) root rfl ?_
    intro other present passes
    rcases grown.origin other present with same | ⟨_, _, _, _, _, rfl⟩
    · exact same
    · cases of_decide_eq_true passes
  · obtain ⟨parts, begins, rfl⟩ := List.mem_map.mp named
    obtain ⟨front, part, rfl, leads⟩ := mem_tail_inits begins
    obtain ⟨node, present, same⟩ := (grown.nodes (placeOf makeId repo (front ++ [part]))).mpr
      (.inr ⟨file, (listed file).mpr ⟨member, own⟩, front, part, leads, rfl⟩)
    rw [placeOf_concat] at same
    rcases grown.origin node present with rfl | ⟨other, _, behind, last, _, rfl⟩
    · exact (package_ne_repository tell same.symm).elim
    · exact ⟨_, present, rfl, (tell _ _ _ _ _ _ same).2.1, same⟩
  · exact climbs_file tell grown filesMade filesDistinct ((listed file).mpr ⟨member, own⟩)
  · rcases known with ⟨present, labelled⟩ | ⟨member, own⟩
    · rcases grown.origin node present with rfl | ⟨file, given, front, part, leads, rfl⟩
      · cases labelled
      · have free : ∀ known ∈ front ++ [part], '.' ∉ known :=
          fun known listed => free_packageParts known (leads.subset listed)
        have place : (packageNode makeId repo file.lang part
            (['.'].intercalate (front ++ [part]))).id = placeOf makeId repo (front ++ [part]) :=
          (placeOf_concat front part).symm
        rw [place]
        exact exists_filter_eq_singleton grown
          ((parent_iff grown).mpr ⟨file, given, .inl ⟨front, part, leads, rfl, rfl⟩⟩)
          fun other joined => parent_placeOf tell grown filesMade free joined
    · have given := (listed node).mpr ⟨member, own⟩
      exact exists_filter_eq_singleton grown
        ((parent_iff grown).mpr ⟨node, given, .inr ⟨rfl, rfl⟩⟩)
        fun other joined => parent_file tell grown filesMade filesDistinct given joined

/-- Ids that carry what they are made from, with the lengths in front. -/
def codedId (repo fqn kind : Str) : NodeId :=
  ⟨List.replicate repo.length 'r' ++ '|' ::
      (List.replicate fqn.length 'f' ++ '|' :: (repo ++ (fqn ++ kind))),
    List.append_ne_nil_of_right_ne_nil _ (List.cons_ne_nil _ _)⟩

theorem idsTell_codedId : IdsTell codedId := by
  intro repo fqn kind repoToo fqnToo kindToo same
  have free : ∀ (count : Nat) (letter : Char), letter ≠ '|' →
      '|' ∉ List.replicate count letter :=
    fun _ _ other listed => other (List.eq_of_mem_replicate listed).symm
  have letters := congrArg Subtype.val same
  unfold codedId at letters
  dsimp only at letters
  rw [append_cons_inj_left (free _ _ (by decide)) (free _ _ (by decide)),
    append_cons_inj_left (free _ _ (by decide)) (free _ _ (by decide))] at letters
  obtain ⟨repos, fqns, rest⟩ := letters
  have lengths := congrArg List.length repos
  have lengthsToo := congrArg List.length fqns
  rw [List.length_replicate, List.length_replicate] at lengths lengthsToo
  obtain ⟨sameRepo, rest⟩ := List.append_inj rest lengths
  obtain ⟨sameFqn, sameKind⟩ := List.append_inj rest lengthsToo
  exact ⟨sameRepo, sameFqn, sameKind⟩

/-- A file of a package with an empty part. -/
def nestedFile : Node where
  id := codedId ['r'] ['f'] "file"
  label := .file
  name := ['f']
  fqn := ['f']
  repo := ['r']
  package := ['a', '.', '.', 'b']

/-- The tree above that file. -/
theorem isPackageTree_nestedFile :
    packagePrefixes nestedFile = [['a'], ['a', '.'], ['a', '.', '.', 'b']] ∧
      IsPackageTree codedId ['r'] [nestedFile] (buildPackageTree codedId ['r'] [nestedFile]) := by
  refine ⟨by decide, isPackageTree_buildPackageTree idsTell_codedId (List.nodup_singleton _) ?_⟩
  intro file listed _
  rw [List.mem_singleton.mp listed]
  exact ⟨['r'], ['f'], rfl⟩

end Parents

end GraphIngest.Pipeline
