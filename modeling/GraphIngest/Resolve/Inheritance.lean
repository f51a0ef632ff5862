import GraphIngest.Foundation.Distances
import GraphIngest.Resolve.Ancestors
import GraphIngest.Resolve.ScopeIndex

/-! # Inheritance lookup

The supertypes are kept in a table, whatever it says: a class may be its own ancestor.
The chain of a class is walked frontier by frontier, comes to an end, and lists the
other classes the supertypes lead to, nearest first. Looking up inherited methods keeps
the chains it has walked; as a kept chain is the chain, what was looked up before does
not change what is found.
-/

namespace GraphIngest.Resolve

open Foundation Text Graph

/-- `direct_supers`. -/
abbrev Supers := Dict NodeId (List NodeId)

/-- The chains kept: `_chain_cache`. -/
abbrev ChainCache := Dict NodeId (List NodeId)

/-- The classes listed, the classes seen and the next frontier. -/
structure Walk where
  out : List NodeId
  seen : List NodeId
  nxt : List NodeId

/-- One class of a frontier. -/
def Walk.visit (supers : Supers) (walk : Walk) (cid : NodeId) : Walk :=
  if cid ∈ walk.seen then walk
  else
    { out := walk.out ++ [cid]
      seen := walk.seen ++ [cid]
      nxt := walk.nxt ++ supers.getD cid [] }

/-- The loop over the frontiers; nothing where it has not come to an end. -/
def walkFrontiers (supers : Supers) :
    Nat → List NodeId → List NodeId → List NodeId → Option (List NodeId)
  | 0, _, _, _ => none
  | rounds + 1, out, seen, frontier =>
      if frontier = [] then some out
      else
        let walk := frontier.foldl (Walk.visit supers) ⟨out, seen, []⟩
        walkFrontiers supers rounds walk.out walk.seen walk.nxt

namespace Supers

variable (supers : Supers)

/-- The supertypes of a class. -/
def of (cls : NodeId) : List NodeId := supers.getD cls []

/-- `_ancestor_chain`, in some rounds. -/
def chainWithin (rounds : Nat) (cls : NodeId) : Option (List NodeId) :=
  walkFrontiers supers rounds [] [cls] (supers.getD cls [])

/-- Every supertype of any class. -/
def listed : List NodeId := supers.values.flatten

/-- The chain that `_ancestor_chain` returns. -/
def ancestorChain (cls : NodeId) : List NodeId :=
  (supers.chainWithin (supers.listed.length + 2) cls).getD []

/-- The other classes that the supertypes of a class lead to, once each and nearest
first. -/
structure NearestFirst (cls : NodeId) (chain : List NodeId) : Prop where
  once : chain.Nodup
  reached : ∀ ancestor, ancestor ∈ chain ↔
    ancestor ≠ cls ∧ Relation.TransGen (fun own super => super ∈ supers.of own) cls ancestor
  ordered : ∃ steps : List Nat, List.Forall₂ (Distance supers.of cls) steps chain ∧
    steps.Pairwise (· ≤ ·)

section Chain

variable {supers}

/-- Walking a frontier is a round of the search. -/
theorem foldl_visit (out seen frontier : List NodeId) :
    frontier.foldl (Walk.visit supers) ⟨out, seen, []⟩ =
      ⟨out ++ (level supers.of seen frontier).1, seen ++ (level supers.of seen frontier).1,
        (level supers.of seen frontier).2⟩ := by
  have each : ∀ (rest : List NodeId) (found : List NodeId × List NodeId),
      rest.foldl (Walk.visit supers) ⟨out ++ found.1, seen ++ found.1, found.2⟩ =
        let after := rest.foldl (fun found point =>
          if point ∈ seen ∨ point ∈ found.1 then found
          else (found.1 ++ [point], found.2 ++ supers.of point)) found
        ⟨out ++ after.1, seen ++ after.1, after.2⟩ := by
    intro rest
    induction rest with
    | nil => exact fun found => rfl
    | cons head rest ih =>
        intro found
        rw [List.foldl_cons, List.foldl_cons, ← ih, Walk.visit]
        simp only [List.mem_append]
        split
        · rfl
        · rw [List.append_assoc, List.append_assoc]
          rfl
  have round : level supers.of seen frontier = frontier.foldl (fun found point =>
      if point ∈ seen ∨ point ∈ found.1 then found
      else (found.1 ++ [point], found.2 ++ supers.of point)) ([], []) := by
    unfold level
    congr 1
    funext found point
    by_cases old : point ∈ seen ∨ point ∈ found.1
    · rw [if_pos old, if_pos old]
    · rw [if_neg old, if_neg old]
  have whole := each frontier ([], [])
  rw [List.append_nil, List.append_nil] at whole
  rw [round]
  exact whole

theorem mem_listed (cls : NodeId) : ∀ super ∈ supers.of cls, super ∈ supers.listed := by
  intro super direct
  obtain ⟨group, held, listed⟩ := Dict.mem_getD_iff.mp direct
  exact List.mem_flatten.mpr ⟨group, List.mem_map.mpr ⟨_, held, rfl⟩, listed⟩

/-- In rounds enough the loop comes to an end, with what the search finds. -/
theorem walkFrontiers_eq {rounds : Nat} {out seen frontier : List NodeId}
    (inside : ∀ point ∈ frontier, point ∈ supers.listed)
    (enough : (unseen supers.listed seen).length + 1 < rounds) :
    walkFrontiers supers rounds out seen frontier =
      some (out ++ search supers.of rounds seen frontier) := by
  induction rounds generalizing out seen frontier with
  | zero => omega
  | succ rounds ih =>
      rw [walkFrontiers, search]
      by_cases done : frontier = []
      · subst done
        rw [if_pos rfl, List.isEmpty_nil, if_pos rfl, List.append_nil]
      · have busy : frontier.isEmpty = false := List.isEmpty_eq_false_iff.mpr done
        rw [if_neg done, foldl_visit, busy, if_neg Bool.false_ne_true]
        dsimp only
        have led : ∀ later ∈ (level supers.of seen frontier).2, later ∈ supers.listed :=
          fun later reached => mem_of_mem_snd_level mem_listed reached
        by_cases new : (level supers.of seen frontier).1 = []
        · -- Nothing new: the next frontier is empty, and one round more ends the loop.
          rw [snd_level, new, List.flatMap_nil]
          cases rounds with
          | zero => omega
          | succ rounds =>
              rw [walkFrontiers, if_pos rfl, search, List.isEmpty_nil, if_pos rfl]
              simp only [List.append_nil]
        · obtain ⟨point, found⟩ := List.exists_mem_of_ne_nil _ new
          have waiting := mem_level.mp found
          have fewer := length_unseen_lt (inside point waiting.1) waiting.2 found
          rw [ih led (by omega), List.append_assoc]

/-- With rounds enough the chain is what the search finds. -/
theorem chainWithin_eq {rounds : Nat} (enough : supers.listed.length + 2 ≤ rounds)
    (cls : NodeId) :
    supers.chainWithin rounds cls =
      some (search supers.of supers.listed.length [cls] (supers.of cls)) := by
  have few : (unseen supers.listed [cls]).length ≤ supers.listed.length :=
    List.length_filter_le _ supers.listed
  have loop : supers.chainWithin rounds cls =
      walkFrontiers supers rounds [] [cls] (supers.of cls) := rfl
  rw [loop, walkFrontiers_eq (mem_listed cls) (by omega), List.nil_append]
  exact congrArg some (search_stable mem_listed (mem_listed cls) few (by omega))

theorem ancestorChain_eq (cls : NodeId) :
    supers.ancestorChain cls = search supers.of supers.listed.length [cls] (supers.of cls) := by
  rw [ancestorChain, chainWithin_eq (Nat.le_refl _), Option.getD_some]

theorem nearestFirst_ancestorChain (cls : NodeId) :
    supers.NearestFirst cls (supers.ancestorChain cls) := by
  rw [ancestorChain_eq]
  obtain ⟨steps, apart, sorted, _⟩ := (@Stage.initial _ supers.of cls).exists_distances
    supers.listed.length
  exact ⟨nodup_search _ _ _, fun ancestor => mem_search_iff mem_listed (Nat.le_refl _),
    steps, apart, sorted⟩

end Chain

section Cache

variable (methods : Dict (NodeId × Str) (Slot Node))

/-- The methods with a name that the first class of a chain to have any declares. -/
def firstDeclared (name : Str) : List NodeId → List Node
  | [] => []
  | anc :: rest =>
      let found := Slot.members methods (anc, name)
      if found ≠ [] then found else firstDeclared name rest

/-- The chain of a class, kept or walked now, and what is kept then. -/
def chainOf (cache : ChainCache) (cid : NodeId) : List NodeId × ChainCache :=
  match cache.get? cid with
  | some chain => (chain, cache)
  | none => (supers.ancestorChain cid, cache.set cid (supers.ancestorChain cid))

/-- One class of a lookup. -/
def inheritFrom (name : Str) (state : List Node × ChainCache) (cid : NodeId) :
    List Node × ChainCache :=
  let held := supers.chainOf state.2 cid
  (state.1 ++ firstDeclared methods name held.1, held.2)

/-- `_inherited_members`: the hits, and the chains kept then. -/
def inheritedMembers (cache : ChainCache) (classIds : List NodeId) (name : Str) :
    List Node × ChainCache :=
  classIds.foldl (supers.inheritFrom methods name) ([], cache)

/-- The chains kept after some lookups. -/
def cacheAfter (calls : List (List NodeId × Str)) : ChainCache :=
  calls.foldl (fun cache call => (supers.inheritedMembers methods cache call.1 call.2).2)
    Dict.empty

/-- What the classes of a chain declare under a name: the methods of the first of them
that declares any, nothing where none does. -/
inductive Declares (name : Str) : List NodeId → List Node → Prop
  | first (before after : List NodeId) (owner : NodeId)
      (none : ∀ other ∈ before, Slot.members methods (other, name) = [])
      (some : Slot.members methods (owner, name) ≠ []) :
      Declares name (before ++ owner :: after) (Slot.members methods (owner, name))
  | never (chain : List NodeId)
      (none : ∀ other ∈ chain, Slot.members methods (other, name) = []) :
      Declares name chain []

/-- Every kept chain is the chain of its class. -/
def Kept (cache : ChainCache) : Prop :=
  ∀ cid chain, cache.get? cid = some chain → chain = supers.ancestorChain cid

variable {supers methods}

theorem declares_firstDeclared (name : Str) (chain : List NodeId) :
    Declares methods name chain (firstDeclared methods name chain) := by
  induction chain with
  | nil => exact .never [] fun other listed => absurd listed List.not_mem_nil
  | cons anc rest ih =>
      rw [firstDeclared]
      generalize firstDeclared methods name rest = hits at ih
      by_cases found : Slot.members methods (anc, name) = []
      · rw [if_neg (not_not_intro found)]
        cases ih with
        | first before after owner none some =>
            exact .first (anc :: before) after owner (List.forall_mem_cons.mpr ⟨found, none⟩) some
        | never _ none => exact .never (anc :: rest) (List.forall_mem_cons.mpr ⟨found, none⟩)
      · rw [if_pos found]
        exact .first [] rest anc (fun other listed => absurd listed List.not_mem_nil) found

theorem Kept.empty : supers.Kept Dict.empty :=
  fun _ _ held => absurd held (Option.some_ne_none _ ∘ Eq.symm)

/-- A class is given its chain, kept or not, and what is kept then is true. -/
theorem Kept.chainOf {cache : ChainCache} (kept : supers.Kept cache) (cid : NodeId) :
    (supers.chainOf cache cid).1 = supers.ancestorChain cid ∧
      supers.Kept (supers.chainOf cache cid).2 := by
  unfold Supers.chainOf
  cases held : cache.get? cid with
  | some chain => exact ⟨kept cid chain held, kept⟩
  | none =>
      refine ⟨rfl, fun other chain found => ?_⟩
      rw [Dict.get?_set] at found
      split at found
      · next same => rw [same, ← Option.some.inj found]
      · exact kept other chain found

/-- A lookup over true chains finds what the chains declare, and keeps true chains. -/
theorem Kept.inheritedMembers {cache : ChainCache} (kept : supers.Kept cache)
    (classIds : List NodeId) (name : Str) :
    (supers.inheritedMembers methods cache classIds name).1 =
        classIds.flatMap (fun cid => firstDeclared methods name (supers.ancestorChain cid)) ∧
      supers.Kept (supers.inheritedMembers methods cache classIds name).2 := by
  have each : ∀ (ids : List NodeId) (state : List Node × ChainCache), supers.Kept state.2 →
      (ids.foldl (supers.inheritFrom methods name) state).1 = state.1 ++
          ids.flatMap (fun cid => firstDeclared methods name (supers.ancestorChain cid)) ∧
        supers.Kept (ids.foldl (supers.inheritFrom methods name) state).2 := by
    intro ids
    induction ids with
    | nil => exact fun state kept => ⟨(List.append_nil _).symm, kept⟩
    | cons cid rest ih =>
        intro state kept
        obtain ⟨same, still⟩ := kept.chainOf cid
        obtain ⟨hits, after⟩ := ih (supers.inheritFrom methods name state cid) still
        refine ⟨?_, after⟩
        rw [List.foldl_cons, hits, inheritFrom, same, List.flatMap_cons, List.append_assoc]
  exact each classIds ([], cache) kept

/-- After any lookups the chains kept are true. -/
theorem kept_cacheAfter (calls : List (List NodeId × Str)) :
    supers.Kept (supers.cacheAfter methods calls) := by
  have each : ∀ (calls : List (List NodeId × Str)) (cache : ChainCache), supers.Kept cache →
      supers.Kept (calls.foldl (fun cache call =>
        (supers.inheritedMembers methods cache call.1 call.2).2) cache) := by
    intro calls
    induction calls with
    | nil => exact fun cache kept => kept
    | cons call rest ih => exact fun cache kept => ih _ (kept.inheritedMembers call.1 call.2).2
  exact each calls Dict.empty Kept.empty

variable (supers methods) in
/-- The chain of every class is walked to its end and is its ancestors, nearest first;
and after any lookups a lookup finds, class by class, what the chain declares. -/
structure Inheritance : Prop where
  ends : ∀ cls, ∃ rounds, ∀ more ≥ rounds,
    supers.chainWithin more cls = some (supers.ancestorChain cls)
  nearest : ∀ cls, supers.NearestFirst cls (supers.ancestorChain cls)
  declared : ∀ calls classIds name, ∃ parts : List (List Node),
    (supers.inheritedMembers methods (supers.cacheAfter methods calls) classIds name).1 =
        parts.flatten ∧
      List.Forall₂ (fun cls part => Declares methods name (supers.ancestorChain cls) part)
        classIds parts

/-- **Inheritance lookup.** -/
theorem inheritance (supers : Supers) (methods : Dict (NodeId × Str) (Slot Node)) :
    supers.Inheritance methods where
  ends cls := ⟨supers.listed.length + 2, fun more enough => by
    rw [chainWithin_eq enough, ancestorChain_eq]⟩
  nearest := nearestFirst_ancestorChain
  declared calls classIds name := by
    refine ⟨classIds.map fun cid => firstDeclared methods name (supers.ancestorChain cid), ?_, ?_⟩
    · rw [((kept_cacheAfter calls).inheritedMembers classIds name).1, List.flatMap_def]
    · rw [List.forall₂_map_right_iff, List.forall₂_same]
      exact fun cls _ => declares_firstDeclared name _

end Cache

end Supers

namespace Corpus

variable (corpus : Corpus)

/-- Enter the supertype a hierarchy reference names. -/
def addRefSuper (supers : Supers) (ref : RawRef) : Supers :=
  match corpus.hierarchySource ref with
  | none => supers
  | some cls =>
      if corpus.isClass cls then
        match (corpus.narrowType ref).1 with
        | [node] =>
            if node.id ≠ cls ∧ node.id ∉ supers.getD cls [] then supers.append cls node.id
            else supers
        | _ => supers
      else supers

/-- `direct_supers`, from the hierarchy edges and then from the hierarchy references. -/
def superIndex : Supers :=
  (corpus.refs.filter fun ref => ref.type = .extends ∨ ref.type = .implements).foldl
    corpus.addRefSuper
    (corpus.edges.foldl (fun supers edge =>
      if edge.1 = .extends ∨ edge.1 = .implements then supers.append edge.2.1 edge.2.2
      else supers) Dict.empty)

/-- A reference adds to the table what it adds to the supertypes of a class. -/
theorem getD_addRefSuper (supers : Supers) {ref : RawRef}
    (typed : ref.type = .extends ∨ ref.type = .implements) (cls : NodeId) :
    (corpus.addRefSuper supers ref).getD cls [] = corpus.addSuper cls (supers.getD cls []) ref := by
  rw [addSuper, if_pos typed, addRefSuper]
  cases source : corpus.hierarchySource ref with
  | none => simp only [reduceCtorEq, false_and, ↓reduceIte]
  | some own =>
      simp only [Option.some.injEq]
      by_cases charged : corpus.isClass own = true
      · by_cases same : own = cls
        · subst same
          simp only [charged, and_self, ↓reduceIte]
          rcases (corpus.narrowType ref).1 with _ | ⟨node, _ | ⟨other, rest⟩⟩
          · rfl
          · dsimp only
            split
            · rw [Dict.getD_append, if_pos rfl]
            · rfl
          · rfl
        · simp only [charged, same, false_and, ↓reduceIte]
          rcases (corpus.narrowType ref).1 with _ | ⟨node, _ | ⟨other, rest⟩⟩
          · rfl
          · dsimp only
            split
            · rw [Dict.getD_append, if_neg (Ne.symm same)]
            · rfl
          · rfl
      · rw [if_neg charged, if_neg]
        rintro ⟨rfl, cls⟩
        exact charged cls

/-- The table has the supertypes of every class. -/
theorem of_superIndex (cls : NodeId) : corpus.superIndex.of cls = corpus.directSupers cls := by
  have edged : (corpus.edges.foldl (fun supers edge =>
      if edge.1 = .extends ∨ edge.1 = .implements then supers.append edge.2.1 edge.2.2
      else supers) (Dict.empty : Supers)).getD cls [] = corpus.edgedSupers cls := by
    have collected := Dict.getD_foldl_append
      (fun edge : EdgeKey => decide (edge.1 = .extends ∨ edge.1 = .implements))
      (fun edge => edge.2.1) (fun edge => edge.2.2) corpus.edges (Dict.empty : Supers) cls
    simp only [decide_eq_true_eq] at collected
    rw [collected, edgedSupers]
    simp only [Bool.decide_and]
    rfl
  have entered : ∀ (refs : List RawRef) (supers : Supers),
      (∀ ref ∈ refs, ref.type = .extends ∨ ref.type = .implements) →
        (refs.foldl corpus.addRefSuper supers).getD cls [] =
          refs.foldl (corpus.addSuper cls) (supers.getD cls []) := by
    intro refs
    induction refs with
    | nil => exact fun supers _ => rfl
    | cons ref rest ih =>
        intro supers typed
        obtain ⟨own, others⟩ := List.forall_mem_cons.mp typed
        rw [List.foldl_cons, List.foldl_cons, ih _ others, corpus.getD_addRefSuper supers own]
  have idle : ∀ (refs : List RawRef) (supers : List NodeId),
      (refs.filter fun ref => ref.type = .extends ∨ ref.type = .implements).foldl
        (corpus.addSuper cls) supers = refs.foldl (corpus.addSuper cls) supers := by
    intro refs supers
    rw [List.foldl_filter]
    congr 1
    funext supers ref
    split
    · rfl
    · next untyped => exact (if_neg fun typed => untyped (decide_eq_true typed)).symm
  rw [Supers.of, superIndex, entered _ _ fun ref listed =>
    of_decide_eq_true (List.mem_filter.mp listed).2, edged, idle, directSupers_eq_foldl]

/-- The chains of the table are those of the corpus. -/
theorem ancestorChain_superIndex (cls : NodeId) :
    corpus.superIndex.ancestorChain cls = corpus.ancestorChain cls := by
  have same : corpus.superIndex.of = corpus.directSupers := funext corpus.of_superIndex
  have few : ∀ points seen : List NodeId, (unseen points seen).length ≤ points.length :=
    fun points seen => List.length_filter_le _ points
  have listed := @Supers.mem_listed corpus.superIndex
  rw [same] at listed
  rw [Supers.ancestorChain_eq, same, ancestorChain, ancestorsFrom_eq_search]
  -- Rounds enough for both tables give either chain.
  rw [← search_stable listed (listed cls) (few _ _) (Nat.le_add_right
    corpus.superIndex.listed.length (corpus.edges.length + corpus.refs.length + 2))]
  exact search_stable mem_supers (mem_supers cls)
    (Nat.le_trans (few _ _) length_supers_le) (Nat.le_add_left _ _)

/-- **Inherited members.** Whatever was looked up before, the lookup over the tables finds what
the resolver's model finds. -/
theorem inheritedMembers_superIndex (calls : List (List NodeId × Str)) (classIds : List NodeId)
    (name : Str) :
    (corpus.superIndex.inheritedMembers corpus.memberIndex.methodsOfClass
        (corpus.superIndex.cacheAfter corpus.memberIndex.methodsOfClass calls) classIds name).1 =
      corpus.inheritedMembers classIds name := by
  have declared : ∀ chain : List NodeId,
      Supers.firstDeclared corpus.memberIndex.methodsOfClass name chain =
        firstNonempty (chain.map fun ancestor => corpus.methodsOfClass ancestor name) := by
    intro chain
    induction chain with
    | nil => rfl
    | cons anc rest ih =>
        rw [Supers.firstDeclared, List.map_cons, firstNonempty, members_methodsOfClass, ih]
        cases corpus.methodsOfClass anc name with
        | nil => rfl
        | cons method methods => rfl
  rw [((Supers.kept_cacheAfter calls).inheritedMembers classIds name).1, inheritedMembers]
  simp only [declared, ancestorChain_superIndex]

end Corpus

end GraphIngest.Resolve
