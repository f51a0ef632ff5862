import GraphIngest.Analysis.Subjects
import GraphIngest.Foundation.Grouping
import Mathlib.Data.List.Infix

/-! # Routes that are dropped

Rows of paths are collapsed by their two ends: the first of the longest rows stays, and
what goes is counted as a sub-path of it. It is one when every route that another one
between the same ends outlives is continued by a longer route, and no two rows between
the same ends answer different questions.
-/

namespace GraphIngest.Analysis

open Foundation Graph

namespace JudgedPath

/-- The two ends of a path. -/
def ends (path : JudgedPath) : Option (NodeId × NodeId) :=
  path.ids.head?.bind fun first => path.ids.getLast?.map fun last => (first, last)

/-- How long a path is. -/
def size (path : JudgedPath) : Nat := path.ids.length

/-- Whether the row asks for a leak, and not for what reaches a sink. -/
def isLeak : JudgedPath → Bool
  | sink _ => false
  | leak _ => true

theorem ends_eq_some {path : JudgedPath} {first last : NodeId} :
    path.ends = some (first, last) ↔
      path.ids.head? = some first ∧ path.ids.getLast? = some last := by
  simp only [ends, Option.bind_eq_some_iff, Option.map_eq_some_iff, Prod.mk.injEq,
    exists_eq_right_right]

/-- Every path that is not empty has two ends. -/
theorem exists_ends {path : JudgedPath} (filled : path.ids ≠ []) :
    ∃ found, path.ends = some found :=
  ⟨(path.ids.head filled, path.ids.getLast filled), ends_eq_some.mpr
    ⟨List.head?_eq_some_head filled, List.getLast?_eq_some_getLast filled⟩⟩

theorem ends_congr {path other : JudgedPath} (same : path.ids = other.ids) :
    path.ends = other.ends := by
  rw [ends, ends, same]

end JudgedPath

/-- The loop keeps the first of the longest rows of each pair of ends. -/
theorem keepLongest_eq : keepLongest = keepLargest JudgedPath.ends JudgedPath.size := by
  funext best path
  unfold keepLongest keepLargest
  cases first : path.ids.head? with
  | none =>
      have absent : path.ends = none := by rw [JudgedPath.ends, first, Option.bind_none]
      rw [absent]
  | some head =>
      cases last : path.ids.getLast? with
      | none =>
          have absent : path.ends = none := by
            rw [JudgedPath.ends, first, Option.bind_some, last, Option.map_none]
          rw [absent]
      | some tail =>
          rw [JudgedPath.ends_eq_some.mpr ⟨first, last⟩]
          dsimp only
          cases best.get? (head, tail) <;> rfl

section Kept

variable {paths : List JudgedPath} {path : JudgedPath}

/-- The row `path` stands for its ends. -/
abbrev Stands (ends : NodeId × NodeId) (path : JudgedPath) (paths : List JudgedPath) : Prop :=
  Largest JudgedPath.ends JudgedPath.size ends path paths

theorem stands_of_mem (kept : path ∈ dedupePaths paths) : ∃ ends, Stands ends path paths := by
  have valued := (List.mem_insertionSort JudgedPath.Before).mp kept
  obtain ⟨⟨ends, _⟩, entry, rfl⟩ := List.mem_map.mp valued
  rw [Dict.mem_entries_iff, keepLongest_eq] at entry
  exact ⟨ends, (keepsLargest_foldl _ _ paths).largest entry⟩

/-- What is kept was given. -/
theorem mem_of_mem_dedupePaths (kept : path ∈ dedupePaths paths) : path ∈ paths := by
  obtain ⟨_, stands⟩ := stands_of_mem kept
  exact stands.mem

/-- A row is kept for the ends of each row that is not empty. -/
theorem exists_stands (listed : path ∈ paths) (filled : path.ids ≠ []) :
    ∃ ends, path.ends = some ends ∧ ∃ kept ∈ dedupePaths paths, Stands ends kept paths := by
  obtain ⟨ends, same⟩ := JudgedPath.exists_ends filled
  refine ⟨ends, same, ?_⟩
  have keeps := keepsLargest_foldl JudgedPath.ends JudgedPath.size paths
  rw [← keepLongest_eq] at keeps
  cases held : (paths.foldl keepLongest Dict.empty).get? ends with
  | none => exact absurd same (keeps.complete held path listed)
  | some kept =>
      refine ⟨kept, (List.mem_insertionSort JudgedPath.Before).mpr ?_, keeps.largest held⟩
      exact List.mem_map.mpr ⟨(ends, kept), (Dict.mem_entries_iff _ _ _).mpr held, rfl⟩

/-- One row is kept for two ends. -/
theorem eq_of_stands {ends : NodeId × NodeId} {other : JudgedPath}
    (kept : path ∈ dedupePaths paths) (keptToo : other ∈ dedupePaths paths)
    (same : path.ends = some ends) (sameToo : other.ends = some ends) : path = other := by
  have held : ∀ row, row ∈ dedupePaths paths → row.ends = some ends →
      (paths.foldl keepLongest Dict.empty).get? ends = some row := by
    intro row listed known
    have valued := (List.mem_insertionSort JudgedPath.Before).mp listed
    obtain ⟨⟨found, _⟩, entry, rfl⟩ := List.mem_map.mp valued
    rw [Dict.mem_entries_iff] at entry
    have stands := (keepsLargest_foldl JudgedPath.ends JudgedPath.size paths).largest
      (keepLongest_eq ▸ entry)
    rw [← Option.some.inj (stands.key_eq.symm.trans known)]
    exact entry
  exact Option.some.inj ((held path kept same).symm.trans (held other keptToo sameToo))

end Kept

section Dropping

/-- Among rows between the same ends, one route is kept before another: it is longer, or
as long and listed first. -/
def Outlives (routes : List (List NodeId)) (route other : List NodeId) : Prop :=
  other.length < route.length ∨
    other.length = route.length ∧ routes.idxOf route < routes.idxOf other

/-- Every row that is dropped is a contiguous part of one that is kept and ends at the
same function, and none is dropped for a row that answers another question. -/
structure DropsSubpathsOnly (paths : List JudgedPath) : Prop where
  covered : ∀ path ∈ paths, path ∉ dedupePaths paths → ∃ kept ∈ dedupePaths paths,
    path.ids <:+: kept.ids ∧ path.ids.getLast? = kept.ids.getLast?
  alike : ∀ path ∈ paths, path ∉ dedupePaths paths → ∀ kept ∈ dedupePaths paths,
    kept.ends = path.ends → kept.isLeak = path.isLeak

/-- Every row has a path, rows between the same ends answer one question, and a longer
route to the same function continues each route that another one outlives. -/
structure Nested (paths : List JudgedPath) : Prop where
  filled : ∀ path ∈ paths, path.ids ≠ []
  alike : ∀ path ∈ paths, ∀ other ∈ paths, path.ends = other.ends → path.isLeak = other.isLeak
  continued : ∀ path ∈ paths, ∀ other ∈ paths, path.ends = other.ends →
    Outlives (paths.map JudgedPath.ids) other.ids path.ids → ∃ longer ∈ paths,
      path.ids.length < longer.ids.length ∧ path.ids <:+: longer.ids ∧
        path.ids.getLast? = longer.ids.getLast?

section Positions

variable {before after : List (List NodeId)} {route other : List NodeId}

theorem idxOf_le_length_append : (before ++ route :: after).idxOf route ≤ before.length := by
  by_cases early : route ∈ before
  · rw [List.idxOf_append_of_mem early]
    exact (List.idxOf_lt_length_of_mem early).le
  · rw [List.idxOf_append_of_notMem early, List.idxOf_cons_self, Nat.add_zero]

/-- A route that is not listed in front of another one comes after it. -/
theorem idxOf_append_lt (late : other ∉ before) (different : route ≠ other) :
    (before ++ route :: after).idxOf route < (before ++ route :: after).idxOf other := by
  have bound := @idxOf_le_length_append before after route
  rw [List.idxOf_append_of_notMem late, List.idxOf_cons_ne _ different]
  omega

theorem mem_of_idxOf_append_lt
    (early : (before ++ route :: after).idxOf other < (before ++ route :: after).idxOf route) :
    other ∈ before := by
  have bound := @idxOf_le_length_append before after route
  by_contra late
  rw [List.idxOf_append_of_notMem late] at early
  omega

end Positions

variable {paths : List JudgedPath} {path kept : JudgedPath} {ends : NodeId × NodeId}

/-- A row has the route of the one that stands for its ends, or is outlived by it. -/
theorem outlives_of_stands (stands : Stands ends kept paths) (listed : path ∈ paths)
    (same : path.ends = some ends) :
    kept.ids = path.ids ∨ Outlives (paths.map JudgedPath.ids) kept.ids path.ids := by
  by_cases alike : kept.ids = path.ids
  · exact .inl alike
  · refine .inr ?_
    have bound : path.ids.length ≤ kept.ids.length := stands.greatest listed same
    obtain ⟨before, after, rfl, _, earlier, _⟩ := stands
    rcases bound.lt_or_eq with shorter | equal
    · exact .inl shorter
    · refine .inr ⟨equal, ?_⟩
      rw [List.map_append, List.map_cons]
      refine idxOf_append_lt (fun early => ?_) alike
      obtain ⟨old, ahead, route⟩ := List.mem_map.mp early
      have less : old.ids.length < kept.ids.length :=
        earlier old ahead ((JudgedPath.ends_congr route).trans same)
      rw [route] at less
      omega

/-- A route that another one outlives does not stand. -/
theorem ne_of_outlives (stands : Stands ends kept paths) {other : JudgedPath}
    (listed : other ∈ paths) (same : other.ends = some ends)
    (outlives : Outlives (paths.map JudgedPath.ids) other.ids path.ids) : kept.ids ≠ path.ids := by
  intro route
  rw [← route] at outlives
  have bound : other.ids.length ≤ kept.ids.length := stands.greatest listed same
  obtain ⟨before, after, rfl, _, earlier, _⟩ := stands
  rcases outlives with longer | ⟨_, ahead⟩
  · omega
  · rw [List.map_append, List.map_cons] at ahead
    obtain ⟨old, early, alike⟩ := List.mem_map.mp (mem_of_idxOf_append_lt ahead)
    have less : old.ids.length < kept.ids.length :=
      earlier old early ((JudgedPath.ends_congr alike).trans same)
    rw [alike] at less
    omega

theorem exists_longest (paths : List JudgedPath) :
    ∃ longest, ∀ path ∈ paths, path.ids.length ≤ longest := by
  induction paths with
  | nil => exact ⟨0, fun _ listed => absurd listed List.not_mem_nil⟩
  | cons head rest ih =>
      obtain ⟨longest, bound⟩ := ih
      refine ⟨max head.ids.length longest, fun path listed => ?_⟩
      rcases List.mem_cons.mp listed with rfl | later
      · exact Nat.le_max_left _ _
      · exact (bound path later).trans (Nat.le_max_right _ _)

/-- Under the condition every route is a contiguous part of one that is kept. The
induction is on how much longer a route can still become. -/
theorem Nested.covered (nested : Nested paths) (listed : path ∈ paths) :
    ∃ kept ∈ dedupePaths paths, path.ids <:+: kept.ids ∧
      path.ids.getLast? = kept.ids.getLast? := by
  obtain ⟨longest, bound⟩ := exists_longest paths
  induction gap : longest - path.ids.length using Nat.strongRecOn generalizing path with
  | ind gap ih =>
      obtain ⟨ends, same, kept, stays, stands⟩ := exists_stands listed (nested.filled path listed)
      rcases outlives_of_stands stands listed same with alike | outlives
      · rw [← alike]
        exact ⟨kept, stays, List.infix_rfl, rfl⟩
      · obtain ⟨longer, given, grows, part, last⟩ := nested.continued path listed kept
          stands.mem (same.trans stands.key_eq.symm) outlives
        have room := bound longer given
        obtain ⟨cover, stays, whole, end_eq⟩ := ih (longest - longer.ids.length) (by omega)
          given rfl
        exact ⟨cover, stays, part.trans whole, last.trans end_eq⟩

/-- **Dropped rows.** The rows that are dropped are sub-paths of rows that are kept and
answer their question exactly when the rows are nested. -/
theorem dropsSubpathsOnly_iff (paths : List JudgedPath) :
    DropsSubpathsOnly paths ↔ Nested paths := by
  constructor
  · intro drops
    have filled : ∀ path ∈ paths, path.ids ≠ [] := by
      intro path listed empty
      have dropped : path ∉ dedupePaths paths := by
        intro stays
        obtain ⟨ends, stands⟩ := stands_of_mem stays
        obtain ⟨first, _⟩ := JudgedPath.ends_eq_some.mp stands.key_eq
        rw [empty] at first
        cases first
      obtain ⟨kept, stays, _, last⟩ := drops.covered path listed dropped
      obtain ⟨ends, stands⟩ := stands_of_mem stays
      obtain ⟨_, tail⟩ := JudgedPath.ends_eq_some.mp stands.key_eq
      rw [← last, empty] at tail
      cases tail
    refine ⟨filled, ?_, ?_⟩
    · -- both rows are of the kind of the one that stands for their ends
      have alike : ∀ path ∈ paths, ∀ kept ∈ dedupePaths paths, kept.ends = path.ends →
          kept.isLeak = path.isLeak := by
        intro path listed kept stays same
        by_cases present : path ∈ dedupePaths paths
        · obtain ⟨ends, stands⟩ := stands_of_mem stays
          rw [eq_of_stands stays present stands.key_eq (same.symm.trans stands.key_eq)]
        · exact drops.alike path listed present kept stays same
      intro path listed other listedToo same
      obtain ⟨ends, found, kept, stays, stands⟩ := exists_stands listed (filled path listed)
      have keyed : kept.ends = path.ends := stands.key_eq.trans found.symm
      rw [← alike path listed kept stays keyed, alike other listedToo kept stays (keyed.trans same)]
    · intro path listed other listedToo same outlives
      obtain ⟨ends, found, kept, stays, stands⟩ := exists_stands listed (filled path listed)
      have different := ne_of_outlives stands listedToo (same.symm.trans found) outlives
      have dropped : path ∉ dedupePaths paths := by
        intro present
        exact different (congrArg JudgedPath.ids (eq_of_stands stays present stands.key_eq found))
      obtain ⟨cover, covers, part, last⟩ := drops.covered path listed dropped
      refine ⟨cover, mem_of_mem_dedupePaths covers, ?_, part, last⟩
      refine lt_of_le_of_ne part.length_le fun equal => different ?_
      have route := part.sublist.eq_of_length equal
      obtain ⟨_, standsToo⟩ := stands_of_mem covers
      rw [eq_of_stands stays covers stands.key_eq ((JudgedPath.ends_congr route).symm.trans found),
        route]
  · intro nested
    refine ⟨fun path listed _ => nested.covered listed, fun path listed _ kept stays same => ?_⟩
    exact nested.alike kept (mem_of_mem_dedupePaths stays) path listed same

end Dropping

section Sample

/-- The row of a path from `a` to the sink `d` through a function. -/
def routeThrough (middle : Str) (named : middle ≠ []) : JudgedPath :=
  .sink
    { ids :=
        [⟨"a".toList, List.cons_ne_nil _ _⟩, ⟨middle, named⟩, ⟨"d".toList, List.cons_ne_nil _ _⟩]
      fqns := ["a", middle, "d"]
      entryFqn := "a"
      entryFile := "A.java"
      sinkFqn := "d"
      sinkFile := "D.java"
      sinkLine := 4
      sinkKinds := [.dbExecute]
      sinkNames := ["Statement.execute"]
      hops := 2
      strategies := ["bytecode", "bytecode"]
      confidences := [.extracted, .extracted]
      hasSanitizer := false }

/-- Two ways to one sink. -/
def branchingPaths : List JudgedPath :=
  [routeThrough "b" (List.cons_ne_nil _ _), routeThrough "c" (List.cons_ne_nil _ _)]

/-- Neither way is a part of the other, and one of them is dropped. -/
theorem branchingPaths_drops : ¬ DropsSubpathsOnly branchingPaths := by
  intro drops
  have kept : dedupePaths branchingPaths = [routeThrough "b" (List.cons_ne_nil _ _)] := by
    decide +kernel
  have dropped : routeThrough "c" (List.cons_ne_nil _ _) ∉ dedupePaths branchingPaths := by
    rw [kept]
    decide +kernel
  obtain ⟨cover, stays, part, _⟩ := drops.covered _ (List.mem_cons_of_mem _ List.mem_cons_self)
    dropped
  rw [kept, List.mem_singleton] at stays
  subst stays
  revert part
  decide +kernel

end Sample

end GraphIngest.Analysis
