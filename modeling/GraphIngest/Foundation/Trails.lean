import GraphIngest.Foundation.Gathering
import Mathlib.Data.List.Chain

/-! # Enumerating trails

A trail follows edges and uses none of them twice. The trails from a point, up to
a number of edges, are listed by extending them one edge at a time. A path that
meets no point twice is a trail, and wherever a chain leads, such a path leads.
-/

namespace GraphIngest.Foundation

section Paths

variable {α : Type*} {edge : α → α → Prop}

/-- From every point of a path a chain leads to its end. -/
theorem chain_of_mem_path {path : List α} (linked : path.IsChain edge) {point last : α}
    (member : point ∈ path) (ends : path.getLast? = some last) :
    ∃ length, Chain edge length point last := by
  induction path generalizing point with
  | nil => cases member
  | cons first rest ih =>
      cases rest with
      | nil =>
          rw [List.mem_singleton.mp member, ← Option.some.inj ends]
          exact ⟨0, .nil⟩
      | cons second rest =>
          rw [List.isChain_cons_cons] at linked
          rw [List.getLast?_cons_cons] at ends
          rcases List.mem_cons.mp member with rfl | later
          · obtain ⟨length, chain⟩ := ih linked.2 List.mem_cons_self ends
            exact ⟨length + 1, .cons linked.1 chain⟩
          · exact ih linked.2 later ends

/-- What every edge leads into holds of every later point of a path. -/
theorem holds_of_isChain {holds : α → Prop} (into : ∀ a b, edge a b → holds b) {first : α}
    {rest : List α} (linked : (first :: rest).IsChain edge) : ∀ point ∈ rest, holds point := by
  induction rest generalizing first with
  | nil => exact fun _ member => (List.not_mem_nil member).elim
  | cons second rest ih =>
      rw [List.isChain_cons_cons] at linked
      intro point member
      rcases List.mem_cons.mp member with rfl | later
      · exact into _ _ linked.1
      · exact ih linked.2 point later

/-- Where a chain leads, a path leads that meets no point twice. -/
theorem exists_path_of_chain [DecidableEq α] {length : Nat} {first last : α}
    (chain : Chain edge length first last) :
    ∃ rest, (first :: rest).Nodup ∧ (first :: rest).IsChain edge ∧
      (first :: rest).getLast? = some last := by
  induction chain with
  | nil => exact ⟨[], List.nodup_singleton _, List.isChain_singleton _, rfl⟩
  | @cons _ first second _ head _ ih =>
      obtain ⟨rest, simple, linked, ends⟩ := ih
      by_cases met : first ∈ second :: rest
      -- a path that comes back is cut at its point of return
      · obtain ⟨before, after, split⟩ := List.append_of_mem met
        rw [split] at simple linked ends
        refine ⟨after, (List.nodup_append.mp simple).2.1,
          linked.suffix (List.suffix_append _ _), ?_⟩
        rwa [List.getLast?_append_of_ne_nil _ (List.cons_ne_nil _ _)] at ends
      · refine ⟨second :: rest, List.nodup_cons.mpr ⟨met, simple⟩,
          List.isChain_cons_cons.mpr ⟨head, linked⟩, ?_⟩
        rwa [List.getLast?_cons_cons]

end Paths

section Trails

variable {α : Type*} [DecidableEq α] (edges : List (α × α))

/-- The trails from a point of at most some number of edges, none of which has
been used. -/
def trailsFrom : Nat → List (α × α) → α → List (List α)
  | 0, _, point => [[point]]
  | depth + 1, used, point =>
      [point] :: ((successors edges point).filter fun next => (point, next) ∉ used).flatMap
        fun next => (trailsFrom depth ((point, next) :: used) next).map (point :: ·)

variable {edges}

/-- A listed trail begins at the point and follows edges. -/
theorem linked_of_mem_trailsFrom {depth : Nat} {used : List (α × α)} {point : α}
    {path : List α} (listed : path ∈ trailsFrom edges depth used point) :
    path.head? = some point ∧ path.IsChain fun a b => (a, b) ∈ edges := by
  induction depth generalizing used point path with
  | zero =>
      rw [List.mem_singleton.mp listed]
      exact ⟨rfl, List.isChain_singleton _⟩
  | succ depth ih =>
      rcases List.mem_cons.mp listed with rfl | longer
      · exact ⟨rfl, List.isChain_singleton _⟩
      · obtain ⟨next, allowed, extended⟩ := List.mem_flatMap.mp longer
        obtain ⟨rest, further, rfl⟩ := List.mem_map.mp extended
        obtain ⟨starts, linked⟩ := ih further
        refine ⟨rfl, ?_⟩
        cases rest with
        | nil => cases starts
        | cons second rest =>
            obtain rfl := Option.some.inj starts
            exact List.isChain_cons_cons.mpr
              ⟨mem_successors.mp (List.mem_filter.mp allowed).1, linked⟩

/-- **Trails.** A path that meets no point twice is listed, if it is not too long
and leaves no point by a used edge. -/
theorem mem_trailsFrom_of_nodup {depth : Nat} {used : List (α × α)} {point : α} {rest : List α}
    (simple : (point :: rest).Nodup) (linked : (point :: rest).IsChain fun a b => (a, b) ∈ edges)
    (unused : ∀ a ∈ point :: rest, ∀ b, (a, b) ∉ used) (short : rest.length ≤ depth) :
    point :: rest ∈ trailsFrom edges depth used point := by
  induction depth generalizing used point rest with
  | zero =>
      rw [List.eq_nil_of_length_eq_zero (Nat.le_zero.mp short)]
      exact List.mem_singleton.mpr rfl
  | succ depth ih =>
      cases rest with
      | nil => exact List.mem_cons_self
      | cons next rest =>
          rw [List.isChain_cons_cons] at linked
          obtain ⟨fresh, simple⟩ := List.nodup_cons.mp simple
          refine List.mem_cons_of_mem _ (List.mem_flatMap.mpr ⟨next, ?_, ?_⟩)
          · exact List.mem_filter.mpr ⟨mem_successors.mpr linked.1,
              decide_eq_true (unused point List.mem_cons_self next)⟩
          · refine List.mem_map_of_mem (ih simple linked.2 ?_ (Nat.le_of_succ_le_succ short))
            intro a later b taken
            rcases List.mem_cons.mp taken with same | earlier
            · exact fresh ((Prod.mk.inj same).1 ▸ later)
            · exact unused a (List.mem_cons_of_mem _ later) b earlier

end Trails

end GraphIngest.Foundation
