import Mathlib.Algebra.BigOperators.Ring.Finset
import Mathlib.Logic.Relation

/-! # Worklist traversal

A stack of pending items is popped one at a time; an item that is inadmissible
or already visited is dropped, any other is visited and its successors are
pushed. The traversal takes a step budget. When successors only come from a
finite list of sources, the budget `budget` always suffices, and the visited
items are exactly the items reachable from the initial stack through admissible
items.
-/

namespace GraphIngest.Foundation

variable {κ : Type*} [DecidableEq κ]

/-- Pop, visit, push; the top of the stack is the head of the list and pushed
successors are popped last-pushed first. -/
def walk (allow : κ → Bool) (next : κ → List κ) : Nat → List κ → List κ → List κ
  | 0, _, visited => visited
  | _ + 1, [], visited => visited
  | fuel + 1, item :: stack, visited =>
      if !allow item || visited.contains item then walk allow next fuel stack visited
      else walk allow next fuel ((next item).reverse ++ stack) (visited ++ [item])

/-- Enough steps for any traversal from a stack: every pop removes an item, and
the successors of each source are pushed at most once. -/
def budget (next : κ → List κ) (sources stack : List κ) : Nat :=
  stack.length + (sources.dedup.map fun item => (next item).length).sum

/-- One move between admissible items. -/
def Moves (allow : κ → Bool) (next : κ → List κ) (first second : κ) : Prop :=
  second ∈ next first ∧ allow second = true

/-- The items reachable from a stack through admissible items. -/
def ReachedFrom (allow : κ → Bool) (next : κ → List κ) (stack : List κ) (item : κ) : Prop :=
  ∃ start ∈ stack, allow start = true ∧ Relation.ReflTransGen (Moves allow next) start item

section Soundness

variable {allow : κ → Bool} {next : κ → List κ}

/-- Visited items stay visited. -/
theorem mem_walk_of_mem (fuel : Nat) (stack visited : List κ) {item : κ}
    (member : item ∈ visited) : item ∈ walk allow next fuel stack visited := by
  induction fuel generalizing stack visited with
  | zero => exact member
  | succ fuel ih =>
      cases stack with
      | nil => exact member
      | cons top rest =>
          unfold walk
          split
          · exact ih rest visited member
          · exact ih _ _ (List.mem_append_left _ member)

/-- Everything visited was visited before or is reached from the stack. -/
theorem reached_of_mem_walk (fuel : Nat) (stack visited : List κ) {item : κ}
    (member : item ∈ walk allow next fuel stack visited) :
    item ∈ visited ∨ ReachedFrom allow next stack item := by
  induction fuel generalizing stack visited with
  | zero => exact Or.inl member
  | succ fuel ih =>
      cases stack with
      | nil => exact Or.inl member
      | cons top rest =>
          unfold walk at member
          split at member
          · rcases ih rest visited member with old | ⟨start, present, allowed, path⟩
            · exact Or.inl old
            · exact Or.inr ⟨start, List.mem_cons_of_mem _ present, allowed, path⟩
          · next fresh =>
              simp only [Bool.or_eq_true, Bool.not_eq_true', not_or, Bool.not_eq_false,
                Bool.not_eq_true] at fresh
              rcases ih _ _ member with old | ⟨start, present, allowed, path⟩
              · rcases List.mem_append.mp old with old | same
                · exact Or.inl old
                · rw [List.mem_singleton.mp same]
                  exact Or.inr ⟨top, List.mem_cons_self, fresh.1, .refl⟩
              · rcases List.mem_append.mp present with pushed | waiting
                · exact Or.inr ⟨top, List.mem_cons_self, fresh.1,
                    .head ⟨List.mem_reverse.mp pushed, allowed⟩ path⟩
                · exact Or.inr ⟨start, List.mem_cons_of_mem _ waiting, allowed, path⟩

end Soundness

section Completeness

variable {allow : κ → Bool} {next : κ → List κ} {sources : List κ}

/-- The successors still to be pushed by the sources not yet visited. -/
private def pendingPushes (next : κ → List κ) (sources visited : List κ) : Nat :=
  ((sources.dedup.filter fun item => !visited.contains item).map fun item =>
    (next item).length).sum

private theorem pendingPushes_visit (item : κ) (visited : List κ)
    (fresh : visited.contains item = false)
    (outside : ∀ other, other ∉ sources → next other = []) :
    pendingPushes next sources (visited ++ [item]) + (next item).length =
      pendingPushes next sources visited := by
  have split : ∀ items : List κ, items.Nodup →
      ((items.filter fun other => !(visited ++ [item]).contains other).map fun other =>
        (next other).length).sum + (if item ∈ items then (next item).length else 0) =
      ((items.filter fun other => !visited.contains other).map fun other =>
        (next other).length).sum := by
    intro items nodup
    induction items with
    | nil => rfl
    | cons head rest ih =>
        obtain ⟨absent, restNodup⟩ := List.nodup_cons.mp nodup
        have tail := ih restNodup
        by_cases same : head = item
        · subst same
          simp only [absent, ↓reduceIte, Nat.add_zero] at tail
          simp only [List.filter_cons, List.contains_append, fresh, List.contains_cons, BEq.rfl,
            Bool.true_or, Bool.or_true, Bool.not_true, Bool.false_eq_true, ↓reduceIte,
            List.mem_cons, true_or, Bool.not_false, List.map_cons, List.sum_cons]
          simp only [List.contains_append, List.contains_cons] at tail
          omega
        · have keep : (visited ++ [item]).contains head = visited.contains head := by
            simp only [List.contains_append, List.contains_cons, List.contains_nil,
              beq_false_of_ne same, Bool.or_false]
          have position : item ∈ head :: rest ↔ item ∈ rest := by
            simp only [List.mem_cons, Ne.symm same, false_or]
          simp only [List.filter_cons, keep, position]
          cases visited.contains head with
          | true => simpa only [Bool.not_true, Bool.false_eq_true, ↓reduceIte] using tail
          | false =>
              simp only [Bool.not_false, ↓reduceIte, List.map_cons, List.sum_cons]
              omega
  have whole := split sources.dedup (List.nodup_dedup sources)
  by_cases source : item ∈ sources
  · simpa only [pendingPushes, List.mem_dedup.mpr source, ↓reduceIte] using whole
  · have quiet := outside item source
    simp only [List.mem_dedup, source, ↓reduceIte, Nat.add_zero] at whole
    simpa only [pendingPushes, quiet, List.length_nil, Nat.add_zero] using whole

variable (allow) in
/-- With enough steps left, a traversal visits everything on its stack and is
closed under moves from what it visits itself. -/
private theorem walk_closed (outside : ∀ other, other ∉ sources → next other = [])
    (fuel : Nat) (stack visited : List κ)
    (enough : stack.length + pendingPushes next sources visited ≤ fuel)
    (closed : ∀ item ∈ visited, ∀ later ∈ next item, allow later = true →
      later ∈ visited ∨ later ∈ stack) :
    (∀ item ∈ stack, allow item = true → item ∈ walk allow next fuel stack visited) ∧
      ∀ item ∈ walk allow next fuel stack visited, ∀ later ∈ next item, allow later = true →
        later ∈ walk allow next fuel stack visited := by
  induction fuel generalizing stack visited with
  | zero =>
      have empty : stack = [] := List.length_eq_zero_iff.mp (by omega)
      subst empty
      refine ⟨fun item member => (List.not_mem_nil member).elim, ?_⟩
      intro item member later successor allowed
      exact (closed item member later successor allowed).resolve_right List.not_mem_nil
  | succ fuel ih =>
      cases stack with
      | nil =>
          refine ⟨fun item member => (List.not_mem_nil member).elim, ?_⟩
          intro item member later successor allowed
          exact (closed item member later successor allowed).resolve_right List.not_mem_nil
      | cons top rest =>
          simp only [List.length_cons] at enough
          unfold walk
          split
          · next dropped =>
              have known : allow top = true → top ∈ visited := by
                intro allowed
                simpa only [allowed, Bool.not_true, Bool.false_or, List.contains_iff_mem]
                  using dropped
              obtain ⟨onStack, stable⟩ := ih rest visited (by omega) (by
                intro item member later successor allowed
                rcases closed item member later successor allowed with old | waiting
                · exact Or.inl old
                · rcases List.mem_cons.mp waiting with rfl | waiting
                  · exact Or.inl (known allowed)
                  · exact Or.inr waiting)
              refine ⟨?_, stable⟩
              intro item member allowed
              rcases List.mem_cons.mp member with rfl | waiting
              · exact mem_walk_of_mem fuel rest visited (known allowed)
              · exact onStack item waiting allowed
          · next fresh =>
              simp only [Bool.or_eq_true, Bool.not_eq_true', not_or, Bool.not_eq_false,
                Bool.not_eq_true] at fresh
              have spent := pendingPushes_visit top visited fresh.2 outside
              obtain ⟨onStack, stable⟩ := ih ((next top).reverse ++ rest) (visited ++ [top]) (by
                  simp only [List.length_append, List.length_reverse]
                  omega) (by
                intro item member later successor allowed
                rcases List.mem_append.mp member with old | same
                · rcases closed item old later successor allowed with seen | waiting
                  · exact Or.inl (List.mem_append_left _ seen)
                  · rcases List.mem_cons.mp waiting with rfl | waiting
                    · exact Or.inl (List.mem_append_right _ List.mem_cons_self)
                    · exact Or.inr (List.mem_append_right _ waiting)
                · rw [List.mem_singleton.mp same] at successor
                  exact Or.inr (List.mem_append_left _ (List.mem_reverse.mpr successor)))
              refine ⟨?_, stable⟩
              intro item member allowed
              rcases List.mem_cons.mp member with rfl | waiting
              · exact mem_walk_of_mem fuel _ _ (List.mem_append_right _ List.mem_cons_self)
              · exact onStack item (List.mem_append_right _ waiting) allowed

/-- **Traversal is reachability.** Within its budget a traversal visits exactly
the items reachable from its stack. -/
theorem mem_walk_iff (outside : ∀ other, other ∉ sources → next other = []) (stack : List κ)
    (item : κ) :
    item ∈ walk allow next (budget next sources stack) stack [] ↔
      ReachedFrom allow next stack item := by
  constructor
  · intro member
    exact (reached_of_mem_walk _ stack [] member).resolve_left List.not_mem_nil
  · rintro ⟨start, present, allowed, path⟩
    have all : sources.dedup.filter (fun other => !([] : List κ).contains other) =
        sources.dedup := List.filter_eq_self.mpr fun _ _ => rfl
    obtain ⟨onStack, stable⟩ := walk_closed allow outside
      (budget next sources stack) stack [] (by
        rw [pendingPushes, all, budget])
      (fun item member => (List.not_mem_nil member).elim)
    induction path with
    | refl => exact onStack start present allowed
    | tail _ move ih => exact stable _ ih _ move.1 move.2

end Completeness

end GraphIngest.Foundation
