import Mathlib.Data.List.Flatten
import Mathlib.Data.List.Perm.Basic

/-! # Rose trees

Trees with labels and any number of children. A walk with a stack goes through what is below a
node and knows the node above each one; where it comes to a node that it is told to cut off, it
leaves out all that is below. What it has seen and what is below the nodes cut off is everything.
-/

namespace GraphIngest.Foundation

/-- A label over a row of trees. -/
inductive Rose (α : Type*)
  | node (label : α) (children : List (Rose α))

namespace Rose

variable {α : Type*}

def label : Rose α → α
  | node label _ => label

def children : Rose α → List (Rose α)
  | node _ children => children

/-- The children, each with the tree above it. -/
def placed (tree : Rose α) : List (Rose α × Rose α) := tree.children.map fun child => (tree, child)

mutual

/-- How many nodes a tree has. -/
def size : Rose α → Nat
  | node _ children => sizes children + 1

def sizes : List (Rose α) → Nat
  | [] => 0
  | tree :: rest => size tree + sizes rest

end

theorem size_pos (tree : Rose α) : 0 < tree.size := by
  obtain ⟨label, children⟩ := tree
  exact Nat.succ_pos _

theorem size_le_sizes {tree : Rose α} {trees : List (Rose α)} (member : tree ∈ trees) :
    tree.size ≤ sizes trees := by
  induction trees with
  | nil => cases member
  | cons first rest ih =>
      rw [sizes]
      rcases List.mem_cons.mp member with rfl | later
      · exact Nat.le_add_right _ _
      · exact Nat.le_trans (ih later) (Nat.le_add_left _ _)

/-- A child is smaller than its tree. -/
theorem size_lt_of_mem {tree child : Rose α} (member : child ∈ tree.children) :
    child.size < tree.size := by
  obtain ⟨label, children⟩ := tree
  exact Nat.lt_succ_of_le (size_le_sizes member)

/-- The size of the trees on a stack, by which walks end. -/
def weight : List (Rose α × Rose α) → Nat
  | [] => 0
  | place :: rest => place.2.size + weight rest

theorem weight_append (front back : List (Rose α × Rose α)) :
    weight (front ++ back) = weight front + weight back := by
  induction front with
  | nil => exact (Nat.zero_add _).symm
  | cons place rest ih => rw [List.cons_append, weight, ih, weight, Nat.add_assoc]

theorem weight_placed_lt (tree : Rose α) : weight tree.placed < tree.size := by
  have same : ∀ (above : Rose α) (trees : List (Rose α)),
      weight (trees.map fun child => (above, child)) = sizes trees := by
    intro above trees
    induction trees with
    | nil => rfl
    | cons first rest ih => rw [List.map_cons, weight, ih, sizes]
  obtain ⟨label, children⟩ := tree
  rw [placed, same]
  exact Nat.lt_succ_self _

theorem weight_lt_cons (place : Rose α × Rose α) (stack : List (Rose α × Rose α)) :
    weight stack < weight (place :: stack) := by
  have some := size_pos place.2
  rw [weight]
  omega

/-- Opening the tree on top makes the stack lighter. -/
theorem weight_opened_lt (place : Rose α × Rose α) (stack : List (Rose α × Rose α)) :
    weight (place.2.placed ++ stack) < weight (place :: stack) := by
  have smaller := weight_placed_lt place.2
  rw [weight_append, weight]
  omega

section Walk

variable (cut : Rose α → Bool)

/-- The walk with a stack, whose top is the head of the list. -/
def within : List (Rose α × Rose α) → List (Rose α × Rose α)
  | [] => []
  | place :: stack =>
      if cut place.2 then within stack else place :: within (place.2.placed ++ stack)
termination_by stack => weight stack
decreasing_by
  · exact weight_lt_cons place stack
  · exact weight_opened_lt place stack

/-- What the walk cuts off. -/
def outermost : List (Rose α × Rose α) → List (Rose α)
  | [] => []
  | place :: stack =>
      if cut place.2 then place.2 :: outermost stack else outermost (place.2.placed ++ stack)
termination_by stack => weight stack
decreasing_by
  · exact weight_lt_cons place stack
  · exact weight_opened_lt place stack

/-- What is below a place and not cut off. -/
def opened (place : Rose α × Rose α) : List (Rose α × Rose α) :=
  if cut place.2 then [] else place :: within cut place.2.placed

variable {cut}

/-- What is seen of a stack is seen of its two parts. -/
theorem within_append (front back : List (Rose α × Rose α)) :
    within cut (front ++ back) = within cut front ++ within cut back := by
  induction front using within.induct cut with
  | case1 => rw [within, List.nil_append, List.nil_append]
  | case2 place stack gone ih => rw [List.cons_append, within, if_pos gone, within, if_pos gone, ih]
  | case3 place stack kept ih =>
      rw [List.cons_append, within, if_neg kept, within, if_neg kept, ← List.append_assoc, ih,
        List.cons_append]

theorem outermost_append (front back : List (Rose α × Rose α)) :
    outermost cut (front ++ back) = outermost cut front ++ outermost cut back := by
  induction front using outermost.induct cut with
  | case1 => rw [outermost, List.nil_append, List.nil_append]
  | case2 place stack gone ih =>
      rw [List.cons_append, outermost, if_pos gone, outermost, if_pos gone, ih, List.cons_append]
  | case3 place stack kept ih =>
      rw [List.cons_append, outermost, if_neg kept, outermost, if_neg kept, ← List.append_assoc, ih]

/-- What is cut off at the top of a stack is cut off. -/
theorem filter_sublist_outermost (stack : List (Rose α × Rose α)) :
    ((stack.map Prod.snd).filter cut).Sublist (outermost cut stack) := by
  induction stack with
  | nil => exact List.nil_sublist _
  | cons place rest ih =>
      rw [List.map_cons, outermost]
      split
      · next gone =>
          rw [List.filter_cons_of_pos gone]
          exact ih.cons_cons _
      · next kept =>
          rw [List.filter_cons_of_neg kept, outermost_append]
          exact ih.trans (List.sublist_append_right _ _)

/-- The stack is gone through place by place. -/
theorem within_eq_flatMap (stack : List (Rose α × Rose α)) :
    within cut stack = stack.flatMap (opened cut) := by
  induction stack with
  | nil => rw [within, List.flatMap_nil]
  | cons place rest ih =>
      rw [within, List.flatMap_cons, opened, ← ih]
      split
      · rw [List.nil_append]
      · rw [within_append, List.cons_append]

/-- What is on the stack and not cut off is seen. -/
theorem mem_within_of_mem {place : Rose α × Rose α} {stack : List (Rose α × Rose α)}
    (member : place ∈ stack) (kept : cut place.2 = false) : place ∈ within cut stack := by
  rw [within_eq_flatMap]
  refine List.mem_flatMap.mpr ⟨place, member, ?_⟩
  rw [opened, kept]
  exact List.mem_cons_self

/-- Below what is seen only what is cut off is not seen. -/
theorem mem_within_child {place : Rose α × Rose α} {child : Rose α}
    {stack : List (Rose α × Rose α)} (seen : place ∈ within cut stack)
    (member : child ∈ place.2.children) (kept : cut child = false) :
    (place.2, child) ∈ within cut stack := by
  induction stack using within.induct cut with
  | case1 =>
      rw [within] at seen
      cases seen
  | case2 top stack gone ih =>
      rw [within, if_pos gone] at seen ⊢
      exact ih seen
  | case3 top stack open_ ih =>
      rw [within, if_neg open_] at seen ⊢
      rcases List.mem_cons.mp seen with rfl | later
      · refine List.mem_cons_of_mem _ (mem_within_of_mem (List.mem_append_left _ ?_) kept)
        exact List.mem_map_of_mem member
      · exact List.mem_cons_of_mem _ (ih later)

end Walk

section All

/-- A tree and all that is below it, in the order of the walk. -/
def all (tree : Rose α) : List (Rose α) :=
  tree :: (within (fun _ => false) tree.placed).map Prod.snd

theorem map_within_false (trees : List (Rose α × Rose α)) :
    (within (fun _ => false) trees).map Prod.snd = trees.flatMap fun place => place.2.all := by
  rw [within_eq_flatMap, List.map_flatMap]
  rfl

/-- The subtrees are the tree and those of its children. -/
theorem all_eq (tree : Rose α) : tree.all = tree :: tree.children.flatMap all := by
  rw [all, map_within_false, placed, List.flatMap_map]

/-- What the walk sees and what is below what it cuts off is everything. -/
theorem within_append_outermost_perm (cut : Rose α → Bool) (stack : List (Rose α × Rose α)) :
    ((within cut stack).map Prod.snd ++ (outermost cut stack).flatMap all).Perm
      (stack.flatMap fun place => place.2.all) := by
  induction stack using within.induct cut with
  | case1 =>
      rw [within, outermost]
      exact .refl _
  | case2 place stack gone ih =>
      rw [within, if_pos gone, outermost, if_pos gone, List.flatMap_cons, List.flatMap_cons,
        ← List.append_assoc]
      refine (List.perm_append_comm.append_right _).trans ?_
      rw [List.append_assoc]
      exact ih.append_left _
  | case3 place stack kept ih =>
      rw [within, if_neg kept, outermost, if_neg kept, List.map_cons, List.cons_append,
        List.flatMap_cons, all_eq, List.cons_append]
      rw [List.flatMap_append, placed, List.flatMap_map] at ih
      exact ih.cons _

/-- What is seen below a tree is a subtree of it. -/
theorem mem_all_of_mem_within {cut : Rose α → Bool} {tree : Rose α} {place : Rose α × Rose α}
    (seen : place ∈ within cut tree.placed) : place.2 ∈ tree.all := by
  have everything := within_append_outermost_perm cut tree.placed
  rw [placed, List.flatMap_map] at everything
  rw [all_eq]
  refine List.mem_cons_of_mem _ (everything.mem_iff.mp (List.mem_append_left _ ?_))
  exact List.mem_map_of_mem seen

/-- What is below a child is below the tree. -/
theorem mem_all_of_mem_children {tree child node : Rose α} (member : child ∈ tree.children)
    (below : node ∈ child.all) : node ∈ tree.all := by
  rw [all_eq]
  exact List.mem_cons_of_mem _ (List.mem_flatMap.mpr ⟨child, member, below⟩)

/-- The subtrees of a child are among those of the tree, in order. -/
theorem all_sublist_of_mem {tree child : Rose α} (member : child ∈ tree.children) :
    child.all.Sublist tree.all := by
  obtain ⟨before, after, split⟩ := List.append_of_mem member
  rw [all_eq tree, split, List.flatMap_append, List.flatMap_cons]
  refine .cons _ ?_
  exact (List.sublist_append_left _ _).trans (List.sublist_append_right _ _)

/-- A subtree of a subtree is a subtree. -/
theorem mem_all_trans {tree inner node : Rose α} (inside : inner ∈ tree.all)
    (below : node ∈ inner.all) : node ∈ tree.all := by
  induction size : tree.size using Nat.strongRecOn generalizing tree
  next bound ih =>
  subst size
  rw [all_eq] at inside
  rcases List.mem_cons.mp inside with rfl | under
  · exact below
  · obtain ⟨child, member, inside⟩ := List.mem_flatMap.mp under
    exact mem_all_of_mem_children member (ih _ (size_lt_of_mem member) inside rfl)

theorem mem_all_self (tree : Rose α) : tree ∈ tree.all := List.mem_cons_self

end All

end Rose

end GraphIngest.Foundation
