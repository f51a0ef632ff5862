import GraphIngest.Graph.Extractor
import GraphIngest.Text

/-! # Syntax trees

The tree a parser hands over: every node has a kind, the text it covers and where that
begins and ends, and may stand in a named field of the node above. The extractor looks
up fields, goes through children, and through all descendants with a stack.
-/

namespace GraphIngest.Java

open Foundation Text Graph

/-- The kinds of nodes the walk looks for; every other kind by its word. -/
inductive Kind
  | classDeclaration | interfaceDeclaration | enumDeclaration | recordDeclaration
  | methodDeclaration | constructorDeclaration | compactConstructorDeclaration
  | fieldDeclaration | constantDeclaration | variableDeclarator | enumBodyDeclarations
  | modifiers | annotation | markerAnnotation | formalParameter | spreadParameter
  | typeIdentifier | scopedTypeIdentifier | genericType | annotatedType
  | extendsInterfaces | typeList
  | packageDeclaration | identifier | scopedIdentifier
  | other (word : Str)
deriving DecidableEq

/-- The fields the walk looks up. -/
inductive Field
  | name | body | superclass | interfaces | type | parameters
deriving DecidableEq

inductive Tree
  | node (field : Option Field) (kind : Kind) (text : Str) (start : Spot) (lastLine : Int)
      (children : List Tree)

namespace Tree

def field : Tree → Option Field
  | .node field _ _ _ _ _ => field

def kind : Tree → Kind
  | .node _ kind _ _ _ _ => kind

def text : Tree → Str
  | .node _ _ text _ _ _ => text

def start : Tree → Spot
  | .node _ _ _ start _ _ => start

def lastLine : Tree → Int
  | .node _ _ _ _ lastLine _ => lastLine

def children : Tree → List Tree
  | .node _ _ _ _ _ children => children

/-- `child_by_field_name`. -/
def childByField (tree : Tree) (field : Field) : Option Tree :=
  tree.children.find? fun child => child.field = some field

theorem sizeOf_lt_of_mem_children {tree child : Tree} (member : child ∈ tree.children) :
    sizeOf child < sizeOf tree := by
  obtain ⟨_, _, _, _, _, children⟩ := tree
  have smaller := List.sizeOf_lt_of_mem member
  simp only [Tree.children] at smaller
  simp only [Tree.node.sizeOf_spec]
  omega

theorem mem_children_of_childByField {tree child : Tree} {field : Field}
    (found : tree.childByField field = some child) : child ∈ tree.children :=
  List.mem_of_find?_eq_some found

theorem sizeOf_children (tree : Tree) : sizeOf tree.children < sizeOf tree := by
  obtain ⟨_, _, _, _, _, children⟩ := tree
  simp only [Tree.children, Tree.node.sizeOf_spec]
  omega

theorem sizeOf_append (front back : List Tree) :
    sizeOf (front ++ back) < sizeOf front + sizeOf back := by
  induction front with
  | nil =>
      simp only [List.nil_append, List.nil.sizeOf_spec]
      omega
  | cons tree rest ih =>
      simp only [List.cons_append, List.cons.sizeOf_spec]
      omega

/-- The loop of `iter_descendants`: the top of the stack is the head of the list. -/
def iterStack : List Tree → List Tree
  | [] => []
  | current :: stack => current :: iterStack (current.children ++ stack)
termination_by stack => sizeOf stack
decreasing_by
  have smaller := sizeOf_children current
  have joined := sizeOf_append current.children stack
  simp only [List.cons.sizeOf_spec]
  omega

/-- `iter_descendants`. -/
def iterDescendants (tree : Tree) : List Tree := iterStack tree.children

theorem iterStack_append (front back : List Tree) :
    iterStack (front ++ back) = iterStack front ++ iterStack back := by
  induction front using iterStack.induct with
  | case1 => rw [iterStack, List.nil_append, List.nil_append]
  | case2 current stack ih =>
      rw [List.cons_append, iterStack, iterStack, ← List.append_assoc, ih, List.cons_append]

/-- A node and what is below it, in the order of the walk. -/
def all (tree : Tree) : List Tree := tree :: tree.iterDescendants

/-- The stack is gone through tree by tree. -/
theorem iterStack_eq_flatMap (trees : List Tree) : iterStack trees = trees.flatMap all := by
  induction trees with
  | nil => rw [iterStack, List.flatMap_nil]
  | cons tree rest ih =>
      rw [← List.singleton_append, iterStack_append, ih, List.flatMap_append, iterStack,
        List.append_nil, List.flatMap_singleton, all, iterDescendants]

theorem all_eq (tree : Tree) : tree.all = tree :: tree.children.flatMap all := by
  rw [all, iterDescendants, iterStack_eq_flatMap]

/-- What is below a child is below its parent. -/
theorem mem_all_of_mem_children {tree child node : Tree} (member : child ∈ tree.children)
    (below : node ∈ child.all) : node ∈ tree.all := by
  rw [all_eq]
  exact List.mem_cons_of_mem _ (List.mem_flatMap.mpr ⟨child, member, below⟩)

end Tree

/-- `simple_type_name`. -/
def simpleTypeName (raw : Str) : Str :=
  simpleName (strip (replaceAll ['[', ']'] [] (beforeFirst '<' raw)))

/-- `_types_in`. -/
def typesIn (tree : Tree) : List Str :=
  (tree :: tree.iterDescendants).foldl (fun names node =>
    if node.kind = .typeIdentifier ∨ node.kind = .scopedTypeIdentifier ∨
        node.kind = .genericType then
      let name := simpleTypeName node.text
      if name ≠ [] ∧ name ∉ names then names ++ [name] else names
    else names) []

/-- Whether a node is a type that `_types_in` names. -/
def Tree.isType (tree : Tree) : Bool :=
  tree.kind = .typeIdentifier || tree.kind = .scopedTypeIdentifier || tree.kind = .genericType

/-- The names are those of the types at and below a node. -/
theorem mem_typesIn {tree : Tree} {name : Str} :
    name ∈ typesIn tree ↔
      ∃ node ∈ tree.all, node.isType = true ∧ simpleTypeName node.text = name ∧ name ≠ [] := by
  have step : ∀ (names : List Str) (node : Tree),
      name ∈ (if node.kind = .typeIdentifier ∨ node.kind = .scopedTypeIdentifier ∨
          node.kind = .genericType then
        let name := simpleTypeName node.text
        if name ≠ [] ∧ name ∉ names then names ++ [name] else names
      else names) ↔
      name ∈ names ∨ node.isType = true ∧ simpleTypeName node.text = name ∧ name ≠ [] := by
    intro names node
    simp only [Tree.isType, Bool.or_eq_true, decide_eq_true_eq, or_assoc]
    split
    · next typed =>
        split
        · next fresh =>
            rw [List.mem_append, List.mem_singleton, and_iff_right typed]
            exact or_congr_right ⟨fun same => ⟨same.symm, same ▸ fresh.1⟩, fun own => own.1.symm⟩
        · next known =>
            refine ⟨.inl, fun either => either.elim id fun own => ?_⟩
            obtain ⟨_, rfl, filled⟩ := own
            exact not_not.mp fun absent => known ⟨filled, absent⟩
    · next untyped =>
        exact ⟨.inl, fun either => either.elim id fun own => (untyped own.1).elim⟩
  rw [typesIn]
  refine (foldl_iff (fun names : List Str => name ∈ names) step _ []).trans ?_
  exact or_iff_right List.not_mem_nil

end GraphIngest.Java
