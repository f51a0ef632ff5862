import GraphIngest.Foundation.Cutting
import GraphIngest.Java.TypeWalk

/-! # The supertypes of a declaration

A declaration lists its supertypes in clauses: a superclass, interfaces, and for an
interface a list behind its own `extends`, which stands in no field. The extractor names
every type it meets at any depth of the two fields. What it should name is the head of
each listed type, the last name of a qualified type without its arguments.
-/

namespace GraphIngest.Java

open Foundation Text Graph

section Grammar

/-- A letter of an identifier. -/
def isIdentifierLetter (letter : Char) : Bool :=
  letter != '<' && letter != '[' && letter != '.' && !inRanges spaceRanges letter

structure Identifier where
  word : Str
  named : word ≠ []
  plain : ∀ letter ∈ word, isIdentifierLetter letter

/-- A class type with the name at its head: qualified types end in their last name, types with
arguments begin with the type that takes them, and annotations stand in front. -/
inductive ClassType : Tree → Identifier → Prop
  | named {tree : Tree} {name : Identifier} (kind : tree.kind = .typeIdentifier)
      (text : tree.text = name.word) : ClassType tree name
  | qualified {tree last : Tree} {name : Identifier} (kind : tree.kind = .scopedTypeIdentifier)
      (child : tree.children.getLast? = some last) (plain : last.kind = .typeIdentifier)
      (inner : ClassType last name) : ClassType tree name
  | generic {tree base : Tree} {name : Identifier} (kind : tree.kind = .genericType)
      (child : tree.children.head? = some base) (inner : ClassType base name) : ClassType tree name
  | annotated {tree type : Tree} {name : Identifier} (kind : tree.kind = .annotatedType)
      (child : tree.children.getLast? = some type) (inner : ClassType type name) :
      ClassType tree name

/-- Whether a node is of a kind of class types. -/
def Tree.isClassType (tree : Tree) : Bool := tree.isType || tree.kind = .annotatedType

/-- The types that a clause lists, in its list or by themselves. -/
def listedTypes (clause : Tree) : List Tree :=
  (clause.children.flatMap fun child =>
    if child.kind = .typeList then child.children else [child]).filter Tree.isClassType

/-- The types behind the `extends` of an interface. -/
def parentTypes (tree : Tree) : List Tree :=
  (tree.children.filter fun child => child.kind = .extendsInterfaces).flatMap listedTypes

/-- The types that a declaration extends. -/
def extendedTypes (tree : Tree) : List Tree :=
  ((tree.childByField .superclass).map listedTypes).getD [] ++ parentTypes tree

/-- The types that a declaration implements. -/
def implementedTypes (tree : Tree) : List Tree :=
  ((tree.childByField .interfaces).map listedTypes).getD []

/-- The clauses of a declaration, with the heads of the types in them: an interface has no
superclass, and nothing else a list of its own. -/
structure Supertypes (tree : Tree) where
  extended : List Identifier
  implemented : List Identifier
  extends_heads : List.Forall₂ ClassType (extendedTypes tree) extended
  implements_heads : List.Forall₂ ClassType (implementedTypes tree) implemented
  apart : tree.childByField .superclass = none ∨ parentTypes tree = []

end Grammar

section Naming

variable (file : SourceFile) {tree : Tree} (supertypes : Supertypes tree) (id : NodeId)

/-- The references name exactly the heads of the clauses. -/
structure SupertypesExact : Prop where
  extended : ∀ name, (∃ ref ∈ supertypeRefs file tree id, ref.type = .extends ∧
    ref.targetName = name) ↔ ∃ head ∈ supertypes.extended, head.word = name
  implemented : ∀ name, (∃ ref ∈ supertypeRefs file tree id, ref.type = .implements ∧
    ref.targetName = name) ↔ ∃ head ∈ supertypes.implemented, head.word = name

/-- Every type at any depth of a clause, with a text that reduces to a name at all, has that of
a head. -/
def OnlyHeads (clause : Option Tree) (heads : List Identifier) : Prop :=
  ∀ tree ∈ clause, ∀ node ∈ tree.all, node.isType = true → simpleTypeName node.text ≠ [] →
    ∃ head ∈ heads, head.word = simpleTypeName node.text

variable {file supertypes id}

/-- An identifier is its own simple name. -/
theorem Identifier.simpleTypeName_word (name : Identifier) :
    simpleTypeName name.word = name.word := by
  have foreign : ∀ letter : Char, isIdentifierLetter letter = false → letter ∉ name.word := by
    intro letter other member
    rw [name.plain letter member] at other
    cases other
  have tight : strip name.word = name.word := by
    refine stripWhile_of_forall fun letter member => ?_
    have plain := name.plain letter member
    rw [isIdentifierLetter, Bool.and_eq_true, Bool.not_eq_true'] at plain
    exact plain.2
  rw [simpleTypeName, beforeFirst, takeWhile_of_not_mem (foreign '<' (by decide)),
    replaceAll_of_not_mem (foreign '[' (by decide)), tight]
  exact afterLast_of_not_mem (foreign '.' (by decide))

/-- The head of a type is the name of a type in it. -/
theorem ClassType.exists_named {type : Tree} {name : Identifier} (typed : ClassType type name) :
    ∃ node ∈ type.all, node.isType = true ∧ simpleTypeName node.text = name.word := by
  induction typed with
  | @named tree name kind text =>
      refine ⟨tree, List.mem_cons_self, ?_, ?_⟩
      · rw [Tree.isType, kind]
        rfl
      · rw [text, name.simpleTypeName_word]
  | qualified _ child _ _ ih =>
      obtain ⟨node, below, found⟩ := ih
      exact ⟨node, Tree.mem_all_of_mem_children (List.mem_of_getLast? child) below, found⟩
  | generic _ child _ ih =>
      obtain ⟨node, below, found⟩ := ih
      exact ⟨node, Tree.mem_all_of_mem_children (List.mem_of_head? child) below, found⟩
  | annotated _ child _ ih =>
      obtain ⟨node, below, found⟩ := ih
      exact ⟨node, Tree.mem_all_of_mem_children (List.mem_of_getLast? child) below, found⟩

/-- A listed type is below its clause. -/
theorem mem_all_of_mem_listedTypes {clause type node : Tree} (listed : type ∈ listedTypes clause)
    (below : node ∈ type.all) : node ∈ clause.all := by
  obtain ⟨child, member, placed⟩ := List.mem_flatMap.mp (List.mem_of_mem_filter listed)
  apply Tree.mem_all_of_mem_children member
  split at placed
  · exact Tree.mem_all_of_mem_children placed below
  · rw [List.mem_singleton.mp placed] at below
    exact below

theorem exists_type_of_head {types : List Tree} {heads : List Identifier}
    (typed : List.Forall₂ ClassType types heads) {head : Identifier} (listed : head ∈ heads) :
    ∃ type ∈ types, ClassType type head := by
  induction typed with
  | nil => cases listed
  | cons written _ ih =>
      rcases List.mem_cons.mp listed with rfl | later
      · exact ⟨_, List.mem_cons_self, written⟩
      · obtain ⟨type, placed, found⟩ := ih later
        exact ⟨type, List.mem_cons_of_mem _ placed, found⟩

/-- The references of a clause name its heads if and only if all its types reduce to them. -/
theorem names_clause_iff {clause : Option Tree} {heads : List Identifier}
    (typed : List.Forall₂ ClassType ((clause.map listedTypes).getD []) heads) :
    (∀ name, name ∈ (clause.map typesIn).getD [] ↔ ∃ head ∈ heads, head.word = name) ↔
      OnlyHeads clause heads := by
  cases clause with
  | none =>
      cases typed
      refine iff_of_true (fun name => ?_) nofun
      simp only [Option.map_none, Option.getD_none, List.not_mem_nil, false_and, exists_false]
  | some tree =>
      simp only [Option.map_some, Option.getD_some] at typed ⊢
      constructor
      · intro exact_ other same node below isType filled
        obtain rfl := Option.mem_some_iff.mp same
        exact (exact_ _).mp (mem_typesIn.mpr ⟨node, below, isType, rfl, filled⟩)
      · intro only name
        constructor
        · intro found
          obtain ⟨node, below, isType, rfl, filled⟩ := mem_typesIn.mp found
          exact only tree rfl node below isType filled
        · intro found
          obtain ⟨head, listed, rfl⟩ := found
          obtain ⟨type, placed, written⟩ := exists_type_of_head typed listed
          obtain ⟨node, below, isType, named⟩ := written.exists_named
          exact mem_typesIn.mpr
            ⟨node, mem_all_of_mem_listedTypes placed below, isType, named, head.named⟩

theorem exists_mem_clauseRefs {type wanted : EdgeType} {clause : Option Tree} {name : Str} :
    (∃ ref ∈ clauseRefs file type id clause, ref.type = wanted ∧ ref.targetName = name) ↔
      type = wanted ∧ name ∈ (clause.map typesIn).getD [] := by
  cases clause with
  | none => simp only [clauseRefs, Option.map_none, Option.getD_none, List.not_mem_nil, false_and,
      exists_false, and_false]
  | some tree =>
      simp only [clauseRefs, Option.map_some, Option.getD_some, List.mem_map,
        exists_exists_and_eq_and, typeRef]
      constructor
      · rintro ⟨found, listed, typed, rfl⟩
        exact ⟨typed, listed⟩
      · rintro ⟨typed, listed⟩
        exact ⟨name, listed, typed, rfl⟩

theorem extends_supertypeRefs {name : Str} :
    (∃ ref ∈ supertypeRefs file tree id, ref.type = .extends ∧ ref.targetName = name) ↔
      name ∈ ((tree.childByField .superclass).map typesIn).getD [] := by
  simp only [supertypeRefs, List.mem_append, or_and_right, exists_or, exists_mem_clauseRefs,
    true_and, reduceCtorEq, false_and, or_false]

theorem implements_supertypeRefs {name : Str} :
    (∃ ref ∈ supertypeRefs file tree id, ref.type = .implements ∧ ref.targetName = name) ↔
      name ∈ ((tree.childByField .interfaces).map typesIn).getD [] := by
  simp only [supertypeRefs, List.mem_append, or_and_right, exists_or, exists_mem_clauseRefs,
    true_and, reduceCtorEq, false_and, false_or]

end Naming

section Example

/-- The name of one letter. -/
def letterIdentifier (letter : Char) (plain : isIdentifierLetter letter = true) : Identifier where
  word := [letter]
  named := letter_ne_nil letter
  plain := List.forall_mem_singleton.mpr plain

/-- `B<C>`. -/
def genericType : Tree :=
  sampleTree none .genericType "B<C>".toList
    [sampleTree none .typeIdentifier ['B'] [],
      sampleTree none (.other "type_arguments".toList) "<C>".toList
        [sampleTree none .typeIdentifier ['C'] []]]

/-- `class A extends B<C> {}`. -/
def genericChild : Tree :=
  sampleTree none .classDeclaration "class A extends B<C> \x7b\x7d".toList
    [sampleTree (some .name) .identifier ['A'] [],
      sampleTree (some .superclass) (.other "superclass".toList) "extends B<C>".toList
        [genericType],
      sampleTree (some .body) (.other "class_body".toList) "\x7b\x7d".toList []]

def genericSupertypes : Supertypes genericChild where
  extended := [letterIdentifier 'B' rfl]
  implemented := []
  extends_heads := .cons (.generic rfl rfl (.named rfl rfl)) .nil
  implements_heads := .nil
  apart := .inr rfl

end Example

end GraphIngest.Java
