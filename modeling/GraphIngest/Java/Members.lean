import GraphIngest.Java.TypeWalk
import Mathlib.Data.List.Flatten

/-! # The members of the declared types

The walk looks at what stands directly in the body of a type: methods, constructors and
fields. The members of an enum stand one level further down, behind the constants; the
fields of an interface are constants of a kind of their own; and a record may have a
compact constructor. The walk misses these, with everything in types nested there, and
finds every other member once.
-/

namespace GraphIngest.Java

open Foundation Text Graph

section Declaring

/-- The declarations in a body, those behind the constants of an enum among them. -/
def opened (trees : List Tree) : List Tree :=
  trees.flatMap fun tree => if tree.kind = .enumBodyDeclarations then tree.children else [tree]

/-- What is walked of a body is a tree of it or stands in a group of it. -/
theorem mem_opened {trees : List Tree} {tree : Tree} (member : tree ∈ opened trees) :
    tree ∈ trees ∨ ∃ group ∈ trees, tree ∈ group.children := by
  obtain ⟨group, listed, placed⟩ := List.mem_flatMap.mp member
  split at placed
  · exact .inr ⟨group, listed, placed⟩
  · exact .inl (List.mem_singleton.mp placed ▸ listed)

/-- Where the walk looks, or where members are declared. -/
def bodyOf (wide : Bool) (tree : Tree) : List Tree :=
  if wide then opened (members tree) else members tree

/-- What stands in a body is smaller than its type. -/
theorem sizeOf_lt_of_mem_bodyOf {wide : Bool} {tree child : Tree}
    (member : child ∈ bodyOf wide tree) : sizeOf child < sizeOf tree := by
  unfold bodyOf at member
  split at member
  · rcases mem_opened member with direct | ⟨group, listed, placed⟩
    · exact sizeOf_lt_of_mem_members direct
    · have outer := sizeOf_lt_of_mem_members listed
      have inner := Tree.sizeOf_lt_of_mem_children placed
      omega
  · exact sizeOf_lt_of_mem_members member

/-- What a node in a body declares. -/
inductive Role
  | callable | fields | type | plain
deriving DecidableEq

/-- The kinds the walk tells apart, or all that declare something. -/
def roleOf (wide : Bool) : Kind → Role
  | .methodDeclaration | .constructorDeclaration => .callable
  | .compactConstructorDeclaration => if wide then .callable else .plain
  | .fieldDeclaration => .fields
  | .constantDeclaration => if wide then .fields else .plain
  | .classDeclaration | .interfaceDeclaration | .enumDeclaration | .recordDeclaration => .type
  | _ => .plain

/-- A declared member: its label and id, and the id of the type around it. -/
structure Declared where
  label : NodeLabel
  id : NodeId
  classId : NodeId
deriving DecidableEq

variable (file : SourceFile) (wide : Bool)

/-- The members declared in a type and in the types nested in it; the walk's own view of them,
when it is not wide. -/
def declaredBy (tree : Tree) (parentFqn : Str) : List Declared :=
  match typeDecl? tree.kind, tree.childByField .name with
  | some kind, some nameNode =>
      let fqn := typeFqn parentFqn nameNode.text
      let id := file.makeId file.repo fqn (kindWord kind)
      (bodyOf wide tree).attach.flatMap fun member =>
        match roleOf wide member.1.kind with
        | .callable => [⟨.function, methodId file member.1 fqn, id⟩]
        | .fields => (declaratorNames member.1).map fun name => ⟨.field, fieldId file fqn name, id⟩
        | .type => declaredBy member.1 fqn
        | .plain => []
  | _, _ => []
termination_by sizeOf tree
decreasing_by exact sizeOf_lt_of_mem_bodyOf member.2

/-- The members declared by one node in a body. -/
def declaredMember (fqn : Str) (id : NodeId) (member : Tree) : List Declared :=
  match roleOf wide member.kind with
  | .callable => [⟨.function, methodId file member fqn, id⟩]
  | .fields => (declaratorNames member).map fun name => ⟨.field, fieldId file fqn name, id⟩
  | .type => declaredBy file wide member fqn
  | .plain => []

/-- The members declared in a file. -/
def declaredIn (root : Tree) : List Declared :=
  (root.children.filter fun child => (typeDecl? child.kind).isSome).flatMap fun child =>
    declaredBy file wide child (packageOf root)

/-- What the walk emits for one node in a body. -/
def walkMember (fqn : Str) (id : NodeId) (member : Tree) : List Emission :=
  match member.kind with
  | .methodDeclaration | .constructorDeclaration => walkMethod file member fqn id
  | .fieldDeclaration => walkField file member fqn id
  | _ => if (typeDecl? member.kind).isSome then walkType file member fqn id else []

variable {file wide}

/-- A declaration of a type, with its kind and its name. -/
structure TypeNamed (tree : Tree) (kind : NodeKind) (name : Str) : Prop where
  typed : typeDecl? tree.kind = some kind
  named : ∃ nameNode, tree.childByField .name = some nameNode ∧ nameNode.text = name

/-- A type declares what the members of its body declare. -/
theorem declaredBy_eq {tree : Tree} {kind : NodeKind} {name parentFqn : Str}
    (type : TypeNamed tree kind name) :
    declaredBy file wide tree parentFqn =
      (bodyOf wide tree).flatMap (declaredMember file wide (typeFqn parentFqn name)
        (file.makeId file.repo (typeFqn parentFqn name) (kindWord kind))) := by
  obtain ⟨typed, nameNode, named, rfl⟩ := type
  rw [declaredBy, typed, named]
  exact (List.flatMap_subtype fun member _ => rfl).trans (by rw [List.unattach_attach])

/-- The walk of a type is its header and then the walk of its members. -/
theorem walkType_eq {tree : Tree} {kind : NodeKind} {name parentFqn : Str} {container : NodeId}
    (type : TypeNamed tree kind name) :
    walkType file tree parentFqn container =
      typeHeader file tree kind name (typeFqn parentFqn name) container ++
        (members tree).flatMap (walkMember file (typeFqn parentFqn name)
          (file.makeId file.repo (typeFqn parentFqn name) (kindWord kind))) := by
  obtain ⟨typed, nameNode, named, rfl⟩ := type
  rw [walkType, typed, named]
  refine congrArg (typeHeader file tree kind nameNode.text
    (typeFqn parentFqn nameNode.text) container ++ ·) ?_
  exact (List.flatMap_subtype fun member _ => rfl).trans (by rw [List.unattach_attach])

/-- A declaration without a name declares nothing, and the walk passes it by. -/
theorem typeNamed_or (tree : Tree) :
    (∃ kind name, TypeNamed tree kind name) ∨
      (∀ kind name, ¬ TypeNamed tree kind name) ∧
        (∀ file wide parentFqn, declaredBy file wide tree parentFqn = []) ∧
          ∀ file parentFqn container, walkType file tree parentFqn container = [] := by
  cases typed : typeDecl? tree.kind with
  | none =>
      refine .inr ⟨fun kind name type => ?_, fun file wide parentFqn => ?_,
        fun file parentFqn container => ?_⟩
      · rw [type.typed] at typed
        cases typed
      · rw [declaredBy, typed]
      · rw [walkType, typed]
  | some kind =>
      cases named : tree.childByField .name with
      | none =>
          refine .inr ⟨fun kind name type => ?_, fun file wide parentFqn => ?_,
            fun file parentFqn container => ?_⟩
          · obtain ⟨_, found, _⟩ := type.named
            rw [found] at named
            cases named
          · rw [declaredBy, typed, named]
          · rw [walkType, typed, named]
      | some nameNode => exact .inl ⟨kind, nameNode.text, typed, nameNode, named, rfl⟩

/-- The walk sees each kind as the language does, but for compact constructors and constants. -/
theorem roleOf_false (kind : Kind) :
    roleOf false kind = roleOf true kind ∨
      roleOf false kind = .plain ∧
        (kind = .compactConstructorDeclaration ∨ kind = .constantDeclaration) := by
  cases kind <;> simp [roleOf]

/-- What the walk emits for a node in a body, by its role. -/
theorem walkMember_eq (file : SourceFile) (fqn : Str) (id : NodeId) (member : Tree) :
    walkMember file fqn id member =
      match roleOf false member.kind with
      | .callable => walkMethod file member fqn id
      | .fields => walkField file member fqn id
      | .type => walkType file member fqn id
      | .plain => [] := by
  unfold walkMember
  cases member.kind <;> rfl

end Declaring

section Found

variable {file : SourceFile}

/-- The labels and ids of the member nodes among the emissions. -/
def memberKeys (emitted : List Emission) : List (NodeLabel × NodeId) :=
  ((nodesOf emitted).filter fun node => node.label = .function || node.label = .field).map
    fun node => (node.label, node.id)

def Declared.key (member : Declared) : NodeLabel × NodeId := (member.label, member.id)

theorem memberKeys_append (front back : List Emission) :
    memberKeys (front ++ back) = memberKeys front ++ memberKeys back := by
  simp only [memberKeys, nodesOf, List.filterMap_append, List.filter_append, List.map_append]

theorem memberKeys_flatMap {α : Type} (emit : α → List Emission) (list : List α) :
    memberKeys (list.flatMap emit) = list.flatMap fun value => memberKeys (emit value) := by
  induction list with
  | nil => rfl
  | cons value rest ih => rw [List.flatMap_cons, memberKeys_append, ih, List.flatMap_cons]

theorem memberKeys_refs (refs : List RawRef) : memberKeys (refs.map .ref) = [] := by
  induction refs with
  | nil => rfl
  | cons ref rest ih => exact ih

/-- The header of a type emits no member. -/
theorem memberKeys_typeHeader (tree : Tree) (kind : NodeKind) (name fqn : Str)
    (container : NodeId) : memberKeys (typeHeader file tree kind name fqn container) = [] := by
  unfold typeHeader
  rw [memberKeys_append, memberKeys_refs, List.append_nil]
  exact memberKeys_refs _

/-- A method emits one function. -/
theorem memberKeys_walkMethod (tree : Tree) (fqn : Str) (id : NodeId) :
    memberKeys (walkMethod file tree fqn id) = [(.function, methodId file tree fqn)] := by
  have none := memberKeys_refs ((modifiersOf tree).annotations.map fun annotation =>
    typeRef file .annotatedWith (methodId file tree fqn) annotation KindHint.annotation tree)
  rw [List.map_map] at none
  exact congrArg ((NodeLabel.function, methodId file tree fqn) :: ·) none

/-- A field declaration emits one field for each name. -/
theorem memberKeys_walkField (tree : Tree) (fqn : Str) (id : NodeId) :
    memberKeys (walkField file tree fqn id) =
      (declaratorNames tree).map fun name => (.field, fieldId file fqn name) := by
  rw [walkField, memberKeys_flatMap]
  exact List.flatMap_pure_eq_map _ _

/-- The walk finds what it can see of the declared members, each once. -/
theorem memberKeys_walkType (tree : Tree) (parentFqn : Str) (container : NodeId) :
    memberKeys (walkType file tree parentFqn container) =
      (declaredBy file false tree parentFqn).map Declared.key := by
  rcases typeNamed_or tree with ⟨kind, name, type⟩ | ⟨_, undeclared, unwalked⟩
  · rw [walkType_eq type, declaredBy_eq type, memberKeys_append, memberKeys_typeHeader,
      memberKeys_flatMap, List.map_flatMap]
    refine List.flatMap_congr fun member placed => ?_
    rw [walkMember_eq, declaredMember]
    cases roleOf false member.kind with
    | callable => exact memberKeys_walkMethod member _ _
    | fields => rw [memberKeys_walkField, List.map_map]; rfl
    | type => exact memberKeys_walkType member _ _
    | plain => rfl
  · rw [undeclared, unwalked]
    rfl
termination_by sizeOf tree
decreasing_by exact sizeOf_lt_of_mem_members placed

/-- The members that a file emits are those that the walk sees, in order. -/
theorem memberKeys_extract (root : Tree) :
    memberKeys (extract file root) = (declaredIn file false root).map Declared.key := by
  rw [declaredIn, List.map_flatMap]
  refine (memberKeys_flatMap _ _).trans (List.flatMap_congr fun child _ => ?_)
  exact memberKeys_walkType child _ _

/-- The member stands in the Class node of the type around it. -/
structure Contained (emitted : List Emission) (member : Declared) : Prop where
  edge : ∃ edge ∈ edgesOf emitted, edge.type = .contains ∧ edge.src = member.classId ∧
    edge.dst = member.id
  node : ∃ node ∈ nodesOf emitted, node.label = .cls ∧ node.id = member.classId

/-- A member stays contained when more is emitted. -/
theorem Contained.mono {emitted more : List Emission} {member : Declared}
    (contained : Contained emitted member) (subset : emitted ⊆ more) : Contained more member where
  edge := by
    obtain ⟨edge, placed, rest⟩ := contained.edge
    exact ⟨edge, (List.filterMap_subset _ subset) placed, rest⟩
  node := by
    obtain ⟨node, placed, rest⟩ := contained.node
    exact ⟨node, (List.filterMap_subset _ subset) placed, rest⟩

/-- A method hangs on its type. -/
theorem exists_edge_walkMethod (tree : Tree) (fqn : Str) (id : NodeId) :
    ∃ edge ∈ edgesOf (walkMethod file tree fqn id), edge.type = .contains ∧ edge.src = id ∧
      edge.dst = methodId file tree fqn :=
  ⟨_, List.mem_filterMap.mpr ⟨_, List.mem_cons_of_mem _ List.mem_cons_self, rfl⟩, rfl, rfl, rfl⟩

/-- Each name of a field declaration hangs on its type. -/
theorem exists_edge_walkField {tree : Tree} {fqn name : Str} {id : NodeId}
    (listed : name ∈ declaratorNames tree) :
    ∃ edge ∈ edgesOf (walkField file tree fqn id), edge.type = .contains ∧ edge.src = id ∧
      edge.dst = fieldId file fqn name :=
  ⟨_, List.mem_filterMap.mpr ⟨_, List.mem_flatMap.mpr
    ⟨name, listed, List.mem_cons_of_mem _ List.mem_cons_self⟩, rfl⟩, rfl, rfl, rfl⟩

/-- Whatever the walk can see stands in its type. -/
theorem contained_walkType (tree : Tree) (parentFqn : Str) (container : NodeId)
    (member : Declared) (declared : member ∈ declaredBy file false tree parentFqn) :
    Contained (walkType file tree parentFqn container) member := by
  rcases typeNamed_or tree with ⟨kind, name, type⟩ | ⟨_, undeclared, _⟩
  · rw [walkType_eq type]
    rw [declaredBy_eq type] at declared
    obtain ⟨child, placed, own⟩ := List.mem_flatMap.mp declared
    have inside : walkMember file (typeFqn parentFqn name)
        (file.makeId file.repo (typeFqn parentFqn name) (kindWord kind)) child ⊆
        typeHeader file tree kind name (typeFqn parentFqn name) container ++
          (members tree).flatMap (walkMember file (typeFqn parentFqn name)
            (file.makeId file.repo (typeFqn parentFqn name) (kindWord kind))) :=
      fun _ emitted => List.mem_append_right _ (List.mem_flatMap.mpr ⟨child, placed, emitted⟩)
    rw [walkMember_eq] at inside
    rw [declaredMember] at own
    -- The node of the type is the first thing in its header.
    have around : ∃ node ∈ nodesOf (typeHeader file tree kind name (typeFqn parentFqn name)
          container ++ (members tree).flatMap (walkMember file (typeFqn parentFqn name)
            (file.makeId file.repo (typeFqn parentFqn name) (kindWord kind)))),
        node.label = .cls ∧
          node.id = file.makeId file.repo (typeFqn parentFqn name) (kindWord kind) :=
      ⟨_, List.mem_filterMap.mpr ⟨_, List.mem_cons_self, rfl⟩, rfl, rfl⟩
    cases role : roleOf false child.kind with
    | callable =>
        rw [role] at inside own
        obtain rfl := List.mem_singleton.mp own
        obtain ⟨edge, emitted, rest⟩ := exists_edge_walkMethod child _ _
        exact ⟨⟨edge, (List.filterMap_subset _ inside) emitted, rest⟩, around⟩
    | fields =>
        rw [role] at inside own
        obtain ⟨field, listed, rfl⟩ := List.mem_map.mp own
        obtain ⟨edge, emitted, rest⟩ := exists_edge_walkField listed
        exact ⟨⟨edge, (List.filterMap_subset _ inside) emitted, rest⟩, around⟩
    | type =>
        rw [role] at inside own
        exact (contained_walkType child _ _ member own).mono inside
    | plain =>
        rw [role] at own
        exact absurd own List.not_mem_nil
  · rw [undeclared] at declared
    exact absurd declared List.not_mem_nil
termination_by sizeOf tree
decreasing_by exact sizeOf_lt_of_mem_members placed

/-- Every member that the walk sees hangs on its type. -/
theorem contained_extract {root : Tree} {member : Declared}
    (declared : member ∈ declaredIn file false root) : Contained (extract file root) member := by
  obtain ⟨child, placed, own⟩ := List.mem_flatMap.mp declared
  refine (contained_walkType child _ (fileId file) member own).mono fun _ emitted => ?_
  exact List.mem_cons_of_mem _ (List.mem_flatMap.mpr ⟨child, placed, emitted⟩)

end Found

section Hiding

/-- Whether a node in a body declares a member, itself or through the types nested in it. -/
inductive Bears : Tree → Prop
  | callable {tree : Tree} (role : roleOf true tree.kind = .callable) : Bears tree
  | fields {tree : Tree} (role : roleOf true tree.kind = .fields)
      (named : declaratorNames tree ≠ []) : Bears tree
  | type {tree member : Tree} {kind : NodeKind} {name : Str} (type : TypeNamed tree kind name)
      (placed : member ∈ bodyOf true tree) (bears : Bears member) : Bears tree

/-- What the walk misses directly in a body. -/
inductive Missed : Tree → Prop
  | compact {tree : Tree} (compact : tree.kind = .compactConstructorDeclaration) : Missed tree
  | constant {tree : Tree} (constant : tree.kind = .constantDeclaration)
      (named : declaratorNames tree ≠ []) : Missed tree
  | behind {group tree : Tree} (grouped : group.kind = .enumBodyDeclarations)
      (inside : tree ∈ group.children) (bears : Bears tree) : Missed group

/-- Whether the walk misses something in a type, at any depth of nesting. -/
inductive Hides : Tree → Prop
  | direct {tree member : Tree} {kind : NodeKind} {name : Str} (type : TypeNamed tree kind name)
      (placed : member ∈ members tree) (missed : Missed member) : Hides tree
  | nested {tree member : Tree} {kind : NodeKind} {name : Str} (type : TypeNamed tree kind name)
      (placed : member ∈ members tree) (hides : Hides member) : Hides tree

variable {file : SourceFile}

theorem TypeNamed.roleOf {tree : Tree} {kind : NodeKind} {name : Str}
    (type : TypeNamed tree kind name) (wide : Bool) : roleOf wide tree.kind = .type := by
  have typed := type.typed
  revert typed
  cases tree.kind <;> intro typed <;> first | rfl | cases typed

theorem Hides.roleOf {tree : Tree} (hides : Hides tree) (wide : Bool) :
    roleOf wide tree.kind = .type := by
  cases hides with
  | direct type _ _ => exact type.roleOf wide
  | nested type _ _ => exact type.roleOf wide

/-- A type that declares a member has a name and has what declares it in its body. -/
theorem Bears.exists_placed {tree : Tree} (bears : Bears tree)
    (role : roleOf true tree.kind = .type) :
    (∃ kind name, TypeNamed tree kind name) ∧ ∃ member ∈ bodyOf true tree, Bears member := by
  cases bears with
  | callable other => cases role.symm.trans other
  | fields other _ => cases role.symm.trans other
  | type type placed bears => exact ⟨⟨_, _, type⟩, _, placed, bears⟩

/-- A node declares no member if and only if it bears none. -/
theorem declaredMember_eq_nil_iff (tree : Tree) (fqn : Str) (id : NodeId) :
    declaredMember file true fqn id tree = [] ↔ ¬ Bears tree := by
  rw [declaredMember]
  cases role : Java.roleOf true tree.kind with
  | callable => exact iff_of_false (List.cons_ne_nil _ _) (not_not_intro (.callable role))
  | fields =>
      refine List.map_eq_nil_iff.trans ⟨fun none bears => ?_, fun none => ?_⟩
      · cases bears with
        | callable other => cases role.symm.trans other
        | fields _ named => exact named none
        | type type _ _ => cases role.symm.trans (type.roleOf true)
      · exact by_contra fun named => none (.fields role named)
  | type =>
      rcases typeNamed_or tree with ⟨kind, name, type⟩ | ⟨unnamed, undeclared, _⟩
      · refine (Eq.congr_left (declaredBy_eq type)).trans (List.flatMap_eq_nil_iff.trans ?_)
        constructor
        · intro none bears
          obtain ⟨_, member, placed, inner⟩ := bears.exists_placed role
          exact (declaredMember_eq_nil_iff member _ _).mp (none member placed) inner
        · intro none member placed
          exact (declaredMember_eq_nil_iff member _ _).mpr fun bears =>
            none (.type type placed bears)
      · refine iff_of_true (undeclared file true fqn) fun bears => ?_
        obtain ⟨⟨kind, name, type⟩, _⟩ := bears.exists_placed role
        exact unnamed kind name type
  | plain =>
      refine iff_of_true rfl fun bears => ?_
      cases bears with
      | callable other => cases role.symm.trans other
      | fields other _ => cases role.symm.trans other
      | type type _ _ => cases role.symm.trans (type.roleOf true)
termination_by sizeOf tree
decreasing_by all_goals exact sizeOf_lt_of_mem_bodyOf placed

/-- The members declared at one place of a body. -/
def placedMember (file : SourceFile) (fqn : Str) (id : NodeId) (member : Tree) : List Declared :=
  if member.kind = .enumBodyDeclarations then
    member.children.flatMap (declaredMember file true fqn id)
  else declaredMember file true fqn id member

/-- With all members seen, a type declares its placed members. -/
theorem declaredBy_eq_placed {tree : Tree} {kind : NodeKind} {name parentFqn : Str}
    (type : TypeNamed tree kind name) :
    declaredBy file true tree parentFqn =
      (members tree).flatMap (placedMember file (typeFqn parentFqn name)
        (file.makeId file.repo (typeFqn parentFqn name) (kindWord kind))) := by
  rw [declaredBy_eq type, bodyOf, if_pos rfl, opened, List.flatMap_assoc]
  refine List.flatMap_congr fun member _ => ?_
  unfold placedMember
  split
  · rfl
  · exact List.flatMap_singleton _ _

/-- Lists put together from sublists are equal only if the parts are. -/
theorem flatMap_eq_flatMap_iff {α β : Type} {list : List α} {narrow wide : α → List β}
    (inside : ∀ value ∈ list, List.Sublist (narrow value) (wide value)) :
    list.flatMap narrow = list.flatMap wide ↔ ∀ value ∈ list, narrow value = wide value := by
  refine ⟨fun same => ?_, List.flatMap_congr⟩
  induction list with
  | nil => exact nofun
  | cons head rest ih =>
      rw [List.forall_mem_cons] at inside ⊢
      have front := inside.1.length_le
      have back := (List.Sublist.flatMap_right rest inside.2).length_le
      have lengths := congrArg List.length same
      simp only [List.flatMap_cons, List.length_append] at lengths
      have equal := List.append_inj same (by omega)
      exact ⟨equal.1, ih inside.2 equal.2⟩

/-- At one place of a body the walk sees a part of what is declared, all of it unless it misses
something there or further down. -/
theorem compare_member {fqn : Str} (id : NodeId) {member : Tree}
    (inner : List.Sublist (declaredBy file false member fqn) (declaredBy file true member fqn) ∧
      (declaredBy file false member fqn = declaredBy file true member fqn ↔ ¬ Hides member)) :
    List.Sublist (declaredMember file false fqn id member) (placedMember file fqn id member) ∧
      (declaredMember file false fqn id member = placedMember file fqn id member ↔
        ¬ Missed member ∧ ¬ Hides member) := by
  by_cases grouped : member.kind = .enumBodyDeclarations
  · have unseen : declaredMember file false fqn id member = [] := by
      rw [declaredMember, grouped]
      rfl
    rw [unseen, placedMember, if_pos grouped]
    refine ⟨List.nil_sublist _, eq_comm.trans (List.flatMap_eq_nil_iff.trans ?_)⟩
    constructor
    · intro none
      refine ⟨fun missed => ?_, fun hides => ?_⟩
      · cases missed with
        | compact other => cases grouped.symm.trans other
        | constant other _ => cases grouped.symm.trans other
        | behind _ inside bears =>
            exact (declaredMember_eq_nil_iff _ _ _).mp (none _ inside) bears
      · have role := hides.roleOf true
        rw [grouped] at role
        cases role
    · intro unmissed child inside
      exact (declaredMember_eq_nil_iff _ _ _).mpr fun bears =>
        unmissed.1 (.behind grouped inside bears)
  · rw [placedMember, if_neg grouped]
    rcases roleOf_false member.kind with same | ⟨plain, compact | constant⟩
    · have unmissed : ¬ Missed member := by
        intro missed
        cases missed with
        | compact compact =>
            rw [compact] at same
            cases same
        | constant constant _ =>
            rw [constant] at same
            cases same
        | behind other _ _ => exact grouped other
      rw [and_iff_right unmissed, declaredMember, declaredMember, same]
      cases role : Java.roleOf true member.kind with
      | type => exact inner
      | _ =>
          refine ⟨.refl _, iff_of_true rfl fun hides => ?_⟩
          cases role.symm.trans (hides.roleOf true)
    · rw [declaredMember, plain, declaredMember, compact]
      exact ⟨List.nil_sublist _, iff_of_false nofun fun none => none.1 (.compact compact)⟩
    · rw [declaredMember, plain, declaredMember, constant]
      refine ⟨List.nil_sublist _, eq_comm.trans (List.map_eq_nil_iff.trans ?_)⟩
      refine ⟨fun none => ⟨fun missed => ?_, fun hides => ?_⟩, fun none => ?_⟩
      · cases missed with
        | compact other => cases constant.symm.trans other
        | constant _ named => exact named none
        | behind other _ _ => exact grouped other
      · cases plain.symm.trans (hides.roleOf false)
      · exact by_contra fun named => none.1 (.constant constant named)

/-- The walk sees a part of what a type declares, all of it unless the type hides something. -/
theorem compare_declaredBy (tree : Tree) (fqn : Str) :
    List.Sublist (declaredBy file false tree fqn) (declaredBy file true tree fqn) ∧
      (declaredBy file false tree fqn = declaredBy file true tree fqn ↔ ¬ Hides tree) := by
  rcases typeNamed_or tree with ⟨kind, name, type⟩ | ⟨unnamed, undeclared, _⟩
  · have parts := fun member (placed : member ∈ members tree) =>
      compare_member (file.makeId file.repo (typeFqn fqn name) (kindWord kind))
        (compare_declaredBy member (typeFqn fqn name))
    have inside := fun member placed => (parts member placed).1
    rw [declaredBy_eq_placed type, declaredBy_eq type]
    refine ⟨List.Sublist.flatMap_right _ inside, (flatMap_eq_flatMap_iff inside).trans ?_⟩
    constructor
    · intro same hides
      cases hides with
      | direct _ placed missed => exact ((parts _ placed).2.mp (same _ placed)).1 missed
      | nested _ placed hides => exact ((parts _ placed).2.mp (same _ placed)).2 hides
    · intro open_ member placed
      exact (parts member placed).2.mpr
        ⟨fun missed => open_ (.direct type placed missed),
          fun hides => open_ (.nested type placed hides)⟩
  · rw [undeclared, undeclared]
    refine ⟨.refl _, iff_of_true rfl fun hides => ?_⟩
    cases hides with
    | direct type _ _ => exact unnamed _ _ type
    | nested type _ _ => exact unnamed _ _ type
termination_by sizeOf tree
decreasing_by exact sizeOf_lt_of_mem_members placed

end Hiding

section Exactness

variable {file : SourceFile}

/-- Every declared member has exactly one node, in the node of the type around it. -/
structure MembersExact (file : SourceFile) (root : Tree) : Prop where
  once : List.Perm (memberKeys (extract file root)) ((declaredIn file true root).map Declared.key)
  contained : ∀ member ∈ declaredIn file true root, Contained (extract file root) member

/-- **Members.** Every declared member has exactly one node if and only if no type of the file
hides any. -/
theorem membersExact_iff (file : SourceFile) (root : Tree) :
    MembersExact file root ↔ ∀ type ∈ root.children, ¬ Hides type := by
  have inside := fun (child : Tree) (_ : child ∈ root.children.filter fun child =>
    (typeDecl? child.kind).isSome) => (@compare_declaredBy file child (packageOf root)).1
  have exact_ : declaredIn file false root = declaredIn file true root ↔
      ∀ type ∈ root.children, ¬ Hides type := by
    refine (flatMap_eq_flatMap_iff inside).trans ?_
    simp only [(compare_declaredBy _ _).2, List.mem_filter, and_imp]
    refine forall₂_congr fun type _ => ⟨fun open_ hides => ?_, fun open_ _ => open_⟩
    refine open_ ?_ hides
    cases hides with
    | direct type _ _ => rw [type.typed]; rfl
    | nested type _ _ => rw [type.typed]; rfl
  rw [← exact_]
  constructor
  · intro all
    have lengths := all.once.length_eq
    rw [memberKeys_extract, List.length_map, List.length_map] at lengths
    exact (List.Sublist.flatMap_right _ inside).eq_of_length lengths
  · intro same
    refine ⟨?_, fun member declared => contained_extract (same ▸ declared)⟩
    rw [memberKeys_extract, same]

end Exactness

section Example

/-- `enum E { A; int n; }`. -/
def enumRoot : Tree :=
  sampleTree none (.other "program".toList) [] [
    sampleTree none .enumDeclaration [] [
      sampleTree (some .name) .identifier ['E'] [],
      sampleTree (some .body) (.other "enum_body".toList) [] [
        sampleTree none (.other "enum_constant".toList) ['A'] [],
        sampleTree none .enumBodyDeclarations [] [
          sampleTree none .fieldDeclaration [] [
            sampleTree none .variableDeclarator ['n'] [
              sampleTree (some .name) .identifier ['n'] []]]]]]]

/-- The field of an enum has no node. -/
theorem enumRoot_misses : ¬ MembersExact sampleFile enumRoot := by
  intro all
  have lengths := all.once.length_eq
  revert lengths
  decide +kernel

end Example

end GraphIngest.Java
