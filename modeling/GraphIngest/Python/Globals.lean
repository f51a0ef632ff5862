import GraphIngest.Python.Extract

/-! # The globals that a Python function uses

A function uses a global where its name stands in the scope of the body, unless the name belongs
to an attribute or an argument or the function makes it a name of its own by assigning to it.
Writes are told from reads by where the name stands, and no use is lost between the two.
-/

namespace GraphIngest.Python

open Foundation Text Graph

section Places

variable {body : Tree}

/-- A child in the scope of a body, with the node above it. -/
theorem mem_scopeWalk_child {tree child : Tree} (seen : tree ∈ scopeNodes body)
    (member : child ∈ tree.children) (kept : isDefinition child = false) :
    (tree, child) ∈ scopeWalk body := by
  obtain ⟨place, listed, rfl⟩ := List.mem_map.mp seen
  exact Rose.mem_within_child listed member kept

theorem mem_all_of_mem_scopeNodes {tree : Tree} (seen : tree ∈ scopeNodes body) :
    tree ∈ body.all := by
  obtain ⟨place, listed, rfl⟩ := List.mem_map.mp seen
  exact Rose.mem_all_of_mem_within listed

/-- Nodes of a body with one identity are one node. -/
def Distinct (body : Tree) : Prop := (body.all.map fun node => node.label.id).Nodup

theorem Distinct.eq (distinct : Distinct body) {one two : Tree} (first : one ∈ body.all)
    (second : two ∈ body.all) (same : one.label.id = two.label.id) : one = two :=
  List.inj_on_of_nodup_map distinct first second same

/-- A place where a name stands for a variable. -/
def Uses (body : Tree) (name : Str) (place : Tree × Tree) : Prop :=
  place ∈ scopeWalk body ∧ kindOf place.2 = .identifier ∧ textOf place.2 = name ∧
    isAttrOrKwargName place.1 place.2 = false

end Places

section Targets

variable {body : Tree}

theorem not_isDefinition {tree : Tree} {kind : Kind} (known : kindOf tree = kind)
    (other : kind ≠ .functionDefinition ∧ kind ≠ .classDefinition ∧ kind ≠ .decoratedDefinition) :
    isDefinition tree = false := by
  rw [isDefinition, known]
  simp only [other.1, other.2.1, other.2.2, decide_false, Bool.or_self]

theorem field_of_childByField {tree child : Tree} {field : Field}
    (found : childByField tree field = some child) : child.label.field = some field := by
  simpa using List.find?_some found

/-- A name that stands below a node which is no attribute, argument or declaration. -/
theorem isAttrOrKwargName_of_kind {parent tree : Tree} {kind : Kind} (known : kindOf parent = kind)
    (other : kind ≠ .attribute ∧ kind ≠ .keywordArgument ∧ kind ≠ .globalStatement ∧
      kind ≠ .nonlocalStatement) : isAttrOrKwargName parent tree = false := by
  unfold isAttrOrKwargName
  simp only [known, other.1, other.2.1, other.2.2.1, other.2.2.2, decide_false, Bool.false_and,
    Bool.or_self]

theorem mem_all_child {tree child : Tree} (seen : tree ∈ body.all)
    (member : child ∈ tree.children) : child ∈ body.all :=
  Rose.mem_all_trans seen (Rose.mem_all_of_mem_children member (Rose.mem_all_self child))

/-- What an attribute is taken of is not its name. -/
theorem isAttrOrKwargName_object (distinct : Distinct body) {tree child : Tree}
    (seen : tree ∈ body.all) (kind : kindOf tree = .attribute)
    (found : childByField tree .object = some child) : isAttrOrKwargName tree child = false := by
  have apart : ¬ (childByField tree .attribute).map (fun node => node.label.id) =
      some child.label.id := by
    intro same
    obtain ⟨name, named, same⟩ := Option.map_eq_some_iff.mp same
    have one : name = child := distinct.eq (mem_all_child seen (mem_children_of_childByField named))
      (mem_all_child seen (mem_children_of_childByField found)) same
    have fields := (field_of_childByField named).symm.trans (one ▸ field_of_childByField found)
    cases fields
  unfold isAttrOrKwargName
  simp [kind, apart]

theorem baseIdentNode_cases {tree base : Tree} (found : baseIdentNode tree = some base) :
    (kindOf tree = .identifier ∧ base = tree) ∨ kindOf tree = .subscript ∨
      kindOf tree = .attribute := by
  rw [baseIdentNode] at found
  split at found
  · next kind => exact .inr (.inl kind)
  · next kind => exact .inr (.inr kind)
  · next kind => exact .inl ⟨kind, (Option.some.inj found).symm⟩
  · cases found

/-- The leftmost name of a chain of subscripts and attributes stands for a variable. -/
theorem uses_of_baseIdentNode (distinct : Distinct body) {tree base : Tree}
    (seen : tree ∈ scopeNodes body) (kind : kindOf tree = .subscript ∨ kindOf tree = .attribute)
    (found : baseIdentNode tree = some base) :
    ∃ parent, Uses body (textOf base) (parent, base) := by
  -- the induction follows the chain; its last step comes to the name
  induction size : tree.size using Nat.strong_induction_on generalizing tree
  next bound ih =>
  subst size
  have onwards : ∀ child ∈ tree.children, isAttrOrKwargName tree child = false →
      baseIdentNode child = some base → ∃ parent, Uses body (textOf base) (parent, base) := by
    intro child member bare next
    rcases baseIdentNode_cases next with ⟨identifier, rfl⟩ | deeper
    · have placed := mem_scopeWalk_child seen member (not_isDefinition identifier (by decide))
      exact ⟨tree, placed, identifier, rfl, bare⟩
    · have kept : isDefinition child = false := by
        rcases deeper with kind | kind
        · exact not_isDefinition kind (by decide)
        · exact not_isDefinition kind (by decide)
      exact ih _ (Rose.size_lt_of_mem member)
        (List.mem_map_of_mem (mem_scopeWalk_child seen member kept)) deeper next rfl
  rw [baseIdentNode] at found
  rcases kind with kind | kind
  · simp only [kind] at found
    split at found
    · next value held =>
        exact onwards value (mem_children_of_childByField held)
          (isAttrOrKwargName_of_kind kind (by decide)) found
    · cases found
  · simp only [kind] at found
    split at found
    · next object held =>
        exact onwards object (mem_children_of_childByField held)
          (isAttrOrKwargName_object distinct (mem_all_of_mem_scopeNodes seen) kind held) found
    · cases found

end Targets

section Writes

variable {globals : List Str} {body : Tree}

theorem not_mem_shadowed {name : Str} (declared : name ∈ globalDeclared globals body) :
    name ∉ shadowed globals body := by
  intro local_
  obtain ⟨node, _, made⟩ := List.mem_filterMap.mp local_
  split at made
  · obtain ⟨left, chosen, rfl⟩ := Option.map_eq_some_iff.mp made
    have kept := (Option.filter_eq_some_iff.mp chosen).2
    exact (of_decide_eq_true kept).2.2 declared
  · cases made

/-- A target of an assignment stands in the scope of the body, and stands for itself. -/
theorem mem_scopeWalk_target {node target : Tree} (seen : node ∈ scopeNodes body)
    (assigned : isAssignment node = true) (listed : target ∈ targetsOf node)
    (kept : isDefinition target = false) :
    ∃ parent, (parent, target) ∈ scopeWalk body ∧ isAttrOrKwargName parent target = false := by
  unfold targetsOf at listed
  split at listed
  · next left found =>
      have member := mem_children_of_childByField found
      split at listed
      · next pattern =>
          have apart : isDefinition left = false ∧ isAttrOrKwargName left target = false := by
            simp only [isPattern, Bool.or_eq_true, decide_eq_true_eq] at pattern
            rcases pattern with ((kind | kind) | kind) | kind
            all_goals
              exact ⟨not_isDefinition kind (by decide), isAttrOrKwargName_of_kind kind (by decide)⟩
          have inside : left ∈ scopeNodes body :=
            List.mem_map_of_mem (mem_scopeWalk_child seen member apart.1)
          exact ⟨left, mem_scopeWalk_child inside listed kept, apart.2⟩
      · cases List.mem_singleton.mp listed
        refine ⟨node, mem_scopeWalk_child seen member kept, ?_⟩
        simp only [isAssignment, Bool.or_eq_true, decide_eq_true_eq] at assigned
        rcases assigned with kind | kind
        all_goals exact isAttrOrKwargName_of_kind kind (by decide)
  · cases listed

/-- A target is written through a name: itself, or the leftmost one of a chain. -/
theorem globalWrite_cases {node target : Tree} {write : GlobalWrite}
    (made : globalWrite globals body node target = some write) :
    write.target = target ∧ textOf write.base ∈ globals ∧
      textOf write.base ∉ shadowed globals body ∧
      (kindOf target = .identifier ∧ write.base = target ∨
        (kindOf target = .subscript ∨ kindOf target = .attribute) ∧
          baseIdentNode target = some write.base) := by
  have chained : kindOf target = .subscript ∨ kindOf target = .attribute →
      ((baseIdentNode target).filter fun base =>
        textOf base ∈ globals ∧ textOf base ∉ shadowed globals body).map
          (fun base => GlobalWrite.mk true target base) = some write →
        write.target = target ∧ textOf write.base ∈ globals ∧
          textOf write.base ∉ shadowed globals body ∧
          (kindOf target = .identifier ∧ write.base = target ∨
            (kindOf target = .subscript ∨ kindOf target = .attribute) ∧
              baseIdentNode target = some write.base) := by
    intro kind made
    obtain ⟨base, chosen, rfl⟩ := Option.map_eq_some_iff.mp made
    obtain ⟨found, kept⟩ := Option.filter_eq_some_iff.mp chosen
    obtain ⟨known, own⟩ := of_decide_eq_true kept
    exact ⟨rfl, known, own, .inr ⟨kind, found⟩⟩
  unfold globalWrite at made
  split at made
  · next kind =>
      split at made
      · next both =>
          cases made
          exact ⟨rfl, both.1, not_mem_shadowed both.2, .inl ⟨kind, rfl⟩⟩
      · cases made
  · next kind => exact chained (.inl kind) made
  · next kind => exact chained (.inr kind) made
  · cases made

theorem exists_of_mem_globalWrites {write : GlobalWrite}
    (listed : write ∈ globalWrites globals body) :
    ∃ node ∈ scopeNodes body, isAssignment node = true ∧ ∃ target ∈ targetsOf node,
      globalWrite globals body node target = some write := by
  obtain ⟨node, seen, made⟩ := List.mem_flatMap.mp listed
  split at made
  · next assigned => exact ⟨node, seen, assigned, List.mem_filterMap.mp made⟩
  · cases made

/-- A write is at a use of the name that it goes through. -/
theorem uses_of_mem_globalWrites (distinct : Distinct body) {write : GlobalWrite}
    (listed : write ∈ globalWrites globals body) :
    (∃ parent, Uses body (textOf write.base) (parent, write.base)) ∧ write.target ∈ body.all ∧
      (kindOf write.target = .identifier → write.base = write.target) := by
  obtain ⟨node, seen, assigned, target, among, made⟩ := exists_of_mem_globalWrites listed
  obtain ⟨rfl, _, _, ⟨kind, same⟩ | ⟨kind, found⟩⟩ := globalWrite_cases made
  · obtain ⟨parent, placed, bare⟩ :=
      mem_scopeWalk_target seen assigned among (not_isDefinition kind (by decide))
    rw [same]
    exact ⟨⟨parent, placed, kind, rfl, bare⟩,
      mem_all_of_mem_scopeNodes (List.mem_map_of_mem placed), fun _ => rfl⟩
  · have plain : isDefinition write.target = false := by
      rcases kind with kind | kind
      all_goals exact not_isDefinition kind (by decide)
    obtain ⟨parent, placed, _⟩ := mem_scopeWalk_target seen assigned among plain
    have inScope : write.target ∈ scopeNodes body := List.mem_map_of_mem placed
    refine ⟨uses_of_baseIdentNode distinct inScope kind found,
      mem_all_of_mem_scopeNodes inScope, fun identifier => ?_⟩
    rcases kind with kind | kind
    all_goals cases kind.symm.trans identifier

/-- A write is to a global that the function has not made its own. -/
theorem known_of_mem_globalWrites {write : GlobalWrite}
    (listed : write ∈ globalWrites globals body) :
    textOf write.base ∈ globals ∧ textOf write.base ∉ shadowed globals body := by
  obtain ⟨_, _, _, _, _, made⟩ := exists_of_mem_globalWrites listed
  obtain ⟨_, known, own, _⟩ := globalWrite_cases made
  exact ⟨known, own⟩

/-- A read is a use of a global that the function has not made its own, short of the writes. -/
theorem mem_globalReads_iff {node : Tree} :
    node ∈ globalReads globals body ↔
      (∃ parent, Uses body (textOf node) (parent, node)) ∧
        node.label.id ∉ globalWriteIds globals body ∧ textOf node ∈ globals ∧
        textOf node ∉ shadowed globals body := by
  simp only [globalReads, List.mem_map, List.mem_filter, decide_eq_true_eq]
  constructor
  · rintro ⟨⟨parent, node⟩, ⟨placed, kind, apart, bare, known, own⟩, rfl⟩
    exact ⟨⟨parent, placed, kind, rfl, bare⟩, apart, known, own⟩
  · rintro ⟨⟨parent, placed, kind, _, bare⟩, apart, known, own⟩
    exact ⟨(parent, node), ⟨placed, kind, apart, bare, known, own⟩, rfl⟩

end Writes

section Result

variable (file : SourceFile) {globals : List Str} {body : Tree}

/-- A name that is used is written or read. -/
theorem exists_write_or_read (distinct : Distinct body) {name : Str} (known : name ∈ globals)
    (own : name ∉ shadowed globals body) {place : Tree × Tree} (used : Uses body name place) :
    (∃ write ∈ globalWrites globals body, textOf write.base = name) ∨
      ∃ node ∈ globalReads globals body, textOf node = name := by
  obtain ⟨placed, kind, rfl, bare⟩ := used
  have inBody : place.2 ∈ body.all := Rose.mem_all_of_mem_within placed
  by_cases written : place.2.label.id ∈ globalWriteIds globals body
  · left
    obtain ⟨write, listed, either⟩ := List.mem_flatMap.mp written
    obtain ⟨⟨parent, inScope, _⟩, target, same⟩ := uses_of_mem_globalWrites distinct listed
    refine ⟨write, listed, ?_⟩
    rcases List.mem_cons.mp either with here | there
    · have one := distinct.eq inBody target here
      rw [same (one ▸ kind), one]
    · have base : write.base ∈ body.all := Rose.mem_all_of_mem_within inScope
      rw [distinct.eq inBody base (List.mem_singleton.mp there)]
  · right
    have read := mem_globalReads_iff.mpr ⟨⟨place.1, placed, kind, rfl, bare⟩, written, known, own⟩
    exact ⟨place.2, read, rfl⟩

/-- What is referred to is written or read. -/
theorem name_of_mem_emitGlobalState {fnId : NodeId} {ref : RawRef}
    (listed : .refer ref ∈ file.emitGlobalState globals body fnId) :
    (∃ write ∈ globalWrites globals body, ref.targetName = textOf write.base) ∨
      ∃ node ∈ globalReads globals body, ref.targetName = textOf node := by
  unfold SourceFile.emitGlobalState at listed
  split at listed
  · cases listed
  rcases List.mem_append.mp listed with written | read
  · obtain ⟨write, among, made⟩ := List.mem_flatMap.mp written
    refine .inl ⟨write, among, ?_⟩
    rcases List.mem_cons.mp made with same | again
    · cases same
      rfl
    · split at again
      · cases List.mem_singleton.mp again
        rfl
      · cases again
  · obtain ⟨node, among, made⟩ := List.mem_map.mp read
    cases made
    exact .inr ⟨node, among, rfl⟩

/-- **Globals.** A function is said to read or write a name exactly when the name is a global of
the file, the function does not make it a name of its own, and it stands for a variable somewhere
in the scope of the body. -/
theorem SourceFile.refers_iff_uses (distinct : Distinct body) (fnId : NodeId) (name : Str) :
    (∃ ref, .refer ref ∈ file.emitGlobalState globals body fnId ∧ ref.targetName = name) ↔
      name ∈ globals ∧ name ∉ shadowed globals body ∧ ∃ place, Uses body name place := by
  constructor
  · rintro ⟨ref, listed, rfl⟩
    rcases name_of_mem_emitGlobalState file listed with ⟨write, among, named⟩ | ⟨node, among, named⟩
    · obtain ⟨known, own⟩ := known_of_mem_globalWrites among
      obtain ⟨⟨parent, used⟩, _⟩ := uses_of_mem_globalWrites distinct among
      rw [named]
      exact ⟨known, own, (parent, write.base), used⟩
    · obtain ⟨⟨parent, used⟩, _, known, own⟩ := mem_globalReads_iff.mp among
      rw [named]
      exact ⟨known, own, (parent, node), used⟩
  · rintro ⟨known, own, place, used⟩
    rw [emitGlobalState, if_neg (List.ne_nil_of_mem known)]
    rcases exists_write_or_read distinct known own used with
      ⟨write, listed, rfl⟩ | ⟨node, listed, rfl⟩
    · exact ⟨_, List.mem_append_left _
        (List.mem_flatMap.mpr ⟨write, listed, List.mem_cons_self⟩), rfl⟩
    · exact ⟨_, List.mem_append_right _ (List.mem_map_of_mem listed), rfl⟩

/-- A node of a sample tree. -/
def sampleNode (field : Option Field) (kind : Kind) (id : Nat) (word : String)
    (children : List Tree) : Tree :=
  .node
    { field := field, kind := kind, id := id, text := word.toList
      start := { line := 1, col := id }, lastLine := 1 } children

/-- A body that stores into a container: `CACHE[KEY] = VALUE`. -/
def storing : Tree :=
  sampleNode none .block 0 "CACHE[KEY] = VALUE"
    [sampleNode none .expressionStatement 1 "CACHE[KEY] = VALUE"
      [sampleNode none .assignment 2 "CACHE[KEY] = VALUE"
        [sampleNode (some .left) .subscript 3 "CACHE[KEY]"
          [sampleNode (some .value) .identifier 4 "CACHE" [],
            sampleNode none .identifier 5 "KEY" []],
          sampleNode (some .right) .identifier 6 "VALUE" []]]]

theorem distinct_storing : Distinct storing := by
  unfold Distinct
  decide +kernel

/-- Storing into a container that is a global refers to the global. -/
theorem refers_storing :
    Distinct storing ∧ ∀ (file : SourceFile) (fnId : NodeId),
      ∃ ref, .refer ref ∈ file.emitGlobalState ["CACHE".toList] storing fnId ∧
        ref.targetName = "CACHE".toList := by
  have own : "CACHE".toList ∉ shadowed ["CACHE".toList] storing := by decide +kernel
  have first : (storing, _) ∈ scopeWalk storing := Rose.mem_within_of_mem List.mem_cons_self rfl
  have second : (_, _) ∈ scopeWalk storing := Rose.mem_within_child first List.mem_cons_self rfl
  have third : (_, _) ∈ scopeWalk storing := Rose.mem_within_child second List.mem_cons_self rfl
  have last : (_, _) ∈ scopeWalk storing := Rose.mem_within_child third List.mem_cons_self rfl
  refine ⟨distinct_storing, fun file fnId => ?_⟩
  exact (file.refers_iff_uses distinct_storing fnId "CACHE".toList).mpr
    ⟨List.mem_cons_self, own, _, last, rfl, rfl, by decide +kernel⟩

end Result

end GraphIngest.Python
