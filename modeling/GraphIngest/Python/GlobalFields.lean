import GraphIngest.Python.Fields
import GraphIngest.Python.Globals

/-! # The globals of a Python file

A function refers to globals by their names. Each of the names is that of a global the file has
made a field for, under the file itself: the globals are made before the walk begins, whatever
the order of the file.
-/

namespace GraphIngest.Python

open Foundation Text Graph

section Named

variable {file : SourceFile} {globals : List Str}

/-- Reads and writes of what has no receiver name globals. -/
def NamesGlobals (globals : List Str) (requests : List Request) : Prop :=
  ∀ ref, .refer ref ∈ requests → ref.type = .reads ∨ ref.type = .writes → ref.recv = [] →
    ref.targetName ∈ globals

theorem namesGlobals_nil : NamesGlobals globals [] := fun _ listed => absurd listed List.not_mem_nil

theorem NamesGlobals.append {front back : List Request} (first : NamesGlobals globals front)
    (second : NamesGlobals globals back) : NamesGlobals globals (front ++ back) :=
  fun ref listed => (List.mem_append.mp listed).elim (first ref) (second ref)

theorem NamesGlobals.declare {requests : List Request} (named : NamesGlobals globals requests)
    (container : NodeId) (node : Node) (spot : Spot) :
    NamesGlobals globals (.declare container node spot :: requests) := by
  intro ref listed
  rcases List.mem_cons.mp listed with wrong | later
  · cases wrong
  · exact named ref later

theorem namesGlobals_of_local (called stateful : Prop) (id container : NodeId)
    {requests : List Request}
    (own : ∀ request ∈ requests, request.Local called stateful False id container) :
    NamesGlobals globals requests :=
  fun _ listed type bare => (((own _ listed).2.2 type).2 bare).elim

theorem namesGlobals_emitGlobalState (body : Tree) (fnId : NodeId) :
    NamesGlobals globals (file.emitGlobalState globals body fnId) := by
  intro ref listed _ _
  rcases name_of_mem_emitGlobalState file listed with ⟨write, among, named⟩ | ⟨node, among, named⟩
  · exact named ▸ (known_of_mem_globalWrites among).1
  · exact named ▸ (mem_globalReads_iff.mp among).2.2.1

theorem namesGlobals_bodyRequests (body : Tree) (id : NodeId) (parentFqn : Str)
    (container : NodeId) (inClass : Bool) :
    NamesGlobals globals (file.bodyRequests globals body id parentFqn container inClass) := by
  unfold SourceFile.bodyRequests
  refine .append (.append (.append ?_ ?_) ?_) (namesGlobals_emitGlobalState body id)
  · exact namesGlobals_of_local True True id container
      (List.forall_mem_flatMap.mpr fun call _ => local_callRequests _ call)
  · exact namesGlobals_of_local True True id container (local_emitExceptions body)
  · split
    · exact namesGlobals_of_local True True id container (local_emitState trivial body parentFqn)
    · exact namesGlobals_nil

theorem namesGlobals_walkBlock (tree : Tree) (fqn : Str) (container : NodeId) (inClass : Bool) :
    NamesGlobals globals (file.walkBlock globals tree fqn container inClass) := by
  refine file.walk_induction globals (fun _ _ _ _ requests => NamesGlobals globals requests)
    (fun _ _ _ _ requests => NamesGlobals globals requests)
    ?other ?field ?decorated ?cls ?function ?row tree fqn container inClass
  case other => exact fun _ _ _ _ => namesGlobals_nil
  case field =>
    exact fun stmt fqn container => namesGlobals_of_local _ _ _ _ (local_maybeField stmt fqn)
  case decorated => exact fun _ _ _ _ _ _ _ _ done => done
  case cls =>
    intro node fqn container inClass name decos below _ inner
    obtain ⟨own, made, each⟩ := local_classRequests file container node name
      (qualified fqn name) decos
    rw [made]
    refine ((namesGlobals_of_local _ _ _ _ each).declare _ _ _).append ?_
    rcases inner with rfl | ⟨body, _, done⟩
    · exact namesGlobals_nil
    · exact done
  case function =>
    intro node fqn container inClass name decos own below _ inner
    obtain ⟨first, made, each⟩ := local_functionRequests file container node name
      (qualified fqn name) inClass decos
    rw [made]
    refine ((namesGlobals_of_local _ _ _ _ each).declare _ _ _).append ?_
    rcases inner with ⟨rfl, rfl⟩ | ⟨body, _, rfl, done⟩
    · exact namesGlobals_nil
    · exact (namesGlobals_bodyRequests body _ fqn container inClass).append done
  case row =>
    intro tree fqn container inClass requests each
    generalize tree.children = stmts at each
    induction stmts with
    | nil => exact namesGlobals_nil
    | cons stmt rest ih =>
        obtain ⟨here, later⟩ := List.forall_mem_cons.mp each
        exact here.append (ih later)

theorem namesGlobals_requests (file : SourceFile) (root : Tree) :
    NamesGlobals (file.moduleGlobals root) (file.requests root) := by
  refine .append (.append ?_ ?_) (namesGlobals_walkBlock root _ _ _)
  · exact namesGlobals_of_local _ _ _ _ (local_importRequests root)
  · exact namesGlobals_of_local _ _ _ _ (local_globalRequests root)

end Named

section Result

variable (file : SourceFile)

/-- Fields of the file itself: what has been made so far hangs from the file. -/
def UnderFile (emission : Emission) : Prop :=
  ∀ id ∈ emission.createdFields, ∃ edge ∈ emission.bundle.edges,
    edge.key = (.contains, file.fileId, id)

theorem underFile_settle (relpath : Str) {emission : Emission} (under : UnderFile file emission)
    {request : Request} (own : request.Local False False False file.fileId file.fileId) :
    UnderFile file (emission.settle relpath request) := by
  cases request with
  | declare => exact own.elim
  | expose handler endpoint spot =>
      intro id listed
      obtain ⟨edge, there, key⟩ := under id listed
      exact ⟨edge, List.mem_append_left _ there, key⟩
  | refer ref => exact under
  | field container node spot refs =>
      obtain ⟨rfl, _⟩ := own
      rw [Emission.settle]
      split
      · exact under
      · intro id listed
        rcases List.mem_cons.mp listed with rfl | old
        · exact ⟨_, List.mem_append_right _ List.mem_cons_self, rfl⟩
        · obtain ⟨edge, there, key⟩ := under id old
          exact ⟨edge, List.mem_append_left _ there, key⟩

/-- What has a field of the file's own: a name of `module_globals`. -/
theorem mem_globalRequests {root : Tree} {name : Str} (known : name ∈ file.moduleGlobals root) :
    ∃ node spot refs, .field file.fileId node spot refs ∈ file.globalRequests root ∧
      node.id = file.fieldId (qualified file.moduleFqn name) := by
  obtain ⟨made, kept, rfl⟩ := List.mem_map.mp known
  have listed := (accepted_sublist [] _).mem kept
  exact ⟨_, _, _, List.mem_map_of_mem listed, rfl⟩

/-- Each of the globals of a file has its field, under the file. -/
theorem fieldId_mem_of_moduleGlobals {root : Tree} {name : Str}
    (known : name ∈ file.moduleGlobals root) :
    file.fieldId (qualified file.moduleFqn name) ∈ fieldIds (file.extract root) ∧
      ∃ edge ∈ (file.extract root).edges,
        edge.key = (.contains, file.fileId, file.fieldId (qualified file.moduleFqn name)) := by
  obtain ⟨node, spot, refs, made, id⟩ := mem_globalRequests file known
  have before : .field file.fileId node spot refs ∈
      file.importRequests root ++ file.globalRequests root := List.mem_append_right _ made
  rw [← id]
  constructor
  · have recorded := recorded_foldl_settle file.relpath (tidy_requests file root)
      (recorded_start file root)
    exact (recorded.made node.id).mp
      (kept_foldl_settle file.relpath (List.mem_append_left _ before) _)
  · -- the globals come before everything else that makes fields
    have under := foldl_preserves (UnderFile file)
      (file.importRequests root ++ file.globalRequests root)
      (fun emission request among held => underFile_settle file file.relpath held
        ((List.mem_append.mp among).elim (local_importRequests root request)
          (local_globalRequests root request)))
      { bundle := { nodes := [file.fileNode root] } } (List.forall_mem_nil _)
    obtain ⟨edge, there, key⟩ := under node.id (kept_foldl_settle file.relpath before _)
    refine ⟨edge, ?_, key⟩
    rw [SourceFile.extract, SourceFile.requests, List.foldl_append]
    exact mem_edges_foldl_settle file.relpath _ there

/-- What is read or written without a receiver is a global of the file. -/
theorem mem_moduleGlobals_of_mem_refs {root : Tree} {ref : RawRef}
    (listed : ref ∈ (file.extract root).refs) (type : ref.type = .reads ∨ ref.type = .writes)
    (bare : ref.recv = []) : ref.targetName ∈ file.moduleGlobals root := by
  rcases exists_brings_of_mem_refs file.relpath listed with none | ⟨request, asked, brings⟩
  · cases none
  cases request with
  | declare | expose => exact brings.elim
  | field container node spot refs =>
      exact ((tidy_requests file root _ asked).2 ref brings (mem_bodyTypes type)).elim
  | refer own =>
      cases brings
      exact namesGlobals_requests file root ref asked type bare

/-- **Globals of a file.** The file makes a field for each of its globals, under the file itself;
and what a function is said to read or write without a receiver is one of the globals. -/
theorem SourceFile.globals_of_extract (root : Tree) :
    (∀ name ∈ file.moduleGlobals root,
      file.fieldId (qualified file.moduleFqn name) ∈ fieldIds (file.extract root) ∧
        ∃ edge ∈ (file.extract root).edges,
          edge.key = (.contains, file.fileId, file.fieldId (qualified file.moduleFqn name))) ∧
    ∀ ref ∈ (file.extract root).refs, ref.type = .reads ∨ ref.type = .writes → ref.recv = [] →
      ref.targetName ∈ file.moduleGlobals root :=
  ⟨fun _ known => fieldId_mem_of_moduleGlobals file known,
    fun _ listed type bare => mem_moduleGlobals_of_mem_refs file listed type bare⟩

end Result

end GraphIngest.Python
