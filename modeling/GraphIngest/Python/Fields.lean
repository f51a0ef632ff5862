import GraphIngest.Python.Walk

/-! # The fields of a Python file

Fields come from the assignments in the bodies of classes, from the globals of the file, and from
what methods read and write of the object itself. Each is made once, and none that a method is
said to read or write is missing.
-/

namespace GraphIngest.Python

open Foundation Text Graph

section Once

/-- The ids of the fields of a bundle. -/
def fieldIds (bundle : Bundle) : List NodeId :=
  (bundle.nodes.filter fun node => node.label = .field).map Node.id

/-- The fields made so far are those on record, each once. -/
structure Emission.Recorded (emission : Emission) : Prop where
  nodup : (fieldIds emission.bundle).Nodup
  made : ∀ id, id ∈ emission.createdFields ↔ id ∈ fieldIds emission.bundle

/-- Attaching a node adds a field where the node is one. -/
theorem fieldIds_attach (emission : Emission) (relpath : Str) (type : EdgeType) (src : NodeId)
    (node : Node) (spot : Spot) :
    fieldIds (emission.attach relpath type src node spot).bundle =
      fieldIds emission.bundle ++ if node.label = .field then [node.id] else [] := by
  rw [fieldIds, Emission.attach, List.filter_append, List.map_append, List.filter_singleton]
  by_cases field : node.label = .field
  · simp only [field, decide_true, if_true]
    rfl
  · simp only [field, decide_false, if_false]
    rfl

theorem recorded_start (file : SourceFile) (root : Tree) :
    Emission.Recorded { bundle := { nodes := [file.fileNode root] } } :=
  ⟨List.nodup_nil, fun id => ⟨nofun, nofun⟩⟩

/-- Settling a request keeps the record. -/
theorem Emission.Recorded.settle {emission : Emission} (recorded : emission.Recorded)
    (relpath : Str) {request : Request} (tidy : request.Tidy) :
    (emission.settle relpath request).Recorded := by
  have other : ∀ (type : EdgeType) (src : NodeId) (node : Node) (spot : Spot),
      node.label ≠ .field → (emission.attach relpath type src node spot).Recorded := by
    intro type src node spot other
    have same : fieldIds (emission.attach relpath type src node spot).bundle =
        fieldIds emission.bundle := by
      rw [fieldIds_attach, if_neg other, List.append_nil]
    exact ⟨same ▸ recorded.nodup, fun id => same ▸ recorded.made id⟩
  cases request with
  | declare container node spot => exact other _ _ _ _ tidy
  | expose handler endpoint spot => exact other _ _ _ _ tidy
  | refer ref => exact ⟨recorded.nodup, recorded.made⟩
  | field container node spot refs =>
      rw [Emission.settle]
      split
      · exact recorded
      · next fresh =>
          have grown := fieldIds_attach emission relpath .contains container node spot
          rw [if_pos tidy.1] at grown
          refine ⟨?_, ?_⟩
          · change (fieldIds (emission.attach relpath .contains container node spot).bundle).Nodup
            rw [grown]
            have absent : node.id ∉ fieldIds emission.bundle :=
              fun old => fresh ((recorded.made node.id).mpr old)
            exact List.nodup_append_comm.mp (List.nodup_cons.mpr ⟨absent, recorded.nodup⟩)
          · intro id
            change id ∈ node.id :: emission.createdFields ↔
              id ∈ fieldIds (emission.attach relpath .contains container node spot).bundle
            rw [grown, List.mem_append, List.mem_cons, recorded.made, List.mem_singleton]
            exact or_comm

/-- Settling tidy requests keeps every field recorded. -/
theorem recorded_foldl_settle (relpath : Str) {requests : List Request}
    (tidy : ∀ request ∈ requests, request.Tidy) {emission : Emission}
    (recorded : emission.Recorded) : (requests.foldl (Emission.settle relpath) emission).Recorded :=
  foldl_preserves Emission.Recorded requests
    (fun _ request listed kept => kept.settle relpath (tidy request listed)) _ recorded

end Once

section Kept

/-- What a request leaves in the bundle for good: the edge to a declaration, the field. -/
def Kept (relpath : Str) (emission : Emission) : Request → Prop
  | .declare container node spot =>
      extractedEdge extractorName relpath .contains container node.id spot ∈ emission.bundle.edges
  | .field _ node _ _ => node.id ∈ emission.createdFields
  | _ => True

/-- A request that is settled is kept. -/
theorem kept_settle (relpath : Str) (emission : Emission) (request : Request) :
    Kept relpath (emission.settle relpath request) request := by
  cases request with
  | declare container node spot => exact List.mem_append_right _ List.mem_cons_self
  | expose | refer => exact trivial
  | field container node spot refs =>
      rw [Emission.settle]
      split
      · next made => exact made
      · exact List.mem_cons_self

/-- Settling a request keeps the edges. -/
theorem mem_edges_settle (relpath : Str) {emission : Emission} {edge : Edge}
    (listed : edge ∈ emission.bundle.edges) (request : Request) :
    edge ∈ (emission.settle relpath request).bundle.edges := by
  cases request with
  | declare | expose => exact List.mem_append_left _ listed
  | refer => exact listed
  | field container node spot refs =>
      rw [Emission.settle]
      split
      · exact listed
      · exact List.mem_append_left _ listed

theorem mem_edges_foldl_settle (relpath : Str) (requests : List Request) {emission : Emission}
    {edge : Edge} (listed : edge ∈ emission.bundle.edges) :
    edge ∈ (requests.foldl (Emission.settle relpath) emission).bundle.edges :=
  foldl_preserves (fun emission => edge ∈ emission.bundle.edges) requests
    (fun _ request _ held => mem_edges_settle relpath held request) emission listed

/-- Settling a request keeps the fields that were made. -/
theorem mem_createdFields_settle (relpath : Str) {emission : Emission} {id : NodeId}
    (listed : id ∈ emission.createdFields) (request : Request) :
    id ∈ (emission.settle relpath request).createdFields := by
  cases request with
  | declare | expose | refer => exact listed
  | field container node spot refs =>
      rw [Emission.settle]
      split
      · exact listed
      · exact List.mem_cons_of_mem _ listed

/-- What is kept stays when another request is settled. -/
theorem Kept.settle {relpath : Str} {emission : Emission} {request : Request}
    (kept : Kept relpath emission request) (other : Request) :
    Kept relpath (emission.settle relpath other) request := by
  cases request with
  | declare container node spot => exact mem_edges_settle relpath kept other
  | expose | refer => exact trivial
  | field container node spot refs => exact mem_createdFields_settle relpath kept other

/-- Whatever was asked for stays once it is settled. -/
theorem kept_foldl_settle (relpath : Str) {requests : List Request} {request : Request}
    (listed : request ∈ requests) (emission : Emission) :
    Kept relpath (requests.foldl (Emission.settle relpath) emission) request := by
  induction requests generalizing emission with
  | nil => cases listed
  | cons first rest ih =>
      rcases List.mem_cons.mp listed with rfl | later
      · exact foldl_preserves (Kept relpath · request) rest
          (fun _ other _ kept => kept.settle other) _ (kept_settle relpath emission request)
      · exact ih later _

/-- A reference that comes on its own, or with a field. -/
def Request.Brings (ref : RawRef) : Request → Prop
  | .refer own => own = ref
  | .field _ _ _ refs => ref ∈ refs
  | _ => False

/-- A reference was asked for. -/
theorem exists_brings_of_mem_refs (relpath : Str) {requests : List Request} {emission : Emission}
    {ref : RawRef}
    (listed : ref ∈ (requests.foldl (Emission.settle relpath) emission).bundle.refs) :
    ref ∈ emission.bundle.refs ∨ ∃ request ∈ requests, request.Brings ref := by
  refine foldl_origin (fun emission : Emission => ref ∈ emission.bundle.refs) ?_ requests emission
    listed
  intro emission request held
  cases request with
  | declare | expose => exact .inl held
  | refer own =>
      exact (List.mem_append.mp held).imp_right fun same => (List.mem_singleton.mp same).symm
  | field container node spot refs =>
      rw [Emission.settle] at held
      split at held
      · exact .inl held
      · exact List.mem_append.mp held

end Kept

section Backed

variable {file : SourceFile}

/-- A reference to an attribute of the object itself comes after the request for the field. -/
theorem exists_of_mem_emitState {body : Tree} {id : NodeId} {classFqn : Str} {classId : NodeId}
    {ref : RawRef} (listed : .refer ref ∈ file.emitState body id classFqn classId) :
    ∃ target, file.ensureField classFqn classId ref.targetName target ∈
      file.emitState body id classFqn classId ∧ ref.src = id := by
  unfold SourceFile.emitState at listed ⊢
  rcases List.mem_append.mp listed with written | read
  · obtain ⟨write, among, made⟩ := List.mem_flatMap.mp written
    have field : file.ensureField classFqn classId (selfAttrName write.2) write.2 ∈
        (stateWrites body).flatMap fun write =>
          [file.ensureField classFqn classId (selfAttrName write.2) write.2,
            file.selfReference .writes id write.2] ++
          if write.1 then [file.selfReference .reads id write.2] else [] :=
      List.mem_flatMap.mpr ⟨write, among, List.mem_append_left _ List.mem_cons_self⟩
    have known : ref.targetName = selfAttrName write.2 ∧ ref.src = id := by
      rcases List.mem_append.mp made with both | again
      · rcases List.mem_cons.mp both with wrong | same
        · cases wrong
        · cases List.mem_singleton.mp same
          exact ⟨rfl, rfl⟩
      · split at again
        · cases List.mem_singleton.mp again
          exact ⟨rfl, rfl⟩
        · cases again
    exact ⟨write.2, known.1 ▸ List.mem_append_left _ field, known.2⟩
  · obtain ⟨node, among, made⟩ := List.mem_flatMap.mp read
    have field : file.ensureField classFqn classId (selfAttrName node) node ∈
        (stateReads body).flatMap fun node =>
          [file.ensureField classFqn classId (selfAttrName node) node,
            file.selfReference .reads id node] :=
      List.mem_flatMap.mpr ⟨node, among, List.mem_cons_self⟩
    rcases List.mem_cons.mp made with wrong | same
    · cases wrong
    · cases List.mem_singleton.mp same
      exact ⟨node, List.mem_append_right _ field, rfl⟩

/-- What the references to attributes of the object itself among some requests rest on: the class
that the method is declared in, and the field of that class. -/
def Backed (file : SourceFile) (requests : List Request) : Prop :=
  ∀ ref, .refer ref ∈ requests → ref.recv = "self".toList →
    ref.type = .reads ∨ ref.type = .writes →
      ∃ classFqn,
        (∃ node spot, .declare (file.classId classFqn) node spot ∈ requests ∧ node.id = ref.src) ∧
        ∃ container node spot refs, .field container node spot refs ∈ requests ∧
          node.id = file.fieldId (classFqn ++ '.' :: ref.targetName)

theorem backed_nil : Backed file [] := fun _ listed => absurd listed List.not_mem_nil

/-- What is backed by few requests is backed by more. -/
theorem Backed.mono {few many : List Request} (backed : Backed file few)
    (within : ∀ request ∈ few, request ∈ many) {ref : RawRef} (listed : .refer ref ∈ few)
    (self : ref.recv = "self".toList) (type : ref.type = .reads ∨ ref.type = .writes) :
    ∃ classFqn,
      (∃ node spot, .declare (file.classId classFqn) node spot ∈ many ∧ node.id = ref.src) ∧
      ∃ container node spot refs, .field container node spot refs ∈ many ∧
        node.id = file.fieldId (classFqn ++ '.' :: ref.targetName) := by
  obtain ⟨classFqn, ⟨node, spot, declared, src⟩, container, fieldNode, fieldSpot, refs, made, id⟩ :=
    backed ref listed self type
  exact ⟨classFqn, ⟨node, spot, within _ declared, src⟩, container, fieldNode, fieldSpot, refs,
    within _ made, id⟩

/-- Two backed runs of requests are backed together. -/
theorem Backed.append {front back : List Request} (first : Backed file front)
    (second : Backed file back) : Backed file (front ++ back) := by
  intro ref listed
  rcases List.mem_append.mp listed with before | after
  · exact first.mono (fun _ => List.mem_append_left back) before
  · exact second.mono (fun _ => List.mem_append_right front) after

/-- Requests without state accesses are backed. -/
theorem backed_of_local {called shared : Prop} {id container : NodeId} {requests : List Request}
    (own : ∀ request ∈ requests, request.Local called False shared id container) :
    Backed file requests :=
  fun _ listed self type => (((own _ listed).2.2 type).1 self).elim

/-- A definition with nothing of the object itself around it. -/
theorem Backed.declare {requests : List Request} (backed : Backed file requests)
    (container : NodeId) (node : Node) (spot : Spot) :
    Backed file (.declare container node spot :: requests) := by
  intro ref listed
  rcases List.mem_cons.mp listed with wrong | later
  · cases wrong
  · exact backed.mono (fun _ => List.mem_cons_of_mem _) later

/-- A method, with its declaration in the class, backs what its body says of the object itself. -/
theorem backed_method {globals : List Str} {body : Tree} {classFqn : Str} {node : Node}
    {spot : Spot} {own : List Request} (plain : Backed file own) :
    Backed file (.declare (file.classId classFqn) node spot :: (own ++
      file.bodyRequests globals body node.id classFqn (file.classId classFqn) true)) := by
  intro ref listed self type
  have absurdIn : ∀ requests : List Request, (∀ request ∈ requests,
      request.Local True False True node.id (file.classId classFqn)) → .refer ref ∉ requests :=
    fun requests each among => (((each _ among).2.2 type).1 self).elim
  rcases List.mem_cons.mp listed with wrong | later
  · cases wrong
  rcases List.mem_append.mp later with before | inBody
  · exact plain.mono (fun _ among => List.mem_cons_of_mem _ (List.mem_append_left _ among)) before
      self type
  · unfold SourceFile.bodyRequests at inBody
    simp only [List.mem_append, if_true] at inBody
    rcases inBody with ((called | raised) | stated) | shared
    · exact absurdIn _ (List.forall_mem_flatMap.mpr fun call _ => local_callRequests _ call) called
        |>.elim
    · exact absurdIn _ (local_emitExceptions body) raised |>.elim
    · obtain ⟨target, field, src⟩ := exists_of_mem_emitState stated
      have made : file.ensureField classFqn (file.classId classFqn) ref.targetName target ∈
          file.bodyRequests globals body node.id classFqn (file.classId classFqn) true := by
        unfold SourceFile.bodyRequests
        simp only [List.mem_append, if_true]
        exact .inl (.inr field)
      exact ⟨classFqn, ⟨node, spot, List.mem_cons_self, src.symm⟩, _, _, _, _,
        List.mem_cons_of_mem _ (List.mem_append_right _ made), rfl⟩
    · exact absurdIn _ (local_emitGlobalState trivial globals body) shared |>.elim

/-- All that the walk says of the object itself is backed. -/
theorem backed_walkBlock (globals : List Str) (tree : Tree) (fqn : Str) (container : NodeId)
    (inClass : Bool) (around : inClass = true → container = file.classId fqn) :
    Backed file (file.walkBlock globals tree fqn container inClass) := by
  refine file.walk_induction globals
    (fun _ fqn container inClass requests =>
      (inClass = true → container = file.classId fqn) → Backed file requests)
    (fun _ fqn container inClass requests =>
      (inClass = true → container = file.classId fqn) → Backed file requests)
    ?other ?field ?decorated ?cls ?function ?row tree fqn container inClass around
  case other => exact fun _ _ _ _ _ => backed_nil
  case field => exact fun stmt fqn container _ => backed_of_local (local_maybeField stmt fqn)
  case decorated => exact fun _ _ _ _ _ _ _ _ done => done
  case cls =>
    intro node fqn container inClass name decos below _ inner _
    obtain ⟨own, made, each⟩ := local_classRequests file container node name
      (qualified fqn name) decos
    rw [made]
    refine ((backed_of_local each).declare _ _ _).append ?_
    rcases inner with rfl | ⟨body, _, done⟩
    · exact backed_nil
    · exact done fun _ => rfl
  case function =>
    intro node fqn container inClass name decos own below _ inner around
    obtain ⟨first, made, each⟩ := local_functionRequests file container node name
      (qualified fqn name) inClass decos
    rw [made, ← List.append_assoc]
    rcases inner with ⟨rfl, rfl⟩ | ⟨body, _, rfl, done⟩
    · rw [List.append_nil, List.append_nil]
      exact (backed_of_local each).declare _ _ _
    · refine Backed.append ?_ (done nofun)
      cases inClass with
      | true =>
          cases around rfl
          exact backed_method (backed_of_local each)
      | false =>
          exact ((backed_of_local each).declare _ _ _).append
            (backed_of_local (local_bodyRequests globals body fqn nofun))
  case row =>
    intro tree fqn container inClass requests each around
    generalize tree.children = stmts at each
    induction stmts with
    | nil => exact backed_nil
    | cons stmt rest ih =>
        obtain ⟨here, later⟩ := List.forall_mem_cons.mp each
        exact (here around).append (ih later)

/-- Every state access of a file is backed by its class and its field. -/
theorem backed_requests (file : SourceFile) (root : Tree) : Backed file (file.requests root) := by
  refine .append (.append ?_ ?_) (backed_walkBlock _ root _ _ _ nofun)
  · exact backed_of_local (local_importRequests root)
  · exact backed_of_local (local_globalRequests root)

end Backed

section Result

variable (file : SourceFile)

/-- **Fields.** Each field of a Python file is made once; and what a method is said to read or
write of the object itself is a field, made for the class that contains the method. -/
theorem SourceFile.fields_of_extract (root : Tree) :
    (fieldIds (file.extract root)).Nodup ∧
    ∀ ref ∈ (file.extract root).refs, ref.recv = "self".toList →
      ref.type = .reads ∨ ref.type = .writes →
        ∃ classFqn,
          (∃ edge ∈ (file.extract root).edges,
            edge.key = (.contains, file.classId classFqn, ref.src)) ∧
          file.fieldId (classFqn ++ '.' :: ref.targetName) ∈ fieldIds (file.extract root) := by
  have tidy := tidy_requests file root
  have recorded := recorded_foldl_settle file.relpath tidy (recorded_start file root)
  refine ⟨recorded.nodup, ?_⟩
  intro ref listed self type
  rcases exists_brings_of_mem_refs file.relpath listed with none | ⟨request, asked, brings⟩
  · cases none
  cases request with
  | declare | expose => exact brings.elim
  | field container node spot refs =>
      exact ((tidy _ asked).2 ref brings (mem_bodyTypes type)).elim
  | refer own =>
      cases brings
      obtain ⟨classFqn, ⟨node, spot, declared, src⟩, container, field, at_, refs, made, id⟩ :=
        backed_requests file root ref asked self type
      refine ⟨classFqn, ⟨_, kept_foldl_settle file.relpath declared _, ?_⟩, ?_⟩
      · rw [← src]
        rfl
      · rw [← id]
        exact (recorded.made field.id).mp (kept_foldl_settle file.relpath made _)

end Result

end GraphIngest.Python
