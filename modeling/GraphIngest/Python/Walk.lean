import GraphIngest.Python.Extract

/-! # The walk through a Python file

Whatever the walk asks for is asked for at a definition or at a field of a class, and what is true
of the requests made there is true of all of them. Each begins at the definition that is being
walked through, so that the walk is one of the walks with open declarations, and the bundle it
makes is closed.
-/

namespace GraphIngest.Python

open Foundation Text Graph Resolve

section Induction

variable (file : SourceFile) (globals : List Str)

/-- What the walk asks for at the node of a statement. -/
def SourceFile.definitionRequests (node : Tree) (decos : List (Str × Tree)) (parentFqn : Str)
    (container : NodeId) (inClass : Bool) : List Request :=
  match kindOf node with
  | .classDefinition => file.handleClass globals node parentFqn container decos
  | .functionDefinition => file.handleFunction globals node parentFqn container inClass decos
  | .expressionStatement => if inClass then file.maybeField node parentFqn container else []
  | _ => []

/-- A block is walked one statement after the other. -/
theorem SourceFile.walkBlock_eq (block : Tree) (parentFqn : Str) (container : NodeId)
    (inClass : Bool) :
    file.walkBlock globals block parentFqn container inClass =
      block.children.flatMap fun stmt =>
        ((undecorated stmt).map fun node => file.definitionRequests globals node (decosOf stmt)
          parentFqn container inClass).getD [] := by
  rw [walkBlock]
  conv_rhs => rw [← List.attach_map_subtype_val block.children, List.flatMap_map]
  congr 1
  funext stmt
  split
  · next bare =>
      rw [bare]
      rfl
  · next node bare =>
      rw [bare]
      rfl

variable (statement block : Tree → Str → NodeId → Bool → List Request → Prop)

/-- **Induction on the walk.** What holds of a statement that nothing is asked for, of a field, of
a definition when it holds of the body, and of a block when it holds of the statements, holds of
every block. -/
theorem SourceFile.walk_induction
    (other : ∀ stmt fqn container inClass, statement stmt fqn container inClass [])
    (field : ∀ stmt fqn container,
      statement stmt fqn container true (file.maybeField stmt fqn container))
    (decorated : ∀ stmt fqn container inClass requests, ∀ node ∈ stmt.children,
      kindOf stmt = .decoratedDefinition → statement node fqn container inClass requests →
        statement stmt fqn container inClass requests)
    (cls : ∀ node fqn container inClass name decos below, kindOf node = .classDefinition →
      (below = [] ∨ ∃ body ∈ node.children,
        block body (qualified fqn name) (file.classId (qualified fqn name)) true below) →
      statement node fqn container inClass
        (file.classRequests node name (qualified fqn name) container decos ++ below))
    (function : ∀ node fqn container inClass name decos own below,
      kindOf node = .functionDefinition →
      (own = [] ∧ below = [] ∨ ∃ body ∈ node.children,
        own = file.bodyRequests globals body (file.functionId (qualified fqn name) inClass) fqn
          container inClass ∧
        block body (qualified fqn name) (file.functionId (qualified fqn name) inClass) false
          below) →
      statement node fqn container inClass
        (file.functionRequests node name (qualified fqn name) container inClass decos ++
          (own ++ below)))
    (row : ∀ tree fqn container inClass (requests : Tree → List Request),
      (∀ stmt ∈ tree.children, statement stmt fqn container inClass (requests stmt)) →
        block tree fqn container inClass (tree.children.flatMap requests))
    (tree : Tree) (fqn : Str) (container : NodeId) (inClass : Bool) :
    block tree fqn container inClass (file.walkBlock globals tree fqn container inClass) := by
  -- the induction is on the size of the block
  induction size : tree.size using Nat.strong_induction_on generalizing tree fqn container inClass
  next bound ih =>
  subst size
  rw [walkBlock_eq]
  apply row
  intro stmt listed
  -- a definition, decorated or not, is smaller than the block, and its body smaller still
  have bare : ∀ node, undecorated stmt = some node →
      statement node fqn container inClass
        (file.definitionRequests globals node (decosOf stmt) fqn container inClass) := by
    intro node undone
    have smaller : node.size < tree.size :=
      (size_of_undecorated undone).trans_lt (Rose.size_lt_of_mem listed)
    unfold definitionRequests
    split
    · next kind =>
        unfold handleClass
        split
        · exact other _ _ _ _
        · next name named =>
            apply cls _ _ _ _ _ _ _ kind
            split
            · next body found =>
                have member := mem_children_of_childByField found
                exact .inr ⟨body, member,
                  ih _ ((Rose.size_lt_of_mem member).trans smaller) _ _ _ _ rfl⟩
            · exact .inl rfl
    · next kind =>
        unfold handleFunction
        split
        · exact other _ _ _ _
        · next name named =>
            split
            · next body found =>
                have member := mem_children_of_childByField found
                exact function _ _ _ _ _ _ _ _ kind (.inr ⟨body, member, rfl,
                  ih _ ((Rose.size_lt_of_mem member).trans smaller) _ _ _ _ rfl⟩)
            · exact function _ _ _ _ _ _ [] [] kind (.inl ⟨rfl, rfl⟩)
    · split
      · next inside =>
          subst inside
          exact field _ _ _
      · exact other _ _ _ _
    · exact other _ _ _ _
  cases undone : undecorated stmt with
  | none => exact other _ _ _ _
  | some node =>
      have done := bare node undone
      unfold undecorated at undone
      split at undone
      · next kind => exact decorated _ _ _ _ _ _ (mem_children_of_childByField undone) kind done
      · cases undone
        exact done

end Induction

section Own

variable {file : SourceFile}

/-- The types of references that bodies give. -/
def bodyTypes : List EdgeType := [.calls, .reads, .writes]

theorem mem_bodyTypes {type : EdgeType} (stated : type = .reads ∨ type = .writes) :
    type ∈ bodyTypes := by
  rcases stated with rfl | rfl
  all_goals decide

/-- What is asked for inside a definition: references and endpoints begin at it, and the
references of a field at the field. Whether calls, attributes of the object itself and globals may
be among the references is told apart. -/
def Request.Local (called stateful shared : Prop) (id container : NodeId) : Request → Prop
  | .declare _ _ _ => False
  | .expose handler endpoint _ => handler = id ∧ endpoint.label ≠ .field
  | .refer ref =>
      ref.src = id ∧ (ref.type = .calls → called) ∧
        (ref.type = .reads ∨ ref.type = .writes →
          (ref.recv = "self".toList → stateful) ∧ (ref.recv = [] → shared))
  | .field owner node _ refs =>
      owner = container ∧ node.label = .field ∧
        ∀ ref ∈ refs, ref.src = node.id ∧ ref.type ∉ bodyTypes

variable {called stateful shared : Prop} {id container : NodeId}

/-- What is local under the strictest allowances is local under all. -/
theorem Request.Local.allow {request : Request}
    (own : request.Local False False False id container) :
    request.Local True True True id container := by
  cases request with
  | declare => exact own.elim
  | expose handler endpoint spot => exact own
  | refer ref => exact ⟨own.1, fun _ => trivial, fun _ => ⟨fun _ => trivial, fun _ => trivial⟩⟩
  | field owner node spot refs => exact own

/-- What is read off a child that may be missing. -/
theorem mem_getD_map {α β : Type} {found : Option α} {read : α → List β} {item : β} :
    item ∈ (found.map read).getD [] ↔ ∃ child, found = some child ∧ item ∈ read child := by
  cases found with
  | none => exact ⟨nofun, nofun⟩
  | some child =>
      simp only [Option.map_some, Option.getD_some, Option.some.injEq, exists_eq_left']

/-- The references of a type annotation start at the node and are of the primary type or to a
generic argument. -/
theorem mem_emitType {primary : EdgeType} {src : NodeId} {type : Tree} {ref : RawRef}
    (listed : ref ∈ file.emitType primary src type) :
    ref.src = src ∧ (ref.type = primary ∨ ref.type = .hasGeneric) := by
  unfold SourceFile.emitType at listed
  split at listed
  · cases listed
  · next name generics _ =>
      rcases List.mem_cons.mp listed with rfl | later
      · exact ⟨rfl, .inl rfl⟩
      · obtain ⟨generic, _, rfl⟩ := List.mem_map.mp later
        exact ⟨rfl, .inr rfl⟩

/-- A reference that no body gives. -/
theorem local_of_plain {ref : RawRef} {type : EdgeType} (src : ref.src = id)
    (typed : ref.type = type) (plain : type ∉ bodyTypes) :
    (Request.refer ref).Local called stateful shared id container := by
  subst typed
  simp only [bodyTypes, List.mem_cons, List.not_mem_nil, or_false, not_or] at plain
  exact ⟨src, fun same => (plain.1 same).elim,
    fun either => (either.elim plain.2.1 plain.2.2).elim⟩

/-- A reference of a type that no body states is local to its node. -/
theorem local_refer {type : EdgeType} (plain : type ∉ bodyTypes) (target : Str) (hint : KindHint)
    (tree : Tree) :
    (file.refer type id target hint tree).Local called stateful shared id container :=
  local_of_plain rfl rfl plain

theorem local_of_emitType {primary : EdgeType} (plain : primary ∉ bodyTypes) {type : Tree}
    {ref : RawRef} (listed : ref ∈ file.emitType primary id type) :
    (Request.refer ref).Local called stateful shared id container := by
  obtain ⟨src, type | type⟩ := mem_emitType listed
  · exact local_of_plain src type plain
  · exact local_of_plain src type (by decide)

theorem authSpecs_plain {name : Str} {decorator : Tree} {spec : EdgeType × Str}
    (listed : spec ∈ authSpecs name decorator) : spec.1 ∉ bodyTypes := by
  unfold authSpecs at listed
  rcases List.mem_append.mp listed with auth | policy
  · split at auth
    · rw [List.mem_singleton.mp auth]
      decide
    · cases auth
  · split at policy
    · rw [List.mem_singleton.mp policy]
      change EdgeType.enforcesPolicy ∉ bodyTypes
      decide
    · cases policy

theorem local_decoratorRequests (deco : Str × Tree) :
    ∀ request ∈ file.decoratorRequests id deco,
      request.Local called stateful shared id container := by
  unfold SourceFile.decoratorRequests
  refine List.forall_mem_cons.mpr ⟨local_refer (by decide) _ _ _, List.forall_mem_map.mpr ?_⟩
  intro spec listed
  exact local_refer (authSpecs_plain listed) _ _ _

theorem local_handlerRequests (deco : Str × Tree) :
    ∀ request ∈ file.handlerRequests id deco,
      request.Local called stateful shared id container := by
  unfold SourceFile.handlerRequests
  refine List.forall_mem_append.mpr ⟨?_, List.forall_mem_map.mpr ?_⟩
  · split
    · exact List.forall_mem_nil _
    · exact List.forall_mem_singleton.mpr (local_refer (by decide) _ _ _)
  · intro spec _
    exact ⟨rfl, nofun⟩

theorem local_signatureRequests (node : Tree) :
    ∀ request ∈ file.signatureRequests node id,
      request.Local called stateful shared id container := by
  unfold SourceFile.signatureRequests
  refine List.forall_mem_map.mpr (List.forall_mem_append.mpr ⟨?_, ?_⟩)
  · intro ref listed
    obtain ⟨type, _, emitted⟩ := mem_getD_map.mp listed
    exact local_of_emitType (by decide) emitted
  · intro ref listed
    obtain ⟨child, _, taken⟩ := List.mem_flatMap.mp listed
    split at taken
    · obtain ⟨type, _, emitted⟩ := mem_getD_map.mp taken
      exact local_of_emitType (by decide) emitted
    · cases taken

theorem local_emitApiCall (method url : Str) (tree : Tree) :
    (file.emitApiCall id method url tree).Local called stateful shared id container :=
  local_of_plain rfl (rfl : EdgeType.callsApi = .callsApi) (by decide)

/-- The requests of a call are local where calls are allowed. -/
theorem local_callRequests (types : Dict Str Str) (call : Tree) :
    ∀ request ∈ file.callRequests id types call,
      request.Local True stateful shared id container := by
  unfold SourceFile.callRequests
  split
  · exact List.forall_mem_nil _
  · next function _ =>
      simp only [List.forall_mem_append, List.forall_mem_map, Option.mem_toList]
      refine ⟨⟨⟨?_, ?_⟩, ?_⟩, ?_⟩
      · intro ref made
        unfold SourceFile.callReference at made
        split at made
        · cases made
        · cases made
          refine ⟨rfl, fun _ => trivial, ?_⟩
          rintro (type | type)
          all_goals cases type
      · exact fun asked _ => local_emitApiCall _ _ _
      all_goals
        split
        · exact List.forall_mem_nil _
        · exact List.forall_mem_singleton.mpr (local_refer (by decide) _ _ _)

theorem local_emitExceptions (body : Tree) :
    ∀ request ∈ file.emitExceptions body id, request.Local called stateful shared id container := by
  unfold SourceFile.emitExceptions
  intro request listed
  obtain ⟨node, _, emitted⟩ := List.mem_flatMap.mp listed
  split at emitted
  · split at emitted
    · split at emitted
      · cases emitted
      · rw [List.mem_singleton.mp emitted]
        exact local_refer (by decide) _ _ _
    · cases emitted
  · split at emitted
    · obtain ⟨name, _, rfl⟩ := List.mem_map.mp emitted
      exact local_refer (by decide) _ _ _
    · cases emitted
  · cases emitted

/-- The state accesses of a body are local where the body is one of a class. -/
theorem local_emitState (allowed : stateful) (body : Tree) (classFqn : Str) :
    ∀ request ∈ file.emitState body id classFqn container,
      request.Local called stateful shared id container := by
  have field : ∀ (name : Str) (tree : Tree),
      (file.ensureField classFqn container name tree).Local called stateful shared id container :=
    fun name tree => ⟨rfl, rfl, List.forall_mem_nil _⟩
  have self : ∀ type : EdgeType, type ≠ .calls → ∀ target : Tree,
      (file.selfReference type id target).Local called stateful shared id container := by
    intro type other target
    refine ⟨rfl, fun same => (other same).elim, fun _ => ⟨fun _ => allowed, fun bare => ?_⟩⟩
    have filled : ¬ "self".toList = [] := by decide
    exact (filled bare).elim
  unfold SourceFile.emitState
  refine List.forall_mem_append.mpr ⟨List.forall_mem_flatMap.mpr ?_, List.forall_mem_flatMap.mpr ?_⟩
  · intro write _
    refine List.forall_mem_append.mpr ⟨?_, ?_⟩
    · exact List.forall_mem_cons.mpr
        ⟨field _ _, List.forall_mem_singleton.mpr (self .writes nofun _)⟩
    · split
      · exact List.forall_mem_singleton.mpr (self .reads nofun _)
      · exact List.forall_mem_nil _
  · intro node _
    exact List.forall_mem_cons.mpr ⟨field _ _, List.forall_mem_singleton.mpr (self .reads nofun _)⟩

/-- The accesses to the globals are local where globals may be shared. -/
theorem local_emitGlobalState (allowed : shared) (globals : List Str) (body : Tree) :
    ∀ request ∈ file.emitGlobalState globals body id,
      request.Local called stateful shared id container := by
  have plain : ∀ type : EdgeType, type ≠ .calls → ∀ (name : Str) (tree : Tree),
      (file.refer type id name .other tree).Local called stateful shared id container := by
    intro type other name tree
    refine ⟨rfl, fun same => (other same).elim, fun _ => ⟨fun self => ?_, fun _ => allowed⟩⟩
    have filled : ¬ ([] : Str) = "self".toList := by decide
    exact (filled self).elim
  unfold SourceFile.emitGlobalState
  split
  · exact List.forall_mem_nil _
  · refine List.forall_mem_append.mpr
      ⟨List.forall_mem_flatMap.mpr ?_, List.forall_mem_map.mpr ?_⟩
    · intro write _
      refine List.forall_mem_cons.mpr ⟨plain .writes nofun _ _, ?_⟩
      split
      · exact List.forall_mem_singleton.mpr (plain .reads nofun _ _)
      · exact List.forall_mem_nil _
    · exact fun node _ => plain .reads nofun _ _

/-- All requests of a body are local to the function it belongs to. -/
theorem local_bodyRequests (globals : List Str) (body : Tree) (parentFqn : Str) {inClass : Bool}
    (allowed : inClass = true → stateful) :
    ∀ request ∈ file.bodyRequests globals body id parentFqn container inClass,
      request.Local True stateful True id container := by
  unfold SourceFile.bodyRequests
  simp only [List.forall_mem_append]
  refine ⟨⟨⟨?_, local_emitExceptions body⟩, ?_⟩, local_emitGlobalState trivial globals body⟩
  · exact List.forall_mem_flatMap.mpr fun call _ => local_callRequests _ call
  · split
    · next inside => exact local_emitState (allowed inside) body parentFqn
    · exact List.forall_mem_nil _

theorem local_fieldRequest (kind : NodeKind) (scope : Scope) (fqn : Str)
    (stmt assignment left : Tree) :
    (file.fieldRequest kind scope container fqn stmt assignment left).Local called stateful shared
      id container := by
  refine ⟨rfl, rfl, ?_⟩
  intro ref listed
  obtain ⟨type, _, emitted⟩ := mem_getD_map.mp listed
  obtain ⟨src, type | type⟩ := mem_emitType emitted
  · exact ⟨src, type ▸ by decide⟩
  · exact ⟨src, type ▸ by decide⟩

theorem local_maybeField (stmt : Tree) (classFqn : Str) :
    ∀ request ∈ file.maybeField stmt classFqn container,
      request.Local False False False container container :=
  List.forall_mem_map.mpr fun made _ => local_fieldRequest _ _ _ stmt made.1 made.2

/-- A class is declared first; the rest is local to it. -/
theorem local_classRequests (file : SourceFile) (container : NodeId) (node : Tree)
    (name fqn : Str) (decos : List (Str × Tree)) :
    ∃ own, file.classRequests node name fqn container decos =
        .declare container (file.classNode node name fqn decos) node.label.start :: own ∧
      ∀ request ∈ own, request.Local False False False (file.classId fqn) container := by
  refine ⟨_, rfl, List.forall_mem_append.mpr ⟨?_, List.forall_mem_map.mpr ?_⟩⟩
  · exact List.forall_mem_flatMap.mpr fun deco _ => local_decoratorRequests deco
  · exact fun child _ => local_refer (by decide) _ _ _

/-- A function is declared first; the rest is local to it. -/
theorem local_functionRequests (file : SourceFile) (container : NodeId) (node : Tree)
    (name fqn : Str) (inClass : Bool) (decos : List (Str × Tree)) :
    ∃ own, file.functionRequests node name fqn container inClass decos =
        .declare container (file.functionNode node name fqn inClass decos) node.label.start :: own ∧
      ∀ request ∈ own, request.Local False False False (file.functionId fqn inClass) container := by
  refine ⟨_, rfl, List.forall_mem_append.mpr ⟨?_, local_signatureRequests node⟩⟩
  refine List.forall_mem_flatMap.mpr fun deco _ => List.forall_mem_append.mpr ⟨?_, ?_⟩
  · exact local_decoratorRequests deco
  · exact local_handlerRequests deco

theorem local_importRequests (root : Tree) :
    ∀ request ∈ file.importRequests root,
      request.Local False False False file.fileId file.fileId := by
  unfold SourceFile.importRequests
  refine List.forall_mem_flatMap.mpr fun child _ => ?_
  split
  · exact List.forall_mem_map.mpr fun part _ =>
      local_of_plain rfl (rfl : EdgeType.imports = .imports) (by decide)
  · exact List.forall_mem_map.mpr fun part _ =>
      local_of_plain rfl (rfl : EdgeType.imports = .imports) (by decide)
  · exact List.forall_mem_nil _

theorem local_globalRequests (root : Tree) :
    ∀ request ∈ file.globalRequests root,
      request.Local False False False file.fileId file.fileId :=
  List.forall_mem_map.mpr fun made _ => local_fieldRequest _ _ _ made.1 made.2.1 made.2.2

end Own

section Scope

variable (fileId : NodeId)

/-- The file, or a definition that was come to. -/
def Around (scope : List NodeId) (id : NodeId) : Prop := id = fileId ∨ id ∈ scope

/-- The definitions come to, the last one first, after a request. -/
def Request.opened (scope : List NodeId) : Request → List NodeId
  | .declare _ node _ => node.id :: scope
  | _ => scope

/-- A request that begins where the walk is or has been. -/
def Request.Grounded (scope : List NodeId) : Request → Prop
  | .declare container _ _ => Around fileId scope container
  | .expose handler _ _ => scope.head?.getD fileId = handler
  | .refer ref => Around fileId scope ref.src
  | .field container node _ refs =>
      Around fileId scope container ∧ ∀ ref ∈ refs, ref.src = node.id

/-- Requests each of which begins where the walk is or has been by then. -/
def Grounded : List NodeId → List Request → Prop
  | _, [] => True
  | scope, request :: rest => request.Grounded fileId scope ∧ Grounded (request.opened scope) rest

variable {fileId} {scope : List NodeId}

/-- A request that opens a scope leaves the walk around the same node. -/
theorem Around.opened {id : NodeId} (around : Around fileId scope id) (request : Request) :
    Around fileId (request.opened scope) id := by
  cases request with
  | declare container node spot => exact around.imp_right (List.mem_cons_of_mem _)
  | expose handler endpoint spot => exact around
  | refer ref => exact around
  | field container node spot refs => exact around

/-- A run of requests leaves the walk around the same node. -/
theorem Around.foldl {id : NodeId} (around : Around fileId scope id) (requests : List Request) :
    Around fileId (requests.foldl Request.opened scope) id := by
  induction requests generalizing scope with
  | nil => exact around
  | cons request rest ih => exact ih (around.opened request)

/-- Requests are grounded piece by piece, the second piece in the scope that the first leaves. -/
theorem grounded_append {front back : List Request} :
    Grounded fileId scope (front ++ back) ↔
      Grounded fileId scope front ∧ Grounded fileId (front.foldl Request.opened scope) back := by
  induction front generalizing scope with
  | nil =>
      rw [Grounded, true_and]
      rfl
  | cons request rest ih =>
      rw [List.cons_append, Grounded, ih, Grounded, List.foldl_cons, and_assoc]

/-- Requests where the walk is, with nothing new come to. -/
theorem grounded_of_forall {requests : List Request}
    (each : ∀ request ∈ requests, request.Grounded fileId scope ∧ request.opened scope = scope) :
    Grounded fileId scope requests ∧ requests.foldl Request.opened scope = scope := by
  induction requests with
  | nil => exact ⟨trivial, rfl⟩
  | cons request rest ih =>
      obtain ⟨here, later⟩ := List.forall_mem_cons.mp each
      rw [Grounded, List.foldl_cons, here.2]
      exact ⟨⟨here.1, (ih later).1⟩, (ih later).2⟩

/-- Inside the definition that was come to last, or the file. -/
theorem Request.Local.grounded {called stateful shared : Prop} {id container : NodeId}
    {request : Request} (own : request.Local called stateful shared id container)
    (inside : scope.head?.getD fileId = id) (around : Around fileId scope container) :
    request.Grounded fileId scope ∧ request.opened scope = scope := by
  cases request with
  | declare => exact own.elim
  | expose handler endpoint spot =>
      rw [Request.Grounded, own.1]
      exact ⟨inside, rfl⟩
  | refer ref =>
      rw [Request.Grounded, own.1, ← inside]
      refine ⟨?_, rfl⟩
      cases scope with
      | nil => exact .inl rfl
      | cons first outer => exact .inr List.mem_cons_self
  | field owner node spot refs =>
      obtain ⟨rfl, _, refs⟩ := own
      exact ⟨⟨around, fun ref listed => (refs ref listed).1⟩, rfl⟩

/-- A definition, what is asked for inside it, and what is asked for in its body. -/
theorem grounded_declare {container : NodeId} {node : Node} {spot : Spot} {own below : List Request}
    (around : Around fileId scope container)
    (inner : ∀ request ∈ own, request.Local True True True node.id container)
    (body : ∀ scope, Around fileId scope node.id → Grounded fileId scope below) :
    Grounded fileId scope (.declare container node spot :: (own ++ below)) := by
  have opened : Around fileId (node.id :: scope) container :=
    around.imp_right (List.mem_cons_of_mem _)
  have inside : Grounded fileId (node.id :: scope) own ∧ own.foldl Request.opened _ = _ :=
    grounded_of_forall fun request listed => (inner request listed).grounded rfl opened
  refine ⟨around, grounded_append.mpr ⟨inside.1, ?_⟩⟩
  apply body
  rw [Request.opened, inside.2]
  exact .inr List.mem_cons_self

end Scope

section Requests

variable (file : SourceFile)

/-- The walk through a block asks for nothing away from where it is or has been. -/
theorem grounded_walkBlock (fileId : NodeId) (globals : List Str) (tree : Tree) (fqn : Str)
    (container : NodeId) (inClass : Bool) (scope : List NodeId)
    (around : Around fileId scope container) :
    Grounded fileId scope (file.walkBlock globals tree fqn container inClass) := by
  refine file.walk_induction globals
    (fun _ _ container _ requests =>
      ∀ scope, Around fileId scope container → Grounded fileId scope requests)
    (fun _ _ container _ requests =>
      ∀ scope, Around fileId scope container → Grounded fileId scope requests)
    ?other ?field ?decorated ?cls ?function ?row tree fqn container inClass scope around
  case other => exact fun _ _ _ _ _ _ => trivial
  case field =>
    intro stmt fqn container scope around
    refine (grounded_of_forall (List.forall_mem_map.mpr ?_)).1
    intro made _
    refine ⟨⟨around, ?_⟩, rfl⟩
    intro ref listed
    obtain ⟨type, _, emitted⟩ := mem_getD_map.mp listed
    exact (mem_emitType emitted).1
  case decorated => exact fun _ _ _ _ _ _ _ _ done => done
  case cls =>
    intro node fqn container inClass name decos below _ inner scope around
    obtain ⟨own, made, each⟩ := local_classRequests file container node name
      (qualified fqn name) decos
    rw [made, List.cons_append]
    refine grounded_declare around (fun request listed => (each request listed).allow) ?_
    rcases inner with rfl | ⟨body, _, done⟩
    · exact fun _ _ => trivial
    · exact done
  case function =>
    intro node fqn container inClass name decos own below _ inner scope around
    obtain ⟨first, made, each⟩ := local_functionRequests file container node
      name (qualified fqn name) inClass decos
    rw [made, List.cons_append, ← List.append_assoc]
    refine grounded_declare around (List.forall_mem_append.mpr
      ⟨fun request listed => (each request listed).allow, ?_⟩) ?_
    · rcases inner with ⟨rfl, _⟩ | ⟨body, _, rfl, _⟩
      · exact List.forall_mem_nil _
      · exact local_bodyRequests globals body fqn fun _ => trivial
    · rcases inner with ⟨_, rfl⟩ | ⟨body, _, _, done⟩
      · exact fun _ _ => trivial
      · exact done
  case row =>
    intro tree fqn container inClass requests each scope around
    generalize tree.children = stmts at each
    induction stmts generalizing scope with
    | nil => exact trivial
    | cons stmt rest ih =>
        obtain ⟨here, later⟩ := List.forall_mem_cons.mp each
        rw [List.flatMap_cons]
        exact grounded_append.mpr ⟨here scope around, ih _ (around.foldl _) later⟩

/-- What is asked for a file begins at the file or at a definition come to before. -/
theorem grounded_requests (root : Tree) : Grounded file.fileId [] (file.requests root) := by
  have around : Around file.fileId [] file.fileId := .inl rfl
  have own : ∀ request ∈ file.importRequests root ++ file.globalRequests root,
      request.Grounded file.fileId [] ∧ request.opened [] = [] := by
    intro request listed
    rcases List.mem_append.mp listed with imported | made
    · exact Request.Local.grounded (local_importRequests root request imported) rfl around
    · exact Request.Local.grounded (local_globalRequests root request made) rfl around
  have before := grounded_of_forall own
  refine grounded_append.mpr ⟨before.1, ?_⟩
  rw [before.2]
  exact grounded_walkBlock file file.fileId _ root _ _ _ _ (.inl rfl)

/-- Fields are asked for as fields alone, and nothing that bodies give comes with them. -/
def Request.Tidy : Request → Prop
  | .declare _ node _ => node.label ≠ .field
  | .expose _ endpoint _ => endpoint.label ≠ .field
  | .refer _ => True
  | .field _ node _ refs => node.label = .field ∧ ∀ ref ∈ refs, ref.type ∉ bodyTypes

/-- What is local to a node is tidy. -/
theorem Request.Local.tidy {called stateful shared : Prop} {id container : NodeId}
    {request : Request} (own : request.Local called stateful shared id container) :
    request.Tidy := by
  cases request with
  | declare => exact own.elim
  | expose handler endpoint spot => exact own.2
  | refer ref => exact trivial
  | field owner node spot refs => exact ⟨own.2.1, fun ref listed => (own.2.2 ref listed).2⟩

/-- By induction on the tree: every request of a walk is tidy. -/
theorem tidy_walkBlock (globals : List Str) (tree : Tree) (fqn : Str) (container : NodeId)
    (inClass : Bool) :
    ∀ request ∈ file.walkBlock globals tree fqn container inClass, request.Tidy := by
  refine file.walk_induction globals (fun _ _ _ _ requests => ∀ request ∈ requests, request.Tidy)
    (fun _ _ _ _ requests => ∀ request ∈ requests, request.Tidy)
    ?other ?field ?decorated ?cls ?function ?row tree fqn container inClass
  case other => exact fun _ _ _ _ => List.forall_mem_nil _
  case field =>
    exact fun stmt fqn container request listed =>
      Request.Local.tidy (local_maybeField stmt fqn request listed)
  case decorated => exact fun _ _ _ _ _ _ _ _ done => done
  case cls =>
    intro node fqn container inClass name decos below _ inner
    obtain ⟨own, made, each⟩ := local_classRequests file container node name
      (qualified fqn name) decos
    rw [made, List.cons_append]
    refine List.forall_mem_cons.mpr ⟨nofun, List.forall_mem_append.mpr
      ⟨fun request listed => (each request listed).tidy, ?_⟩⟩
    rcases inner with rfl | ⟨body, _, done⟩
    · exact List.forall_mem_nil _
    · exact done
  case function =>
    intro node fqn container inClass name decos own below _ inner
    obtain ⟨first, made, each⟩ := local_functionRequests file container node name
      (qualified fqn name) inClass decos
    rw [made, List.cons_append]
    refine List.forall_mem_cons.mpr ⟨nofun, List.forall_mem_append.mpr
      ⟨fun request listed => (each request listed).tidy, List.forall_mem_append.mpr ?_⟩⟩
    rcases inner with ⟨rfl, rfl⟩ | ⟨body, _, rfl, done⟩
    · exact ⟨List.forall_mem_nil _, List.forall_mem_nil _⟩
    · refine ⟨fun request listed => ?_, done⟩
      exact (local_bodyRequests globals body fqn (fun _ => trivial) request listed).tidy
  case row =>
    exact fun _ _ _ _ _ each => List.forall_mem_flatMap.mpr each

theorem tidy_requests (root : Tree) : ∀ request ∈ file.requests root, request.Tidy := by
  refine List.forall_mem_append.mpr ⟨List.forall_mem_append.mpr ⟨?_, ?_⟩, ?_⟩
  · exact fun request listed => (local_importRequests root request listed).tidy
  · exact fun request listed => (local_globalRequests root request listed).tidy
  · exact tidy_walkBlock file _ root _ _ _

end Requests

section Settle

variable (fileId : NodeId)

/-- How many definitions out a node is; past all of them is the file. -/
def outward (scope : List NodeId) (id : NodeId) : Nat := scope.idxOf id

/-- The steps of the walk that settle a request. -/
def Request.steps (scope created : List NodeId) : Request → List WalkStep
  | .declare container node spot => [.enter (outward scope container) node spot]
  | .expose _ endpoint spot => [.expose endpoint spot]
  | .refer ref => [.refer (outward scope ref.src) ref]
  | .field container node spot refs =>
      if node.id ∈ created then []
      else .enter (outward scope container) node spot :: (refs.map (.refer 0) ++ [.leave])

/-- `created_fields` after a request. -/
def Request.created (created : List NodeId) : Request → List NodeId
  | .field _ node _ _ => if node.id ∈ created then created else node.id :: created
  | _ => created

/-- The steps that settle a list of requests; a definition that was come to stays open. -/
def walkSteps : List NodeId → List NodeId → List Request → List WalkStep
  | _, _, [] => []
  | scope, created, request :: rest =>
      request.steps scope created ++ walkSteps (request.opened scope) (request.created created) rest

/-- The walk through a file. -/
def SourceFile.walk (file : SourceFile) (root : Tree) : FileWalk :=
  .code extractorName file.relpath (file.fileNode root) (walkSteps [] [] (file.requests root))

variable {fileId} {scope : List NodeId}

theorem around_outward {id : NodeId} (bundle : Bundle) (around : Around fileId scope id) :
    Walk.around fileId { bundle := bundle, scope := scope } (outward scope id) = id := by
  unfold Walk.around outward
  by_cases member : id ∈ scope
  · rw [List.getElem?_idxOf member]
    rfl
  · rw [List.idxOf_eq_length member, List.getElem?_eq_none le_rfl]
    exact (around.resolve_right member).symm

/-- The references of a field are settled inside it. -/
theorem foldl_refer (relpath : Str) (bundle : Bundle) (id : NodeId) (refs : List RawRef)
    (src : ∀ ref ∈ refs, ref.src = id) :
    (refs.map (.refer 0)).foldl (Walk.take extractorName relpath fileId)
        { bundle := bundle, scope := id :: scope } =
      { bundle := { bundle with refs := bundle.refs ++ refs }, scope := id :: scope } := by
  induction refs generalizing bundle with
  | nil =>
      rw [List.append_nil]
      rfl
  | cons ref rest ih =>
      obtain ⟨rfl, later⟩ := List.forall_mem_cons.mp src
      rw [List.map_cons, List.foldl_cons]
      refine (ih { bundle with refs := bundle.refs ++ [ref] } later).trans ?_
      simp only [List.append_assoc, List.singleton_append]

/-- A request is settled by its steps. -/
theorem settle_eq_steps (relpath : Str) (emission : Emission) (request : Request)
    (grounded : request.Grounded fileId scope) :
    (request.steps scope emission.createdFields).foldl (Walk.take extractorName relpath fileId)
        { bundle := emission.bundle, scope := scope } =
      { bundle := (emission.settle relpath request).bundle, scope := request.opened scope } ∧
    (emission.settle relpath request).createdFields = request.created emission.createdFields := by
  cases request with
  | declare container node spot =>
      refine ⟨?_, rfl⟩
      rw [Request.steps, List.foldl_cons, List.foldl_nil, Walk.take, around_outward _ grounded]
      rfl
  | expose handler endpoint spot =>
      refine ⟨?_, rfl⟩
      have innermost :
          Walk.around fileId { bundle := emission.bundle, scope := scope } 0 = handler := by
        rw [← grounded, List.head?_eq_getElem?]
        rfl
      rw [Request.steps, List.foldl_cons, List.foldl_nil, Walk.take, innermost]
      rfl
  | refer ref =>
      refine ⟨?_, rfl⟩
      rw [Request.steps, List.foldl_cons, List.foldl_nil, Walk.take, around_outward _ grounded]
      rfl
  | field container node spot refs =>
      rw [Request.steps, Request.created, Emission.settle]
      by_cases made : node.id ∈ emission.createdFields
      · simp only [made, ↓reduceIte, and_true]
        rfl
      · simp only [made, ↓reduceIte, and_true]
        rw [List.foldl_cons, List.foldl_append, Walk.take, around_outward _ grounded.1,
          foldl_refer relpath _ node.id refs grounded.2]
        rfl

end Settle

section Result

variable (file : SourceFile)

/-- The requests for a file are settled by the steps of its walk. -/
theorem foldl_settle {fileId : NodeId} {scope : List NodeId} (relpath : Str)
    (requests : List Request) (grounded : Grounded fileId scope requests) (emission : Emission) :
    ((walkSteps scope emission.createdFields requests).foldl
        (Walk.take extractorName relpath fileId)
        { bundle := emission.bundle, scope := scope }).bundle =
      (requests.foldl (Emission.settle relpath) emission).bundle := by
  induction requests generalizing scope emission with
  | nil => rfl
  | cons request rest ih =>
      obtain ⟨taken, created⟩ := settle_eq_steps relpath emission request grounded.1
      rw [walkSteps, List.foldl_append, taken, ← created, ih grounded.2, List.foldl_cons]

/-- **Python extraction.** What is extracted from a Python file is what one walk with open
declarations makes of it; in particular its edges end at its own nodes and its references begin
there. -/
theorem SourceFile.extract_eq_walk (root : Tree) :
    file.extract root = (file.walk root).extract ∧ (file.extract root).Closed := by
  have same : file.extract root = (file.walk root).extract :=
    (foldl_settle file.relpath (file.requests root) (grounded_requests file root)
      { bundle := { nodes := [file.fileNode root] } }).symm
  exact ⟨same, same ▸ closed_extract _⟩

end Result

end GraphIngest.Python
