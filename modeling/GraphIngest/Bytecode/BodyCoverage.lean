import GraphIngest.Bytecode.OverrideBinding

/-! # Compiled bodies and their callers

Which compiled bodies get a caller node. A body of a class with a Class node, or
of an anonymous class directly inside one, is kept when it needs a synthesized
caller or when its lookup pins one extracted node; a method without a declaration
of its own and a method whose lookup stays ambiguous are dropped on purpose.
-/

namespace GraphIngest.Bytecode

open Foundation Text Graph

section Growth

variable {settings : Settings} {index : NodeIndex}

theorem synthesized_scanInvocation {node : Node} (caller : NodeId) (file : Str) (scan : Scan)
    (inv : Invocation) (present : node ∈ scan.synthesized) :
    node ∈ (scanInvocation settings index caller file scan inv).synthesized := by
  unfold scanInvocation
  split
  · exact present
  · have external : node ∈ (scanExternal settings caller file
        { scan with marks := scan.marks.record settings.catalog caller inv } inv).synthesized := by
      unfold scanExternal
      split
      · exact present
      · dsimp only
        split
        · exact present
        · exact List.mem_append_left _ present
    unfold scanCall
    split <;> exact external

theorem synthesized_scanBody {node : Node} (caller : NodeId) (file : Str) (method : MethodInfo)
    (scan : Scan) (present : node ∈ scan.synthesized) :
    node ∈ (scanBody settings index caller file method scan).synthesized := by
  have walked : node ∈ (method.invocations.foldl (scanInvocation settings index caller file)
      scan).synthesized :=
    foldl_preserves (fun scan : Scan => node ∈ scan.synthesized) _
      (fun scan inv _ => synthesized_scanInvocation caller file scan inv) scan present
  refine foldl_preserves (fun scan : Scan => node ∈ scan.synthesized) method.fieldAccesses ?_ _
    walked
  intro scan access _ held
  unfold scanAccess
  split <;> exact held

theorem synthesized_scanDeclared (info : ClassInfo) (owner : Owner) (method : MethodInfo)
    (caller : NodeId) (scan : Scan) :
    (scanDeclared info owner method caller scan).synthesized = scan.synthesized := by
  unfold scanDeclared
  split <;> rfl

/-- A synthesized node stays. -/
theorem synthesized_scanMethod {node : Node} (info : ClassInfo) (owner : Owner) (scan : Scan)
    (method : MethodInfo) (present : node ∈ scan.synthesized) :
    node ∈ (scanMethod settings index info owner scan method).synthesized := by
  unfold scanMethod
  split
  · exact present
  · exact present
  · exact present
  · apply synthesized_scanBody
    rw [synthesized_scanDeclared]
    exact List.mem_append_left _ present
  · apply synthesized_scanBody
    rw [synthesized_scanDeclared]
    exact present
  · exact present

/-- The node synthesized for a walked body is among the synthesized ones. -/
theorem mem_synthesized {classes : List ClassInfo} {info : ClassInfo} {owner : Owner}
    {method : MethodInfo} {node : Node} (member : info ∈ classes)
    (owned : ownerOf index info = some owner) (declared : method ∈ info.methods)
    (called : callerOf settings index info owner method = .synthesized node) :
    node ∈ (scanClasses settings index classes).synthesized := by
  apply @scanClasses_acquires settings index (fun scan => node ∈ scan.synthesized)
    (fun _ _ _ => id) (fun info owner scan method => synthesized_scanMethod info owner scan method)
    classes info owner method member owned declared
  intro scan
  simp only [scanMethod, called]
  apply synthesized_scanBody
  rw [synthesized_scanDeclared]
  exact List.mem_append_right _ List.mem_cons_self

theorem raised_scanDeclared (info : ClassInfo) (owner : Owner) (method : MethodInfo)
    (caller : NodeId) (scan : Scan) :
    (scanDeclared info owner method caller scan).raised = scan.raised := by
  unfold scanDeclared
  split <;> rfl

/-- Only a failed caller raises. -/
theorem raised_scanMethod (info : ClassInfo) (owner : Owner) (scan : Scan) (method : MethodInfo)
    (raised : scan.raised.isSome) :
    (scanMethod settings index info owner scan method).raised.isSome := by
  have walked : ∀ caller scan, (scanBody settings index caller owner.file method scan).raised =
      scan.raised := fun caller scan =>
    congrArg (fun outer => outer.2.2.2.2.2) (outer_scanBody caller owner.file method scan)
  unfold scanMethod
  split
  · exact raised
  · rw [Option.isSome_or, raised, Bool.true_or]
  · exact raised
  · rw [walked, raised_scanDeclared]
    exact raised
  · rw [walked, raised_scanDeclared]
    exact raised
  · exact raised

/-- A failed caller makes the whole scan fail. -/
theorem raised_of_failed {classes : List ClassInfo} {info : ClassInfo} {owner : Owner}
    {method : MethodInfo} {error : ClassFileError} (member : info ∈ classes)
    (owned : ownerOf index info = some owner) (declared : method ∈ info.methods)
    (called : callerOf settings index info owner method = .failed error) :
    (scanClasses settings index classes).raised.isSome := by
  apply @scanClasses_acquires settings index (fun scan => scan.raised.isSome = true)
    (fun _ _ _ => id) (fun info owner scan method => raised_scanMethod info owner scan method)
    classes info owner method member owned declared
  intro scan
  simp only [scanMethod, called, Option.isSome_or, Option.isSome_some, Bool.or_true]

end Growth

section Coverage

variable (settings : Settings) (nodes : List Node) (classes : List ClassInfo)

/-- A compiled body has a caller node, extracted or synthesized, and every call
in it that picks a node is an edge from that caller. -/
def KeepsBody (outcome : Outcome) (info : ClassInfo) (method : MethodInfo) : Prop :=
  ∃ body ∈ bodies settings (NodeIndex.build nodes) classes, body.info = info ∧
    body.method = method ∧ (∃ node ∈ nodes ++ outcome.synthesized, node.id = body.caller) ∧
      ∀ inv ∈ method.invocations, inv.opcode ≠ .invokedynamic → ∀ node,
        Picks nodes inv.owner inv.name inv.descriptor node →
          Kept.HasEdge outcome (.calls, body.caller, node.id)

/-- A body that someone wrote: no bridge and no accessor, with line numbers. -/
def Written (method : MethodInfo) : Prop :=
  shouldSkipMethod method = false ∧ method.hasLineNumbers

/-- Every written body of a class whose outermost class is of the repository is
kept. -/
def NoBodyLost : Prop :=
  ∀ outcome, Kept settings nodes classes outcome → ∀ info ∈ classes,
    ((NodeIndex.build nodes).classId (beforeFirst '$' info.name)).isSome →
      ∀ method ∈ info.methods, Written method →
        KeepsBody settings nodes classes outcome info method

/-- The Class node a class is charged to by design: its own, or for an anonymous
class that of the class directly around it. -/
def ChargedTo (info : ClassInfo) (id : NodeId) : Prop :=
  (NodeIndex.build nodes).classId info.name = some id ∨
    info.isAnonymous = true ∧ (NodeIndex.build nodes).classId info.outerName = some id

/-- Whether a caller is meant to exist: a body without a declaration of its own is
placed in a file, and any other is pinned to one extracted node. -/
def HasCallerByDesign (info : ClassInfo) (id : NodeId) (method : MethodInfo) : Prop :=
  if callerNeedsSynthesis info method then (NodeIndex.build nodes).fileOf id ≠ []
  else ∃ node, Picks nodes info.name method.name method.descriptor node

/-- The written bodies of the charged classes are kept exactly where a caller is
meant to exist. -/
def BodiesKeptByDesign : Prop :=
  ∀ outcome, Kept settings nodes classes outcome → ∀ info ∈ classes, ∀ id,
    ChargedTo nodes info id → ∀ method ∈ info.methods, Written method →
      (KeepsBody settings nodes classes outcome info method ↔
        HasCallerByDesign nodes info id method)

variable {settings nodes classes}

theorem Kept.raised_eq_none {outcome : Outcome} (kept : Kept settings nodes classes outcome) :
    (scanned settings nodes classes).raised = none := by
  have ran := kept.1
  unfold resolveJavaBytecode at ran
  split at ran
  · cases ran
  · assumption

theorem Kept.discardReason_eq_none {outcome : Outcome}
    (kept : Kept settings nodes classes outcome) : discardReason settings nodes classes = none := by
  obtain ⟨ran, available⟩ := kept
  unfold resolveJavaBytecode at ran
  split at ran
  · cases ran
  · split at ran
    · cases ran
      cases available
    · assumption

/-- A method that needs a synthesized caller gets one, when the pass is kept. -/
theorem synthesized_of_needed {outcome : Outcome} (kept : Kept settings nodes classes outcome)
    {info : ClassInfo} {owner : Owner} {method : MethodInfo} (member : info ∈ classes)
    (owned : ownerOf (NodeIndex.build nodes) info = some owner) (placed : owner.file ≠ [])
    (declared : method ∈ info.methods) (written : Written method)
    (needed : callerNeedsSynthesis info method = true) :
    ∃ node, callerOf settings (NodeIndex.build nodes) info owner method = .synthesized node := by
  obtain ⟨kind, name, named⟩ : ∃ kind name, synthesizedName info method = some (kind, name) := by
    unfold synthesizedName
    simp only [callerNeedsSynthesis, Bool.or_eq_true] at needed
    rcases needed with (anonymous | lambda) | initializer
    · simp only [anonymous, ↓reduceIte]
      split
      · exact ⟨_, _, rfl⟩
      · split <;> exact ⟨_, _, rfl⟩
    · exact ⟨_, _, if_pos lambda⟩
    · simp only [initializer, ↓reduceIte]
      split <;> exact ⟨_, _, rfl⟩
  have taken : ¬ shouldSkipMethod method = true := by
    simp only [written.1, Bool.false_eq_true, not_false_eq_true]
  have made : synthesizeNode settings info method owner ≠ .ok none := by
    have guard : (!method.hasLineNumbers || decide (owner.file = [])) = false := by
      simp only [written.2, Bool.not_true, placed, decide_false, Bool.or_self]
    rw [synthesizeNode, if_neg (by simp only [guard, Bool.false_eq_true, not_false_eq_true]), named]
    dsimp only
    split <;> simp only [ne_eq, reduceCtorEq, not_false_eq_true, Except.ok.injEq]
  cases result : synthesizeNode settings info method owner with
  | error error =>
      have caller : callerOf settings (NodeIndex.build nodes) info owner method =
          .failed error := by
        rw [callerOf, if_neg taken, if_pos needed, result]
      have raised := raised_of_failed member owned declared caller
      rw [← scanned, kept.raised_eq_none] at raised
      cases raised
  | ok synthesized =>
      cases synthesized with
      | none => exact (made result).elim
      | some node =>
          exact ⟨node, by rw [callerOf, if_neg taken, if_pos needed, result]⟩

/-- A walked body whose caller is a node is kept. -/
theorem keepsBody_of_walked {outcome : Outcome} (kept : Kept settings nodes classes outcome)
    {body : Body} (walked : body ∈ bodies settings (NodeIndex.build nodes) classes)
    (present : ∃ node ∈ nodes ++ outcome.synthesized, node.id = body.caller) :
    KeepsBody settings nodes classes outcome body.info body.method :=
  ⟨body, walked, rfl, rfl, present, fun inv called static node picks =>
    kept.has_calls.mpr ⟨body, walked, rfl, inv, called, static, node, picks, rfl⟩⟩

/-- A charged class has an owner with the file of its node. -/
theorem ChargedTo.ownerOf {info : ClassInfo} {id : NodeId} (charged : ChargedTo nodes info id) :
    ∃ owner, ownerOf (NodeIndex.build nodes) info = some owner ∧
      owner.file = (NodeIndex.build nodes).fileOf id := by
  rcases charged with own | ⟨anonymous, outer⟩
  · exact ⟨_, ownerOf_of_classId own, rfl⟩
  · have absent := classId_eq_none_of_isAnonymous (NodeIndex.build nodes) anonymous
    have unnamed : binaryToSourceFqn info.name = [] := by
      unfold ClassInfo.isAnonymous at anonymous
      by_cases nested : '$' ∈ info.name
      · rw [if_pos nested] at anonymous
        rw [binaryToSourceFqn, if_neg (not_not_intro nested), if_pos anonymous]
      · rw [if_neg nested] at anonymous
        cases anonymous
    have placed : binaryToSourceFqn info.outerName ≠ [] := by
      intro nowhere
      rw [NodeIndex.classId, if_pos nowhere] at outer
      cases outer
    refine ⟨{ own := none, classId := id, fqn := binaryToSourceFqn info.outerName,
              file := (NodeIndex.build nodes).fileOf id }, ?_, rfl⟩
    simp only [Bytecode.ownerOf, unnamed, ne_eq, not_true, ↓reduceIte, placed, absent, outer,
      Option.none_or, Option.map_some]

/-- A method that is looked up and picks a node is charged to it. -/
theorem id?_callerOf_of_picks {info : ClassInfo} {owner : Owner} {method : MethodInfo} {node : Node}
    (kept : shouldSkipMethod method = false) (looked : callerNeedsSynthesis info method = false)
    (picks : Picks nodes info.name method.name method.descriptor node) :
    (callerOf settings (NodeIndex.build nodes) info owner method).id? = some node.id := by
  have found := methodId_build_eq_some.mpr ⟨node, picks, rfl⟩
  simp only [callerOf, kept, Bool.false_eq_true, ↓reduceIte, looked]
  unfold NodeIndex.methodId at found
  split at found
  · next id result => rw [result, Caller.id?, found]
  · cases found

/-- **Coverage of compiled bodies.** In a kept pass, a written body of a charged
class is kept exactly where a caller is meant to exist. -/
theorem bodiesKeptByDesign : BodiesKeptByDesign settings nodes classes := by
  intro outcome kept info member id charged method declared written
  obtain ⟨owner, owned, placed⟩ := charged.ownerOf
  unfold HasCallerByDesign
  by_cases needed : callerNeedsSynthesis info method = true
  · rw [if_pos needed, ← placed]
    constructor
    · intro keeps
      obtain ⟨body, walked, rfl, rfl, _⟩ := keeps
      obtain ⟨_, same, _, called⟩ := mem_bodies_iff.mp walked
      rw [owned, Option.some.injEq] at same
      subst same
      intro nowhere
      have unmade : synthesizeNode settings body.info body.method body.owner = .ok none := by
        rw [synthesizeNode, if_pos (by simp only [nowhere, decide_true, Bool.or_true])]
      simp only [callerOf, written.1, Bool.false_eq_true, ↓reduceIte, needed, unmade,
        Caller.id?, reduceCtorEq] at called
    · intro located
      obtain ⟨node, called⟩ :=
        synthesized_of_needed kept member owned located declared written needed
      have walked : (⟨info, owner, method, node.id⟩ : Body) ∈
          bodies settings (NodeIndex.build nodes) classes :=
        mem_bodies_iff.mpr ⟨member, owned, declared, congrArg Caller.id? called⟩
      refine keepsBody_of_walked kept walked ⟨node, List.mem_append_right _ ?_, rfl⟩
      rw [kept.eq_keptOutcome]
      exact mem_synthesized member owned declared called
  · have looked : callerNeedsSynthesis info method = false := Bool.eq_false_of_not_eq_true needed
    rw [if_neg needed]
    constructor
    · intro keeps
      obtain ⟨body, walked, rfl, rfl, _⟩ := keeps
      obtain ⟨node, picks, _⟩ := picks_of_looked walked looked
      exact ⟨node, picks⟩
    · intro pinned
      obtain ⟨node, picks⟩ := pinned
      have walked : (⟨info, owner, method, node.id⟩ : Body) ∈
          bodies settings (NodeIndex.build nodes) classes :=
        mem_bodies_iff.mpr ⟨member, owned, declared, id?_callerOf_of_picks written.1 looked picks⟩
      exact keepsBody_of_walked kept walked ⟨node, List.mem_append_left _ picks.key.1, rfl⟩

/-- `A` declares `f(java.util.Date)`, `f(java.sql.Date)`, `g()` and `h()`. -/
def overloadNodes : List Node :=
  [sampleClass "demo.A" "A.java",
   sampleMethod "demo.A" "f" "(java.util.Date d)" ["Date"] "A.java" .method,
   sampleMethod "demo.A" "f" "(java.sql.Date d)" ["Date"] "A.java" .method,
   sampleMethod "demo.A" "g" "()" [] "A.java" .method,
   sampleMethod "demo.A" "h" "()" [] "A.java" .method]

/-- The compiled `f(java.util.Date)`, which calls `g()`. -/
def overloadBody : MethodInfo where
  name := "f"
  descriptor := "(Ljava/util/Date;)V"
  accessFlags := 0x0001
  invocations := [⟨.invokevirtual, "demo.A", "g", "()V", 2⟩]
  startLine := 2
  endLine := 2

/-- The compiled class. -/
def overloadInfo : ClassInfo :=
  sampleInfo "demo.A" "java.lang.Object" []
    [overloadBody,
     { name := "f", descriptor := "(Ljava/sql/Date;)V", accessFlags := 0x0001 },
     { name := "g", descriptor := "()V", accessFlags := 0x0001 },
     { name := "h", descriptor := "()V", accessFlags := 0x0001 }]

/-- The lookup of `f(java.util.Date)` stays ambiguous, and its body is dropped. -/
theorem overload_loses_body : ¬ NoBodyLost sampleSettings overloadNodes [overloadInfo] := by
  intro complete
  have kept : Kept sampleSettings overloadNodes [overloadInfo]
      (keptOutcome sampleSettings overloadNodes [overloadInfo]) :=
    Kept.of_guards (by decide +kernel)
  obtain ⟨body, walked, _, same, _⟩ := complete _ kept overloadInfo List.mem_cons_self
    (by decide +kernel) overloadBody (List.mem_cons_of_mem _ List.mem_cons_self)
    ⟨by decide +kernel, by decide⟩
  have dropped : ∀ body ∈ bodies sampleSettings (NodeIndex.build overloadNodes) [overloadInfo],
      body.method ≠ overloadBody := by
    decide +kernel
  exact dropped body walked same

end Coverage

end GraphIngest.Bytecode
