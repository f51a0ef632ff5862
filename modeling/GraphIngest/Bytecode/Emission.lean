import GraphIngest.Bytecode.Scan

/-! # What the scan emits

An edge key is in the log of the pass exactly when an instruction of some walked
body carries it, or when it charges a synthesized node to its class. The other
components of the state depend on class headers and on method lookups only:
walking a body leaves them alone.
-/

namespace GraphIngest.Bytecode

open Foundation Text Graph External

section Bodies

variable (settings : Settings) (index : NodeIndex)

/-- A method body the pass walks, with the node it charges the body to. -/
structure Body where
  info : ClassInfo
  owner : Owner
  method : MethodInfo
  caller : NodeId
deriving DecidableEq

def classBodies (info : ClassInfo) : List Body :=
  match ownerOf index info with
  | none => []
  | some owner =>
      info.methods.filterMap fun method =>
        (callerOf settings index info owner method).id?.map fun caller =>
          { info := info, owner := owner, method := method, caller := caller }

/-- The bodies walked in all classes. -/
def bodies (classes : List ClassInfo) : List Body :=
  classes.flatMap (classBodies settings index)

variable {settings index}

/-- A body is walked when its class has an owner and its method a caller. -/
theorem mem_bodies_iff {classes : List ClassInfo} {body : Body} :
    body ∈ bodies settings index classes ↔
      body.info ∈ classes ∧ ownerOf index body.info = some body.owner ∧
        body.method ∈ body.info.methods ∧
          (callerOf settings index body.info body.owner body.method).id? = some body.caller := by
  simp only [bodies, List.mem_flatMap, classBodies]
  constructor
  · rintro ⟨info, member, present⟩
    cases owned : ownerOf index info with
    | none => simp only [owned, List.not_mem_nil] at present
    | some owner =>
        simp only [owned, List.mem_filterMap, Option.map_eq_some_iff] at present
        obtain ⟨method, declared, caller, called, rfl⟩ := present
        exact ⟨member, owned, declared, called⟩
  · rintro ⟨member, owned, declared, called⟩
    refine ⟨body.info, member, ?_⟩
    simp only [owned, List.mem_filterMap, Option.map_eq_some_iff]
    exact ⟨body.method, declared, body.caller, called, rfl⟩

end Bodies

section Rules

variable {settings : Settings} {index : NodeIndex} {holds : Scan → Prop}

/-- What headers and methods keep, a class keeps. -/
theorem scanClass_preserves
    (header : ∀ info owner scan, holds scan → holds (scanHeader settings info owner scan))
    (method : ∀ info owner scan method, holds scan →
      holds (scanMethod settings index info owner scan method))
    (scan : Scan) (info : ClassInfo) (before : holds scan) :
    holds (scanClass settings index scan info) := by
  unfold scanClass
  split
  · exact before
  · next owner _ =>
      exact foldl_preserves holds _ (fun scan own _ => method info owner scan own) _
        (header info owner scan before)

/-- What headers and methods keep holds in the end. -/
theorem scanClasses_preserves
    (header : ∀ info owner scan, holds scan → holds (scanHeader settings info owner scan))
    (method : ∀ info owner scan method, holds scan →
      holds (scanMethod settings index info owner scan method))
    (classes : List ClassInfo) (start : holds {}) :
    holds (scanClasses settings index classes) := by
  apply foldl_preserves holds classes
  · intro scan info _
    exact scanClass_preserves header method scan info
  · exact start

/-- What headers and methods keep holds in the end when one method brings it about. -/
theorem scanClasses_acquires
    (header : ∀ info owner scan, holds scan → holds (scanHeader settings info owner scan))
    (method : ∀ info owner scan method, holds scan →
      holds (scanMethod settings index info owner scan method))
    {classes : List ClassInfo} {info : ClassInfo} {owner : Owner} {own : MethodInfo}
    (member : info ∈ classes) (owned : ownerOf index info = some owner)
    (declared : own ∈ info.methods)
    (gains : ∀ scan, holds (scanMethod settings index info owner scan own)) :
    holds (scanClasses settings index classes) := by
  apply foldl_acquires holds member
  · intro scan
    simp only [scanClass, owned]
    exact foldl_acquires holds declared gains (method info owner) _
  · exact scanClass_preserves header method

/-- **Facts of a scan.** A fact that headers leave alone, and that a method brings about
by the body it walks, holds in the end exactly when a walked body brings it about. -/
theorem scanClasses_iff {brings : Body → Prop}
    (header : ∀ info owner scan, holds (scanHeader settings info owner scan) ↔ holds scan)
    (method : ∀ info owner scan method,
      holds (scanMethod settings index info owner scan method) ↔
        holds scan ∨ ∃ caller, (callerOf settings index info owner method).id? = some caller ∧
          brings ⟨info, owner, method, caller⟩)
    (classes : List ClassInfo) :
    holds (scanClasses settings index classes) ↔
      holds {} ∨ ∃ body ∈ bodies settings index classes, brings body := by
  have step : ∀ scan info, holds (scanClass settings index scan info) ↔
      holds scan ∨ ∃ owner, ownerOf index info = some owner ∧ ∃ method ∈ info.methods,
        ∃ caller, (callerOf settings index info owner method).id? = some caller ∧
          brings ⟨info, owner, method, caller⟩ := by
    intro scan info
    unfold scanClass
    cases ownerOf index info with
    | none => simp only [reduceCtorEq, false_and, exists_false, or_false]
    | some owner =>
        simp only [Option.some.injEq, exists_eq_left']
        rw [← header info owner scan]
        exact foldl_iff holds (method info owner) info.methods _
  refine (foldl_iff holds step classes {}).trans (or_congr_right ⟨?_, ?_⟩)
  · rintro ⟨info, member, owner, owned, method, declared, caller, called, brought⟩
    exact ⟨⟨info, owner, method, caller⟩, mem_bodies_iff.mpr ⟨member, owned, declared, called⟩,
      brought⟩
  · rintro ⟨body, walked, brought⟩
    obtain ⟨member, owned, declared, called⟩ := mem_bodies_iff.mp walked
    exact ⟨body.info, member, body.owner, owned, body.method, declared, body.caller, called,
      brought⟩

end Rules

section Keys

variable (settings : Settings) (index : NodeIndex)

/-- The edge keys one call instruction carries. -/
def InvocationEmits (caller : NodeId) (inv : Invocation) (key : EdgeKey) : Prop :=
  inv.opcode ≠ .invokedynamic ∧
    ((invocationKind settings inv).isSome ∧
        (EdgeType.callsExternal, caller, externalId settings.makeId inv.owner inv.name) = key ∨
      ∃ callee, index.methodId inv.owner inv.name inv.descriptor = some callee ∧
        (EdgeType.calls, caller, callee) = key)

/-- The edge key one field access carries. -/
def AccessEmits (caller : NodeId) (access : FieldAccess) (key : EdgeKey) : Prop :=
  ∃ target, index.fieldId access.owner access.name = some target ∧
    (accessType access, caller, target) = key

/-- The edge keys the instructions of a body carry. -/
def BodyEmits (caller : NodeId) (method : MethodInfo) (key : EdgeKey) : Prop :=
  (∃ inv ∈ method.invocations, InvocationEmits settings index caller inv key) ∨
    ∃ access ∈ method.fieldAccesses, AccessEmits index caller access key

/-- The edge keys a method of a class carries. -/
def MethodEmits (info : ClassInfo) (owner : Owner) (method : MethodInfo) (key : EdgeKey) : Prop :=
  ∃ caller, (callerOf settings index info owner method).id? = some caller ∧
    (BodyEmits settings index caller method key ∨
      (∃ node, callerOf settings index info owner method = .synthesized node) ∧
        (EdgeType.contains, owner.classId, caller) = key)

variable {settings index}

/-- A loop adds the keys its items carry. -/
private theorem has_foldl {α : Type} {step : Scan → α → Scan} {emits : α → EdgeKey → Prop}
    (stepHas : ∀ scan item key, (step scan item).log.Has key ↔ scan.log.Has key ∨ emits item key)
    (items : List α) (scan : Scan) (key : EdgeKey) :
    (items.foldl step scan).log.Has key ↔ scan.log.Has key ∨ ∃ item ∈ items, emits item key :=
  foldl_iff (fun scan => scan.log.Has key) (fun scan item => stepHas scan item key) items scan

/-- A recognised call adds the key of its external edge. -/
theorem has_scanExternal (caller : NodeId) (file : Str) (scan : Scan) (inv : Invocation)
    (key : EdgeKey) :
    (scanExternal settings caller file scan inv).log.Has key ↔
      scan.log.Has key ∨ (invocationKind settings inv).isSome ∧
        (EdgeType.callsExternal, caller, externalId settings.makeId inv.owner inv.name) = key := by
  unfold scanExternal
  cases invocationKind settings inv with
  | none => simp only [Option.isSome_none, Bool.false_eq_true, false_and, or_false]
  | some kind =>
      simp only [KeyedLog.has_emit, key_bytecodeEdge, Option.isSome_some, true_and]

/-- A call of a matched method adds the key of its edge. -/
theorem has_scanCall (caller : NodeId) (file : Str) (scan : Scan) (inv : Invocation)
    (key : EdgeKey) :
    (scanCall index caller file scan inv).log.Has key ↔
      scan.log.Has key ∨ ∃ callee, index.methodId inv.owner inv.name inv.descriptor = some callee ∧
        (EdgeType.calls, caller, callee) = key := by
  unfold scanCall
  cases index.methodId inv.owner inv.name inv.descriptor with
  | none => simp only [reduceCtorEq, false_and, exists_false, or_false]
  | some callee =>
      simp only [KeyedLog.has_emit, key_bytecodeEdge, Option.some.injEq, exists_eq_left']

/-- A call instruction adds the keys it carries. -/
theorem has_scanInvocation (caller : NodeId) (file : Str) (scan : Scan) (inv : Invocation)
    (key : EdgeKey) :
    (scanInvocation settings index caller file scan inv).log.Has key ↔
      scan.log.Has key ∨ InvocationEmits settings index caller inv key := by
  unfold scanInvocation InvocationEmits
  by_cases dynamic : inv.opcode = .invokedynamic
  · simp only [dynamic, ↓reduceIte, ne_eq, not_true, false_and, or_false]
  · simp only [dynamic, ↓reduceIte, has_scanCall, has_scanExternal, ne_eq, not_false_eq_true,
      true_and, or_assoc]

/-- A field access adds the key it carries. -/
theorem has_scanAccess (caller : NodeId) (file : Str) (scan : Scan) (access : FieldAccess)
    (key : EdgeKey) :
    (scanAccess index caller file scan access).log.Has key ↔
      scan.log.Has key ∨ AccessEmits index caller access key := by
  unfold scanAccess AccessEmits
  cases index.fieldId access.owner access.name with
  | none => simp only [reduceCtorEq, false_and, exists_false, or_false]
  | some target =>
      simp only [KeyedLog.has_emit, key_bytecodeEdge, Option.some.injEq, exists_eq_left']

/-- A body adds the keys its instructions carry. -/
theorem has_scanBody {caller : NodeId} {file : Str} {method : MethodInfo} {scan : Scan}
    {key : EdgeKey} :
    (scanBody settings index caller file method scan).log.Has key ↔
      scan.log.Has key ∨ BodyEmits settings index caller method key := by
  unfold scanBody BodyEmits
  rw [has_foldl (has_scanAccess caller file), has_foldl (has_scanInvocation caller file), or_assoc]

@[simp] theorem log_scanDeclared (info : ClassInfo) (owner : Owner) (method : MethodInfo)
    (caller : NodeId) (scan : Scan) :
    (scanDeclared info owner method caller scan).log = scan.log := by
  unfold scanDeclared
  split <;> rfl

/-- A method adds the keys of its body, and a synthesized one its own charge. -/
theorem has_scanMethod (info : ClassInfo) (owner : Owner) (scan : Scan) (method : MethodInfo)
    (key : EdgeKey) :
    (scanMethod settings index info owner scan method).log.Has key ↔
      scan.log.Has key ∨ MethodEmits settings index info owner method key := by
  unfold scanMethod MethodEmits
  cases called : callerOf settings index info owner method with
  | synthesized node =>
      simp only [has_scanBody, log_scanDeclared, KeyedLog.has_push, key_bytecodeEdge, Caller.id?,
        Option.some.injEq, exists_eq_left', Caller.synthesized.injEq, exists_eq', true_and,
        or_assoc, or_comm]
  | looked result =>
      cases result with
      | matched caller =>
          simp only [has_scanBody, log_scanDeclared, Caller.id?, Option.some.injEq,
            exists_eq_left', reduceCtorEq, exists_false, false_and, or_false]
      | _ => simp only [Caller.id?, reduceCtorEq, false_and, exists_false, or_false]
  | _ => simp only [Caller.id?, reduceCtorEq, false_and, exists_false, or_false]

/-- **Emission.** An edge key is in the log exactly when a walked body carries
it, or when it charges a synthesized caller to its class. -/
theorem has_scanClasses {classes : List ClassInfo} {key : EdgeKey} :
    (scanClasses settings index classes).log.Has key ↔
      ∃ body ∈ bodies settings index classes,
        BodyEmits settings index body.caller body.method key ∨
          (∃ node, callerOf settings index body.info body.owner body.method = .synthesized node) ∧
            (EdgeType.contains, body.owner.classId, body.caller) = key := by
  have whole := @scanClasses_iff settings index (fun scan => scan.log.Has key)
    (fun body => BodyEmits settings index body.caller body.method key ∨
      (∃ node, callerOf settings index body.info body.owner body.method = .synthesized node) ∧
        (EdgeType.contains, body.owner.classId, body.caller) = key)
    (fun _ _ _ => Iff.rfl)
    (fun info owner scan method => has_scanMethod info owner scan method key) classes
  exact whole.trans (or_iff_right (KeyedLog.not_has_empty key))

/-- A CALLS edge is in the log exactly when a walked body of its caller calls
its target. -/
theorem has_calls {classes : List ClassInfo} {src dst : NodeId} :
    (scanClasses settings index classes).log.Has (.calls, src, dst) ↔
      ∃ body ∈ bodies settings index classes, body.caller = src ∧
        ∃ inv ∈ body.method.invocations, inv.opcode ≠ .invokedynamic ∧
          index.methodId inv.owner inv.name inv.descriptor = some dst := by
  rw [has_scanClasses]
  constructor
  · rintro ⟨body, walked, (⟨inv, member, static, ⟨_, same⟩ | ⟨callee, found, same⟩⟩ |
      ⟨access, _, _, _, same⟩) | ⟨_, same⟩⟩
    · cases same
    · cases same
      exact ⟨body, walked, rfl, inv, member, static, found⟩
    · simp only [accessType, Prod.mk.injEq] at same
      split at same <;> cases same.1
    · cases same
  · rintro ⟨body, walked, rfl, inv, member, static, found⟩
    exact ⟨body, walked, Or.inl (Or.inl ⟨inv, member, static, Or.inr ⟨dst, found, rfl⟩⟩)⟩

/-- A CALLS_EXTERNAL edge is in the log exactly when a walked body of its caller
makes a recognised call of its target. -/
theorem has_callsExternal {classes : List ClassInfo} {src dst : NodeId} :
    (scanClasses settings index classes).log.Has (.callsExternal, src, dst) ↔
      ∃ body ∈ bodies settings index classes, body.caller = src ∧
        ∃ inv ∈ body.method.invocations, inv.opcode ≠ .invokedynamic ∧
          (invocationKind settings inv).isSome ∧
            externalId settings.makeId inv.owner inv.name = dst := by
  rw [has_scanClasses]
  constructor
  · rintro ⟨body, walked, (⟨inv, member, static, ⟨known, same⟩ | ⟨_, _, same⟩⟩ |
      ⟨access, _, _, _, same⟩) | ⟨_, same⟩⟩
    · cases same
      exact ⟨body, walked, rfl, inv, member, static, known, rfl⟩
    · cases same
    · simp only [accessType, Prod.mk.injEq] at same
      split at same <;> cases same.1
    · cases same
  · rintro ⟨body, walked, rfl, inv, member, static, known, rfl⟩
    exact ⟨body, walked, Or.inl (Or.inl ⟨inv, member, static, Or.inl ⟨known, rfl⟩⟩)⟩

/-- A READS or WRITES edge is in the log exactly when a walked body of its
caller accesses its target that way. -/
theorem has_access {classes : List ClassInfo} {type : EdgeType} {src dst : NodeId}
    (accesses : type = .reads ∨ type = .writes) :
    (scanClasses settings index classes).log.Has (type, src, dst) ↔
      ∃ body ∈ bodies settings index classes, body.caller = src ∧
        ∃ access ∈ body.method.fieldAccesses, accessType access = type ∧
          index.fieldId access.owner access.name = some dst := by
  rw [has_scanClasses]
  constructor
  · rintro ⟨body, walked, (⟨inv, member, static, ⟨_, same⟩ | ⟨_, _, same⟩⟩ |
      ⟨access, member, target, found, same⟩) | ⟨_, same⟩⟩
    · cases same
      exact (accesses.elim (fun same => by cases same) fun same => by cases same)
    · cases same
      exact (accesses.elim (fun same => by cases same) fun same => by cases same)
    · cases same
      exact ⟨body, walked, rfl, access, member, rfl, found⟩
    · cases same
      exact (accesses.elim (fun same => by cases same) fun same => by cases same)
  · rintro ⟨body, walked, rfl, access, member, rfl, found⟩
    exact ⟨body, walked, Or.inl (Or.inr ⟨access, member, dst, found, rfl⟩)⟩

end Keys

section Frames

variable {settings : Settings} {index : NodeIndex}

/-- What walking a body leaves alone. -/
def Scan.outer (scan : Scan) :=
  (scan.classesInRepo, scan.attributed, scan.hierarchy, scan.ownClassIds, scan.declaredMethods,
    scan.raised)

/-- What scanning a method leaves alone. -/
def Scan.headers (scan : Scan) :=
  (scan.classesInRepo, scan.attributed, scan.hierarchy, scan.ownClassIds)

theorem outer_scanInvocation (caller : NodeId) (file : Str) (scan : Scan) (inv : Invocation) :
    (scanInvocation settings index caller file scan inv).outer = scan.outer := by
  unfold scanInvocation
  split
  · rfl
  · unfold scanCall
    split <;> (unfold scanExternal; split <;> rfl)

theorem outer_scanAccess (caller : NodeId) (file : Str) (scan : Scan) (access : FieldAccess) :
    (scanAccess index caller file scan access).outer = scan.outer := by
  unfold scanAccess
  split <;> rfl

/-- Walking a body changes no header, no declared method and no error. -/
theorem outer_scanBody (caller : NodeId) (file : Str) (method : MethodInfo) (scan : Scan) :
    (scanBody settings index caller file method scan).outer = scan.outer := by
  unfold scanBody
  rw [foldl_frame Scan.outer (outer_scanAccess caller file),
    foldl_frame Scan.outer (outer_scanInvocation caller file)]

theorem headers_of_outer {scan other : Scan} (same : scan.outer = other.outer) :
    scan.headers = other.headers := by
  simp only [Scan.outer, Prod.mk.injEq] at same
  simp only [Scan.headers, same]

theorem headers_scanDeclared (info : ClassInfo) (owner : Owner) (method : MethodInfo)
    (caller : NodeId) (scan : Scan) :
    (scanDeclared info owner method caller scan).headers = scan.headers := by
  unfold scanDeclared
  split <;> rfl

theorem headers_scanMethod (info : ClassInfo) (owner : Owner) (scan : Scan)
    (method : MethodInfo) :
    (scanMethod settings index info owner scan method).headers = scan.headers := by
  unfold scanMethod
  split
  · rfl
  · rfl
  · rfl
  · rw [headers_of_outer (outer_scanBody ..), headers_scanDeclared]
    rfl
  · rw [headers_of_outer (outer_scanBody ..), headers_scanDeclared]
    rfl
  · rfl

theorem headers_scanClass (settings : Settings) (scan : Scan) {info : ClassInfo} {owner : Owner}
    (owned : ownerOf index info = some owner) :
    (scanClass settings index scan info).headers =
      (scanHeader settings info owner scan).headers := by
  simp only [scanClass, owned]
  exact foldl_frame Scan.headers (headers_scanMethod info owner) info.methods _

/-- **Attribution.** A path is attributed exactly when it spells the file that
some parsed class is charged to. -/
theorem mem_attributed {classes : List ClassInfo} {path : Str} :
    path ∈ (scanClasses settings index classes).attributed ↔
      ∃ info ∈ classes, ∃ owner, ownerOf index info = some owner ∧ owner.file ≠ [] ∧
        path ∈ spellings settings.osSep owner.file := by
  have step : ∀ scan info, path ∈ (scanClass settings index scan info).attributed ↔
      path ∈ scan.attributed ∨ ∃ owner, ownerOf index info = some owner ∧ owner.file ≠ [] ∧
        path ∈ spellings settings.osSep owner.file := by
    intro scan info
    cases owned : ownerOf index info with
    | none => simp only [scanClass, owned, reduceCtorEq, false_and, exists_false, or_false]
    | some owner =>
        have entered := congrArg (fun headers => headers.2.1)
          (headers_scanClass settings scan owned)
        simp only [Scan.headers] at entered
        rw [entered]
        by_cases placed : owner.file = []
        · simp only [scanHeader, placed, ↓reduceIte, Option.some.injEq, exists_eq_left', ne_eq,
            not_true, false_and, or_false]
        · simp only [scanHeader, placed, ↓reduceIte, List.mem_append, Option.some.injEq,
            exists_eq_left', ne_eq, not_false_eq_true, true_and]
  exact (foldl_iff (fun scan : Scan => path ∈ scan.attributed) step classes {}).trans
    (or_iff_right List.not_mem_nil)

/-- A class with a node of its own is charged to it. -/
theorem ownerOf_of_classId {info : ClassInfo} {id : NodeId}
    (found : index.classId info.name = some id) :
    ownerOf index info = some
      { own := some id, classId := id, fqn := binaryToSourceFqn info.name,
        file := index.fileOf id } := by
  have named : binaryToSourceFqn info.name ≠ [] := by
    intro anonymous
    simp only [NodeIndex.classId, anonymous, ↓reduceIte, reduceCtorEq] at found
  simp only [ownerOf, named, ne_eq, not_false_eq_true, ↓reduceIte, found, Option.some_or,
    Option.map_some]

/-- The own node of an owner is the node found for the class itself. -/
theorem own_of_ownerOf {info : ClassInfo} {owner : Owner}
    (owned : ownerOf index info = some owner) : owner.own = index.classId info.name := by
  simp only [ownerOf, Option.ite_none_left_eq_some, Option.map_eq_some_iff] at owned
  obtain ⟨_, _, _, rfl⟩ := owned
  rfl

/-- The header in use for a binary name: that of the last parsed class of this
name with a node of its own. -/
theorem hierarchy_scanClasses (classes : List ClassInfo) (binary : Str) :
    (scanClasses settings index classes).hierarchy.get? binary =
      (classes.reverse.find? fun info =>
        (index.classId info.name).isSome && decide (info.name = binary)).map
          fun info => (info.superName, info.interfaces) := by
  have projected : (scanClasses settings index classes).hierarchy =
      classes.foldl (fun dict info => if (index.classId info.name).isSome = true then
        dict.set info.name (info.superName, info.interfaces) else dict) Dict.empty :=
    (List.foldl_hom Scan.hierarchy fun scan info => by
      cases owned : ownerOf index info with
      | none =>
          cases found : index.classId info.name with
          | none => simp only [scanClass, owned, Option.isSome_none, Bool.false_eq_true, ↓reduceIte]
          | some id => cases owned.symm.trans (ownerOf_of_classId found)
      | some owner =>
          have entered := congrArg (fun headers => headers.2.2.1)
            (headers_scanClass settings scan owned)
          simp only [Scan.headers] at entered
          rw [entered, ← own_of_ownerOf owned]
          rfl).symm
  rw [projected, Dict.get?_foldl_set]
  exact Option.or_none

end Frames

section Declared

variable (settings : Settings) (index : NodeIndex)

/-- A method the pass remembers as able to override, with its node. -/
def Remembers (info : ClassInfo) (owner : Owner) (method : MethodInfo) (binary : Str)
    (entry : MethodInfo × NodeId) : Prop :=
  owner.own.isSome ∧ canOverride method ∧ info.name = binary ∧ method = entry.1 ∧
    (callerOf settings index info owner method).id? = some entry.2

variable {settings index}

theorem declared_scanDeclared (info : ClassInfo) (owner : Owner) (method : MethodInfo)
    (caller : NodeId) (scan : Scan) (binary : Str) (entry : MethodInfo × NodeId) :
    entry ∈ (scanDeclared info owner method caller scan).declaredMethods.getD binary [] ↔
      entry ∈ scan.declaredMethods.getD binary [] ∨ owner.own.isSome ∧ canOverride method ∧
        info.name = binary ∧ method = entry.1 ∧ caller = entry.2 := by
  unfold scanDeclared
  split
  · next able =>
      obtain ⟨owned, overrides⟩ := Bool.and_eq_true_iff.mp able
      simp only [Dict.getD_append, owned, overrides, true_and]
      by_cases same : binary = info.name
      · subst same
        simp only [↓reduceIte, List.mem_append, List.mem_singleton, true_and, Prod.ext_iff,
          eq_comm]
      · simp only [same, ↓reduceIte, Ne.symm same, false_and, or_false]
  · next unable =>
      simp only [Bool.and_eq_true, not_and] at unable
      constructor
      · exact Or.inl
      · rintro (present | ⟨owned, overrides, _⟩)
        · exact present
        · exact (unable owned overrides).elim

/-- Walking a body remembers no method. -/
theorem declared_scanBody (caller : NodeId) (file : Str) (method : MethodInfo) (scan : Scan) :
    (scanBody settings index caller file method scan).declaredMethods = scan.declaredMethods :=
  congrArg (fun outer => outer.2.2.2.2.1) (outer_scanBody caller file method scan)

/-- Scanning a method remembers it when it can override. -/
theorem declared_scanMethod (info : ClassInfo) (owner : Owner) (scan : Scan) (method : MethodInfo)
    (binary : Str) (entry : MethodInfo × NodeId) :
    entry ∈ (scanMethod settings index info owner scan method).declaredMethods.getD binary [] ↔
      entry ∈ scan.declaredMethods.getD binary [] ∨
        Remembers settings index info owner method binary entry := by
  unfold scanMethod Remembers
  cases called : callerOf settings index info owner method with
  | synthesized node =>
      simp only [declared_scanBody, declared_scanDeclared, Caller.id?, Option.some.injEq]
  | looked result =>
      cases result with
      | matched caller =>
          simp only [declared_scanBody, declared_scanDeclared, Caller.id?, Option.some.injEq]
      | _ => simp only [Caller.id?, reduceCtorEq, and_false, or_false]
  | _ => simp only [Caller.id?, reduceCtorEq, and_false, or_false]

/-- **Declared methods.** The methods remembered for a binary name are those of
the walked bodies that can override and whose class has a node of its own. -/
theorem mem_declaredMethods {classes : List ClassInfo} {binary : Str}
    {entry : MethodInfo × NodeId} :
    entry ∈ (scanClasses settings index classes).declaredMethods.getD binary [] ↔
      ∃ body ∈ bodies settings index classes, body.info.name = binary ∧
        (index.classId binary).isSome ∧ canOverride body.method ∧
          (body.method, body.caller) = entry := by
  have whole := @scanClasses_iff settings index
    (fun scan => entry ∈ scan.declaredMethods.getD binary [])
    (fun body => Remembers settings index body.info body.owner body.method binary entry)
    (fun _ _ _ => Iff.rfl) ?_ classes
  · apply (whole.trans (or_iff_right List.not_mem_nil)).trans
    apply exists_congr
    intro body
    apply and_congr_right
    intro walked
    obtain ⟨-, owned, -, called⟩ := mem_bodies_iff.mp walked
    rw [Remembers, own_of_ownerOf owned, called, Option.some.injEq]
    constructor
    · rintro ⟨own, able, rfl, same, charged⟩
      exact ⟨rfl, own, able, Prod.ext same charged⟩
    · rintro ⟨rfl, own, able, rfl⟩
      exact ⟨own, able, rfl, rfl, rfl⟩
  · intro info owner scan method
    apply (declared_scanMethod info owner scan method binary entry).trans
    apply or_congr_right
    constructor
    · intro remembers
      exact ⟨entry.2, remembers.2.2.2.2, remembers⟩
    · rintro ⟨_, -, remembers⟩
      exact remembers

end Declared

end GraphIngest.Bytecode
