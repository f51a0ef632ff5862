import GraphIngest.Bytecode.CallBinding
import GraphIngest.Bytecode.ExternalFacts

/-! # The order of the class files

Class files arrive in directory order, a class routinely before its own
superclass. What the scan collects are sets that grow by what each class brings,
and counts; the header in use for a name is that of the one class with the name;
and the hierarchy stage, which waits for the end of the scan, looks at headers
only. A permutation of the classes therefore changes no edge key, no node id and
no claim of the pass.
-/

namespace GraphIngest.Bytecode

open Foundation Text Graph External

section Callers

variable (settings : Settings) (index : NodeIndex)

/-- How the methods of a class of the repository got their callers. -/
def classCallers (info : ClassInfo) : List Caller :=
  match ownerOf index info with
  | none => []
  | some owner => info.methods.map (callerOf settings index info owner)

/-- How the methods of all classes got their callers. -/
def callers (classes : List ClassInfo) : List Caller :=
  classes.flatMap (classCallers settings index)

variable {settings index}

/-- A method of a class of the repository has its caller in the list. -/
theorem mem_callers_iff {classes : List ClassInfo} {caller : Caller} :
    caller ∈ callers settings index classes ↔ ∃ info ∈ classes, ∃ owner,
      ownerOf index info = some owner ∧ ∃ method ∈ info.methods,
        callerOf settings index info owner method = caller := by
  simp only [callers, List.mem_flatMap, classCallers]
  refine exists_congr fun info => and_congr_right fun _ => ?_
  cases ownerOf index info with
  | none => simp only [List.not_mem_nil, reduceCtorEq, false_and, exists_false]
  | some owner => simp only [List.mem_map, Option.some.injEq, exists_eq_left']

/-- What depends on the callers of the methods alone is read off their list. -/
theorem read_scanClasses {β : Type*} {read : Scan → β} {act : β → Caller → β}
    (entered : ∀ info owner scan, read (scanHeader settings info owner scan) = read scan)
    (follows : ∀ info owner scan method, read (scanMethod settings index info owner scan method) =
      act (read scan) (callerOf settings index info owner method))
    (classes : List ClassInfo) :
    read (scanClasses settings index classes) =
      (callers settings index classes).foldl act (read {}) := by
  have classStep : ∀ scan info, read (scanClass settings index scan info) =
      (classCallers settings index info).foldl act (read scan) := by
    intro scan info
    unfold scanClass classCallers
    cases ownerOf index info with
    | none => rfl
    | some owner =>
        simp only [List.foldl_map, ← entered info owner scan]
        exact (List.foldl_hom read fun scan method => (follows info owner scan method).symm).symm
  unfold scanClasses callers
  rw [List.foldl_flatMap]
  exact (List.foldl_hom read fun scan info => (classStep scan info).symm).symm

/-- The list of callers follows the order of the classes. -/
theorem perm_callers {classes others : List ClassInfo} (perm : classes.Perm others) :
    (callers settings index classes).Perm (callers settings index others) :=
  perm.flatMap_right (classCallers settings index)

/-- The same classes have the same callers. -/
theorem mem_callers_congr {classes others : List ClassInfo}
    (same : ∀ info, info ∈ classes ↔ info ∈ others) (caller : Caller) :
    caller ∈ callers settings index classes ↔ caller ∈ callers settings index others := by
  simp only [callers, List.mem_flatMap, same]

/-- In the same classes the same bodies are walked. -/
theorem mem_bodies_congr {classes others : List ClassInfo}
    (same : ∀ info, info ∈ classes ↔ info ∈ others) (body : Body) :
    body ∈ bodies settings index classes ↔ body ∈ bodies settings index others := by
  simp only [bodies, List.mem_flatMap, same]

end Callers

section Guards

variable {settings : Settings} {index : NodeIndex}

/-- The counts the match rate is made of. -/
def MatchStats.rated (stats : MatchStats) : MatchStats where
  matchedMethods := stats.matchedMethods
  unmatchedClass := stats.unmatchedClass
  unmatchedMethod := stats.unmatchedMethod
  ambiguousMethod := stats.ambiguousMethod

/-- The match rate looks at these counts only. -/
theorem matchRate_rated (stats : MatchStats) : stats.rated.matchRate = stats.matchRate := rfl

/-- What the caller of one method adds to these counts. -/
def MatchStats.tally (stats : MatchStats) : Caller → MatchStats
  | .looked result => (stats.count result).rated
  | _ => stats

theorem tally_comm (stats : MatchStats) (first second : Caller) :
    (stats.tally first).tally second = (stats.tally second).tally first := by
  cases first with
  | looked result =>
      cases second with
      | looked other => cases result <;> cases other <;> rfl
      | _ => rfl
  | _ => cases second <;> rfl

theorem rated_scanBody (caller : NodeId) (file : Str) (method : MethodInfo) (scan : Scan) :
    (scanBody settings index caller file method scan).stats.rated = scan.stats.rated := by
  have called : ∀ scan inv,
      (scanInvocation settings index caller file scan inv).stats.rated = scan.stats.rated := by
    intro scan inv
    unfold scanInvocation
    split
    · rfl
    · unfold scanCall
      split <;> (unfold scanExternal; split <;> rfl)
  have accessed : ∀ scan access,
      (scanAccess index caller file scan access).stats.rated = scan.stats.rated := by
    intro scan access
    unfold scanAccess
    split <;> rfl
  unfold scanBody
  rw [foldl_frame (fun scan : Scan => scan.stats.rated) accessed,
    foldl_frame (fun scan : Scan => scan.stats.rated) called]

theorem rated_countSynthesis (method : MethodInfo) (stats : MatchStats) :
    (countSynthesis method stats).rated = stats.rated := by
  unfold countSynthesis
  split
  · rfl
  · split <;> rfl

theorem stats_scanDeclared (info : ClassInfo) (owner : Owner) (method : MethodInfo)
    (caller : NodeId) (scan : Scan) :
    (scanDeclared info owner method caller scan).stats = scan.stats := by
  unfold scanDeclared
  split <;> rfl

/-- A method adds to the match rate what its caller adds. -/
theorem rated_scanMethod (info : ClassInfo) (owner : Owner) (scan : Scan) (method : MethodInfo) :
    (scanMethod settings index info owner scan method).stats.rated =
      scan.stats.rated.tally (callerOf settings index info owner method) := by
  unfold scanMethod
  cases callerOf settings index info owner method with
  | skipped => rfl
  | failed error => rfl
  | noLines => exact rated_countSynthesis method scan.stats
  | synthesized node =>
      rw [rated_scanBody, stats_scanDeclared]
      exact rated_countSynthesis method scan.stats
  | looked result =>
      cases result with
      | matched caller =>
          rw [rated_scanBody, stats_scanDeclared]
          rfl
      | _ => rfl

/-- The counts are tallied over the callers. -/
theorem rated_scanClasses (classes : List ClassInfo) :
    (scanClasses settings index classes).stats.rated =
      (callers settings index classes).foldl MatchStats.tally {} :=
  @read_scanClasses settings index _ (fun scan => scan.stats.rated) MatchStats.tally
    (fun _ _ _ => rfl) rated_scanMethod classes

/-- The match rate does not depend on the order of the callers. -/
theorem matchRate_of_callers {classes others : List ClassInfo}
    (perm : (callers settings index classes).Perm (callers settings index others)) :
    (scanClasses settings index classes).stats.matchRate =
      (scanClasses settings index others).stats.matchRate := by
  have same := perm.foldl_eq'
    (fun _ _ _ _ stats => tally_comm stats _ _) ({} : MatchStats)
  rw [← matchRate_rated, rated_scanClasses, same, ← rated_scanClasses, matchRate_rated]

/-- Whether a caller failed. -/
def Caller.failed? : Caller → Bool
  | .failed _ => true
  | _ => false

/-- A method raises when its caller fails. -/
theorem raised_scanMethod_iff (info : ClassInfo) (owner : Owner) (scan : Scan)
    (method : MethodInfo) :
    (scanMethod settings index info owner scan method).raised.isSome =
      (scan.raised.isSome || (callerOf settings index info owner method).failed?) := by
  have walked : ∀ caller scan, (scanBody settings index caller owner.file method scan).raised =
      scan.raised := fun caller scan =>
    congrArg (fun outer => outer.2.2.2.2.2) (outer_scanBody caller owner.file method scan)
  unfold scanMethod
  cases callerOf settings index info owner method with
  | failed error => simp only [Caller.failed?, Option.isSome_or, Option.isSome_some]
  | synthesized node =>
      simp only [walked, raised_scanDeclared, Caller.failed?, Bool.or_false]
  | looked result =>
      cases result with
      | matched caller => simp only [walked, raised_scanDeclared, Caller.failed?, Bool.or_false]
      | _ => simp only [Caller.failed?, Bool.or_false]
  | _ => simp only [Caller.failed?, Bool.or_false]

/-- The scan raises when some caller failed. -/
theorem raised_scanClasses_iff (classes : List ClassInfo) :
    (scanClasses settings index classes).raised.isSome ↔
      ∃ caller ∈ callers settings index classes, caller.failed? := by
  have collected : (scanClasses settings index classes).raised.isSome =
      (callers settings index classes).foldl (fun raised caller => raised || caller.failed?)
        false :=
    @read_scanClasses settings index _ (fun scan => scan.raised.isSome)
      (fun raised caller => raised || caller.failed?) (fun _ _ _ => rfl) raised_scanMethod_iff
        classes
  rw [collected]
  refine (foldl_iff (fun raised : Bool => raised = true) ?_ _ false).trans
    (or_iff_right Bool.false_ne_true)
  exact fun raised caller => Bool.or_eq_true_iff

/-- Whether the scan raises does not depend on the order of the callers. -/
theorem raised_of_callers {classes others : List ClassInfo}
    (perm : (callers settings index classes).Perm (callers settings index others)) :
    (scanClasses settings index classes).raised.isSome =
      (scanClasses settings index others).raised.isSome := by
  rw [Bool.eq_iff_iff, raised_scanClasses_iff, raised_scanClasses_iff]
  exact exists_congr fun caller => and_congr_left' perm.mem_iff

/-- The classes of the repository are counted. -/
theorem classesInRepo_scanClasses (classes : List ClassInfo) :
    (scanClasses settings index classes).classesInRepo =
      classes.foldl (fun count info => if (ownerOf index info).isSome then count + 1 else count)
        0 :=
  (List.foldl_hom Scan.classesInRepo fun scan info => by
    cases owned : ownerOf index info with
    | none => simp only [scanClass, owned, Option.isSome_none, Bool.false_eq_true, ↓reduceIte]
    | some owner =>
        have entered := congrArg Prod.fst (headers_scanClass settings scan owned)
        simp only [Scan.headers] at entered
        rw [entered]
        simp only [scanHeader, Option.isSome_some, ↓reduceIte]).symm

/-- How many classes are of the repository does not depend on their order. -/
theorem classesInRepo_of_perm {classes others : List ClassInfo} (perm : classes.Perm others) :
    (scanClasses settings index classes).classesInRepo =
      (scanClasses settings index others).classesInRepo := by
  rw [classesInRepo_scanClasses, classesInRepo_scanClasses]
  refine perm.foldl_eq' (fun first _ second _ count => ?_) 0
  split <;> split <;> rfl

end Guards

section SynthesizedNodes

variable {settings : Settings} {index : NodeIndex}

/-- The nodes made for bodies are Function nodes. -/
theorem label_of_synthesized {info : ClassInfo} {owner : Owner} {method : MethodInfo} {node : Node}
    (made : callerOf settings index info owner method = .synthesized node) :
    node.label = .function := by
  unfold callerOf at made
  split at made
  · cases made
  · split at made
    · cases settled : synthesizeNode settings info method owner with
      | error error =>
          rw [settled] at made
          cases made
      | ok outcome =>
          rw [settled] at made
          cases outcome with
          | none => cases made
          | some found =>
              cases made
              unfold synthesizeNode at settled
              split at settled
              · cases settled
              · split at settled
                · cases settled
                · split at settled
                  · cases settled
                  · cases settled
                    rfl
    · cases made

/-- A call instruction that the catalog places outside the repository, at the
node with the id. -/
def Targets (settings : Settings) (method : MethodInfo) (id : NodeId) : Prop :=
  ∃ inv ∈ method.invocations, inv.opcode ≠ .invokedynamic ∧
    (invocationKind settings inv).isSome ∧ externalId settings.makeId inv.owner inv.name = id

theorem origin_scanInvocation {node : Node} (caller : NodeId) (file : Str) (scan : Scan)
    (inv : Invocation)
    (present : node ∈ (scanInvocation settings index caller file scan inv).synthesized) :
    node ∈ scan.synthesized ∨ inv.opcode ≠ .invokedynamic ∧
      (invocationKind settings inv).isSome ∧
        externalId settings.makeId inv.owner inv.name = node.id := by
  have external : node ∈ (scanExternal settings caller file
        { scan with marks := scan.marks.record settings.catalog caller inv } inv).synthesized →
      node ∈ scan.synthesized ∨ (invocationKind settings inv).isSome ∧
        externalId settings.makeId inv.owner inv.name = node.id := by
    unfold scanExternal
    cases recognised : invocationKind settings inv with
    | none => exact Or.inl
    | some kind =>
        intro held
        dsimp only at held
        split at held
        · exact Or.inl held
        · rcases List.mem_append.mp held with before | made
          · exact Or.inl before
          · rw [List.mem_singleton.mp made]
            exact Or.inr ⟨rfl, rfl⟩
  unfold scanInvocation at present
  split at present
  · exact Or.inl present
  · next static =>
      refine (external ?_).imp_right fun targeted => ⟨static, targeted⟩
      unfold scanCall at present
      split at present <;> exact present

theorem origin_scanBody {node : Node} (caller : NodeId) (file : Str) (method : MethodInfo)
    (scan : Scan)
    (present : node ∈ (scanBody settings index caller file method scan).synthesized) :
    node ∈ scan.synthesized ∨ Targets settings method node.id := by
  have accessed : ∀ scan access,
      (scanAccess index caller file scan access).synthesized = scan.synthesized := by
    intro scan access
    unfold scanAccess
    split <;> rfl
  unfold scanBody at present
  rw [foldl_frame Scan.synthesized accessed] at present
  exact foldl_origin (fun scan : Scan => node ∈ scan.synthesized)
    (fun scan inv => origin_scanInvocation caller file scan inv) method.invocations scan present

theorem origin_scanMethod {node : Node} (info : ClassInfo) (owner : Owner) (scan : Scan)
    (method : MethodInfo)
    (present : node ∈ (scanMethod settings index info owner scan method).synthesized) :
    node ∈ scan.synthesized ∨
      callerOf settings index info owner method = .synthesized node ∨
        ∃ caller, (callerOf settings index info owner method).id? = some caller ∧
          Targets settings method node.id := by
  unfold scanMethod at present
  cases called : callerOf settings index info owner method with
  | synthesized made =>
      simp only [called] at present
      rcases origin_scanBody _ _ _ _ present with before | targeted
      · rw [synthesized_scanDeclared] at before
        rcases List.mem_append.mp before with before | fresh
        · exact Or.inl before
        · rw [List.mem_singleton.mp fresh]
          exact Or.inr (Or.inl rfl)
      · exact Or.inr (Or.inr ⟨made.id, rfl, targeted⟩)
  | looked result =>
      cases result with
      | matched caller =>
          simp only [called] at present
          rcases origin_scanBody _ _ _ _ present with before | targeted
          · rw [synthesized_scanDeclared] at before
            exact Or.inl before
          · exact Or.inr (Or.inr ⟨caller, rfl, targeted⟩)
      | _ => simp only [called] at present; exact Or.inl present
  | _ => simp only [called] at present; exact Or.inl present

theorem origin_scanClass {node : Node} (scan : Scan) (info : ClassInfo)
    (present : node ∈ (scanClass settings index scan info).synthesized) :
    node ∈ scan.synthesized ∨ ∃ owner, ownerOf index info = some owner ∧
      ∃ method ∈ info.methods, callerOf settings index info owner method = .synthesized node ∨
        ∃ caller, (callerOf settings index info owner method).id? = some caller ∧
          Targets settings method node.id := by
  unfold scanClass at present
  cases owned : ownerOf index info with
  | none =>
      rw [owned] at present
      exact Or.inl present
  | some owner =>
      rw [owned] at present
      exact (foldl_origin (fun scan : Scan => node ∈ scan.synthesized)
        (fun scan method => origin_scanMethod info owner scan method) info.methods _
          present).imp_right fun brought => ⟨owner, rfl, brought⟩

/-- **Synthesized ids.** The ids of the synthesized nodes are those of the bodies
without a declaration and those of the external targets of walked bodies. -/
theorem exists_synthesized_iff {classes : List ClassInfo} {id : NodeId} :
    (∃ node ∈ (scanClasses settings index classes).synthesized, node.id = id) ↔
      (∃ node, .synthesized node ∈ callers settings index classes ∧ node.id = id) ∨
        ∃ body ∈ bodies settings index classes, Targets settings body.method id := by
  constructor
  · rintro ⟨node, present, rfl⟩
    have walked := foldl_origin (fun scan : Scan => node ∈ scan.synthesized)
      (fun scan info => origin_scanClass scan info) classes {} present
    obtain ⟨info, member, owner, owned, method, declared, brought⟩ :=
      walked.resolve_left List.not_mem_nil
    rcases brought with made | ⟨caller, called, targeted⟩
    · exact Or.inl ⟨node, mem_callers_iff.mpr ⟨info, member, owner, owned, method, declared,
        made⟩, rfl⟩
    · exact Or.inr ⟨⟨info, owner, method, caller⟩,
        mem_bodies_iff.mpr ⟨member, owned, declared, called⟩, targeted⟩
  · rintro (⟨node, listed, rfl⟩ | ⟨body, walked, inv, called, static, recognised, rfl⟩)
    · obtain ⟨info, member, owner, owned, method, declared, made⟩ := mem_callers_iff.mp listed
      exact ⟨node, mem_synthesized member owned declared made, rfl⟩
    · exact exists_externalTarget walked called static recognised

end SynthesizedNodes

section Headers

variable {settings : Settings} {index : NodeIndex}

/-- The header in use for a name is that of the class with the name, when names
are distinct. -/
theorem get?_hierarchy_iff {classes : List ClassInfo}
    (distinct : (classes.map ClassInfo.name).Nodup) {binary : Str} {header : Str × List Str} :
    (scanClasses settings index classes).hierarchy.get? binary = some header ↔
      ∃ info ∈ classes, (index.classId info.name).isSome ∧ info.name = binary ∧
        (info.superName, info.interfaces) = header := by
  rw [hierarchy_scanClasses, Option.map_eq_some_iff]
  constructor
  · rintro ⟨info, found, same⟩
    have member := List.mem_reverse.mp (List.mem_of_find?_eq_some found)
    have tested := List.find?_some found
    simp only [Bool.and_eq_true, decide_eq_true_eq] at tested
    exact ⟨info, member, tested.1, tested.2, same⟩
  · rintro ⟨info, member, own, rfl, same⟩
    refine ⟨info, ?_, same⟩
    cases found : classes.reverse.find? (fun other =>
        (index.classId other.name).isSome && decide (other.name = info.name)) with
    | none =>
        have missed := List.find?_eq_none.mp found info (List.mem_reverse.mpr member)
        simp only [own, decide_true, Bool.and_self, not_true] at missed
    | some other =>
        have present := List.mem_reverse.mp (List.mem_of_find?_eq_some found)
        have tested := List.find?_some found
        simp only [Bool.and_eq_true, decide_eq_true_eq] at tested
        rw [List.inj_on_of_nodup_map distinct present member tested.2]

/-- The header in use for a name does not depend on the order of the classes. -/
theorem hierarchy_of_perm {classes others : List ClassInfo} (perm : classes.Perm others)
    (distinct : (classes.map ClassInfo.name).Nodup) (binary : Str) :
    (scanClasses settings index classes).hierarchy.get? binary =
      (scanClasses settings index others).hierarchy.get? binary := by
  have distinctToo : (others.map ClassInfo.name).Nodup :=
    (perm.map ClassInfo.name).nodup_iff.mp distinct
  ext header
  rw [get?_hierarchy_iff distinct, get?_hierarchy_iff distinctToo]
  simp only [perm.mem_iff]

/-- The own nodes are kept for the names with a header. -/
theorem ownClassIds_scanClasses (classes : List ClassInfo) (binary : Str) :
    (scanClasses settings index classes).ownClassIds.get? binary =
      ((scanClasses settings index classes).hierarchy.get? binary).bind
        fun _ => index.classId binary := by
  refine foldl_preserves (fun scan : Scan => scan.ownClassIds.get? binary =
    (scan.hierarchy.get? binary).bind fun _ => index.classId binary) classes ?_ {} rfl
  intro scan info _ kept
  cases owned : ownerOf index info with
  | none => simpa only [scanClass, owned] using kept
  | some owner =>
      have entered := headers_scanClass settings scan owned
      simp only [Scan.headers, Prod.mk.injEq] at entered
      rw [entered.2.2.1, entered.2.2.2]
      have own := own_of_ownerOf owned
      unfold scanHeader
      cases found : owner.own with
      | none => exact kept
      | some id =>
          simp only [Option.isSome_some, ↓reduceIte, Dict.get?_set]
          split
          · next same => rw [same, Option.bind_some, ← own, found]
          · exact kept

end Headers

section Stage

variable {index : NodeIndex} {headers others : Headers}

/-- Headers with equal lookups have the same ancestors. -/
theorem ancestor_congr (same : ∀ binary, headers.get? binary = others.get? binary) :
    Ancestor headers = Ancestor others := by
  have step : Supertype headers = Supertype others := by
    funext binary ancestor
    simp only [Supertype, supertypes, same]
  unfold Ancestor
  rw [step]

/-- Headers with equal lookups answer completely for the same classes. -/
theorem chainComplete_congr (same : ∀ binary, headers.get? binary = others.get? binary)
    (binary : Str) :
    chainComplete index headers (ancestorChain headers binary) =
      chainComplete index others (ancestorChain others binary) := by
  rw [Bool.eq_iff_iff]
  simp only [chainComplete, List.all_eq_true, mem_ancestorChain, ancestor_congr same, same]

/-- A header file is one of a class with a header. -/
theorem mem_hierarchyFiles_iff {osSep : Char} {ownClassIds : Dict Str NodeId} {path : Str} :
    path ∈ hierarchyFiles index osSep headers ownClassIds ↔
      ∃ binary, (∃ header, headers.get? binary = some header) ∧
        ∃ src, ownClassIds.get? binary = some src ∧ index.fileOf src ≠ [] ∧
          path ∈ spellings osSep (index.fileOf src) := by
  simp only [hierarchyFiles, List.mem_flatMap, Dict.mem_keys_iff]
  refine exists_congr fun binary => and_congr_right fun _ => ?_
  cases ownClassIds.get? binary with
  | none => simp only [List.not_mem_nil, reduceCtorEq, false_and, exists_false]
  | some src =>
      by_cases placed : index.fileOf src = []
      · simp only [placed, ↓reduceIte, List.not_mem_nil, Option.some.injEq, exists_eq_left', ne_eq,
          not_true, false_and]
      · simp only [placed, ↓reduceIte, Option.some.injEq, exists_eq_left', ne_eq,
          not_false_eq_true, true_and]

end Stage

section Order

variable {settings : Settings} {nodes : List Node} {classes others : List ClassInfo}

/-- Two outcomes agree: both are kept or both discarded, and they have the same
edge keys, the same synthesized ids and the same claims. -/
structure Outcome.Agrees (first second : Outcome) : Prop where
  available : first.report.available = second.report.available
  edges : ∀ key, Kept.HasEdge first key ↔ Kept.HasEdge second key
  synthesized : ∀ id, (∃ node ∈ first.synthesized, node.id = id) ↔
    ∃ node ∈ second.synthesized, node.id = id
  authoritative : ∀ id, id ∈ first.report.authoritativeOverrideMethods ↔
    id ∈ second.report.authoritativeOverrideMethods
  pairs : ∀ pair, pair ∈ first.report.emittedOverridePairs ↔
    pair ∈ second.report.emittedOverridePairs
  attributed : ∀ path, path ∈ first.report.attributedFiles ↔ path ∈ second.report.attributedFiles
  headers : ∀ path, path ∈ first.report.hierarchyFiles ↔ path ∈ second.report.hierarchyFiles

/-- Two runs agree: both raise, or their outcomes agree. -/
def RunsAgree : Except ClassFileError Outcome → Except ClassFileError Outcome → Prop
  | .ok first, .ok second => first.Agrees second
  | .error _, .error _ => True
  | _, _ => False

/-- The same classes attribute the same files. -/
theorem attributed_congr (same : ∀ info, info ∈ classes ↔ info ∈ others) (path : Str) :
    path ∈ (scanned settings nodes classes).attributed ↔
      path ∈ (scanned settings nodes others).attributed := by
  simp only [scanned, mem_attributed, same]

/-- Whether a pass is discarded depends on the number of its classes and the callers of
its methods. -/
theorem discarded_of_callers
    (counted : (scanned settings nodes classes).classesInRepo =
      (scanned settings nodes others).classesInRepo)
    (perm : (callers settings (NodeIndex.build nodes) classes).Perm
      (callers settings (NodeIndex.build nodes) others)) :
    (discardReason settings nodes classes).isNone =
      (discardReason settings nodes others).isNone := by
  have rate := matchRate_of_callers perm
  unfold scanned at counted
  unfold discardReason scanned
  by_cases absent : (scanClasses settings (NodeIndex.build nodes) others).classesInRepo = 0
  · simp only [counted, absent, ↓reduceIte, Option.isNone_some]
  by_cases stale : (scanClasses settings (NodeIndex.build nodes) others).stats.matchRate <
      settings.minMatchRate
  · simp only [counted, absent, rate, stale, ↓reduceIte, Option.isNone_some]
  · simp only [counted, absent, rate, stale, ↓reduceIte]

/-- The same classes bring the same synthesized ids. -/
theorem synthesized_congr (same : ∀ info, info ∈ classes ↔ info ∈ others) (id : NodeId) :
    (∃ node ∈ (scanned settings nodes classes).synthesized, node.id = id) ↔
      ∃ node ∈ (scanned settings nodes others).synthesized, node.id = id := by
  simp only [scanned, exists_synthesized_iff, mem_callers_congr same, mem_bodies_congr same]

/-- The same classes bring the same edges of the scan. -/
theorem log_congr (same : ∀ info, info ∈ classes ↔ info ∈ others) (key : EdgeKey) :
    (scanned settings nodes classes).log.Has key ↔
      (scanned settings nodes others).log.Has key := by
  simp only [scanned, has_scanClasses, mem_bodies_congr same]

/-- Of the same classes the same methods are remembered. -/
theorem declared_congr (same : ∀ info, info ∈ classes ↔ info ∈ others) (binary : Str)
    (entry : MethodInfo × NodeId) :
    entry ∈ (scanned settings nodes classes).declaredMethods.getD binary [] ↔
      entry ∈ (scanned settings nodes others).declaredMethods.getD binary [] := by
  simp only [scanned, mem_declaredMethods, mem_bodies_congr same]

/-- The hierarchy stage starts without OVERRIDES edges. -/
theorem fresh_of_scanned (ownClassIds : Dict Str NodeId) (entries : List (Str × Str × List Str))
    (src dst : NodeId) :
    ¬ (entries.foldl (emitHeader (NodeIndex.build nodes) ownClassIds)
      (scanned settings nodes classes).log).Has (.overrides, src, dst) := by
  rw [has_emitHeaders_of_other (by simp only [ne_eq, reduceCtorEq, not_false_eq_true, and_self])]
  exact not_has_overrides_scanned settings nodes classes src dst

/-- The pairs of a pass are the ends of its OVERRIDES edges. -/
theorem paired_derived : (derived settings nodes classes).Paired :=
  paired_overridesOf _ _ _ (fresh_of_scanned _ _)

/-- The edges after the hierarchy stage do not depend on the order of the
classes. -/
theorem derived_of_perm (perm : classes.Perm others)
    (distinct : (classes.map ClassInfo.name).Nodup) (key : EdgeKey) :
    (derived settings nodes classes).log.Has key ↔ (derived settings nodes others).log.Has key := by
  have same : ∀ binary, (scanned settings nodes classes).hierarchy.get? binary =
      (scanned settings nodes others).hierarchy.get? binary := hierarchy_of_perm perm distinct
  have own : ∀ binary, (scanned settings nodes classes).ownClassIds.get? binary =
      (scanned settings nodes others).ownClassIds.get? binary := by
    intro binary
    simp only [scanned, ownClassIds_scanClasses, hierarchy_of_perm perm distinct]
  have emitted : ∀ entry,
      HeaderEmits (NodeIndex.build nodes) (scanned settings nodes classes).ownClassIds entry key ↔
        HeaderEmits (NodeIndex.build nodes) (scanned settings nodes others).ownClassIds entry
          key := by
    intro entry
    simp only [HeaderEmits, own]
  have entered : ∀ entry, entry ∈ (scanned settings nodes classes).hierarchy.entries ↔
      entry ∈ (scanned settings nodes others).hierarchy.entries := by
    intro entry
    rw [Dict.mem_entries_iff, Dict.mem_entries_iff, same]
  simp only [derived, has_overridesOf, has_emitHeaders, log_congr fun _ => perm.mem_iff,
    declared_congr fun _ => perm.mem_iff, ancestor_congr same, emitted, entered]

/-- Kept outcomes agree whatever the order of the classes. -/
theorem agrees_keptOutcome (perm : classes.Perm others)
    (distinct : (classes.map ClassInfo.name).Nodup) :
    (keptOutcome settings nodes classes).Agrees (keptOutcome settings nodes others) where
  available := rfl
  edges := derived_of_perm perm distinct
  synthesized := synthesized_congr fun _ => perm.mem_iff
  authoritative := by
    intro id
    have same : ∀ binary, (scanned settings nodes classes).hierarchy.get? binary =
        (scanned settings nodes others).hierarchy.get? binary := hierarchy_of_perm perm distinct
    simp only [keptOutcome, derived, mem_authoritative, chainComplete_congr same,
      declared_congr fun _ => perm.mem_iff]
  pairs := by
    rintro ⟨src, dst⟩
    exact (paired_derived src dst).trans ((derived_of_perm perm distinct _).trans
      (paired_derived src dst).symm)
  attributed := attributed_congr fun _ => perm.mem_iff
  headers := by
    intro path
    simp only [keptOutcome, mem_hierarchyFiles_iff, scanned, ownClassIds_scanClasses,
      hierarchy_of_perm perm distinct]

/-- Discarded outcomes agree whatever the order of the classes. -/
theorem agrees_discardedOutcome (perm : classes.Perm others) (reason other : Discard) :
    (discardedOutcome settings nodes classes reason).Agrees
      (discardedOutcome settings nodes others other) where
  available := rfl
  edges := fun _ => Iff.rfl
  synthesized := fun _ => Iff.rfl
  authoritative := fun _ => Iff.rfl
  pairs := fun _ => Iff.rfl
  attributed := attributed_congr fun _ => perm.mem_iff
  headers := fun _ => Iff.rfl

/-- **Class order.** The pass over classes with distinct binary names comes out
the same in every order of the classes. -/
theorem resolveJavaBytecode_perm (perm : classes.Perm others)
    (distinct : (classes.map ClassInfo.name).Nodup) :
    RunsAgree (resolveJavaBytecode settings nodes classes)
      (resolveJavaBytecode settings nodes others) := by
  have raises := raised_of_callers (@perm_callers settings (NodeIndex.build nodes) _ _ perm)
  have discards := discarded_of_callers (classesInRepo_of_perm perm)
    (@perm_callers settings (NodeIndex.build nodes) _ _ perm)
  change (scanned settings nodes classes).raised.isSome =
    (scanned settings nodes others).raised.isSome at raises
  unfold resolveJavaBytecode
  cases first : (scanned settings nodes classes).raised with
  | some error =>
      cases second : (scanned settings nodes others).raised with
      | some other => trivial
      | none => simp only [first, second, Option.isSome_some, Option.isSome_none,
          Bool.true_eq_false] at raises
  | none =>
      cases second : (scanned settings nodes others).raised with
      | some other => simp only [first, second, Option.isSome_some, Option.isSome_none,
          Bool.false_eq_true] at raises
      | none =>
          cases dropped : discardReason settings nodes classes with
          | some reason =>
              cases droppedToo : discardReason settings nodes others with
              | some other => exact agrees_discardedOutcome perm reason other
              | none => simp only [dropped, droppedToo, Option.isNone_some, Option.isNone_none,
                  Bool.false_eq_true] at discards
          | none =>
              cases droppedToo : discardReason settings nodes others with
              | some other => simp only [dropped, droppedToo, Option.isNone_some,
                  Option.isNone_none, Bool.true_eq_false] at discards
              | none => exact agrees_keptOutcome perm distinct

/-- The classes of an inherited call, subclasses first. -/
theorem inheritedClasses_reversed :
    RunsAgree (resolveJavaBytecode sampleSettings inheritedNodes inheritedClasses)
      (resolveJavaBytecode sampleSettings inheritedNodes inheritedClasses.reverse) :=
  resolveJavaBytecode_perm (List.reverse_perm _).symm (by decide)

end Order

end GraphIngest.Bytecode
