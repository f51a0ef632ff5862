import GraphIngest.Bytecode.BodyCoverage
import GraphIngest.External.Taint

/-! # External facts of the bytecode pass

The taint facts of a function are those of the catalogued calls in the bodies
charged to it: walking a body records each of its calls once, and nothing else
touches the marks. The ends of an external edge are nodes: the caller is
extracted or synthesized, the target is synthesized no later than the edge.
-/

namespace GraphIngest.Bytecode

open Foundation Text Graph External

/-- The properties stamped on the node of a function. -/
def TaintMarks.stamp (marks : TaintMarks) (id : NodeId) : FunctionTaint where
  categories := marks.sinkKinds.getD id []
  source := decide (id ∈ marks.sources)
  sanitizer := decide (id ∈ marks.sanitizers)
  sites := marks.sites.getD id []

section Marks

variable {settings : Settings} {index : NodeIndex}

/-- A call records what the catalog knows of it, unless it is dynamic. -/
theorem marks_scanInvocation (caller : NodeId) (file : Str) (scan : Scan) (inv : Invocation) :
    (scanInvocation settings index caller file scan inv).marks =
      if inv.opcode = .invokedynamic then scan.marks
      else scan.marks.record settings.catalog caller inv := by
  unfold scanInvocation
  split
  · rfl
  · unfold scanCall
    split <;> (unfold scanExternal; split <;> rfl)

theorem marks_scanAccess (caller : NodeId) (file : Str) (scan : Scan) (access : FieldAccess) :
    (scanAccess index caller file scan access).marks = scan.marks := by
  unfold scanAccess
  split <;> rfl

/-- A declaration records nothing. -/
theorem marks_scanDeclared (info : ClassInfo) (owner : Owner) (method : MethodInfo)
    (caller : NodeId) (scan : Scan) :
    (scanDeclared info owner method caller scan).marks = scan.marks := by
  unfold scanDeclared
  split <;> rfl

variable {holds : TaintMarks → Prop} {source : NodeId → Invocation → Prop}

/-- A body records what its calls record. -/
theorem marks_scanBody (recorded : ∀ marks caller inv,
      holds (marks.record settings.catalog caller inv) ↔ holds marks ∨ source caller inv)
    (caller : NodeId) (file : Str) (method : MethodInfo) (scan : Scan) :
    holds (scanBody settings index caller file method scan).marks ↔
      holds scan.marks ∨
        ∃ inv ∈ method.invocations, inv.opcode ≠ .invokedynamic ∧ source caller inv := by
  unfold scanBody
  rw [foldl_frame Scan.marks (marks_scanAccess caller file)]
  refine foldl_iff (fun scan : Scan => holds scan.marks) ?_ method.invocations scan
  intro state inv
  rw [marks_scanInvocation]
  split
  · next dynamic => simp only [dynamic, ne_eq, not_true, false_and, or_false]
  · next static => rw [recorded]; simp only [ne_eq, static, not_false_eq_true, true_and]

/-- A method records what its calls record. -/
theorem marks_scanMethod (recorded : ∀ marks caller inv,
      holds (marks.record settings.catalog caller inv) ↔ holds marks ∨ source caller inv)
    (info : ClassInfo) (owner : Owner) (scan : Scan) (method : MethodInfo) :
    holds (scanMethod settings index info owner scan method).marks ↔
      holds scan.marks ∨ ∃ caller, (callerOf settings index info owner method).id? = some caller ∧
        ∃ inv ∈ method.invocations, inv.opcode ≠ .invokedynamic ∧ source caller inv := by
  unfold scanMethod
  cases called : callerOf settings index info owner method with
  | synthesized node =>
      simp only [marks_scanBody recorded, marks_scanDeclared, Caller.id?, Option.some.injEq,
        exists_eq_left']
  | looked result =>
      cases result with
      | matched caller =>
          simp only [marks_scanBody recorded, marks_scanDeclared, Caller.id?, Option.some.injEq,
            exists_eq_left']
      | _ => simp only [Caller.id?, reduceCtorEq, false_and, exists_false, or_false]
  | _ => simp only [Caller.id?, reduceCtorEq, false_and, exists_false, or_false]

/-- **Taint facts.** A fact that recording a call brings about holds in the end
exactly when a call of a walked body brings it about. -/
theorem marks_scanClasses (recorded : ∀ marks caller inv,
      holds (marks.record settings.catalog caller inv) ↔ holds marks ∨ source caller inv)
    (classes : List ClassInfo) :
    holds (scanClasses settings index classes).marks ↔
      holds {} ∨ ∃ body ∈ bodies settings index classes, ∃ inv ∈ body.method.invocations,
        inv.opcode ≠ .invokedynamic ∧ source body.caller inv := by
  exact @scanClasses_iff settings index (fun scan => holds scan.marks)
    (fun body => ∃ inv ∈ body.method.invocations,
      inv.opcode ≠ .invokedynamic ∧ source body.caller inv)
    (fun _ _ _ => Iff.rfl) (marks_scanMethod recorded) classes

/-- **Taint facts of a function.** A fact that a call brings about for its own
function holds in the end exactly when a call of a body charged to the function
brings it about. -/
theorem marks_scanClasses_of {id : NodeId} {fact : Invocation → Prop}
    (recorded : ∀ marks caller inv, holds (marks.record settings.catalog caller inv) ↔
      holds marks ∨ caller = id ∧ fact inv)
    (classes : List ClassInfo) :
    holds (scanClasses settings index classes).marks ↔
      holds {} ∨ ∃ body ∈ bodies settings index classes, body.caller = id ∧
        ∃ inv ∈ body.method.invocations, inv.opcode ≠ .invokedynamic ∧ fact inv := by
  rw [marks_scanClasses recorded]
  refine or_congr_right (exists_congr fun body => and_congr_right fun _ => ?_)
  constructor
  · rintro ⟨inv, listed, static, same, brought⟩
    exact ⟨same, inv, listed, static, brought⟩
  · rintro ⟨same, inv, listed, static, brought⟩
    exact ⟨inv, listed, static, same, brought⟩

/-- A flag is set for the caller only. -/
theorem mem_insert_if {test : Prop} [Decidable test] {ids : List NodeId} {caller id : NodeId} :
    id ∈ (if test then ids.insert caller else ids) ↔ id ∈ ids ∨ caller = id ∧ test := by
  split
  · next holds =>
      rw [List.mem_insert_iff, or_comm, eq_comm, and_iff_left holds]
  · next fails => simp only [fails, and_false, or_false]

/-- A site is added to the function of its call only. -/
theorem sanitizing_append {sites : Dict NodeId (List TaintSite)} {caller id : NodeId}
    {site : TaintSite} :
    (∃ other ∈ (sites.append caller site).getD id [], other.role = .sanitizer) ↔
      (∃ other ∈ sites.getD id [], other.role = .sanitizer) ∨
        caller = id ∧ site.role = .sanitizer := by
  rw [Dict.getD_append]
  by_cases here : id = caller
  · subst here
    simp only [↓reduceIte, List.mem_append, List.mem_singleton, or_and_right, exists_or,
      exists_eq_left, true_and]
  · simp only [here, ↓reduceIte, Ne.symm here, false_and, or_false]

/-- Recording a call makes its own function show it. -/
theorem shows_record {marks : TaintMarks} {catalog : Catalog} {caller id : NodeId}
    {inv : Invocation} {entry : Entry} :
    ((marks.record catalog caller inv).stamp id).Shows entry ↔
      (marks.stamp id).Shows entry ∨ caller = id ∧
        ∃ hit ∈ classifyTaint catalog inv.owner inv.name, Alike hit.1 entry := by
  unfold TaintMarks.record
  cases found : classifyTaint catalog inv.owner inv.name with
  | none => simp only [Option.mem_def, reduceCtorEq, false_and, exists_false, and_false, or_false]
  | some hit =>
      obtain ⟨fact, positions⟩ := hit
      simp only [Option.mem_def, Option.some.injEq, exists_eq_left']
      unfold FunctionTaint.Shows TaintMarks.stamp Alike
      cases role : entry.role with
      | sink =>
          by_cases same : fact.role = .sink
          · by_cases here : id = caller
            · subst here
              simp only [same, ↓reduceIte, Dict.getD, Dict.get?_set, Option.getD_some,
                List.mem_insert_iff, true_and, true_implies]
              rw [or_comm, eq_comm]
            · simp only [same, ↓reduceIte, Dict.getD, Dict.get?_set, here, Ne.symm here, false_and,
                or_false]
          · simp only [same, ↓reduceIte, false_and, and_false, or_false]
      | source =>
          simp only [decide_eq_true_eq, mem_insert_if, reduceCtorEq, false_implies, and_true]
      | sanitizer =>
          have placed : (∃ site ∈ (if inv.line ≠ 0 then marks.sites.append caller
                ⟨inv.line, fact.category, fact.role, positions⟩ else marks.sites).getD id [],
              site.role = .sanitizer) ↔
                (∃ site ∈ marks.sites.getD id [], site.role = .sanitizer) ∨
                  inv.line ≠ 0 ∧ caller = id ∧ fact.role = .sanitizer := by
            split
            · next lined => rw [sanitizing_append, and_iff_right lined]
            · next lined => simp only [lined, false_and, or_false]
          simp only [decide_eq_true_eq, mem_insert_if, placed, reduceCtorEq, false_implies, and_true]
          constructor
          · rintro ((before | now) | (before | ⟨_, now⟩))
            · exact Or.inl (Or.inl before)
            · exact Or.inr now
            · exact Or.inl (Or.inr before)
            · exact Or.inr now
          · rintro ((before | before) | now)
            · exact Or.inl (Or.inl before)
            · exact Or.inr (Or.inl before)
            · exact Or.inl (Or.inr now)

/-- The stamp of a function shows the catalogued calls of the bodies charged to
it. -/
theorem shows_stamp_scanClasses {classes : List ClassInfo} {id : NodeId} {entry : Entry} :
    ((scanClasses settings index classes).marks.stamp id).Shows entry ↔
      ∃ body ∈ bodies settings index classes, body.caller = id ∧
        ∃ inv ∈ body.method.invocations, inv.opcode ≠ .invokedynamic ∧
          ∃ hit ∈ classifyTaint settings.catalog inv.owner inv.name, Alike hit.1 entry := by
  have blank : ({} : TaintMarks).stamp id = {} := by
    simp only [TaintMarks.stamp, List.not_mem_nil, decide_false]
    rfl
  have collected := @marks_scanClasses_of settings index
    (fun marks => (marks.stamp id).Shows entry) id _ (fun _ _ _ => shows_record) classes
  rw [collected, blank, or_iff_right (not_shows_empty entry)]

/-- The sanitizer flag of a function is that of the sanitizers called in the
bodies charged to it. -/
theorem sanitizer_stamp_scanClasses {classes : List ClassInfo} {id : NodeId} :
    ((scanClasses settings index classes).marks.stamp id).sanitizer = true ↔
      ∃ body ∈ bodies settings index classes, body.caller = id ∧
        ∃ inv ∈ body.method.invocations, inv.opcode ≠ .invokedynamic ∧
          ∃ hit ∈ classifyTaint settings.catalog inv.owner inv.name,
            hit.1.role = .sanitizer := by
  have recorded : ∀ (marks : TaintMarks) (caller : NodeId) (inv : Invocation),
      id ∈ (marks.record settings.catalog caller inv).sanitizers ↔ id ∈ marks.sanitizers ∨
        caller = id ∧ ∃ hit ∈ classifyTaint settings.catalog inv.owner inv.name,
          hit.1.role = .sanitizer := by
    intro marks caller inv
    unfold TaintMarks.record
    cases classifyTaint settings.catalog inv.owner inv.name with
    | none =>
        simp only [Option.mem_def, reduceCtorEq, false_and, exists_false, and_false, or_false]
    | some hit =>
        obtain ⟨fact, positions⟩ := hit
        simp only [Option.mem_def, Option.some.injEq, exists_eq_left']
        exact mem_insert_if
  have collected := @marks_scanClasses_of settings index (fun marks => id ∈ marks.sanitizers) id _
    recorded classes
  simp only [TaintMarks.stamp, decide_eq_true_eq]
  rw [collected, or_iff_right List.not_mem_nil]

end Marks

section Ends

variable {settings : Settings} {index : NodeIndex}

/-- Every recorded external target has its node. -/
def Scan.TargetsMade (scan : Scan) : Prop :=
  ∀ id ∈ scan.externalIds, ∃ node ∈ scan.synthesized, node.id = id

/-- A call with a kind has its target made. -/
theorem targetsMade_scanInvocation (caller : NodeId) (file : Str) (scan : Scan) (inv : Invocation)
    (made : scan.TargetsMade) :
    (scanInvocation settings index caller file scan inv).TargetsMade := by
  have external : (scanExternal settings caller file
      { scan with marks := scan.marks.record settings.catalog caller inv } inv).TargetsMade := by
    unfold scanExternal
    split
    · exact made
    · next kind _ =>
        intro id listed
        dsimp only at listed ⊢
        split at listed
        · next before =>
            obtain ⟨node, present, same⟩ := made id listed
            rw [if_pos before]
            exact ⟨node, present, same⟩
        · next fresh =>
            rw [if_neg fresh]
            rcases List.mem_cons.mp listed with rfl | earlier
            · exact ⟨_, List.mem_append_right _ List.mem_cons_self, rfl⟩
            · obtain ⟨node, present, same⟩ := made id earlier
              exact ⟨node, List.mem_append_left _ present, same⟩
  unfold scanInvocation
  split
  · exact made
  · unfold scanCall
    split <;> exact external

theorem targetsMade_scanBody (caller : NodeId) (file : Str) (method : MethodInfo) (scan : Scan)
    (made : scan.TargetsMade) : (scanBody settings index caller file method scan).TargetsMade := by
  have walked : (method.invocations.foldl (scanInvocation settings index caller file)
      scan).TargetsMade :=
    foldl_preserves Scan.TargetsMade method.invocations
      (fun scan inv _ => targetsMade_scanInvocation caller file scan inv) scan made
  refine foldl_preserves Scan.TargetsMade method.fieldAccesses ?_ _ walked
  intro scan access _ held
  unfold scanAccess
  split <;> exact held

theorem targetsMade_scanDeclared (info : ClassInfo) (owner : Owner) (method : MethodInfo)
    (caller : NodeId) (scan : Scan) (made : scan.TargetsMade) :
    (scanDeclared info owner method caller scan).TargetsMade := by
  unfold scanDeclared
  split <;> exact made

theorem targetsMade_scanMethod (info : ClassInfo) (owner : Owner) (scan : Scan)
    (method : MethodInfo) (made : scan.TargetsMade) :
    (scanMethod settings index info owner scan method).TargetsMade := by
  unfold scanMethod
  split
  · exact made
  · exact made
  · exact made
  · apply targetsMade_scanBody
    apply targetsMade_scanDeclared
    intro id listed
    obtain ⟨node, present, same⟩ := made id listed
    exact ⟨node, List.mem_append_left _ present, same⟩
  · apply targetsMade_scanBody
    apply targetsMade_scanDeclared
    exact made
  · exact made

/-- After the scan every recorded external target has its node. -/
theorem targetsMade_scanClasses (classes : List ClassInfo) :
    (scanClasses settings index classes).TargetsMade := by
  apply @scanClasses_preserves settings index Scan.TargetsMade
  · exact fun _ _ _ made => made
  · exact targetsMade_scanMethod
  · intro id listed
    cases listed

/-- A call makes a stand-in where it has a kind. -/
theorem externalIds_scanInvocation {id : NodeId} (caller : NodeId) (file : Str) (scan : Scan)
    (inv : Invocation) :
    id ∈ (scanInvocation settings index caller file scan inv).externalIds ↔
      id ∈ scan.externalIds ∨ inv.opcode ≠ .invokedynamic ∧
        (invocationKind settings inv).isSome ∧
          externalId settings.makeId inv.owner inv.name = id := by
  unfold scanInvocation
  split
  · next dynamic => simp only [dynamic, ne_eq, not_true, false_and, or_false]
  · next static =>
      have called : ∀ scan : Scan, (scanCall index caller file scan inv).externalIds =
          scan.externalIds := by
        intro scan
        unfold scanCall
        split <;> rfl
      rw [called]
      unfold scanExternal
      cases invocationKind settings inv with
      | none => simp only [Option.isSome_none, Bool.false_eq_true, false_and, and_false, or_false]
      | some kind =>
          simp only [ne_eq, static, not_false_eq_true, Option.isSome_some, true_and]
          split
          · next before =>
              constructor
              · exact Or.inl
              · rintro (present | rfl)
                · exact present
                · exact before
          · rw [List.mem_cons, or_comm, eq_comm]

/-- A body makes the stand-ins of its calls. -/
theorem externalIds_scanBody {id : NodeId} (caller : NodeId) (file : Str) (method : MethodInfo)
    (scan : Scan) :
    id ∈ (scanBody settings index caller file method scan).externalIds ↔
      id ∈ scan.externalIds ∨ ∃ inv ∈ method.invocations, inv.opcode ≠ .invokedynamic ∧
        (invocationKind settings inv).isSome ∧
          externalId settings.makeId inv.owner inv.name = id := by
  have accessed : ∀ scan : Scan, ∀ access,
      (scanAccess index caller file scan access).externalIds = scan.externalIds := by
    intro scan access
    unfold scanAccess
    split <;> rfl
  unfold scanBody
  rw [foldl_frame Scan.externalIds accessed]
  exact foldl_iff (fun scan : Scan => id ∈ scan.externalIds)
    (fun scan inv => externalIds_scanInvocation caller file scan inv) method.invocations scan

theorem externalIds_scanDeclared (info : ClassInfo) (owner : Owner) (method : MethodInfo)
    (caller : NodeId) (scan : Scan) :
    (scanDeclared info owner method caller scan).externalIds = scan.externalIds := by
  unfold scanDeclared
  split <;> rfl

/-- A method brings the external targets of its body, when it is walked. -/
theorem externalIds_scanMethod {id : NodeId} (info : ClassInfo) (owner : Owner) (scan : Scan)
    (method : MethodInfo) :
    id ∈ (scanMethod settings index info owner scan method).externalIds ↔
      id ∈ scan.externalIds ∨
        ∃ caller, (callerOf settings index info owner method).id? = some caller ∧
          ∃ inv ∈ method.invocations, inv.opcode ≠ .invokedynamic ∧
            (invocationKind settings inv).isSome ∧
              externalId settings.makeId inv.owner inv.name = id := by
  unfold scanMethod
  cases callerOf settings index info owner method with
  | synthesized node =>
      simp only [externalIds_scanBody, externalIds_scanDeclared, Caller.id?, Option.some.injEq,
        exists_eq_left']
  | looked result =>
      cases result with
      | matched caller =>
          simp only [externalIds_scanBody, externalIds_scanDeclared, Caller.id?,
            Option.some.injEq, exists_eq_left']
      | _ => simp only [Caller.id?, reduceCtorEq, false_and, exists_false, or_false]
  | _ => simp only [Caller.id?, reduceCtorEq, false_and, exists_false, or_false]

/-- The external targets recorded are those of the recognised calls of walked bodies. -/
theorem mem_externalIds_scanClasses {classes : List ClassInfo} {id : NodeId} :
    id ∈ (scanClasses settings index classes).externalIds ↔
      ∃ body ∈ bodies settings index classes, ∃ inv ∈ body.method.invocations,
        inv.opcode ≠ .invokedynamic ∧ (invocationKind settings inv).isSome ∧
          externalId settings.makeId inv.owner inv.name = id := by
  have whole := @scanClasses_iff settings index (fun scan => id ∈ scan.externalIds)
    (fun body => ∃ inv ∈ body.method.invocations, inv.opcode ≠ .invokedynamic ∧
      (invocationKind settings inv).isSome ∧ externalId settings.makeId inv.owner inv.name = id)
    (fun _ _ _ => Iff.rfl) externalIds_scanMethod classes
  exact whole.trans (or_iff_right List.not_mem_nil)

/-- The target of a recognised call of a walked body is a synthesized node. -/
theorem exists_externalTarget {classes : List ClassInfo} {body : Body} {inv : Invocation}
    (walked : body ∈ bodies settings index classes) (called : inv ∈ body.method.invocations)
    (static : inv.opcode ≠ .invokedynamic) (recognised : (invocationKind settings inv).isSome) :
    ∃ node ∈ (scanClasses settings index classes).synthesized,
      node.id = externalId settings.makeId inv.owner inv.name := by
  apply targetsMade_scanClasses classes
  apply mem_externalIds_scanClasses.mpr
  exact ⟨body, walked, inv, called, static, recognised, rfl⟩

/-- The caller of a walked body is an extracted or a synthesized node. -/
theorem exists_caller {nodes : List Node} {classes : List ClassInfo} {body : Body}
    (walked : body ∈ bodies settings (NodeIndex.build nodes) classes) :
    ∃ node ∈ nodes ++ (scanned settings nodes classes).synthesized, node.id = body.caller := by
  obtain ⟨member, owned, declared, charged⟩ := mem_bodies_iff.mp walked
  cases called : callerOf settings (NodeIndex.build nodes) body.info body.owner body.method with
  | synthesized node =>
      rw [called, Caller.id?, Option.some.injEq] at charged
      exact ⟨node, List.mem_append_right _ (mem_synthesized member owned declared called), charged⟩
  | looked result =>
      cases result with
      | matched id =>
          rw [called, Caller.id?, Option.some.injEq] at charged
          subst charged
          obtain ⟨node, picks, same⟩ := picks_of_callerOf called
          exact ⟨node, List.mem_append_left _ picks.key.1, same⟩
      | _ => simp only [called, Caller.id?, reduceCtorEq] at charged
  | _ => simp only [called, Caller.id?, reduceCtorEq] at charged

end Ends

end GraphIngest.Bytecode
