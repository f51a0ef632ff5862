import GraphIngest.Bytecode.ClassOrder

/-! # What the pass keeps apart

Edges of instructions, of headers and of overrides are kept once for each key, and external
targets get one node each. The node made for a body is not looked for: it comes, with its
CONTAINS edge, as often as the body. So everything is apart where the nodes made for bodies
have ids of their own.
-/

namespace GraphIngest.Bytecode

open Foundation Text Graph External

section Distinctness

variable {settings : Settings} {index : NodeIndex}

/-- Whether an edge is of another type than CONTAINS. -/
def uncontaining (edge : Edge) : Bool := edge.type ≠ .contains

/-- The edges of the log but for CONTAINS edges are apart, and the CONTAINS edges end at these
nodes. -/
structure Charges (ids : List NodeId) (log : KeyedLog Edge.key) : Prop where
  apart : KeyedLog.Distinct Edge.key uncontaining log
  charged : (log.entries.filter fun edge => !uncontaining edge).map Edge.dst = ids

/-- An edge of another type charges nothing. -/
theorem Charges.emit {ids : List NodeId} {log : KeyedLog Edge.key} (charges : Charges ids log)
    {edge : Edge} (other : edge.type ≠ .contains) : Charges ids (log.emit edge) where
  apart := charges.apart.emit edge
  charged := by
    have passes : uncontaining edge = true := decide_eq_true other
    unfold KeyedLog.emit
    split
    · exact charges.charged
    · simp only [List.filter_append, List.filter_cons, passes, Bool.not_true, Bool.false_eq_true,
        ↓reduceIte, List.filter_nil, List.append_nil, charges.charged]

/-- A `CONTAINS` edge charges the node it ends at. -/
theorem Charges.push {ids : List NodeId} {log : KeyedLog Edge.key} (charges : Charges ids log)
    {edge : Edge} (contains : edge.type = .contains) :
    Charges (ids ++ [edge.dst]) (log.push edge) where
  apart := charges.apart.push (by rw [uncontaining, contains]; rfl)
  charged := by
    have fails : uncontaining edge = false := by rw [uncontaining, contains]; rfl
    simp only [KeyedLog.push, List.filter_append, List.filter_cons, fails, Bool.not_false,
      ↓reduceIte, List.filter_nil, List.map_append, List.map_cons, List.map_nil, charges.charged]

/-- Where the CONTAINS edges end at distinct nodes, all edges are apart. -/
theorem Charges.nodup {ids : List NodeId} {log : KeyedLog Edge.key} (charges : Charges ids log)
    (distinct : ids.Nodup) : (log.entries.map Edge.key).Nodup := by
  have split := (List.filter_append_perm uncontaining log.entries).map Edge.key
  rw [← split.nodup_iff, List.map_append]
  rw [← charges.charged] at distinct
  refine List.nodup_append.mpr ⟨charges.apart.nodup, ?_, ?_⟩
  · refine List.Nodup.of_map (fun key : EdgeKey => key.2.2) ?_
    rw [List.map_map]
    exact distinct
  · intro first listed second placed same
    obtain ⟨edge, passing, rfl⟩ := List.mem_map.mp listed
    obtain ⟨other, failing, rfl⟩ := List.mem_map.mp placed
    have passes := (List.mem_filter.mp passing).2
    have fails := (List.mem_filter.mp failing).2
    have types : edge.type = other.type := congrArg Prod.fst same
    rw [uncontaining, types] at passes
    rw [uncontaining, passes] at fails
    cases fails

/-- Whether a synthesized node stands for a body, not for an external target. -/
def inner (node : Node) : Bool := node.label ≠ .external

/-- The ids of the nodes made for bodies. -/
def Scan.made (scan : Scan) : List NodeId := (scan.synthesized.filter inner).map Node.id

/-- The ids of the nodes made for external targets. -/
def Scan.targets (scan : Scan) : List NodeId :=
  (scan.synthesized.filter fun node => !inner node).map Node.id

/-- What keeps the edges and nodes apart: a CONTAINS edge for each node made for a body, and one
node for each external target. -/
structure Scan.Apart (scan : Scan) : Prop where
  charges : Charges scan.made scan.log
  listed : scan.targets = scan.externalIds.reverse
  once : scan.externalIds.Nodup

/-- A call of an external method keeps the two logs apart. -/
theorem apart_scanExternal (caller : NodeId) (file : Str) (inv : Invocation) {scan : Scan}
    (apart : scan.Apart) : (scanExternal settings caller file scan inv).Apart := by
  unfold scanExternal
  cases invocationKind settings inv with
  | none => exact apart
  | some kind =>
      have charges : Charges scan.made (scan.log.emit (bytecodeEdge .callsExternal caller
          (externalId settings.makeId inv.owner inv.name) file inv.line)) :=
        apart.charges.emit nofun
      by_cases before : externalId settings.makeId inv.owner inv.name ∈ scan.externalIds
      · simp only [before, ↓reduceIte]
        exact ⟨charges, apart.listed, apart.once⟩
      · simp only [before, ↓reduceIte]
        refine ⟨?_, ?_, List.nodup_cons.mpr ⟨before, apart.once⟩⟩
        · rw [Scan.made, List.filter_append, List.map_append]
          exact (List.append_nil scan.made).symm ▸ charges
        · rw [Scan.targets, List.filter_append, List.map_append, List.reverse_cons, ← apart.listed]
          rfl

theorem apart_scanInvocation (caller : NodeId) (file : Str) (scan : Scan) (inv : Invocation)
    (apart : scan.Apart) : (scanInvocation settings index caller file scan inv).Apart := by
  have external : (scanExternal settings caller file
      { scan with marks := scan.marks.record settings.catalog caller inv } inv).Apart :=
    apart_scanExternal caller file inv ⟨apart.charges, apart.listed, apart.once⟩
  unfold scanInvocation
  split
  · exact apart
  · unfold scanCall
    split
    · exact external
    · exact ⟨external.charges.emit nofun, external.listed, external.once⟩

theorem apart_scanAccess (caller : NodeId) (file : Str) (scan : Scan) (access : FieldAccess)
    (apart : scan.Apart) : (scanAccess index caller file scan access).Apart := by
  unfold scanAccess
  split
  · exact ⟨apart.charges, apart.listed, apart.once⟩
  · refine ⟨apart.charges.emit ?_, apart.listed, apart.once⟩
    change accessType access ≠ .contains
    unfold accessType
    split <;> nofun

theorem apart_scanBody (caller : NodeId) (file : Str) (method : MethodInfo) {scan : Scan}
    (apart : scan.Apart) : (scanBody settings index caller file method scan).Apart :=
  foldl_preserves Scan.Apart _ (fun scan access _ => apart_scanAccess caller file scan access) _
    (foldl_preserves Scan.Apart _ (fun scan inv _ => apart_scanInvocation caller file scan inv) _
      apart)

theorem apart_scanDeclared (info : ClassInfo) (owner : Owner) (method : MethodInfo)
    (caller : NodeId) {scan : Scan} (apart : scan.Apart) :
    (scanDeclared info owner method caller scan).Apart := by
  unfold scanDeclared
  split
  · exact ⟨apart.charges, apart.listed, apart.once⟩
  · exact apart

/-- A method keeps the two logs apart. -/
theorem apart_scanMethod (info : ClassInfo) (owner : Owner) (scan : Scan) (method : MethodInfo)
    (apart : scan.Apart) : (scanMethod settings index info owner scan method).Apart := by
  unfold scanMethod
  split
  · exact ⟨apart.charges, apart.listed, apart.once⟩
  · exact ⟨apart.charges, apart.listed, apart.once⟩
  · exact ⟨apart.charges, apart.listed, apart.once⟩
  · next node called =>
      have label := label_of_synthesized called
      apply apart_scanBody
      apply apart_scanDeclared
      refine ⟨?_, ?_, apart.once⟩
      · have added : (scan.synthesized ++ [node]).filter inner =
            scan.synthesized.filter inner ++ [node] := by
          rw [List.filter_append, List.filter_singleton, inner, label]
          rfl
        have contains : (bytecodeEdge .contains owner.classId node.id owner.file
            method.startLine).type = .contains := rfl
        rw [Scan.made, added, List.map_append]
        exact apart.charges.push contains
      · have added : (scan.synthesized ++ [node]).filter (fun node => !inner node) =
            scan.synthesized.filter fun node => !inner node := by
          rw [List.filter_append, List.filter_singleton, inner, label]
          exact List.append_nil _
        rw [Scan.targets, added]
        exact apart.listed
  · exact apart_scanBody _ _ _
      (apart_scanDeclared _ _ _ _ ⟨apart.charges, apart.listed, apart.once⟩)
  · exact ⟨apart.charges, apart.listed, apart.once⟩

/-- **Apartness.** The scan keeps everything apart but the nodes it makes for bodies. -/
theorem apart_scanClasses (classes : List ClassInfo) :
    (scanClasses settings index classes).Apart := by
  apply @scanClasses_preserves settings index Scan.Apart
  · intro info owner scan apart
    exact ⟨apart.charges, apart.listed, apart.once⟩
  · exact apart_scanMethod
  · exact ⟨⟨KeyedLog.distinct_empty, rfl⟩, rfl, List.nodup_nil⟩

end Distinctness

section Made

variable (settings : Settings) (index : NodeIndex)

/-- The id of the node made for a caller. -/
def Caller.made : Caller → List NodeId
  | .synthesized node => [node.id]
  | _ => []

/-- The ids of the nodes made for the bodies of a class. -/
def madeOf (info : ClassInfo) : List NodeId :=
  (classCallers settings index info).flatMap Caller.made

variable {settings index}

theorem made_scanBody (caller : NodeId) (file : Str) (method : MethodInfo) (scan : Scan) :
    (scanBody settings index caller file method scan).made = scan.made := by
  have external : ∀ (scan : Scan) (inv : Invocation),
      (scanExternal settings caller file scan inv).made = scan.made := by
    intro scan inv
    unfold scanExternal
    split
    · rfl
    · unfold Scan.made
      dsimp only
      split
      · rfl
      · rw [List.filter_append]
        exact congrArg (List.map Node.id) (List.append_nil _)
  have called : ∀ scan inv,
      (scanInvocation settings index caller file scan inv).made = scan.made := by
    intro scan inv
    unfold scanInvocation
    split
    · rfl
    · unfold scanCall
      split <;> exact external _ inv
  have accessed : ∀ scan access,
      (scanAccess index caller file scan access).made = scan.made := by
    intro scan access
    unfold scanAccess
    split <;> rfl
  unfold scanBody
  rw [foldl_frame Scan.made accessed, foldl_frame Scan.made called]

/-- A method brings the node made for its caller. -/
theorem made_scanMethod (info : ClassInfo) (owner : Owner) (scan : Scan) (method : MethodInfo) :
    (scanMethod settings index info owner scan method).made =
      scan.made ++ (callerOf settings index info owner method).made := by
  have remembered : ∀ caller scan,
      (scanDeclared info owner method caller scan).made = scan.made := fun caller scan =>
    congrArg (fun nodes => (nodes.filter inner).map Node.id) (synthesized_scanDeclared ..)
  unfold scanMethod
  cases called : callerOf settings index info owner method with
  | synthesized node =>
      have passes : inner node = true := by
        rw [inner, label_of_synthesized called]
        rfl
      dsimp only
      rw [made_scanBody, remembered, Caller.made, Scan.made, List.filter_append,
        List.filter_singleton, passes, List.map_append]
      rfl
  | looked result =>
      cases result with
      | matched caller =>
          exact (made_scanBody ..).trans ((remembered ..).trans (List.append_nil _).symm)
      | _ => exact (List.append_nil _).symm
  | _ => exact (List.append_nil _).symm

/-- The nodes made for bodies, in the order of the classes. -/
theorem made_scanClasses (classes : List ClassInfo) :
    (scanClasses settings index classes).made = classes.flatMap (madeOf settings index) := by
  rw [@read_scanClasses settings index _ Scan.made (fun ids caller => ids ++ caller.made)
    (fun _ _ _ => rfl) made_scanMethod classes]
  refine (foldl_gathers id (fun _ _ => rfl) _ _).trans ?_
  rw [callers, List.flatMap_assoc]
  rfl

/-- The nodes made for bodies have ids of their own. -/
structure OwnIds (settings : Settings) (index : NodeIndex) (classes : List ClassInfo) : Prop where
  distinct : (classes.flatMap (madeOf settings index)).Nodup
  inner : ∀ id ∈ classes.flatMap (madeOf settings index), ∀ body ∈ bodies settings index classes,
    ¬ Targets settings body.method id

/-- The synthesized nodes have distinct ids if and only if those made for bodies have ids of their
own. -/
theorem nodup_synthesized_iff (classes : List ClassInfo) :
    ((scanClasses settings index classes).synthesized.map Node.id).Nodup ↔
      OwnIds settings index classes := by
  have apart := @apart_scanClasses settings index classes
  have split := (List.filter_append_perm inner
    (scanClasses settings index classes).synthesized).map Node.id
  rw [← split.nodup_iff, List.map_append]
  change (Scan.made _ ++ Scan.targets _).Nodup ↔ _
  rw [apart.listed, made_scanClasses, List.nodup_append]
  constructor
  · rintro ⟨distinct, _, disjoint⟩
    refine ⟨distinct, fun id made body walked targeted => ?_⟩
    have listed := mem_externalIds_scanClasses.mpr ⟨body, walked, targeted⟩
    exact disjoint id made id (List.mem_reverse.mpr listed) rfl
  · intro own
    refine ⟨own.distinct, List.nodup_reverse.mpr apart.once, fun id made other listed same => ?_⟩
    obtain ⟨body, walked, targeted⟩ := mem_externalIds_scanClasses.mp (List.mem_reverse.mp listed)
    exact own.inner id made body walked (same ▸ targeted)

/-- The edges of a header charge nothing. -/
theorem charges_emitHeader {ids : List NodeId} (ownClassIds : Dict Str NodeId)
    (log : KeyedLog Edge.key) (entry : Str × Str × List Str) (charges : Charges ids log) :
    Charges ids (emitHeader index ownClassIds log entry) := by
  unfold emitHeader
  split
  · exact charges
  · next src _ =>
      refine foldl_preserves (Charges ids) (headerTargets entry.2) ?_ log charges
      intro log target listed charges
      have other : target.1 ≠ .contains := by
        rcases List.mem_cons.mp listed with rfl | interface
        · nofun
        · obtain ⟨_, _, rfl⟩ := List.mem_map.mp interface
          nofun
      split
      · exact charges
      · split
        · exact charges
        · split
          · exact charges
          · exact charges.emit other

/-- The overrides of a method charge nothing. -/
theorem charges_overridesOfMethod {ids : List NodeId} (headers : Headers) (chain : List Str)
    (state : Overrides) (entry : MethodInfo × NodeId) (charges : Charges ids state.log) :
    Charges ids (overridesOfMethod index headers chain state entry).log := by
  have walked : Charges ids (chain.foldl (emitOverride index entry.1 entry.2) state).log := by
    refine foldl_preserves (fun state : Overrides => Charges ids state.log) chain ?_ state charges
    intro state ancestor _ charges
    unfold emitOverride
    split
    · exact charges
    · split
      · exact charges
      · exact charges.emit nofun
  unfold overridesOfMethod
  split <;> exact walked

/-- After the hierarchy stage the CONTAINS edges still end at the nodes made for bodies. -/
theorem charges_derived (settings : Settings) (nodes : List Node) (classes : List ClassInfo) :
    Charges (classes.flatMap (madeOf settings (NodeIndex.build nodes)))
      (derived settings nodes classes).log := by
  have scanning := (@apart_scanClasses settings (NodeIndex.build nodes) classes).charges
  rw [made_scanClasses] at scanning
  refine foldl_preserves (fun state : Overrides => Charges _ state.log) _ ?_ _ ?_
  · intro state entry _ charges
    exact foldl_preserves (fun state : Overrides => Charges _ state.log) entry.2
      (fun state method _ => charges_overridesOfMethod _ _ state method) state charges
  · exact foldl_preserves (Charges _) _ (fun log entry _ => charges_emitHeader _ log entry) _
      scanning

end Made

end GraphIngest.Bytecode
