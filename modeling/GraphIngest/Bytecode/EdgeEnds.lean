import GraphIngest.Bytecode.ClassOrder

/-! # The ends of the edges of the bytecode pass

The pass writes no edge itself; whoever writes its edges needs both ends to be there
first. Every end is an id that the index found among the nodes, or the id of a node that
the pass synthesized.
-/

namespace GraphIngest.Bytecode

open Foundation Text Graph External

section Lookups

variable {nodes : List Node}

/-- A class found is a listed node. -/
theorem exists_of_classes {fqn : Str} {id : NodeId}
    (found : (NodeIndex.build nodes).classes.get? fqn = some id) :
    ∃ node ∈ nodes, node.id = id := by
  have projected : (NodeIndex.build nodes).classes = nodes.foldl (fun dict node =>
      if decide (node.label = .cls) = true then dict.setdefault node.fqn node.id else dict)
      Dict.empty :=
    (List.foldl_hom NodeIndex.classes fun index node => by
      simp only [NodeIndex.add, decide_eq_true_eq]).symm
  rw [projected, Dict.get?_foldl_setdefault, Dict.get?_empty, Option.none_or,
    Option.map_eq_some_iff] at found
  obtain ⟨node, first, same⟩ := found
  exact ⟨node, List.mem_of_find?_eq_some first, same⟩

theorem exists_of_classId {binary : Str} {id : NodeId}
    (found : (NodeIndex.build nodes).classId binary = some id) : ∃ node ∈ nodes, node.id = id := by
  unfold NodeIndex.classId at found
  dsimp only at found
  split at found
  · cases found
  · exact exists_of_classes found

/-- The class a body is charged to is a listed node. -/
theorem exists_of_ownerOf {info : ClassInfo} {owner : Owner}
    (owned : ownerOf (NodeIndex.build nodes) info = some owner) :
    ∃ node ∈ nodes, node.id = owner.classId := by
  simp only [ownerOf, Option.ite_none_left_eq_some, Option.map_eq_some_iff] at owned
  obtain ⟨_, classId, found, rfl⟩ := owned
  cases own : (NodeIndex.build nodes).classId info.name with
  | some id =>
      rw [own, Option.some_or, Option.some.injEq] at found
      exact exists_of_classId (found ▸ own)
  | none =>
      rw [own, Option.none_or] at found
      exact exists_of_classId found

end Lookups

section Ends

variable {settings : Settings} {nodes : List Node} {classes : List ClassInfo}

/-- The id of a listed node or of one that the pass made. -/
def Present (settings : Settings) (nodes : List Node) (classes : List ClassInfo) (id : NodeId) :
    Prop :=
  ∃ node ∈ nodes ++ (scanned settings nodes classes).synthesized, node.id = id

theorem present_of_listed {id : NodeId} (listed : ∃ node ∈ nodes, node.id = id) :
    Present settings nodes classes id := by
  obtain ⟨node, member, same⟩ := listed
  exact ⟨node, List.mem_append_left _ member, same⟩

/-- Both ends of an edge of the scan are there. -/
theorem present_of_scanned {key : EdgeKey} (held : (scanned settings nodes classes).log.Has key) :
    Present settings nodes classes key.2.1 ∧ Present settings nodes classes key.2.2 := by
  obtain ⟨body, walked, carried⟩ := has_scanClasses.mp held
  have caller : Present settings nodes classes body.caller := exists_caller walked
  rcases carried with (⟨inv, called, static, emitted⟩ | ⟨access, _, target, found, rfl⟩) | ⟨_, rfl⟩
  · rcases emitted with ⟨recognised, rfl⟩ | ⟨callee, found, rfl⟩
    · obtain ⟨node, made, same⟩ := exists_externalTarget walked called static recognised
      exact ⟨caller, node, List.mem_append_right _ made, same⟩
    · obtain ⟨node, picks, same⟩ := methodId_build_eq_some.mp found
      exact ⟨caller, present_of_listed ⟨node, picks.key.1, same⟩⟩
  · obtain ⟨node, picks, same⟩ := fieldId_build_eq_some.mp found
    exact ⟨caller, present_of_listed ⟨node, List.mem_of_find?_eq_some picks.2, same⟩⟩
  · exact ⟨present_of_listed (exists_of_ownerOf (mem_bodies_iff.mp walked).2.1), caller⟩

/-- Both ends of a hierarchy edge are there. -/
theorem present_of_header {entry : Str × Str × List Str} {key : EdgeKey}
    (emits : HeaderEmits (NodeIndex.build nodes) (scanned settings nodes classes).ownClassIds entry
      key) :
    Present settings nodes classes key.2.1 ∧ Present settings nodes classes key.2.2 := by
  obtain ⟨src, own, target, _, _, dst, found, _, rfl⟩ := emits
  rw [scanned, ownClassIds_scanClasses, Option.bind_eq_some_iff] at own
  obtain ⟨_, _, own⟩ := own
  exact ⟨present_of_listed (exists_of_classId own), present_of_listed (exists_of_classId found)⟩

/-- Both ends of an override are there. -/
theorem present_of_override {binary ancestor : Str} {method : MethodInfo × NodeId} {key : EdgeKey}
    (remembered : method ∈ (scanned settings nodes classes).declaredMethods.getD binary [])
    (emits : OverrideEmits (NodeIndex.build nodes) method ancestor key) :
    Present settings nodes classes key.2.1 ∧ Present settings nodes classes key.2.2 := by
  obtain ⟨body, walked, _, _, _, rfl⟩ := mem_declaredMethods.mp remembered
  obtain ⟨target, found, _, rfl⟩ := emits
  obtain ⟨node, picks, same⟩ := overrideTarget_build_eq_some.mp found
  obtain ⟨_, wanted, _, single⟩ := picks
  have listed : node ∈ nodes := by
    have picked := single ▸ List.mem_singleton_self node
    exact (mem_methodNodes.mp (List.mem_of_mem_filter picked)).1
  exact ⟨exists_caller walked, present_of_listed ⟨node, listed, same⟩⟩

/-- **Ends.** Both ends of every edge of a kept pass are ids of listed nodes or of nodes that
the pass made. -/
theorem Kept.present {outcome : Outcome} (kept : Kept settings nodes classes outcome) {edge : Edge}
    (member : edge ∈ outcome.edges) :
    (∃ node ∈ nodes ++ outcome.synthesized, node.id = edge.src) ∧
      ∃ node ∈ nodes ++ outcome.synthesized, node.id = edge.dst := by
  rw [kept.eq_keptOutcome] at member ⊢
  have held : (derived settings nodes classes).log.Has edge.key := ⟨edge, member, rfl⟩
  unfold derived at held
  rw [has_overridesOf, has_emitHeaders] at held
  rcases held with (scan | ⟨entry, _, emits⟩) | ⟨binary, method, remembered, ancestor, _, emits⟩
  · exact present_of_scanned scan
  · exact present_of_header emits
  · exact present_of_override remembered emits

end Ends

end GraphIngest.Bytecode
