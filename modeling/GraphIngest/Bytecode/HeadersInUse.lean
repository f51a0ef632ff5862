import GraphIngest.Bytecode.ClassOrder

/-! # The headers in use

Of the classes with one name the last gives the header. The headers in use join the Class
nodes of the hierarchy, lead from a class to its ancestors, and so decide which methods
override which, and of which methods all overrides are known. Where no two names share a
node, the joins alone decide all of this.
-/

namespace GraphIngest.Bytecode

open Foundation Text Graph External

section InUse

variable (settings : Settings) (index : NodeIndex) (classes : List ClassInfo)

/-- The header in use for a binary name with a node: that of the last class of the name. -/
def headerIn (binary : Str) : Option (Str × List Str) :=
  (classes.reverse.find? fun info =>
    (index.classId info.name).isSome && decide (info.name = binary)).map fun info =>
      (info.superName, info.interfaces)

/-- A header in use names, at one Class node, another as a supertype. -/
def Joins (type : EdgeType) (src dst : NodeId) : Prop :=
  ∃ binary header, headerIn index classes binary = some header ∧
    index.classId binary = some src ∧ ∃ target ∈ headerTargets header, target.1 = type ∧
      target.2 ≠ [] ∧ index.classId target.2 = some dst ∧ dst ≠ src

/-- A supertype that the header in use of a name mentions. -/
def Parent (binary ancestor : Str) : Prop :=
  ancestor ∈ directAncestors (headerIn index classes binary) ∧ ancestor ≠ []

/-- A proper ancestor by the headers in use. -/
def Above (binary ancestor : Str) : Prop :=
  Relation.TransGen (Parent index classes) binary ancestor

/-- A body that can override, of a class with a node of its own. -/
def Overrider (src : NodeId) (body : Body) : Prop :=
  body ∈ bodies settings index classes ∧ body.caller = src ∧
    (index.classId body.info.name).isSome ∧ canOverride body.method

/-- A method overrides another in an ancestor of its class. -/
def Overridden (src dst : NodeId) : Prop :=
  ∃ body, Overrider settings index classes src body ∧ ∃ ancestor,
    Above index classes body.info.name ancestor ∧
      index.overrideTarget ancestor body.method.name body.method.descriptor = some dst ∧ dst ≠ src

/-- All ancestors of the class of a method are known. -/
def Vouched (id : NodeId) : Prop :=
  ∃ body, Overrider settings index classes id body ∧ ∀ ancestor,
    Above index classes body.info.name ancestor →
      (headerIn index classes ancestor).isSome ∨ index.classId ancestor = none

end InUse

section Yields

variable {settings : Settings} {nodes : List Node} {classes : List ClassInfo} {outcome : Outcome}

theorem get?_hierarchy_scanned (binary : Str) :
    (scanned settings nodes classes).hierarchy.get? binary =
      headerIn (NodeIndex.build nodes) classes binary :=
  hierarchy_scanClasses classes binary

theorem ancestor_scanned (binary ancestor : Str) :
    Ancestor (scanned settings nodes classes).hierarchy binary ancestor ↔
      Above (NodeIndex.build nodes) classes binary ancestor := by
  have step : Supertype (scanned settings nodes classes).hierarchy =
      Parent (NodeIndex.build nodes) classes := by
    funext first second
    rw [Supertype, supertypes, get?_hierarchy_scanned, Parent]
  rw [Ancestor, step, Above]

/-- The edges of the scan come from instructions or charge bodies. -/
theorem type_of_has_scanned {key : EdgeKey} (has : (scanned settings nodes classes).log.Has key) :
    key.1 ≠ .extends ∧ key.1 ≠ .implements ∧ key.1 ≠ .overrides := by
  rw [scanned, has_scanClasses] at has
  obtain ⟨body, _, (⟨_, _, _, ⟨_, rfl⟩ | ⟨_, _, rfl⟩⟩ | ⟨access, _, _, _, rfl⟩) | ⟨_, rfl⟩⟩ := has
  · simp only [ne_eq, reduceCtorEq, not_false_eq_true, and_self]
  · simp only [ne_eq, reduceCtorEq, not_false_eq_true, and_self]
  · unfold accessType
    split <;> simp only [ne_eq, reduceCtorEq, not_false_eq_true, and_self]
  · simp only [ne_eq, reduceCtorEq, not_false_eq_true, and_self]

theorem Joins.type {index : NodeIndex} {type : EdgeType} {src dst : NodeId}
    (joins : Joins index classes type src dst) : type = .extends ∨ type = .implements := by
  obtain ⟨_, _, _, _, _, listed, rfl, _⟩ := joins
  rcases List.mem_cons.mp listed with rfl | interface
  · exact .inl rfl
  · obtain ⟨_, _, rfl⟩ := List.mem_map.mp interface
    exact .inr rfl

/-- The headers carry the joins of those in use. -/
theorem exists_headerEmits_iff {type : EdgeType} {src dst : NodeId} :
    (∃ entry ∈ (scanned settings nodes classes).hierarchy.entries,
      HeaderEmits (NodeIndex.build nodes) (scanned settings nodes classes).ownClassIds entry
        (type, src, dst)) ↔ Joins (NodeIndex.build nodes) classes type src dst := by
  have own : ∀ binary header, headerIn (NodeIndex.build nodes) classes binary = some header →
      (scanned settings nodes classes).ownClassIds.get? binary =
        (NodeIndex.build nodes).classId binary := by
    intro binary header used
    rw [scanned, ownClassIds_scanClasses, hierarchy_scanClasses]
    rw [headerIn] at used
    rw [used, Option.bind_some]
  constructor
  · rintro ⟨⟨binary, header⟩, entered, place, placed, target, listed, filled, found, known, proper,
      same⟩
    have used := (get?_hierarchy_scanned binary).symm.trans ((Dict.mem_entries_iff _ _ _).mp entered)
    cases same
    exact ⟨binary, header, used, (own binary header used).symm.trans placed, target, listed, rfl,
      filled, known, proper⟩
  · rintro ⟨binary, header, used, placed, target, listed, rfl, filled, known, proper⟩
    exact ⟨(binary, header), (Dict.mem_entries_iff _ _ _).mpr ((get?_hierarchy_scanned binary).trans used),
      src, (own binary header used).trans placed, target, listed, filled, dst, known, proper, rfl⟩

/-- The hierarchy edges of a kept pass are the joins of the headers in use. -/
theorem Kept.hasEdge_iff_joins (kept : Kept settings nodes classes outcome) {type : EdgeType}
    {src dst : NodeId} (hierarchical : type = .extends ∨ type = .implements) :
    Kept.HasEdge outcome (type, src, dst) ↔ Joins (NodeIndex.build nodes) classes type src dst := by
  rw [Kept.HasEdge, kept.eq_keptOutcome]
  change (derived settings nodes classes).log.Has _ ↔ _
  unfold derived
  rw [has_overridesOf, has_emitHeaders, exists_headerEmits_iff]
  constructor
  · rintro ((scan | joins) | ⟨_, _, _, _, _, _, _, _, same⟩)
    · have other := type_of_has_scanned scan
      exact (hierarchical.elim other.1 other.2.1).elim
    · exact joins
    · cases same
      rcases hierarchical with same | same <;> cases same
  · exact fun joins => .inl (.inr joins)

/-- The OVERRIDES edges of a kept pass join the methods that override. -/
theorem Kept.hasEdge_iff_overridden (kept : Kept settings nodes classes outcome)
    {src dst : NodeId} :
    Kept.HasEdge outcome (.overrides, src, dst) ↔
      Overridden settings (NodeIndex.build nodes) classes src dst := by
  simp only [kept.has_overrides, Overridden, Overrider, and_assoc, ancestor_scanned,
    overrideTarget_build_eq_some]
  refine exists_congr fun body => and_congr_right fun _ => and_congr_right fun _ =>
    and_congr_right fun _ => and_congr_right fun _ => exists_congr fun ancestor =>
      and_congr_right fun _ => ?_
  simp only [← and_assoc, exists_and_right]

/-- A kept pass claims the methods vouched for. -/
theorem Kept.mem_authoritative_iff (kept : Kept settings nodes classes outcome) {id : NodeId} :
    id ∈ outcome.report.authoritativeOverrideMethods ↔
      Vouched settings (NodeIndex.build nodes) classes id := by
  simp only [kept.mem_authoritative, Vouched, Overrider, and_assoc, ancestor_scanned,
    get?_hierarchy_scanned]

end Yields

section NamesApart

/-- The names in the header of a class. -/
def mentioned (info : ClassInfo) : List Str := info.name :: info.superName :: info.interfaces

/-- No two names in the headers share a Class node, no class names itself as a supertype, and a
supertype without a node has no methods to override. -/
structure NamesApart (index : NodeIndex) (classes : List ClassInfo) : Prop where
  nodes : ∀ info ∈ classes, ∀ other ∈ classes, ∀ first ∈ mentioned info,
    ∀ second ∈ mentioned other, ∀ id, index.classId first = some id →
      index.classId second = some id → first = second
  proper : ∀ info ∈ classes, info.name ∉ info.superName :: info.interfaces
  foreign : ∀ info ∈ classes, ∀ ancestor ∈ info.superName :: info.interfaces,
    index.classId ancestor = none → ∀ name descriptor,
      index.overrideTarget ancestor name descriptor = none

variable {settings : Settings} {index : NodeIndex} {classes others : List ClassInfo}
  {binary ancestor : Str}

theorem exists_of_headerIn {header : Str × List Str}
    (used : headerIn index classes binary = some header) :
    ∃ info ∈ classes, info.name = binary ∧ (index.classId binary).isSome ∧
      (info.superName, info.interfaces) = header := by
  obtain ⟨info, found, same⟩ := Option.map_eq_some_iff.mp used
  have tested := List.find?_some found
  rw [Bool.and_eq_true, decide_eq_true_eq] at tested
  obtain ⟨own, rfl⟩ := tested
  exact ⟨info, List.mem_reverse.mp (List.mem_of_find?_eq_some found), rfl, own, same⟩

/-- The names with a header in use are those of the classes with a node. -/
theorem isSome_headerIn_iff :
    (headerIn index classes binary).isSome ↔
      (index.classId binary).isSome ∧ ∃ info ∈ classes, info.name = binary := by
  constructor
  · intro used
    obtain ⟨header, used⟩ := Option.isSome_iff_exists.mp used
    obtain ⟨info, listed, named, own, _⟩ := exists_of_headerIn used
    exact ⟨own, info, listed, named⟩
  · rintro ⟨own, info, listed, rfl⟩
    rw [headerIn, Option.isSome_map, List.find?_isSome]
    refine ⟨info, List.mem_reverse.mpr listed, ?_⟩
    rw [own, Bool.true_and, decide_eq_true_eq]

/-- The parents are the supertypes that the header in use names. -/
theorem parent_iff :
    Parent index classes binary ancestor ↔ ancestor ≠ [] ∧ ∃ header,
      headerIn index classes binary = some header ∧
        ∃ target ∈ headerTargets header, target.2 = ancestor := by
  rw [Parent, and_comm]
  refine and_congr_right fun filled => ?_
  cases headerIn index classes binary with
  | none => simp only [directAncestors, List.not_mem_nil, reduceCtorEq, false_and, exists_false]
  | some header =>
      simp only [directAncestors, Option.some.injEq, exists_eq_left', headerTargets,
        List.mem_cons, List.mem_map, exists_eq_or_imp, exists_exists_and_eq_and,
        exists_eq_right]
      by_cases topmost : header.1 = []
      · rw [if_pos topmost, topmost, or_iff_right (Ne.symm filled)]
      · rw [if_neg topmost, List.mem_cons, eq_comm]

/-- The supertype a target names is mentioned. -/
theorem mem_of_mem_headerTargets {info : ClassInfo} {target : EdgeType × Str}
    (listed : target ∈ headerTargets (info.superName, info.interfaces)) :
    target.2 ∈ info.superName :: info.interfaces := by
  rcases List.mem_cons.mp listed with rfl | interface
  · exact List.mem_cons_self
  · obtain ⟨_, named, rfl⟩ := List.mem_map.mp interface
    exact List.mem_cons_of_mem _ named

/-- A parent is mentioned in the header of a class. -/
theorem Parent.exists_mentions (parent : Parent index classes binary ancestor) :
    ∃ info ∈ classes, info.name = binary ∧ (index.classId binary).isSome ∧
      ancestor ∈ info.superName :: info.interfaces := by
  obtain ⟨_, header, used, target, listed, rfl⟩ := parent_iff.mp parent
  obtain ⟨info, present, named, own, rfl⟩ := exists_of_headerIn used
  exact ⟨info, present, named, own, mem_of_mem_headerTargets listed⟩

/-- The joins decide which classes of the repository are parents. -/
theorem Parent.transfer (known : others ⊆ classes) (apart : NamesApart index classes)
    (joins : ∀ type src dst, Joins index classes type src dst → Joins index others type src dst)
    (parent : Parent index classes binary ancestor) (own : (index.classId ancestor).isSome) :
    Parent index others binary ancestor := by
  obtain ⟨filled, header, used, target, listed, rfl⟩ := parent_iff.mp parent
  obtain ⟨info, present, rfl, placed, rfl⟩ := exists_of_headerIn used
  have above := mem_of_mem_headerTargets listed
  obtain ⟨src, placed⟩ := Option.isSome_iff_exists.mp placed
  obtain ⟨dst, found⟩ := Option.isSome_iff_exists.mp own
  have proper : dst ≠ src := by
    rintro rfl
    have loops := apart.nodes info present info present _ List.mem_cons_self _
      (List.mem_cons_of_mem _ above) dst placed found
    exact apart.proper info present (loops ▸ above)
  obtain ⟨name, _, usedToo, placedToo, targetToo, listedToo, _, filledToo, foundToo, _⟩ :=
    joins target.1 src dst
      ⟨info.name, _, used, placed, target, listed, rfl, filled, found, proper⟩
  obtain ⟨twin, presentToo, rfl, _, rfl⟩ := exists_of_headerIn usedToo
  -- The join is of the same two names.
  have names : twin.name = info.name := apart.nodes twin (known presentToo) info present _
    List.mem_cons_self _ List.mem_cons_self src placedToo placed
  have targets : targetToo.2 = target.2 := apart.nodes twin (known presentToo) info present _
    (List.mem_cons_of_mem _ (mem_of_mem_headerTargets listedToo)) _
    (List.mem_cons_of_mem _ above) dst foundToo found
  rw [names] at usedToo
  exact parent_iff.mpr ⟨filled, _, usedToo, targetToo, listedToo, targets⟩

/-- The joins decide which classes of the repository are ancestors: all that lead there are of
the repository. -/
theorem Above.transfer (known : others ⊆ classes) (apart : NamesApart index classes)
    (joins : ∀ type src dst, Joins index classes type src dst → Joins index others type src dst)
    (above : Above index classes binary ancestor) (own : (index.classId ancestor).isSome) :
    Above index others binary ancestor := by
  induction above with
  | single parent => exact .single (parent.transfer known apart joins own)
  | tail _ parent ih =>
      obtain ⟨_, _, _, between, _⟩ := parent.exists_mentions
      exact (ih between).tail (parent.transfer known apart joins own)

theorem Above.exists_mentions (above : Above index classes binary ancestor) :
    ∃ info ∈ classes, ancestor ∈ info.superName :: info.interfaces := by
  obtain ⟨_, _, parent⟩ := Relation.TransGen.tail'_iff.mp above
  obtain ⟨info, present, _, _, mentions⟩ := parent.exists_mentions
  exact ⟨info, present, mentions⟩

theorem Overrider.congr (same : ∀ info, info ∈ classes ↔ info ∈ others) {src : NodeId}
    {body : Body} :
    Overrider settings index classes src body ↔ Overrider settings index others src body := by
  rw [Overrider, Overrider, mem_bodies_congr same]

/-- The joins decide which methods are overridden. -/
theorem Overridden.transfer (same : ∀ info, info ∈ classes ↔ info ∈ others)
    (apart : NamesApart index classes)
    (joins : ∀ type src dst, Joins index classes type src dst → Joins index others type src dst)
    {src dst : NodeId} (overridden : Overridden settings index classes src dst) :
    Overridden settings index others src dst := by
  obtain ⟨body, overrider, ancestor, above, found, proper⟩ := overridden
  refine ⟨body, (Overrider.congr same).mp overrider, ancestor, ?_, found, proper⟩
  refine above.transfer (fun info => (same info).mpr) apart joins ?_
  -- A supertype with a method to override has a node.
  by_contra absent
  obtain ⟨info, present, mentions⟩ := above.exists_mentions
  have empty := apart.foreign info present ancestor mentions
    (Option.not_isSome_iff_eq_none.mp absent) body.method.name body.method.descriptor
  rw [empty] at found
  cases found

/-- The joins decide of which methods all overrides are known. -/
theorem Vouched.transfer (same : ∀ info, info ∈ classes ↔ info ∈ others)
    (apart : NamesApart index others)
    (joins : ∀ type src dst, Joins index others type src dst → Joins index classes type src dst)
    {id : NodeId} (vouched : Vouched settings index classes id) :
    Vouched settings index others id := by
  obtain ⟨body, overrider, whole⟩ := vouched
  refine ⟨body, (Overrider.congr same).mp overrider, fun ancestor above => ?_⟩
  refine or_iff_not_imp_right.mpr fun own => ?_
  have here := above.transfer (fun info => (same info).mp) apart joins
    (Option.isSome_iff_ne_none.mpr own)
  have used := (whole ancestor here).resolve_right own
  simp only [isSome_headerIn_iff, same] at used ⊢
  exact used

theorem NamesApart.congr (same : ∀ info, info ∈ classes ↔ info ∈ others)
    (apart : NamesApart index classes) : NamesApart index others where
  nodes := by simpa only [same] using apart.nodes
  proper := by simpa only [same] using apart.proper
  foreign := by simpa only [same] using apart.foreign

/-- **Joins decide.** Where names are apart, headers that join the same nodes lead to the same
overrides and the same claims. -/
theorem along_of_joins (same : ∀ info, info ∈ classes ↔ info ∈ others)
    (apart : NamesApart index classes)
    (joins : ∀ type src dst, Joins index classes type src dst ↔ Joins index others type src dst) :
    (∀ src dst, Overridden settings index classes src dst ↔
      Overridden settings index others src dst) ∧
      ∀ id, Vouched settings index classes id ↔ Vouched settings index others id := by
  have back := fun info => (same info).symm
  have apartToo := apart.congr same
  have onward := fun type src dst => (joins type src dst).mp
  have backward := fun type src dst => (joins type src dst).mpr
  exact ⟨fun src dst => ⟨.transfer same apart onward, .transfer back apartToo backward⟩,
    fun id => ⟨.transfer same apartToo backward, .transfer back apart onward⟩⟩

end NamesApart

end GraphIngest.Bytecode
