import GraphIngest.Bytecode.Apartness
import GraphIngest.Bytecode.Guards
import GraphIngest.Bytecode.HeadersInUse
import GraphIngest.Foundation.Copies

/-! # Copies of class files

One class may be found in two class roots or archives. The edges of instructions, of
headers and of overrides are kept once, but the node of a body without a declaration and its
CONTAINS edge come with every copy; every copy counts once more in the match rate; and of
the classes with one name the last gives the header. Copies are harmless where none of this
makes a difference.
-/

namespace GraphIngest.Bytecode

open Foundation Text Graph External

section Harmless

/-- Copies leave an outcome as it was: they make no edge and no id twice, and neither add
anything nor take anything away. -/
structure Outcome.Undisturbed (first second : Outcome) : Prop where
  edges_apart : (second.edges.map Edge.key).Nodup
  nodes_apart : (second.synthesized.map Node.id).Nodup
  edges : ∀ key, Kept.HasEdge first key ↔ Kept.HasEdge second key
  nodes : ∀ id, (∃ node ∈ first.synthesized, node.id = id) ↔
    ∃ node ∈ second.synthesized, node.id = id
  authoritative : ∀ id, id ∈ first.report.authoritativeOverrideMethods ↔
    id ∈ second.report.authoritativeOverrideMethods
  attributed : ∀ path, path ∈ first.report.attributedFiles ↔ path ∈ second.report.attributedFiles

/-- Copies leave a run as it was: it raises with and without them, or they leave its outcome. -/
def RunsUndisturbed : Except ClassFileError Outcome → Except ClassFileError Outcome → Prop
  | .ok first, .ok second => first.Undisturbed second
  | .error _, .error _ => True
  | _, _ => False

variable (settings : Settings) (index : NodeIndex) (classes more : List ClassInfo)

/-- The headers in use join the same nodes. Where names share nodes, methods also override the
same methods along them, and are known to. -/
structure HeadersAgree : Prop where
  joins : ∀ type src dst, Joins index classes type src dst ↔ Joins index more type src dst
  above : NamesApart index classes ∨
    (∀ src dst, Overridden settings index classes src dst ↔ Overridden settings index more src dst) ∧
      ∀ id, Vouched settings index classes id ↔ Vouched settings index more id

/-- There is nothing to emit and nothing to claim. -/
structure Silent : Prop where
  bodies : ∀ body ∈ bodies settings index classes, ∀ key,
    ¬ BodyEmits settings index body.caller body.method key
  made : classes.flatMap (madeOf settings index) = []
  joins : ∀ type src dst, ¬ Joins index classes type src dst
  overridden : ∀ src dst, ¬ Overridden settings index classes src dst
  vouched : ∀ id, ¬ Vouched settings index classes id

/-- When copies are harmless: a descriptor is refused anyway, no class is of the repository, the
build is stale anyway; or it is not, no class is copied that a node is made for, and the headers
in use agree; or the copies tip the match rate and there is nothing to gain or lose. -/
inductive CopiesHarmless : Prop
  | refused (failed : ∃ caller ∈ callers settings index classes, caller.failed?)
  | foreign (foreign : ∀ info ∈ classes, ownerOf index info = none)
  | stale (before : Stale settings index classes) (after : Stale settings index more)
  | kept (before : ¬ Stale settings index classes) (after : ¬ Stale settings index more)
      (own : OwnIds settings index classes)
      (uncopied : ∀ info ∈ classes, madeOf settings index info ≠ [] →
        more.count info = classes.count info)
      (headers : HeadersAgree settings index classes more)
  | lost (before : ¬ Stale settings index classes) (after : Stale settings index more)
      (silent : Silent settings index classes)
  | gained (before : Stale settings index classes) (after : ¬ Stale settings index more)
      (silent : Silent settings index more)

variable {settings : Settings} {index : NodeIndex} {nodes : List Node}
  {classes more : List ClassInfo}

theorem mem_made_iff {id : NodeId} :
    id ∈ classes.flatMap (madeOf settings index) ↔
      ∃ node, .synthesized node ∈ callers settings index classes ∧ node.id = id := by
  simp only [madeOf, callers, List.mem_flatMap]
  constructor
  · rintro ⟨info, member, caller, called, made⟩
    cases caller with
    | synthesized node => exact ⟨node, ⟨info, member, called⟩, (List.mem_singleton.mp made).symm⟩
    | _ => cases made
  · rintro ⟨node, ⟨info, member, called⟩, rfl⟩
    exact ⟨info, member, _, called, List.mem_singleton_self node.id⟩

/-- With copies, the nodes made for bodies have ids of their own if and only if they have without
and no class with such a node is copied. -/
theorem ownIds_copies_iff (copies : Copies classes more) :
    OwnIds settings index more ↔ OwnIds settings index classes ∧
      ∀ info ∈ classes, madeOf settings index info ≠ [] → more.count info = classes.count info := by
  have distinct := copies.nodup_flatMap_iff (madeOf settings index)
  have made := (copies.flatMap (madeOf settings index)).mem_iff
  have walked := @mem_bodies_congr settings index _ _ copies.mem_iff
  constructor
  · intro own
    obtain ⟨before, uncopied⟩ := distinct.mp own.distinct
    refine ⟨⟨before, fun id listed body present => ?_⟩, uncopied⟩
    exact own.inner id ((made id).mp listed) body ((walked body).mp present)
  · rintro ⟨own, uncopied⟩
    refine ⟨distinct.mpr ⟨own.distinct, uncopied⟩, fun id listed body present => ?_⟩
    exact own.inner id ((made id).mpr listed) body ((walked body).mpr present)

/-- The edges of two kept passes over the same classes are the same if and only if the headers
join the same nodes and the same methods are overridden. -/
theorem hasEdge_congr_iff {first second : Outcome} (kept : Kept settings nodes classes first)
    (keptToo : Kept settings nodes more second) (same : ∀ info, info ∈ classes ↔ info ∈ more) :
    (∀ key, Kept.HasEdge first key ↔ Kept.HasEdge second key) ↔
      (∀ type src dst, Joins (NodeIndex.build nodes) classes type src dst ↔
        Joins (NodeIndex.build nodes) more type src dst) ∧
      ∀ src dst, Overridden settings (NodeIndex.build nodes) classes src dst ↔
        Overridden settings (NodeIndex.build nodes) more src dst := by
  constructor
  · intro edges
    refine ⟨fun type src dst => ?_, fun src dst => ?_⟩
    · by_cases hierarchical : type = .extends ∨ type = .implements
      · rw [← kept.hasEdge_iff_joins hierarchical, ← keptToo.hasEdge_iff_joins hierarchical]
        exact edges _
      · exact iff_of_false (fun joins => hierarchical joins.type) fun joins =>
          hierarchical joins.type
    · rw [← kept.hasEdge_iff_overridden, ← keptToo.hasEdge_iff_overridden]
      exact edges _
  · rintro ⟨joins, overridden⟩ ⟨type, src, dst⟩
    by_cases hierarchical : type = .extends ∨ type = .implements
    · rw [kept.hasEdge_iff_joins hierarchical, keptToo.hasEdge_iff_joins hierarchical]
      exact joins type src dst
    by_cases overrides : type = .overrides
    · rw [overrides, kept.hasEdge_iff_overridden, keptToo.hasEdge_iff_overridden]
      exact overridden src dst
    have scan : type ≠ .extends ∧ type ≠ .implements ∧ type ≠ .overrides :=
      ⟨fun same => hierarchical (.inl same), fun same => hierarchical (.inr same), overrides⟩
    rw [kept.hasEdge_iff_scanned scan, keptToo.hasEdge_iff_scanned scan]
    exact log_congr same _

/-- A kept pass yields nothing if and only if the classes are silent. -/
theorem silent_iff {outcome : Outcome} (kept : Kept settings nodes classes outcome) :
    Silent settings (NodeIndex.build nodes) classes ↔ (∀ key, ¬ Kept.HasEdge outcome key) ∧
      (∀ id, ¬ ∃ node ∈ outcome.synthesized, node.id = id) ∧
        ∀ id, id ∉ outcome.report.authoritativeOverrideMethods := by
  have synthesized : outcome.synthesized = (scanned settings nodes classes).synthesized := by
    rw [kept.eq_keptOutcome, keptOutcome]
  rw [synthesized]
  simp only [kept.mem_authoritative_iff, scanned, exists_synthesized_iff, ← mem_made_iff]
  constructor
  · intro silent
    refine ⟨fun key => ?_, fun id => ?_, silent.vouched⟩
    · obtain ⟨type, src, dst⟩ := key
      by_cases hierarchical : type = .extends ∨ type = .implements
      · rw [kept.hasEdge_iff_joins hierarchical]
        exact silent.joins type src dst
      by_cases overrides : type = .overrides
      · rw [overrides, kept.hasEdge_iff_overridden]
        exact silent.overridden src dst
      rw [kept.hasEdge_iff_scanned ⟨fun same => hierarchical (.inl same),
        fun same => hierarchical (.inr same), overrides⟩, scanned, has_scanClasses]
      rintro ⟨body, walked, emits | ⟨⟨node, called⟩, _⟩⟩
      · exact silent.bodies body walked _ emits
      · obtain ⟨member, owned, declared, _⟩ := mem_bodies_iff.mp walked
        have listed := mem_made_iff.mpr ⟨node, mem_callers_iff.mpr
          ⟨body.info, member, body.owner, owned, body.method, declared, called⟩, rfl⟩
        rw [silent.made] at listed
        cases listed
    · rintro (listed | ⟨body, walked, inv, called, static, recognised, _⟩)
      · rw [silent.made] at listed
        cases listed
      · exact silent.bodies body walked _
          (.inl ⟨inv, called, static, .inl ⟨recognised, rfl⟩⟩)
  · rintro ⟨edges, none, unvouched⟩
    refine ⟨fun body walked key emits => ?_, ?_, fun type src dst joins => ?_,
      fun src dst overridden => ?_, unvouched⟩
    · have has : (scanned settings nodes classes).log.Has key :=
        has_scanClasses.mpr ⟨body, walked, .inl emits⟩
      exact edges key ((kept.hasEdge_iff_scanned (type_of_has_scanned has)).mpr has)
    · exact List.eq_nil_iff_forall_not_mem.mpr fun id listed => none id (.inl listed)
    · exact edges _ ((kept.hasEdge_iff_joins joins.type).mpr joins)
    · exact edges _ (kept.hasEdge_iff_overridden.mpr overridden)

/-- Two kept passes, the second with copies. -/
theorem undisturbed_kept_iff (copies : Copies classes more)
    (kept : Kept settings nodes classes (keptOutcome settings nodes classes))
    (keptToo : Kept settings nodes more (keptOutcome settings nodes more)) :
    (keptOutcome settings nodes classes).Undisturbed (keptOutcome settings nodes more) ↔
      OwnIds settings (NodeIndex.build nodes) more ∧
        HeadersAgree settings (NodeIndex.build nodes) classes more := by
  have edges := hasEdge_congr_iff kept keptToo copies.mem_iff
  constructor
  · intro undisturbed
    obtain ⟨joins, overridden⟩ := edges.mp undisturbed.edges
    refine ⟨nodup_synthesized_iff more |>.mp undisturbed.nodes_apart, joins, .inr ⟨overridden, ?_⟩⟩
    intro id
    rw [← kept.mem_authoritative_iff, ← keptToo.mem_authoritative_iff]
    exact undisturbed.authoritative id
  · rintro ⟨own, agree⟩
    have along : (∀ src dst, Overridden settings (NodeIndex.build nodes) classes src dst ↔
        Overridden settings (NodeIndex.build nodes) more src dst) ∧
        ∀ id, Vouched settings (NodeIndex.build nodes) classes id ↔
          Vouched settings (NodeIndex.build nodes) more id :=
      agree.above.elim (fun apart => along_of_joins copies.mem_iff apart agree.joins) fun along =>
        along
    refine ⟨(charges_derived settings nodes more).nodup own.distinct,
      (nodup_synthesized_iff more).mpr own, edges.mpr ⟨agree.joins, along.1⟩,
      synthesized_congr copies.mem_iff, fun id => ?_, attributed_congr copies.mem_iff⟩
    rw [kept.mem_authoritative_iff, keptToo.mem_authoritative_iff]
    exact along.2 id

theorem undisturbed_discarded (same : ∀ info, info ∈ classes ↔ info ∈ more)
    (reason other : Discard) :
    (discardedOutcome settings nodes classes reason).Undisturbed
      (discardedOutcome settings nodes more other) where
  edges_apart := List.nodup_nil
  nodes_apart := List.nodup_nil
  edges := fun _ => .rfl
  nodes := fun _ => .rfl
  authoritative := fun _ => .rfl
  attributed := attributed_congr same

/-- A pass that the copies make stale. -/
theorem undisturbed_lost_iff (same : ∀ info, info ∈ classes ↔ info ∈ more)
    (kept : Kept settings nodes classes (keptOutcome settings nodes classes)) (reason : Discard) :
    (keptOutcome settings nodes classes).Undisturbed
        (discardedOutcome settings nodes more reason) ↔
      Silent settings (NodeIndex.build nodes) classes := by
  have nothing : ∀ {α : Type} {holds : α → Prop}, ¬ ∃ value ∈ ([] : List α), holds value := by
    rintro α holds ⟨value, listed, _⟩
    cases listed
  rw [silent_iff kept]
  constructor
  · intro undisturbed
    exact ⟨fun key has => nothing ((undisturbed.edges key).mp has),
      fun id made => nothing ((undisturbed.nodes id).mp made),
      fun id claimed => List.not_mem_nil ((undisturbed.authoritative id).mp claimed)⟩
  · rintro ⟨edges, none, unclaimed⟩
    exact ⟨List.nodup_nil, List.nodup_nil, fun key => iff_of_false (edges key) nothing,
      fun id => iff_of_false (none id) nothing,
      fun id => iff_of_false (unclaimed id) List.not_mem_nil, attributed_congr same⟩

/-- A pass that the copies make fresh. -/
theorem undisturbed_gained_iff (same : ∀ info, info ∈ classes ↔ info ∈ more)
    (kept : Kept settings nodes more (keptOutcome settings nodes more)) (reason : Discard) :
    (discardedOutcome settings nodes classes reason).Undisturbed
        (keptOutcome settings nodes more) ↔
      Silent settings (NodeIndex.build nodes) more := by
  have lost := undisturbed_lost_iff (fun info => (same info).symm) kept reason
  rw [← lost]
  constructor
  · intro gained
    exact ⟨List.nodup_nil, List.nodup_nil, fun key => (gained.edges key).symm,
      fun id => (gained.nodes id).symm, fun id => (gained.authoritative id).symm,
      fun path => (gained.attributed path).symm⟩
  · intro lost
    -- What is silent has no edges and no nodes at all.
    have edges : (keptOutcome settings nodes more).edges = [] :=
      List.eq_nil_iff_forall_not_mem.mpr fun edge listed => by
        obtain ⟨other, none, _⟩ := (lost.edges edge.key).mp ⟨edge, listed, rfl⟩
        cases none
    have synthesized : (keptOutcome settings nodes more).synthesized = [] :=
      List.eq_nil_iff_forall_not_mem.mpr fun node listed => by
        obtain ⟨other, none, _⟩ := (lost.nodes node.id).mp ⟨node, listed, rfl⟩
        cases none
    refine ⟨?_, ?_, fun key => (lost.edges key).symm, fun id => (lost.nodes id).symm,
      fun id => (lost.authoritative id).symm, fun path => (lost.attributed path).symm⟩
    · rw [edges]
      exact List.nodup_nil
    · rw [synthesized]
      exact List.nodup_nil

/-- **Copies.** Copies of class files leave a run as it was if and only if they are harmless. -/
theorem runsUndisturbed_iff (settings : Settings) (nodes : List Node)
    (copies : Copies classes more) :
    RunsUndisturbed (resolveJavaBytecode settings nodes classes)
        (resolveJavaBytecode settings nodes more) ↔
      CopiesHarmless settings (NodeIndex.build nodes) classes more := by
  have same := copies.mem_iff
  by_cases failed : ∃ caller ∈ callers settings (NodeIndex.build nodes) classes, caller.failed?
  · obtain ⟨error, run⟩ := run_of_failed failed
    obtain ⟨other, runToo⟩ := @run_of_failed settings nodes more
      (by simpa only [mem_callers_congr same] using failed)
    rw [run, runToo]
    exact iff_of_true trivial (.refused failed)
  have read : ¬ ∃ caller ∈ callers settings (NodeIndex.build nodes) more, caller.failed? := by
    simpa only [mem_callers_congr same] using failed
  by_cases foreign : ∀ info ∈ classes, ownerOf (NodeIndex.build nodes) info = none
  · obtain ⟨reason, run⟩ := run_of_discarded failed (.inl foreign)
    obtain ⟨other, runToo⟩ := run_of_discarded read
      (.inl fun info listed => foreign info (copies.known listed))
    rw [run, runToo]
    exact iff_of_true (undisturbed_discarded same reason other) (.foreign foreign)
  have owned : ¬ ∀ info ∈ more, ownerOf (NodeIndex.build nodes) info = none := fun none =>
    foreign fun info listed => none info (copies.kept.subset listed)
  by_cases before : Stale settings (NodeIndex.build nodes) classes
  · obtain ⟨reason, run⟩ := run_of_discarded failed (.inr before)
    by_cases after : Stale settings (NodeIndex.build nodes) more
    · obtain ⟨other, runToo⟩ := run_of_discarded read (.inr after)
      rw [run, runToo]
      exact iff_of_true (undisturbed_discarded same reason other) (.stale before after)
    · have kept := Passes.kept ⟨read, owned, after⟩
      rw [run, kept.1]
      refine (undisturbed_gained_iff same kept reason).trans ⟨.gained before after, ?_⟩
      rintro (found | none | ⟨_, stale⟩ | fresh | fresh | ⟨_, _, silent⟩)
      · exact (failed found).elim
      · exact (foreign none).elim
      · exact (after stale).elim
      · exact (fresh before).elim
      · exact (fresh before).elim
      · exact silent
  · have kept := Passes.kept ⟨failed, foreign, before⟩
    by_cases after : Stale settings (NodeIndex.build nodes) more
    · obtain ⟨other, runToo⟩ := run_of_discarded read (.inr after)
      rw [kept.1, runToo]
      refine (undisturbed_lost_iff same kept other).trans ⟨.lost before after, ?_⟩
      rintro (found | none | ⟨stale, _⟩ | ⟨_, fresh⟩ | ⟨_, _, silent⟩ | ⟨stale, _⟩)
      · exact (failed found).elim
      · exact (foreign none).elim
      · exact (before stale).elim
      · exact (fresh after).elim
      · exact silent
      · exact (before stale).elim
    · have keptToo := Passes.kept ⟨read, owned, after⟩
      rw [kept.1, keptToo.1]
      refine (undisturbed_kept_iff copies kept keptToo).trans ?_
      rw [ownIds_copies_iff copies]
      refine ⟨fun all => .kept before after all.1.1 all.1.2 all.2, ?_⟩
      rintro (found | none | ⟨stale, _⟩ | ⟨_, _, own, uncopied, headers⟩ | ⟨_, stale⟩ | ⟨stale, _⟩)
      · exact (failed found).elim
      · exact (foreign none).elim
      · exact (before stale).elim
      · exact ⟨⟨own, uncopied⟩, headers⟩
      · exact (after stale).elim
      · exact (before stale).elim

end Harmless

section Example

/-- `class Outer { void run() { … () -> … } }`. -/
def lambdaNodes : List Node :=
  [sampleClass "Outer" "Outer.java", sampleMethod "Outer" "run" "()" [] "Outer.java" .method]

def lambdaInfo : ClassInfo where
  name := "Outer"
  superName := "java.lang.Object"
  methods :=
    [{ name := "run", descriptor := "()V", accessFlags := 0x0001, startLine := 3, endLine := 4 },
      { name := "lambda$run$0", descriptor := "()V", accessFlags := 0x100A, startLine := 4,
        endLine := 4 }]

/-- The node of the lambda is made for each copy. -/
theorem lambda_made_twice :
    ¬ RunsUndisturbed (resolveJavaBytecode sampleSettings lambdaNodes [lambdaInfo])
      (resolveJavaBytecode sampleSettings lambdaNodes [lambdaInfo, lambdaInfo]) := by
  have once : Kept sampleSettings lambdaNodes [lambdaInfo] _ := Kept.of_guards (by decide +kernel)
  have twice : Kept sampleSettings lambdaNodes [lambdaInfo, lambdaInfo] _ :=
    Kept.of_guards (by decide +kernel)
  have repeated : ¬ ((keptOutcome sampleSettings lambdaNodes
      [lambdaInfo, lambdaInfo]).synthesized.map Node.id).Nodup := by
    decide +kernel
  rw [once.1, twice.1]
  exact fun undisturbed => repeated undisturbed.nodes_apart

/-- The class without the lambda. -/
def plainInfo : ClassInfo := { lambdaInfo with methods := lambdaInfo.methods.take 1 }

theorem copies_plainInfo : Copies [plainInfo] [plainInfo, plainInfo] where
  kept := List.sublist_cons_self _ _
  known := by simp only [List.cons_subset, List.mem_singleton, List.nil_subset, and_self]

/-- Nothing of the repository has the name of its superclass. -/
theorem namesApart_plainInfo : NamesApart (NodeIndex.build lambdaNodes) [plainInfo] where
  nodes := by
    have apart : ∀ first ∈ mentioned plainInfo, ∀ second ∈ mentioned plainInfo,
        ((NodeIndex.build lambdaNodes).classId first).isSome →
          (NodeIndex.build lambdaNodes).classId second =
            (NodeIndex.build lambdaNodes).classId first → first = second := by
      decide +kernel
    intro info listed other present first named second also id found same
    obtain rfl := List.mem_singleton.mp listed
    obtain rfl := List.mem_singleton.mp present
    exact apart first named second also (found ▸ rfl) (same.trans found.symm)
  proper := by decide
  foreign := by
    intro info listed ancestor above none name descriptor
    by_contra some
    obtain ⟨id, found⟩ := Option.ne_none_iff_exists'.mp some
    obtain ⟨node, ⟨_, wanted, _, chosen⟩, _⟩ := overrideTarget_build_eq_some.mp found
    have candidate := List.mem_of_mem_filter (chosen ▸ List.mem_singleton_self node)
    obtain ⟨present, keyed, _⟩ := mem_methodNodes.mp candidate
    have elsewhere : ∀ info ∈ [plainInfo], ∀ ancestor ∈ info.superName :: info.interfaces,
        ∀ node ∈ lambdaNodes,
          (NodeIndex.methodKey node).map Prod.fst ≠ .some (binaryToSourceFqn ancestor) := by
      decide +kernel
    exact elsewhere info listed ancestor above node present (keyed ▸ rfl)

/-- That class may be found in two class roots. -/
theorem runsUndisturbed_plainInfo :
    RunsUndisturbed (resolveJavaBytecode sampleSettings lambdaNodes [plainInfo])
      (resolveJavaBytecode sampleSettings lambdaNodes [plainInfo, plainInfo]) := by
  have unmade : madeOf sampleSettings (NodeIndex.build lambdaNodes) plainInfo = [] := by
    decide +kernel
  have none : [plainInfo].flatMap (madeOf sampleSettings (NodeIndex.build lambdaNodes)) = [] := by
    rw [List.flatMap_singleton, unmade]
  have same : ∀ binary, headerIn (NodeIndex.build lambdaNodes) [plainInfo, plainInfo] binary =
      headerIn (NodeIndex.build lambdaNodes) [plainInfo] binary := by
    intro binary
    simp only [headerIn, List.reverse_cons, List.reverse_nil, List.nil_append,
      List.singleton_append, List.find?_cons, List.find?_nil]
    split <;> rfl
  refine (runsUndisturbed_iff sampleSettings lambdaNodes copies_plainInfo).mpr
    (.kept ?_ ?_ ⟨none ▸ List.nodup_nil, ?_⟩ ?_ ⟨?_, .inl namesApart_plainInfo⟩)
  · unfold Stale
    decide +kernel
  · unfold Stale
    decide +kernel
  · intro id made
    exact (List.not_mem_nil (none ▸ made)).elim
  · intro info listed made
    obtain rfl := List.mem_singleton.mp listed
    exact (made unmade).elim
  · intro type src dst
    simp only [Joins, same]

end Example

end GraphIngest.Bytecode
