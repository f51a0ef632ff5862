import GraphIngest.Bytecode.Emission
import GraphIngest.Foundation.Worklist

/-! # Class headers and overrides

After the scan, every kept header yields EXTENDS and IMPLEMENTS edges, and
every method that can override is compared with the methods of the ancestors of
its class. The ancestors are found by a worklist over the kept headers; the
answer for a class is complete when no ancestor is a class of the repository
whose header was not read.
-/

namespace GraphIngest.Bytecode

open Foundation Text Graph External

/-- The kept headers: superclass and interfaces by binary class name. -/
abbrev Headers := Dict Str (Str × List Str)

section Steps

variable (index : NodeIndex)

/-- The supertypes a header names, the superclass first. -/
def directAncestors : Option (Str × List Str) → List Str
  | none => []
  | some (superName, interfaces) =>
      if superName = [] then interfaces else superName :: interfaces

/-- The supertypes of a class by its kept header. -/
def supertypes (headers : Headers) (binary : Str) : List Str :=
  directAncestors (headers.get? binary)

/-- The ancestors of a class, in the order the worklist visits them. -/
def ancestorChain (headers : Headers) (binary : Str) : List Str :=
  let stack := (supertypes headers binary).reverse
  walk (fun ancestor => ancestor ≠ []) (supertypes headers)
    (budget (supertypes headers) headers.keys stack) stack []

/-- Whether every ancestor either has a kept header or is not of the
repository. -/
def chainComplete (headers : Headers) (chain : List Str) : Bool :=
  chain.all fun ancestor => (headers.get? ancestor).isSome || (index.classId ancestor).isNone

/-- The hierarchy edges of one header. -/
def emitHeader (ownClassIds : Dict Str NodeId) (log : KeyedLog Edge.key)
    (entry : Str × Str × List Str) : KeyedLog Edge.key :=
  match ownClassIds.get? entry.1 with
  | none => log
  | some src =>
      let targets := (EdgeType.extends, entry.2.1) ::
        entry.2.2.map fun interface => (EdgeType.implements, interface)
      targets.foldl (fun log target =>
        if target.2 = [] then log
        else
          match index.classId target.2 with
          | none => log
          | some dst =>
              if dst = src then log
              else log.emit (bytecodeEdge target.1 src dst (index.fileOf src) 0)) log

/-- The files whose class headers were read, in both spellings. -/
def hierarchyFiles (osSep : Char) (headers : Headers) (ownClassIds : Dict Str NodeId) : List Str :=
  headers.keys.flatMap fun binary =>
    match ownClassIds.get? binary with
    | none => []
    | some src =>
        if index.fileOf src = [] then [] else spellings osSep (index.fileOf src)

/-- What the override stage accumulates. -/
structure Overrides where
  log : KeyedLog Edge.key
  pairs : List (NodeId × NodeId) := []
  authoritative : List NodeId := []

/-- Compare a method with one ancestor of its class. -/
def emitOverride (method : MethodInfo) (id : NodeId) (state : Overrides) (ancestor : Str) :
    Overrides :=
  match index.overrideTarget ancestor method.name method.descriptor with
  | none => state
  | some target =>
      if target = id then state
      else
        let edge := bytecodeEdge .overrides id target (index.fileOf id) method.startLine
        { state with
          log := state.log.emit edge
          pairs := if edge.key ∈ state.log.seen then state.pairs else state.pairs ++ [(id, target)] }

/-- Compare a method with all ancestors of its class. -/
def overridesOfMethod (headers : Headers) (chain : List Str) (state : Overrides)
    (entry : MethodInfo × NodeId) : Overrides :=
  let walked := chain.foldl (emitOverride index entry.1 entry.2) state
  if chainComplete index headers chain then
    { walked with authoritative := walked.authoritative.insert entry.2 }
  else walked

def overridesOfClass (headers : Headers) (state : Overrides)
    (entry : Str × List (MethodInfo × NodeId)) : Overrides :=
  entry.2.foldl (overridesOfMethod index headers (ancestorChain headers entry.1)) state

/-- The overrides of all remembered methods. -/
def overridesOf (headers : Headers) (declared : Dict Str (List (MethodInfo × NodeId)))
    (log : KeyedLog Edge.key) : Overrides :=
  declared.entries.foldl (overridesOfClass index headers) { log := log }

end Steps

section Ancestors

/-- One step up the kept headers. -/
def Supertype (headers : Headers) (binary ancestor : Str) : Prop :=
  ancestor ∈ supertypes headers binary ∧ ancestor ≠ []

/-- A proper ancestor by the kept headers. -/
def Ancestor (headers : Headers) (binary ancestor : Str) : Prop :=
  Relation.TransGen (Supertype headers) binary ancestor

/-- **Ancestor walk.** The chain of a class holds exactly its proper ancestors,
on cyclic headers too. -/
theorem mem_ancestorChain {headers : Headers} {binary ancestor : Str} :
    ancestor ∈ ancestorChain headers binary ↔ Ancestor headers binary ancestor := by
  have outside : ∀ other, other ∉ headers.keys → supertypes headers other = [] := by
    intro other absent
    cases held : headers.get? other with
    | none => simp only [supertypes, held, directAncestors]
    | some header => exact (absent ((headers.mem_keys_iff other).mpr ⟨header, held⟩)).elim
  have moves : Moves (fun ancestor : Str => decide (ancestor ≠ [])) (supertypes headers) =
      Supertype headers := by
    funext first second
    simp only [Moves, Supertype, decide_eq_true_eq]
  rw [ancestorChain, mem_walk_iff outside, ReachedFrom, Ancestor, Relation.TransGen.head'_iff,
    moves]
  simp only [List.mem_reverse, decide_eq_true_eq, Supertype, and_assoc]

end Ancestors

section Emission

variable {index : NodeIndex}

/-- The supertypes of a header, each with the edge type that joins it. -/
def headerTargets (header : Str × List Str) : List (EdgeType × Str) :=
  (EdgeType.extends, header.1) ::
    header.2.map fun interface => (EdgeType.implements, interface)

/-- The edge keys a header carries. -/
def HeaderEmits (index : NodeIndex) (ownClassIds : Dict Str NodeId)
    (entry : Str × Str × List Str) (key : EdgeKey) : Prop :=
  ∃ src, ownClassIds.get? entry.1 = some src ∧ ∃ target ∈ headerTargets entry.2,
    target.2 ≠ [] ∧ ∃ dst, index.classId target.2 = some dst ∧ dst ≠ src ∧
      (target.1, src, dst) = key

/-- A header adds the keys it carries. -/
theorem has_emitHeader (ownClassIds : Dict Str NodeId) (log : KeyedLog Edge.key)
    (entry : Str × Str × List Str) (key : EdgeKey) :
    (emitHeader index ownClassIds log entry).Has key ↔
      log.Has key ∨ HeaderEmits index ownClassIds entry key := by
  unfold emitHeader HeaderEmits
  cases ownClassIds.get? entry.1 with
  | none => simp only [reduceCtorEq, false_and, exists_false, or_false]
  | some src =>
      simp only [Option.some.injEq, exists_eq_left']
      refine foldl_iff (fun final : KeyedLog Edge.key => final.Has key) ?_ (headerTargets entry.2)
        log
      intro state target
      by_cases named : target.2 = []
      · simp only [named, ↓reduceIte, ne_eq, not_true, false_and, or_false]
      cases index.classId target.2 with
      | none =>
          simp only [named, ↓reduceIte, reduceCtorEq, false_and, exists_false, and_false, or_false]
      | some dst =>
          by_cases loops : dst = src
          · simp only [named, ↓reduceIte, loops, Option.some.injEq, exists_eq_left', ne_eq,
              not_true, false_and, and_false, or_false]
          · simp only [named, ↓reduceIte, loops, KeyedLog.has_emit, key_bytecodeEdge,
              Option.some.injEq, exists_eq_left', ne_eq, not_false_eq_true, true_and]

/-- **Headers.** The hierarchy edges add exactly the keys their headers carry. -/
theorem has_emitHeaders (ownClassIds : Dict Str NodeId) (log : KeyedLog Edge.key)
    (entries : List (Str × Str × List Str)) (key : EdgeKey) :
    (entries.foldl (emitHeader index ownClassIds) log).Has key ↔
      log.Has key ∨ ∃ entry ∈ entries, HeaderEmits index ownClassIds entry key :=
  foldl_iff (fun final : KeyedLog Edge.key => final.Has key)
    (fun log entry => has_emitHeader ownClassIds log entry key) entries log

/-- A header carries EXTENDS and IMPLEMENTS keys only. -/
theorem HeaderEmits.type {ownClassIds : Dict Str NodeId} {entry : Str × Str × List Str}
    {key : EdgeKey} (emits : HeaderEmits index ownClassIds entry key) :
    key.1 = .extends ∨ key.1 = .implements := by
  obtain ⟨src, _, target, listed, _, dst, _, _, rfl⟩ := emits
  rcases List.mem_cons.mp listed with rfl | interface
  · exact Or.inl rfl
  · obtain ⟨_, _, rfl⟩ := List.mem_map.mp interface
    exact Or.inr rfl

/-- The hierarchy edges change no other key. -/
theorem has_emitHeaders_of_other {ownClassIds : Dict Str NodeId} {log : KeyedLog Edge.key}
    {entries : List (Str × Str × List Str)} {key : EdgeKey}
    (other : key.1 ≠ .extends ∧ key.1 ≠ .implements) :
    (entries.foldl (emitHeader index ownClassIds) log).Has key ↔ log.Has key := by
  rw [has_emitHeaders]
  refine or_iff_left ?_
  rintro ⟨entry, _, emits⟩
  exact emits.type.elim other.1 other.2

/-- The key of the override of a method in an ancestor. -/
def OverrideEmits (index : NodeIndex) (entry : MethodInfo × NodeId) (ancestor : Str)
    (key : EdgeKey) : Prop :=
  ∃ target, index.overrideTarget ancestor entry.1.name entry.1.descriptor = some target ∧
    target ≠ entry.2 ∧ (EdgeType.overrides, entry.2, target) = key

/-- One ancestor adds the key of the override found there. -/
theorem has_emitOverride (index : NodeIndex) (entry : MethodInfo × NodeId) (state : Overrides)
    (ancestor : Str)
    (key : EdgeKey) :
    (emitOverride index entry.1 entry.2 state ancestor).log.Has key ↔
      state.log.Has key ∨ OverrideEmits index entry ancestor key := by
  unfold emitOverride OverrideEmits
  cases index.overrideTarget ancestor entry.1.name entry.1.descriptor with
  | none => simp only [reduceCtorEq, false_and, exists_false, or_false]
  | some target =>
      by_cases same : target = entry.2
      · simp only [same, ↓reduceIte, Option.some.injEq, exists_eq_left', ne_eq, not_true,
          false_and, or_false]
      · simp only [same, ↓reduceIte, KeyedLog.has_emit, key_bytecodeEdge, Option.some.injEq,
          exists_eq_left', ne_eq, not_false_eq_true, true_and]

/-- A method adds the keys of its overrides in the ancestors of its class. -/
theorem has_overridesOfMethod (headers : Headers) (chain : List Str) (state : Overrides)
    (entry : MethodInfo × NodeId) (key : EdgeKey) :
    (overridesOfMethod index headers chain state entry).log.Has key ↔
      state.log.Has key ∨ ∃ ancestor ∈ chain, OverrideEmits index entry ancestor key := by
  have walked := foldl_iff (fun state : Overrides => state.log.Has key)
    (fun state ancestor => has_emitOverride index entry state ancestor key) chain state
  unfold overridesOfMethod
  split <;> exact walked

/-- A class adds the keys of the overrides of its methods. -/
theorem has_overridesOfClass (headers : Headers) (state : Overrides)
    (entry : Str × List (MethodInfo × NodeId)) (key : EdgeKey) :
    (overridesOfClass index headers state entry).log.Has key ↔
      state.log.Has key ∨ ∃ method ∈ entry.2, ∃ ancestor ∈ ancestorChain headers entry.1,
        OverrideEmits index method ancestor key :=
  foldl_iff (fun state : Overrides => state.log.Has key)
    (fun state method => has_overridesOfMethod headers _ state method key) entry.2 state

/-- **Overrides.** The override stage adds exactly the keys of remembered
methods with an override target in a proper ancestor of their class. -/
theorem has_overridesOf (headers : Headers) (declared : Dict Str (List (MethodInfo × NodeId)))
    (log : KeyedLog Edge.key) (key : EdgeKey) :
    (overridesOf index headers declared log).log.Has key ↔
      log.Has key ∨ ∃ binary, ∃ method ∈ declared.getD binary [],
        ∃ ancestor, Ancestor headers binary ancestor ∧ OverrideEmits index method ancestor key := by
  unfold overridesOf
  refine (foldl_iff (fun state : Overrides => state.log.Has key)
    (fun state entry => has_overridesOfClass headers state entry key) declared.entries _).trans
      (or_congr_right ⟨?_, ?_⟩)
  · rintro ⟨⟨binary, methods⟩, member, method, listed, ancestor, chained, emits⟩
    exact ⟨binary, method, Dict.mem_getD_iff.mpr ⟨methods, member, listed⟩, ancestor,
      mem_ancestorChain.mp chained, emits⟩
  · rintro ⟨binary, method, listed, ancestor, above, emits⟩
    obtain ⟨methods, member, listed⟩ := Dict.mem_getD_iff.mp listed
    exact ⟨(binary, methods), member, method, listed, ancestor, mem_ancestorChain.mpr above, emits⟩

/-- The pairs are the OVERRIDES keys of the log. -/
def Overrides.Paired (state : Overrides) : Prop :=
  ∀ src dst, (src, dst) ∈ state.pairs ↔ state.log.Has (.overrides, src, dst)

theorem paired_emitOverride (method : MethodInfo) (id : NodeId) (state : Overrides)
    (ancestor : Str) (paired : state.Paired) :
    (emitOverride index method id state ancestor).Paired := by
  unfold emitOverride
  split
  · exact paired
  · split
    · exact paired
    · next target _ _ =>
        intro src dst
        by_cases before : (EdgeType.overrides, id, target) ∈ state.log.seen
        · simp only [key_bytecodeEdge, before, ↓reduceIte, KeyedLog.has_emit, paired src dst]
          apply (or_iff_left_of_imp _).symm
          intro same
          cases same
          exact state.log.recorded _ before
        · simp only [key_bytecodeEdge, before, ↓reduceIte, KeyedLog.has_emit, List.mem_append,
            List.mem_singleton, paired src dst, Prod.mk.injEq, true_and, eq_comm]

/-- The override stage pairs the ends of its edges, when it starts without any. -/
theorem paired_overridesOf (headers : Headers) (declared : Dict Str (List (MethodInfo × NodeId)))
    (log : KeyedLog Edge.key) (fresh : ∀ src dst, ¬ log.Has (.overrides, src, dst)) :
    (overridesOf index headers declared log).Paired := by
  refine foldl_preserves Overrides.Paired declared.entries ?_ _ fun src dst =>
    iff_of_false List.not_mem_nil (fresh src dst)
  intro state entry _ paired
  refine foldl_preserves Overrides.Paired entry.2 ?_ state paired
  intro state method _ paired
  have walked : ((ancestorChain headers entry.1).foldl (emitOverride index method.1 method.2)
      state).Paired :=
    foldl_preserves Overrides.Paired (ancestorChain headers entry.1)
      (fun state ancestor _ => paired_emitOverride method.1 method.2 state ancestor) state paired
  unfold overridesOfMethod
  split <;> exact walked

/-- Comparing with an ancestor makes no method authoritative. -/
theorem authoritative_emitOverride (index : NodeIndex) (entry : MethodInfo × NodeId)
    (state : Overrides)
    (ancestor : Str) :
    (emitOverride index entry.1 entry.2 state ancestor).authoritative = state.authoritative := by
  unfold emitOverride
  split
  · rfl
  · split <;> rfl

/-- **Authority.** A method is authoritative exactly when it is remembered for a
class whose ancestors are all read or foreign. -/
theorem mem_authoritative (headers : Headers) (declared : Dict Str (List (MethodInfo × NodeId)))
    (log : KeyedLog Edge.key) (id : NodeId) :
    id ∈ (overridesOf index headers declared log).authoritative ↔
      ∃ binary, chainComplete index headers (ancestorChain headers binary) ∧
        ∃ method ∈ declared.getD binary [], method.2 = id := by
  have methodStep : ∀ chain, ∀ state : Overrides, ∀ entry : MethodInfo × NodeId,
      id ∈ (overridesOfMethod index headers chain state entry).authoritative ↔
        id ∈ state.authoritative ∨ chainComplete index headers chain ∧ entry.2 = id := by
    intro chain state entry
    have walked := foldl_frame Overrides.authoritative
      (authoritative_emitOverride index entry) chain state
    unfold overridesOfMethod
    by_cases whole : chainComplete index headers chain = true
    · simp only [whole, ↓reduceIte, List.mem_insert_iff, walked, true_and, or_comm, eq_comm]
    · simp only [whole, Bool.false_eq_true, ↓reduceIte, walked, false_and, or_false]
  have classStep : ∀ state : Overrides, ∀ entry : Str × List (MethodInfo × NodeId),
      id ∈ (overridesOfClass index headers state entry).authoritative ↔
        id ∈ state.authoritative ∨ ∃ method ∈ entry.2,
          chainComplete index headers (ancestorChain headers entry.1) ∧ method.2 = id :=
    fun state entry => foldl_iff (fun state : Overrides => id ∈ state.authoritative)
      (methodStep _) entry.2 state
  unfold overridesOf
  refine (foldl_iff (fun state : Overrides => id ∈ state.authoritative) classStep
    declared.entries _).trans ((or_iff_right List.not_mem_nil).trans ⟨?_, ?_⟩)
  · rintro ⟨⟨binary, methods⟩, member, method, listed, whole, rfl⟩
    exact ⟨binary, whole, method, Dict.mem_getD_iff.mpr ⟨methods, member, listed⟩, rfl⟩
  · rintro ⟨binary, whole, method, listed, rfl⟩
    obtain ⟨methods, member, listed⟩ := Dict.mem_getD_iff.mp listed
    exact ⟨(binary, methods), member, method, listed, whole, rfl⟩

end Emission

end GraphIngest.Bytecode
