import GraphIngest.Foundation.Grouping
import GraphIngest.Foundation.Slots
import GraphIngest.Resolve.CallSteps

/-! # The indices of a scope

One pass over the nodes enters each under its name and container, under its name and
file, and, where it is a member, under its owner. A call asks the first two of them in
place of filtering all symbols of its name, and is given the same candidates in the
same order: what the filter by label left out before, it leaves out after.
-/

namespace GraphIngest.Resolve

open Foundation Text Graph

/-- `by_name` and `funcs_by_name`. -/
structure NameIndex where
  byName : Dict Str (List Node) := Dict.empty
  funcsByName : Dict Str (List Node) := Dict.empty

/-- What a node adds to the indices by name. -/
def NameIndex.add (index : NameIndex) (node : Node) : NameIndex :=
  if node.label = .cls ∨ node.label = .function then
    { byName := index.byName.append node.name node
      funcsByName :=
        if node.label = .function then index.funcsByName.append node.name node
        else index.funcsByName }
  else index

/-- The indices whose values are a node or a list of nodes. -/
structure MemberIndex where
  fieldsOfFile : Dict (Str × Str) (Slot Node) := Dict.empty
  byNameParent : Dict (Str × Option NodeId) (Slot Node) := Dict.empty
  byNameFile : Dict (Str × Str) (Slot Node) := Dict.empty
  methodsOfClass : Dict (NodeId × Str) (Slot Node) := Dict.empty
  fieldsOfClass : Dict (NodeId × Str) (Slot Node) := Dict.empty

namespace Corpus

variable (corpus : Corpus)

/-- Enter a module-level variable under its file. -/
def addFileField (index : MemberIndex) (node : Node) : MemberIndex :=
  if node.label = .field ∧ node.scope = .module ∧ node.file ≠ [] then
    { index with
      fieldsOfFile := Slot.indexMember index.fieldsOfFile (node.file, node.name) node }
  else index

/-- Enter a class or function under its container and under its file. -/
def addSymbol (index : MemberIndex) (node : Node) : MemberIndex :=
  if node.label = .cls ∨ node.label = .function then
    { index with
      byNameParent :=
        Slot.indexMember index.byNameParent (node.name, corpus.parentOf node.id) node
      byNameFile :=
        if node.file ≠ [] then Slot.indexMember index.byNameFile (node.name, node.file) node
        else index.byNameFile }
  else index

/-- Enter a method or field under the class that contains it. -/
def addClassMember (index : MemberIndex) (node : Node) : MemberIndex :=
  match corpus.parentOf node.id with
  | none => index
  | some owner =>
      if corpus.isClass owner then
        if node.label = .function ∧ node.kind = .method then
          { index with
            methodsOfClass := Slot.indexMember index.methodsOfClass (owner, node.name) node }
        else if node.label = .field then
          { index with
            fieldsOfClass := Slot.indexMember index.fieldsOfClass (owner, node.name) node }
        else index
      else index

/-- What a node adds to the indices. -/
def addMember (index : MemberIndex) (node : Node) : MemberIndex :=
  corpus.addClassMember (corpus.addSymbol (addFileField index node) node) node

def nameIndex : NameIndex := corpus.nodes.foldl NameIndex.add {}

def memberIndex : MemberIndex := corpus.nodes.foldl corpus.addMember {}

section Steps

variable (ref : RawRef)

/-- The functions with the name of a call, if there are any. -/
def fns : Option (List Node) := corpus.nameIndex.funcsByName.get? ref.targetName

/-- The symbols with the name of a call: functions if there are any. -/
def pool : List Node :=
  match corpus.fns ref with
  | some (first :: rest) => first :: rest
  | _ => corpus.nameIndex.byName.getD ref.targetName []

/-- Candidates from an index, functions only where the pool is one of functions. -/
def onlyFns (candidates : List Node) : List Node :=
  if (corpus.fns ref).isSome ∧ candidates ≠ [] then
    candidates.filter fun node => node.label = .function
  else candidates

/-- Step (1): the candidates in the container of the caller. -/
def sameScope : List Node :=
  match corpus.parentOf ref.src with
  | none => []
  | some parent =>
      corpus.onlyFns ref
        (Slot.members corpus.memberIndex.byNameParent (ref.targetName, some parent))

/-- Step (2): the candidates in the file of the caller. -/
def sameFile : List Node :=
  match corpus.nodeById ref.src with
  | none => []
  | some node =>
      if node.file = [] then []
      else
        corpus.onlyFns ref
          (Slot.members corpus.memberIndex.byNameFile (ref.targetName, node.file))

end Steps

section Tables

theorem funcsByName_eq_foldl :
    corpus.nameIndex.funcsByName =
      (corpus.nodes.filter fun node => node.label = .function).foldl
        (fun dict node => dict.append node.name node) Dict.empty := by
  rw [List.foldl_filter]
  refine (List.foldl_hom NameIndex.funcsByName fun index node => ?_).symm
  rw [NameIndex.add]
  by_cases function : node.label = .function
  · simp only [function, or_true, ↓reduceIte, decide_true]
  · by_cases cls : node.label = .cls
    · simp only [cls, true_or, ↓reduceIte, reduceCtorEq, decide_false, Bool.false_eq_true]
    · simp only [cls, function, or_self, ↓reduceIte, decide_false, Bool.false_eq_true]

theorem byName_eq_foldl :
    corpus.nameIndex.byName =
      corpus.nodes.foldl (fun dict node =>
        if decide (node.label = .cls ∨ node.label = .function) then dict.append node.name node
        else dict) Dict.empty := by
  refine (List.foldl_hom NameIndex.byName fun index node => ?_).symm
  rw [NameIndex.add]
  by_cases symbol : node.label = .cls ∨ node.label = .function
  · rw [if_pos (decide_eq_true symbol), if_pos symbol]
  · rw [if_neg (fun holds => symbol (of_decide_eq_true holds)), if_neg symbol]

/-- The functions of a name are missing from their table when there are none. -/
theorem fns_eq (ref : RawRef) :
    corpus.fns ref =
      if corpus.functionsByName ref.targetName = [] then none
      else some (corpus.functionsByName ref.targetName) := by
  have own : (corpus.nodes.filter fun node => node.label = .function).filter
      (fun node => decide (node.name = ref.targetName)) =
        corpus.functionsByName ref.targetName := by
    rw [List.filter_filter, functionsByName]
    refine List.filter_congr fun node _ => ?_
    rw [Bool.decide_and, Bool.and_comm]
  rw [fns, funcsByName_eq_foldl, get?_foldl_append_key, own]
  rfl

theorem getD_byName (name : Str) :
    corpus.nameIndex.byName.getD name [] = corpus.byName name := by
  rw [byName_eq_foldl, Dict.getD_foldl_append, List.map_id', byName]
  refine (List.nil_append _).trans (List.filter_congr fun node _ => ?_)
  rw [Bool.decide_and]

/-- The pool of the tables is that of the nodes. -/
theorem pool_eq (ref : RawRef) : corpus.pool ref = corpus.namePool ref := by
  rw [pool, fns_eq, getD_byName, namePool]
  cases functions : corpus.functionsByName ref.targetName with
  | nil => rfl
  | cons first rest => rfl

theorem isSome_fns (ref : RawRef) :
    (corpus.fns ref).isSome = corpus.functionsOnly ref := by
  rw [fns_eq, functionsOnly]
  cases corpus.functionsByName ref.targetName with
  | nil => rfl
  | cons first rest => rfl

/-- A table of the index lists, in order, the nodes entered under a key. -/
theorem members_memberIndex {κ : Type} [DecidableEq κ] (table : MemberIndex → Dict κ (Slot Node))
    {key : Node → Option κ} (start : table {} = Dict.empty)
    (step : ∀ index node, table (corpus.addMember index node) =
      (key node).elim (table index) fun key => Slot.indexMember (table index) key node)
    {wanted : κ} {test : Node → Bool}
    (same : ∀ node, key node = some wanted ↔ test node = true) :
    Slot.members (table corpus.memberIndex) wanted = corpus.nodes.filter test := by
  have filled : corpus.nodes.foldl (fun dict node =>
      (key node).elim dict fun key => Slot.indexMember dict key node) (table {}) =
        table corpus.memberIndex :=
    List.foldl_hom table fun index node => (step index node).symm
  rw [← filled, start, Slot.members_foldl, Slot.members_empty, List.nil_append, List.map_id']
  apply List.filter_congr
  intro node _
  exact Bool.eq_iff_iff.mpr (decide_eq_true_iff.trans (same node))

/-- Entering a member of a class leaves the tables of places alone. -/
theorem places_addClassMember (index : MemberIndex) (node : Node) :
    (corpus.addClassMember index node).byNameParent = index.byNameParent ∧
      (corpus.addClassMember index node).byNameFile = index.byNameFile := by
  unfold addClassMember
  split
  · exact ⟨rfl, rfl⟩
  · split
    · split
      · exact ⟨rfl, rfl⟩
      · split
        · exact ⟨rfl, rfl⟩
        · exact ⟨rfl, rfl⟩
    · exact ⟨rfl, rfl⟩

theorem places_addFileField (index : MemberIndex) (node : Node) :
    (addFileField index node).byNameParent = index.byNameParent ∧
      (addFileField index node).byNameFile = index.byNameFile ∧
      (addFileField index node).methodsOfClass = index.methodsOfClass := by
  unfold addFileField
  split
  · exact ⟨rfl, rfl, rfl⟩
  · exact ⟨rfl, rfl, rfl⟩

theorem members_byNameParent (name : Str) (parent : NodeId) :
    Slot.members corpus.memberIndex.byNameParent (name, some parent) =
      corpus.byNameParent name parent := by
  rw [byNameParent, byName, List.filter_filter]
  apply @members_memberIndex corpus _ _ MemberIndex.byNameParent
    (fun node => if node.label = .cls ∨ node.label = .function then
      some (node.name, corpus.parentOf node.id) else none) rfl
  · intro index node
    rw [addMember, (corpus.places_addClassMember _ node).1, addSymbol]
    split
    · rw [(places_addFileField index node).1]
      rfl
    · exact (places_addFileField index node).1
  · intro node
    simp only [Option.ite_none_right_eq_some, Option.some.injEq, Prod.mk.injEq, decide_eq_true_eq,
      Bool.and_eq_true]
    tauto

theorem members_byNameFile (name file : Str) :
    Slot.members corpus.memberIndex.byNameFile (name, file) = corpus.byNameFile name file := by
  rw [byNameFile, byName, List.filter_filter]
  apply @members_memberIndex corpus _ _ MemberIndex.byNameFile
    (fun node => if (node.label = .cls ∨ node.label = .function) ∧ node.file ≠ [] then
      some (node.name, node.file) else none) rfl
  · intro index node
    have before := (places_addFileField index node).2.1
    rw [addMember, (corpus.places_addClassMember _ node).2]
    by_cases keyed : (node.label = .cls ∨ node.label = .function) ∧ node.file ≠ []
    · rw [if_pos keyed, addSymbol, if_pos keyed.1, Option.elim_some, ← before]
      exact if_pos keyed.2
    · rw [if_neg keyed, addSymbol, Option.elim_none, ← before]
      split
      · next symbol => exact if_neg fun filed => keyed ⟨symbol, filed⟩
      · rfl
  · intro node
    simp only [Option.ite_none_right_eq_some, Option.some.injEq, Prod.mk.injEq, decide_eq_true_eq,
      Bool.and_eq_true]
    tauto

/-- The methods of a class under a name, as the index has them. -/
theorem members_methodsOfClass (owner : NodeId) (name : Str) :
    Slot.members corpus.memberIndex.methodsOfClass (owner, name) =
      corpus.methodsOfClass owner name := by
  apply @members_memberIndex corpus _ _ MemberIndex.methodsOfClass
    (fun node => (corpus.parentOf node.id).bind fun owner =>
      if corpus.isClass owner = true ∧ node.label = .function ∧ node.kind = .method then
        some (owner, node.name) else none) rfl
  · intro index node
    have before : (corpus.addSymbol (addFileField index node) node).methodsOfClass =
        index.methodsOfClass := by
      rw [addSymbol]
      split
      · exact (places_addFileField index node).2.2
      · exact (places_addFileField index node).2.2
    rw [addMember, addClassMember]
    cases contained : corpus.parentOf node.id with
    | none => exact before
    | some parent =>
        rw [Option.bind_some]
        by_cases cls : corpus.isClass parent = true
        · by_cases method : node.label = .function ∧ node.kind = .method
          · simp only [cls, method, and_self, ↓reduceIte, Option.elim_some, before]
          · have neither : ¬ (corpus.isClass parent = true ∧ node.label = .function ∧
                node.kind = .method) := fun all => method all.2
            rw [if_neg neither]
            simp only [cls, method, ↓reduceIte, Option.elim_none]
            split
            · exact before
            · exact before
        · rw [if_neg fun all => cls all.1]
          simp only [cls, Bool.false_eq_true, ↓reduceIte, Option.elim_none, before]
  · intro node
    simp only [isMemberOf, Option.bind_eq_some_iff, Option.ite_none_right_eq_some,
      Option.some.injEq, Prod.mk.injEq, decide_eq_true_eq, Bool.and_eq_true]
    constructor
    · rintro ⟨_, contained, ⟨cls, function, method⟩, rfl, named⟩
      exact ⟨⟨⟨function, method⟩, named⟩, contained, cls⟩
    · rintro ⟨⟨⟨function, method⟩, named⟩, contained, cls⟩
      exact ⟨owner, contained, ⟨cls, function, method⟩, rfl, named⟩

end Tables

section Steps

/-- The first steps of a call give what filtering its pool gives: by the container of the
caller, where it has one, and by its file, where it has one. -/
structure ScopeStepsFilter (ref : RawRef) : Prop where
  pool : corpus.pool ref = corpus.namePool ref
  scope : ∀ parent, corpus.parentOf ref.src = some parent →
    corpus.sameScope ref =
      (corpus.namePool ref).filter fun node => corpus.parentOf node.id = some parent
  file : ∀ node, corpus.nodeById ref.src = some node → node.file ≠ [] →
    corpus.sameFile ref = (corpus.namePool ref).filter fun other => other.file = node.file

/-- What is left of an index in a step is that part of the pool. -/
theorem onlyFns_filter (ref : RawRef) (keep : Node → Bool) :
    corpus.onlyFns ref ((corpus.byName ref.targetName).filter keep) =
      (corpus.namePool ref).filter keep := by
  rw [onlyFns, isSome_fns, functionsOnly, namePool]
  cases none : (corpus.functionsByName ref.targetName).isEmpty with
  | true => rw [if_neg (fun only => Bool.false_ne_true only.1), if_pos rfl]
  | false =>
      have functions : ((corpus.byName ref.targetName).filter keep).filter
          (fun node => node.label = .function) =
            (corpus.functionsByName ref.targetName).filter keep := by
        rw [List.filter_filter, byName, functionsByName, List.filter_filter, List.filter_filter]
        refine List.filter_congr fun node _ => ?_
        rw [Bool.eq_iff_iff]
        simp only [decide_eq_true_eq, Bool.and_eq_true]
        tauto
      rw [if_neg Bool.false_ne_true]
      split
      · exact functions
      · next empty =>
          have nothing : (corpus.byName ref.targetName).filter keep = [] :=
            not_not.mp fun some => empty ⟨rfl, some⟩
          rw [← functions, nothing, List.filter_nil]

theorem shapedFor_functionsOnly (ref : RawRef) (candidates : List Node) :
    shapedFor (corpus.functionsOnly ref) candidates = corpus.onlyFns ref candidates := by
  rw [shapedFor, onlyFns, isSome_fns]
  cases corpus.functionsOnly ref with
  | false => rw [if_neg Bool.false_ne_true, if_neg fun only => Bool.false_ne_true only.1]
  | true =>
      rw [if_pos rfl]
      split
      · rfl
      · next empty =>
          rw [not_not.mp fun some => empty ⟨rfl, some⟩, List.filter_nil]

/-- **Container step.** That of the whole lookup is the step over the index. -/
theorem scopeHits_eq {ref : RawRef} {parent : NodeId}
    (contained : corpus.parentOf ref.src = some parent) :
    corpus.scopeHits ref (corpus.functionsOnly ref) =
      [(corpus.sameScope ref, "same_scope".toList)] := by
  rw [scopeHits, sameScope, contained]
  simp only [shapedFor_functionsOnly, members_byNameParent]

/-- **File step.** That of the whole lookup is the step over the index. -/
theorem head?_fileHits {ref : RawRef} {node : Node} (pool : List Node)
    (found : corpus.nodeById ref.src = some node) (filed : node.file ≠ []) :
    (corpus.fileHits ref pool (corpus.functionsOnly ref)).head? =
      some (corpus.sameFile ref, "same_file".toList) := by
  have own : corpus.callerFile ref = node.file := by
    rw [callerFile, found, Option.map_some, Option.getD_some]
  rw [fileHits, own, sameFile, found]
  simp only [filed, ↓reduceIte, List.head?_cons, shapedFor_functionsOnly, members_byNameFile]

/-- **Composite indices.** The steps over the indices filter the pool. -/
theorem scopeSteps_filter (ref : RawRef) : corpus.ScopeStepsFilter ref where
  pool := corpus.pool_eq ref
  scope parent contained := by
    rw [sameScope, contained]
    refine (congrArg (corpus.onlyFns ref) (corpus.members_byNameParent _ parent)).trans ?_
    exact corpus.onlyFns_filter ref _
  file node found filed := by
    rw [sameFile, found]
    refine (if_neg filed).trans ?_
    rw [members_byNameFile, byNameFile, onlyFns_filter]
    refine List.filter_congr fun other _ => ?_
    rw [decide_eq_decide, and_iff_right_of_imp]
    exact fun same => same ▸ filed

end Steps

end Corpus

end GraphIngest.Resolve
