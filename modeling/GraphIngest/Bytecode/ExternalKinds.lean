import GraphIngest.Bytecode.ClassOrder
import GraphIngest.Foundation.FirstCome
import Mathlib.Data.List.Forall2

/-! # The kinds of external targets

The node of an external target is made of the first recognised call of it that the scan
comes to. Its id is that of the owner and the name of the call, its kind follows the
return type as well. The kinds do not depend on the order of the classes and of their
methods when the bodies that call a target all classify their first call of it alike.
-/

namespace GraphIngest.Bytecode

open Foundation Text Graph External

section Calls

variable (settings : Settings) (index : NodeIndex)

/-- The target and the kind of a recognised call. -/
def classified (inv : Invocation) : Option (NodeId × ExternalKind) :=
  if inv.opcode = .invokedynamic then none
  else (invocationKind settings inv).map fun kind =>
    (externalId settings.makeId inv.owner inv.name, kind)

/-- The recognised calls of a body, in their order. -/
def classifiedCalls (method : MethodInfo) : List (NodeId × ExternalKind) :=
  method.invocations.filterMap (classified settings)

/-- The methods of a class that are walked. -/
def walkedOf (info : ClassInfo) : List MethodInfo :=
  match ownerOf index info with
  | none => []
  | some owner =>
      info.methods.filter fun method => (callerOf settings index info owner method).id?.isSome

/-- The methods that are walked, in the order of the scan. -/
def walked (classes : List ClassInfo) : List MethodInfo :=
  classes.flatMap (walkedOf settings index)

end Calls

section Registering

/-- The ids taken so far, and the targets with their kinds. -/
abbrev Targeted : Type := List NodeId × List (NodeId × ExternalKind)

/-- Enter the target of a call, unless its id is taken. -/
def enter (targeted : Targeted) (call : NodeId × ExternalKind) : Targeted :=
  if call.1 ∈ targeted.1 then targeted else (call.1 :: targeted.1, targeted.2 ++ [call])

/-- The first call of each target enters it. -/
theorem snd_foldl_enter (calls : List (NodeId × ExternalKind)) (targeted : Targeted) :
    (calls.foldl enter targeted).2 = targeted.2 ++ accepted Prod.fst targeted.1 calls := by
  induction calls generalizing targeted with
  | nil => exact (List.append_nil _).symm
  | cons call rest ih =>
      rw [List.foldl_cons, ih, enter, accepted]
      split
      · rfl
      · rw [List.append_assoc, List.singleton_append]

/-- What an External node says of its target. -/
def externalEntry (node : Node) : Option (NodeId × ExternalKind) :=
  match node.label, node.kind with
  | .external, .external kind => some (node.id, kind)
  | _, _ => none

/-- The targets of a scan, with their kinds. -/
def Scan.targeted (scan : Scan) : Targeted :=
  (scan.externalIds, scan.synthesized.filterMap externalEntry)

variable {settings : Settings} {index : NodeIndex}

/-- A call enters the kind it is classified with, where it has one. -/
theorem targeted_scanInvocation (caller : NodeId) (file : Str) (scan : Scan) (inv : Invocation) :
    (scanInvocation settings index caller file scan inv).targeted =
      (classified settings inv).toList.foldl enter scan.targeted := by
  have called : ∀ scan : Scan,
      (scanCall index caller file scan inv).targeted = scan.targeted := by
    intro scan
    unfold scanCall
    split <;> rfl
  unfold scanInvocation classified
  split
  · rfl
  · rw [called, scanExternal]
    cases invocationKind settings inv with
    | none => rfl
    | some kind =>
        rw [Option.map_some, Option.toList_some, List.foldl_cons, List.foldl_nil, enter]
        unfold Scan.targeted
        dsimp only
        split
        · rfl
        · rw [List.filterMap_append]
          rfl

/-- The calls of a body enter their kinds in order. -/
theorem targeted_scanBody (caller : NodeId) (file : Str) (method : MethodInfo) (scan : Scan) :
    (scanBody settings index caller file method scan).targeted =
      (classifiedCalls settings method).foldl enter scan.targeted := by
  have accessed : ∀ scan access,
      (scanAccess index caller file scan access).targeted = scan.targeted := by
    intro scan access
    unfold scanAccess
    split <;> rfl
  unfold scanBody classifiedCalls
  rw [foldl_frame Scan.targeted accessed]
  induction method.invocations generalizing scan with
  | nil => rfl
  | cons inv rest ih =>
      rw [List.foldl_cons, ih, targeted_scanInvocation, List.filterMap_cons]
      cases classified settings inv <;> rfl

/-- A declaration enters no kind. -/
theorem targeted_scanDeclared (info : ClassInfo) (owner : Owner) (method : MethodInfo)
    (caller : NodeId) (scan : Scan) :
    (scanDeclared info owner method caller scan).targeted = scan.targeted := by
  unfold scanDeclared
  split <;> rfl

/-- A method enters the targets of its calls when it is walked. -/
theorem targeted_scanMethod (info : ClassInfo) (owner : Owner) (scan : Scan) (method : MethodInfo) :
    (scanMethod settings index info owner scan method).targeted =
      (if (callerOf settings index info owner method).id?.isSome then
        classifiedCalls settings method else []).foldl enter scan.targeted := by
  unfold scanMethod
  cases called : callerOf settings index info owner method with
  | synthesized node =>
      simp only [Caller.id?, Option.isSome_some, ↓reduceIte]
      rw [targeted_scanBody, targeted_scanDeclared]
      unfold Scan.targeted
      dsimp only
      have silent : externalEntry node = none := by
        rw [externalEntry, label_of_synthesized called]
      rw [List.filterMap_append, List.filterMap_cons_none silent, List.filterMap_nil,
        List.append_nil]
  | looked result =>
      cases result with
      | matched caller =>
          simp only [Caller.id?, Option.isSome_some, ↓reduceIte]
          rw [targeted_scanBody, targeted_scanDeclared]
          rfl
      | _ => rfl
  | _ => rfl

/-- The bodies of a class enter the kinds of their calls. -/
theorem targeted_scanClass (scan : Scan) (info : ClassInfo) :
    (scanClass settings index scan info).targeted =
      ((walkedOf settings index info).flatMap (classifiedCalls settings)).foldl enter
        scan.targeted := by
  unfold scanClass walkedOf
  cases ownerOf index info with
  | none => rfl
  | some owner =>
      dsimp only
      have entered : (scanHeader settings info owner scan).targeted = scan.targeted := rfl
      rw [← entered]
      generalize scanHeader settings info owner scan = scan
      induction info.methods generalizing scan with
      | nil => rfl
      | cons method rest ih =>
          rw [List.foldl_cons, ih, targeted_scanMethod, List.filter_cons]
          split
          · rw [List.flatMap_cons, List.foldl_append]
          · rfl

/-- **External targets.** The targets of a scan are those of the recognised calls of the
walked methods, each with the kind of the first of its calls. -/
theorem targeted_scanClasses (classes : List ClassInfo) :
    (scanClasses settings index classes).targeted.2 =
      accepted Prod.fst []
        ((walked settings index classes).flatMap (classifiedCalls settings)) := by
  have whole : ∀ scan : Scan, (classes.foldl (scanClass settings index) scan).targeted =
      ((walked settings index classes).flatMap (classifiedCalls settings)).foldl enter
        scan.targeted := by
    unfold walked
    induction classes with
    | nil => exact fun _ => rfl
    | cons info rest ih =>
        intro scan
        rw [List.foldl_cons, ih, targeted_scanClass, List.flatMap_cons, List.flatMap_append,
          List.foldl_append]
  rw [scanClasses, whole, snd_foldl_enter]
  rfl

end Registering

section Rearranging

/-- The same class with its methods in another order. -/
structure SameClass (info other : ClassInfo) : Prop where
  same : other = { info with methods := other.methods }
  perm : info.methods.Perm other.methods

/-- The same classes in another order, each with its methods in another order. -/
def Rearranged (classes others : List ClassInfo) : Prop :=
  ∃ middle, List.Forall₂ SameClass classes middle ∧ middle.Perm others

variable {settings : Settings} {index : NodeIndex} {info other : ClassInfo}
  {classes others : List ClassInfo}

theorem SameClass.refl (info : ClassInfo) : SameClass info info := ⟨rfl, .refl _⟩

theorem SameClass.ownerOf (alike : SameClass info other) :
    Bytecode.ownerOf index other = Bytecode.ownerOf index info := by
  rw [alike.same]
  rfl

theorem SameClass.callerOf (alike : SameClass info other) (owner : Owner) (method : MethodInfo) :
    Bytecode.callerOf settings index other owner method =
      Bytecode.callerOf settings index info owner method := by
  rw [alike.same]
  rfl

/-- A rearranged class has the same bodies walked. -/
theorem SameClass.perm_walkedOf (alike : SameClass info other) :
    (walkedOf settings index info).Perm (walkedOf settings index other) := by
  unfold walkedOf
  rw [alike.ownerOf]
  cases Bytecode.ownerOf index info with
  | none => exact .nil
  | some owner =>
      dsimp only
      simp only [alike.callerOf]
      exact alike.perm.filter _

/-- A rearranged class has the same callers. -/
theorem SameClass.perm_classCallers (alike : SameClass info other) :
    (classCallers settings index info).Perm (classCallers settings index other) := by
  unfold classCallers
  rw [alike.ownerOf]
  cases Bytecode.ownerOf index info with
  | none => exact .nil
  | some owner =>
      dsimp only
      rw [List.map_congr_left fun method _ => alike.callerOf owner method]
      exact alike.perm.map _

/-- What follows the methods of each class up to their order follows a rearrangement. -/
theorem Rearranged.perm_flatMap {α : Type*} {read : ClassInfo → List α}
    (follows : ∀ {info other}, SameClass info other → (read info).Perm (read other))
    (arranged : Rearranged classes others) :
    (classes.flatMap read).Perm (others.flatMap read) := by
  obtain ⟨middle, alike, perm⟩ := arranged
  refine List.Perm.trans ?_ (perm.flatMap_right read)
  clear perm
  induction alike with
  | nil => exact .nil
  | cons same _ ih =>
      rw [List.flatMap_cons, List.flatMap_cons]
      exact (follows same).append ih

/-- Rearranged classes have the same bodies walked. -/
theorem Rearranged.perm_walked (arranged : Rearranged classes others) :
    (walked settings index classes).Perm (walked settings index others) :=
  arranged.perm_flatMap SameClass.perm_walkedOf

theorem Rearranged.perm_callers (arranged : Rearranged classes others) :
    (callers settings index classes).Perm (callers settings index others) :=
  arranged.perm_flatMap SameClass.perm_classCallers

/-- Rearranged classes count the same in the repository. -/
theorem Rearranged.classesInRepo (arranged : Rearranged classes others) :
    (scanClasses settings index classes).classesInRepo =
      (scanClasses settings index others).classesInRepo := by
  obtain ⟨middle, alike, perm⟩ := arranged
  refine Eq.trans ?_ (classesInRepo_of_perm perm)
  rw [classesInRepo_scanClasses, classesInRepo_scanClasses]
  generalize 0 = count
  clear perm
  induction alike generalizing count with
  | nil => rfl
  | cons same _ ih => rw [List.foldl_cons, List.foldl_cons, same.ownerOf, ih]

/-- A rearrangement of a kept pass is kept. -/
theorem Rearranged.kept {nodes : List Node} {outcome : Outcome}
    (arranged : Rearranged classes others) (kept : Kept settings nodes classes outcome) :
    Kept settings nodes others (keptOutcome settings nodes others) := by
  have raised := raised_of_callers (@Rearranged.perm_callers settings (NodeIndex.build nodes) _ _
    arranged)
  have dropped := @discarded_of_callers settings nodes _ _ arranged.classesInRepo
    arranged.perm_callers
  rw [← scanned, ← scanned, kept.raised_eq_none] at raised
  rw [kept.discardReason_eq_none] at dropped
  apply Kept.of_guards
  refine ⟨Option.isNone_iff_eq_none.mp ?_, Option.isNone_iff_eq_none.mp dropped.symm⟩
  rw [← Option.not_isSome, ← raised]
  rfl

/-- Every walked method comes first in some rearrangement. -/
theorem exists_rearranged {method : MethodInfo} (listed : method ∈ walked settings index classes) :
    ∃ others, Rearranged classes others ∧
      ∃ rest, walked settings index others = method :: rest := by
  obtain ⟨info, member, walks⟩ := List.mem_flatMap.mp listed
  unfold walkedOf at walks
  cases owned : Bytecode.ownerOf index info with
  | none =>
      rw [owned] at walks
      cases walks
  | some owner =>
      rw [owned] at walks
      obtain ⟨declared, called⟩ := List.mem_filter.mp walks
      obtain ⟨front, back, rfl⟩ := List.append_of_mem member
      obtain ⟨before, after, split⟩ := List.append_of_mem declared
      -- the class first, and the method first in it
      let turned : ClassInfo := { info with methods := method :: (before ++ after) }
      have alike : SameClass info turned := by
        refine ⟨rfl, ?_⟩
        rw [split]
        exact List.perm_middle
      refine ⟨turned :: (front ++ back), ⟨front ++ turned :: back, ?_, List.perm_middle⟩,
        ((before ++ after).filter fun method =>
          (callerOf settings index info owner method).id?.isSome) ++
            (front ++ back).flatMap (walkedOf settings index), ?_⟩
      · exact List.rel_append (List.forall₂_same.mpr fun other _ => .refl other)
          (.cons alike (List.forall₂_same.mpr fun other _ => .refl other))
      · rw [walked, List.flatMap_cons, ← List.cons_append]
        congr 1
        unfold walkedOf
        rw [alike.ownerOf, owned]
        dsimp only
        simp only [alike.callerOf]
        exact List.filter_cons_of_pos called

end Rearranging

section Kinds

variable (settings : Settings) (nodes : List Node) (classes : List ClassInfo)

/-- The External nodes of an outcome, each with its kind. -/
def Outcome.targets (outcome : Outcome) : List (NodeId × ExternalKind) :=
  outcome.synthesized.filterMap externalEntry

/-- Whatever the order of the classes and of the methods inside them, the External node of a
target has one kind. -/
def ExternalKindsStable : Prop :=
  ∀ others, Rearranged classes others → ∀ first second,
    resolveJavaBytecode settings nodes classes = .ok first →
      resolveJavaBytecode settings nodes others = .ok second → ∀ id kind kindToo,
        (id, kind) ∈ first.targets → (id, kindToo) ∈ second.targets → kind = kindToo

/-- The kind of the first recognised call that a method makes of a target. -/
def firstKind (method : MethodInfo) (id : NodeId) : Option ExternalKind :=
  ((classifiedCalls settings method).find? fun call => call.1 = id).map Prod.snd

/-- Two walked methods that call one target classify their first call of it alike. -/
def FirstKindsAgree : Prop :=
  ∀ first ∈ walked settings (NodeIndex.build nodes) classes,
    ∀ second ∈ walked settings (NodeIndex.build nodes) classes, ∀ id kind kindToo,
      firstKind settings first id = some kind → firstKind settings second id = some kindToo →
        kind = kindToo

variable {settings nodes classes}

/-- The first kind of a node is the one accepted of its calls. -/
theorem firstKind_eq_some {method : MethodInfo} {id : NodeId} {kind : ExternalKind} :
    firstKind settings method id = some kind ↔
      (id, kind) ∈ accepted Prod.fst [] (classifiedCalls settings method) := by
  rw [mem_accepted_iff, firstKind, Option.map_eq_some_iff]
  constructor
  · rintro ⟨⟨found, _⟩, first, rfl⟩
    have tested := List.find?_some first
    have same : found = id := of_decide_eq_true tested
    subst same
    exact first
  · exact fun first => ⟨(id, kind), first, rfl⟩

/-- First kinds agree exactly where no two bodies of a node enter different ones. -/
theorem firstKindsAgree_iff :
    FirstKindsAgree settings nodes classes ↔
      Compatible Prod.fst (classifiedCalls settings)
        (walked settings (NodeIndex.build nodes) classes) := by
  constructor
  · rintro agree first listed second listedToo ⟨id, kind⟩ kept ⟨idToo, kindToo⟩ keptToo named
    have same : id = idToo := named
    subst same
    rw [agree first listed second listedToo id kind kindToo (firstKind_eq_some.mpr kept)
      (firstKind_eq_some.mpr keptToo)]
  · intro compatible first listed second listedToo id kind kindToo found foundToo
    have same := compatible first listed second listedToo _ (firstKind_eq_some.mp found) _
      (firstKind_eq_some.mp foundToo) rfl
    exact (Prod.mk.inj same).2

/-- The External nodes of a kept pass are those of the calls of its walked methods. -/
theorem Kept.targets {outcome : Outcome} (kept : Kept settings nodes classes outcome) :
    outcome.targets = accepted Prod.fst []
      ((walked settings (NodeIndex.build nodes) classes).flatMap (classifiedCalls settings)) := by
  rw [← targeted_scanClasses, kept.eq_keptOutcome]
  rfl

/-- A pass that returns an External node is kept. -/
theorem kept_of_mem_targets {outcome : Outcome} {target : NodeId × ExternalKind}
    (ran : resolveJavaBytecode settings nodes classes = .ok outcome)
    (made : target ∈ outcome.targets) : Kept settings nodes classes outcome := by
  refine ⟨ran, ?_⟩
  unfold resolveJavaBytecode at ran
  split at ran
  · cases ran
  · split at ran
    · cases ran
      cases made
    · cases ran
      rfl

/-- **Kinds of external targets.** They do not depend on the order of the classes and the
methods exactly when, in a pass that is kept, the first calls of a target are classified
alike. -/
theorem externalKindsStable_iff (settings : Settings) (nodes : List Node)
    (classes : List ClassInfo) :
    ExternalKindsStable settings nodes classes ↔
      ∀ outcome, Kept settings nodes classes outcome → FirstKindsAgree settings nodes classes := by
  constructor
  · intro stable outcome kept first listed second listedToo id kind kindToo found foundToo
    -- a method that comes first in some order gives its kind to the target
    have settled : ∀ method ∈ walked settings (NodeIndex.build nodes) classes, ∀ led held,
        firstKind settings method id = some led → (id, held) ∈ outcome.targets → held = led := by
      intro method walks led held leads registered
      obtain ⟨others, arranged, rest, ahead⟩ := exists_rearranged walks
      have turned := arranged.kept kept
      have leading : (id, led) ∈ accepted Prod.fst []
          ((method :: rest).flatMap (classifiedCalls settings)) :=
        mem_accepted_flatMap_cons (firstKind_eq_some.mp leads)
      rw [← ahead, ← turned.targets] at leading
      exact stable others arranged outcome _ kept.1 turned.1 id held led registered leading
    have handed : id ∈ ((walked settings (NodeIndex.build nodes) classes).flatMap
        (classifiedCalls settings)).map Prod.fst :=
      List.mem_map_of_mem (List.mem_flatMap.mpr
        ⟨first, listed, (accepted_sublist [] _).mem (firstKind_eq_some.mp found)⟩)
    obtain ⟨⟨_, held⟩, registered, rfl⟩ :=
      List.mem_map.mp (mem_map_accepted.mpr ⟨handed, List.not_mem_nil⟩)
    rw [← kept.targets] at registered
    exact (settled first listed kind held found registered).symm.trans
      (settled second listedToo kindToo held foundToo registered)
  · intro agree others arranged first second ran ranToo id kind kindToo made madeToo
    have kept := kept_of_mem_targets ran made
    have keptToo := kept_of_mem_targets ranToo madeToo
    have compatible := firstKindsAgree_iff.mp (agree first kept)
    rw [kept.targets] at made
    rw [keptToo.targets] at madeToo
    obtain ⟨method, walks, leads⟩ := exists_accepted_of_flatMap made
    obtain ⟨methodToo, walksToo, leadsToo⟩ := exists_accepted_of_flatMap madeToo
    have same := compatible method walks methodToo (arranged.perm_walked.mem_iff.mpr walksToo)
      _ leads _ leadsToo rfl
    exact (Prod.mk.inj same).2

end Kinds

section Sample

/-- Two overloads of one library method: the one returns the connection it is called on, the
other an entry of it. -/
def overloadedClasses : List ClassInfo :=
  [sampleInfo "demo.A" "java.lang.Object" []
    [{ name := "f"
       descriptor := "(Lorg/jsoup/Connection;)V"
       accessFlags := 0x0001
       invocations :=
         [⟨.invokeinterface, "org.jsoup.Connection", "data",
           "(Ljava/lang/String;Ljava/lang/String;)Lorg/jsoup/Connection;", 2⟩]
       startLine := 2
       endLine := 2 },
     { name := "g"
       descriptor := "(Lorg/jsoup/Connection;)V"
       accessFlags := 0x0001
       invocations :=
         [⟨.invokeinterface, "org.jsoup.Connection", "data",
           "(Ljava/lang/String;)Lorg/jsoup/Connection$KeyVal;", 3⟩]
       startLine := 3
       endLine := 3 }]]

/-- The same class, its methods in reverse. -/
def turnedClasses : List ClassInfo :=
  overloadedClasses.map fun info => { info with methods := info.methods.reverse }

def overloadedNodes : List Node :=
  [sampleClass "demo.A" "A.java",
   sampleMethod "demo.A" "f" "(Connection)" ["Connection"] "A.java" .method,
   sampleMethod "demo.A" "g" "(Connection)" ["Connection"] "A.java" .method]

/-- The kind of the target is that of the method that comes first. -/
theorem overloaded_unstable :
    ¬ ExternalKindsStable sampleSettings overloadedNodes overloadedClasses := by
  intro stable
  have arranged : Rearranged overloadedClasses turnedClasses :=
    ⟨turnedClasses, .cons ⟨rfl, (List.reverse_perm _).symm⟩ .nil, .refl _⟩
  have kept : Kept sampleSettings overloadedNodes overloadedClasses
      (keptOutcome sampleSettings overloadedNodes overloadedClasses) :=
    Kept.of_guards ⟨by decide +kernel, by decide +kernel⟩
  have turned : Kept sampleSettings overloadedNodes turnedClasses
      (keptOutcome sampleSettings overloadedNodes turnedClasses) := arranged.kept kept
  have same := stable turnedClasses arranged _ _ kept.1 turned.1
    (externalId plainId "org.jsoup.Connection" "data") .dbAcquire .dbOther
    (by decide +kernel) (by decide +kernel)
  cases same

end Sample

end GraphIngest.Bytecode
