import GraphIngest.Bytecode.Guards

/-! # The identity of synthesized bodies

A body without a source declaration gets its node id from the source name in use,
a name scheme and its descriptor. The scheme keeps the binary tail of an anonymous
class for the ordinary methods only: a lambda body or a static initializer keeps
its own name, wherever it is, and is charged to the class around an anonymous one.
Two bodies are told apart exactly where those pieces tell them apart.
-/

namespace GraphIngest.Bytecode

open Foundation Text Graph

namespace Body

/-- The pieces of a synthesized node's identity: source name, scheme name and
descriptor. -/
def pieces (body : Body) : Option (Str × Str × Str) :=
  (synthesizedName body.info body.method).map fun named =>
    (body.owner.fqn, named.2, body.method.descriptor)

/-- The binary class, the method name and the descriptor a body comes from. -/
def origin (body : Body) : Str × Str × Str :=
  (body.info.name, body.method.name, body.method.descriptor)

/-- Two bodies alike in source name, method name and descriptor, and in the binary
tail too where both are ordinary methods of anonymous classes. -/
def Alike (body other : Body) : Prop :=
  body.owner.fqn = other.owner.fqn ∧ body.method.name = other.method.name ∧
    body.method.descriptor = other.method.descriptor ∧
      (body.method.isLambdaBody ∨ body.method.isClassInitializer ∨
        afterLast '$' body.info.name = afterLast '$' other.info.name)

end Body

/-- The text a node id is made of. -/
def identityText (pieces : Str × Str × Str) : Str := methodFqn pieces.1 pieces.2.1 ++ pieces.2.2

section Identity

variable (settings : Settings) (index : NodeIndex) (classes : List ClassInfo)

/-- The walked bodies with a synthesized node. -/
def synthesizedBodies : List Body :=
  (bodies settings index classes).filter fun body => callerNeedsSynthesis body.info body.method

/-- Synthesized nodes share an id only if they come from one binary class, method
name and descriptor. -/
def IdentifiesBodies : Prop :=
  ∀ body ∈ synthesizedBodies settings index classes,
    ∀ other ∈ synthesizedBodies settings index classes,
      body.caller = other.caller → body.origin = other.origin

/-- Bodies that are alike come from one binary class. -/
def AlikeWithinClass : Prop :=
  ∀ body ∈ synthesizedBodies settings index classes,
    ∀ other ∈ synthesizedBodies settings index classes,
      body.Alike other → body.info.name = other.info.name

/-- No two lists of pieces run together into one text. -/
def Legible : Prop :=
  ∀ body ∈ synthesizedBodies settings index classes,
    ∀ other ∈ synthesizedBodies settings index classes,
      ∀ pieces ∈ body.pieces, ∀ others ∈ other.pieces,
        identityText pieces = identityText others → pieces = others

variable {settings index classes}

theorem id_of_synthesizeNode {info : ClassInfo} {method : MethodInfo} {owner : Owner}
    {node : Node} (made : synthesizeNode settings info method owner = .ok (some node)) :
    ∃ scheme, synthesizedName info method = some scheme ∧
      node.id = settings.makeId settings.repo
        (identityText (owner.fqn, scheme.2, method.descriptor)) "method" := by
  unfold synthesizeNode at made
  split at made
  · cases made
  · cases named : synthesizedName info method with
    | none =>
        rw [named] at made
        cases made
    | some scheme =>
        rw [named] at made
        cases read : descriptorParamTypes method.descriptor with
        | none =>
            rw [read] at made
            cases made
        | some types =>
            rw [read] at made
            cases made
            exact ⟨scheme, rfl, rfl⟩

/-- A walked body that needs a node has its pieces, and the id made of them. -/
theorem pieces_of_mem_synthesizedBodies {body : Body}
    (made : body ∈ synthesizedBodies settings index classes) :
    ∃ pieces ∈ body.pieces,
      body.caller = settings.makeId settings.repo (identityText pieces) "method" := by
  obtain ⟨walked, needed⟩ := List.mem_filter.mp made
  obtain ⟨_, _, _, called⟩ := mem_bodies_iff.mp walked
  unfold callerOf at called
  split at called
  · cases called
  · split at called
    · cases called
    · cases called
    · next node settled =>
      obtain ⟨scheme, named, spelled⟩ := id_of_synthesizeNode settled
      refine ⟨_, Option.mem_def.mpr (by rw [Body.pieces, named, Option.map_some]), ?_⟩
      rw [← spelled]
      exact (Option.some.inj called).symm

/-- The first letter of a scheme name tells the three constructs apart. -/
theorem synthesizedName_eq_some {info : ClassInfo} {method : MethodInfo} {kind : NodeKind}
    {name : Str} (named : synthesizedName info method = some (kind, name)) :
    name = method.name ∧ (method.isLambdaBody = true ∨ method.isClassInitializer = true) ∨
      method.isLambdaBody = false ∧ method.isClassInitializer = false ∧
        isdigit (afterLast '$' info.name) = true ∧
          name = afterLast '$' info.name ++ '.' :: method.name := by
  unfold synthesizedName at named
  split at named
  · next lambda =>
    cases named
    exact Or.inl ⟨rfl, Or.inl lambda⟩
  · next ordinary =>
    split at named
    · next initializer =>
      cases named
      exact Or.inl ⟨(beq_iff_eq.mp initializer).symm, Or.inr initializer⟩
    · next declared =>
      split at named
      · next anonymous =>
        cases named
        refine Or.inr ⟨Bool.eq_false_of_not_eq_true ordinary,
          Bool.eq_false_of_not_eq_true declared, ?_, rfl⟩
        unfold ClassInfo.isAnonymous at anonymous
        split at anonymous
        · exact anonymous
        · cases anonymous
      · cases named

/-- A name that begins with the digits of a binary tail is no lambda's and no
initializer's. -/
theorem ordinary_of_digits {tail rest : Str} (digits : isdigit tail = true) {method : MethodInfo}
    (same : method.name = tail ++ rest) :
    method.isLambdaBody = false ∧ method.isClassInitializer = false := by
  unfold isdigit at digits
  cases tail with
  | nil => cases digits
  | cons first others =>
      simp only [List.isEmpty_cons, Bool.not_false, Bool.true_and, List.all_cons,
        Bool.and_eq_true] at digits
      constructor
      · refine Bool.eq_false_of_not_eq_true fun lambda => ?_
        rw [MethodInfo.isLambdaBody, same] at lambda
        obtain ⟨back, whole⟩ := List.isPrefixOf_iff_prefix.mp lambda
        have first_eq : 'l' = first := (List.cons.inj whole).1
        rw [← first_eq] at digits
        exact absurd digits.1 (by decide)
      · refine Bool.eq_false_of_not_eq_true fun initializer => ?_
        have whole := (beq_iff_eq.mp initializer).symm.trans same
        have first_eq : '<' = first := (List.cons.inj whole).1
        rw [← first_eq] at digits
        exact absurd digits.1 (by decide)

/-- A text of digits holds no dot. -/
theorem dot_not_mem_of_isdigit {text : Str} (digits : isdigit text = true) : '.' ∉ text := by
  intro dotted
  unfold isdigit at digits
  rw [Bool.and_eq_true, List.all_eq_true] at digits
  exact absurd (digits.2 '.' dotted) (by decide)

/-- Lambda bodies and initializers are known by their names. -/
theorem special_congr {method other : MethodInfo} (same : method.name = other.name) :
    method.isLambdaBody = other.isLambdaBody ∧
      method.isClassInitializer = other.isClassInitializer := by
  simp only [MethodInfo.isLambdaBody, MethodInfo.isClassInitializer, same, and_self]

/-- The pieces of two bodies are the same exactly when the bodies are alike. -/
theorem pieces_eq_iff_alike {body other : Body} {pieces others : Str × Str × Str}
    (spelled : pieces ∈ body.pieces) (otherwise : others ∈ other.pieces) :
    pieces = others ↔ body.Alike other := by
  obtain ⟨⟨kind, name⟩, named, rfl⟩ := Option.map_eq_some_iff.mp spelled
  obtain ⟨⟨otherKind, otherName⟩, otherNamed, rfl⟩ := Option.map_eq_some_iff.mp otherwise
  simp only [Prod.mk.injEq, Body.Alike]
  refine and_congr_right fun _ => ?_
  rcases synthesizedName_eq_some named with
    ⟨rfl, special⟩ | ⟨lambda, initializer, digits, rfl⟩ <;>
    rcases synthesizedName_eq_some otherNamed with
      ⟨rfl, otherSpecial⟩ | ⟨otherLambda, otherInitializer, otherDigits, rfl⟩
  · simp only [← or_assoc, special, true_or, and_true]
  · constructor
    · rintro ⟨same, _⟩
      obtain ⟨lambda, initializer⟩ := ordinary_of_digits otherDigits same
      simp only [lambda, initializer, Bool.false_eq_true, or_self] at special
    · rintro ⟨same, _⟩
      simp only [special_congr same, otherLambda, otherInitializer, Bool.false_eq_true,
        or_self] at special
  · constructor
    · rintro ⟨same, _⟩
      obtain ⟨otherLambda, otherInitializer⟩ := ordinary_of_digits digits same.symm
      simp only [otherLambda, otherInitializer, Bool.false_eq_true, or_self] at otherSpecial
    · rintro ⟨same, _⟩
      simp only [special_congr same.symm, lambda, initializer, Bool.false_eq_true,
        or_self] at otherSpecial
  · rw [append_cons_inj_left (dot_not_mem_of_isdigit digits)
      (dot_not_mem_of_isdigit otherDigits)]
    simp only [lambda, initializer, Bool.false_eq_true, false_or]
    constructor
    · rintro ⟨⟨tails, names⟩, descriptors⟩
      exact ⟨names, descriptors, tails⟩
    · rintro ⟨names, descriptors, tails⟩
      exact ⟨⟨tails, names⟩, descriptors⟩

/-- Bodies of one origin are alike: the source name in use is that of the class. -/
theorem alike_of_origin_eq {body other : Body}
    (made : body ∈ synthesizedBodies settings index classes)
    (making : other ∈ synthesizedBodies settings index classes)
    (same : body.origin = other.origin) : body.Alike other := by
  obtain ⟨_, owned, _, _⟩ := mem_bodies_iff.mp (List.mem_filter.mp made).1
  obtain ⟨_, owning, _, _⟩ := mem_bodies_iff.mp (List.mem_filter.mp making).1
  simp only [Body.origin, Prod.mk.injEq] at same
  have outer : body.info.outerName = other.info.outerName := by
    rw [ClassInfo.outerName, ClassInfo.outerName, same.1]
  have owners : ownerOf index body.info = ownerOf index other.info := by
    unfold ownerOf
    rw [same.1, outer]
  rw [owned, owning, Option.some.injEq] at owners
  exact ⟨congrArg Owner.fqn owners, same.2.1, same.2.2,
    Or.inr (Or.inr (congrArg (afterLast '$') same.1))⟩

/-- Names without the joining letters do not run together. -/
theorem legible_of_plain
    (plain : ∀ body ∈ synthesizedBodies settings index classes, ∀ pieces ∈ body.pieces,
      '#' ∉ pieces.1 ∧ '(' ∉ pieces.2.1 ∧ pieces.2.2.head? = some '(') :
    Legible settings index classes := by
  intro body made other making pieces spelled others otherwise joined
  obtain ⟨owner, name, descriptor⟩ := pieces
  obtain ⟨otherOwner, otherName, otherDescriptor⟩ := others
  obtain ⟨clean, bare, opened⟩ := plain body made _ spelled
  obtain ⟨otherClean, otherBare, otherOpened⟩ := plain other making _ otherwise
  obtain ⟨rest, rfl⟩ := List.head?_eq_some_iff.mp opened
  obtain ⟨otherRest, rfl⟩ := List.head?_eq_some_iff.mp otherOpened
  simp only [identityText, methodFqn, List.append_assoc, List.cons_append] at joined
  obtain ⟨rfl, tails⟩ := (append_cons_inj_left clean otherClean).mp joined
  obtain ⟨rfl, rfl⟩ := (append_cons_inj_left bare otherBare).mp tails
  rfl

/-- **Identity of synthesized bodies.** An id stands for one binary class, method
name and descriptor exactly when alike bodies are of one class and no pieces run
together. -/
theorem identifiesBodies_iff (settings : Settings) (index : NodeIndex) (classes : List ClassInfo)
    (injective : ∀ repo kind, Function.Injective fun fqn => settings.makeId repo fqn kind) :
    IdentifiesBodies settings index classes ↔
      AlikeWithinClass settings index classes ∧ Legible settings index classes := by
  constructor
  · intro identifies
    constructor
    · intro body made other making alike
      obtain ⟨pieces, spelled, id⟩ := pieces_of_mem_synthesizedBodies made
      obtain ⟨others, otherwise, otherId⟩ := pieces_of_mem_synthesizedBodies making
      have same := (pieces_eq_iff_alike spelled otherwise).mpr alike
      rw [same, ← otherId] at id
      exact congrArg Prod.fst (identifies body made other making id)
    · intro body made other making pieces spelled others otherwise joined
      obtain ⟨_, respelled, id⟩ := pieces_of_mem_synthesizedBodies made
      obtain ⟨_, otherRespelled, otherId⟩ := pieces_of_mem_synthesizedBodies making
      cases Option.mem_unique spelled respelled
      cases Option.mem_unique otherwise otherRespelled
      rw [joined, ← otherId] at id
      exact (pieces_eq_iff_alike spelled otherwise).mpr
        (alike_of_origin_eq made making (identifies body made other making id))
  · rintro ⟨within, legible⟩ body made other making id
    obtain ⟨pieces, spelled, built⟩ := pieces_of_mem_synthesizedBodies made
    obtain ⟨others, otherwise, otherBuilt⟩ := pieces_of_mem_synthesizedBodies making
    have joined := injective _ _ (built.symm.trans (id.trans otherBuilt))
    have alike := (pieces_eq_iff_alike spelled otherwise).mp
      (legible body made other making pieces spelled others otherwise joined)
    simp only [Body.origin, Prod.mk.injEq]
    exact ⟨within body made other making alike, alike.2.1, alike.2.2.1⟩

/-- Distinct texts have distinct ids in the sample runs. -/
theorem plainId_injective (repo kind : Str) :
    Function.Injective fun fqn => plainId repo fqn kind := by
  intro fqn other same
  have texts : '#' :: (repo ++ '|' :: kind ++ '|' :: fqn) =
      '#' :: (repo ++ '|' :: kind ++ '|' :: other) := congrArg Subtype.val same
  simpa only [List.cons.injEq, true_and, List.append_cancel_left_eq] using texts

/-- `Outer` and its anonymous `Outer$1` both have a lambda in a method `run`. -/
def twinLambda : MethodInfo where
  name := "lambda$run$0"
  descriptor := "()V"
  accessFlags := 0x100A
  startLine := 4
  endLine := 4

/-- A method `run` at a line. -/
def twinRun (line : Nat) : MethodInfo where
  name := "run"
  descriptor := "()V"
  accessFlags := 0x0001
  startLine := line
  endLine := line

/-- The two compiled classes. -/
def twinInfos : List ClassInfo :=
  [sampleInfo "Outer" "java.lang.Object" [] [twinRun 3, twinLambda],
   sampleInfo "Outer$1" "java.lang.Object" ["java.lang.Runnable"]
    [twinRun 7, { twinLambda with startLine := 8, endLine := 8 }]]

/-- The index over the declared class and its method. -/
def twinIndex : NodeIndex :=
  NodeIndex.build [sampleClass "Outer" "Outer.java",
    sampleMethod "Outer" "run" "()" [] "Outer.java" .method]

/-- Both lambdas get one node: the class around charges them under one name. The guards do not
stop the pass. -/
theorem twinLambdas_collide : (twinInfos.map ClassInfo.name).Nodup ∧
    Passes sampleSettings twinIndex twinInfos ∧
      ¬ IdentifiesBodies sampleSettings twinIndex twinInfos := by
  refine ⟨by decide, ⟨by decide +kernel, by decide +kernel, ?_⟩, fun identifies => ?_⟩
  · unfold Stale
    decide +kernel
  · have collide : ∃ body ∈ synthesizedBodies sampleSettings twinIndex twinInfos,
        ∃ other ∈ synthesizedBodies sampleSettings twinIndex twinInfos,
          body.caller = other.caller ∧ body.origin ≠ other.origin := by
      decide +kernel
    obtain ⟨body, made, other, making, id, apart⟩ := collide
    exact apart (identifies body made other making id)

/-- Two anonymous classes with a method `run`, and a lambda in the class around alone. -/
def siblingInfos : List ClassInfo :=
  [sampleInfo "Outer" "java.lang.Object" [] [twinRun 3, twinLambda],
   sampleInfo "Outer$1" "java.lang.Object" ["java.lang.Runnable"] [twinRun 7],
   sampleInfo "Outer$2" "java.lang.Object" ["java.lang.Runnable"] [twinRun 9]]

/-- The binary tails tell the two anonymous methods apart. -/
theorem identifiesBodies_siblings :
    ((synthesizedBodies sampleSettings twinIndex siblingInfos).map Body.origin).length = 5 ∧
      IdentifiesBodies sampleSettings twinIndex siblingInfos := by
  refine ⟨by decide +kernel,
    (identifiesBodies_iff sampleSettings twinIndex siblingInfos plainId_injective).mpr
      ⟨?_, legible_of_plain ?_⟩⟩
  · unfold AlikeWithinClass Body.Alike
    decide +kernel
  · decide +kernel

end Identity

end GraphIngest.Bytecode
