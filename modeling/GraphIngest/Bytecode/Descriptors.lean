import GraphIngest.Bytecode.ClassFile
import Mathlib.Data.List.TakeWhile

/-! # Method descriptors

The descriptors of methods as the class-file format has them, and which texts the
reader of parameter descriptors takes for one. It looks for an opening
parenthesis anywhere, takes any letter as a type and any text up to a semicolon
as a class name, stops at the closing parenthesis or at the end, and does not
look at what stands behind. Every descriptor is split into its parameters; a
text that is no descriptor is refused exactly when it breaks off inside a
parameter or has no opening parenthesis at all.
-/

namespace GraphIngest.Bytecode

open Foundation Text

section Grammar

/-- The primitive types. -/
inductive BaseType
  | byte | char | double | float | int | long | short | boolean
deriving DecidableEq, Repr

def BaseType.letter : BaseType → Char
  | byte => 'B'
  | char => 'C'
  | double => 'D'
  | float => 'F'
  | int => 'I'
  | long => 'J'
  | short => 'S'
  | boolean => 'Z'

/-- A name between the slashes of a class name. -/
structure UnqualifiedName where
  letters : Str
  nonempty : letters ≠ []
  plain : ∀ letter ∈ letters, letter ≠ '.' ∧ letter ≠ ';' ∧ letter ≠ '[' ∧ letter ≠ '/'

/-- A class or interface name: one name or more, with slashes between them. -/
structure ClassName where
  first : UnqualifiedName
  rest : List UnqualifiedName

def ClassName.encode (name : ClassName) : Str :=
  name.first.letters ++ name.rest.flatMap fun part => '/' :: part.letters

/-- The types of fields and parameters. -/
inductive FieldType
  | base (type : BaseType)
  | object (name : ClassName)
  | array (component : FieldType)

def FieldType.encode : FieldType → Str
  | base type => [type.letter]
  | object name => 'L' :: (name.encode ++ [';'])
  | array component => '[' :: component.encode

/-- A method descriptor; without a result type the method returns nothing. -/
structure MethodDescriptor where
  params : List FieldType
  result : Option FieldType

def MethodDescriptor.encode (descriptor : MethodDescriptor) : Str :=
  '(' :: (descriptor.params.flatMap FieldType.encode ++
    ')' :: (descriptor.result.map FieldType.encode).getD ['V'])

/-- A class name has no semicolon, so the first one ends it. -/
theorem ClassName.semicolon_not_mem (name : ClassName) : ';' ∉ name.encode := by
  rw [ClassName.encode, List.mem_append, List.mem_flatMap]
  rintro (inFirst | ⟨part, -, inPart⟩)
  · exact (name.first.plain _ inFirst).2.1 rfl
  · rcases List.mem_cons.mp inPart with slash | inName
    · exact absurd slash (by decide)
    · exact (part.plain _ inName).2.1 rfl

end Grammar

section Pieces

/-- What the reader takes for one parameter: any letter, or any text between an
`L` and a semicolon, behind any number of brackets. Without brackets the closing
parenthesis is no parameter. -/
inductive IsPiece : Str → Prop
  | letter (dims : Nat) (letter : Char) (single : letter ≠ '[' ∧ letter ≠ 'L')
      (inside : dims = 0 → letter ≠ ')') : IsPiece (List.replicate dims '[' ++ [letter])
  | object (dims : Nat) (name : Str) (closed : ';' ∉ name) :
      IsPiece (List.replicate dims '[' ++ 'L' :: (name ++ [';']))

/-- A text that breaks off inside a parameter: behind brackets, or in a class
name. -/
inductive IsCut : Str → Prop
  | dims (dims : Nat) : IsCut (List.replicate (dims + 1) '[')
  | object (dims : Nat) (name : Str) (unclosed : ';' ∉ name) :
      IsCut (List.replicate dims '[' ++ 'L' :: name)

/-- The end of the parameters: the closing parenthesis, or the end of the text. -/
def IsStop (text : Str) : Prop := text = [] ∨ text.head? = some ')'

/-- A letter between two types opens one, is one or ends the list. -/
theorem readParams_between_cons (taken : Str) (letter : Char) (rest : Str) :
    readParams .between taken (letter :: rest) =
      if letter = ')' then some []
      else if letter = '[' then readParams .inArray [letter] rest
      else if letter = 'L' then readParams .inObject [letter] rest
      else (readParams .between [] rest).map ([letter] :: ·) :=
  rfl

theorem readParams_inArray_cons (taken : Str) (letter : Char) (rest : Str) :
    readParams .inArray taken (letter :: rest) =
      if letter = '[' then readParams .inArray (taken ++ [letter]) rest
      else if letter = 'L' then readParams .inObject (taken ++ [letter]) rest
      else (readParams .between [] rest).map ((taken ++ [letter]) :: ·) :=
  rfl

theorem readParams_inObject_cons (taken : Str) (letter : Char) (rest : Str) :
    readParams .inObject taken (letter :: rest) =
      if letter = ';' then (readParams .between [] rest).map ((taken ++ [letter]) :: ·)
      else readParams .inObject (taken ++ [letter]) rest :=
  rfl

/-- Brackets are taken one after the other. -/
theorem readParams_brackets (dims : Nat) (taken rest : Str) :
    readParams .inArray taken (List.replicate dims '[' ++ rest) =
      readParams .inArray (taken ++ List.replicate dims '[') rest := by
  induction dims generalizing taken with
  | zero => rw [List.replicate_zero, List.nil_append, List.append_nil]
  | succ dims ih =>
      rw [List.replicate_succ, List.cons_append, readParams_inArray_cons, if_pos rfl, ih,
        List.append_assoc, List.singleton_append]

/-- A class name is taken up to its semicolon. -/
theorem readParams_name {name : Str} (closed : ';' ∉ name) (taken rest : Str) :
    readParams .inObject taken (name ++ rest) = readParams .inObject (taken ++ name) rest := by
  induction name generalizing taken with
  | nil => rw [List.nil_append, List.append_nil]
  | cons letter name ih =>
      have other : letter ≠ ';' := fun same => closed (same ▸ List.mem_cons_self)
      have behind : ';' ∉ name := fun listed => closed (List.mem_cons_of_mem letter listed)
      rw [List.cons_append, readParams_inObject_cons, if_neg other, ih behind,
        List.append_assoc, List.singleton_append]

/-- Behind brackets a letter ends the parameter. -/
theorem readParams_letter {letter : Char} (single : letter ≠ '[' ∧ letter ≠ 'L')
    (taken rest : Str) : readParams .inArray taken (letter :: rest) =
      (readParams .between [] rest).map ((taken ++ [letter]) :: ·) := by
  rw [readParams_inArray_cons, if_neg single.1, if_neg single.2]

/-- Behind brackets an `L` starts a class name. -/
theorem readParams_open (taken rest : Str) : readParams .inArray taken ('L' :: rest) =
    readParams .inObject (taken ++ ['L']) rest := by
  rw [readParams_inArray_cons, if_neg (by decide), if_pos rfl]

/-- In front of a parameter a bracket, a letter or an `L` does what it does behind
other brackets. -/
theorem readParams_between {letter : Char} (inside : letter ≠ ')') (rest : Str) :
    readParams .between [] (letter :: rest) = readParams .inArray [] (letter :: rest) := by
  rw [readParams_between_cons, readParams_inArray_cons, if_neg inside]
  rfl

/-- The dimensions of an array are taken in front of its element type. -/
theorem readParams_front {dims : Nat} {letter : Char} (inside : dims = 0 → letter ≠ ')')
    (rest : Str) : readParams .between [] (List.replicate dims '[' ++ letter :: rest) =
      readParams .inArray (List.replicate dims '[') (letter :: rest) := by
  cases dims with
  | zero => exact readParams_between (inside rfl) rest
  | succ dims =>
      have bracket : '[' ≠ ')' := by decide
      rw [List.replicate_succ, List.cons_append, readParams_between bracket, ← List.cons_append,
        ← List.replicate_succ, readParams_brackets, List.nil_append]

/-- One parameter is taken as it is. -/
theorem IsPiece.readParams {piece : Str} (isPiece : IsPiece piece) (rest : Str) :
    Bytecode.readParams .between [] (piece ++ rest) =
      (Bytecode.readParams .between [] rest).map (piece :: ·) := by
  cases isPiece with
  | letter dims letter single inside =>
      rw [List.append_assoc, List.singleton_append, readParams_front inside,
        readParams_letter single]
  | object dims name closed =>
      have inside : dims = 0 → 'L' ≠ ')' := fun _ => by decide
      rw [List.append_assoc, List.cons_append, List.append_assoc, readParams_front inside,
        readParams_open, readParams_name closed, List.singleton_append,
        readParams_inObject_cons, if_pos rfl]
      simp only [List.append_assoc, List.cons_append, List.nil_append]

/-- Parameters are taken one after the other. -/
theorem readParams_pieces {pieces : List Str} (arePieces : ∀ piece ∈ pieces, IsPiece piece)
    (rest : Str) : readParams .between [] (pieces.flatten ++ rest) =
      (readParams .between [] rest).map (pieces ++ ·) := by
  induction pieces with
  | nil => exact Option.map_id'.symm
  | cons piece pieces ih =>
      obtain ⟨isPiece, others⟩ := List.forall_mem_cons.mp arePieces
      rw [List.flatten_cons, List.append_assoc, isPiece.readParams, ih others, Option.map_map]
      rfl

/-- Behind the closing parenthesis nothing is read. -/
theorem IsStop.readParams {text : Str} (isStop : IsStop text) :
    Bytecode.readParams .between [] text = some [] := by
  cases text with
  | nil => rfl
  | cons letter rest =>
      have closing : letter = ')' := Option.some.inj (isStop.resolve_left (List.cons_ne_nil _ _))
      rw [readParams_between_cons, if_pos closing]

/-- A list that is cut off is not read. -/
theorem IsCut.readParams {text : Str} (isCut : IsCut text) :
    Bytecode.readParams .between [] text = none := by
  cases isCut with
  | dims dims =>
      have bracket : '[' ≠ ')' := by decide
      rw [List.replicate_succ, readParams_between bracket, ← List.replicate_succ,
        ← List.append_nil (List.replicate (dims + 1) '['), readParams_brackets]
      rfl
  | object dims name unclosed =>
      have inside : dims = 0 → 'L' ≠ ')' := fun _ => by decide
      rw [readParams_front inside, readParams_open, ← List.append_nil name,
        readParams_name unclosed]
      rfl

theorem IsPiece.bracket {piece : Str} (isPiece : IsPiece piece) : IsPiece ('[' :: piece) := by
  cases isPiece with
  | letter dims letter single inside =>
      exact .letter (dims + 1) letter single fun none => absurd none (Nat.succ_ne_zero dims)
  | object dims name closed => exact .object (dims + 1) name closed

theorem IsPiece.ne_nil {piece : Str} (isPiece : IsPiece piece) : piece ≠ [] := by
  cases isPiece with
  | letter dims letter single inside =>
      exact List.append_ne_nil_of_right_ne_nil _ (List.cons_ne_nil letter [])
  | object dims name closed => exact List.append_ne_nil_of_right_ne_nil _ (List.cons_ne_nil 'L' _)

/-- The brackets in front of a text. -/
theorem exists_brackets (text : Str) :
    ∃ dims rest, text = List.replicate dims '[' ++ rest ∧ rest.head? ≠ some '[' := by
  induction text with
  | nil => exact ⟨0, [], rfl, Option.some_ne_none '[' ∘ Eq.symm⟩
  | cons letter text ih =>
      by_cases bracket : letter = '['
      · obtain ⟨dims, rest, rfl, other⟩ := ih
        exact ⟨dims + 1, rest, by rw [bracket, List.replicate_succ, List.cons_append], other⟩
      · exact ⟨0, letter :: text, rfl, fun same => bracket (Option.some.inj same)⟩

/-- In front of a text stands the end of the parameters or a parameter, or the text
breaks off inside one. -/
theorem exists_piece (text : Str) :
    IsStop text ∨ IsCut text ∨ ∃ piece rest, IsPiece piece ∧ text = piece ++ rest := by
  obtain ⟨dims, rest, rfl, other⟩ := exists_brackets text
  cases rest with
  | nil =>
      rw [List.append_nil]
      cases dims with
      | zero => exact .inl (.inl rfl)
      | succ dims => exact .inr (.inl (.dims dims))
  | cons letter rest =>
      have noBracket : letter ≠ '[' := fun same => other (congrArg some same)
      by_cases opens : letter = 'L'
      · subst opens
        by_cases closed : ';' ∈ rest
        · obtain ⟨name, behind, rfl, unclosed⟩ := List.eq_append_cons_of_mem closed
          refine .inr (.inr ⟨_, behind, .object dims name unclosed, ?_⟩)
          simp only [List.append_assoc, List.cons_append, List.nil_append]
        · exact .inr (.inl (.object dims rest closed))
      · by_cases stops : dims = 0 ∧ letter = ')'
        · obtain ⟨rfl, rfl⟩ := stops
          exact .inl (.inr rfl)
        · refine .inr (.inr ⟨_, rest, .letter dims letter ⟨noBracket, opens⟩ fun none closing =>
            stops ⟨none, closing⟩, ?_⟩)
          rw [List.append_assoc, List.singleton_append]

/-- Every text is a sequence of parameters up to their end, or up to one it breaks
off in. -/
theorem exists_pieces (text : Str) :
    ∃ (pieces : List Str) (tail : Str), text = pieces.flatten ++ tail ∧
      (∀ piece ∈ pieces, IsPiece piece) ∧ (IsStop tail ∨ IsCut tail) := by
  induction size : text.length using Nat.strong_induction_on generalizing text with
  | _ count ih =>
      rcases exists_piece text with stops | cut | ⟨piece, rest, isPiece, rfl⟩
      · exact ⟨[], text, rfl, fun _ listed => absurd listed List.not_mem_nil, .inl stops⟩
      · exact ⟨[], text, rfl, fun _ listed => absurd listed List.not_mem_nil, .inr cut⟩
      · have some := List.length_pos_iff.mpr isPiece.ne_nil
        rw [List.length_append] at size
        obtain ⟨pieces, tail, rfl, arePieces, ends⟩ := ih rest.length (by omega) rest rfl
        refine ⟨piece :: pieces, tail, ?_, List.forall_mem_cons.mpr ⟨isPiece, arePieces⟩, ends⟩
        rw [List.flatten_cons, List.append_assoc]

end Pieces

section Exactness

theorem descriptorParamTypes_of_not_mem {text : Str} (absent : '(' ∉ text) :
    descriptorParamTypes text = none := by
  have all : text.dropWhile (fun letter => letter != '(') = [] := by
    apply List.dropWhile_eq_nil_iff.mpr
    intro letter listed
    rw [bne_iff_ne]
    exact fun same => absent (same ▸ listed)
  rw [descriptorParamTypes, all]

/-- What is read begins behind the first opening parenthesis. -/
theorem descriptorParamTypes_open {before : Str} (absent : '(' ∉ before) (rest : Str) :
    descriptorParamTypes (before ++ '(' :: rest) = readParams .between [] rest := by
  have front : (before ++ '(' :: rest).dropWhile (fun letter => letter != '(') = '(' :: rest := by
    rw [List.dropWhile_append_of_pos, List.dropWhile_cons_of_neg]
    · exact fun other => absurd rfl (bne_iff_ne.mp other)
    · intro letter listed
      rw [bne_iff_ne]
      exact fun same => absent (same ▸ listed)
  rw [descriptorParamTypes, front]

/-- A text without an opening parenthesis, or one that behind the first of them
breaks off inside a parameter. -/
def BreaksOff (text : Str) : Prop :=
  '(' ∉ text ∨ ∃ (before : Str) (pieces : List Str) (cut : Str),
    text = before ++ '(' :: (pieces.flatten ++ cut) ∧ '(' ∉ before ∧
      (∀ piece ∈ pieces, IsPiece piece) ∧ IsCut cut

/-- **Refusals.** The reader refuses exactly the texts that break off. -/
theorem descriptorParamTypes_eq_none_iff (text : Str) :
    descriptorParamTypes text = none ↔ BreaksOff text := by
  constructor
  · intro refused
    by_cases opens : '(' ∈ text
    · obtain ⟨before, rest, rfl, absent⟩ := List.eq_append_cons_of_mem opens
      obtain ⟨pieces, tail, rfl, arePieces, stops | cut⟩ := exists_pieces rest
      · rw [descriptorParamTypes_open absent, readParams_pieces arePieces, stops.readParams]
          at refused
        cases refused
      · exact .inr ⟨before, pieces, tail, rfl, absent, arePieces, cut⟩
    · exact .inl opens
  · rintro (absent | ⟨before, pieces, cut, rfl, absent, arePieces, isCut⟩)
    · exact descriptorParamTypes_of_not_mem absent
    · rw [descriptorParamTypes_open absent, readParams_pieces arePieces, isCut.readParams]
      rfl

/-- An encoded type is one piece of the list. -/
theorem FieldType.isPiece (type : FieldType) : IsPiece type.encode := by
  induction type with
  | base type => exact .letter 0 type.letter (by cases type <;> decide) (by cases type <;> decide)
  | object name => exact .object 0 name.encode name.semicolon_not_mem
  | array component ih => exact ih.bracket

/-- **Descriptors.** Every method descriptor is split into its parameters. -/
theorem descriptorParamTypes_encode (descriptor : MethodDescriptor) :
    descriptorParamTypes descriptor.encode = some (descriptor.params.map FieldType.encode) := by
  have arePieces : ∀ piece ∈ descriptor.params.map FieldType.encode, IsPiece piece := by
    intro piece listed
    obtain ⟨type, -, rfl⟩ := List.mem_map.mp listed
    exact type.isPiece
  have stops : IsStop (')' :: (descriptor.result.map FieldType.encode).getD ['V']) := .inr rfl
  have opening := @descriptorParamTypes_open [] List.not_mem_nil
  rw [MethodDescriptor.encode, ← List.nil_append ('(' :: _), opening, List.flatMap_def,
    readParams_pieces arePieces, stops.readParams, Option.map_some, List.append_nil]

/-- The reader returns a list for a text exactly when the text is a method
descriptor and the list that of its parameters. -/
def SplitsExactly (text : Str) : Prop :=
  ∀ params, descriptorParamTypes text = some params ↔
    ∃ descriptor : MethodDescriptor, descriptor.encode = text ∧
      descriptor.params.map FieldType.encode = params

/-- **Exactness.** The reader treats a text as the format does exactly when the
text is a method descriptor or breaks off. -/
theorem splitsExactly_iff (text : Str) :
    SplitsExactly text ↔
      (∃ descriptor : MethodDescriptor, descriptor.encode = text) ∨ BreaksOff text := by
  constructor
  · intro splits
    cases read : descriptorParamTypes text with
    | none => exact .inr ((descriptorParamTypes_eq_none_iff text).mp read)
    | some params =>
        obtain ⟨descriptor, same, -⟩ := (splits params).mp read
        exact .inl ⟨descriptor, same⟩
  · intro either params
    constructor
    · intro read
      rcases either with ⟨descriptor, rfl⟩ | breaks
      · rw [descriptorParamTypes_encode, Option.some.injEq] at read
        exact ⟨descriptor, rfl, read⟩
      · rw [(descriptorParamTypes_eq_none_iff text).mpr breaks] at read
        cases read
    · rintro ⟨descriptor, rfl, rfl⟩
      exact descriptorParamTypes_encode descriptor

theorem closing_mem_encode (descriptor : MethodDescriptor) : ')' ∈ descriptor.encode :=
  List.mem_cons_of_mem '(' (List.mem_append_right _ List.mem_cons_self)

/-- A parameter list that is never closed is taken for one of an `int`. -/
theorem unclosed_is_accepted : ¬ SplitsExactly "(I" := by
  intro splits
  have read : descriptorParamTypes "(I" = some ["I".toList] := by decide
  obtain ⟨descriptor, same, -⟩ := (splits _).mp read
  have closing := closing_mem_encode descriptor
  rw [same] at closing
  exact absurd closing (by decide)

end Exactness

end GraphIngest.Bytecode
