import GraphIngest.Analysis.Priority
import GraphIngest.Foundation.Cutting

/-! # The name of a call

A summary names the calls it has seen by their text, and two places reduce such a
text to a simple name: the signals look behind the last dot of what stands in front
of the first parenthesis, the rate of unknown callees in front of the first
parenthesis of what stands behind the last dot. The one finds the method called
first, the other is led astray by a dot among the arguments.
-/

namespace GraphIngest.Analysis

open Foundation Text

section UnknownCallees

variable (pyStr : Json → Str)

/-- The name that `unknown_callee_rate` looks up for a call. -/
def calleeTail (call : Str) : Str := strip (beforeFirst '(' (simpleName call))

/-- Whether a call counts as unknown. -/
def unknownCallee (known : List Str) (call : Json) : Bool :=
  let tail := calleeTail (shown pyStr call)
  !tail.isEmpty && !known.contains tail

/-- `known_callees.get(row.get("id", ""), set())`. -/
def knownTo (knownCallees : Dict Str (List Str)) (members : List (Str × Json)) :
    Except Fault (List Str) :=
  match (members.lookup "id".toList).getD (.string []) with
  | .string id => .ok (knownCallees.getD id [])
  | other => if hashable other then .ok [] else .error .typeError

/-- The unknown calls of one summary, and all of them. -/
def countRow (knownCallees : Dict Str (List Str)) (row : Json) : Except Fault (Nat × Nat) := do
  let members ← fieldsOf row
  let known ← knownTo knownCallees members
  let calls ← iterate (orElse (members.lookup "calls".toList) (.array []))
  .ok (calls.countP (unknownCallee pyStr known), calls.length)

/-- `unknown_callee_rate`. -/
def unknownCalleeRate (rows : List Json) (knownCallees : Dict Str (List Str)) :
    Except Fault (Nat × Nat) :=
  rows.foldlM (fun counts row => do
    let own ← countRow pyStr knownCallees row
    .ok (counts.1 + own.1, counts.2 + own.2)) (0, 0)

end UnknownCallees

section Calls

/-- A letter of a simple name. -/
def isNameLetter (letter : Char) : Bool :=
  letter != '.' && letter != '(' && letter != ')' && !inRanges spaceRanges letter

/-- A simple name. -/
structure SimpleName where
  word : Str
  named : word ≠ []
  plain : ∀ letter ∈ word, isNameLetter letter

/-- Names joined by dots. -/
structure DottedName where
  qualifiers : List SimpleName
  last : SimpleName

def DottedName.stem (name : DottedName) : Str :=
  name.qualifiers.flatMap fun qualifier => qualifier.word ++ ['.']

def DottedName.text (name : DottedName) : Str := name.stem ++ name.last.word

/-- A call that another one is chained to. -/
structure Receiver where
  name : DottedName
  arguments : Str

def Receiver.text (receiver : Receiver) : Str :=
  receiver.name.text ++ '(' :: receiver.arguments ++ [')', '.']

/-- A call: the calls it is chained to, the name called finally, and its arguments where the
text has them. -/
structure CallText where
  receivers : List Receiver
  final : DottedName
  arguments : Option Str

/-- The list of arguments as it is written. -/
def writtenArguments : Option Str → Str
  | none => []
  | some arguments => '(' :: arguments ++ [')']

def CallText.text (call : CallText) : Str :=
  call.receivers.flatMap Receiver.text ++ (call.final.text ++ writtenArguments call.arguments)

/-- The method called finally. -/
def CallText.called (call : CallText) : Str := call.final.last.word

/-- The method called first. -/
def CallText.calledFirst (call : CallText) : Str :=
  match call.receivers with
  | [] => call.called
  | receiver :: _ => receiver.name.last.word

/-- Both places reduce a call to the name of the method called finally. -/
structure NamesCalled (call : CallText) : Prop where
  bare : ∀ pyStr, bareNames pyStr (some (.array [.string call.text])) = .ok [call.called]
  tail : calleeTail call.text = call.called

/-- The name that seems to be called behind the last dot of some arguments. -/
def CallText.Misread (call : CallText) (arguments : Str) : Prop :=
  '(' ∈ simpleName arguments ∧ strip (beforeFirst '(' (simpleName arguments)) = call.called

end Calls

section Reduction

theorem SimpleName.not_mem (name : SimpleName) {letter : Char}
    (foreign : isNameLetter letter = false) :
    letter ∉ name.word := by
  intro member
  rw [name.plain letter member] at foreign
  exact Bool.noConfusion foreign

theorem SimpleName.strip_eq (name : SimpleName) : strip name.word = name.word := by
  refine stripWhile_of_forall fun letter member => ?_
  have plain := name.plain letter member
  rw [isNameLetter, Bool.and_eq_true, Bool.not_eq_true'] at plain
  exact plain.2

/-- What stands in front of the last part of a name is nothing or ends at a dot. -/
theorem DottedName.stem_cases (name : DottedName) :
    name.stem = [] ∨ ∃ front, name.stem = front ++ ['.'] := by
  cases name.qualifiers.eq_nil_or_concat' with
  | inl none =>
      rw [DottedName.stem, none]
      exact .inl rfl
  | inr some =>
      obtain ⟨others, last, whole⟩ := some
      rw [DottedName.stem, whole, List.flatMap_append, List.flatMap_singleton, ← List.append_assoc]
      exact .inr ⟨_, rfl⟩

theorem DottedName.not_mem_text (name : DottedName) : '(' ∉ name.text := by
  rw [DottedName.text, DottedName.stem, List.mem_append, List.mem_flatMap]
  intro either
  have foreign : isNameLetter '(' = false := by decide
  rcases either with ⟨qualifier, _, member⟩ | member
  · rw [List.mem_append, List.mem_singleton] at member
    exact member.elim (qualifier.not_mem foreign) (by decide)
  · exact name.last.not_mem foreign member

theorem DottedName.simpleName_text (name : DottedName) : simpleName name.text = name.last.word := by
  have plain : '.' ∉ name.last.word := name.last.not_mem (by decide)
  rw [DottedName.text]
  rcases name.stem_cases with none | ⟨front, stem⟩
  · rw [none, List.nil_append]
    exact afterLast_of_not_mem plain
  · rw [stem, List.append_assoc]
    exact afterLast_append_cons plain

/-- **Signals.** What stands in front of the first parenthesis ends in the name called first. -/
theorem simpleName_beforeFirst_text (call : CallText) :
    simpleName (beforeFirst '(' call.text) = call.calledFirst := by
  obtain ⟨receivers, final, arguments⟩ := call
  cases receivers with
  | nil =>
      change simpleName (beforeFirst '(' (final.text ++ writtenArguments arguments)) =
        final.last.word
      rw [← final.simpleName_text]
      cases arguments with
      | none => rw [writtenArguments, List.append_nil, beforeFirst,
          takeWhile_of_not_mem final.not_mem_text]
      | some arguments => rw [writtenArguments, List.cons_append, beforeFirst,
          takeWhile_append_cons final.not_mem_text]
  | cons receiver rest =>
      change _ = receiver.name.last.word
      rw [CallText.text, List.flatMap_cons, Receiver.text, List.append_assoc, List.append_assoc,
        List.append_assoc, List.cons_append, List.cons_append, beforeFirst,
        takeWhile_append_cons receiver.name.not_mem_text, receiver.name.simpleName_text]

/-- What stands in front of the name called finally is nothing or ends at a dot. -/
theorem CallText.exists_stem (call : CallText) : ∃ stem,
    call.text = stem ++ (call.called ++ writtenArguments call.arguments) ∧
      (stem = [] ∨ ∃ front, stem = front ++ ['.']) := by
  refine ⟨call.receivers.flatMap Receiver.text ++ call.final.stem, ?_, ?_⟩
  · rw [CallText.text, DottedName.text, CallText.called, List.append_assoc, List.append_assoc]
  · rcases call.final.stem_cases with none | ⟨front, stem⟩
    · rw [none, List.append_nil]
      cases call.receivers.eq_nil_or_concat' with
      | inl none =>
          rw [none]
          exact .inl rfl
      | inr some =>
          obtain ⟨others, last, whole⟩ := some
          rw [whole, List.flatMap_append, List.flatMap_singleton]
          refine .inr ⟨others.flatMap Receiver.text ++
            (last.name.text ++ '(' :: last.arguments ++ [')']), ?_⟩
          simp only [Receiver.text, List.append_assoc, List.cons_append, List.nil_append]
    · rw [stem, ← List.append_assoc]
      exact .inr ⟨_, rfl⟩

theorem CallText.called_plain (call : CallText) : '.' ∉ call.called ∧ '(' ∉ call.called :=
  ⟨call.final.last.not_mem (by decide), call.final.last.not_mem (by decide)⟩

/-- Without a dot in the arguments the last dot is in front of the name called finally. -/
theorem simpleName_text_of_plain {call : CallText}
    (plain : '.' ∉ writtenArguments call.arguments) :
    simpleName call.text = call.called ++ writtenArguments call.arguments := by
  obtain ⟨stem, whole, ends⟩ := call.exists_stem
  have undotted : '.' ∉ call.called ++ writtenArguments call.arguments := by
    rw [List.mem_append]
    exact fun either => either.elim call.called_plain.1 plain
  rw [whole]
  rcases ends with rfl | ⟨front, rfl⟩
  · exact afterLast_of_not_mem undotted
  · rw [List.append_assoc]
    exact afterLast_append_cons undotted

/-- With a dot there, the last one is among them. -/
theorem simpleName_text_of_dotted {call : CallText} {arguments : Str}
    (listed : call.arguments = some arguments) (dotted : '.' ∈ arguments) :
    simpleName call.text = simpleName arguments ++ [')'] := by
  obtain ⟨stem, whole, _⟩ := call.exists_stem
  have closed : '.' ∈ arguments ++ [')'] := List.mem_append_left _ dotted
  rw [whole, listed, writtenArguments, ← List.append_assoc]
  calc simpleName (stem ++ call.called ++ ('(' :: arguments ++ [')']))
      = simpleName (stem ++ call.called ++ ['('] ++ (arguments ++ [')'])) := by
        rw [List.cons_append, List.append_assoc _ ['('], List.singleton_append]
    _ = simpleName (arguments ++ [')']) := afterLast_append closed
    _ = simpleName arguments ++ [')'] := afterLast_concat dotted (by decide)

theorem calleeTail_of_plain {call : CallText}
    (plain : '.' ∉ writtenArguments call.arguments) : calleeTail call.text = call.called := by
  rw [calleeTail, simpleName_text_of_plain plain]
  have cut : beforeFirst '(' (call.called ++ writtenArguments call.arguments) = call.called := by
    cases call.arguments with
    | none => rw [writtenArguments, List.append_nil, beforeFirst,
        takeWhile_of_not_mem call.called_plain.2]
    | some arguments => rw [writtenArguments, List.cons_append, beforeFirst,
        takeWhile_append_cons call.called_plain.2]
  rw [cut]
  exact call.final.last.strip_eq

theorem calleeTail_iff_of_dotted {call : CallText} {arguments : Str}
    (listed : call.arguments = some arguments) (dotted : '.' ∈ arguments) :
    calleeTail call.text = call.called ↔ call.Misread arguments := by
  rw [calleeTail, simpleName_text_of_dotted listed dotted, CallText.Misread]
  by_cases opened : '(' ∈ simpleName arguments
  · rw [beforeFirst, takeWhile_append_of_mem opened, and_iff_right opened, beforeFirst]
  · refine iff_of_false (fun same => ?_) fun misread => opened misread.1
    have unopened : '(' ∉ simpleName arguments ++ [')'] := by
      rw [List.mem_append, List.mem_singleton]
      exact fun either => either.elim opened (by decide)
    rw [beforeFirst, takeWhile_of_not_mem unopened] at same
    -- The closing parenthesis of the call is no letter of a name.
    have kept : ')' ∈ strip (simpleName arguments ++ [')']) :=
      mem_stripWhile (List.mem_append_right _ List.mem_cons_self) (by decide)
    rw [same] at kept
    exact call.final.last.not_mem (by decide) kept

/-- **The rate.** The tail is the name called finally if and only if the arguments have no dot
or are misread as it. -/
theorem calleeTail_text_iff (call : CallText) :
    calleeTail call.text = call.called ↔
      ∀ arguments ∈ call.arguments, '.' ∈ arguments → call.Misread arguments := by
  cases listed : call.arguments with
  | none =>
      refine iff_of_true (calleeTail_of_plain ?_) fun _ absent =>
        (Option.not_mem_none _ absent).elim
      rw [listed]
      exact List.not_mem_nil
  | some arguments =>
      simp only [Option.mem_some_iff, forall_eq']
      by_cases dotted : '.' ∈ arguments
      · rw [calleeTail_iff_of_dotted listed dotted, forall_prop_of_true dotted]
      · refine iff_of_true (calleeTail_of_plain ?_) fun held => (dotted held).elim
        rw [listed, writtenArguments, List.cons_append, List.mem_cons, List.mem_append,
          List.mem_singleton]
        exact fun either => either.elim (by decide) fun later => later.elim dotted (by decide)

/-- What the signals list for one call. -/
theorem bareNames_text (pyStr : Json → Str) (call : CallText) :
    bareNames pyStr (some (.array [.string call.text])) = .ok [call.calledFirst] := by
  have first : strip (simpleName (beforeFirst '(' call.text)) = call.calledFirst := by
    rw [simpleName_beforeFirst_text]
    obtain ⟨receivers, final, arguments⟩ := call
    cases receivers with
    | nil => exact final.last.strip_eq
    | cons receiver rest => exact receiver.name.last.strip_eq
  have named : call.calledFirst ≠ [] := by
    obtain ⟨receivers, final, arguments⟩ := call
    cases receivers with
    | nil => exact final.last.named
    | cons receiver rest => exact receiver.name.last.named
  change Except.ok (sortedWords (([call.text].map fun text =>
    strip (simpleName (beforeFirst '(' text))).filter fun name => name ≠ [])) = _
  rw [List.map_singleton, first, List.filter_singleton, decide_eq_true named]
  rfl

/-- **Call names.** Both places find the method called finally if and only if the one called
first has its name, and the last arguments have no dot or are misread as that name. -/
theorem namesCalled_iff (call : CallText) :
    NamesCalled call ↔ call.calledFirst = call.called ∧
      ∀ arguments ∈ call.arguments, '.' ∈ arguments → call.Misread arguments := by
  rw [← calleeTail_text_iff]
  constructor
  · intro names
    have bare := names.bare fun _ => []
    rw [bareNames_text] at bare
    exact ⟨(List.cons.inj (Except.ok.inj bare)).1, names.tail⟩
  · rintro ⟨first, tail⟩
    refine ⟨fun pyStr => ?_, tail⟩
    rw [bareNames_text, first]

end Reduction

section Example

/-- The name of one letter. -/
def letterName (letter : Char) (plain : isNameLetter letter = true) : SimpleName where
  word := [letter]
  named := letter_ne_nil letter
  plain := List.forall_mem_singleton.mpr plain

/-- `f().g(a.b)`. -/
def chainedCall : CallText where
  receivers := [⟨⟨[], letterName 'f' rfl⟩, []⟩]
  final := ⟨[], letterName 'g' rfl⟩
  arguments := some "a.b".toList

/-- The one place finds the method called first, the other a piece of the arguments. -/
theorem not_namesCalled : chainedCall.text = "f().g(a.b)".toList ∧
    bareNames (fun _ => []) (some (.array [.string chainedCall.text])) = .ok ["f".toList] ∧
    calleeTail chainedCall.text = "b)".toList ∧ ¬ NamesCalled chainedCall := by
  have tail : calleeTail chainedCall.text = "b)".toList := by decide
  refine ⟨by decide, by rfl, tail, fun names => ?_⟩
  have wrong := tail.symm.trans names.tail
  revert wrong
  decide

end Example

end GraphIngest.Analysis
