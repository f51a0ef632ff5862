import Mathlib.Data.Char
import Mathlib.Data.List.Lex
import Mathlib.Data.List.Sort
import Mathlib.Data.Nat.Digits.Defs

/-! # Values and schemas

Values as a JSON reader hands them over, the text a writer makes of them, and the
closed schemas a producer of such values is held to: an object carries every
required member and no member the schema does not name. What conformance says
about single members is proved here, so that a consumer never looks into the
checker.
-/

namespace GraphIngest.Foundation

/-- A value read from JSON text. Whole numbers are kept apart from the others, which
are known by their literal; the members of an object stand in order. -/
inductive Json
  | null
  | bool (value : Bool)
  | int (value : Int)
  | real (literal : List Char)
  | string (text : List Char)
  | array (items : List Json)
  | object (members : List (List Char × Json))

namespace Json

/-- What counts as true where a value is tested. -/
def truthy : Json → Bool
  | null => false
  | bool value => value
  | int value => decide (value ≠ 0)
  | real literal =>
      (literal.takeWhile fun letter => letter != 'e').any fun letter => letter ∉ ['-', '0', '.']
  | string text => !text.isEmpty
  | array items => !items.isEmpty
  | object members => !members.isEmpty

/-- A member of an object, by name. -/
def get? (name : List Char) : Json → Option Json
  | object members => members.lookup name
  | _ => none

section Writing

def backslash : Char := Char.ofNat 92

/-- A quotation mark. -/
def quote : Char := Char.ofNat 34

/-- The escape of a sixteen-bit unit. -/
def escapeUnit (unit : Nat) : List Char :=
  [backslash, 'u', Nat.digitChar (unit / 4096 % 16), Nat.digitChar (unit / 256 % 16),
    Nat.digitChar (unit / 16 % 16), Nat.digitChar (unit % 16)]

/-- A letter inside a written string: ASCII only. -/
def escape (letter : Char) : List Char :=
  let code := letter.toNat
  if letter = quote ∨ letter = backslash then [backslash, letter]
  else if code = 8 then [backslash, 'b']
  else if code = 9 then [backslash, 't']
  else if code = 10 then [backslash, 'n']
  else if code = 12 then [backslash, 'f']
  else if code = 13 then [backslash, 'r']
  else if 32 ≤ code ∧ code ≤ 126 then [letter]
  else if code < 65536 then escapeUnit code
  else escapeUnit (55296 + (code - 65536) / 1024) ++ escapeUnit (56320 + (code - 65536) % 1024)

/-- A written string. -/
def dumpsText (text : List Char) : List Char := quote :: text.flatMap escape ++ [quote]

mutual

/-- A written value: no blanks, and the members of an object by name. -/
def dumps : Json → List Char
  | null => "null".toList
  | bool value => if value then "true".toList else "false".toList
  | int value => (toString value).toList
  | real literal => literal
  | string text => dumpsText text
  | array items => '[' :: [','].intercalate (dumpsItems items) ++ [']']
  | object members =>
      let sorted := (dumpsMembers members).insertionSort fun field other => field.1 ≤ other.1
      Char.ofNat 123 :: [','].intercalate (sorted.map fun field =>
        dumpsText field.1 ++ ':' :: field.2) ++ [Char.ofNat 125]

/-- The items of an array, written. -/
def dumpsItems : List Json → List (List Char)
  | [] => []
  | item :: rest => dumps item :: dumpsItems rest

/-- The members of an object, each value written. -/
def dumpsMembers : List (List Char × Json) → List (List Char × List Char)
  | [] => []
  | (name, value) :: rest => (name, dumps value) :: dumpsMembers rest

end

end Writing

end Json

/-- Closed schemas. -/
inductive Schema
  | string
  | integer
  | boolean
  | enum (words : List (List Char))
  | array (items : Schema)
  | object (required : List (List Char)) (properties : List (List Char × Schema))

namespace Schema

mutual

/-- Whether a value conforms. -/
def conforms : Schema → Json → Bool
  | string, .string _ => true
  | integer, .int _ => true
  | boolean, .bool _ => true
  | enum words, .string text => decide (text ∈ words)
  | array items, .array values => values.all fun value => conforms items value
  | object required properties, .object members =>
      (required.all fun name => (members.lookup name).isSome) &&
        members.all fun field => fits properties field
  | _, _ => false

/-- Whether a member is a named property and conforms to its schema. -/
def fits : List (List Char × Schema) → List Char × Json → Bool
  | [], _ => false
  | (name, schema) :: rest, field =>
      if field.1 == name then conforms schema field.2 else fits rest field

end

theorem conforms_array {items : Schema} {value : Json}
    (conforming : (array items).conforms value = true) :
    ∃ values, value = .array values ∧ ∀ entry ∈ values, items.conforms entry = true := by
  cases value with
  | array values =>
      rw [conforms, List.all_eq_true] at conforming
      exact ⟨values, rfl, conforming⟩
  | _ => simp only [conforms, Bool.false_eq_true] at conforming

/-- A member that fits has the schema of its name. -/
theorem lookup_of_fits {properties : List (List Char × Schema)} {field : List Char × Json}
    (fitting : fits properties field = true) :
    ∃ schema, properties.lookup field.1 = some schema ∧ schema.conforms field.2 = true := by
  induction properties with
  | nil => simp only [fits, Bool.false_eq_true] at fitting
  | cons entry rest ih =>
      obtain ⟨name, schema⟩ := entry
      rw [fits] at fitting
      rw [List.lookup_cons]
      split at fitting
      · next same => exact ⟨schema, by rw [same], fitting⟩
      · next other =>
        rw [Bool.eq_false_iff.mpr other]
        exact ih fitting

/-- What conforms to an object schema: the required members are there, and every
member has the schema of its name. -/
theorem conforms_object {required : List (List Char)} {properties : List (List Char × Schema)}
    {value : Json} (conforming : (object required properties).conforms value = true) :
    ∃ members, value = .object members ∧ (∀ name ∈ required, (members.lookup name).isSome) ∧
      ∀ name found, members.lookup name = some found →
        ∃ schema, properties.lookup name = some schema ∧ schema.conforms found = true := by
  cases value with
  | object members =>
      rw [conforms, Bool.and_eq_true, List.all_eq_true, List.all_eq_true] at conforming
      refine ⟨members, rfl, conforming.1, fun name found present => ?_⟩
      obtain ⟨before, after, rfl, _⟩ := List.lookup_eq_some_iff.mp present
      exact lookup_of_fits (conforming.2 _ (List.mem_append_right _ List.mem_cons_self))
  | _ => simp only [conforms, Bool.false_eq_true] at conforming

/-- A required member of a value that conforms is there, and conforms to the schema of
its name. -/
theorem get?_of_required {required : List (List Char)} {properties : List (List Char × Schema)}
    {value : Json} {name : List Char} {schema : Schema}
    (conforming : (object required properties).conforms value = true) (wanted : name ∈ required)
    (named : properties.lookup name = some schema) :
    ∃ found, value.get? name = some found ∧ schema.conforms found = true := by
  obtain ⟨members, rfl, present, typed⟩ := conforms_object conforming
  obtain ⟨found, held⟩ := Option.isSome_iff_exists.mp (present name wanted)
  obtain ⟨other, same, fits⟩ := typed name found held
  rw [Option.some.inj (named.symm.trans same)]
  exact ⟨found, held, fits⟩

/-- A value that conforms to a closed schema has no member beside those named. -/
theorem get?_eq_none {required : List (List Char)} {properties : List (List Char × Schema)}
    {value : Json} {name : List Char}
    (conforming : (object required properties).conforms value = true)
    (unnamed : properties.lookup name = none) : value.get? name = none := by
  obtain ⟨members, rfl, _, typed⟩ := conforms_object conforming
  change members.lookup name = none
  cases held : members.lookup name with
  | none => rfl
  | some found =>
      obtain ⟨schema, named, _⟩ := typed name found held
      rw [unnamed] at named
      cases named

theorem conforms_enum {words : List (List Char)} {value : Json}
    (conforming : (enum words).conforms value = true) :
    ∃ text ∈ words, value = .string text := by
  cases value with
  | string text =>
      rw [conforms, decide_eq_true_eq] at conforming
      exact ⟨text, conforming, rfl⟩
  | _ => simp only [conforms, Bool.false_eq_true] at conforming

end Schema

end GraphIngest.Foundation
