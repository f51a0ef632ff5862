import GraphIngest.Foundation.Finding

/-! # Patterns with a preference

A pattern matches a text at a place in several ways, listed in the order in which a
backtracking matcher tries them; a letter repeated is taken as often or as seldom as
possible first. Of the matches of a text the leftmost is taken, in the way preferred,
and the next is looked for behind it.
-/

namespace GraphIngest.Foundation

variable {α : Type}

/-- Patterns over letters. -/
inductive Pattern (α : Type)
  | nothing
  | letter (test : α → Bool)
  | many (test : α → Bool)
  | few (test : α → Bool)
  | optional (test : α → Bool)
  | boundary (word : α → Bool)
  | seq (first rest : Pattern α)
  | either (first second : Pattern α)
  | group (inner : Pattern α)

namespace Pattern

/-- Patterns one behind the other. -/
def inOrder (patterns : List (Pattern α)) : Pattern α := patterns.foldr seq nothing

/-- The first of some patterns that lead to a match. -/
def anyOf (first : Pattern α) (others : List (Pattern α)) : Pattern α := others.foldl either first

/-- A letter at least once, as often as possible. -/
def several (test : α → Bool) : Pattern α := seq (letter test) (many test)

/-- Given letters. -/
def word [BEq α] (letters : List α) : Pattern α :=
  inOrder (letters.map fun own => letter (· == own))

/-- How often a letter can be repeated from a place on. -/
def run (test : α → Bool) (text : List α) (place : Nat) : Nat :=
  ((text.drop place).takeWhile test).length

/-- Whether the letter at a place is one of a word. -/
def within (word : α → Bool) (text : List α) (place : Nat) : Bool := (text[place]?).any word

/-- Whether a place lies between a letter of a word and none. -/
def atBoundary (word : α → Bool) (text : List α) (place : Nat) : Bool :=
  (0 < place && within word text (place - 1)) != within word text place

/-- Where the matches at a place end, in the order tried, with the places of the groups. -/
def ends (text : List α) : Pattern α → Nat → List (Nat × List (Nat × Nat))
  | nothing, place => [(place, [])]
  | letter test, place => if within test text place then [(place + 1, [])] else []
  | many test, place =>
      (List.range (run test text place + 1)).reverse.map fun taken => (place + taken, [])
  | few test, place => (List.range (run test text place + 1)).map fun taken => (place + taken, [])
  | optional test, place =>
      if within test text place then [(place + 1, []), (place, [])] else [(place, [])]
  | boundary word, place => if atBoundary word text place then [(place, [])] else []
  | seq first rest, place =>
      (ends text first place).flatMap fun front =>
        (ends text rest front.1).map fun back => (back.1, front.2 ++ back.2)
  | either first second, place => ends text first place ++ ends text second place
  | group inner, place =>
      (ends text inner place).map fun found => (found.1, (place, found.1) :: found.2)

end Pattern

/-- A match: where it starts and ends, and where its groups do. -/
structure Match where
  start : Nat
  stop : Nat
  groups : List (Nat × Nat)
deriving DecidableEq, Repr

/-- The letters of a group, counted from one. -/
def Match.group (found : Match) (text : List α) (number : Nat) : List α :=
  match found.groups[number - 1]? with
  | some (start, stop) => slice text start stop
  | none => []

namespace Pattern

variable (pattern : Pattern α) (text : List α)

/-- The match at a place. -/
def matchAt (place : Nat) : Option Match :=
  (pattern.ends text place).head?.map fun found => ⟨place, found.1, found.2⟩

/-- The leftmost match from a place on. -/
def firstMatch (place : Nat) : Option Match :=
  (List.range' place (text.length + 1 - place)).findSome? (pattern.matchAt text)

/-- The matches from a place on, one behind the other, in some rounds. -/
def matchesFrom : Nat → Nat → List Match
  | 0, _ => []
  | rounds + 1, place =>
      match pattern.firstMatch text place with
      | none => []
      | some found => found :: matchesFrom rounds (max found.stop (found.start + 1))

/-- The matches of a text. -/
def findIter : List Match := pattern.matchesFrom text (text.length + 1) 0

variable {pattern text}

theorem firstMatch_start {place : Nat} {found : Match}
    (first : pattern.firstMatch text place = some found) :
    place ≤ found.start ∧ found.start ≤ text.length := by
  obtain ⟨start, listed, at_⟩ := List.exists_of_findSome?_eq_some first
  obtain ⟨_, _, rfl⟩ := Option.map_eq_some_iff.mp at_
  obtain ⟨late, early⟩ := List.mem_range'_1.mp listed
  exact ⟨late, show start ≤ text.length by omega⟩

end Pattern

end GraphIngest.Foundation
