import GraphIngest.Foundation.Finding
import GraphIngest.Text

/-! # Segments of a page

A page is read from left to right. The earliest opener behind the last segment starts
the next one, the opener named first in the table where several stand there, and the
segment runs to its closer, or to the end of the page. The scan gives these segments
without the comments, with the page line of the opener.
-/

namespace GraphIngest.Jsp

open Foundation Text

/-- The kinds of segments. -/
inductive SegmentKind
  | comment | directive | declaration | expression | scriptlet
deriving DecidableEq, Repr

/-- A kind of segment with its opener and its closer. -/
structure Form where
  kind : SegmentKind
  opener : Str
  closer : Str
deriving DecidableEq, Repr

/-- `_SEGMENTS`. -/
def segments : List Form :=
  [⟨.comment, "<%--", "--%>"⟩,
   ⟨.directive, "<%@", "%>"⟩,
   ⟨.declaration, "<%!", "%>"⟩,
   ⟨.expression, "<%=", "%>"⟩,
   ⟨.scriptlet, "<%", "%>"⟩]

/-- A segment: its kind, its body and the page line of its opener, and with them the place
of the body, which the scan does not hand on. -/
structure Segment where
  kind : SegmentKind
  body : Str
  line : Nat
  place : Nat
deriving DecidableEq, Repr

/-- The number of line ends between two places. -/
def newlines (source : Str) (start stop : Nat) : Nat := (slice source start stop).count '\n'

/-- The page line of a place, counted from one. -/
def lineAt (source : Str) (place : Nat) : Nat := 1 + (source.take place).count '\n'

/-- The segment that a form makes of a part of the page, none for a comment. -/
def yielded (form : Form) (source : Str) (line place stop : Nat) : List Segment :=
  if form.kind = .comment then [] else [⟨form.kind, slice source place stop, line, place⟩]

/-- The loop of `_scan`; nothing where it has not come to an end. -/
def scanWithin (source : Str) : Nat → Nat → Nat → Option (List Segment)
  | 0, _, _ => none
  | rounds + 1, pos, line =>
      if pos < source.length then
        match earliest (fun form => findFrom form.opener source pos) segments with
        | none => some []
        | some (form, start) =>
            let opened := line + newlines source pos start
            let bodyStart := start + form.opener.length
            let stop := (findFrom form.closer source bodyStart).getD source.length
            let next := stop + form.closer.length
            (scanWithin source rounds next (opened + newlines source start next)).map
              (yielded form source (opened + newlines source start bodyStart) bodyStart stop ++ ·)
      else some []

/-- `_scan`. -/
def scan (source : Str) : List Segment := (scanWithin source (source.length + 1) 0 1).getD []

section Reading

variable (source : Str)

/-- The earliest opener from a place on, the first of the table that stands there. -/
structure OpensAt (pos : Nat) (form : Form) (start : Nat) : Prop where
  behind : pos ≤ start
  stands : StandsAt form.opener source start
  earliest : ∀ place, pos ≤ place → place < start → ∀ other ∈ segments,
    ¬ StandsAt other.opener source place
  table : ∃ front back, segments = front ++ form :: back ∧
    ∀ other ∈ front, ¬ StandsAt other.opener source start

/-- Where a body ends: at the first closer, or at the end of the page if there is none. -/
inductive ClosesAt (closer : Str) (bodyStart : Nat) : Nat → Prop
  | closed (stop : Nat) (behind : bodyStart ≤ stop) (stands : StandsAt closer source stop)
      (first : ∀ place, bodyStart ≤ place → place < stop → ¬ StandsAt closer source place) :
      ClosesAt closer bodyStart stop
  | unterminated (absent : ∀ place, bodyStart ≤ place → ¬ StandsAt closer source place) :
      ClosesAt closer bodyStart source.length

/-- The segments of a page from a place on, read from left to right: a comment is passed over,
any other segment is there with its body and the line of its opener. -/
inductive Reads : Nat → List Segment → Prop
  | done (pos : Nat) (none : ∀ place, pos ≤ place → ∀ form ∈ segments,
      ¬ StandsAt form.opener source place) : Reads pos []
  | comment (pos start stop : Nat) (form : Form) (later : List Segment)
      (opens : OpensAt source pos form start)
      (closes : ClosesAt source form.closer (start + form.opener.length) stop)
      (skipped : form.kind = .comment)
      (rest : Reads (stop + form.closer.length) later) : Reads pos later
  | segment (pos start stop : Nat) (form : Form) (later : List Segment)
      (opens : OpensAt source pos form start)
      (closes : ClosesAt source form.closer (start + form.opener.length) stop)
      (kept : form.kind ≠ .comment)
      (rest : Reads (stop + form.closer.length) later) :
      Reads pos
        ({ kind := form.kind
           body := slice source (start + form.opener.length) stop
           line := lineAt source start
           place := start + form.opener.length } :: later)

end Reading

section Lines

variable {source : Str}

theorem lineAt_add {start stop : Nat} (ordered : start ≤ stop) :
    lineAt source start + newlines source start stop = lineAt source stop := by
  rw [lineAt, lineAt, newlines, ← take_append_slice source ordered, List.count_append,
    Nat.add_assoc]

/-- The forms that open are those of the table. -/
theorem OpensAt.mem {pos start : Nat} {form : Form} (opens : OpensAt source pos form start) :
    form ∈ segments := by
  obtain ⟨front, back, table, -⟩ := opens.table
  rw [table]
  exact List.mem_append_right front List.mem_cons_self

theorem segments_filled : ∀ form ∈ segments, form.opener ≠ [] ∧ form.closer ≠ [] := by
  decide

theorem segments_plain : ∀ form ∈ segments, '\n' ∉ form.opener ∧ '\n' ∉ form.closer := by
  decide

/-- An opener has no line end. -/
theorem newlines_opener {form : Form} (listed : form ∈ segments) {start : Nat}
    (stands : StandsAt form.opener source start) :
    newlines source start (start + form.opener.length) = 0 := by
  rw [newlines, stands.slice_eq]
  exact List.count_eq_zero.mpr (segments_plain form listed).1

end Lines

section Scanning

variable {source : Str} {pos : Nat}

/-- What the table lookup finds is the earliest opener. -/
theorem opensAt_of_earliest {form : Form} {start : Nat}
    (found : earliest (fun form => findFrom form.opener source pos) segments =
      some (form, start)) : OpensAt source pos form start := by
  rcases earliest_cases (fun form => findFrom form.opener source pos) segments with
    ⟨nothing, -⟩ | ⟨own, place, best, leads⟩
  · rw [nothing] at found
    cases found
  · rw [best] at found
    obtain ⟨rfl, rfl⟩ := Prod.mk.inj (Option.some.inj found)
    obtain ⟨front, back, table, first, -⟩ := leads.ordered
    have listed : own ∈ segments := by
      rw [table]
      exact List.mem_append_right front List.mem_cons_self
    obtain ⟨behind, stands, -⟩ := (findFrom_eq_some (segments_filled own listed).1).mp leads.spot
    refine ⟨behind, stands, ?_, front, back, table, ?_⟩
    · intro spot late less other member there
      obtain ⟨held, few, at_⟩ := exists_findFrom_le (segments_filled other member).1 late there
      have bound := leads.le member at_
      omega
    · intro other ahead there
      have member : other ∈ segments := by
        rw [table]
        exact List.mem_append_left _ ahead
      obtain ⟨held, few, at_⟩ := exists_findFrom_le (segments_filled other member).1 behind there
      have bound := first other ahead held at_
      omega

theorem closesAt_findFrom {closer : Str} (filled : closer ≠ []) (bodyStart : Nat) :
    ClosesAt source closer bodyStart ((findFrom closer source bodyStart).getD source.length) := by
  cases found : findFrom closer source bodyStart with
  | none => exact .unterminated ((findFrom_eq_none filled).mp found)
  | some stop =>
      obtain ⟨behind, stands, first⟩ := (findFrom_eq_some filled).mp found
      exact .closed stop behind stands first

/-- A body ends behind its start, or at the end of the page. -/
theorem ClosesAt.le {closer : Str} {bodyStart stop : Nat}
    (closes : ClosesAt source closer bodyStart stop) (inside : bodyStart ≤ source.length) :
    bodyStart ≤ stop := by
  cases closes with
  | closed _ behind _ _ => exact behind
  | unterminated _ => exact inside

/-- Where no opener is found, none stands from there on. -/
theorem not_standsAt_of_earliest {place : Nat} {form : Form}
    (none : earliest (fun form => findFrom form.opener source pos) segments = none)
    (late : pos ≤ place) (listed : form ∈ segments) : ¬ StandsAt form.opener source place := by
  rcases earliest_cases (fun form => findFrom form.opener source pos) segments with
    ⟨-, missing⟩ | ⟨_, _, found, -⟩
  · exact (findFrom_eq_none (segments_filled form listed).1).mp (missing form listed) place late
  · rw [none] at found
    cases found

/-- What is yielded for an opener and its closer is what is read there. -/
theorem Reads.yielded {form : Form} {start stop : Nat} {later : List Segment}
    (opens : OpensAt source pos form start)
    (closes : ClosesAt source form.closer (start + form.opener.length) stop)
    (rest : Reads source (stop + form.closer.length) later) :
    Reads source pos
      (Jsp.yielded form source (lineAt source start) (start + form.opener.length) stop ++
        later) := by
  unfold Jsp.yielded
  split
  · next skipped => exact .comment pos start stop form later opens closes skipped rest
  · next kept => exact .segment pos start stop form later opens closes kept rest

/-- With rounds enough the loop comes to an end, with the segments read. -/
theorem scanWithin_reads {rounds : Nat} (left : 0 < rounds)
    (enough : source.length < rounds + pos) :
    ∃ found, scanWithin source rounds pos (lineAt source pos) = some found ∧
      Reads source pos found := by
  induction rounds generalizing pos with
  | zero => exact absurd left (Nat.lt_irrefl 0)
  | succ rounds ih =>
      rw [scanWithin]
      by_cases inside : pos < source.length
      · rw [if_pos inside]
        cases best : earliest (fun form => findFrom form.opener source pos) segments with
        | none =>
            exact ⟨[], rfl, .done pos fun place late form listed =>
              not_standsAt_of_earliest best late listed⟩
        | some opening =>
            obtain ⟨form, start⟩ := opening
            have opens := opensAt_of_earliest best
            obtain ⟨opener, closer⟩ := segments_filled form opens.mem
            have fits := opens.stands.le_length
            have closes := @closesAt_findFrom source form.closer closer
              (start + form.opener.length)
            dsimp only
            generalize (findFrom form.closer source (start + form.opener.length)).getD
              source.length = stop at closes
            have behind := closes.le fits
            have more := List.length_pos_of_ne_nil closer
            have past := opens.behind
            obtain ⟨later, ends, rest⟩ := @ih (stop + form.closer.length) (by omega) (by omega)
            rw [lineAt_add opens.behind, newlines_opener opens.mem opens.stands, Nat.add_zero,
              lineAt_add (by omega), ends]
            exact ⟨_, rfl, .yielded opens closes rest⟩
      · rw [if_neg inside]
        refine ⟨[], rfl, .done pos fun place late form listed stands => ?_⟩
        have opener := (segments_filled form listed).1
        have fits := stands.le_length
        have some := List.length_pos_of_ne_nil opener
        omega

/-- One place of the page opens at most one segment from a place on. -/
theorem OpensAt.unique {form other : Form} {start spot : Nat}
    (opens : OpensAt source pos form start) (again : OpensAt source pos other spot) :
    form = other ∧ start = spot := by
  have same : start = spot := by
    rcases Nat.lt_trichotomy start spot with less | equal | more
    · exact absurd opens.stands (again.earliest start opens.behind less form opens.mem)
    · exact equal
    · exact absurd again.stands (opens.earliest spot again.behind more other again.mem)
  subst same
  obtain ⟨front, back, table, ahead⟩ := opens.table
  obtain ⟨before, after, retable, others⟩ := again.table
  rw [table] at retable
  rcases List.append_eq_append_iff.mp retable with ⟨between, rfl, rest⟩ | ⟨between, rfl, rest⟩
  · cases between with
    | nil => exact ⟨(List.cons.inj rest).1, rfl⟩
    | cons first between =>
        obtain ⟨rfl, -⟩ := List.cons.inj rest
        exact absurd opens.stands (others form (List.mem_append_right _ List.mem_cons_self))
  · cases between with
    | nil => exact ⟨(List.cons.inj rest).1.symm, rfl⟩
    | cons first between =>
        obtain ⟨rfl, -⟩ := List.cons.inj rest
        exact absurd again.stands (ahead other (List.mem_append_right _ List.mem_cons_self))

theorem ClosesAt.unique {closer : Str} {bodyStart stop halt : Nat}
    (closes : ClosesAt source closer bodyStart stop)
    (again : ClosesAt source closer bodyStart halt) : stop = halt := by
  cases closes with
  | closed _ behind stands first =>
      cases again with
      | closed _ late there least =>
          rcases Nat.lt_trichotomy stop halt with less | equal | more
          · exact absurd stands (least stop behind less)
          · exact equal
          · exact absurd there (first halt late more)
      | unterminated absent => exact absurd stands (absent stop behind)
  | unterminated absent =>
      cases again with
      | closed _ late there _ => exact absurd there (absent halt late)
      | unterminated _ => rfl

/-- A page is read in one way. -/
theorem Reads.unique {found other : List Segment} (reads : Reads source pos found)
    (again : Reads source pos other) : found = other := by
  induction reads generalizing other with
  | done pos none =>
      cases again with
      | done _ _ => rfl
      | comment _ start _ form _ opens _ _ _ =>
          exact absurd opens.stands (none start opens.behind form opens.mem)
      | segment _ start _ form _ opens _ _ _ =>
          exact absurd opens.stands (none start opens.behind form opens.mem)
  | comment pos start stop form later opens closes skipped rest ih =>
      cases again with
      | done _ none => exact absurd opens.stands (none start opens.behind form opens.mem)
      | comment _ _ _ _ _ reopens recloses _ others =>
          obtain ⟨rfl, rfl⟩ := opens.unique reopens
          obtain rfl := closes.unique recloses
          exact ih others
      | segment _ _ _ _ _ reopens _ kept _ =>
          obtain ⟨rfl, rfl⟩ := opens.unique reopens
          exact absurd skipped kept
  | segment pos start stop form later opens closes kept rest ih =>
      cases again with
      | done _ none => exact absurd opens.stands (none start opens.behind form opens.mem)
      | comment _ _ _ _ _ reopens _ skipped _ =>
          obtain ⟨rfl, rfl⟩ := opens.unique reopens
          exact absurd skipped kept
      | segment _ _ _ _ _ reopens recloses _ others =>
          obtain ⟨rfl, rfl⟩ := opens.unique reopens
          obtain rfl := closes.unique recloses
          rw [ih others]

/-- With rounds enough the loop ends with the segments read. -/
theorem scanWithin_eq {rounds : Nat} (enough : rounds > source.length) :
    scanWithin source rounds 0 1 = some (scan source) ∧ Reads source 0 (scan source) := by
  have first : lineAt source 0 = 1 := rfl
  obtain ⟨own, ends, reads⟩ := @scanWithin_reads source 0 (source.length + 1)
    (Nat.succ_pos _) (Nat.lt_succ_self _)
  rw [first] at ends
  have scanned : scan source = own := by rw [scan, ends, Option.getD_some]
  obtain ⟨other, stops, again⟩ := @scanWithin_reads source 0 rounds (by omega) (by omega)
  rw [first] at stops
  rw [stops, scanned, again.unique reads]
  exact ⟨rfl, reads⟩

theorem reads_scan (source : Str) : Reads source 0 (scan source) :=
  (scanWithin_eq (Nat.lt_succ_self source.length)).2

/-- **The scan.** It comes to an end, with the segments of the page read from left to right,
which are no others. -/
theorem scan_reads (source : Str) :
    (∀ rounds > source.length, scanWithin source rounds 0 1 = some (scan source)) ∧
      ∀ found, Reads source 0 found ↔ found = scan source := by
  refine ⟨fun rounds enough => (scanWithin_eq enough).1, fun found => ⟨fun again => ?_, ?_⟩⟩
  · exact again.unique (reads_scan source)
  · rintro rfl
    exact reads_scan source

end Scanning

end GraphIngest.Jsp
