import GraphIngest.Foundation.Cutting
import GraphIngest.Foundation.Joining
import GraphIngest.Jsp.Translate

/-! # The line map of a page

Every line of the Java text has a page line. A declaration or scriptlet is emitted as
it stands in the page, so that its lines are mapped to their own. An expression is
trimmed, and mapped as if its first letter stood on the line of its opener: its lines
are mapped to their own exactly when no line end was trimmed in front of it.
-/

namespace GraphIngest.Jsp

open Foundation Text

section Segments

variable {source : Str} {pos : Nat}

/-- A body stands behind its opener, on the line of the opener. -/
theorem stands_of_segment {form : Form} {start stop : Nat}
    (opens : OpensAt source pos form start)
    (closes : ClosesAt source form.closer (start + form.opener.length) stop) :
    StandsAt (slice source (start + form.opener.length) stop) source
        (start + form.opener.length) ∧
      lineAt source start = lineAt source (start + form.opener.length) := by
  have fits := opens.stands.le_length
  have ordered := closes.le fits
  refine ⟨⟨source.take (start + form.opener.length), source.drop stop, ?_, ?_⟩, ?_⟩
  · rw [← List.append_assoc, take_append_slice source ordered, List.take_append_drop]
  · exact List.length_take_of_le fits
  · rw [← lineAt_add (Nat.le_add_right start form.opener.length),
      newlines_opener opens.mem opens.stands, Nat.add_zero]

/-- The segments of a page stand in it where they say, on the lines they say. -/
theorem stands_of_mem_scan {segment : Segment} (listed : segment ∈ scan source) :
    StandsAt segment.body source segment.place ∧
      segment.line = lineAt source segment.place := by
  have each : ∀ {pos : Nat} {found : List Segment}, Reads source pos found →
      ∀ segment ∈ found, StandsAt segment.body source segment.place ∧
        segment.line = lineAt source segment.place := by
    intro pos found reads
    induction reads with
    | done pos none => exact fun segment listed => absurd listed List.not_mem_nil
    | comment pos start stop form later opens closes skipped rest ih => exact ih
    | segment pos start stop form later opens closes kept rest ih =>
        intro segment listed
        rcases List.mem_cons.mp listed with rfl | after
        · exact stands_of_segment opens closes
        · exact ih segment after
  exact each (reads_scan source) segment listed

end Segments

section Emission

/-- The page lines of a text that is emitted. -/
def lineTargets (piece : Piece) : List Nat :=
  (List.range (splitBy '\n' piece.text).length).map fun offset => max 1 (piece.line + offset)

/-- What has been emitted has these page lines, one by one. -/
structure Tracks (emitted : Emitted) (targets : List Nat) : Prop where
  length : emitted.out.length = targets.length
  lines : ∀ number, emitted.lineMap.get? (number + 1) = targets[number]?

theorem Tracks.empty : Tracks {} [] := ⟨rfl, fun _ => rfl⟩

variable {emitted : Emitted} {targets : List Nat}

/-- A piece adds its lines to the map. -/
theorem Tracks.add (tracks : Tracks emitted targets) (jspLine : Nat) (chunk : Str × Nat) :
    Tracks (emitted.add jspLine chunk) (targets ++ [max 1 (jspLine + chunk.2)]) where
  length := by
    rw [Emitted.add, List.length_append, List.length_append, tracks.length]
    rfl
  lines number := by
    rw [Emitted.add, Dict.get?_set, tracks.length, tracks.lines, List.getElem?_append]
    by_cases last : number = targets.length
    · rw [if_pos (by omega), if_neg (by omega), last, Nat.sub_self]
      rfl
    · rw [if_neg (by omega)]
      split
      · rfl
      · next past =>
          rw [List.getElem?_eq_none (by omega), List.getElem?_eq_none]
          rw [List.length_singleton]
          omega

/-- Emitting a text adds its lines, and their page lines. -/
theorem Tracks.emit (tracks : Tracks emitted targets) (piece : Piece) :
    Tracks (emit emitted piece) (targets ++ lineTargets piece) ∧
      (Jsp.emit emitted piece).out = emitted.out ++ splitBy '\n' piece.text := by
  have each : ∀ (chunks : List Str) (offset : Nat) {emitted : Emitted} {targets : List Nat},
      Tracks emitted targets →
        Tracks ((chunks.zipIdx offset).foldl (Emitted.add piece.line) emitted)
            (targets ++ (List.range' offset chunks.length).map fun offset =>
              max 1 (piece.line + offset)) ∧
          ((chunks.zipIdx offset).foldl (Emitted.add piece.line) emitted).out =
            emitted.out ++ chunks := by
    intro chunks
    induction chunks with
    | nil =>
        intro offset emitted targets tracks
        refine ⟨?_, (List.append_nil _).symm⟩
        rwa [List.length_nil, List.range'_zero, List.map_nil, List.append_nil]
    | cons chunk rest ih =>
        intro offset emitted targets tracks
        obtain ⟨lines, out⟩ := ih (offset + 1) (tracks.add piece.line (chunk, offset))
        rw [List.zipIdx_cons, List.foldl_cons, List.length_cons, List.range'_succ, List.map_cons]
        refine ⟨?_, out.trans ?_⟩
        · rwa [List.append_assoc] at lines
        · rw [Emitted.add, List.append_assoc]
          rfl
  have whole := each (splitBy '\n' piece.text) 0 tracks
  rwa [← List.range_eq_range'] at whole

/-- Emitting texts adds their lines, and the page lines of these. -/
theorem Tracks.foldl (tracks : Tracks emitted targets) (pieces : List Piece) :
    Tracks (pieces.foldl Jsp.emit emitted) (targets ++ pieces.flatMap lineTargets) ∧
      (pieces.foldl Jsp.emit emitted).out =
        emitted.out ++ pieces.flatMap fun piece => splitBy '\n' piece.text := by
  induction pieces generalizing emitted targets with
  | nil => exact ⟨by rwa [List.flatMap_nil, List.append_nil], (List.append_nil _).symm⟩
  | cons piece rest ih =>
      obtain ⟨lines, out⟩ := tracks.emit piece
      obtain ⟨later, behind⟩ := ih lines
      rw [List.foldl_cons, List.flatMap_cons, List.flatMap_cons, ← List.append_assoc,
        ← List.append_assoc, ← out]
      exact ⟨later, behind⟩

end Emission

section Places

/-- The text of some pieces, with the line end behind each. -/
def textBefore (pieces : List Piece) : Str := pieces.flatMap fun piece => piece.text ++ ['\n']

theorem textBefore_cons (piece : Piece) (rest : List Piece) :
    textBefore (piece :: rest) = piece.text ++ ['\n'] ++ textBefore rest :=
  List.flatMap_cons

/-- The lines of some pieces are the line ends of their text. -/
theorem length_flatMap_lineTargets (pieces : List Piece) :
    (pieces.flatMap lineTargets).length = (textBefore pieces).count '\n' := by
  induction pieces with
  | nil => rfl
  | cons piece rest ih =>
      rw [List.flatMap_cons, List.length_append, ih, textBefore_cons, List.count_append,
        List.count_append, lineTargets, List.length_map, List.length_range, length_splitBy]
      rfl

/-- A piece stands in the text of all behind the pieces in front of it. -/
theorem exists_intercalate_eq (front : List Piece) (piece : Piece) (back : List Piece) :
    ∃ behind, ['\n'].intercalate ((front ++ piece :: back).map Piece.text) =
      textBefore front ++ (piece.text ++ behind) := by
  have rest : ∃ behind, ['\n'].intercalate ((piece :: back).map Piece.text) =
      piece.text ++ behind := by
    cases back with
    | nil => exact ⟨[], by rw [List.map_singleton, intercalate_singleton, List.append_nil]⟩
    | cons next back => exact ⟨_, intercalate_cons piece.text (List.cons_ne_nil _ _)⟩
  obtain ⟨behind, own⟩ := rest
  refine ⟨behind, ?_⟩
  induction front with
  | nil => exact own
  | cons first front ih =>
      rw [List.cons_append, List.map_cons, intercalate_cons, ih, textBefore_cons,
        List.append_assoc, List.append_assoc]
      · rfl
      · rw [List.map_append, List.map_cons]
        exact List.append_ne_nil_of_right_ne_nil _ (List.cons_ne_nil _ _)

/-- The line of a place within a text that stands in another. -/
theorem lineAt_stands {own text : Str} {place : Nat} (stands : StandsAt own text place)
    {letters : Nat} (few : letters ≤ own.length) :
    lineAt text (place + letters) = lineAt text place + (own.take letters).count '\n' := by
  obtain ⟨before, after, rfl, rfl⟩ := stands
  rw [lineAt, lineAt, List.take_left, List.take_length_add_append, List.count_append,
    List.take_append_of_le_length few, Nat.add_assoc]

/-- The passages are those of the pieces with an origin. -/
theorem mem_passagesFrom {passage : Passage} {place : Nat} {pieces : List Piece} :
    passage ∈ passagesFrom place pieces ↔
      ∃ front piece back, pieces = front ++ piece :: back ∧
        piece.origin = some passage.origin ∧ passage.own = piece.own ∧
        passage.place = place + (textBefore front).length + piece.lead.length := by
  induction pieces generalizing place with
  | nil =>
      refine iff_of_false List.not_mem_nil ?_
      rintro ⟨front, piece, back, none, -⟩
      cases front <;> cases none
  | cons first rest ih =>
      have longer : ∀ front : List Piece, place + (textBefore (first :: front)).length =
          place + first.text.length + 1 + (textBefore front).length := by
        intro front
        rw [textBefore_cons, List.length_append, List.length_append, List.length_singleton]
        omega
      rw [passagesFrom, List.mem_append, ih, Option.mem_toList, Option.map_eq_some_iff]
      constructor
      · rintro (⟨origin, known, rfl⟩ | ⟨front, piece, back, rfl, known, own, spot⟩)
        · exact ⟨[], first, rest, rfl, known, rfl, rfl⟩
        · exact ⟨first :: front, piece, back, rfl, known, own, by rw [spot, longer]⟩
      · rintro ⟨front, piece, back, split, known, own, spot⟩
        cases front with
        | nil =>
            obtain ⟨rfl, rfl⟩ := List.cons.inj split
            refine .inl ⟨passage.origin, known, ?_⟩
            obtain ⟨origin, stands, letters⟩ := passage
            dsimp only at own spot ⊢
            rw [own, spot]
            rfl
        | cons head front =>
            obtain ⟨rfl, rfl⟩ := List.cons.inj split
            exact .inr ⟨front, piece, back, rfl, known, own, by rw [spot, longer]⟩

end Places

section Parts

variable {letters : Letters} {source relpath : Str}

/-- The text that a segment has emitted as a member of the class. -/
def declarationOf (segment : Segment) : List Piece :=
  if segment.kind = .declaration then [verbatim segment] else []

/-- The text that a segment has emitted in the method. -/
def bodyOf (segment : Segment) : List Piece :=
  if segment.kind = .scriptlet then [verbatim segment]
  else if segment.kind = .expression ∧ Printed segment.body then [printed segment]
  else []

/-- A directive adds no piece. -/
theorem directive_parts (collected : Collected) (segment : Segment) :
    (directive letters collected segment).declarations = collected.declarations ∧
      (directive letters collected segment).body = collected.body := by
  unfold directive
  dsimp only
  split
  · exact ⟨rfl, rfl⟩
  · split
    · split
      · exact ⟨rfl, rfl⟩
      · exact ⟨rfl, rfl⟩
    · split
      · exact ⟨rfl, rfl⟩
      · exact ⟨rfl, rfl⟩

/-- One segment adds its texts. -/
theorem collect_parts (collected : Collected) (segment : Segment) :
    (collect letters collected segment).declarations =
        collected.declarations ++ declarationOf segment ∧
      (collect letters collected segment).body = collected.body ++ bodyOf segment := by
  rw [collect, declarationOf, bodyOf]
  cases segment.kind with
  | comment => exact ⟨(List.append_nil _).symm, (List.append_nil _).symm⟩
  | directive =>
      obtain ⟨declarations, body⟩ := @directive_parts letters collected segment
      exact ⟨declarations.trans (List.append_nil _).symm, body.trans (List.append_nil _).symm⟩
  | declaration => exact ⟨rfl, (List.append_nil _).symm⟩
  | scriptlet => exact ⟨(List.append_nil _).symm, rfl⟩
  | expression =>
      simp only [reduceCtorEq, ↓reduceIte, true_and, List.append_nil]
      split
      · exact ⟨rfl, rfl⟩
      · exact ⟨rfl, (List.append_nil _).symm⟩

/-- The texts of a page are those of its segments. -/
theorem collected_parts :
    (collected letters source).declarations = (scan source).flatMap declarationOf ∧
      (collected letters source).body = (scan source).flatMap bodyOf := by
  have each : ∀ (segments : List Segment) (state : Collected),
      (segments.foldl (collect letters) state).declarations =
          state.declarations ++ segments.flatMap declarationOf ∧
        (segments.foldl (collect letters) state).body =
          state.body ++ segments.flatMap bodyOf := by
    intro segments
    induction segments with
    | nil => exact fun state => ⟨(List.append_nil _).symm, (List.append_nil _).symm⟩
    | cons segment rest ih =>
        intro state
        obtain ⟨declarations, body⟩ := @collect_parts letters state segment
        obtain ⟨members, statements⟩ := ih (collect letters state segment)
        rw [List.foldl_cons, List.flatMap_cons, List.flatMap_cons, ← List.append_assoc,
          ← List.append_assoc, ← declarations, ← body]
        exact ⟨members, statements⟩
  exact each (scan source) {}

/-- A piece with an origin is that of a declaration, a scriptlet or a printed expression. -/
inductive FromPage (source : Str) : Piece → Prop
  | verbatim (segment : Segment) (listed : segment ∈ scan source)
      (kind : segment.kind = .declaration ∨ segment.kind = .scriptlet) :
      FromPage source (verbatim segment)
  | printed (segment : Segment) (listed : segment ∈ scan source)
      (kind : segment.kind = .expression) (some : Printed segment.body) :
      FromPage source (printed segment)

/-- A declaration stands in the class as it is written. -/
theorem mem_declarationOf {segment : Segment} {piece : Piece} :
    piece ∈ declarationOf segment ↔ segment.kind = .declaration ∧ piece = verbatim segment := by
  rw [declarationOf]
  split
  · next kind => rw [List.mem_singleton, and_iff_right kind]
  · next other => exact iff_of_false List.not_mem_nil fun both => other both.1

/-- A scriptlet stands in the body as it is written, an expression as a print of it. -/
theorem mem_bodyOf {segment : Segment} {piece : Piece} :
    piece ∈ bodyOf segment ↔
      segment.kind = .scriptlet ∧ piece = verbatim segment ∨
        (segment.kind = .expression ∧ Printed segment.body) ∧ piece = printed segment := by
  rw [bodyOf]
  split
  · next kind =>
      rw [List.mem_singleton, and_iff_right kind]
      exact (or_iff_left fun both => absurd (kind.symm.trans both.1.1) (by decide)).symm
  · next other =>
      rw [or_iff_right fun both => other both.1]
      split
      · next both => rw [List.mem_singleton, and_iff_right both]
      · next none => exact iff_of_false List.not_mem_nil fun all => none all.1

/-- The texts with an origin are those of the segments. -/
theorem mem_pieces_of_origin {piece : Piece} (known : piece.origin ≠ none) :
    piece ∈ pieces letters source relpath ↔
      piece ∈ (collected letters source).declarations ∨
        piece ∈ (collected letters source).body := by
  have scaffolds : ∀ text jspLine, piece ≠ scaffold text jspLine := by
    rintro text jspLine rfl
    exact known rfl
  simp only [pieces, List.mem_append, List.mem_map, List.mem_cons, List.not_mem_nil, or_false]
  constructor
  · intro listed
    rcases listed with ((((((package | ⟨spec, -, imported⟩) | cls) | member) | method) |
      ⟨bean, -, declared⟩) | statement) | brace | brace
    · split at package
      · exact absurd (List.mem_singleton.mp package) (scaffolds _ _)
      · cases package
    · exact absurd imported.symm (scaffolds _ _)
    · exact absurd cls (scaffolds _ _)
    · exact .inl member
    · exact absurd method (scaffolds _ _)
    · exact absurd declared.symm (scaffolds _ _)
    · exact .inr statement
    · exact absurd brace (scaffolds _ _)
    · exact absurd brace (scaffolds _ _)
  · rintro (member | statement)
    · simp only [member, true_or, or_true]
    · simp only [statement, true_or, or_true]

variable (letters relpath) in
/-- They are the pieces with an origin. -/
theorem fromPage_iff {piece : Piece} :
    FromPage source piece ↔ piece ∈ pieces letters source relpath ∧ piece.origin ≠ none := by
  obtain ⟨declarations, body⟩ := @collected_parts letters source
  constructor
  · intro taken
    have known : piece.origin ≠ none := by
      cases taken <;> exact Option.some_ne_none _
    refine ⟨(mem_pieces_of_origin known).mpr ?_, known⟩
    rw [declarations, body, List.mem_flatMap, List.mem_flatMap]
    cases taken with
    | verbatim segment listed kind =>
        rcases kind with declaration | scriptlet
        · exact .inl ⟨segment, listed, mem_declarationOf.mpr ⟨declaration, rfl⟩⟩
        · exact .inr ⟨segment, listed, mem_bodyOf.mpr (.inl ⟨scriptlet, rfl⟩)⟩
    | printed segment listed kind some =>
        exact .inr ⟨segment, listed, mem_bodyOf.mpr (.inr ⟨⟨kind, some⟩, rfl⟩)⟩
  · intro both
    obtain ⟨listed, known⟩ := both
    rw [mem_pieces_of_origin known, declarations, body, List.mem_flatMap, List.mem_flatMap]
      at listed
    rcases listed with ⟨segment, inside, own⟩ | ⟨segment, inside, own⟩
    · obtain ⟨kind, rfl⟩ := mem_declarationOf.mp own
      exact .verbatim segment inside (.inl kind)
    · rcases mem_bodyOf.mp own with ⟨kind, rfl⟩ | ⟨⟨kind, some⟩, rfl⟩
      · exact .verbatim segment inside (.inr kind)
      · exact .printed segment inside kind some

end Parts

section Mapping

variable {letters : Letters} {source relpath : Str}

/-- The source is made of the pieces, line after line. -/
theorem javaSource_eq :
    (translate letters source relpath).javaSource =
      ['\n'].intercalate ((pieces letters source relpath).map Piece.text) := by
  have own : (translate letters source relpath).javaSource =
      ['\n'].intercalate ((pieces letters source relpath).foldl emit {}).out := by
    rw [translate]
  rw [own, (Tracks.empty.foldl (pieces letters source relpath)).2, List.nil_append,
    ← intercalate_flatMap_splitBy ((pieces letters source relpath).map Piece.text),
    List.flatMap_map]

/-- The map has a line for each line of the pieces. -/
theorem get?_lineMap (number : Nat) :
    (translate letters source relpath).lineMap.get? (number + 1) =
      ((pieces letters source relpath).flatMap lineTargets)[number]? := by
  have tracked := (Tracks.empty.foldl (pieces letters source relpath)).1.lines number
  rw [List.nil_append] at tracked
  rw [translate]
  exact tracked

/-- The Java text has as many lines as there are page lines. -/
theorem lineAt_javaSource_length :
    lineAt (translate letters source relpath).javaSource
        (translate letters source relpath).javaSource.length =
      ((pieces letters source relpath).flatMap lineTargets).length := by
  have filled : (pieces letters source relpath).map Piece.text ≠ [] := by
    rw [pieces, List.map_append]
    exact List.append_ne_nil_of_right_ne_nil _ (List.cons_ne_nil _ _)
  rw [lineAt, List.take_length, Nat.add_comm, ← length_splitBy, javaSource_eq,
    splitBy_intercalate filled, List.flatMap_map, List.length_flatMap, List.length_flatMap]
  simp only [lineTargets, List.length_map, List.length_range]

/-- The line of a letter of a piece is mapped to the line of the piece, counted on. -/
theorem get?_lineMap_of_piece {front back : List Piece} {piece : Piece}
    (split : pieces letters source relpath = front ++ piece :: back) (plain : '\n' ∉ piece.lead)
    {count : Nat} (few : count ≤ piece.own.length) :
    (translate letters source relpath).lineMap.get?
        (lineAt (translate letters source relpath).javaSource
          ((textBefore front).length + piece.lead.length + count)) =
      some (max 1 (piece.line + (piece.own.take count).count '\n')) := by
  have text : piece.text.take (piece.lead.length + count) =
      piece.lead ++ piece.own.take count := by
    rw [Piece.text, List.append_assoc, List.take_length_add_append,
      List.take_append_of_le_length few]
  have inside : piece.lead.length + count ≤ piece.text.length := by
    rw [Piece.text, List.length_append, List.length_append]
    omega
  have ends : (piece.own.take count).count '\n' < (lineTargets piece).length := by
    have part : (piece.own.take count).Sublist piece.text :=
      (List.take_sublist count piece.own).trans
        ((List.sublist_append_right piece.lead piece.own).trans
          (List.sublist_append_left (piece.lead ++ piece.own) piece.tail))
    have fewer := part.count_le '\n'
    rw [lineTargets, List.length_map, List.length_range, length_splitBy]
    omega
  obtain ⟨behind, whole⟩ := exists_intercalate_eq front piece back
  rw [← split, ← javaSource_eq] at whole
  have stands : StandsAt piece.text (translate letters source relpath).javaSource
      (textBefore front).length := by
    rw [whole]
    exact StandsAt.of_append _ _ _
  have line : lineAt (translate letters source relpath).javaSource (textBefore front).length =
      1 + (front.flatMap lineTargets).length := by
    rw [whole, lineAt, List.take_left, length_flatMap_lineTargets]
  rw [Nat.add_assoc, lineAt_stands stands inside, line, text, List.count_append,
    List.count_eq_zero.mpr plain, Nat.zero_add, Nat.add_assoc, Nat.add_comm 1, get?_lineMap, split,
    List.flatMap_append, List.flatMap_cons, List.getElem?_append_right (Nat.le_add_right _ _),
    Nat.add_sub_cancel_left, List.getElem?_append_left ends, lineTargets, List.getElem?_map,
    List.getElem?_range (by rwa [lineTargets, List.length_map, List.length_range] at ends)]
  rfl

end Mapping

section Expressions

variable {source : Str} {segment : Segment}

/-- A body is the white space in front of it, the trimmed body, and what is behind. -/
theorem exists_body_eq (body : Str) : ∃ back, body = leadingSpace body ++ (strip body ++ back) := by
  have part : strip body <+: body.dropWhile isSpace := by
    rw [← List.reverse_suffix, strip, stripWhile, List.reverse_reverse]
    exact List.dropWhile_suffix _
  obtain ⟨back, rest⟩ := part
  exact ⟨back, by rw [rest, leadingSpace, List.takeWhile_append_dropWhile]⟩

/-- A trimmed body stands behind the white space in front of it. -/
theorem standsAt_strip (listed : segment ∈ scan source) :
    StandsAt (strip segment.body) source
      (segment.place + (leadingSpace segment.body).length) := by
  have stands := (stands_of_mem_scan listed).1
  obtain ⟨back, body⟩ := exists_body_eq segment.body
  rw [body] at stands
  exact stands.right.left

/-- The line of a trimmed body is that of its opener, counted on by the line ends trimmed. -/
theorem lineAt_strip (listed : segment ∈ scan source) :
    lineAt source (segment.place + (leadingSpace segment.body).length) =
      segment.line + (leadingSpace segment.body).count '\n' := by
  obtain ⟨stands, line⟩ := stands_of_mem_scan listed
  have front : leadingSpace segment.body <+: segment.body := List.takeWhile_prefix _
  rw [lineAt_stands stands front.length_le, line, List.prefix_iff_eq_take.mp front,
    List.length_take_of_le front.length_le]

/-- Every segment has a line of the page. -/
theorem one_le_line (listed : segment ∈ scan source) : 1 ≤ segment.line := by
  rw [(stands_of_mem_scan listed).2, lineAt]
  exact Nat.le_add_right 1 _

end Expressions

section Truth

variable (letters : Letters) (source relpath : Str)

/-- The line map is true: every line of the Java text has a page line, and wherever a part of
the page stands in the Java text, from its first letter to its end, the line there has the
page line on which that place of the part stands. -/
structure TrueLines : Prop where
  total : ∀ number, 1 ≤ number →
    number ≤ lineAt (translate letters source relpath).javaSource
      (translate letters source relpath).javaSource.length →
    ∃ line, (translate letters source relpath).lineMap.get? number = some line
  stands : ∀ passage ∈ passages letters source relpath,
    StandsAt passage.own source passage.origin ∧
      StandsAt passage.own (translate letters source relpath).javaSource passage.place
  lines : ∀ passage ∈ passages letters source relpath, ∀ count ≤ passage.own.length,
    (translate letters source relpath).lineMap.get?
        (lineAt (translate letters source relpath).javaSource (passage.place + count)) =
      some (lineAt source (passage.origin + count))

variable {letters source relpath}

/-- Every line of the Java text has a page line. -/
theorem exists_get?_lineMap {number : Nat} (first : 1 ≤ number)
    (last : number ≤ lineAt (translate letters source relpath).javaSource
      (translate letters source relpath).javaSource.length) :
    ∃ line, (translate letters source relpath).lineMap.get? number = some line := by
  obtain ⟨before, rfl⟩ : ∃ before, number = before + 1 := ⟨number - 1, by omega⟩
  rw [lineAt_javaSource_length] at last
  exact ⟨_, (get?_lineMap before).trans (List.getElem?_eq_getElem last)⟩

/-- Where a passage comes from. -/
theorem exists_of_mem_passages {passage : Passage}
    (listed : passage ∈ passages letters source relpath) :
    ∃ front piece back, pieces letters source relpath = front ++ piece :: back ∧
      FromPage source piece ∧ piece.origin = some passage.origin ∧ passage.own = piece.own ∧
      passage.place = (textBefore front).length + piece.lead.length := by
  obtain ⟨front, piece, back, split, known, own, spot⟩ := mem_passagesFrom.mp listed
  refine ⟨front, piece, back, split, ?_, known, own, by rw [spot, Nat.zero_add]⟩
  refine (fromPage_iff letters relpath).mpr ⟨?_, by rw [known]; exact Option.some_ne_none _⟩
  rw [split]
  exact List.mem_append_right front List.mem_cons_self

/-- A part of the page stands in the page and in the Java text where it says. -/
theorem stands_of_mem_passages {passage : Passage}
    (listed : passage ∈ passages letters source relpath) :
    StandsAt passage.own source passage.origin ∧
      StandsAt passage.own (translate letters source relpath).javaSource passage.place := by
  obtain ⟨front, piece, back, split, taken, known, own, spot⟩ := exists_of_mem_passages listed
  constructor
  · rw [own]
    cases taken with
    | verbatim segment inside _ =>
        rw [← Option.some.inj known]
        exact (stands_of_mem_scan inside).1
    | printed segment inside _ _ =>
        rw [← Option.some.inj known]
        exact standsAt_strip inside
  · obtain ⟨behind, whole⟩ := exists_intercalate_eq front piece back
    have stands : StandsAt (piece.lead ++ piece.own ++ piece.tail)
        (translate letters source relpath).javaSource (textBefore front).length := by
      rw [javaSource_eq, split, whole]
      exact StandsAt.of_append _ _ _
    rw [own, spot]
    exact stands.left.right

/-- What is put in front of a part of the page is on its line. -/
theorem FromPage.plain {piece : Piece} (taken : FromPage source piece) : '\n' ∉ piece.lead := by
  cases taken with
  | verbatim _ _ _ => exact List.not_mem_nil
  | printed _ _ _ _ => exact show '\n' ∉ "_jspx_out.print(".toList by decide

/-- A part of the page is mapped to its lines when its first letter is. -/
theorem get?_lineMap_of_passage {passage : Passage} {front back : List Piece} {piece : Piece}
    (listed : passage ∈ passages letters source relpath)
    (split : pieces letters source relpath = front ++ piece :: back)
    (taken : FromPage source piece) (own : passage.own = piece.own)
    (spot : passage.place = (textBefore front).length + piece.lead.length)
    {count : Nat} (few : count ≤ passage.own.length) :
    (translate letters source relpath).lineMap.get?
        (lineAt (translate letters source relpath).javaSource (passage.place + count)) =
      some (lineAt source (passage.origin + count)) ↔
      max 1 (piece.line + (passage.own.take count).count '\n') =
        lineAt source passage.origin + (passage.own.take count).count '\n' := by
  rw [spot, get?_lineMap_of_piece split taken.plain (own ▸ few), Option.some.injEq,
    lineAt_stands (stands_of_mem_passages listed).1 few, own]

/-- **The line map.** It is true exactly when no expression that is emitted has a line end
trimmed in front of it. -/
theorem trueLines_iff (letters : Letters) (source relpath : Str) :
    TrueLines letters source relpath ↔
      ∀ segment ∈ scan source, segment.kind = .expression → Printed segment.body →
        '\n' ∉ leadingSpace segment.body := by
  constructor
  · intro lines segment listed kind some
    have taken := FromPage.printed segment listed kind some
    obtain ⟨front, back, split⟩ := List.append_of_mem ((fromPage_iff letters relpath).mp taken).1
    have passage : (⟨segment.place + (leadingSpace segment.body).length,
        (textBefore front).length + (printed segment).lead.length, strip segment.body⟩ : Passage) ∈
          passages letters source relpath :=
      mem_passagesFrom.mpr ⟨front, printed segment, back, split, rfl, rfl, by rw [Nat.zero_add]⟩
    have first := (get?_lineMap_of_passage passage split taken rfl rfl (Nat.zero_le _)).mp
      (lines.lines _ passage 0 (Nat.zero_le _))
    dsimp only at first
    rw [List.take_zero, List.count_nil, Nat.add_zero, Nat.add_zero, lineAt_strip listed] at first
    have own : (printed segment).line = segment.line := rfl
    have later := one_le_line listed
    rw [own, Nat.max_eq_right later] at first
    exact List.count_eq_zero.mp (by omega)
  · intro level
    refine ⟨fun number => exists_get?_lineMap, fun passage => stands_of_mem_passages, ?_⟩
    intro passage listed count few
    obtain ⟨front, piece, back, split, taken, known, own, spot⟩ := exists_of_mem_passages listed
    rw [get?_lineMap_of_passage listed split taken own spot few]
    have line : piece.line = lineAt source passage.origin ∧ 1 ≤ piece.line := by
      cases taken with
      | verbatim segment inside _ =>
          rw [← Option.some.inj known]
          exact ⟨(stands_of_mem_scan inside).2, one_le_line inside⟩
      | printed segment inside kind some =>
          have origin := lineAt_strip inside
          rw [List.count_eq_zero.mpr (level segment inside kind some), Nat.add_zero] at origin
          rw [← Option.some.inj known, origin]
          exact ⟨rfl, one_le_line inside⟩
    rw [← line.1, Nat.max_eq_right (Nat.le_trans line.2 (Nat.le_add_right _ _))]

/-- The letters of ASCII. -/
def asciiLetters : Letters := ⟨isIdent, fun letter => [letter.toUpper]⟩

/-- An expression behind a line end. -/
def brokenPage : Str := "<%=\n x %>".toList

/-- It stands on the second line, and is mapped to the first. -/
theorem broken_expression_is_mapped_above :
    ¬ TrueLines asciiLetters brokenPage "a.jsp".toList := by
  intro lines
  have listed : (⟨5, 67, "x".toList⟩ : Passage) ∈
      passages asciiLetters brokenPage "a.jsp".toList := by
    decide +kernel
  exact absurd (lines.lines _ listed 0 (Nat.zero_le _)) (by decide +kernel)

end Truth

end GraphIngest.Jsp
