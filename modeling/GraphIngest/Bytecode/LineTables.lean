import GraphIngest.Bytecode.CodeReading

/-! # Several line tables

The lines of a code may be spread over any number of line tables. The parser
keeps the attributes of a code by name, so the table that comes last is the only
one it reads. The lines it takes down are those of all the tables exactly when
no table in front of the last one has a say: at the calls and field accesses the
last table rules, and its lines span those of the others.
-/

namespace GraphIngest.Bytecode.Format

open Foundation Text Reader

section Lines

/-- The lowest and the highest number of a list do not depend on its order. -/
theorem min?_max?_perm {first second : List Nat} (perm : first.Perm second) :
    first.min? = second.min? ∧ first.max? = second.max? := by
  refine ⟨Option.ext fun number => ?_, Option.ext fun number => ?_⟩
  · simp only [List.min?_eq_some_iff, perm.mem_iff]
  · simp only [List.max?_eq_some_iff, perm.mem_iff]

/-- The range of a method does not depend on the order of its line entries. -/
theorem withLineRange_perm (method : ParsedMethod) {first second : List (Nat × Nat)}
    (perm : first.Perm second) : withLineRange method first = withLineRange method second := by
  obtain ⟨lowest, highest⟩ := min?_max?_perm (perm.map Prod.snd)
  rw [withLineRange, withLineRange, lowest, highest]

/-- The first line of some entries, `-1` when there are none. -/
def startOf (entries : List (Nat × Nat)) : Int :=
  ((entries.map Prod.snd).min?.map Int.ofNat).getD (-1)

/-- The last line of some entries, `-1` when there are none. -/
def endOf (entries : List (Nat × Nat)) : Int :=
  ((entries.map Prod.snd).max?.map Int.ofNat).getD (-1)

/-- The line range of a method that had none. -/
theorem withLineRange_eq (method : ParsedMethod) (noStart : method.startLine = -1)
    (noEnd : method.endLine = -1) (lines : List (Nat × Nat)) :
    withLineRange method lines =
      { method with startLine := startOf lines, endLine := endOf lines } := by
  cases lines with
  | nil =>
      obtain ⟨name, descriptor, accessFlags, invocations, accesses, created, first, last⟩ := method
      change first = -1 at noStart
      change last = -1 at noEnd
      subst noStart noEnd
      rfl
  | cons entry rest => rfl

/-- The entry a place takes its line from: of those at or before the place the
one that comes last, by start and then by line. -/
def Governs (entries : List (Nat × Nat)) (offset : Nat) (entry : Nat × Nat) : Prop :=
  entry.1 ≤ offset ∧ ∀ other ∈ entries, other.1 ≤ offset → earlier other entry

instance (entries : List (Nat × Nat)) (offset : Nat) : DecidablePred (Governs entries offset) :=
  fun entry => inferInstanceAs (Decidable (entry.1 ≤ offset ∧ ∀ other ∈ entries, _))

variable {front last : List (Nat × Nat)} {offset : Nat}

/-- An offset stands before all entries or is governed by one of them. -/
theorem exists_governs (entries : List (Nat × Nat)) (offset : Nat) :
    (∀ entry ∈ entries, offset < entry.1) ∨ ∃ entry ∈ entries, Governs entries offset entry := by
  have listed (entry : Nat × Nat) : entry ∈ entries.insertionSort earlier ↔ entry ∈ entries :=
    List.mem_insertionSort earlier
  rcases lineFrom_sorted (List.pairwise_insertionSort earlier entries) (-1) offset with
    ⟨before, -⟩ | ⟨entry, member, early, last, -⟩
  · exact .inl fun entry member => before entry ((listed entry).mpr member)
  · exact .inr ⟨entry, (listed entry).mp member, early, fun other present inside =>
      last other ((listed other).mpr present) inside⟩

/-- At a place the last table gives the line that all tables give: an entry of
the tables in front comes before another one there, or it has the line of the
last table's own entry. -/
def Overrules (front last : List (Nat × Nat)) (offset : Nat) : Prop :=
  ∀ entry ∈ front, entry.1 ≤ offset →
    (∃ other ∈ front ++ last, other.1 ≤ offset ∧ ¬ earlier other entry) ∨
      ∃ governing ∈ last, Governs last offset governing ∧ governing.2 = entry.2

instance : Decidable (Overrules front last offset) :=
  inferInstanceAs (Decidable (∀ entry ∈ front, _))

/-- The last table alone gives the line of an offset exactly where it overrules the others. -/
theorem lineAt_eq_iff_overrules :
    lineAt (front ++ last) offset = lineAt last offset ↔ Overrules front last offset := by
  constructor
  · intro same entry listed early
    apply or_iff_not_imp_left.mpr
    intro latest
    have governs : ∀ other ∈ front ++ last, other.1 ≤ offset → earlier other entry := by
      intro other present inside
      by_contra later
      exact latest ⟨other, present, inside, later⟩
    have line := lineAt_of_last (List.mem_append_left last listed) early governs
    rcases exists_governs last offset with before | ⟨governing, present, rules⟩
    · rw [same, lineAt_of_before before] at line
      omega
    · rw [same, lineAt_of_last present rules.1 rules.2] at line
      exact ⟨governing, present, rules, by omega⟩
  · intro overrules
    rcases exists_governs (front ++ last) offset with before | ⟨entry, listed, early, latest⟩
    · have after : ∀ entry ∈ last, offset < entry.1 := fun entry member =>
        before entry (List.mem_append_right front member)
      rw [lineAt_of_before before, lineAt_of_before after]
    · rw [lineAt_of_last listed early latest]
      rcases List.mem_append.mp listed with inFront | inLast
      · rcases overrules entry inFront early with
          ⟨other, present, inside, later⟩ | ⟨governing, present, rules, same⟩
        · exact absurd (latest other present inside) later
        · rw [lineAt_of_last present rules.1 rules.2, same]
      · have own : ∀ other ∈ last, other.1 ≤ offset → earlier other entry := fun other present =>
          latest other (List.mem_append_right front present)
        rw [lineAt_of_last inLast early own]

/-- The lines of the last table span those of the tables in front. -/
def Spans (front last : List (Nat × Nat)) : Prop :=
  ∀ entry ∈ front, (∃ low ∈ last, low.2 ≤ entry.2) ∧ ∃ high ∈ last, entry.2 ≤ high.2

instance : Decidable (Spans front last) := inferInstanceAs (Decidable (∀ entry ∈ front, _))

theorem getD_ofNat_inj {first second : Option Nat} :
    (first.map Int.ofNat).getD (-1) = (second.map Int.ofNat).getD (-1) ↔ first = second := by
  cases first with
  | none =>
      cases second with
      | none => exact iff_of_true rfl rfl
      | some number =>
          simp only [Option.map_none, Option.getD_none, Option.map_some, Option.getD_some,
            Int.ofNat_eq_natCast, reduceCtorEq]
  | some number =>
      cases second with
      | none =>
          simp only [Option.map_none, Option.getD_none, Option.map_some, Option.getD_some,
            Int.ofNat_eq_natCast, reduceCtorEq]
      | some other =>
          simp only [Option.map_some, Option.getD_some, Int.ofNat_eq_natCast, Option.some.injEq,
            Int.natCast_inj]

/-- More items leave the extreme one as it is exactly when each of them is
outdone by one that is there already. -/
theorem extreme_append_eq_iff {α : Type} {extreme : List α → Option α} {outdoes : α → α → Prop}
    (trans : ∀ {first second third}, outdoes first second → outdoes second third →
      outdoes first third)
    (isSome : ∀ {items item}, extreme items = some item ↔
      item ∈ items ∧ ∀ other ∈ items, outdoes item other)
    (isNone : ∀ {items}, extreme items = none ↔ items = []) (items others : List α) :
    extreme (items ++ others) = extreme others ↔
      ∀ item ∈ items, ∃ other ∈ others, outdoes other item := by
  cases found : extreme others with
  | none =>
      rw [isNone] at found ⊢
      subst found
      rw [List.append_nil, List.eq_nil_iff_forall_not_mem]
      refine forall₂_congr fun item listed => (iff_false_intro ?_).symm
      intro ⟨other, present, _⟩
      exact List.not_mem_nil present
  | some best =>
      obtain ⟨listed, outdone⟩ := isSome.mp found
      rw [isSome]
      constructor
      · intro ⟨_, all⟩ item added
        exact ⟨best, listed, all item (List.mem_append_left others added)⟩
      · intro each
        refine ⟨List.mem_append_right items listed, fun item present => ?_⟩
        rcases List.mem_append.mp present with added | own
        · obtain ⟨other, there, above⟩ := each item added
          exact trans (outdone other there) above
        · exact outdone item own

/-- The last table alone gives the range of a method exactly where it spans the others. -/
theorem range_eq_iff_spans :
    (startOf (front ++ last) = startOf last ∧ endOf (front ++ last) = endOf last) ↔
      Spans front last := by
  have lowest := @extreme_append_eq_iff Nat List.min? (· ≤ ·) Nat.le_trans List.min?_eq_some_iff
    List.min?_eq_none_iff
  have highest := @extreme_append_eq_iff Nat List.max? (· ≥ ·)
    (fun above below => below.trans above) List.max?_eq_some_iff List.max?_eq_none_iff
  rw [startOf, startOf, endOf, endOf, getD_ofNat_inj, getD_ofNat_inj, List.map_append, lowest,
    highest]
  simp only [List.mem_map, exists_exists_and_eq_and, ← forall_and, Spans, forall_exists_index,
    and_imp, forall_apply_eq_imp_iff₂, ge_iff_le]

end Lines

section Reading

variable {constants : List Constant}

theorem length_handler (handler : Handler) : handler.encode.length = 8 := by
  simp only [Handler.encode, List.length_append, length_half]

namespace CodeBody

/-- A code of the format, with any number of line tables. -/
@[mk_iff]
structure Tabled (constants : List Constant) (body : CodeBody) : Prop where
  codeLength : body.code.length < 0x100000000
  instructions : ∀ place ∈ located 0 body.instructions,
    InstructionWellFormed constants place.1 place.2
  handlerCount : body.handlers.length < 0x10000
  attributes : AttributesFit constants "LineNumberTable".toList encodeLines body.attributes
  lineCounts : ∀ lines ∈ contents body.attributes, lines.length < 0x10000

instance (constants : List Constant) : DecidablePred (Tabled constants) :=
  fun body => decidable_of_iff' _ (tabled_iff constants body)

theorem WellFormed.tabled {body : CodeBody} (wellFormed : body.WellFormed constants) :
    body.Tabled constants :=
  ⟨wellFormed.codeLength, wellFormed.instructions, wellFormed.handlerCount,
    wellFormed.attributes.fit, wellFormed.lineCounts⟩

/-- The lines of the last table, none when there is no table. -/
def lastEntries (body : CodeBody) : List (Nat × Nat) :=
  lineEntries ((contents body.attributes).getLast?.getD [])

/-- The lines of the tables in front of the last one. -/
def frontEntries (body : CodeBody) : List (Nat × Nat) :=
  lineEntries (contents body.attributes).dropLast.flatten

/-- The line entries are those of the earlier tables and then those of the last. -/
theorem entries_eq (body : CodeBody) : body.entries = body.frontEntries ++ body.lastEntries := by
  rw [entries, frontEntries, lastEntries]
  cases known : contents body.attributes with
  | nil => rfl
  | cons first rest =>
      have some : first :: rest ≠ [] := List.cons_ne_nil first rest
      conv_lhs => rw [← List.dropLast_append_getLast some]
      rw [List.getLast?_eq_some_getLast some, List.flatten_append, List.flatten_singleton,
        lineEntries, List.map_append]
      rfl

/-- In a well-formed body the last table is the only one. -/
theorem lastEntries_of_wellFormed {body : CodeBody} (wellFormed : body.WellFormed constants) :
    body.lastEntries = body.entries := by
  rw [lastEntries, entries]
  cases known : contents body.attributes with
  | nil => rfl
  | cons lines rest =>
      rw [eq_nil_of_single wellFormed.attributes.single known, List.flatten_singleton]
      rfl

/-- The code of a method and its last line table are read back. -/
theorem decodes_readCode {body : CodeBody} (tabled : body.Tabled constants) :
    ∃ found : Dict Str (List UInt8),
      Decodes (readCode (poolOf constants)) body.encode (body.code, found) ∧
      found.get? "LineNumberTable".toList =
        (contents body.attributes).getLast?.map encodeLines := by
  obtain ⟨found, reads, lookup⟩ := decodes_findAttributes_last tabled.attributes
  refine ⟨found, ?_, lookup⟩
  have sizes := decodes_skip (half body.maxStack ++ half body.maxLocals)
  have handlers := decodes_skip (body.handlers.flatMap Handler.encode)
  rw [List.length_append, length_half, length_half] at sizes
  rw [length_flatMap_of_width length_handler] at handlers
  rw [readCode, CodeBody.encode, table, List.append_assoc]
  refine sizes.bind ((decodes_u4 tabled.codeLength).bind ((decodes_take body.code).bind ?_))
  exact (decodes_u2 tabled.handlerCount).bind (handlers.bind reads.last)

/-- The line table that is found has the lines of the last table. -/
theorem linesOf_eq {body : CodeBody} (tabled : body.Tabled constants)
    {found : Dict Str (List UInt8)}
    (lookup : found.get? "LineNumberTable".toList =
      (contents body.attributes).getLast?.map encodeLines) :
    linesOf found = .ok (body.lastEntries.insertionSort earlier) := by
  rw [linesOf, lookup, lastEntries]
  cases known : (contents body.attributes).getLast? with
  | none => rfl
  | some lines =>
      exact parseLineNumberTable_encodeLines (tabled.lineCounts lines (List.mem_of_getLast? known))

/-- The code of a method says what its instructions do, at the lines of its last
table. -/
theorem parseCode_encode {body : CodeBody} (tabled : body.Tabled constants)
    (method : ParsedMethod) :
    parseCode (poolOf constants) body.encode method =
      .ok (extended constants body.lastEntries (withLineRange method body.lastEntries)
        (located 0 body.instructions)) := by
  obtain ⟨found, reads, lookup⟩ := decodes_readCode tabled
  have read := reads.runOn []
  rw [List.append_nil] at read
  have walk := @scanCode_instructions _ body.lastEntries _ tabled.instructions
    (withLineRange method (body.lastEntries.insertionSort earlier))
  rw [parseCode, read]
  change (linesOf found >>= fun lines =>
    scanCode body.code (poolOf constants) lines (withLineRange method lines)) = _
  rw [linesOf_eq tabled lookup]
  change scanCode (body.instructions.flatMap Instruction.encode) _ _ _ = _
  rw [walk, withLineRange_perm method (List.perm_insertionSort earlier body.lastEntries)]

end CodeBody

theorem getD_of_isSome {α : Type} {value : Option α} (found : value.isSome = true) (default : α) :
    value = some (value.getD default) := by
  cases value with
  | none => cases found
  | some value => rfl

/-- A well-formed header is decoded to what it stands for. -/
theorem decodes_parseHeader {header : Header} (wellFormed : header.WellFormed constants) :
    Decodes (parseHeader (poolOf constants)) header.encode (header.projection constants) := by
  have named := utf8_of_nameAt (getD_of_isSome wellFormed.name [])
  have described := utf8_of_nameAt (getD_of_isSome wellFormed.descriptor [])
  rw [parseHeader, Header.encode]
  refine (decodes_half _).bind ((decodes_half _).bind (Decodes.lift named ?_))
  exact (decodes_half _).bind_nil (Decodes.lift described (Decodes.pure _))

namespace Method

/-- A method of the format, whose code may have any number of line tables. -/
@[mk_iff]
structure Tabled (constants : List Constant) (method : Method) : Prop where
  header : method.header.WellFormed constants
  attributes : AttributesWellFormed constants "Code".toList CodeBody.encode method.attributes
  bodies : ∀ body ∈ contents method.attributes, body.Tabled constants

instance (constants : List Constant) : DecidablePred (Tabled constants) :=
  fun method => decidable_of_iff' _ (tabled_iff constants method)

theorem WellFormed.tabled {method : Method} (wellFormed : method.WellFormed constants) :
    method.Tabled constants :=
  ⟨wellFormed.header, wellFormed.attributes,
    fun body listed => (wellFormed.bodies body listed).tabled⟩

/-- What the class file says about a method whose lines are the given ones. -/
def projectionAt (constants : List Constant) (entries : List (Nat × Nat)) (method : Method) :
    ParsedMethod where
  name := (nameAt constants method.header.name).getD []
  descriptor := (nameAt constants method.header.descriptor).getD []
  accessFlags := method.header.accessFlags.toNat
  invocations := method.places.filterMap (callOf constants entries)
  fieldAccesses := method.places.filterMap (accessOf constants entries)
  instantiations := method.places.filterMap (createdBy constants)
  startLine := startOf entries
  endLine := endOf entries

/-- A method stands for its projection with the entries of all its tables. -/
theorem projection_eq (method : Method) :
    method.projection constants = method.projectionAt constants method.entries :=
  rfl

/-- The lines of the last table of a method, none without code. -/
def lastEntries (method : Method) : List (Nat × Nat) :=
  (contents method.attributes).flatMap CodeBody.lastEntries

/-- The attributes of a method say what its projection at the last table says. -/
theorem withCode_eq {method : Method} (tabled : method.Tabled constants)
    {found : Dict Str (List UInt8)}
    (lookup : found.get? "Code".toList = (contents method.attributes).head?.map CodeBody.encode) :
    withCode (poolOf constants) found
      { name := (nameAt constants method.header.name).getD []
        descriptor := (nameAt constants method.header.descriptor).getD []
        accessFlags := method.header.accessFlags.toNat } =
      .ok (method.projectionAt constants method.lastEntries) := by
  have single := tabled.attributes.single
  rw [withCode, lookup, Method.projectionAt, Method.places, Method.lastEntries]
  cases known : contents method.attributes with
  | nil => rfl
  | cons body rest =>
      have alone := eq_nil_of_single single known
      have inner := tabled.bodies body (by rw [known]; exact List.mem_cons_self)
      rw [alone, List.flatMap_singleton, List.flatMap_singleton]
      change parseCode (poolOf constants) body.encode _ = _
      rw [CodeBody.parseCode_encode inner, withLineRange_eq _ rfl rfl]
      rfl

/-- A method is parsed into what it says at the lines of its last table. -/
theorem decodes_parseMethod {method : Method} (tabled : method.Tabled constants) :
    Decodes (parseMethod (poolOf constants)) method.encode
      (method.projectionAt constants method.lastEntries) := by
  obtain ⟨found, reads, lookup⟩ := decodes_findAttributes tabled.attributes
  rw [parseMethod, Method.encode]
  refine (decodes_parseHeader tabled.header).bind (reads.bind_nil ?_)
  exact Decodes.lifted (withCode_eq tabled lookup)

end Method

end Reading

section Union

variable {constants : List Constant}

/-- Two partial maps that are defined alike collect the same values exactly when
they agree on every item. -/
theorem filterMap_eq_filterMap_iff {α β : Type} {first second : α → Option β} {items : List α}
    (alike : ∀ item ∈ items, (first item).isSome = (second item).isSome) :
    items.filterMap first = items.filterMap second ↔ ∀ item ∈ items, first item = second item := by
  induction items with
  | nil => exact iff_of_true rfl fun _ listed => absurd listed List.not_mem_nil
  | cons item rest ih =>
      have behind := ih fun other listed => alike other (List.mem_cons_of_mem item listed)
      have here := alike item List.mem_cons_self
      rw [List.forall_mem_cons, ← behind, List.filterMap_cons, List.filterMap_cons]
      cases found : first item with
      | none =>
          rw [found, Option.isSome_none, eq_comm, Option.isSome_eq_false_iff,
            Option.isNone_iff_eq_none] at here
          rw [here]
          exact (and_iff_right rfl).symm
      | some value =>
          rw [found, Option.isSome_some, eq_comm, Option.isSome_iff_exists] at here
          obtain ⟨other, known⟩ := here
          rw [known, List.cons.injEq, Option.some.injEq]

/-- Whether the parser takes down a line for an instruction: it does for calls
and field accesses. -/
def Instruction.recorded : Instruction → Bool
  | invoke _ _ _ | access _ _ => true
  | _ => false

/-- Entries only tell the lines of calls and accesses, not which there are. -/
theorem isSome_noted (entries others : List (Nat × Nat)) (place : Nat × Instruction) :
    (callOf constants entries place).isSome = (callOf constants others place).isSome ∧
      (accessOf constants entries place).isSome = (accessOf constants others place).isSome := by
  obtain ⟨offset, instruction⟩ := place
  cases instruction with
  | invoke op index trailer =>
      cases op <;> simp only [callOf, accessOf, Option.isSome_map, and_self]
  | access op index => simp only [callOf, accessOf, Option.isSome_map, and_self]
  | _ => exact ⟨rfl, rfl⟩

/-- What is taken down of an instruction is the same under two tables exactly when
no line is taken down or it is the same one. -/
theorem noted_eq_iff {entries others : List (Nat × Nat)} {place : Nat × Instruction}
    (wellFormed : InstructionWellFormed constants place.1 place.2) :
    (callOf constants entries place = callOf constants others place ∧
        accessOf constants entries place = accessOf constants others place) ↔
      (place.2.recorded = true → lineAt entries place.1 = lineAt others place.1) := by
  obtain ⟨offset, instruction⟩ := place
  cases instruction with
  | invoke op index trailer =>
      obtain ⟨-, resolves⟩ := wellFormed
      by_cases isDynamic : op = .invokedynamic
      · rw [if_pos isDynamic] at resolves
        obtain ⟨site, found⟩ := Option.isSome_iff_exists.mp resolves
        subst isDynamic
        simp only [callOf, accessOf, found, Option.map_some, Option.some.injEq,
          CallSite.mk.injEq, Invocation.mk.injEq, true_and, and_true, Instruction.recorded,
          forall_const]
      · rw [if_neg isDynamic] at resolves
        obtain ⟨member, found⟩ := Option.isSome_iff_exists.mp resolves
        rw [callOf, callOf, found]
        · simp only [accessOf, Option.map_some, Option.some.injEq, CallSite.mk.injEq,
            Invocation.mk.injEq, true_and, and_true, Instruction.recorded, forall_const]
        · exact isDynamic
        · exact isDynamic
  | access op index =>
      obtain ⟨member, found⟩ := Option.isSome_iff_exists.mp wellFormed
      simp only [callOf, accessOf, found, Option.map_some, Option.some.injEq,
        FieldAccess.mk.injEq, true_and, Instruction.recorded, forall_const]
  | _ => exact iff_of_true ⟨rfl, rfl⟩ fun recorded => absurd recorded Bool.false_ne_true

/-- No table in front of the last one has a say: not at the instructions whose
lines are taken down, and not in the range of the lines. -/
@[mk_iff]
structure CodeBody.LastTableRules (body : CodeBody) : Prop where
  places : ∀ place ∈ located 0 body.instructions, place.2.recorded = true →
    Overrules body.frontEntries body.lastEntries place.1
  range : Spans body.frontEntries body.lastEntries

instance : DecidablePred CodeBody.LastTableRules :=
  fun body => decidable_of_iff' _ (CodeBody.lastTableRules_iff body)

/-- What the projection says of the calls, accesses and the range at two choices
of entries. -/
theorem projectionAt_eq_iff {method : Method} {entries others : List (Nat × Nat)} :
    method.projectionAt constants entries = method.projectionAt constants others ↔
      (∀ place ∈ method.places, callOf constants entries place = callOf constants others place ∧
        accessOf constants entries place = accessOf constants others place) ∧
      startOf entries = startOf others ∧ endOf entries = endOf others := by
  rw [Method.projectionAt, Method.projectionAt, ParsedMethod.mk.injEq,
    filterMap_eq_filterMap_iff fun place _ => (isSome_noted entries others place).1,
    filterMap_eq_filterMap_iff fun place _ => (isSome_noted entries others place).2]
  simp only [true_and, ← and_assoc, ← forall₂_and]

/-- At one code all line tables have a say exactly when the last one rules. -/
theorem CodeBody.lastTableRules_iff_projects {body : CodeBody} (tabled : body.Tabled constants) :
    ((∀ place ∈ located 0 body.instructions,
        callOf constants body.lastEntries place = callOf constants body.entries place ∧
          accessOf constants body.lastEntries place = accessOf constants body.entries place) ∧
      startOf body.lastEntries = startOf body.entries ∧
      endOf body.lastEntries = endOf body.entries) ↔ body.LastTableRules := by
  rw [CodeBody.lastTableRules_iff, ← range_eq_iff_spans, ← CodeBody.entries_eq]
  refine and_congr (forall₂_congr fun place listed => ?_) (and_congr eq_comm eq_comm)
  rw [noted_eq_iff (tabled.instructions place listed)]
  refine imp_congr_right fun _ => ?_
  rw [eq_comm, CodeBody.entries_eq, lineAt_eq_iff_overrules]

/-- **All line tables.** A method is parsed into what it says at the lines of all
its line tables exactly when the last table of its code rules. -/
theorem decodes_all_tables_iff {method : Method} (tabled : method.Tabled constants) :
    Decodes (parseMethod (poolOf constants)) method.encode (method.projection constants) ↔
      ∀ body ∈ contents method.attributes, body.LastTableRules := by
  have reads := Method.decodes_parseMethod tabled
  have same : Decodes (parseMethod (poolOf constants)) method.encode
        (method.projection constants) ↔
      method.projectionAt constants method.lastEntries =
        method.projectionAt constants method.entries :=
    ⟨fun all => reads.unique all, fun equal => by rwa [Method.projection_eq, ← equal]⟩
  rw [same, projectionAt_eq_iff, Method.places, Method.lastEntries, Method.entries]
  have single := tabled.attributes.single
  cases known : contents method.attributes with
  | nil =>
      exact iff_of_true ⟨fun _ listed => absurd listed List.not_mem_nil, rfl, rfl⟩
        fun _ listed => absurd listed List.not_mem_nil
  | cons body rest =>
      have inner := tabled.bodies body (by rw [known]; exact List.mem_cons_self)
      rw [eq_nil_of_single single known, List.flatMap_singleton, List.flatMap_singleton,
        List.flatMap_singleton, List.forall_mem_singleton]
      exact CodeBody.lastTableRules_iff_projects inner

/-- A text as a constant. -/
def textConstant (text : Str) : Constant :=
  .utf8 (text.map fun letter => UInt16.ofNat letter.toNat)

/-- The constants of a method that calls itself twice. -/
def twiceConstants : List Constant :=
  [textConstant "a/B", .classInfo 1, textConstant "m", textConstant "()V", .nameAndType 3 4,
    .methodref 2 5, textConstant "Code", textConstant "LineNumberTable"]

/-- A method that calls itself twice, with some line tables. -/
def twiceMethod (tables : List LineTable) : Method where
  header := ⟨0x9, 3, 4⟩
  attributes := [.known 7
    { maxStack := 0
      maxLocals := 0
      instructions := [.invoke .invokestatic 6 [], .invoke .invokestatic 6 [], .plain 0xb1 []]
      handlers := []
      attributes := tables.map (.known 8) }]

/-- A last table with all the lines rules. -/
theorem decodes_all_tables_twice :
    (twiceMethod [[(0, 10)], [(0, 10), (3, 12)]]).Tabled twiceConstants ∧
      Decodes (parseMethod (poolOf twiceConstants))
        (twiceMethod [[(0, 10)], [(0, 10), (3, 12)]]).encode
        ((twiceMethod [[(0, 10)], [(0, 10), (3, 12)]]).projection twiceConstants) := by
  have tabled : (twiceMethod [[(0, 10)], [(0, 10), (3, 12)]]).Tabled twiceConstants := by
    decide +kernel
  exact ⟨tabled, (decodes_all_tables_iff tabled).mpr (by decide +kernel)⟩

/-- Of a table for each call only that of the second one is read: the method does
not start where its first call stands. -/
theorem first_table_is_lost :
    (twiceMethod [[(0, 10)], [(3, 12)]]).Tabled twiceConstants ∧
      ¬ Decodes (parseMethod (poolOf twiceConstants)) (twiceMethod [[(0, 10)], [(3, 12)]]).encode
        ((twiceMethod [[(0, 10)], [(3, 12)]]).projection twiceConstants) := by
  have tabled : (twiceMethod [[(0, 10)], [(3, 12)]]).Tabled twiceConstants := by decide +kernel
  refine ⟨tabled, fun all => ?_⟩
  have same := (Method.decodes_parseMethod tabled).unique all
  have start : (12 : Int) = 10 := congrArg ParsedMethod.startLine same
  omega

end Union

end GraphIngest.Bytecode.Format
