import GraphIngest.Bytecode.InstructionScan
import GraphIngest.Bytecode.PoolReading

/-! # Reading attributes, line tables and code

The parser finds the attribute that matters and steps over the others. From a
line table it answers every place in the code with the line the table gives it.
What it takes down on its walk over the code is what the instructions do.
-/

namespace GraphIngest.Bytecode.Format

open Foundation Text Reader

section Attributes

variable {α : Type} {constants : List Constant} {label : Str} {encode : α → List UInt8}

/-- Attributes that nothing is wanted of are stepped over. -/
theorem decodes_skipAttributes {attributes : List RawAttribute}
    (count : attributes.length < 0x10000)
    (bodies : ∀ item ∈ attributes, item.body.length < 0x100000000) :
    Decodes skipAttributes (table RawAttribute.encode attributes) () := by
  have each : ∀ item ∈ attributes, Decodes (do
      let _ ← u2
      skip (← u4)) item.encode () := fun item member =>
    (decodes_half item.name).bind ((decodes_u4 (bodies item member)).bind (decodes_skip item.body))
  exact (decodes_u2 count).bind
    (@Decodes.last _ _ _ _ _ (fun _ => ()) _ _ (Decodes.times each))

/-- One attribute is kept when it is of the kind that matters. -/
theorem decodes_findAttribute {item : Attribute α}
    (fits : (item.raw encode).body.length < 0x100000000) (named : item.Named constants label) :
    Decodes (findAttribute (poolOf constants) [label]) (item.raw encode).encode
      (item.content?.map fun content => (label, encode content)) := by
  rw [findAttribute, RawAttribute.encode]
  refine (decodes_half _).bind ?_
  cases item with
  | known name content =>
      refine Decodes.lift (utf8_of_nameAt named) ((decodes_u4 fits).bind ?_)
      rw [if_pos (List.mem_singleton_self label)]
      exact (decodes_take (encode content)).last
  | other item =>
      obtain ⟨name, found, different⟩ := (Option.any_eq_true _ _).mp named
      refine Decodes.lift (utf8_of_nameAt found) ((decodes_u4 fits).bind ?_)
      rw [if_neg (by rw [List.mem_singleton]; exact of_decide_eq_true different)]
      exact @Decodes.last _ _ _ _ _ (fun _ => none) _ _ (decodes_skip item.body)

theorem eq_nil_of_single {items rest : List α} {first : α} (single : items.length ≤ 1)
    (known : items = first :: rest) : rest = [] := by
  rw [known, List.length_cons] at single
  exact List.length_eq_zero_iff.mp (by omega)

/-- Attributes that fit their widths and bear their names, any number of them of
the kind that matters. -/
@[mk_iff]
structure AttributesFit (constants : List Constant) (label : Str) (encode : α → List UInt8)
    (attributes : List (Attribute α)) : Prop where
  count : attributes.length < 0x10000
  bodies : ∀ item ∈ attributes, (item.raw encode).body.length < 0x100000000
  named : ∀ item ∈ attributes, item.Named constants label

instance (attributes : List (Attribute α)) :
    Decidable (AttributesFit constants label encode attributes) :=
  decidable_of_iff' _ (attributesFit_iff constants label encode attributes)

theorem AttributesWellFormed.fit {attributes : List (Attribute α)}
    (wellFormed : AttributesWellFormed constants label encode attributes) :
    AttributesFit constants label encode attributes :=
  ⟨wellFormed.count, wellFormed.bodies, wellFormed.named⟩

/-- Of the values set one after the other under one key, the last one stays. -/
theorem get?_foldl_set_last (label : Str) (encode : α → List UInt8) (values : List α)
    (dict : Dict Str (List UInt8)) :
    (values.foldl (fun kept value => kept.set label (encode value)) dict).get? label =
      (values.getLast?.map encode).or (dict.get? label) := by
  induction values generalizing dict with
  | nil => rfl
  | cons value rest ih =>
      rw [List.foldl_cons, ih, Dict.get?_set, if_pos rfl, List.getLast?_cons]
      cases rest.getLast? <;> rfl

/-- Of the attributes that matter the last one is found by their name, and
nothing when there is none. -/
theorem decodes_findAttributes_last {attributes : List (Attribute α)}
    (fit : AttributesFit constants label encode attributes) :
    ∃ found : Dict Str (List UInt8),
      Decodes (findAttributes (poolOf constants) [label]) (attributeTable encode attributes)
        found ∧ found.get? label = (contents attributes).getLast?.map encode := by
  have each : ∀ item ∈ attributes, Decodes (findAttribute (poolOf constants) [label])
      (item.raw encode).encode (item.content?.map fun content => (label, encode content)) :=
    fun item member => decodes_findAttribute (fit.bodies item member) (fit.named item member)
  have kept : (attributes.map fun item =>
      item.content?.map fun content => (label, encode content)).reduceOption =
      (contents attributes).map fun content => (label, encode content) := by
    rw [contents, List.map_filterMap]
    exact List.filterMap_map
  refine ⟨((contents attributes).map fun content => (label, encode content)).foldl
    (fun kept item => kept.set item.1 item.2) Dict.empty, ?_, ?_⟩
  · rw [findAttributes, attributeTable, table, List.length_map, List.flatMap_map, ← kept]
    exact (decodes_u2 fit.count).bind (Decodes.times each).last
  · rw [List.foldl_map, get?_foldl_set_last]
    exact Option.or_none

/-- The attribute that matters is found by its name, and nothing when there is
none. -/
theorem decodes_findAttributes {attributes : List (Attribute α)}
    (wellFormed : AttributesWellFormed constants label encode attributes) :
    ∃ found : Dict Str (List UInt8),
      Decodes (findAttributes (poolOf constants) [label]) (attributeTable encode attributes)
        found ∧ found.get? label = (contents attributes).head?.map encode := by
  obtain ⟨found, reads, lookup⟩ := decodes_findAttributes_last wellFormed.fit
  refine ⟨found, reads, lookup.trans ?_⟩
  cases known : contents attributes with
  | nil => rfl
  | cons content rest =>
      rw [eq_nil_of_single wellFormed.single known]
      rfl

end Attributes

section Lines

/-- A line table is read back, sorted. -/
theorem parseLineNumberTable_encodeLines {lines : LineTable} (fits : lines.length < 0x10000) :
    parseLineNumberTable (encodeLines lines) =
      .ok ((lineEntries lines).insertionSort earlier) := by
  have each : ∀ entry ∈ lines, Decodes (do
      let startPc ← u2
      let line ← u2
      pure (startPc, line)) (half entry.1 ++ half entry.2) (entry.1.toNat, entry.2.toNat) :=
    fun entry _ => (decodes_half entry.1).bind (decodes_half entry.2).last
  have read := (decodes_table fits each).runOn []
  rw [List.append_nil] at read
  rw [parseLineNumberTable, encodeLines, read]
  rfl

instance : Std.Total earlier where
  total first second := by
    rw [earlier, earlier]
    omega

instance : IsTrans (Nat × Nat) earlier where
  trans first second third := by
    rw [earlier, earlier, earlier]
    omega

/-- A place before every entry has no line. -/
theorem lineAt_of_before {entries : List (Nat × Nat)} {offset : Nat}
    (before : ∀ entry ∈ entries, offset < entry.1) : lineAt entries offset = -1 := by
  have none : (entries.map Prod.fst).filter (· ≤ offset) = [] := by
    rw [List.filter_eq_nil_iff]
    intro start listed
    obtain ⟨entry, member, rfl⟩ := List.mem_map.mp listed
    have late := before entry member
    rw [decide_eq_true_eq]
    omega
  rw [lineAt, none]
  rfl

/-- The last of the entries at or before a place has its line. -/
theorem lineAt_of_last {entries : List (Nat × Nat)} {entry : Nat × Nat} {offset : Nat}
    (listed : entry ∈ entries) (early : entry.1 ≤ offset)
    (last : ∀ other ∈ entries, other.1 ≤ offset → earlier other entry) :
    lineAt entries offset = entry.2 := by
  have start : ((entries.map Prod.fst).filter (· ≤ offset)).max? = some entry.1 := by
    apply List.max?_eq_some_iff.mpr
    refine ⟨List.mem_filter.mpr ⟨List.mem_map_of_mem listed, decide_eq_true early⟩, ?_⟩
    intro start kept
    obtain ⟨present, inside⟩ := List.mem_filter.mp kept
    obtain ⟨other, member, rfl⟩ := List.mem_map.mp present
    have order := last other member (of_decide_eq_true inside)
    rw [earlier] at order
    omega
  have line : ((entries.filter fun other => other.1 = entry.1).map Prod.snd).max? =
      some entry.2 := by
    apply List.max?_eq_some_iff.mpr
    refine ⟨List.mem_map_of_mem (List.mem_filter.mpr ⟨listed, decide_eq_true rfl⟩), ?_⟩
    intro line kept
    obtain ⟨other, member, rfl⟩ := List.mem_map.mp kept
    obtain ⟨present, same⟩ := List.mem_filter.mp member
    have equal : other.1 = entry.1 := of_decide_eq_true same
    have order := last other present (by omega)
    rw [earlier] at order
    omega
  simp only [lineAt, start, line]

/-- In a sorted table the loop ends with the line of the last entry it passes. -/
theorem lineFrom_sorted {entries : List (Nat × Nat)} (sorted : entries.Pairwise earlier)
    (best : Int) (offset : Nat) :
    (∀ entry ∈ entries, offset < entry.1) ∧ lineFrom best entries offset = best ∨
      ∃ entry ∈ entries, entry.1 ≤ offset ∧
        (∀ other ∈ entries, other.1 ≤ offset → earlier other entry) ∧
        lineFrom best entries offset = entry.2 := by
  induction entries generalizing best with
  | nil => exact .inl ⟨fun _ member => absurd member List.not_mem_nil, rfl⟩
  | cons head rest ih =>
      obtain ⟨first, tail⟩ := List.pairwise_cons.mp sorted
      rw [lineFrom]
      by_cases late : offset < head.1
      · refine .inl ⟨fun entry member => ?_, if_pos late⟩
        obtain rfl | behind := List.mem_cons.mp member
        · exact late
        · have order := first entry behind
          rw [earlier] at order
          omega
      · rw [if_neg late]
        refine .inr ?_
        rcases ih tail head.2 with ⟨after, same⟩ | ⟨entry, member, early, last, same⟩
        · refine ⟨head, List.mem_cons_self, by omega, fun other present inside => ?_, same⟩
          obtain rfl | behind := List.mem_cons.mp present
          · exact .inr ⟨rfl, Nat.le_refl _⟩
          · have beyond := after other behind
            omega
        · refine ⟨entry, List.mem_cons_of_mem head member, early, fun other present inside => ?_,
            same⟩
          obtain rfl | behind := List.mem_cons.mp present
          · exact first entry member
          · exact last other behind inside

/-- **Lines.** The parser answers every place with the line of the table. -/
theorem lineForOffset_insertionSort (entries : List (Nat × Nat)) (offset : Nat) :
    lineForOffset (entries.insertionSort earlier) offset = lineAt entries offset := by
  have sorted := List.pairwise_insertionSort earlier entries
  have listed (entry : Nat × Nat) : entry ∈ entries.insertionSort earlier ↔ entry ∈ entries :=
    List.mem_insertionSort earlier
  rw [lineForOffset]
  rcases lineFrom_sorted sorted (-1) offset with ⟨before, same⟩ | ⟨entry, member, early, last, same⟩
  · rw [same, lineAt_of_before fun entry member => before entry ((listed entry).mpr member)]
  · rw [same, lineAt_of_last ((listed entry).mp member) early fun other present inside =>
      last other ((listed other).mpr present) inside]

end Lines

section Instructions

variable {constants : List Constant} {entries lines : List (Nat × Nat)} {offset : Nat}

/-- A method with what some instructions add to it. -/
def extended (constants : List Constant) (entries : List (Nat × Nat)) (method : ParsedMethod)
    (places : List (Nat × Instruction)) : ParsedMethod :=
  { method with
    invocations := method.invocations ++ places.filterMap (callOf constants entries)
    fieldAccesses := method.fieldAccesses ++ places.filterMap (accessOf constants entries)
    instantiations := method.instantiations ++ places.filterMap (createdBy constants) }

theorem InstructionWellFormed.laid {instruction : Instruction}
    (wellFormed : InstructionWellFormed constants offset instruction) :
    Laid offset instruction := by
  cases instruction with
  | invoke op index trailer => exact wellFormed.1
  | access op index => trivial
  | create index => trivial
  | plain opcode operands => exact wellFormed
  | wide opcode local16 => exact wellFormed
  | wideIncrement local16 amount => trivial
  | tableswitch padding default low high targets => exact wellFormed
  | lookupswitch padding default pairs => exact wellFormed

/-- The target of a call, as the parser finds it in the pool. -/
theorem callTarget_of_wellFormed {op : InvokeOp} {index : UInt16} {trailer : List UInt8}
    (wellFormed : InstructionWellFormed constants offset (.invoke op index trailer))
    (agree : lastLine lines offset = lineAt entries offset) :
    Resolves (poolOf constants) (.invoke op index trailer) ∧
      callAt (poolOf constants) lines (offset, .invoke op index trailer) =
        callOf constants entries (offset, .invoke op index trailer) := by
  obtain ⟨-, resolves⟩ := wellFormed
  rw [Resolves, callAt, callTarget]
  by_cases isDynamic : op = .invokedynamic
  · rw [if_pos isDynamic] at resolves
    obtain ⟨site, found⟩ := Option.isSome_iff_exists.mp resolves
    subst isDynamic
    rw [if_pos rfl, invokedynamicNat_of_dynamicAt found, callOf, found, agree]
    exact ⟨rfl, rfl⟩
  · rw [if_neg isDynamic] at resolves
    obtain ⟨member, found⟩ := Option.isSome_iff_exists.mp resolves
    rw [if_neg isDynamic, memberRef_of_memberAt found, callOf, found, agree]
    · exact ⟨rfl, rfl⟩
    · exact isDynamic

/-- An instruction's reference leads to what the class file says about it. -/
theorem InstructionWellFormed.resolves {instruction : Instruction}
    (wellFormed : InstructionWellFormed constants offset instruction) :
    Resolves (poolOf constants) instruction := by
  cases instruction with
  | invoke op index trailer =>
      exact (@callTarget_of_wellFormed constants [] [] offset _ _ _ wellFormed rfl).1
  | access op index =>
      obtain ⟨member, found⟩ := Option.isSome_iff_exists.mp wellFormed
      rw [Resolves, memberRef_of_memberAt found]
      rfl
  | create index =>
      obtain ⟨name, found⟩ := Option.isSome_iff_exists.mp wellFormed
      rw [Resolves, className_of_classAt found]
      rfl
  | plain opcode operands => trivial
  | wide opcode local16 => trivial
  | wideIncrement local16 amount => trivial
  | tableswitch padding default low high targets => trivial
  | lookupswitch padding default pairs => trivial

/-- What the parser takes down of an instruction is what the instruction does. -/
theorem InstructionWellFormed.noted {instruction : Instruction}
    (agree : lastLine lines offset = lineAt entries offset)
    (wellFormed : InstructionWellFormed constants offset instruction) :
    callAt (poolOf constants) lines (offset, instruction) =
        callOf constants entries (offset, instruction) ∧
      accessAt (poolOf constants) lines (offset, instruction) =
        accessOf constants entries (offset, instruction) ∧
      createdAt (poolOf constants) (offset, instruction) =
        createdBy constants (offset, instruction) := by
  cases instruction with
  | invoke op index trailer => exact ⟨(callTarget_of_wellFormed wellFormed agree).2, rfl, rfl⟩
  | access op index =>
      obtain ⟨member, found⟩ := Option.isSome_iff_exists.mp wellFormed
      refine ⟨rfl, ?_, rfl⟩
      rw [accessAt, accessOf, memberRef_of_memberAt found, found, agree]
      rfl
  | create index =>
      obtain ⟨name, found⟩ := Option.isSome_iff_exists.mp wellFormed
      refine ⟨rfl, rfl, ?_⟩
      rw [createdAt, createdBy, className_of_classAt found, found]
      rfl
  | plain opcode operands => exact ⟨rfl, rfl, rfl⟩
  | wide opcode local16 => exact ⟨rfl, rfl, rfl⟩
  | wideIncrement local16 amount => exact ⟨rfl, rfl, rfl⟩
  | tableswitch padding default low high targets => exact ⟨rfl, rfl, rfl⟩
  | lookupswitch padding default pairs => exact ⟨rfl, rfl, rfl⟩

/-- What the parser takes down of some code is what its instructions do. -/
theorem noted_eq_extended {places : List (Nat × Instruction)}
    (agree : ∀ offset, lastLine lines offset = lineAt entries offset)
    (wellFormed : ∀ place ∈ places, InstructionWellFormed constants place.1 place.2)
    (method : ParsedMethod) :
    noted (poolOf constants) lines method places = extended constants entries method places := by
  have each : ∀ place ∈ places, _ := fun place member =>
    InstructionWellFormed.noted (agree place.1) (wellFormed place member)
  rw [noted, extended, List.filterMap_congr fun place member => (each place member).1,
    List.filterMap_congr fun place member => (each place member).2.1,
    List.filterMap_congr fun place member => (each place member).2.2]

/-- Instructions of the virtual machine are taken down as they are, to the end of
the code. -/
theorem scanCode_instructions {instructions : List Instruction}
    (wellFormed : ∀ place ∈ located 0 instructions,
      InstructionWellFormed constants place.1 place.2) (method : ParsedMethod) :
    scanCode (instructions.flatMap Instruction.encode) (poolOf constants)
        (entries.insertionSort earlier) method =
      .ok (extended constants entries method (located 0 instructions)) := by
  have sorted := List.pairwise_insertionSort earlier entries
  have agree (offset : Nat) :
      lastLine (entries.insertionSort earlier) offset = lineAt entries offset := by
    rw [← lineForOffset_eq sorted, lineForOffset_insertionSort]
  apply (scanFrom_eq_ok sorted (fun place member => (wellFormed place member).laid)
    ⟨[], [], List.append_nil _, rfl⟩ (Nat.zero_add _).symm).mpr
  refine ⟨fun instruction member => ?_, (noted_eq_extended agree wellFormed method).symm⟩
  obtain ⟨offset, present⟩ := exists_located 0 member
  exact (wellFormed _ present).resolves

end Instructions

end GraphIngest.Bytecode.Format
