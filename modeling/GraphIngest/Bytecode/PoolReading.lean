import GraphIngest.Bytecode.Format

/-! # Reading the constant pool

The parser reads every constant back and keeps it at its index, so that a name,
a class or a member found by following the references of a class file is found
by the parser as well.
-/

namespace GraphIngest.Bytecode.Format

open Foundation Text Reader

section Numbers

theorem decodes_u1 {number : Nat} (fits : number < 256) :
    Decodes u1 (bigEndian 1 number) number :=
  Decodes.number _ (by omega)

theorem decodes_half (number : UInt16) : Decodes u2 (half number) number.toNat :=
  Decodes.number _ number.toNat_lt

/-- A length written in two bytes. -/
theorem decodes_u2 {number : Nat} (fits : number < 0x10000) :
    Decodes u2 (bigEndian 2 number) number :=
  Decodes.number _ (by omega)

/-- A length written in four bytes. -/
theorem decodes_u4 {number : Nat} (fits : number < 0x100000000) :
    Decodes u4 (bigEndian 4 number) number :=
  Decodes.number _ (by omega)

theorem decodes_take (bytes : List UInt8) : Decodes (take bytes.length) bytes bytes :=
  Decodes.slice _ bytes

theorem decodes_skip (bytes : List UInt8) : Decodes (skip bytes.length) bytes () :=
  @Decodes.last _ _ _ _ _ (fun _ => ()) _ _ (Decodes.slice _ bytes)

/-- Every entry of a table that fits its count. -/
theorem decodes_table {α γ : Type} {item : Reader α} {encode : γ → List UInt8} {value : γ → α}
    {entries : List γ} (fits : entries.length < 0x10000)
    (each : ∀ entry ∈ entries, Decodes item (encode entry) (value entry)) :
    Decodes (u2 >>= fun number => Decoder.times number item) (table encode entries)
      (entries.map value) :=
  Decodes.counted (decodes_u2 fits) each

end Numbers

section Entries

/-- A constant as the parser keeps it. -/
def entryOf : Constant → PoolEntry
  | .utf8 units => .text (Utf8.decode (Utf8.encodeUnits units))
  | constant => .values constant.tag (constant.operands.map Prod.snd)

/-- Numbers that fit their widths are unpacked. -/
theorem unpack_operands {operands : List (Nat × Nat)}
    (fit : ∀ operand ∈ operands, operand.2 < 256 ^ operand.1) :
    unpack (operands.map Prod.fst)
        (operands.flatMap fun operand => bigEndian operand.1 operand.2) =
      operands.map Prod.snd := by
  induction operands with
  | nil => rfl
  | cons operand rest ih =>
      have read := ofBigEndian_bigEndian (fit operand List.mem_cons_self)
      have behind := ih fun other member => fit other (List.mem_cons_of_mem operand member)
      have width := length_bigEndian operand.1 operand.2
      rw [List.map_cons, List.map_cons, List.flatMap_cons, unpack, List.take_left' width,
        List.drop_left' width, read, behind]

/-- The operands of a constant take the bytes of their format. -/
theorem length_operands (operands : List (Nat × Nat)) :
    (operands.flatMap fun operand => bigEndian operand.1 operand.2).length =
      calcsize (operands.map Prod.fst) := by
  induction operands with
  | nil => rfl
  | cons operand rest ih =>
      rw [List.flatMap_cons, List.length_append, length_bigEndian, ih]
      rfl

/-- Every operand of a constant fits its width. -/
theorem operands_fit (constant : Constant) :
    ∀ operand ∈ constant.operands, operand.2 < 256 ^ operand.1 := by
  have byte (number : UInt8) : number.toNat < 256 ^ 1 := number.toNat_lt
  have two (number : UInt16) : number.toNat < 256 ^ 2 := number.toNat_lt
  have four (number : UInt32) : number.toNat < 256 ^ 4 := number.toNat_lt
  have eight (number : UInt64) : number.toNat < 256 ^ 8 := number.toNat_lt
  cases constant <;>
    simp only [Constant.operands, List.mem_cons, List.not_mem_nil, or_false, forall_eq_or_imp,
      forall_eq, byte, two, four, eight, and_self, false_implies, implies_true]

theorem tag_lt (constant : Constant) : constant.tag < 256 := by
  cases constant <;> (rw [Constant.tag]; omega)

/-- The layout table has the widths of every constant that is read by it. -/
theorem cpLayout_tag {constant : Constant} (noText : constant.tag ≠ 1)
    (noHandle : constant.tag ≠ 15) :
    cpLayout constant.tag = some (constant.operands.map Prod.fst, constant.width) := by
  cases constant <;> first | rfl | exact absurd rfl noText | exact absurd rfl noHandle

/-- A constant read by the layout table. -/
theorem decodes_laidOut {constant : Constant} (noText : constant.tag ≠ 1)
    (noHandle : constant.tag ≠ 15) (index : Nat) :
    Decodes (parseConstant index) constant.encode (entryOf constant, constant.width) := by
  have entry : entryOf constant = .values constant.tag (constant.operands.map Prod.snd) := by
    cases constant <;> first | rfl | exact absurd rfl noText
  have body : constant.body =
      constant.operands.flatMap fun operand => bigEndian operand.1 operand.2 := by
    cases constant <;> first | rfl | exact absurd rfl noText
  rw [parseConstant, Constant.encode]
  refine (decodes_u1 (tag_lt constant)).bind ?_
  rw [if_neg noText, if_neg noHandle, cpLayout_tag noText noHandle, entry, body,
    ← unpack_operands (operands_fit constant)]
  change Decodes (take (calcsize (constant.operands.map Prod.fst)) >>= _) _ _
  rw [← length_operands]
  exact (decodes_take _).last

/-- Every constant is read back, and takes the indices it should. -/
theorem decodes_parseConstant {constant : Constant} (fits : constant.textLength < 0x10000)
    (index : Nat) :
    Decodes (parseConstant index) constant.encode (entryOf constant, constant.width) := by
  cases constant with
  | utf8 units =>
      have isText : (Constant.utf8 units).tag = 1 := rfl
      rw [parseConstant, Constant.encode]
      refine (decodes_u1 (tag_lt _)).bind ?_
      rw [if_pos isText, Constant.body]
      exact (decodes_u2 fits).bind (decodes_take _).last
  | methodHandle kind reference =>
      have isHandle : (Constant.methodHandle kind reference).tag = 15 := rfl
      have body : (Constant.methodHandle kind reference).body =
          bigEndian 1 kind.toNat ++ half reference := rfl
      rw [parseConstant, Constant.encode, body]
      refine (decodes_u1 (tag_lt _)).bind ?_
      rw [if_neg (by rw [isHandle]; decide), if_pos isHandle]
      exact (decodes_u1 kind.toNat_lt).bind (decodes_half reference).last
  | _ =>
      apply decodes_laidOut
      · rw [Constant.tag]
        omega
      · rw [Constant.tag]
        omega

end Entries

section Slots

/-- The pool the parser builds for some constants. -/
def poolOf (constants : List Constant) : Pool :=
  ⟨(slots constants).map (Option.map entryOf)⟩

/-- The slots one constant fills. -/
def entrySlots (constant : Constant) : List (Option PoolEntry) :=
  some (entryOf constant) :: List.replicate (constant.width - 1) none

theorem width_pos (constant : Constant) : 0 < constant.width := by
  cases constant <;> exact Nat.succ_pos _

/-- A constant takes as many slots as it is wide. -/
theorem length_entrySlots (constant : Constant) :
    (entrySlots constant).length = constant.width := by
  have positive := width_pos constant
  rw [entrySlots, List.length_cons, List.length_replicate]
  omega

/-- Storing an entry in front of empty slots, with its second slot left empty. -/
theorem set_append_replicate (done : List (Option PoolEntry)) (constant : Constant) (left : Nat) :
    (done ++ List.replicate (constant.width + left) none).set done.length
        (some (entryOf constant)) =
      (done ++ entrySlots constant) ++ List.replicate left none := by
  obtain ⟨second, width⟩ : ∃ second, constant.width = second + 1 :=
    ⟨constant.width - 1, by have := width_pos constant; omega⟩
  have split : second + 1 + left = (second + left) + 1 := by omega
  rw [entrySlots, width, split, List.replicate_succ, List.set_append_right _ _ (Nat.le_refl _),
    Nat.sub_self, List.set_cons_zero, Nat.add_sub_cancel, List.append_assoc, List.cons_append,
    List.replicate_append_replicate]

/-- The loop stores the constants still to come behind those already stored. -/
theorem decodes_parseSlots {constants : List Constant}
    (fit : ∀ constant ∈ constants, constant.textLength < 0x10000) (done : List (Option PoolEntry)) :
    Decodes
      (parseSlots (done.length + (constants.flatMap entrySlots).length) done.length
        (done ++ List.replicate (constants.flatMap entrySlots).length none))
      (constants.flatMap Constant.encode) (done ++ constants.flatMap entrySlots) := by
  induction constants generalizing done with
  | nil =>
      rw [parseSlots, if_neg (by exact Nat.lt_irrefl _)]
      exact Decodes.pure _
  | cons constant rest ih =>
      have positive := width_pos constant
      have width := length_entrySlots constant
      rw [List.flatMap_cons, List.flatMap_cons, List.length_append, width, parseSlots,
        if_pos (by omega)]
      refine (decodes_parseConstant (fit constant List.mem_cons_self) _).bind ?_
      have behind := ih (fun other member => fit other (List.mem_cons_of_mem constant member))
        (done ++ entrySlots constant)
      rw [List.length_append, width, Nat.add_assoc] at behind
      have next : done.length + 1 + (constant.width - 1) = done.length + constant.width := by omega
      change Decodes (parseSlots _ (done.length + 1 + (constant.width - 1))
        ((done ++ _).set done.length (some (entryOf constant)))) _ _
      rw [set_append_replicate, next, ← List.append_assoc]
      exact behind

/-- The pool has an empty slot and then those of its constants. -/
theorem raw_poolOf (constants : List Constant) :
    (poolOf constants).raw = none :: constants.flatMap entrySlots := by
  rw [poolOf, slots, List.map_cons, List.map_flatMap]
  simp only [List.map_cons, List.map_replicate, Option.map_some, Option.map_none]
  rfl

/-- The pool is read back from its count and its constants. -/
theorem decodes_parseConstantPool {constants : List Constant}
    (fit : ∀ constant ∈ constants, constant.textLength < 0x10000) :
    Decodes (parseConstantPool (slots constants).length) (constants.flatMap Constant.encode)
      (poolOf constants) := by
  have raw := raw_poolOf constants
  have count : (slots constants).length = 1 + (constants.flatMap entrySlots).length := by
    have lengths := congrArg List.length raw
    rw [poolOf, List.length_map, List.length_cons] at lengths
    omega
  have loop := decodes_parseSlots fit [none]
  have start : List.replicate (slots constants).length (none : Option PoolEntry) =
      [none] ++ List.replicate (constants.flatMap entrySlots).length none := by
    rw [count, Nat.add_comm, List.replicate_succ, List.singleton_append]
  have pool : poolOf constants = ⟨[none] ++ constants.flatMap entrySlots⟩ := by
    rw [List.singleton_append, ← raw]
  rw [List.length_singleton] at loop
  rw [parseConstantPool, start, count, pool]
  exact loop.last

end Slots

section Lookups

variable {constants : List Constant} {index : UInt16}

/-- A constant is found at its index, and only inside the pool. -/
theorem entry_of_constantAt {constant : Constant}
    (found : constantAt constants index = some constant) :
    0 < index.toNat ∧ index.toNat < (poolOf constants).raw.length ∧
      (poolOf constants).entry index.toNat = some (entryOf constant) := by
  rw [constantAt, Option.join_eq_some_iff] at found
  obtain ⟨inside, stored⟩ := List.getElem?_eq_some_iff.mp found
  have positive : 0 < index.toNat := by
    rw [Nat.pos_iff_ne_zero]
    intro zero
    rw [zero, slots, List.getElem?_cons_zero] at found
    cases found
  refine ⟨positive, by rwa [poolOf, List.length_map], ?_⟩
  rw [Pool.entry, if_pos positive, poolOf, List.getElem?_map, found]
  rfl

/-- A name is found by the parser. -/
theorem utf8_of_nameAt {name : Str} (found : nameAt constants index = some name) :
    (poolOf constants).utf8 index.toNat = .ok name := by
  rw [nameAt] at found
  split at found
  · next units stored =>
      obtain ⟨positive, inside, entry⟩ := entry_of_constantAt stored
      split at found
      · next isPlain =>
          cases found
          rw [Pool.utf8, if_pos ⟨positive, inside⟩, entry, entryOf]
          exact congrArg Except.ok (Utf8.decode_encodeUnits isPlain)
      · cases found
  · cases found

/-- The parser finds the name of a class. -/
theorem className_of_classAt {name : Str} (found : classAt constants index = some name) :
    (poolOf constants).className index.toNat = .ok name := by
  rw [classAt] at found
  split at found
  · next nameIndex stored =>
      obtain ⟨positive, -, entry⟩ := entry_of_constantAt stored
      obtain ⟨text, named, dotted⟩ := Option.map_eq_some_iff.mp found
      rw [Pool.className, if_neg (by omega), entry]
      change ((poolOf constants).utf8 nameIndex.toNat >>= fun name =>
        pure (replaceLetter '/' '.' name)) = _
      rw [utf8_of_nameAt named, ← dotted]
      rfl
  · cases found

/-- A name and a type behind an index, as the parser stores and reads them. -/
theorem entry_of_nameAndTypeAt {name descriptor : Str}
    (found : nameAndTypeAt constants index = some (name, descriptor)) :
    ∃ nameIndex descriptorIndex : Nat,
      (poolOf constants).entry index.toNat = some (.values 12 [nameIndex, descriptorIndex]) ∧
      (poolOf constants).utf8 nameIndex = .ok name ∧
      (poolOf constants).utf8 descriptorIndex = .ok descriptor := by
  rw [nameAndTypeAt] at found
  split at found
  · next nameIndex descriptorIndex stored =>
      obtain ⟨text, named, rest⟩ := Option.bind_eq_some_iff.mp found
      obtain ⟨type, typed, pair⟩ := Option.bind_eq_some_iff.mp rest
      cases pair
      exact ⟨nameIndex.toNat, descriptorIndex.toNat, (entry_of_constantAt stored).2.2,
        utf8_of_nameAt named, utf8_of_nameAt typed⟩
  · cases found

/-- A member reference is one of three kinds, with the same two parts. -/
theorem memberAt_eq_some {member : Str × Str × Str} (found : memberAt constants index = some member) :
    ∃ tag ∈ Pool.memberRefTags, ∃ owner site : UInt16,
      (poolOf constants).entry index.toNat = some (.values tag [owner.toNat, site.toNat]) ∧
      classAt constants owner = some member.1 ∧ nameAndTypeAt constants site = some member.2 := by
  have parts {owner site : UInt16}
      (both : ((classAt constants owner).bind fun name =>
        (nameAndTypeAt constants site).bind fun pair => some (name, pair.1, pair.2)) =
          some member) :
      classAt constants owner = some member.1 ∧ nameAndTypeAt constants site = some member.2 := by
    obtain ⟨name, named, rest⟩ := Option.bind_eq_some_iff.mp both
    obtain ⟨pair, typed, same⟩ := Option.bind_eq_some_iff.mp rest
    cases same
    exact ⟨named, typed⟩
  rw [memberAt] at found
  split at found
  · next owner site stored =>
      exact ⟨9, by decide, owner, site, (entry_of_constantAt stored).2.2, parts found⟩
  · next owner site stored =>
      exact ⟨10, by decide, owner, site, (entry_of_constantAt stored).2.2, parts found⟩
  · next owner site stored =>
      exact ⟨11, by decide, owner, site, (entry_of_constantAt stored).2.2, parts found⟩
  · cases found

/-- The parser finds owner, name and descriptor of a member. -/
theorem memberRef_of_memberAt {member : Str × Str × Str}
    (found : memberAt constants index = some member) :
    (poolOf constants).memberRef index.toNat = .ok member := by
  obtain ⟨tag, isTag, owner, site, entry, owned, typed⟩ := memberAt_eq_some found
  obtain ⟨nameIndex, descriptorIndex, pair, named, described⟩ := entry_of_nameAndTypeAt typed
  rw [Pool.memberRef, entry]
  change (if tag ∈ Pool.memberRefTags then _ else _) = _
  rw [if_pos isTag, pair]
  change ((poolOf constants).className owner.toNat >>= _) = _
  rw [className_of_classAt owned]
  change ((poolOf constants).utf8 nameIndex >>= _) = _
  rw [named]
  change ((poolOf constants).utf8 descriptorIndex >>= _) = _
  rw [described]
  rfl

/-- The parser finds name and descriptor of a dynamic call site. -/
theorem invokedynamicNat_of_dynamicAt {site : Str × Str}
    (found : dynamicAt constants index = some site) :
    (poolOf constants).invokedynamicNat index.toNat = .ok site := by
  rw [dynamicAt] at found
  split at found
  · next bootstrap siteIndex stored =>
      obtain ⟨nameIndex, descriptorIndex, pair, named, described⟩ := entry_of_nameAndTypeAt found
      have dynamic : (poolOf constants).entry index.toNat =
          some (.values 18 [bootstrap.toNat, siteIndex.toNat]) := (entry_of_constantAt stored).2.2
      simp only [Pool.invokedynamicNat, dynamic, pair]
      change ((poolOf constants).utf8 nameIndex >>= _) = _
      rw [named]
      change ((poolOf constants).utf8 descriptorIndex >>= _) = _
      rw [described]
      rfl
  · cases found

end Lookups

end GraphIngest.Bytecode.Format
