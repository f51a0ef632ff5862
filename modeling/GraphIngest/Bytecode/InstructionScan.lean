import GraphIngest.Bytecode.Format
import GraphIngest.Foundation.Fallible

/-! # Walking the code

The walk over the code of a method steps over each instruction by its exact
length. On the bytes of any sequence of instructions it takes down the calls,
field accesses and created classes of all of them, in order, each with what its
reference leads to in the pool, its place, and the line of the last entry of the
line table at or before that place. It is refused exactly when a reference leads
nowhere.
-/

namespace GraphIngest.Bytecode.Format

open Foundation Text

section Lines

/-- The line of the last entry at or before a place, `-1` before all of them. -/
def lastLine (lines : List (Nat × Nat)) (offset : Nat) : Int :=
  ((lines.filter fun entry => entry.1 ≤ offset).getLast?.map fun entry => (entry.2 : Int)).getD (-1)

/-- Over sorted entries the line is that of the last one at or before the offset. -/
theorem lineFrom_eq {lines : List (Nat × Nat)} (sorted : lines.Pairwise earlier) (best : Int)
    (offset : Nat) :
    lineFrom best lines offset = ((lines.filter fun entry => entry.1 ≤ offset).getLast?.map
      fun entry => (entry.2 : Int)).getD best := by
  induction lines generalizing best with
  | nil => rfl
  | cons head rest ih =>
      obtain ⟨first, tail⟩ := List.pairwise_cons.mp sorted
      rw [lineFrom]
      by_cases late : offset < head.1
      · have none : (head :: rest).filter (fun entry => entry.1 ≤ offset) = [] := by
          apply List.filter_eq_nil_iff.mpr
          intro entry listed
          rw [decide_eq_true_eq]
          obtain rfl | behind := List.mem_cons.mp listed
          · omega
          · have order := first entry behind
            rw [earlier] at order
            omega
        rw [if_pos late, none]
        rfl
      · rw [if_neg late, ih tail, List.filter_cons_of_pos (by rw [decide_eq_true_eq]; omega),
          List.getLast?_cons]
        cases (rest.filter fun entry => entry.1 ≤ offset).getLast? <;> rfl

/-- **Lines.** In a sorted table the loop answers with the last entry at or
before the place. -/
theorem lineForOffset_eq {lines : List (Nat × Nat)} (sorted : lines.Pairwise earlier)
    (offset : Nat) : lineForOffset lines offset = lastLine lines offset :=
  lineFrom_eq sorted (-1) offset

end Lines

section Form

/-- An instruction of the virtual machine, as it is laid down at its place: the
operands of its opcode, and switches behind their padding. -/
def Laid (offset : Nat) : Instruction → Prop
  | .plain opcode operands => fixedOperands opcode.toNat = some operands.length
  | .invoke op _ trailer => trailer.length = trailerLength op
  | .access _ _ => True
  | .create _ => True
  | .wide opcode _ => opcode ≠ 0x84
  | .wideIncrement _ _ => True
  | .tableswitch padding _ low high targets =>
      Aligned offset padding ∧ (targets.length : Int) = high.toInt - low.toInt + 1
  | .lookupswitch padding _ pairs => Aligned offset padding ∧ pairs.length < 0x80000000

instance (offset : Nat) : DecidablePred (Laid offset)
  | .plain opcode operands =>
      inferInstanceAs (Decidable (fixedOperands opcode.toNat = some operands.length))
  | .invoke op _ trailer => inferInstanceAs (Decidable (trailer.length = trailerLength op))
  | .access _ _ => inferInstanceAs (Decidable True)
  | .create _ => inferInstanceAs (Decidable True)
  | .wide opcode _ => inferInstanceAs (Decidable (opcode ≠ 0x84))
  | .wideIncrement _ _ => inferInstanceAs (Decidable True)
  | .tableswitch _ _ _ _ _ => inferInstanceAs (Decidable (Aligned _ _ ∧ _ = _))
  | .lookupswitch _ _ _ => inferInstanceAs (Decidable (Aligned _ _ ∧ _ < _))

variable (pool : Pool) (lines : List (Nat × Nat))

/-- The reference of an instruction leads to a constant of the right kind. -/
def Resolves : Instruction → Prop
  | .invoke op index _ => (callTarget pool op index.toNat).toOption.isSome = true
  | .access _ index => (pool.memberRef index.toNat).toOption.isSome = true
  | .create index => (pool.className index.toNat).toOption.isSome = true
  | _ => True

instance : DecidablePred (Resolves pool)
  | .invoke _ _ _ => inferInstanceAs (Decidable (_ = true))
  | .access _ _ => inferInstanceAs (Decidable (_ = true))
  | .create _ => inferInstanceAs (Decidable (_ = true))
  | .plain _ _ => inferInstanceAs (Decidable True)
  | .wide _ _ => inferInstanceAs (Decidable True)
  | .wideIncrement _ _ => inferInstanceAs (Decidable True)
  | .tableswitch _ _ _ _ _ => inferInstanceAs (Decidable True)
  | .lookupswitch _ _ _ => inferInstanceAs (Decidable True)

/-- The call of an instruction, with its target in the pool. -/
def callAt : Nat × Instruction → Option CallSite
  | (offset, .invoke op index _) =>
      (callTarget pool op index.toNat).toOption.map fun target =>
        { opcode := op, owner := target.1, name := target.2.1, descriptor := target.2.2,
          line := lastLine lines offset, offset }
  | _ => none

/-- The field access of an instruction, with its field in the pool. -/
def accessAt : Nat × Instruction → Option FieldAccess
  | (offset, .access op index) =>
      (pool.memberRef index.toNat).toOption.map fun member =>
        { opcode := op, owner := member.1, name := member.2.1, descriptor := member.2.2,
          line := lastLine lines offset }
  | _ => none

/-- The class an instruction creates, by its name in the pool. -/
def createdAt : Nat × Instruction → Option Str
  | (_, .create index) => (pool.className index.toNat).toOption
  | _ => none

/-- Every instruction of a body has a place in it. -/
theorem exists_located {instruction : Instruction} {instructions : List Instruction}
    (offset : Nat) (member : instruction ∈ instructions) :
    ∃ place, (place, instruction) ∈ located offset instructions := by
  induction instructions generalizing offset with
  | nil => exact absurd member List.not_mem_nil
  | cons first rest ih =>
      obtain rfl | behind := List.mem_cons.mp member
      · exact ⟨offset, List.mem_cons_self⟩
      · obtain ⟨place, present⟩ := ih (offset + first.encode.length) behind
        exact ⟨place, List.mem_cons_of_mem _ present⟩

/-- A method with what some instructions add to it. -/
def noted (method : ParsedMethod) (places : List (Nat × Instruction)) : ParsedMethod :=
  { method with
    invocations := method.invocations ++ places.filterMap (callAt pool lines)
    fieldAccesses := method.fieldAccesses ++ places.filterMap (accessAt pool lines)
    instantiations := method.instantiations ++ places.filterMap (createdAt pool) }

@[simp]
theorem noted_nil (method : ParsedMethod) : noted pool lines method [] = method := by
  simp only [noted, List.filterMap_nil, List.append_nil]

/-- Noting two runs of instructions is noting one after the other. -/
theorem noted_append (method : ParsedMethod) (first second : List (Nat × Instruction)) :
    noted pool lines (noted pool lines method first) second =
      noted pool lines method (first ++ second) := by
  simp only [noted, List.filterMap_append, List.append_assoc]

end Form

section Instructions

variable {ε α : Type} {code bytes : List UInt8} {pos offset : Nat}

theorem eq_ok_of_isSome {reading : Except ε α} (found : reading.toOption.isSome = true) :
    ∃ value, reading = .ok value := by
  cases reading with
  | error error => cases found
  | ok value => exact ⟨value, rfl⟩

theorem isSome_of_eq_ok {reading : Except ε α} {value : α} (found : reading = .ok value) :
    reading.toOption.isSome = true := by
  rw [found]
  rfl

/-- The slice of a stretch of the code is the stretch. -/
theorem chunk_of_stands (stands : StandsAt bytes code pos) :
    chunk code pos bytes.length = .ok bytes := by
  rw [chunk, stands.slice]
  exact if_pos rfl

theorem ofBigEndian_half (number : UInt16) : ofBigEndian (half number) = number.toNat :=
  ofBigEndian_bigEndian number.toNat_lt

theorem length_half (number : UInt16) : (half number).length = 2 := length_bigEndian 2 _

theorem length_word (number : UInt32) : (word number).length = 4 := length_bigEndian 4 _

/-- A signed number is read back. -/
theorem signed_word (number : Int32) :
    signed (ofBigEndian (word number.toUInt32)) = number.toInt := by
  have bound := number.toUInt32.toNat_lt
  have value : number.toInt = number.toBitVec.toInt := rfl
  have bits : number.toUInt32.toNat = number.toBitVec.toNat := rfl
  rw [word, ofBigEndian_bigEndian bound, signed, value, BitVec.toInt_eq_toNat_cond, ← bits]
  split <;> split <;> omega

/-- The opcode of a call is read as that call. -/
theorem invokeOp_invokeByte (op : InvokeOp) : invokeOp (invokeByte op).toNat = some op := by
  cases op <;> rfl

/-- The opcode of a field access is read as that access and as no call. -/
theorem fieldOp_fieldByte (op : FieldOp) :
    invokeOp (fieldByte op).toNat = none ∧ fieldOp (fieldByte op).toNat = some op := by
  cases op <;> exact ⟨rfl, rfl⟩

/-- The operand table agrees with the instruction set, opcode by opcode. -/
theorem operandLen_table : ∀ opcode < 256, (fixedOperands opcode).all (fun count : Nat =>
    operandLen opcode == count && (invokeOp opcode).isNone && (fieldOp opcode).isNone &&
      opcode != newOp) = true := by
  decide +kernel

/-- An opcode with operands of its own length is stepped over by that length. -/
theorem operandLen_of_fixedOperands {opcode : UInt8} {count : Nat}
    (fixed : fixedOperands opcode.toNat = some count) :
    operandLen opcode.toNat = count ∧ invokeOp opcode.toNat = none ∧
      fieldOp opcode.toNat = none ∧ opcode.toNat ≠ newOp := by
  have row := operandLen_table opcode.toNat opcode.toNat_lt
  rw [fixed, Option.all_some, Bool.and_eq_true, Bool.and_eq_true, Bool.and_eq_true, beq_iff_eq,
    Option.isNone_iff_eq_none, Option.isNone_iff_eq_none, bne_iff_ne] at row
  exact ⟨row.1.1.1, row.1.1.2, row.1.2, row.2⟩

/-- The padding in front of the operands of a switch is what the parser skips. -/
theorem padding_of_aligned {padding : List UInt8} (aligned : Aligned offset padding) :
    (4 - (offset + 1) % 4) % 4 = padding.length := by
  obtain ⟨short, divides⟩ := aligned
  omega

/-- An instruction without a trace is stepped over by its exact length. -/
theorem operandBytes_plain {opcode : UInt8} {operands : List UInt8}
    (laid : Laid offset (.plain opcode operands)) :
    operandBytes code opcode.toNat (offset + 1) = .ok operands.length := by
  have row := operandLen_of_fixedOperands laid
  rw [operandBytes, row.1, if_pos (Int.natCast_nonneg _)]
  rfl

/-- A widened instruction has two more bytes where it increments. -/
theorem operandBytes_wide {opcode : UInt8} {operands : List UInt8}
    (stands : StandsAt (opcode :: operands) code (offset + 1)) :
    operandBytes code 0xc4 (offset + 1) = .ok (if opcode = 0x84 then 5 else 3) := by
  rw [operandBytes, if_neg (by decide), if_pos rfl, stands.getElem?]
  rfl

/-- A table switch has a target for every number from its low to its high one. -/
theorem operandBytes_tableswitch {padding : List UInt8} {default : UInt32} {low high : Int32}
    {targets : List UInt32} (laid : Laid offset (.tableswitch padding default low high targets))
    (stands : StandsAt (Instruction.tableswitch padding default low high targets).operands code
      (offset + 1)) :
    operandBytes code 0xaa (offset + 1) =
      .ok (Instruction.tableswitch padding default low high targets).operands.length := by
  obtain ⟨aligned, count⟩ := laid
  have first : (word low.toUInt32 ++ word high.toUInt32).take 4 = word low.toUInt32 :=
    List.take_left' (length_word _)
  have second : (word low.toUInt32 ++ word high.toUInt32).drop 4 = word high.toUInt32 :=
    List.drop_left' (length_word _)
  have bounds : chunk code (offset + 1 + padding.length + 4) 8 =
      .ok (word low.toUInt32 ++ word high.toUInt32) := by
    have place := stands.right.right.left
    rw [length_word] at place
    exact chunk_of_stands place
  rw [operandBytes, if_neg (by decide), if_neg (by decide), padding_of_aligned aligned]
  change (chunk code (offset + 1 + padding.length + 4) 8 >>= fun bounds => pure (padding.length +
    12 + (max 0 (signed (ofBigEndian (bounds.drop 4)) - signed (ofBigEndian (bounds.take 4)) +
      1)).toNat * 4)) = _
  rw [bounds]
  refine congrArg Except.ok ?_
  rw [first, second, signed_word, signed_word, ← count]
  simp only [Instruction.operands, List.length_append, length_word,
    length_flatMap_of_width length_word]
  omega

/-- A lookup switch has as many pairs as it says. -/
theorem operandBytes_lookupswitch {padding : List UInt8} {default : UInt32}
    {pairs : List (Int32 × UInt32)} (laid : Laid offset (.lookupswitch padding default pairs))
    (stands : StandsAt (Instruction.lookupswitch padding default pairs).operands code
      (offset + 1)) :
    operandBytes code 0xab (offset + 1) =
      .ok (Instruction.lookupswitch padding default pairs).operands.length := by
  obtain ⟨aligned, fits⟩ := laid
  have number : signed (ofBigEndian (bigEndian 4 pairs.length)) = pairs.length := by
    rw [ofBigEndian_bigEndian (by omega), signed, if_pos fits]
  have count : chunk code (offset + 1 + padding.length + 4) 4 =
      .ok (bigEndian 4 pairs.length) := by
    have place := stands.right.right.left
    rw [length_word] at place
    exact chunk_of_stands place
  have width (pair : Int32 × UInt32) : (word pair.1.toUInt32 ++ word pair.2).length = 8 := by
    rw [List.length_append, length_word, length_word]
  rw [operandBytes, if_neg (by decide), if_neg (by decide), padding_of_aligned aligned]
  change (chunk code (offset + 1 + padding.length + 4) 4 >>= fun pairs => pure (padding.length +
    8 + (max 0 (signed (ofBigEndian pairs))).toNat * 8)) = _
  rw [count]
  refine congrArg Except.ok ?_
  rw [number]
  simp only [Instruction.operands, List.length_append, length_word, length_bigEndian,
    length_flatMap_of_width width]
  omega

section Walk

variable {pool : Pool} {lines : List (Nat × Nat)}

/-- A call is read with the target its index leads to. -/
theorem scanInvoke_eq {index : UInt16} (stands : StandsAt (half index) code (offset + 1))
    (op : InvokeOp) :
    scanInvoke code pool lines offset op =
      (callTarget pool op index.toNat).map fun target =>
        { opcode := op, owner := target.1, name := target.2.1, descriptor := target.2.2,
          line := lineForOffset lines offset, offset } := by
  have read : chunk code (offset + 1) 2 = .ok (half index) := chunk_of_stands stands
  rw [scanInvoke, read]
  change (callTarget pool op (ofBigEndian (half index)) >>= _) = _
  rw [ofBigEndian_half]
  cases callTarget pool op index.toNat <;> rfl

/-- A field access is read with the field its index leads to. -/
theorem scanField_eq {index : UInt16} (stands : StandsAt (half index) code (offset + 1))
    (op : FieldOp) :
    scanField code pool lines offset op =
      (pool.memberRef index.toNat).map fun member =>
        { opcode := op, owner := member.1, name := member.2.1, descriptor := member.2.2,
          line := lineForOffset lines offset } := by
  have read : chunk code (offset + 1) 2 = .ok (half index) := chunk_of_stands stands
  rw [scanField, read]
  change (pool.memberRef (ofBigEndian (half index)) >>= _) = _
  rw [ofBigEndian_half]
  cases pool.memberRef index.toNat <;> rfl

/-- An instruction that neither calls, accesses nor creates is stepped over. -/
theorem scanInstruction_silent {op bytes : Nat} (noInvoke : invokeOp op = none)
    (noField : fieldOp op = none) (noNew : op ≠ newOp)
    (size : operandBytes code op (offset + 1) = .ok bytes) (method : ParsedMethod) :
    scanInstruction code pool lines offset op method = .ok (method, bytes) := by
  simp only [scanInstruction, noInvoke, noField]
  rw [if_neg noNew, size]
  rfl

/-- The bytes of a call behind its opcode are those the parser steps over. -/
theorem length_invoke {op : InvokeOp} {index : UInt16} {trailer : List UInt8}
    (laid : Laid offset (.invoke op index trailer)) :
    (half index ++ trailer).length =
      if (invokeByte op).toNat = 0xb9 ∨ (invokeByte op).toNat = 0xba then 4 else 2 := by
  have behind : trailer.length = trailerLength op := laid
  rw [List.length_append, length_half, behind]
  cases op <;> rfl

/-- An instruction without a reference adds nothing to the method. -/
theorem noted_silent {place : Nat × Instruction} (noCall : callAt pool lines place = none)
    (noAccess : accessAt pool lines place = none) (noClass : createdAt pool place = none)
    (method : ParsedMethod) : noted pool lines method [place] = method := by
  simp only [noted, List.filterMap_cons_none noCall, List.filterMap_cons_none noAccess,
    List.filterMap_cons_none noClass, List.filterMap_nil, List.append_nil]

/-- **One instruction.** When its reference leads somewhere, it adds to the method
what it does, and the walk goes on right behind it. -/
theorem scanInstruction_eq {instruction : Instruction} (sorted : lines.Pairwise earlier)
    (laid : Laid offset instruction) (resolves : Resolves pool instruction)
    (stands : StandsAt instruction.operands code (offset + 1)) (method : ParsedMethod) :
    scanInstruction code pool lines offset instruction.opcode.toNat method =
      .ok (noted pool lines method [(offset, instruction)], instruction.operands.length) := by
  cases instruction with
  | plain opcode operands =>
      obtain ⟨-, noInvoke, noField, noNew⟩ := operandLen_of_fixedOperands laid
      rw [noted_silent rfl rfl rfl]
      exact scanInstruction_silent noInvoke noField noNew (operandBytes_plain laid) method
  | invoke op index trailer =>
      obtain ⟨target, found⟩ := eq_ok_of_isSome resolves
      have site := @scanInvoke_eq _ _ pool lines index stands.left op
      simp only [Instruction.opcode, Instruction.operands, scanInstruction, invokeOp_invokeByte,
        site, found, length_invoke laid, noted, callAt, accessAt, createdAt, List.filterMap_cons,
        List.filterMap_nil, List.append_nil, lineForOffset_eq sorted]
      rfl
  | access op index =>
      obtain ⟨member, found⟩ := eq_ok_of_isSome resolves
      obtain ⟨noInvoke, isField⟩ := fieldOp_fieldByte op
      have access := @scanField_eq _ _ pool lines index stands op
      simp only [Instruction.opcode, Instruction.operands, scanInstruction, noInvoke, isField,
        access, found, length_half, noted, callAt, accessAt, createdAt, List.filterMap_cons,
        List.filterMap_nil, List.append_nil, lineForOffset_eq sorted]
      rfl
  | create index =>
      obtain ⟨name, found⟩ := eq_ok_of_isSome resolves
      have read : chunk code (offset + 1) 2 = .ok (half index) := chunk_of_stands stands
      change (chunk code (offset + 1) 2 >>= _) = _
      rw [read]
      change (pool.className (ofBigEndian (half index)) >>= _) = _
      rw [ofBigEndian_half, found]
      simp only [Instruction.operands, length_half, noted, callAt, accessAt, createdAt, found,
        List.filterMap_cons, List.filterMap_nil, List.append_nil]
      rfl
  | wide opcode local16 =>
      have size := operandBytes_wide stands
      rw [if_neg laid] at size
      rw [noted_silent rfl rfl rfl]
      exact scanInstruction_silent rfl rfl (by decide) size method
  | wideIncrement local16 amount =>
      rw [noted_silent rfl rfl rfl]
      exact scanInstruction_silent rfl rfl (by decide) (operandBytes_wide stands) method
  | tableswitch padding default low high targets =>
      rw [noted_silent rfl rfl rfl]
      exact scanInstruction_silent rfl rfl (by decide) (operandBytes_tableswitch laid stands) method
  | lookupswitch padding default pairs =>
      rw [noted_silent rfl rfl rfl]
      exact scanInstruction_silent rfl rfl (by decide) (operandBytes_lookupswitch laid stands)
        method

/-- An instruction that is taken has a reference that leads somewhere. -/
theorem resolves_of_scanInstruction {instruction : Instruction} {method : ParsedMethod}
    {result : ParsedMethod × Nat}
    (stands : StandsAt instruction.operands code (offset + 1))
    (taken : scanInstruction code pool lines offset instruction.opcode.toNat method = .ok result) :
    Resolves pool instruction := by
  cases instruction with
  | invoke op index trailer =>
      have site := @scanInvoke_eq _ _ pool lines index stands.left op
      simp only [Instruction.opcode, scanInstruction, invokeOp_invokeByte, site] at taken
      obtain ⟨_, read, _⟩ := bind_eq_ok.mp taken
      obtain ⟨target, found, _⟩ := map_eq_ok.mp read
      exact isSome_of_eq_ok found
  | access op index =>
      obtain ⟨noInvoke, isField⟩ := fieldOp_fieldByte op
      have access := @scanField_eq _ _ pool lines index stands op
      simp only [Instruction.opcode, scanInstruction, noInvoke, isField, access] at taken
      obtain ⟨_, read, _⟩ := bind_eq_ok.mp taken
      obtain ⟨member, found, _⟩ := map_eq_ok.mp read
      exact isSome_of_eq_ok found
  | create index =>
      have read : chunk code (offset + 1) 2 = .ok (half index) := chunk_of_stands stands
      change (chunk code (offset + 1) 2 >>= _) = _ at taken
      rw [read] at taken
      change (pool.className (ofBigEndian (half index)) >>= _) = _ at taken
      rw [ofBigEndian_half] at taken
      obtain ⟨name, found, _⟩ := bind_eq_ok.mp taken
      exact isSome_of_eq_ok found
  | plain opcode operands => trivial
  | wide opcode local16 => trivial
  | wideIncrement local16 amount => trivial
  | tableswitch padding default low high targets => trivial
  | lookupswitch padding default pairs => trivial

/-- One turn of the walk, at an instruction that stands there. -/
theorem scanFrom_encode {instruction : Instruction}
    (stands : StandsAt instruction.encode code offset) (method : ParsedMethod) :
    scanFrom code pool lines offset method =
      (scanInstruction code pool lines offset instruction.opcode.toNat method).bind fun result =>
        scanFrom code pool lines (offset + 1 + result.2) result.1 := by
  have size : instruction.encode.length = instruction.operands.length + 1 := rfl
  have within := stands.le_length
  have inside : offset < code.length := by omega
  have opcode : code[offset] = instruction.opcode := by
    have found := StandsAt.getElem? stands
    rwa [List.getElem?_eq_getElem inside, Option.some_inj] at found
  rw [scanFrom, dif_pos inside, opcode]
  rfl

/-- **The walk.** From where some instructions start it takes down all of them, in
order, to the end of the code, exactly when all their references resolve. -/
theorem scanFrom_eq_ok {instructions : List Instruction} (sorted : lines.Pairwise earlier)
    (laid : ∀ place ∈ located offset instructions, Laid place.1 place.2)
    (stands : StandsAt (instructions.flatMap Instruction.encode) code offset)
    (toEnd : code.length = offset + (instructions.flatMap Instruction.encode).length)
    {method parsed : ParsedMethod} :
    scanFrom code pool lines offset method = .ok parsed ↔
      (∀ instruction ∈ instructions, Resolves pool instruction) ∧
        parsed = noted pool lines method (located offset instructions) := by
  induction instructions generalizing offset method with
  | nil =>
      rw [List.flatMap_nil, List.length_nil] at toEnd
      rw [scanFrom, dif_neg (by omega), located, noted_nil]
      change Except.ok method = _ ↔ _
      rw [Except.ok.injEq, eq_comm]
      exact (and_iff_right fun _ member => absurd member List.not_mem_nil).symm
  | cons instruction rest ih =>
      rw [List.flatMap_cons] at stands toEnd
      have size : instruction.encode.length = instruction.operands.length + 1 := rfl
      rw [List.length_append, size] at toEnd
      have next : offset + 1 + instruction.operands.length =
          offset + instruction.encode.length := by omega
      have operands := StandsAt.tail stands.left
      rw [scanFrom_encode stands.left, bind_eq_ok, List.forall_mem_cons]
      by_cases resolves : Resolves pool instruction
      · have step := scanInstruction_eq sorted (laid _ List.mem_cons_self) resolves operands method
        have behind := @ih (offset + instruction.encode.length)
          (fun place member => laid place (List.mem_cons_of_mem _ member)) stands.right (by omega)
          (noted pool lines method [(offset, instruction)])
        rw [noted_append, List.singleton_append] at behind
        rw [step, located]
        simp only [Except.ok.injEq, exists_eq_left', next, behind, resolves, true_and]
      · refine iff_of_false (fun taken => ?_) fun both => resolves both.1.1
        obtain ⟨result, step, _⟩ := taken
        exact resolves (resolves_of_scanInstruction operands step)

end Walk

/-- **Code.** On the bytes of a sequence of instructions the parser takes down
exactly their calls, field accesses and created classes, in order, and refuses
the code exactly when a reference leads nowhere. -/
theorem scanCode_encode (pool : Pool) {lines : List (Nat × Nat)} (sorted : lines.Pairwise earlier)
    (instructions : List Instruction)
    (laid : ∀ place ∈ located 0 instructions, Laid place.1 place.2)
    (method parsed : ParsedMethod) :
    scanCode (instructions.flatMap Instruction.encode) pool lines method = .ok parsed ↔
      (∀ instruction ∈ instructions, Resolves pool instruction) ∧
        parsed = noted pool lines method (located 0 instructions) :=
  scanFrom_eq_ok sorted laid ⟨[], [], List.append_nil _, rfl⟩ (Nat.zero_add _).symm

/-- Behind switches with their padding and a wide increment, a call and a
creation are still found where they stand. -/
theorem scanCode_encode_switches :
    ∃ parsed, scanCode
        (([.plain 0x03 [], .tableswitch [0, 0] 0 0 1 [8, 12], .plain 0x04 [],
          .lookupswitch [0, 0] 0 [(-1, 4)], .wideIncrement 300 1, .invoke .invokestatic 6 [],
          .create 2, .plain 0xb1 []] : List Instruction).flatMap Instruction.encode)
        ⟨[none, some (.text "acme/Shop".toList), some (.values 7 [1]), some (.text "open".toList),
          some (.text "()V".toList), some (.values 12 [3, 4]), some (.values 10 [2, 5])]⟩
        [(0, 10), (44, 11), (50, 12), (53, 13)]
        ⟨"main".toList, "()V".toList, 9, [], [], [], -1, -1⟩ = .ok parsed ∧
      parsed.invocations =
        [⟨⟨.invokestatic, "acme.Shop".toList, "open".toList, "()V".toList, 12⟩, 50⟩] ∧
      parsed.instantiations = ["acme.Shop".toList] := by
  refine ⟨_, (scanCode_encode _ ?_ _ ?_ _ _).mpr ⟨?_, rfl⟩, ?_, ?_⟩ <;> decide

end Instructions

end GraphIngest.Bytecode.Format
