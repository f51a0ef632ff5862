import GraphIngest.Bytecode.Parser
import GraphIngest.Foundation.Refusals
import Mathlib.Logic.Relation

/-! # Reads past the end

The parser reads through a bounds-checked cursor, whose refusals are class-file
errors. Two places slice bytes by themselves: the walk over the code, for the
index of a call, a field access or a creation and for the bounds of a switch, and
the source file, for its index. There a slice that is too short escapes as an
error of `struct`. Which byte strings lead there is said here, without the walk:
by the places it gets to and the operands that are cut off.
-/

namespace GraphIngest.Bytecode

open Foundation Text Reader

/-- An error of the parser's own kind; the others come from `struct`. -/
def ParseError.isClassFileError : ParseError → Bool
  | .shortBuffer _ => false
  | _ => true

/-- An error that is no class-file error. -/
def Escapes (error : ParseError) : Prop := error.isClassFileError = false

section Code

/-- The bytes behind an opcode that are read as numbers, where the opcode stands
right before this position. -/
def operandsRead (op pos : Nat) : Nat :=
  if (invokeOp op).isSome || (fieldOp op).isSome || op == newOp then 2
  else if op = 0xaa then (4 - pos % 4) % 4 + 12
  else if op = 0xab then (4 - pos % 4) % 4 + 8
  else 0

/-- An instruction stands here whose operands are cut off by the end of the code. -/
def CutAt (code : List UInt8) (pos : Nat) : Prop :=
  ∃ op, code[pos]? = some op ∧ code.length < pos + 1 + operandsRead op.toNat (pos + 1)

/-- The number in the bytes at a position. -/
def numberAt (code : List UInt8) (pos width : Nat) : Nat :=
  ofBigEndian ((code.drop pos).take width)

/-- All the bytes behind an opcode, where the opcode stands right before this
position. -/
def operandSize (code : List UInt8) (op pos : Nat) : Nat :=
  if 0 ≤ operandLen op then (operandLen op).toNat
  else if op = 0xc4 then if code[pos]? = some 0x84 then 5 else 3
  else
    let padding := (4 - pos % 4) % 4
    if op = 0xaa then
      let low := signed (numberAt code (pos + padding + 4) 4)
      let high := signed (numberAt code (pos + padding + 8) 4)
      padding + 12 + (max 0 (high - low + 1)).toNat * 4
    else
      let pairs := signed (numberAt code (pos + padding + 4) 4)
      padding + 8 + (max 0 pairs).toNat * 8

/-- What the index behind an opcode leads to is in the pool. -/
def Referenced (pool : Pool) (op index : Nat) : Prop :=
  match invokeOp op, fieldOp op with
  | some call, _ => Runs (callTarget pool call index)
  | none, some _ => Runs (pool.memberRef index)
  | none, none => op = newOp → Runs (pool.className index)

/-- From the instruction at a position the walk gets on to the next one. -/
def GetsOver (pool : Pool) (code : List UInt8) (pos next : Nat) : Prop :=
  ∃ op, code[pos]? = some op ∧
    pos + 1 + operandsRead op.toNat (pos + 1) ≤ code.length ∧
    (op.toNat = 0xc4 → pos + 1 < code.length) ∧
    Referenced pool op.toNat (numberAt code (pos + 1) 2) ∧
    next = pos + 1 + operandSize code op.toNat (pos + 1)

/-- The walk over the code gets to an instruction that is cut off. -/
def CutCode (pool : Pool) (code : List UInt8) : Prop :=
  ∃ pos, Relation.ReflTransGen (GetsOver pool code) 0 pos ∧ CutAt code pos

end Code

section Files

/-- A method stands here whose code can be read and is cut off. -/
inductive CutMethod (pool : Pool) (cursor : Cursor UInt8) : Prop
  | code {header : FieldInfo} {attributes inner : Dict Str (List UInt8)}
      {middle after : Cursor UInt8} {body code : List UInt8} {lines : List (Nat × Nat)}
      (head : (parseHeader pool).run cursor = .ok (header, middle))
      (found : (findAttributes pool ["Code".toList]).run middle = .ok (attributes, after))
      (present : attributes.get? "Code".toList = some body)
      (read : (readCode pool).runOn body = .ok (code, inner))
      (table : linesOf inner = .ok lines)
      (cut : CutCode pool code)

/-- What stands before the methods: the class without them, and the pool. -/
def readHead : Reader (ParsedClass × Pool) := do
  if (← u4) ≠ classMagic then throw .badMagic else
    let _ ← u2
    let majorVersion ← u2
    let pool ← parseConstantPool (← u2)
    let accessFlags ← u2
    let name ← pool.className (← u2)
    let superName ← pool.className (← u2)
    let interfaces ← Decoder.times (← u2) do pool.className (← u2)
    let fields ← parseMembers (parseField pool)
    pure ({ name, superName, interfaces, accessFlags, majorVersion, sourceFile := [], fields,
            methods := [] }, pool)

/-- A class file that is read, as far as it goes, to a method whose code is cut
off, or to a source file without an index. -/
inductive CutClass (data : List UInt8) : Prop
  | method {head : ParsedClass} {pool : Pool} {start first after : Cursor UInt8}
      {count turn : Nat} {methods : List ParsedMethod}
      (front : readHead.run ⟨data, 0⟩ = .ok ((head, pool), start))
      (number : u2.run start = .ok (count, first))
      (less : turn < count)
      (before : (Decoder.times turn (parseMethod pool)).run first = .ok (methods, after))
      (cut : CutMethod pool after)
  | sourceFile {head : ParsedClass} {pool : Pool} {start middle after : Cursor UInt8}
      {methods : List ParsedMethod} {attributes : Dict Str (List UInt8)} {body : List UInt8}
      (front : readHead.run ⟨data, 0⟩ = .ok ((head, pool), start))
      (members : (parseMembers (parseMethod pool)).run start = .ok (methods, middle))
      (found : (findAttributes pool ["SourceFile".toList]).run middle = .ok (attributes, after))
      (present : attributes.get? "SourceFile".toList = some body)
      (short : body.length < 2)

end Files

section Pool

variable {α : Type} {pool : Pool}

/-- The errors of the parser itself do not escape. -/
theorem not_fails_of_own {error : ParseError} (own : error.isClassFileError = true) :
    ¬ Fails Escapes (.error error : Except ParseError α) := by
  rw [fails_error, Escapes, own]
  exact Bool.noConfusion

theorem not_fails_utf8 (index : Nat) : ¬ Fails Escapes (pool.utf8 index) := by
  rw [Pool.utf8]
  split
  · split
    · exact not_fails_ok _
    · exact not_fails_of_own rfl
  · exact not_fails_of_own rfl

theorem not_fails_className (index : Nat) : ¬ Fails Escapes (pool.className index) := by
  rw [Pool.className]
  split
  · exact not_fails_ok _
  · split
    · exact fun fails => not_fails_utf8 _ (fails_map.mp fails)
    · exact not_fails_of_own rfl

/-- Resolving a member reference raises the parser's own errors alone. -/
theorem not_fails_memberRef (index : Nat) : ¬ Fails Escapes (pool.memberRef index) := by
  rw [Pool.memberRef]
  split
  · split
    · split
      · intro fails
        obtain ⟨_, -, fails⟩ := (fails_bind_of_not (not_fails_className _)).mp fails
        obtain ⟨_, -, fails⟩ := (fails_bind_of_not (not_fails_utf8 _)).mp fails
        exact not_fails_utf8 _ (fails_map.mp fails)
      · exact not_fails_of_own rfl
    · exact not_fails_of_own rfl
  · exact not_fails_of_own rfl

theorem not_fails_invokedynamicNat (index : Nat) :
    ¬ Fails Escapes (pool.invokedynamicNat index) := by
  rw [Pool.invokedynamicNat]
  split
  · split
    · intro fails
      obtain ⟨_, -, fails⟩ := (fails_bind_of_not (not_fails_utf8 _)).mp fails
      exact not_fails_utf8 _ (fails_map.mp fails)
    · exact not_fails_of_own rfl
  · exact not_fails_of_own rfl

/-- Resolving the target of a call raises the parser's own errors alone. -/
theorem not_fails_callTarget (call : InvokeOp) (index : Nat) :
    ¬ Fails Escapes (callTarget pool call index) := by
  rw [callTarget]
  split
  · exact fun fails => not_fails_invokedynamicNat _ (fails_map.mp fails)
  · exact not_fails_memberRef index

end Pool

section Readers

variable (pool : Pool)

/-- A cut read raises the parser's own error, whatever its width. -/
theorem clean_take (count : Nat) : Decoder.Clean Escapes (take count) :=
  .slice (fun _ => Bool.noConfusion) count

theorem clean_u1 : Decoder.Clean Escapes u1 := .number (fun _ => Bool.noConfusion) 1

theorem clean_u2 : Decoder.Clean Escapes u2 := .number (fun _ => Bool.noConfusion) 2

theorem clean_u4 : Decoder.Clean Escapes u4 := .number (fun _ => Bool.noConfusion) 4

theorem clean_skip (count : Nat) : Decoder.Clean Escapes (skip count) :=
  (Decoder.Clean.slice (fun _ => Bool.noConfusion) count).bind fun _ => .pure ()

theorem clean_parseConstant (index : Nat) : Decoder.Clean Escapes (parseConstant index) := by
  apply clean_u1.bind
  intro tag
  split
  · exact clean_u2.bind fun length => (clean_take length).bind fun _ => .pure _
  · split
    · exact clean_u1.bind fun _ => clean_u2.bind fun _ => .pure _
    · split
      · exact .throw Bool.noConfusion
      · exact (clean_take _).bind fun _ => .pure _

/-- By induction on the slots that are left; a constant of two slots leaves one out. -/
theorem clean_parseSlots (count index : Nat) (slots : List (Option PoolEntry)) :
    Decoder.Clean Escapes (parseSlots count index slots) := by
  fun_induction parseSlots count index slots with
  | case1 index slots less ih =>
      exact (clean_parseConstant index).bind fun entry => ih entry.1 entry.2
  | case2 index slots _ => exact .pure slots

/-- No constant pool, however it is cut, lets another error escape. -/
theorem clean_parseConstantPool (count : Nat) :
    Decoder.Clean Escapes (parseConstantPool count) :=
  (clean_parseSlots count 1 _).bind fun _ => .pure _

theorem clean_skipAttributes : Decoder.Clean Escapes skipAttributes := by
  apply clean_u2.bind
  intro count
  apply Decoder.Clean.bind
  · exact .times (clean_u2.bind fun _ => clean_u4.bind clean_skip) count
  · exact fun _ => .pure ()

theorem clean_className : Decoder.Clean Escapes (do pool.className (← u2) : Reader Str) :=
  clean_u2.bind fun index => .lift (not_fails_className index)

theorem clean_findAttribute (wanted : List Str) :
    Decoder.Clean Escapes (findAttribute pool wanted) := by
  apply clean_u2.bind
  intro index
  apply (Decoder.Clean.lift (not_fails_utf8 index)).bind
  intro name
  apply clean_u4.bind
  intro length
  split
  · exact (clean_take length).bind fun _ => .pure _
  · exact (clean_skip length).bind fun _ => .pure none

/-- Going through the attributes of a member only skips and collects. -/
theorem clean_findAttributes (wanted : List Str) :
    Decoder.Clean Escapes (findAttributes pool wanted) :=
  clean_u2.bind fun count => (Decoder.Clean.times (clean_findAttribute pool wanted) count).bind
    fun _ => .pure _

theorem clean_parseHeader : Decoder.Clean Escapes (parseHeader pool) := by
  apply clean_u2.bind
  intro accessFlags
  apply clean_u2.bind
  intro index
  apply (Decoder.Clean.lift (not_fails_utf8 index)).bind
  intro name
  apply clean_u2.bind
  intro index
  exact (Decoder.Clean.lift (not_fails_utf8 index)).bind fun descriptor => .pure _

theorem clean_parseField : Decoder.Clean Escapes (parseField pool) :=
  (clean_parseHeader pool).bind fun field => clean_skipAttributes.bind fun _ => .pure field

/-- A list of members is as clean as one of them. -/
theorem clean_parseMembers {α : Type} {member : Reader α} (each : Decoder.Clean Escapes member) :
    Decoder.Clean Escapes (parseMembers member) :=
  clean_u2.bind fun count => .times each count

/-- The head of a code attribute is read through the checked reads alone. -/
theorem clean_readCode : Decoder.Clean Escapes (readCode pool) := by
  apply (clean_skip 4).bind
  intro _
  apply clean_u4.bind
  intro length
  apply (clean_take length).bind
  intro code
  apply clean_u2.bind
  intro handlers
  apply (clean_skip (handlers * 8)).bind
  intro _
  exact (clean_findAttributes pool _).bind fun _ => .pure _

theorem not_fails_linesOf (attributes : Dict Str (List UInt8)) :
    ¬ Fails Escapes (linesOf attributes) := by
  rw [linesOf]
  split
  · rw [parseLineNumberTable]
    refine fun fails => ?_
    have entry : Decoder.Clean Escapes (do
        let startPc ← u2
        let line ← u2
        pure (startPc, line)) := clean_u2.bind fun _ => clean_u2.bind fun _ => .pure _
    have entries : Decoder.Clean Escapes (do
        Decoder.times (← u2) do
          let startPc ← u2
          let line ← u2
          pure (startPc, line)) := clean_u2.bind fun count => .times entry count
    exact entries _ (Decoder.fails_runOn.mp (fails_map.mp fails))
  · exact not_fails_ok _

/-- All that is read in front of the members is clean. -/
theorem clean_readHead : Decoder.Clean Escapes readHead := by
  apply clean_u4.bind
  intro magic
  split
  · exact .throw Bool.noConfusion
  · apply clean_u2.bind
    intro _
    apply clean_u2.bind
    intro majorVersion
    apply clean_u2.bind
    intro count
    apply (clean_parseConstantPool count).bind
    intro pool
    apply clean_u2.bind
    intro accessFlags
    apply clean_u2.bind
    intro index
    apply (Decoder.Clean.lift (not_fails_className index)).bind
    intro name
    apply clean_u2.bind
    intro index
    apply (Decoder.Clean.lift (not_fails_className index)).bind
    intro superName
    apply clean_u2.bind
    intro count
    apply (Decoder.Clean.times (clean_className pool) count).bind
    intro interfaces
    exact (clean_parseMembers (clean_parseField pool)).bind fun _ => .pure _

end Readers

section Walk

variable {code : List UInt8} {pool : Pool} {lines : List (Nat × Nat)}

/-- Bytes that are all there are read as they stand. -/
theorem chunk_of_le {pos width : Nat} (whole : pos + width ≤ code.length) :
    chunk code pos width = .ok ((code.drop pos).take width) := by
  rw [chunk, if_pos]
  rw [List.length_take, List.length_drop]
  omega

/-- Bytes that are cut are what `struct` refuses. -/
theorem chunk_of_lt {pos width : Nat} (positive : 0 < width) (cut : code.length < pos + width) :
    chunk code pos width = .error (.shortBuffer width) := by
  rw [chunk, if_neg]
  rw [List.length_take, List.length_drop]
  omega

theorem operandLen_of_invokeOp {op : Nat} {call : InvokeOp} (known : invokeOp op = some call) :
    operandLen op = if op = 0xb9 ∨ op = 0xba then 4 else 2 := by
  unfold invokeOp at known
  split at known <;> first | rfl | cases known

theorem operandLen_of_fieldOp {op : Nat} {access : FieldOp} (known : fieldOp op = some access) :
    operandLen op = 2 := by
  unfold fieldOp at known
  split at known <;> first | rfl | cases known

theorem operandsRead_of_invokeOp {op pos : Nat} {call : InvokeOp}
    (known : invokeOp op = some call) : operandsRead op pos = 2 := by
  rw [operandsRead, known]
  rfl

theorem operandsRead_of_fieldOp {op pos : Nat} {access : FieldOp}
    (known : fieldOp op = some access) : operandsRead op pos = 2 := by
  rw [operandsRead, known, Option.isSome_some, Bool.or_true, Bool.true_or]
  rfl

/-- Only the two switches and `wide` have no fixed width. -/
theorem operandLen_variable {op : Nat} (varies : ¬ 0 ≤ operandLen op) :
    op = 0xaa ∨ op = 0xab ∨ op = 0xc4 := by
  by_cases variable' : op ∈ [0xaa, 0xab, 0xc4]
  · obtain rfl | rest := List.mem_cons.mp variable'
    · exact .inl rfl
    · obtain rfl | last := List.mem_cons.mp rest
      · exact .inr (.inl rfl)
      · exact .inr (.inr (List.mem_singleton.mp last))
  · refine absurd ?_ varies
    rw [operandLen, if_neg variable']
    repeat' split
    all_goals decide

/-- The operands of an opcode without a trace, when those it reads are there. -/
theorem operandBytes_of_le {op pos : Nat} (whole : pos + operandsRead op pos ≤ code.length)
    (wide : op = 0xc4 → pos < code.length) :
    operandBytes code op pos = .ok (operandSize code op pos) := by
  by_cases fixed : 0 ≤ operandLen op
  · rw [operandBytes, operandSize, if_pos fixed, if_pos fixed]
    rfl
  · obtain rfl | rfl | rfl := operandLen_variable fixed
    · change pos + ((4 - pos % 4) % 4 + 12) ≤ code.length at whole
      have bounds := @chunk_of_le code (pos + (4 - pos % 4) % 4 + 4) 8 (by omega)
      change (chunk code (pos + (4 - pos % 4) % 4 + 4) 8 >>= fun bounds => pure ((4 - pos % 4) % 4 +
        12 + (max 0 (signed (ofBigEndian (bounds.drop 4)) - signed (ofBigEndian (bounds.take 4)) +
          1)).toNat * 4)) = _
      rw [bounds, operandSize]
      refine congrArg Except.ok ?_
      rw [List.take_take, List.drop_take, List.drop_drop]
      rfl
    · change pos + ((4 - pos % 4) % 4 + 8) ≤ code.length at whole
      have pairs := @chunk_of_le code (pos + (4 - pos % 4) % 4 + 4) 4 (by omega)
      change (chunk code (pos + (4 - pos % 4) % 4 + 4) 4 >>= fun pairs => pure ((4 - pos % 4) % 4 +
        8 + (max 0 (signed (ofBigEndian pairs))).toNat * 8)) = _
      rw [pairs, operandSize]
      rfl
    · have inside := wide rfl
      rw [operandBytes, if_neg fixed, if_pos rfl, operandSize, if_neg fixed, if_pos rfl,
        List.getElem?_eq_getElem inside]
      simp only [Option.some.injEq]
      rfl

/-- The operands of a switch that is cut off cannot be read. -/
theorem fails_operandBytes {op pos : Nat} (noInvoke : invokeOp op = none)
    (noField : fieldOp op = none) (noNew : op ≠ newOp)
    (cut : code.length < pos + operandsRead op pos) (inside : pos ≤ code.length) :
    Fails Escapes (operandBytes code op pos) := by
  have isSwitch : op = 0xaa ∨ op = 0xab := by
    by_contra other
    obtain ⟨noTable, noLookup⟩ := not_or.mp other
    rw [operandsRead, noInvoke, noField, if_neg (by simpa using noNew), if_neg noTable,
      if_neg noLookup] at cut
    omega
  obtain rfl | rfl := isSwitch
  · change code.length < pos + ((4 - pos % 4) % 4 + 12) at cut
    have short := @chunk_of_lt code (pos + (4 - pos % 4) % 4 + 4) 8 (by decide) (by omega)
    change Fails Escapes (chunk code (pos + (4 - pos % 4) % 4 + 4) 8 >>= _)
    rw [short]
    exact fails_error.mpr rfl
  · change code.length < pos + ((4 - pos % 4) % 4 + 8) at cut
    have short := @chunk_of_lt code (pos + (4 - pos % 4) % 4 + 4) 4 (by decide) (by omega)
    change Fails Escapes (chunk code (pos + (4 - pos % 4) % 4 + 4) 4 >>= _)
    rw [short]
    exact fails_error.mpr rfl

/-- A wide instruction without an opcode behind it is refused by the parser. -/
theorem operandBytes_wide_end {pos : Nat} (outside : ¬ pos < code.length) :
    operandBytes code 0xc4 pos = .error .truncatedWide := by
  rw [operandBytes, if_neg (by decide), if_pos rfl, List.getElem?_eq_none (by omega)]

/-- An instruction whose operands are cut off is where the parser slices too far. -/
theorem fails_scanInstruction {op pos : Nat} (inside : pos < code.length)
    (cut : code.length < pos + 1 + operandsRead op (pos + 1)) (method : ParsedMethod) :
    Fails Escapes (scanInstruction code pool lines pos op method) := by
  rw [scanInstruction]
  cases isInvoke : invokeOp op with
  | some call =>
      rw [operandsRead_of_invokeOp isInvoke] at cut
      change Fails Escapes ((chunk code (pos + 1) 2 >>= _) >>= _)
      rw [chunk_of_lt (by decide) cut]
      exact fails_error.mpr rfl
  | none =>
      cases isField : fieldOp op with
      | some access =>
          rw [operandsRead_of_fieldOp isField] at cut
          change Fails Escapes ((chunk code (pos + 1) 2 >>= _) >>= _)
          rw [chunk_of_lt (by decide) cut]
          exact fails_error.mpr rfl
      | none =>
          by_cases isNew : op = newOp
          · subst isNew
            change code.length < pos + 1 + 2 at cut
            change Fails Escapes (chunk code (pos + 1) 2 >>= _)
            rw [chunk_of_lt (by decide) cut]
            exact fails_error.mpr rfl
          · simp only [if_neg isNew]
            exact fails_bind.mpr
              (.inl (fails_operandBytes isInvoke isField isNew cut (by omega)))

/-- A call has four operand bytes where it is to an interface or dynamic, else two. -/
theorem operandSize_of_invokeOp {op pos : Nat} {call : InvokeOp}
    (known : invokeOp op = some call) :
    operandSize code op pos = if op = 0xb9 ∨ op = 0xba then 4 else 2 := by
  rw [operandSize, operandLen_of_invokeOp known]
  split <;> rfl

theorem operandSize_of_fieldOp {op pos : Nat} {access : FieldOp}
    (known : fieldOp op = some access) : operandSize code op pos = 2 := by
  rw [operandSize, operandLen_of_fieldOp known]
  rfl

/-- What a reading adds to a method: the method with it comes about exactly when
the reading does. -/
theorem effect_of_reading {α : Type} {reading : Except ParseError α} {change : α → ParsedMethod}
    {op pos : Nat} (own : ¬ Fails Escapes reading) (noWide : op ≠ 0xc4) :
    ¬ Fails Escapes (reading.map change) ∧
      (Runs (reading.map change) ↔ (op = 0xc4 → pos < code.length) ∧ Runs reading) := by
  rw [fails_map, runs_map, and_iff_right fun wide => absurd wide noWide]
  exact ⟨own, Iff.rfl⟩

/-- An instruction whose operands are there has an effect on the method, or is
refused by the parser itself; with the effect the walk goes on behind it. -/
theorem scanInstruction_of_le {op pos : Nat}
    (whole : pos + 1 + operandsRead op (pos + 1) ≤ code.length) (method : ParsedMethod) :
    ∃ effect : Except ParseError ParsedMethod,
      scanInstruction code pool lines pos op method =
        effect.map (fun method => (method, operandSize code op (pos + 1))) ∧
      ¬ Fails Escapes effect ∧
      (Runs effect ↔ (op = 0xc4 → pos + 1 < code.length) ∧
        Referenced pool op (numberAt code (pos + 1) 2)) := by
  rw [scanInstruction, Referenced]
  cases isInvoke : invokeOp op with
  | some call =>
      have noWide : op ≠ 0xc4 := by
        intro wide
        rw [wide] at isInvoke
        cases isInvoke
      rw [operandsRead_of_invokeOp isInvoke] at whole
      refine ⟨(callTarget pool call (numberAt code (pos + 1) 2)).map fun target =>
        { method with invocations := method.invocations ++
            [{ opcode := call, owner := target.1, name := target.2.1, descriptor := target.2.2,
               line := lineForOffset lines pos, offset := pos }] }, ?_,
        effect_of_reading (not_fails_callTarget call _) noWide⟩
      rw [operandSize_of_invokeOp isInvoke]
      change ((chunk code (pos + 1) 2 >>= _) >>= _) = _
      rw [chunk_of_le whole]
      change ((callTarget pool call (numberAt code (pos + 1) 2) >>= _) >>= _) = _
      cases callTarget pool call (numberAt code (pos + 1) 2) <;> rfl
  | none =>
      cases isField : fieldOp op with
      | some access =>
          have noWide : op ≠ 0xc4 := by
            intro wide
            rw [wide] at isField
            cases isField
          rw [operandsRead_of_fieldOp isField] at whole
          refine ⟨(pool.memberRef (numberAt code (pos + 1) 2)).map fun member =>
            { method with fieldAccesses := method.fieldAccesses ++
                [{ opcode := access, owner := member.1, name := member.2.1,
                   descriptor := member.2.2, line := lineForOffset lines pos }] }, ?_,
            effect_of_reading (not_fails_memberRef _) noWide⟩
          rw [operandSize_of_fieldOp isField]
          change ((chunk code (pos + 1) 2 >>= _) >>= _) = _
          rw [chunk_of_le whole]
          change ((pool.memberRef (numberAt code (pos + 1) 2) >>= _) >>= _) = _
          cases pool.memberRef (numberAt code (pos + 1) 2) <;> rfl
      | none =>
          by_cases isNew : op = newOp
          · subst isNew
            change pos + 1 + 2 ≤ code.length at whole
            obtain ⟨own, runs⟩ := @effect_of_reading code _
              (pool.className (numberAt code (pos + 1) 2)) (fun created =>
                { method with instantiations := method.instantiations ++ [created] })
              newOp (pos + 1) (not_fails_className _) (by decide)
            refine ⟨_, ?_, own, runs.trans (and_congr_right'
              ⟨fun named _ => named, fun named => named rfl⟩)⟩
            change (chunk code (pos + 1) 2 >>= _) = _
            rw [chunk_of_le whole]
            change (pool.className (numberAt code (pos + 1) 2) >>= _) = _
            cases pool.className (numberAt code (pos + 1) 2) <;> rfl
          · simp only [if_neg isNew]
            by_cases outside : op = 0xc4 ∧ ¬ pos + 1 < code.length
            · obtain ⟨wide, outside⟩ := outside
              subst wide
              refine ⟨.error .truncatedWide, ?_, not_fails_of_own rfl, ?_⟩
              · rw [operandBytes_wide_end outside]
                rfl
              · exact iff_of_false (not_runs_error _) fun both => outside (both.1 rfl)
            · have wide : op = 0xc4 → pos + 1 < code.length := fun wide =>
                not_not.mp fun cut => outside ⟨wide, cut⟩
              refine ⟨.ok method, ?_, not_fails_ok _, iff_of_true (runs_ok _)
                ⟨wide, fun new => absurd new isNew⟩⟩
              rw [operandBytes_of_le whole wide]
              rfl

/-- **The walk.** It escapes exactly when it gets to an instruction that is cut off. -/
theorem fails_scanFrom {pos : Nat} {method : ParsedMethod} :
    Fails Escapes (scanFrom code pool lines pos method) ↔
      ∃ last, Relation.ReflTransGen (GetsOver pool code) pos last ∧ CutAt code last := by
  induction left : code.length - pos using Nat.strong_induction_on generalizing pos method with
  | h left ih =>
      rw [scanFrom]
      by_cases inside : pos < code.length
      · have stands : code[pos]? = some code[pos] := List.getElem?_eq_getElem inside
        rw [dif_pos inside]
        by_cases cut : code.length < pos + 1 + operandsRead code[pos].toNat (pos + 1)
        · exact iff_of_true (fails_bind.mpr (.inl (fails_scanInstruction inside cut method)))
            ⟨pos, .refl, code[pos], stands, cut⟩
        · obtain ⟨effect, same, own, runs⟩ := @scanInstruction_of_le code pool lines
            code[pos].toNat pos (by omega) method
          have turn : Fails Escapes ((effect.map fun method =>
              (method, operandSize code code[pos].toNat (pos + 1))).bind fun result =>
                scanFrom code pool lines (pos + 1 + result.2) result.1) ↔
              Runs effect ∧ ∃ last, Relation.ReflTransGen (GetsOver pool code)
                (pos + 1 + operandSize code code[pos].toNat (pos + 1)) last ∧
                CutAt code last := by
            cases effect with
            | error error =>
                exact iff_of_false (fun fails => own (fails_error.mpr (fails_error.mp fails)))
                  fun both => not_runs_error _ both.1
            | ok changed =>
                have behind := @ih (code.length - (pos + 1 +
                  operandSize code code[pos].toNat (pos + 1))) (by omega) _ changed rfl
                exact behind.trans (and_iff_right (runs_ok changed)).symm
          rw [same]
          refine turn.trans ⟨fun both => ?_, fun later => ?_⟩
          · obtain ⟨runs', last, walk, cutLast⟩ := both
            obtain ⟨wide, referenced⟩ := runs.mp runs'
            exact ⟨last, walk.head ⟨code[pos], stands, by omega, wide, referenced, rfl⟩, cutLast⟩
          · obtain ⟨last, walk, cutLast⟩ := later
            obtain rfl | ⟨next, ⟨op, found, -, wide, referenced, rfl⟩, rest⟩ := walk.cases_head
            · obtain ⟨op, found, short⟩ := cutLast
              rw [stands, Option.some_inj] at found
              exact absurd (found ▸ short) cut
            · rw [stands, Option.some_inj] at found
              subst found
              exact ⟨runs.mpr ⟨wide, referenced⟩, last, rest, cutLast⟩
      · rw [dif_neg inside]
        refine iff_of_false (not_fails_ok _) fun later => ?_
        obtain ⟨last, walk, op, stands, -⟩ := later
        have none : code[pos]? = none := List.getElem?_eq_none (by omega)
        obtain rfl | ⟨next, ⟨other, found, -⟩, -⟩ := walk.cases_head
        · rw [none] at stands
          cases stands
        · rw [none] at found
          cases found

end Walk

section Methods

variable {pool : Pool}

/-- The code of a method escapes exactly when it can be read and is cut off. -/
theorem fails_parseCode {body : List UInt8} {method : ParsedMethod} :
    Fails Escapes (parseCode pool body method) ↔
      ∃ code inner lines, (readCode pool).runOn body = .ok (code, inner) ∧
        linesOf inner = .ok lines ∧ CutCode pool code := by
  have readable : ¬ Fails Escapes ((readCode pool).runOn body) := fun fails =>
    clean_readCode pool _ (Decoder.fails_runOn.mp fails)
  change Fails Escapes (((readCode pool).runOn body).bind fun parts =>
    (linesOf parts.2).bind fun lines =>
      scanCode parts.1 pool lines (withLineRange method lines)) ↔ _
  rw [fails_bind_of_not readable, Prod.exists]
  refine exists_congr fun code => exists_congr fun inner => ?_
  rw [fails_bind_of_not (not_fails_linesOf inner), ← exists_and_left]
  refine exists_congr fun lines => and_congr Iff.rfl (and_congr Iff.rfl ?_)
  exact fails_scanFrom

/-- An error escapes from the code of a method where it escapes from its code attribute. -/
theorem fails_withCode {attributes : Dict Str (List UInt8)} {method : ParsedMethod} :
    Fails Escapes (withCode pool attributes method) ↔
      ∃ body, attributes.get? "Code".toList = some body ∧
        Fails Escapes (parseCode pool body method) := by
  rw [withCode]
  cases attributes.get? "Code".toList with
  | none =>
      simp only [reduceCtorEq, false_and, exists_false, iff_false]
      exact not_fails_ok _
  | some body => simp only [Option.some.injEq, exists_eq_left']

/-- A method escapes exactly when its code is cut off. -/
theorem fails_parseMethod {cursor : Cursor UInt8} :
    Fails Escapes ((parseMethod pool).run cursor) ↔ CutMethod pool cursor := by
  rw [parseMethod, Decoder.fails_run_bind_of_clean (clean_parseHeader pool)]
  simp only [Decoder.fails_run_bind_of_clean (clean_findAttributes pool _),
    Decoder.fails_run_lift, fails_withCode, fails_parseCode]
  constructor
  · intro fails
    obtain ⟨header, middle, head, attributes, after, found, body, present, code, inner, lines,
      read, table, cut⟩ := fails
    exact .code head found present read table cut
  · intro cut
    obtain @⟨header, attributes, inner, middle, after, body, code, lines, head, found, present,
      read, table, cut⟩ := cut
    exact ⟨header, middle, head, attributes, after, found, body, present, code, inner, lines,
      read, table, cut⟩

/-- The source file escapes exactly when its attribute has no index. -/
theorem fails_sourceFileOf {attributes : Dict Str (List UInt8)} :
    Fails Escapes (sourceFileOf pool attributes) ↔
      ∃ body, attributes.get? "SourceFile".toList = some body ∧ body.length < 2 := by
  rw [sourceFileOf]
  cases attributes.get? "SourceFile".toList with
  | none =>
      simp only [reduceCtorEq, false_and, exists_false, iff_false]
      exact not_fails_ok _
  | some body =>
      simp only [Option.some.injEq, exists_eq_left']
      by_cases short : body.length < 2
      · rw [chunk_of_lt (by decide) (by omega)]
        exact iff_of_true (fails_error.mpr rfl) short
      · rw [chunk_of_le (by omega)]
        exact iff_of_false (not_fails_utf8 _) short

end Methods

section Classes

/-- The class file behind what stands before the methods. -/
def readMembers (front : ParsedClass × Pool) : Reader ParsedClass := do
  let methods ← parseMembers (parseMethod front.2)
  let attributes ← findAttributes front.2 ["SourceFile".toList]
  let sourceFile ← sourceFileOf front.2 attributes
  pure { front.1 with methods, sourceFile }

/-- A class file is read in two steps: the front with its pool, then the members. -/
theorem parseClass_eq (data : List UInt8) :
    parseClass data = (readHead >>= readMembers).runOn data := by
  rw [parseClass, readHead, bind_assoc]
  refine congrArg (fun reader => Decoder.runOn reader data) (bind_congr fun magic => ?_)
  split
  · rfl
  · rw [parseBody]
    simp only [bind_assoc, pure_bind]
    rfl

/-- An error escapes from the members where it escapes from one that is reached. -/
theorem fails_parseMembers {pool : Pool} {cursor : Cursor UInt8} :
    Fails Escapes ((parseMembers (parseMethod pool)).run cursor) ↔
      ∃ count first, u2.run cursor = .ok (count, first) ∧ ∃ turn < count, ∃ methods after,
        (Decoder.times turn (parseMethod pool)).run first = .ok (methods, after) ∧
          CutMethod pool after := by
  rw [parseMembers, Decoder.fails_run_bind_of_clean clean_u2]
  simp only [Decoder.fails_run_times, fails_parseMethod]

/-- An error escapes behind the front from a member or from a cut `SourceFile`. -/
theorem fails_readMembers {front : ParsedClass × Pool} {cursor : Cursor UInt8} :
    Fails Escapes ((readMembers front).run cursor) ↔
      Fails Escapes ((parseMembers (parseMethod front.2)).run cursor) ∨
        ∃ methods middle, (parseMembers (parseMethod front.2)).run cursor =
            .ok (methods, middle) ∧
          ∃ attributes after, (findAttributes front.2 ["SourceFile".toList]).run middle =
              .ok (attributes, after) ∧
            ∃ body, attributes.get? "SourceFile".toList = some body ∧ body.length < 2 := by
  rw [readMembers, Decoder.fails_run_bind]
  simp only [Decoder.fails_run_bind_of_clean (clean_findAttributes front.2 _),
    Decoder.fails_run_bind_pure, Decoder.fails_run_lift, fails_sourceFileOf]

/-- An error escapes from a class file exactly where one of its parts is cut inside. -/
theorem fails_parseClass {data : List UInt8} :
    Fails Escapes (parseClass data) ↔ CutClass data := by
  rw [parseClass_eq, Decoder.fails_runOn, Decoder.fails_run_bind_of_clean clean_readHead]
  simp only [fails_readMembers, fails_parseMembers]
  constructor
  · intro fails
    obtain ⟨⟨head, pool⟩, start, front, inMethods | inSource⟩ := fails
    · obtain ⟨count, first, number, turn, less, methods, after, before, cut⟩ := inMethods
      exact .method front number less before cut
    · obtain ⟨methods, middle, members, attributes, after, found, body, present, short⟩ := inSource
      exact .sourceFile front members found present short
  · intro cut
    cases cut with
    | method front number less before cut =>
        exact ⟨_, _, front, .inl ⟨_, _, number, _, less, _, _, before, cut⟩⟩
    | sourceFile front members found present short =>
        exact ⟨_, _, front, .inr ⟨_, _, members, _, _, found, _, present, short⟩⟩

/-- **Short reads.** The parser comes to a class or to a class-file error on every
byte string but those that lead it to a cut-off instruction or a source file
without an index. -/
theorem parseClass_clean_iff (data : List UInt8) :
    (∀ error, parseClass data = .error error → error.isClassFileError = true) ↔
      ¬ CutClass data := by
  rw [← fails_parseClass, Fails, not_exists]
  refine forall_congr' fun error => ?_
  rw [not_and, Escapes, Bool.not_eq_false]

/-- A class file with one method, whose code is an `invokevirtual` without its
index. -/
def cutInvoke : List UInt8 :=
  bigEndian 4 0xCAFEBABE ++ [0, 0, 0, 52, 0, 4, 1, 0, 4] ++ [67, 111, 100, 101] ++
    [1, 0, 1, 65, 7, 0, 2, 0, 33, 0, 3, 0, 0, 0, 0, 0, 0, 0, 1] ++
    [0, 1, 0, 2, 0, 2, 0, 1, 0, 1, 0, 0, 0, 13, 0, 0, 0, 0, 0, 0, 0, 1, 0xb6, 0, 0, 0, 0, 0, 0]

/-- A class file can make the parser raise an error that is not its own. -/
theorem not_parseClass_clean :
    ¬ ∀ data error, parseClass data = .error error → error.isClassFileError = true := by
  intro clean
  have escapes : parseClass cutInvoke = .error (.shortBuffer 2) := by decide +kernel
  cases clean cutInvoke _ escapes

end Classes

end GraphIngest.Bytecode
