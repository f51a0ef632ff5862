import GraphIngest.Bytecode.ClassFile
import GraphIngest.Foundation.Decoding
import GraphIngest.Foundation.Dict
import GraphIngest.Foundation.Utf8
import Mathlib.Data.List.Sort

/-! # The class-file parser

The bytes of a class file are read through a bounds-checked cursor: constant
pool, access flags, names, members, attributes. Attributes that are not asked
for are stepped over by their length. The code of a method is walked instruction
by instruction, and only calls, field accesses and instantiations leave a trace.
-/

namespace GraphIngest.Bytecode

open Foundation Text

section Shapes

/-- A call instruction with its place in the code. -/
structure CallSite extends Invocation where
  offset : Nat
deriving DecidableEq, Repr

/-- A parsed field. -/
structure FieldInfo where
  name : Str
  descriptor : Str
  accessFlags : Nat
deriving DecidableEq, Repr

/-- A method with all that the parser finds in it. -/
structure ParsedMethod where
  name : Str
  descriptor : Str
  accessFlags : Nat
  invocations : List CallSite := []
  fieldAccesses : List FieldAccess := []
  instantiations : List Str := []
  startLine : Int := -1
  endLine : Int := -1
deriving DecidableEq, Repr

/-- A class with all that the parser finds in it. -/
structure ParsedClass where
  name : Str
  superName : Str
  interfaces : List Str
  accessFlags : Nat
  majorVersion : Nat
  sourceFile : Str
  fields : List FieldInfo
  methods : List ParsedMethod
deriving DecidableEq, Repr

/-- What the passes read of a parsed method. -/
def ParsedMethod.info (method : ParsedMethod) : MethodInfo where
  name := method.name
  descriptor := method.descriptor
  accessFlags := method.accessFlags
  invocations := method.invocations.map CallSite.toInvocation
  fieldAccesses := method.fieldAccesses
  startLine := method.startLine
  endLine := method.endLine

/-- What the passes read of a parsed class. -/
def ParsedClass.info (parsed : ParsedClass) : ClassInfo where
  name := parsed.name
  superName := parsed.superName
  interfaces := parsed.interfaces
  methods := parsed.methods.map ParsedMethod.info

end Shapes

/-- Why a class file is refused, with what the message names. -/
inductive ParseError
  | truncated (wanted pos left : Nat)
  | truncatedSkip (count pos : Nat)
  | unknownTag (tag index : Nat)
  | outOfRange (index : Nat)
  | notUtf8 (index : Nat)
  | notClass (index : Nat)
  | notMemberRef (index : Nat)
  | notNameAndType (index : Nat)
  | notInvokeDynamic (index : Nat)
  | noNameAndType
  | truncatedWide
  | badMagic
  /-- `struct.error`: a slice of the code is shorter than what is read from it. -/
  | shortBuffer (width : Nat)
deriving DecidableEq, Repr

/-- The message of an error. -/
def ParseError.message : ParseError → String
  | truncated wanted pos left => s!"truncated: wanted {wanted} byte(s) at {pos}, have {left}"
  | truncatedSkip count pos => s!"truncated: skip {count} past end at {pos}"
  | unknownTag tag index => s!"unknown constant pool tag {tag} at index {index}"
  | outOfRange index => s!"constant pool index {index} out of range"
  | notUtf8 index => s!"constant pool index {index} is not Utf8"
  | notClass index => s!"constant pool index {index} is not a Class"
  | notMemberRef index => s!"constant pool index {index} is not a member ref"
  | notNameAndType index => s!"constant pool index {index} is not NameAndType"
  | notInvokeDynamic index => s!"constant pool index {index} is not InvokeDynamic"
  | noNameAndType => "InvokeDynamic NameAndType missing"
  | truncatedWide => "truncated wide instruction"
  | badMagic => "bad magic — not a class file"
  | shortBuffer width => s!"unpack requires a buffer of {width} bytes"

/-- A reader of the bytes of a class file. -/
abbrev Reader (α : Type) := Decoder ParseError UInt8 α

namespace Reader

/-- The error of a read past the end. -/
def truncatedAt (count : Nat) (cursor : Cursor UInt8) : ParseError :=
  .truncated count cursor.pos (cursor.data.length - cursor.pos)

def take (count : Nat) : Reader (List UInt8) := Decoder.slice (truncatedAt count) count

def u1 : Reader Nat := Decoder.number (truncatedAt 1) 1

def u2 : Reader Nat := Decoder.number (truncatedAt 2) 2

def u4 : Reader Nat := Decoder.number (truncatedAt 4) 4

def skip (count : Nat) : Reader Unit := do
  let _ ← Decoder.slice (fun cursor => .truncatedSkip count cursor.pos) count
  pure ()

end Reader

open Reader

section ConstantPool

/-- A constant as the parser keeps it: a text, or a tag with its operands. The
numeric constants keep their bits as one unsigned number, which nothing reads. -/
inductive PoolEntry
  | text (value : Str)
  | values (tag : Nat) (operands : List Nat)
deriving DecidableEq, Repr

/-- `_CP_LAYOUT`: the widths of the operands, and the slots taken. -/
def cpLayout : Nat → Option (List Nat × Nat)
  | 3 | 4 => some ([4], 1)
  | 5 | 6 => some ([8], 2)
  | 7 | 8 | 16 | 19 | 20 => some ([2], 1)
  | 9 | 10 | 11 | 12 | 17 | 18 => some ([2, 2], 1)
  | _ => none

/-- `struct.calcsize`. -/
def calcsize (widths : List Nat) : Nat := widths.foldr (· + ·) 0

/-- `struct.unpack`, on as many bytes as the widths ask for. -/
def unpack : List Nat → List UInt8 → List Nat
  | [], _ => []
  | width :: rest, bytes => ofBigEndian (bytes.take width) :: unpack rest (bytes.drop width)

/-- One constant, and the slots it takes. -/
def parseConstant (index : Nat) : Reader (PoolEntry × Nat) := do
  let tag ← u1
  if tag = 1 then
    let length ← u2
    let bytes ← take length
    pure (.text (Utf8.decode bytes), 1)
  else if tag = 15 then
    let kind ← u1
    let reference ← u2
    pure (.values tag [kind, reference], 1)
  else
    match cpLayout tag with
    | none => throw (.unknownTag tag index)
    | some (widths, slots) =>
        let bytes ← take (calcsize widths)
        pure (.values tag (unpack widths bytes), slots)

/-- The loop over the constants. A constant of two slots leaves the second one
empty. -/
def parseSlots (count index : Nat) (pool : List (Option PoolEntry)) :
    Reader (List (Option PoolEntry)) :=
  if index < count then do
    let (entry, slots) ← parseConstant index
    parseSlots count (index + 1 + (slots - 1)) (pool.set index (some entry))
  else pure pool
termination_by count - index

/-- `_Pool`: the constants by their index. -/
structure Pool where
  raw : List (Option PoolEntry)

def parseConstantPool (count : Nat) : Reader Pool := do
  let raw ← parseSlots count 1 (List.replicate count none)
  pure ⟨raw⟩

namespace Pool

/-- The constant at an index inside the pool. -/
def entry (pool : Pool) (index : Nat) : Option PoolEntry :=
  if 0 < index then pool.raw[index]?.join else none

def utf8 (pool : Pool) (index : Nat) : Except ParseError Str :=
  if 0 < index ∧ index < pool.raw.length then
    match pool.entry index with
    | some (.text value) => .ok value
    | _ => .error (.notUtf8 index)
  else .error (.outOfRange index)

/-- The dotted name of a class entry; index `0` is the missing superclass. -/
def className (pool : Pool) (index : Nat) : Except ParseError Str :=
  if index = 0 then .ok []
  else
    match pool.entry index with
    | some (.values 7 [nameIndex]) => do
        let name ← pool.utf8 nameIndex
        pure (replaceLetter '/' '.' name)
    | _ => .error (.notClass index)

/-- The tags of field, method and interface-method references. -/
def memberRefTags : List Nat := [9, 10, 11]

/-- Owner, name and descriptor of a member reference. -/
def memberRef (pool : Pool) (index : Nat) : Except ParseError (Str × Str × Str) :=
  match pool.entry index with
  | some (.values tag [classIndex, natIndex]) =>
      if tag ∈ memberRefTags then
        match pool.entry natIndex with
        | some (.values 12 [nameIndex, descriptorIndex]) => do
            let owner ← pool.className classIndex
            let name ← pool.utf8 nameIndex
            let descriptor ← pool.utf8 descriptorIndex
            pure (owner, name, descriptor)
        | _ => .error (.notNameAndType natIndex)
      else .error (.notMemberRef index)
  | _ => .error (.notMemberRef index)

/-- Name and descriptor of a dynamic call site. -/
def invokedynamicNat (pool : Pool) (index : Nat) : Except ParseError (Str × Str) :=
  match pool.entry index with
  | some (.values 18 [_, natIndex]) =>
      match pool.entry natIndex with
      | some (.values 12 [nameIndex, descriptorIndex]) => do
          let name ← pool.utf8 nameIndex
          let descriptor ← pool.utf8 descriptorIndex
          pure (name, descriptor)
      | _ => .error .noNameAndType
  | _ => .error (.notInvokeDynamic index)

end Pool

end ConstantPool

section Attributes

def skipAttributes : Reader Unit := do
  let _ ← Decoder.times (← u2) do
    let _ ← u2
    skip (← u4)
  pure ()

/-- One attribute: kept when it is wanted, stepped over otherwise. -/
def findAttribute (pool : Pool) (wanted : List Str) : Reader (Option (Str × List UInt8)) := do
  let name ← pool.utf8 (← u2)
  let length ← u4
  if name ∈ wanted then
    let body ← take length
    pure (some (name, body))
  else
    skip length
    pure none

/-- The wanted attributes by name, the last one of a name. -/
def findAttributes (pool : Pool) (wanted : List Str) : Reader (Dict Str (List UInt8)) := do
  let found ← Decoder.times (← u2) (findAttribute pool wanted)
  pure (found.reduceOption.foldl (fun kept item => kept.set item.1 item.2)
    Dict.empty)

/-- The order of line-table entries: by start, then by line. -/
def earlier (first second : Nat × Nat) : Prop :=
  first.1 < second.1 ∨ first.1 = second.1 ∧ first.2 ≤ second.2

instance : DecidableRel earlier := fun first second =>
  inferInstanceAs (Decidable (first.1 < second.1 ∨ first.1 = second.1 ∧ first.2 ≤ second.2))

/-- The entries of a line table, sorted. -/
def parseLineNumberTable (body : List UInt8) : Except ParseError (List (Nat × Nat)) := do
  let entries ← Decoder.runOn (do
    Decoder.times (← u2) do
      let startPc ← u2
      let line ← u2
      pure (startPc, line)) body
  pure (entries.insertionSort earlier)

/-- The loop of `_line_for_offset`: the line of the last entry passed. -/
def lineFrom (best : Int) (table : List (Nat × Nat)) (offset : Nat) : Int :=
  match table with
  | [] => best
  | (startPc, line) :: rest => if offset < startPc then best else lineFrom line rest offset

/-- The line of the last entry at or before an offset. -/
def lineForOffset (table : List (Nat × Nat)) (offset : Nat) : Int := lineFrom (-1) table offset

end Attributes

section Code

def invokeOp : Nat → Option InvokeOp
  | 0xb6 => some .invokevirtual
  | 0xb7 => some .invokespecial
  | 0xb8 => some .invokestatic
  | 0xb9 => some .invokeinterface
  | 0xba => some .invokedynamic
  | _ => none

def fieldOp : Nat → Option FieldOp
  | 0xb2 => some .getstatic
  | 0xb3 => some .putstatic
  | 0xb4 => some .getfield
  | 0xb5 => some .putfield
  | _ => none

def newOp : Nat := 0xbb

/-- `_OPERAND_LEN`: the bytes behind an opcode, `-1` where they vary. Of two
assignments to an opcode the later one stands first here. -/
def operandLen (op : Nat) : Int :=
  if op ∈ [0xaa, 0xab, 0xc4] then -1
  else if op ∈ [0xb9, 0xba, 0xc8, 0xc9] then 4
  else if op = 0xc5 then 3
  else if 0x99 ≤ op ∧ op < 0xa9 then 2
  else if op ∈ [0x11, 0x13, 0x14, 0x84, 0xb2, 0xb3, 0xb4, 0xb5, 0xb6, 0xb7, 0xb8, 0xbb, 0xbd, 0xc0,
      0xc1, 0xc6, 0xc7] then 2
  else if op ∈ [0x10, 0x12, 0x15, 0x16, 0x17, 0x18, 0x19, 0x36, 0x37, 0x38, 0x39, 0x3a, 0xa9,
      0xbc] then 1
  else 0

/-- The slice that `struct.unpack` reads. -/
def chunk (code : List UInt8) (pos width : Nat) : Except ParseError (List UInt8) :=
  let bytes := (code.drop pos).take width
  if bytes.length = width then .ok bytes else .error (.shortBuffer width)

/-- A 32-bit number with its sign. -/
def signed (number : Nat) : Int := if number < 0x80000000 then number else number - 0x100000000

/-- Owner, name and descriptor of what is called. A dynamic call site has no
owner. -/
def callTarget (pool : Pool) (opcode : InvokeOp) (index : Nat) :
    Except ParseError (Str × Str × Str) :=
  if opcode = .invokedynamic then do
    let (name, descriptor) ← pool.invokedynamicNat index
    pure ([], name, descriptor)
  else pool.memberRef index

/-- The call at an offset. -/
def scanInvoke (code : List UInt8) (pool : Pool) (lines : List (Nat × Nat)) (offset : Nat)
    (opcode : InvokeOp) : Except ParseError CallSite := do
  let index ← chunk code (offset + 1) 2
  let (owner, name, descriptor) ← callTarget pool opcode (ofBigEndian index)
  pure { opcode, owner, name, descriptor, line := lineForOffset lines offset, offset }

/-- The field access at an offset. -/
def scanField (code : List UInt8) (pool : Pool) (lines : List (Nat × Nat)) (offset : Nat)
    (opcode : FieldOp) : Except ParseError FieldAccess := do
  let index ← chunk code (offset + 1) 2
  let (owner, name, descriptor) ← pool.memberRef (ofBigEndian index)
  pure { opcode, owner, name, descriptor, line := lineForOffset lines offset }

/-- The bytes behind an opcode that leaves no trace. A switch is padded to a
multiple of four from the start of the code. -/
def operandBytes (code : List UInt8) (op pos : Nat) : Except ParseError Nat :=
  if 0 ≤ operandLen op then pure (operandLen op).toNat
  else if op = 0xc4 then
    match code[pos]? with
    | none => .error .truncatedWide
    | some widened => pure (if widened = 0x84 then 5 else 3)
  else
    let padding := (4 - pos % 4) % 4
    if op = 0xaa then do
      let bounds ← chunk code (pos + padding + 4) 8
      let low := signed (ofBigEndian (bounds.take 4))
      let high := signed (ofBigEndian (bounds.drop 4))
      pure (padding + 12 + (max 0 (high - low + 1)).toNat * 4)
    else do
      let pairs ← chunk code (pos + padding + 4) 4
      pure (padding + 8 + (max 0 (signed (ofBigEndian pairs))).toNat * 8)

/-- One instruction: what it adds to the method, and the bytes behind its opcode. -/
def scanInstruction (code : List UInt8) (pool : Pool) (lines : List (Nat × Nat)) (offset op : Nat)
    (method : ParsedMethod) : Except ParseError (ParsedMethod × Nat) :=
  match invokeOp op, fieldOp op with
  | some opcode, _ => do
      let site ← scanInvoke code pool lines offset opcode
      pure ({ method with invocations := method.invocations ++ [site] },
        if op = 0xb9 ∨ op = 0xba then 4 else 2)
  | none, some opcode => do
      let access ← scanField code pool lines offset opcode
      pure ({ method with fieldAccesses := method.fieldAccesses ++ [access] }, 2)
  | none, none =>
      if op = newOp then do
        let index ← chunk code (offset + 1) 2
        let created ← pool.className (ofBigEndian index)
        pure ({ method with instantiations := method.instantiations ++ [created] }, 2)
      else do
        let bytes ← operandBytes code op (offset + 1)
        pure (method, bytes)

/-- The walk over the code from a position on. -/
def scanFrom (code : List UInt8) (pool : Pool) (lines : List (Nat × Nat)) (pos : Nat)
    (method : ParsedMethod) : Except ParseError ParsedMethod :=
  if inside : pos < code.length then do
    let (method, operands) ← scanInstruction code pool lines pos code[pos].toNat method
    scanFrom code pool lines (pos + 1 + operands) method
  else pure method
termination_by code.length - pos

def scanCode (code : List UInt8) (pool : Pool) (lines : List (Nat × Nat))
    (method : ParsedMethod) : Except ParseError ParsedMethod :=
  scanFrom code pool lines 0 method

end Code

section Members

/-- Access flags, name and descriptor: what fields and methods start with. -/
def parseHeader (pool : Pool) : Reader FieldInfo := do
  let accessFlags ← u2
  let name ← pool.utf8 (← u2)
  let descriptor ← pool.utf8 (← u2)
  pure { name, descriptor, accessFlags }

def parseField (pool : Pool) : Reader FieldInfo := do
  let field ← parseHeader pool
  skipAttributes
  pure field

/-- The parts of a `Code` attribute: the code, and the attributes of it that are
wanted. -/
def readCode (pool : Pool) : Reader (List UInt8 × Dict Str (List UInt8)) := do
  skip 4
  let code ← take (← u4)
  skip ((← u2) * 8)
  let attributes ← findAttributes pool ["LineNumberTable".toList]
  pure (code, attributes)

/-- The smallest and the largest line of a table, when it has any. -/
def withLineRange (method : ParsedMethod) (lines : List (Nat × Nat)) : ParsedMethod :=
  match (lines.map Prod.snd).min?, (lines.map Prod.snd).max? with
  | some first, some last => { method with startLine := first, endLine := last }
  | _, _ => method

/-- The line table among the attributes of a code, empty when there is none. -/
def linesOf (attributes : Dict Str (List UInt8)) : Except ParseError (List (Nat × Nat)) :=
  match attributes.get? "LineNumberTable".toList with
  | some table => parseLineNumberTable table
  | none => pure []

/-- What a `Code` attribute says about its method. -/
def parseCode (pool : Pool) (body : List UInt8) (method : ParsedMethod) :
    Except ParseError ParsedMethod := do
  let (code, attributes) ← (readCode pool).runOn body
  let lines ← linesOf attributes
  scanCode code pool lines (withLineRange method lines)

/-- What the attributes of a method say about it. -/
def withCode (pool : Pool) (attributes : Dict Str (List UInt8)) (method : ParsedMethod) :
    Except ParseError ParsedMethod :=
  match attributes.get? "Code".toList with
  | some body => parseCode pool body method
  | none => pure method

def parseMethod (pool : Pool) : Reader ParsedMethod := do
  let header ← parseHeader pool
  let attributes ← findAttributes pool ["Code".toList]
  withCode pool attributes
    { name := header.name, descriptor := header.descriptor, accessFlags := header.accessFlags }

/-- Fields and methods share their layout; only methods carry code. -/
def parseMembers {α : Type} (member : Reader α) : Reader (List α) := do
  Decoder.times (← u2) member

end Members

section Classes

def classMagic : Nat := 0xCAFEBABE

/-- The name of the source file, in the first two bytes of its attribute. -/
def sourceFileOf (pool : Pool) (attributes : Dict Str (List UInt8)) : Except ParseError Str :=
  match attributes.get? "SourceFile".toList with
  | some body => do
      let index ← chunk body 0 2
      pool.utf8 (ofBigEndian index)
  | none => pure []

/-- A class file behind its magic number. -/
def parseBody : Reader ParsedClass := do
  let _ ← u2
  let majorVersion ← u2
  let pool ← parseConstantPool (← u2)
  let accessFlags ← u2
  let name ← pool.className (← u2)
  let superName ← pool.className (← u2)
  let interfaces ← Decoder.times (← u2) do pool.className (← u2)
  let fields ← parseMembers (parseField pool)
  let methods ← parseMembers (parseMethod pool)
  let attributes ← findAttributes pool ["SourceFile".toList]
  let sourceFile ← sourceFileOf pool attributes
  pure { name, superName, interfaces, accessFlags, majorVersion, sourceFile, fields, methods }

/-- One class file's bytes; what stands behind the class is not looked at. -/
def parseClass (data : List UInt8) : Except ParseError ParsedClass :=
  Decoder.runOn (do if (← u4) ≠ classMagic then throw .badMagic else parseBody) data

end Classes

section Sources

/-- Where class files are looked for: the files under a directory or the entries
of an archive, by path, a file of its own, or what cannot be opened. -/
inductive ClassSource
  | directory (files : List (Str × List UInt8))
  | archive (entries : List (Str × List UInt8))
  | file (data : List UInt8)
  | unreadable

/-- `iter_class_files`: a file that is refused costs only itself. -/
def iterClassFiles (files : List (Str × List UInt8)) : List (Str × ParsedClass) :=
  files.filterMap fun file =>
    if ".class".toList.isSuffixOf file.1 then
      (parseClass file.2).toOption.map fun parsed => (file.1, parsed)
    else none

/-- `iter_jar_classes`, which leaves the manifest directory out. -/
def iterJarClasses (entries : List (Str × List UInt8)) : List (Str × ParsedClass) :=
  iterClassFiles (entries.filter fun entry => !"META-INF/".toList.isPrefixOf entry.1)

/-- The classes of one source. -/
def ClassSource.classes : ClassSource → List ParsedClass
  | directory files => (iterClassFiles files).map Prod.snd
  | archive entries => (iterJarClasses entries).map Prod.snd
  | file data => (parseClass data).toOption.toList
  | unreadable => []

/-- `_iter_class_sources`: what the pass is given of the classes. -/
def iterClassSources (roots : List ClassSource) : List ClassInfo :=
  (roots.flatMap ClassSource.classes).map ParsedClass.info

end Sources

end GraphIngest.Bytecode
