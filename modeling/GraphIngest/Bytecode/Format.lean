import GraphIngest.Bytecode.Parser
import Mathlib.Tactic.MkIffOfInductiveProp

/-! # The class-file format

Class files as the format describes them: a constant pool whose entries refer to
one another by index, members with attributes, and code that is a sequence of
instructions. A class file is written as bytes; it is well formed when its
counts and lengths fit their widths, its references lead to constants of the
right kind, and its instructions are those of the virtual machine. What a class
file says, its projection, follows the references without any bytes.
-/

namespace GraphIngest.Bytecode.Format

open Foundation Text

/-- Two bytes. -/
def half (number : UInt16) : List UInt8 := bigEndian 2 number.toNat

/-- Four bytes. -/
def word (number : UInt32) : List UInt8 := bigEndian 4 number.toNat

/-- The entries of a table behind their number. -/
def table {γ : Type} (encode : γ → List UInt8) (entries : List γ) : List UInt8 :=
  bigEndian 2 entries.length ++ entries.flatMap encode

section Constants

/-- The constants of a pool. Texts are sequences of 16-bit code units, the
others are numbers or indices of constants. -/
inductive Constant
  | utf8 (units : List UInt16)
  | integer (bits : UInt32)
  | float (bits : UInt32)
  | long (bits : UInt64)
  | double (bits : UInt64)
  | classInfo (name : UInt16)
  | string (text : UInt16)
  | fieldref (owner nameAndType : UInt16)
  | methodref (owner nameAndType : UInt16)
  | interfaceMethodref (owner nameAndType : UInt16)
  | nameAndType (name descriptor : UInt16)
  | methodHandle (kind : UInt8) (reference : UInt16)
  | methodType (descriptor : UInt16)
  | dynamic (bootstrap nameAndType : UInt16)
  | invokeDynamic (bootstrap nameAndType : UInt16)
  | moduleInfo (name : UInt16)
  | packageInfo (name : UInt16)
deriving DecidableEq

namespace Constant

def tag : Constant → Nat
  | utf8 _ => 1
  | integer _ => 3
  | float _ => 4
  | long _ => 5
  | double _ => 6
  | classInfo _ => 7
  | string _ => 8
  | fieldref _ _ => 9
  | methodref _ _ => 10
  | interfaceMethodref _ _ => 11
  | nameAndType _ _ => 12
  | methodHandle _ _ => 15
  | methodType _ => 16
  | dynamic _ _ => 17
  | invokeDynamic _ _ => 18
  | moduleInfo _ => 19
  | packageInfo _ => 20

/-- The numbers behind the tag, each with its width; a text has none. -/
def operands : Constant → List (Nat × Nat)
  | utf8 _ => []
  | integer bits | float bits => [(4, bits.toNat)]
  | long bits | double bits => [(8, bits.toNat)]
  | classInfo index | string index | methodType index | moduleInfo index | packageInfo index =>
      [(2, index.toNat)]
  | fieldref first second | methodref first second | interfaceMethodref first second
  | nameAndType first second | dynamic first second | invokeDynamic first second =>
      [(2, first.toNat), (2, second.toNat)]
  | methodHandle kind reference => [(1, kind.toNat), (2, reference.toNat)]

/-- The indices a constant takes; the last of two is unusable. -/
def width : Constant → Nat
  | long _ | double _ => 2
  | _ => 1

/-- What stands behind the tag. -/
def body : Constant → List UInt8
  | utf8 units =>
      bigEndian 2 (Utf8.encodeUnits units).length ++ Utf8.encodeUnits units
  | constant => constant.operands.flatMap fun operand => bigEndian operand.1 operand.2

def encode (constant : Constant) : List UInt8 := bigEndian 1 constant.tag ++ constant.body

/-- The bytes of a text. -/
def textLength : Constant → Nat
  | utf8 units => (Utf8.encodeUnits units).length
  | _ => 0

end Constant

/-- The constants by their index. Index `0` is no constant. -/
def slots (constants : List Constant) : List (Option Constant) :=
  none :: constants.flatMap fun constant =>
    some constant :: List.replicate (constant.width - 1) none

def constantAt (constants : List Constant) (index : UInt16) : Option Constant :=
  (slots constants)[index.toNat]?.join

/-- The text at an index, when it is a name: characters of the basic plane, and
no zero among them. -/
def nameAt (constants : List Constant) (index : UInt16) : Option Str :=
  match constantAt constants index with
  | some (.utf8 units) => if units.all Utf8.plain then some (units.map Utf8.letter) else none
  | _ => none

/-- The dotted name of the class at an index. -/
def classAt (constants : List Constant) (index : UInt16) : Option Str :=
  match constantAt constants index with
  | some (.classInfo name) => (nameAt constants name).map (replaceLetter '/' '.')
  | _ => none

def nameAndTypeAt (constants : List Constant) (index : UInt16) : Option (Str × Str) :=
  match constantAt constants index with
  | some (.nameAndType name descriptor) => do
      let name ← nameAt constants name
      let descriptor ← nameAt constants descriptor
      some (name, descriptor)
  | _ => none

/-- Owner, name and descriptor of the field or method at an index. -/
def memberAt (constants : List Constant) (index : UInt16) : Option (Str × Str × Str) :=
  match constantAt constants index with
  | some (.fieldref owner member) | some (.methodref owner member)
  | some (.interfaceMethodref owner member) => do
      let owner ← classAt constants owner
      let (name, descriptor) ← nameAndTypeAt constants member
      some (owner, name, descriptor)
  | _ => none

/-- Name and descriptor of the dynamic call site at an index. -/
def dynamicAt (constants : List Constant) (index : UInt16) : Option (Str × Str) :=
  match constantAt constants index with
  | some (.invokeDynamic _ site) => nameAndTypeAt constants site
  | _ => none

end Constants

section Attributes

/-- An attribute: a name and a body of any content. -/
structure RawAttribute where
  name : UInt16
  body : List UInt8

def RawAttribute.encode (item : RawAttribute) : List UInt8 :=
  half item.name ++ (bigEndian 4 item.body.length ++ item.body)

/-- An attribute of the one kind that matters in its place, or another one. -/
inductive Attribute (α : Type)
  | known (name : UInt16) (content : α)
  | other (item : RawAttribute)

namespace Attribute

variable {α : Type}

def content? : Attribute α → Option α
  | known _ content => some content
  | other _ => none

def raw (encode : α → List UInt8) : Attribute α → RawAttribute
  | known name content => ⟨name, encode content⟩
  | other item => item

/-- The attribute of this kind bears this name, and no other one does. -/
def Named (constants : List Constant) (label : Str) : Attribute α → Prop
  | known name _ => nameAt constants name = some label
  | other item => (nameAt constants item.name).any (fun name => name ≠ label) = true

instance (constants : List Constant) (label : Str) :
    DecidablePred (Named constants label : Attribute α → Prop)
  | known name _ => inferInstanceAs (Decidable (nameAt constants name = some label))
  | other _ => inferInstanceAs (Decidable (_ = true))

end Attribute

/-- The contents of the attributes of the kind that matters. -/
def contents {α : Type} (attributes : List (Attribute α)) : List α :=
  attributes.filterMap Attribute.content?

def attributeTable {α : Type} (encode : α → List UInt8) (attributes : List (Attribute α)) :
    List UInt8 :=
  table RawAttribute.encode (attributes.map (Attribute.raw encode))

/-- Attributes that fit their widths and bear their names, at most one of the
kind that matters. -/
@[mk_iff]
structure AttributesWellFormed {α : Type} (constants : List Constant) (label : Str)
    (encode : α → List UInt8) (attributes : List (Attribute α)) : Prop where
  count : attributes.length < 0x10000
  bodies : ∀ item ∈ attributes, (item.raw encode).body.length < 0x100000000
  named : ∀ item ∈ attributes, item.Named constants label
  single : (contents attributes).length ≤ 1

instance {α : Type} (constants : List Constant) (label : Str) (encode : α → List UInt8)
    (attributes : List (Attribute α)) :
    Decidable (AttributesWellFormed constants label encode attributes) :=
  decidable_of_iff' _ (attributesWellFormed_iff constants label encode attributes)

/-- Where the code of a line starts, and the line. -/
abbrev LineTable := List (UInt16 × UInt16)

def encodeLines (lines : LineTable) : List UInt8 :=
  table (fun entry => half entry.1 ++ half entry.2) lines

/-- The entries as numbers. -/
def lineEntries (lines : LineTable) : List (Nat × Nat) :=
  lines.map fun entry => (entry.1.toNat, entry.2.toNat)

/-- The line of a place in the code: of the entries that start last before or at
it, the one with the highest line. -/
def lineAt (entries : List (Nat × Nat)) (offset : Nat) : Int :=
  match ((entries.map Prod.fst).filter (· ≤ offset)).max? with
  | none => -1
  | some start =>
      match ((entries.filter fun entry => entry.1 = start).map Prod.snd).max? with
      | none => -1
      | some line => line

end Attributes

section Instructions

/-- The opcode of a call. -/
def invokeByte : InvokeOp → UInt8
  | .invokevirtual => 0xb6
  | .invokespecial => 0xb7
  | .invokestatic => 0xb8
  | .invokeinterface => 0xb9
  | .invokedynamic => 0xba

/-- The opcode of a field access. -/
def fieldByte : FieldOp → UInt8
  | .getstatic => 0xb2
  | .putstatic => 0xb3
  | .getfield => 0xb4
  | .putfield => 0xb5

/-- The instructions. Those that neither vary in length nor call, access or
create anything are an opcode with its operand bytes. -/
inductive Instruction
  | plain (opcode : UInt8) (operands : List UInt8)
  | invoke (op : InvokeOp) (index : UInt16) (trailer : List UInt8)
  | access (op : FieldOp) (index : UInt16)
  | create (index : UInt16)
  | wide (opcode : UInt8) (local16 : UInt16)
  | wideIncrement (local16 amount : UInt16)
  | tableswitch (padding : List UInt8) (default : UInt32) (low high : Int32)
      (targets : List UInt32)
  | lookupswitch (padding : List UInt8) (default : UInt32) (pairs : List (Int32 × UInt32))

/-- The operand bytes of an opcode, none for the opcodes whose instructions have
a form of their own and for those that are no instruction. -/
def fixedOperands (opcode : Nat) : Option Nat :=
  if opcode ≤ 0x0f then some 0        -- constants
  else if opcode = 0x10 then some 1   -- bipush
  else if opcode = 0x11 then some 2   -- sipush
  else if opcode = 0x12 then some 1   -- ldc
  else if opcode ≤ 0x14 then some 2   -- ldc_w, ldc2_w
  else if opcode ≤ 0x19 then some 1   -- loads
  else if opcode ≤ 0x35 then some 0   -- loads of the first locals, array loads
  else if opcode ≤ 0x3a then some 1   -- stores
  else if opcode ≤ 0x83 then some 0   -- stores of the first locals, stack, arithmetic
  else if opcode = 0x84 then some 2   -- iinc
  else if opcode ≤ 0x98 then some 0   -- conversions, comparisons
  else if opcode ≤ 0xa8 then some 2   -- branches
  else if opcode = 0xa9 then some 1   -- ret
  else if opcode ≤ 0xab then none     -- switches
  else if opcode ≤ 0xb1 then some 0   -- returns
  else if opcode ≤ 0xbb then none     -- field accesses, calls, new
  else if opcode = 0xbc then some 1   -- newarray
  else if opcode = 0xbd then some 2   -- anewarray
  else if opcode ≤ 0xbf then some 0   -- arraylength, athrow
  else if opcode ≤ 0xc1 then some 2   -- checkcast, instanceof
  else if opcode ≤ 0xc3 then some 0   -- monitorenter, monitorexit
  else if opcode = 0xc4 then none     -- wide
  else if opcode = 0xc5 then some 3   -- multianewarray
  else if opcode ≤ 0xc7 then some 2   -- ifnull, ifnonnull
  else if opcode ≤ 0xc9 then some 4   -- goto_w, jsr_w
  else none

namespace Instruction

def opcode : Instruction → UInt8
  | plain opcode _ => opcode
  | invoke op _ _ => invokeByte op
  | access op _ => fieldByte op
  | create _ => 0xbb
  | wide _ _ | wideIncrement _ _ => 0xc4
  | tableswitch _ _ _ _ _ => 0xaa
  | lookupswitch _ _ _ => 0xab

/-- What stands behind the opcode. -/
def operands : Instruction → List UInt8
  | plain _ operands => operands
  | invoke _ index trailer => half index ++ trailer
  | access _ index => half index
  | create index => half index
  | wide opcode local16 => opcode :: half local16
  | wideIncrement local16 amount => 0x84 :: (half local16 ++ half amount)
  | tableswitch padding default low high targets =>
      padding ++ (word default ++ ((word low.toUInt32 ++ word high.toUInt32) ++
        targets.flatMap word))
  | lookupswitch padding default pairs =>
      padding ++ (word default ++ (bigEndian 4 pairs.length ++
        pairs.flatMap fun pair => word pair.1.toUInt32 ++ word pair.2))

def encode (instruction : Instruction) : List UInt8 :=
  instruction.opcode :: instruction.operands

end Instruction

/-- The instructions with the places they stand at. -/
def located : Nat → List Instruction → List (Nat × Instruction)
  | _, [] => []
  | offset, instruction :: rest =>
      (offset, instruction) :: located (offset + instruction.encode.length) rest

/-- The bytes a call has behind its index: the argument count of an interface
call and a zero, or two zeros. -/
def trailerLength : InvokeOp → Nat
  | .invokeinterface | .invokedynamic => 2
  | _ => 0

/-- The operands of a switch start at a multiple of four. -/
def Aligned (offset : Nat) (padding : List UInt8) : Prop :=
  padding.length < 4 ∧ 4 ∣ offset + 1 + padding.length

instance (offset : Nat) (padding : List UInt8) : Decidable (Aligned offset padding) :=
  inferInstanceAs (Decidable (_ ∧ _))

/-- An instruction of the virtual machine, at its place in the code. -/
def InstructionWellFormed (constants : List Constant) (offset : Nat) : Instruction → Prop
  | .plain opcode operands => fixedOperands opcode.toNat = some operands.length
  | .invoke op index trailer =>
      trailer.length = trailerLength op ∧
        if op = .invokedynamic then (dynamicAt constants index).isSome = true
        else (memberAt constants index).isSome = true
  | .access _ index => (memberAt constants index).isSome = true
  | .create index => (classAt constants index).isSome = true
  | .wide opcode _ => opcode ≠ 0x84
  | .wideIncrement _ _ => True
  | .tableswitch padding _ low high targets =>
      Aligned offset padding ∧ (targets.length : Int) = high.toInt - low.toInt + 1
  | .lookupswitch padding _ pairs => Aligned offset padding ∧ pairs.length < 0x80000000

instance (constants : List Constant) (offset : Nat) :
    DecidablePred (InstructionWellFormed constants offset)
  | .plain opcode operands =>
      inferInstanceAs (Decidable (fixedOperands opcode.toNat = some operands.length))
  | .invoke _ _ _ => inferInstanceAs (Decidable (_ ∧ ite _ _ _))
  | .access _ _ => inferInstanceAs (Decidable (_ = true))
  | .create _ => inferInstanceAs (Decidable (_ = true))
  | .wide opcode _ => inferInstanceAs (Decidable (opcode ≠ 0x84))
  | .wideIncrement _ _ => inferInstanceAs (Decidable True)
  | .tableswitch _ _ _ _ _ => inferInstanceAs (Decidable (Aligned _ _ ∧ _ = _))
  | .lookupswitch _ _ _ => inferInstanceAs (Decidable (Aligned _ _ ∧ _ < _))

/-- The call an instruction makes. -/
def callOf (constants : List Constant) (entries : List (Nat × Nat)) :
    Nat × Instruction → Option CallSite
  | (offset, .invoke .invokedynamic index _) =>
      (dynamicAt constants index).map fun site =>
        { opcode := .invokedynamic, owner := [], name := site.1, descriptor := site.2,
          line := lineAt entries offset, offset }
  | (offset, .invoke op index _) =>
      (memberAt constants index).map fun member =>
        { opcode := op, owner := member.1, name := member.2.1, descriptor := member.2.2,
          line := lineAt entries offset, offset }
  | _ => none

/-- The field access an instruction makes. -/
def accessOf (constants : List Constant) (entries : List (Nat × Nat)) :
    Nat × Instruction → Option FieldAccess
  | (offset, .access op index) =>
      (memberAt constants index).map fun member =>
        { opcode := op, owner := member.1, name := member.2.1, descriptor := member.2.2,
          line := lineAt entries offset }
  | _ => none

/-- The class an instruction creates. -/
def createdBy (constants : List Constant) : Nat × Instruction → Option Str
  | (_, .create index) => classAt constants index
  | _ => none

end Instructions

section Members

/-- A range of the code with its handler. -/
structure Handler where
  startPc : UInt16
  endPc : UInt16
  handlerPc : UInt16
  catchType : UInt16

def Handler.encode (handler : Handler) : List UInt8 :=
  half handler.startPc ++ (half handler.endPc ++ (half handler.handlerPc ++ half handler.catchType))

/-- The code of a method; its attributes are line tables and others. -/
structure CodeBody where
  maxStack : UInt16
  maxLocals : UInt16
  instructions : List Instruction
  handlers : List Handler
  attributes : List (Attribute LineTable)

namespace CodeBody

def code (body : CodeBody) : List UInt8 := body.instructions.flatMap Instruction.encode

def encode (body : CodeBody) : List UInt8 :=
  (half body.maxStack ++ half body.maxLocals) ++ (bigEndian 4 body.code.length ++ (body.code ++
    (table Handler.encode body.handlers ++ attributeTable encodeLines body.attributes)))

/-- The lines of the code, from all its line tables. -/
def entries (body : CodeBody) : List (Nat × Nat) :=
  lineEntries (contents body.attributes).flatten

@[mk_iff]
structure WellFormed (constants : List Constant) (body : CodeBody) : Prop where
  codeLength : body.code.length < 0x100000000
  instructions : ∀ place ∈ located 0 body.instructions,
    InstructionWellFormed constants place.1 place.2
  handlerCount : body.handlers.length < 0x10000
  attributes : AttributesWellFormed constants "LineNumberTable".toList encodeLines body.attributes
  lineCounts : ∀ lines ∈ contents body.attributes, lines.length < 0x10000

instance (constants : List Constant) : DecidablePred (WellFormed constants) :=
  fun body => decidable_of_iff' _ (wellFormed_iff constants body)

end CodeBody

/-- What fields and methods start with. -/
structure Header where
  accessFlags : UInt16
  name : UInt16
  descriptor : UInt16

namespace Header

def encode (header : Header) : List UInt8 :=
  half header.accessFlags ++ (half header.name ++ half header.descriptor)

@[mk_iff]
structure WellFormed (constants : List Constant) (header : Header) : Prop where
  name : (nameAt constants header.name).isSome = true
  descriptor : (nameAt constants header.descriptor).isSome = true

instance (constants : List Constant) : DecidablePred (WellFormed constants) :=
  fun header => decidable_of_iff' _ (wellFormed_iff constants header)

def projection (constants : List Constant) (header : Header) : FieldInfo where
  name := (nameAt constants header.name).getD []
  descriptor := (nameAt constants header.descriptor).getD []
  accessFlags := header.accessFlags.toNat

end Header

structure Field where
  header : Header
  attributes : List RawAttribute

namespace Field

def encode (field : Field) : List UInt8 :=
  field.header.encode ++ table RawAttribute.encode field.attributes

@[mk_iff]
structure WellFormed (constants : List Constant) (field : Field) : Prop where
  header : field.header.WellFormed constants
  count : field.attributes.length < 0x10000
  bodies : ∀ item ∈ field.attributes, item.body.length < 0x100000000

instance (constants : List Constant) : DecidablePred (WellFormed constants) :=
  fun field => decidable_of_iff' _ (wellFormed_iff constants field)

end Field

structure Method where
  header : Header
  attributes : List (Attribute CodeBody)

namespace Method

def encode (method : Method) : List UInt8 :=
  method.header.encode ++ attributeTable CodeBody.encode method.attributes

@[mk_iff]
structure WellFormed (constants : List Constant) (method : Method) : Prop where
  header : method.header.WellFormed constants
  attributes : AttributesWellFormed constants "Code".toList CodeBody.encode method.attributes
  bodies : ∀ body ∈ contents method.attributes, body.WellFormed constants

instance (constants : List Constant) : DecidablePred (WellFormed constants) :=
  fun method => decidable_of_iff' _ (wellFormed_iff constants method)

/-- The instructions of a method with their places, none without code. -/
def places (method : Method) : List (Nat × Instruction) :=
  (contents method.attributes).flatMap fun body => located 0 body.instructions

/-- The lines of a method, none without code. -/
def entries (method : Method) : List (Nat × Nat) :=
  (contents method.attributes).flatMap CodeBody.entries

/-- What the class file says about a method. -/
def projection (constants : List Constant) (method : Method) : ParsedMethod where
  name := (nameAt constants method.header.name).getD []
  descriptor := (nameAt constants method.header.descriptor).getD []
  accessFlags := method.header.accessFlags.toNat
  invocations := method.places.filterMap (callOf constants method.entries)
  fieldAccesses := method.places.filterMap (accessOf constants method.entries)
  instantiations := method.places.filterMap (createdBy constants)
  startLine := ((method.entries.map Prod.snd).min?.map Int.ofNat).getD (-1)
  endLine := ((method.entries.map Prod.snd).max?.map Int.ofNat).getD (-1)

end Method

end Members

section Classes

structure ClassFile where
  minorVersion : UInt16
  majorVersion : UInt16
  constants : List Constant
  accessFlags : UInt16
  thisClass : UInt16
  superClass : UInt16
  interfaces : List UInt16
  fields : List Field
  methods : List Method
  /-- The attributes, of which the source file is the one that matters. -/
  attributes : List (Attribute UInt16)

namespace ClassFile

def encode (file : ClassFile) : List UInt8 :=
  bigEndian 4 0xCAFEBABE ++ (half file.minorVersion ++ (half file.majorVersion ++
    (bigEndian 2 (slots file.constants).length ++ (file.constants.flatMap Constant.encode ++
      (half file.accessFlags ++ (half file.thisClass ++ (half file.superClass ++
        (table half file.interfaces ++ (table Field.encode file.fields ++
          (table Method.encode file.methods ++ attributeTable half file.attributes))))))))))

/-- A class file of the format, whose names are made of characters of the basic
plane other than zero. -/
@[mk_iff]
structure WellFormed (file : ClassFile) : Prop where
  slotCount : (slots file.constants).length < 0x10000
  constants : ∀ constant ∈ file.constants, constant.textLength < 0x10000
  thisClass : (classAt file.constants file.thisClass).isSome = true
  /-- Only the root of all classes, and a module, have no superclass. -/
  superClass : file.superClass = 0 ∨ (classAt file.constants file.superClass).isSome = true
  interfaceCount : file.interfaces.length < 0x10000
  interfaces : file.interfaces.all (fun index => (classAt file.constants index).isSome) = true
  fieldCount : file.fields.length < 0x10000
  fields : ∀ field ∈ file.fields, field.WellFormed file.constants
  methodCount : file.methods.length < 0x10000
  methods : ∀ method ∈ file.methods, method.WellFormed file.constants
  attributes : AttributesWellFormed file.constants "SourceFile".toList half file.attributes
  sourceFile :
    (contents file.attributes).all (fun index => (nameAt file.constants index).isSome) = true

instance : DecidablePred WellFormed := fun file => decidable_of_iff' _ (wellFormed_iff file)

/-- What a class file says, references resolved. -/
def projection (file : ClassFile) : ParsedClass where
  name := (classAt file.constants file.thisClass).getD []
  superName := (classAt file.constants file.superClass).getD []
  interfaces := file.interfaces.map fun index => (classAt file.constants index).getD []
  accessFlags := file.accessFlags.toNat
  majorVersion := file.majorVersion.toNat
  sourceFile :=
    (((contents file.attributes).head?.bind (nameAt file.constants))).getD []
  fields := file.fields.map fun field => field.header.projection file.constants
  methods := file.methods.map (Method.projection file.constants)

end ClassFile

end Classes

end GraphIngest.Bytecode.Format
