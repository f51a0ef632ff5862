import GraphIngest.Text

/-! # Parsed class files

The shapes the class-file parser hands over (classes, methods, call and field
instructions), the predicates read off access flags and names, and the reading
of method descriptors. The descriptor reader is a three-state machine over the
letters behind the opening parenthesis.
-/

namespace GraphIngest.Bytecode

open Foundation Text

/-- The instructions that call a method. -/
inductive InvokeOp
  | invokevirtual | invokespecial | invokestatic | invokeinterface | invokedynamic
deriving DecidableEq, Repr

/-- The instructions that access a field. -/
inductive FieldOp
  | getstatic | putstatic | getfield | putfield
deriving DecidableEq, Repr

/-- One call instruction; the owner is a dotted binary name, empty for
`invokedynamic`, and the line is `-1` when no table covers it. -/
structure Invocation where
  opcode : InvokeOp
  owner : Str
  name : Str
  descriptor : Str
  line : Int := -1
deriving DecidableEq, Repr

/-- One field access, with the class named by the instruction. -/
structure FieldAccess where
  opcode : FieldOp
  owner : Str
  name : Str
  descriptor : Str
  line : Int := -1
deriving DecidableEq, Repr

def FieldAccess.isRead (access : FieldAccess) : Bool :=
  access.opcode == .getfield || access.opcode == .getstatic

/-- `ACC_PRIVATE`. -/
def accPrivate : Nat := 0x0002

/-- `ACC_STATIC`. -/
def accStatic : Nat := 0x0008

/-- `ACC_BRIDGE`. -/
def accBridge : Nat := 0x0040

/-- `ACC_SYNTHETIC`. -/
def accSynthetic : Nat := 0x1000

/-- A parsed method; the line range is `-1` when it has no line table. -/
structure MethodInfo where
  name : Str
  descriptor : Str
  accessFlags : Nat := 0
  invocations : List Invocation := []
  fieldAccesses : List FieldAccess := []
  startLine : Int := -1
  endLine : Int := -1
deriving DecidableEq, Repr

namespace MethodInfo

/-- Whether an access flag is set. -/
def hasFlag (method : MethodInfo) (flag : Nat) : Bool := method.accessFlags &&& flag != 0

/-- A static method. -/
def isStatic (method : MethodInfo) : Bool := method.hasFlag accStatic

/-- A private method. -/
def isPrivate (method : MethodInfo) : Bool := method.hasFlag accPrivate

/-- A method without a source counterpart, by its flag. -/
def isSynthetic (method : MethodInfo) : Bool := method.hasFlag accSynthetic

/-- A covariant-return forwarder. -/
def isBridge (method : MethodInfo) : Bool := method.hasFlag accBridge

def isConstructor (method : MethodInfo) : Bool := method.name == "<init>".toList

/-- A static initializer. -/
def isClassInitializer (method : MethodInfo) : Bool := method.name == "<clinit>".toList

/-- A lambda body, lifted out of its method by the compiler. -/
def isLambdaBody (method : MethodInfo) : Bool := "lambda$".toList.isPrefixOf method.name

/-- Whether the line table gave a first line. -/
def hasLineNumbers (method : MethodInfo) : Bool := 0 < method.startLine

end MethodInfo

/-- A parsed class; names are dotted binary names, with `$` between a class and
the classes nested in it. -/
structure ClassInfo where
  name : Str
  superName : Str := []
  interfaces : List Str := []
  methods : List MethodInfo := []
deriving DecidableEq, Repr

namespace ClassInfo

/-- The class in front of the last `$`, empty when there is none. -/
def outerName (info : ClassInfo) : Str :=
  if '$' ∈ info.name then beforeLast '$' info.name else []

/-- An anonymous class: digits only behind the last `$`. -/
def isAnonymous (info : ClassInfo) : Bool :=
  isdigit (if '$' ∈ info.name then afterLast '$' info.name else [])

end ClassInfo

section Descriptors

/-- Where the descriptor reader stands: between parameters, behind array
brackets, or inside a class name. -/
inductive ParamState
  | between | inArray | inObject
deriving DecidableEq, Repr

/-- Read parameter descriptors up to the closing parenthesis or the end of the
text; `taken` holds the letters of the parameter being read. There is no result
when the text ends inside a parameter. -/
def readParams : ParamState → Str → Str → Option (List Str)
  | .between, _, [] => some []
  | .between, _, letter :: rest =>
      if letter = ')' then some []
      else if letter = '[' then readParams .inArray [letter] rest
      else if letter = 'L' then readParams .inObject [letter] rest
      else (readParams .between [] rest).map ([letter] :: ·)
  | .inArray, _, [] => none
  | .inArray, taken, letter :: rest =>
      if letter = '[' then readParams .inArray (taken ++ [letter]) rest
      else if letter = 'L' then readParams .inObject (taken ++ [letter]) rest
      else (readParams .between [] rest).map ((taken ++ [letter]) :: ·)
  | .inObject, _, [] => none
  | .inObject, taken, letter :: rest =>
      if letter = ';' then (readParams .between [] rest).map ((taken ++ [letter]) :: ·)
      else readParams .inObject (taken ++ [letter]) rest

/-- The parameter descriptors of a method descriptor, none when it is malformed. -/
def descriptorParamTypes (descriptor : Str) : Option (List Str) :=
  match descriptor.dropWhile fun letter => letter != '(' with
  | [] => none
  | _ :: rest => readParams .between [] rest

/-- The primitive types and `void` by their descriptor letter. -/
def primitiveName : Str → Option Str
  | ['B'] => some "byte"
  | ['C'] => some "char"
  | ['D'] => some "double"
  | ['F'] => some "float"
  | ['I'] => some "int"
  | ['J'] => some "long"
  | ['S'] => some "short"
  | ['Z'] => some "boolean"
  | ['V'] => some "void"
  | _ => none

/-- The dotted name of a descriptor without array brackets. -/
def baseTypeName (descriptor : Str) : Str :=
  if descriptor.head? = some 'L' ∧ descriptor.getLast? = some ';' then
    replaceLetter '/' '.' descriptor.tail.dropLast
  else (primitiveName descriptor).getD descriptor

/-- A type descriptor as a dotted type, one `[]` for each array dimension. -/
def typeName : Str → Str
  | '[' :: rest => typeName rest ++ ['[', ']']
  | descriptor => baseTypeName descriptor

/-- The letters behind the last closing parenthesis: the return descriptor. -/
def returnDescriptor (descriptor : Str) : Str := afterLast ')' descriptor

example : descriptorParamTypes "(JLjava/lang/String;[I)V" =
    some ["J".toList, "Ljava/lang/String;".toList, "[I".toList] := by decide

example : typeName "[[Ljava/lang/String;" = "java.lang.String[][]".toList := by decide

end Descriptors

end GraphIngest.Bytecode
