import GraphIngest.Bytecode.LineTables

/-! # The class-file round trip

The bytes of a well-formed class file are parsed into exactly what the class
file says: its names, flags, interfaces, fields and methods, and of each method
the lines, calls, field accesses and created classes of its code.
-/

namespace GraphIngest.Bytecode.Format

open Foundation Text Reader

section Members

variable {constants : List Constant}

theorem decodes_parseField {field : Field} (wellFormed : field.WellFormed constants) :
    Decodes (parseField (poolOf constants)) field.encode (field.header.projection constants) := by
  rw [parseField, Field.encode]
  refine (decodes_parseHeader wellFormed.header).bind ?_
  exact (decodes_skipAttributes wellFormed.count wellFormed.bodies).bind_nil (Decodes.pure _)

/-- A single line table has all the lines. -/
theorem lastEntries_eq {method : Method} (wellFormed : method.WellFormed constants) :
    method.lastEntries = method.entries :=
  List.flatMap_congr fun body listed =>
    CodeBody.lastEntries_of_wellFormed (wellFormed.bodies body listed)

/-- **Methods.** -/
theorem decodes_parseMethod {method : Method} (wellFormed : method.WellFormed constants) :
    Decodes (parseMethod (poolOf constants)) method.encode (method.projection constants) := by
  rw [Method.projection_eq, ← lastEntries_eq wellFormed]
  exact Method.decodes_parseMethod wellFormed.tabled

end Members

section Classes

theorem chunk_half (number : UInt16) : chunk (half number) 0 2 = .ok (half number) := by
  have whole : StandsAt (half number) (half number) 0 := ⟨[], [], List.append_nil _, rfl⟩
  exact chunk_of_stands whole

/-- The source file is read from its attribute. -/
theorem sourceFileOf_eq {file : ClassFile} (wellFormed : file.WellFormed)
    {found : Dict Str (List UInt8)}
    (lookup : found.get? "SourceFile".toList = (contents file.attributes).head?.map half) :
    sourceFileOf (poolOf file.constants) found = .ok file.projection.sourceFile := by
  rw [sourceFileOf, lookup, ClassFile.projection]
  cases known : contents file.attributes with
  | nil => rfl
  | cons index rest =>
      have named := List.all_eq_true.mp wellFormed.sourceFile index
        (by rw [known]; exact List.mem_cons_self)
      change (chunk (half index) 0 2 >>= fun index =>
        (poolOf file.constants).utf8 (ofBigEndian index)) = _
      rw [chunk_half]
      change (poolOf file.constants).utf8 (ofBigEndian (half index)) = _
      rw [ofBigEndian_half]
      exact utf8_of_nameAt (getD_of_isSome named [])

/-- The superclass is read, and index `0` as none. -/
theorem className_superClass {file : ClassFile} (wellFormed : file.WellFormed) :
    (poolOf file.constants).className file.superClass.toNat = .ok file.projection.superName := by
  obtain missing | found := wellFormed.superClass
  · rw [ClassFile.projection, missing]
    rfl
  · exact className_of_classAt (getD_of_isSome found [])

theorem decodes_parseBody {file : ClassFile} (wellFormed : file.WellFormed) :
    Decodes parseBody
      (half file.minorVersion ++ (half file.majorVersion ++
        (bigEndian 2 (slots file.constants).length ++ (file.constants.flatMap Constant.encode ++
          (half file.accessFlags ++ (half file.thisClass ++ (half file.superClass ++
            (table half file.interfaces ++ (table Field.encode file.fields ++
              (table Method.encode file.methods ++ attributeTable half file.attributes))))))))))
      file.projection := by
  obtain ⟨found, reads, lookup⟩ := decodes_findAttributes wellFormed.attributes
  have named := className_of_classAt (getD_of_isSome wellFormed.thisClass [])
  have interfaces : ∀ index ∈ file.interfaces, Decodes (do
      (poolOf file.constants).className (← u2)) (half index)
      ((classAt file.constants index).getD []) := fun index member =>
    (decodes_half index).bind_nil (Decodes.lifted
      (className_of_classAt
        (getD_of_isSome (List.all_eq_true.mp wellFormed.interfaces index member) [])))
  have fields := decodes_table wellFormed.fieldCount fun field member =>
    decodes_parseField (wellFormed.fields field member)
  have methods := decodes_table wellFormed.methodCount fun method member =>
    decodes_parseMethod (wellFormed.methods method member)
  rw [parseBody]
  refine (decodes_half _).bind ((decodes_half _).bind ((decodes_u2 wellFormed.slotCount).bind ?_))
  refine (decodes_parseConstantPool wellFormed.constants).bind ((decodes_half _).bind ?_)
  refine (decodes_half _).bind (Decodes.lift named ?_)
  refine (decodes_half _).bind (Decodes.lift (className_superClass wellFormed) ?_)
  rw [table, List.append_assoc]
  refine (decodes_u2 wellFormed.interfaceCount).bind ((Decodes.times interfaces).bind ?_)
  refine fields.bind (methods.bind (reads.bind_nil ?_))
  exact Decodes.lift (sourceFileOf_eq wellFormed lookup) (Decodes.pure _)

/-- A class file is parsed into what it says, whatever stands behind it. -/
theorem parseClass_append {file : ClassFile} (wellFormed : file.WellFormed) (rest : List UInt8) :
    parseClass (file.encode ++ rest) = .ok file.projection := by
  have same : ¬ (0xCAFEBABE : Nat) ≠ classMagic := not_not_intro rfl
  have whole : Decodes (do if (← u4) ≠ classMagic then throw .badMagic else parseBody)
      file.encode file.projection := by
    rw [ClassFile.encode]
    refine (decodes_u4 (by decide)).bind ?_
    rw [if_neg same]
    exact decodes_parseBody wellFormed
  exact whole.runOn rest

/-- Every well-formed class file under a directory reaches the pass, whatever
stands beside it. -/
theorem mem_iterClassSources {roots : List ClassSource} {files : List (Str × List UInt8)}
    {path : Str} {file : ClassFile} (wellFormed : file.WellFormed)
    (root : .directory files ∈ roots) {rest : List UInt8}
    (listed : (path, file.encode ++ rest) ∈ files)
    (isClass : ".class".toList.isSuffixOf path = true) :
    file.projection.info ∈ iterClassSources roots := by
  have parsed : (path, file.projection) ∈ iterClassFiles files := by
    refine List.mem_filterMap.mpr ⟨_, listed, ?_⟩
    rw [if_pos isClass, parseClass_append wellFormed]
    rfl
  refine List.mem_map_of_mem (List.mem_flatMap.mpr ⟨_, root, ?_⟩)
  exact List.mem_map_of_mem parsed

/-- A class with one method that calls itself, reads a field and switches; behind
the constant at index `3` there is none. -/
def sampleClass : ClassFile where
  minorVersion := 0
  majorVersion := 52
  constants := [textConstant "a/B", .classInfo 1, .long 7, textConstant "m", textConstant "()V",
    .nameAndType 5 6, .methodref 2 7, textConstant "Code", textConstant "LineNumberTable",
    .fieldref 2 7]
  accessFlags := 0x21
  thisClass := 2
  superClass := 0
  interfaces := []
  fields := [⟨⟨2, 5, 6⟩, [⟨5, [1, 2, 3]⟩]⟩]
  methods := [⟨⟨1, 5, 6⟩, [.other ⟨5, [0]⟩, .known 9 {
    maxStack := 1
    maxLocals := 1
    instructions := [.invoke .invokevirtual 8 [], .access .getfield 11,
      .tableswitch [0] 0 0 0 [9], .plain 0xb1 []]
    handlers := [⟨0, 3, 3, 0⟩]
    attributes := [.known 10 [(3, 5), (0, 4)]] }]⟩]
  attributes := [.other ⟨6, []⟩]

/-- **Round trip.** The bytes of a well-formed class file are parsed into what
the class file says. -/
theorem parseClass_encode (file : ClassFile) (wellFormed : file.WellFormed) :
    parseClass file.encode = .ok file.projection := by
  have read := parseClass_append wellFormed []
  rwa [List.append_nil] at read

/-- The sample class is parsed into what it says. -/
theorem parseClass_sampleClass : parseClass sampleClass.encode = .ok sampleClass.projection :=
  parseClass_encode sampleClass (by decide +kernel)

end Classes

end GraphIngest.Bytecode.Format
