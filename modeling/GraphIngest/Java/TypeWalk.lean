import GraphIngest.Java.SyntaxTree

/-! # The walk through the types of a Java file

The extractor goes from the top of the file into every type declaration and from there
into what stands directly in its body. It emits the node of each type, method and field
with the CONTAINS edge from the type around, and the references of the types to their
annotations and supertypes. Routes, policies, events, the types in signatures and what
bodies do are left out: they bring other references, and Endpoint nodes with their
EXPOSES edges.
-/

namespace GraphIngest.Java

open Foundation Text Graph

/-- What the extractor is told of a file: the hash that makes node ids out of repository,
fqn and kind, the repository and the path. -/
structure SourceFile where
  makeId : Str → Str → Str → NodeId
  repo : Str
  relpath : Str

/-- One thing emitted. -/
inductive Emission
  | node (node : Node)
  | edge (edge : Edge)
  | ref (ref : RawRef)
deriving DecidableEq

/-- The nodes among the emissions. -/
def nodesOf (emitted : List Emission) : List Node :=
  emitted.filterMap fun emission => match emission with
    | .node node => some node
    | _ => none

/-- The edges among the emissions. -/
def edgesOf (emitted : List Emission) : List Edge :=
  emitted.filterMap fun emission => match emission with
    | .edge edge => some edge
    | _ => none

/-- The references among the emissions. -/
def refsOf (emitted : List Emission) : List RawRef :=
  emitted.filterMap fun emission => match emission with
    | .ref ref => some ref
    | _ => none

/-- `EXTRACTOR`. -/
def extractorName : Str := "tree-sitter"

/-- `_TYPE_DECLS`, with the kind a node gets. -/
def typeDecl? : Kind → Option NodeKind
  | .classDeclaration => some .cls
  | .interfaceDeclaration => some .interface
  | .enumDeclaration => some .enum
  | .recordDeclaration => some .record
  | _ => none

/-- The word of a kind. -/
def kindWord : NodeKind → Str
  | .cls => "class"
  | .interface => "interface"
  | .enum => "enum"
  | .record => "record"
  | _ => []

section Parts

/-- A visibility among the modifiers. -/
def visibility? : Kind → Option Visibility
  | .other word =>
      if word = "public".toList then some .public
      else if word = "private".toList then some .private
      else if word = "protected".toList then some .protected
      else none
  | _ => none

/-- `_MODIFIER_KEYWORDS`. -/
def modifierKeywords : List Str :=
  ["static", "final", "abstract", "synchronized", "native", "transient", "volatile", "default",
    "sealed", "strictfp"]

/-- What `modifiers_of` returns. -/
structure Modifiers where
  visibility : Visibility := .package
  keywords : List Str := []
  annotations : List Str := []
deriving DecidableEq

/-- One token of the modifiers. -/
def Modifiers.take (modifiers : Modifiers) (token : Tree) : Modifiers :=
  match visibility? token.kind with
  | some visibility => { modifiers with visibility }
  | none =>
      match token.kind with
      | .other word =>
          if word ∈ modifierKeywords then
            { modifiers with keywords := modifiers.keywords ++ [word] }
          else modifiers
      | Kind.annotation | Kind.markerAnnotation =>
          match token.childByField .name with
          | some name =>
              { modifiers with
                annotations := modifiers.annotations ++ [simpleTypeName name.text] }
          | none => modifiers
      | _ => modifiers

/-- `modifiers_of`. -/
def modifiersOf (tree : Tree) : Modifiers :=
  ((tree.children.filter fun child => child.kind = .modifiers).flatMap Tree.children).foldl
    Modifiers.take {}

/-- The formal parameters. -/
def formals (parameters : Option Tree) : List Tree :=
  (parameters.map Tree.children).getD [] |>.filter fun child =>
    child.kind = .formalParameter || child.kind = .spreadParameter

/-- The simple name of the type in a field, empty where there is none. -/
def fieldType (tree : Tree) : Str :=
  ((tree.childByField .type).map fun type => simpleTypeName type.text).getD []

/-- The type of a parameter in `_params`. -/
def paramType (param : Tree) : Str :=
  let type := fieldType param
  if param.kind = .spreadParameter ∧ type ≠ [] then type ++ ['.', '.', '.'] else type

end Parts

section Walk

variable (file : SourceFile)

/-- `contains`. -/
def containsEdge (container : NodeId) (child : Tree) (childId : NodeId) : Edge :=
  extractedEdge extractorName file.relpath .contains container childId child.start

/-- `ref`, as far as annotations and supertypes go. -/
def typeRef (type : EdgeType) (src : NodeId) (target : Str) (hint : KindHint) (tree : Tree) :
    RawRef where
  type := type
  src := src
  targetName := target
  kindHint := hint
  refFile := file.relpath
  refLine := tree.start.line
  refCol := tree.start.col

/-- The fqn of a type. -/
def typeFqn (parentFqn name : Str) : Str :=
  if parentFqn = [] then name else parentFqn ++ '.' :: name

/-- The references to the types in a clause. -/
def clauseRefs (type : EdgeType) (id : NodeId) (clause : Option Tree) : List RawRef :=
  (clause.map fun tree =>
    (typesIn tree).map fun name => typeRef file type id name .type tree).getD []

/-- The references of a type to its supertypes. -/
def supertypeRefs (tree : Tree) (id : NodeId) : List RawRef :=
  clauseRefs file .extends id (tree.childByField .superclass) ++
    clauseRefs file .implements id (tree.childByField .interfaces)

/-- The node of a type. -/
def typeNode (tree : Tree) (kind : NodeKind) (name fqn : Str) : Node where
  id := file.makeId file.repo fqn (kindWord kind)
  label := .cls
  name := name
  fqn := fqn
  repo := file.repo
  kind := kind
  lang := .java
  file := file.relpath
  startLine := tree.start.line
  endLine := tree.lastLine
  visibility := (modifiersOf tree).visibility
  isAbstract := (modifiersOf tree).keywords.contains "abstract".toList
  isStatic := (modifiersOf tree).keywords.contains "static".toList
  extractor := extractorName

/-- The name of a method: a constructor without one is called like its class. -/
def methodName (tree : Tree) (classFqn : Str) : Str :=
  match tree.childByField .name with
  | some name => name.text
  | none => if tree.kind = .constructorDeclaration then simpleName classFqn else "<anon>"

/-- The parameters as they are written. -/
def paramsText (tree : Tree) : Str :=
  ((tree.childByField .parameters).map Tree.text).getD "()"

/-- The id of a method. -/
def methodId (tree : Tree) (classFqn : Str) : NodeId :=
  file.makeId file.repo (classFqn ++ '#' :: methodName tree classFqn ++ paramsText tree) "method"

/-- The node of a method. -/
def methodNode (tree : Tree) (classFqn : Str) : Node where
  id := methodId file tree classFqn
  label := .function
  name := methodName tree classFqn
  fqn := classFqn ++ '#' :: methodName tree classFqn
  repo := file.repo
  kind := if tree.kind = .constructorDeclaration then .constructor else .method
  lang := .java
  file := file.relpath
  startLine := tree.start.line
  endLine := tree.lastLine
  visibility := (modifiersOf tree).visibility
  isStatic := (modifiersOf tree).keywords.contains "static".toList
  isAbstract := (modifiersOf tree).keywords.contains "abstract".toList
  returnType := fieldType tree
  paramCount := (formals (tree.childByField .parameters)).length
  paramTypes := (formals (tree.childByField .parameters)).map paramType
  signature := methodName tree classFqn ++ paramsText tree
  extractor := extractorName

/-- `walk_method`. -/
def walkMethod (tree : Tree) (classFqn : Str) (classId : NodeId) : List Emission :=
  .node (methodNode file tree classFqn) ::
  .edge (containsEdge file classId tree (methodId file tree classFqn)) ::
  (modifiersOf tree).annotations.map fun annotation =>
    .ref (typeRef file .annotatedWith (methodId file tree classFqn) annotation
      KindHint.annotation tree)

/-- The names of the variables that a field declaration declares. -/
def declaratorNames (tree : Tree) : List Str :=
  (tree.children.filter fun child => child.kind = .variableDeclarator).filterMap fun child =>
    (child.childByField .name).map Tree.text

/-- The id of a field. -/
def fieldId (classFqn name : Str) : NodeId :=
  file.makeId file.repo (classFqn ++ '.' :: name) "field"

/-- The node of a field. -/
def fieldNode (tree : Tree) (classFqn name : Str) : Node where
  id := fieldId file classFqn name
  label := .field
  name := name
  fqn := classFqn ++ '.' :: name
  repo := file.repo
  kind := .field
  lang := .java
  file := file.relpath
  startLine := tree.start.line
  endLine := tree.lastLine
  visibility := (modifiersOf tree).visibility
  isStatic := (modifiersOf tree).keywords.contains "static".toList
  returnType := fieldType tree
  extractor := extractorName

/-- `walk_field`. -/
def walkField (tree : Tree) (classFqn : Str) (classId : NodeId) : List Emission :=
  (declaratorNames tree).flatMap fun name =>
    [.node (fieldNode file tree classFqn name),
      .edge (containsEdge file classId tree (fieldId file classFqn name))]

/-- What stands in the body of a declaration. -/
def members (tree : Tree) : List Tree := ((tree.childByField .body).map Tree.children).getD []

theorem sizeOf_lt_of_mem_members {tree child : Tree} (member : child ∈ members tree) :
    sizeOf child < sizeOf tree := by
  unfold members at member
  cases found : tree.childByField .body with
  | none =>
      rw [found] at member
      cases member
  | some body =>
      rw [found] at member
      have inner := Tree.sizeOf_lt_of_mem_children member
      have outer := Tree.sizeOf_lt_of_mem_children (Tree.mem_children_of_childByField found)
      omega

/-- What a type emits in front of its members. -/
def typeHeader (tree : Tree) (kind : NodeKind) (name fqn : Str) (container : NodeId) :
    List Emission :=
  let node := typeNode file tree kind name fqn
  .node node :: .edge (containsEdge file container tree node.id) ::
    ((modifiersOf tree).annotations.map fun annotation =>
      typeRef file .annotatedWith node.id annotation KindHint.annotation tree).map .ref ++
    (supertypeRefs file tree node.id).map .ref

/-- `walk_type`, for a node of the kind of a declaration. -/
def walkType (tree : Tree) (parentFqn : Str) (container : NodeId) : List Emission :=
  match typeDecl? tree.kind, tree.childByField .name with
  | some kind, some nameNode =>
      let fqn := typeFqn parentFqn nameNode.text
      let id := file.makeId file.repo fqn (kindWord kind)
      typeHeader file tree kind nameNode.text fqn container ++
        (members tree).attach.flatMap fun member =>
          match member.1.kind with
          | .methodDeclaration | .constructorDeclaration => walkMethod file member.1 fqn id
          | .fieldDeclaration => walkField file member.1 fqn id
          | _ =>
              if (typeDecl? member.1.kind).isSome then walkType member.1 fqn id else []
  | _, _ => []
termination_by sizeOf tree
decreasing_by exact sizeOf_lt_of_mem_members member.2

/-- The package of a file. -/
def packageOf (root : Tree) : Str :=
  ((root.children.filter fun child => child.kind = .packageDeclaration).flatMap fun child =>
    child.children.filter fun part =>
      part.kind = .scopedIdentifier || part.kind = .identifier).foldl (fun _ part => part.text) []

/-- The id of the file. -/
def fileId : NodeId := file.makeId file.repo file.relpath "file"

/-- The node of the file. -/
def fileNode (root : Tree) : Node where
  id := fileId file
  label := .file
  name := afterLast '/' file.relpath
  fqn := file.relpath
  repo := file.repo
  kind := .none
  lang := .java
  file := file.relpath
  package := packageOf root
  startLine := 1
  endLine := root.lastLine
  extractor := extractorName

/-- `extract`. -/
def extract (root : Tree) : List Emission :=
  .node (fileNode file root) ::
    (root.children.filter fun child => (typeDecl? child.kind).isSome).flatMap fun child =>
      walkType file child (packageOf root) (fileId file)

end Walk

section Samples

theorem sampleId_ne_nil (repo fqn kind : Str) :
    '#' :: (repo ++ '|' :: kind ++ '|' :: fqn) ≠ [] :=
  List.cons_ne_nil _ _

/-- A file of sample trees, with a readable stand-in for the hash. -/
def sampleFile : SourceFile where
  makeId repo fqn kind :=
    ⟨'#' :: (repo ++ '|' :: kind ++ '|' :: fqn), sampleId_ne_nil repo fqn kind⟩
  repo := "demo"
  relpath := "A.java"

/-- A node of a sample tree. -/
def sampleTree (field : Option Field) (kind : Kind) (text : Str) (children : List Tree) : Tree :=
  .node field kind text ⟨1, 0⟩ 1 children

end Samples

end GraphIngest.Java
