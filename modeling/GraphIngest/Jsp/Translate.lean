import GraphIngest.Jsp.Markup

/-! # The Java text of a page

A page becomes a Java compilation unit: its imports, its declarations as members of a
class, its beans, scriptlets and expressions as the body of one method. Each text is
emitted line by line, and for every line emitted the line of the page is kept.
-/

namespace GraphIngest.Jsp

open Foundation Text

/-- A text to emit with the page line it is emitted for: a part of the page with what is put
around it. Where that part comes from is not kept by the translation. -/
structure Piece where
  lead : Str := []
  own : Str
  tail : Str := []
  line : Nat
  origin : Option Nat := none
deriving DecidableEq, Repr

def Piece.text (piece : Piece) : Str := piece.lead ++ piece.own ++ piece.tail

/-- What has been emitted: the lines, and the page line of each by its number. -/
structure Emitted where
  out : List Str := []
  lineMap : Dict Nat Nat := Dict.empty

/-- One line. -/
def Emitted.add (jspLine : Nat) (emitted : Emitted) (chunk : Str × Nat) : Emitted where
  out := emitted.out ++ [chunk.1]
  lineMap := emitted.lineMap.set (emitted.out.length + 1) (max 1 (jspLine + chunk.2))

/-- `emit`. -/
def emit (emitted : Emitted) (piece : Piece) : Emitted :=
  (splitBy '\n' piece.text).zipIdx.foldl (Emitted.add piece.line) emitted

/-- What the segments of a page give. -/
structure Collected where
  imports : List (Str × Nat) := []
  includes : List (Str × Nat × IncludeKind) := []
  taglibs : List (Str × Str × Nat) := []
  declarations : List Piece := []
  body : List Piece := []
  scriptletLines : Nat := 0

/-- The page parts that a directive names. -/
def directive (letters : Letters) (collected : Collected) (segment : Segment) : Collected :=
  let directive := strip segment.body
  let attrs := attrs letters directive
  let low := lower directive
  if "page".toList.isPrefixOf low then
    let specs := (splitBy ',' (attrs.getD "import".toList [])).map strip
    { collected with
      imports := collected.imports ++
        (specs.filter fun spec => spec ≠ []).map fun spec => (spec, segment.line) }
  else if "include".toList.isPrefixOf low then
    let target := attrs.getD "file".toList []
    if target ≠ [] then
      { collected with includes := collected.includes ++ [(target, segment.line, .static)] }
    else collected
  else if "taglib".toList.isPrefixOf low then
    { collected with
      taglibs := collected.taglibs ++
        [(attrs.getD "prefix".toList [], attrs.getD "uri".toList [], segment.line)] }
  else collected

/-- A body emitted as it is. -/
def verbatim (segment : Segment) : Piece :=
  { own := segment.body, line := segment.line, origin := some segment.place }

/-- The white space in front of an expression. -/
def leadingSpace (body : Str) : Str := body.takeWhile isSpace

/-- An expression that is emitted: it is not blank and no statement. -/
def Printed (body : Str) : Prop := strip body ≠ [] ∧ ';' ∉ strip body

instance (body : Str) : Decidable (Printed body) := inferInstanceAs (Decidable (_ ∧ _))

/-- An expression in a call that prints it. -/
def printed (segment : Segment) : Piece where
  lead := "_jspx_out.print(".toList
  own := strip segment.body
  tail := ");".toList
  line := segment.line
  origin := some (segment.place + (leadingSpace segment.body).length)

/-- One segment. -/
def collect (letters : Letters) (collected : Collected) (segment : Segment) : Collected :=
  match segment.kind with
  | .comment => collected
  | .directive => directive letters collected segment
  | .declaration =>
      { collected with
        declarations := collected.declarations ++ [verbatim segment]
        scriptletLines := collected.scriptletLines + (segment.body.count '\n' + 1) }
  | .scriptlet =>
      { collected with
        body := collected.body ++ [verbatim segment]
        scriptletLines := collected.scriptletLines + (segment.body.count '\n' + 1) }
  | .expression =>
      if Printed segment.body then { collected with body := collected.body ++ [printed segment] }
      else collected

/-- What the segments of a page give, from left to right. -/
def collected (letters : Letters) (source : Str) : Collected :=
  (scan source).foldl (collect letters) {}

/-- A line that the page does not have. -/
def scaffold (text : Str) (jspLine : Nat) : Piece := { own := text, line := jspLine }

/-- The texts to emit, in their order. -/
def pieces (letters : Letters) (source relpath : Str) : List Piece :=
  let identity := classIdentity relpath
  let parts := collected letters source
  let beans := (actions letters source parts.includes).beans
  (if identity.1 ≠ [] then [scaffold ("package ".toList ++ identity.1 ++ [';']) 1] else []) ++
    parts.imports.map (fun spec => scaffold ("import ".toList ++ spec.1 ++ [';']) spec.2) ++
    [scaffold ("public class ".toList ++ identity.2 ++ " \x7b".toList) 1] ++
    parts.declarations ++
    [scaffold "  public void _jspService() \x7b".toList 1] ++
    (beans.filter fun bean => bean.1 ≠ [] ∧ bean.2.1 ≠ []).map (fun bean =>
      scaffold ("    ".toList ++ bean.2.1 ++ [' '] ++ bean.1 ++ " = new ".toList ++ bean.2.1 ++
        "();".toList) bean.2.2) ++
    parts.body ++
    [scaffold "  \x7d".toList 1, scaffold "\x7d".toList 1]

/-- A translated page. -/
structure JspTranslation where
  javaSource : Str
  lineMap : Dict Nat Nat
  imports : List (Str × Nat)
  includes : List (Str × Nat × IncludeKind)
  beans : List (Str × Str × Nat)
  taglibs : List (Str × Str × Nat)
  scripts : List (Str × Nat)
  elCalls : List ElCall
  elExpressions : Nat
  scriptletLines : Nat

/-- `translate`. -/
def translate (letters : Letters) (source relpath : Str) : JspTranslation :=
  let parts := collected letters source
  let actions := actions letters source parts.includes
  let emitted := (pieces letters source relpath).foldl emit {}
  { javaSource := ['\n'].intercalate emitted.out
    lineMap := emitted.lineMap
    imports := parts.imports
    includes := actions.includes
    beans := actions.beans
    taglibs := parts.taglibs
    scripts := scripts letters source
    elCalls := elCalls letters source actions.beans
    elExpressions := (elRe.findIter source).length
    scriptletLines := parts.scriptletLines }

section Passages

/-- A part of the page in the Java text: where it comes from, where it stands now. -/
structure Passage where
  origin : Nat
  place : Nat
  own : Str
deriving DecidableEq, Repr

/-- The parts of the page in texts emitted from a place on. -/
def passagesFrom : Nat → List Piece → List Passage
  | _, [] => []
  | place, piece :: rest =>
      (piece.origin.map fun origin => ⟨origin, place + piece.lead.length, piece.own⟩).toList ++
        passagesFrom (place + piece.text.length + 1) rest

/-- The declarations, scriptlets and expressions in the Java text of a page. -/
def passages (letters : Letters) (source relpath : Str) : List Passage :=
  passagesFrom 0 (pieces letters source relpath)

end Passages

end GraphIngest.Jsp
