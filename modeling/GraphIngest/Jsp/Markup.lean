import GraphIngest.Foundation.Dict
import GraphIngest.Foundation.Matching
import GraphIngest.Jsp.Scan

/-! # The markup of a page

What a page says outside of its segments: the actions with their attributes, the
scripts it loads and the properties its expressions read; and the Java names that a
page is given.
-/

namespace GraphIngest.Jsp

open Foundation Text

/-- The letters of `\w` and upper case, as the text tables of the runtime have them. -/
structure Letters where
  word : Char → Bool
  upper : Char → Str

section Patterns

open Pattern

variable (letters : Letters)

def isSpace (letter : Char) : Bool := inRanges spaceRanges letter

/-- Letters that are the same where case is ignored. -/
def sameLetter (own letter : Char) : Bool :=
  letter.toLower == own.toLower ||
    own.toLower == 'i' && (letter.toNat == 0x130 || letter.toNat == 0x131) ||
    own.toLower == 's' && letter.toNat == 0x17F || own.toLower == 'k' && letter.toNat == 0x212A

/-- A word where case is ignored. -/
def caseless (text : Str) : Pattern Char := inOrder (text.map fun own => letter (sameLetter own))

/-- A text in quotes. -/
def quoted (quote : Char) : Pattern Char :=
  inOrder [letter (· == quote), many (· != quote), letter (· == quote)]

/-- An equals sign with white space around it. -/
def equals : Pattern Char := inOrder [many isSpace, letter (· == '='), many isSpace]

/-- `_ATTR_RE`. -/
def attrRe : Pattern Char :=
  inOrder
    [group (seq (letter letters.word)
      (many fun letter => letters.word letter || letter == ':' || letter == '-')),
     equals, group (either (quoted '"') (quoted '\''))]

/-- `_JSP_ACTION_RE`. -/
def jspActionRe : Pattern Char :=
  inOrder
    [caseless "<jsp:".toList,
     group (anyOf (caseless "include".toList)
      [caseless "forward".toList, caseless "useBean".toList,
       caseless "directive.include".toList]),
     boundary letters.word, group (many (· != '>')), optional (· == '/'), letter (· == '>')]

/-- `_EL_RE`. -/
def elRe : Pattern Char :=
  inOrder [letter fun letter => letter == '$' || letter == '#', letter (· == '{'),
    group (many (· != '}')), letter (· == '}')]

/-- `_EL_PROPERTY_RE`. -/
def elPropertyRe : Pattern Char :=
  inOrder [boundary letters.word, group (several letters.word), letter (· == '.'),
    group (several letters.word)]

/-- `_SCRIPT_SRC_RE`. -/
def scriptSrcRe : Pattern Char :=
  inOrder
    [letter (· == '<'), many isSpace, caseless "script".toList, boundary letters.word,
     few (· != '>'), boundary letters.word, caseless "src".toList, equals,
     group (anyOf (quoted '"')
      [quoted '\'', several fun letter => !isSpace letter && letter != '>'])]

/-- A letter, a digit or an underscore. -/
def isIdent (letter : Char) : Bool := letter.isAlphanum || letter == '_'

/-- `_JS_FILE_RE`. -/
def jsFileRe : Pattern Char :=
  inOrder
    [group (inOrder [letter isIdent, many fun letter => isIdent letter || letter == '.' ||
      letter == '-', word ".js".toList]),
     boundary letters.word]

/-- `_attrs`. -/
def attrs (raw : Str) : Dict Str Str :=
  ((attrRe letters).findIter raw).foldl (fun dict found =>
    dict.set (lower (found.group raw 1)) ((found.group raw 2).drop 1).dropLast) Dict.empty

end Patterns

section Names

/-- `_IDENT_SAFE_RE`, replaced by underscores. -/
def identSafe (text : Str) : Str := text.map fun letter => if isIdent letter then letter else '_'

/-- A name that does not begin with a digit. -/
def legal (name : Str) : Str :=
  match name with
  | [] => []
  | first :: rest => if isdigit [first] then '_' :: first :: rest else first :: rest

/-- The directory and the file name of a path. -/
def splitPath (path : Str) : Str × Str :=
  match rpartition '/' path with
  | none => ([], path)
  | some (front, filename) =>
      let head := front ++ ['/']
      (if head.all (· == '/') then head else (head.reverse.dropWhile (· == '/')).reverse, filename)

/-- A file name without its extension. -/
def withoutExtension (filename : Str) : Str :=
  match rpartition '.' filename with
  | none => filename
  | some (front, _) => if front.all (· == '.') then filename else front

/-- The part of a package for a directory. -/
def packagePart (segment : Str) : List Str :=
  if segment = [] ∨ segment = ".".toList ∨ segment = "..".toList then []
  else
    let safe := legal (identSafe segment)
    if safe = [] then [] else [safe]

/-- `_class_identity`: the package and the class of a page. -/
def classIdentity (relpath : Str) : Str × Str :=
  let split := splitPath (replaceLetter '\\' '/' relpath)
  (['.'].intercalate ((splitBy '/' split.1).flatMap packagePart),
    legal (identSafe (withoutExtension split.2) ++ "_jsp".toList))

end Names

section Actions

variable (letters : Letters)

/-- How a page includes another. -/
inductive IncludeKind
  | static | dynamic | forward
deriving DecidableEq, Repr

/-- What the actions of a page say: the pages it includes and the beans it uses. -/
structure Actions where
  includes : List (Str × Nat × IncludeKind) := []
  beans : List (Str × Str × Nat) := []

/-- An attribute that is there and not empty, another one where it is not. -/
def firstFilled (attrs : Dict Str Str) (first second : Str) : Str :=
  if attrs.getD first [] ≠ [] then attrs.getD first [] else attrs.getD second []

/-- One action. -/
def addAction (source : Str) (actions : Actions) (found : Match) : Actions :=
  let action := lower (found.group source 1)
  let attrs := attrs letters (found.group source 2)
  let jspLine := lineAt source found.start
  if action = "include".toList ∨ action = "directive.include".toList then
    let target := firstFilled attrs "page".toList "file".toList
    if target ≠ [] then
      { actions with includes := actions.includes ++ [(target, jspLine, .dynamic)] }
    else actions
  else if action = "forward".toList then
    let target := attrs.getD "page".toList []
    if target ≠ [] then
      { actions with includes := actions.includes ++ [(target, jspLine, .forward)] }
    else actions
  else if action = "usebean".toList then
    let cls := firstFilled attrs "class".toList "type".toList
    if cls ≠ [] then
      { actions with beans := actions.beans ++ [(attrs.getD "id".toList [], cls, jspLine)] }
    else actions
  else actions

/-- The actions of a page. -/
def actions (source : Str) (includes : List (Str × Nat × IncludeKind)) : Actions :=
  ((jspActionRe letters).findIter source).foldl (addAction letters source) ⟨includes, []⟩

/-- The scripts of a page with their lines, each one once. -/
def scripts (source : Str) : List (Str × Nat) :=
  ((scriptSrcRe letters).findIter source).foldl (fun scripts found =>
    let attr := stripWhile (fun letter => letter == '"' || letter == '\'') (found.group source 1)
    ((jsFileRe letters).findIter attr).foldl (fun scripts named =>
      let jsName := named.group attr 1
      if jsName ∈ scripts.map Prod.fst then scripts
      else scripts ++ [(jsName, lineAt source found.start)]) scripts) []

/-- A getter that an expression calls: the bean, the simple name of its class, the method and
the line. -/
structure ElCall where
  receiver : Str
  cls : Str
  getter : Str
  line : Nat
deriving DecidableEq, Repr

/-- The getters that the expressions of a page call on its beans. -/
def elCalls (source : Str) (beans : List (Str × Str × Nat)) : List ElCall :=
  let beanTypes := beans.foldl (fun types bean =>
    if bean.1 ≠ [] then types.set bean.1 bean.2.1 else types) (Dict.empty : Dict Str Str)
  (elRe.findIter source).flatMap fun found =>
    let inner := found.group source 1
    ((elPropertyRe letters).findIter inner).flatMap fun property =>
      let cls := beanTypes.getD (property.group inner 1) []
      match property.group inner 2 with
      | [] => []
      | first :: rest =>
          if cls = [] then []
          else
            [⟨property.group inner 1, simpleName (beforeFirst '<' cls),
              "get".toList ++ letters.upper first ++ rest, lineAt source found.start⟩]

end Actions

end GraphIngest.Jsp
