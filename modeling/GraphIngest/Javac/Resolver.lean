import GraphIngest.Foundation.Dict
import GraphIngest.Foundation.KeyedLog
import GraphIngest.Graph.Record
import Mathlib.Data.Rat.Defs
import Mathlib.Algebra.Order.Ring.Rat

/-! # Calls bound by javac

The compiler runs as a separate program over the source tree; what it writes is
an input here. Its rows name callers and callees by class, method and arity, and
are mapped to the Function nodes of those keys. A run in which too few
invocations could be bound, or no file was attributed, is discarded.
-/

namespace GraphIngest.Javac

open Foundation Text Graph

/-- What the oracle leaves behind: three counts of its statistics block and the
lines of its table. -/
structure OracleOutput where
  invocationsSeen : Int := 0
  resolvedInRepo : Int := 0
  resolvedExternal : Int := 0
  lines : List Str

/-- One bound invocation. -/
structure Row where
  callerClass : Str
  callerMethod : Str
  callerArity : Int
  calleeClass : Str
  calleeMethod : Str
  calleeArity : Int
  file : Str
  line : Int
deriving DecidableEq, Repr

/-- A line of the table: a marker of an attributed file, a row, or neither. -/
inductive Line
  | file (path : Str)
  | row (row : Row)
  | passed
deriving DecidableEq, Repr

/-- The row in the first eight fields, none when a number does not parse. -/
def parseRow : List Str → Option Row
  | callerClass :: callerMethod :: callerArity :: calleeClass :: calleeMethod :: calleeArity ::
      file :: line :: _ =>
      match integer callerArity, integer calleeArity, integer line with
      | some callerArity, some calleeArity, some line =>
          some ⟨callerClass, callerMethod, callerArity, calleeClass, calleeMethod, calleeArity,
            file, line⟩
      | _, _, _ => none
  | _ => none

/-- Read one line. -/
def parseLine (line : Str) : Line :=
  let parts := splitBy '\t' line
  if parts.head? = some "@FILE".toList then
    match parts.tail with
    | [] => .passed
    | path :: _ => if path = [] then .passed else .file path
  else
    match parseRow parts with
    | some row => .row row
    | none => .passed

/-- `_norm_method`: a constructor is named after its class. -/
def normMethod (classFqn method : Str) : Str :=
  if method = "<init>".toList then simpleName classFqn else method

/-- The fqn of a method in the graph. -/
def rowFqn (classFqn method : Str) : Str := classFqn ++ '#' :: normMethod classFqn method

/-- The node of an fqn and an arity: the first Function node listed. -/
def byKey (nodes : List Node) : Dict (Str × Int) NodeId :=
  nodes.foldl (fun table node =>
    if node.label = .function ∧ node.fqn ≠ [] then
      table.setdefault (node.fqn, (node.paramCount : Int)) node.id
    else table) Dict.empty

/-- The edge of a bound invocation. -/
def javacEdge (src dst : NodeId) (row : Row) : Edge where
  type := .calls
  src := src
  dst := dst
  extractor := "javac"
  evidenceFile := row.file
  evidenceLine := row.line
  strategy := "javac_typed"

/-- Map one row to the nodes of its two keys; each pair of nodes is kept once. -/
def emitRow (table : Dict (Str × Int) NodeId) (log : KeyedLog Edge.key) (row : Row) :
    KeyedLog Edge.key :=
  match table.get? (rowFqn row.callerClass row.callerMethod, row.callerArity),
    table.get? (rowFqn row.calleeClass row.calleeMethod, row.calleeArity) with
  | some src, some dst => log.emit (javacEdge src dst row)
  | _, _ => log

/-- What one line adds to the edges. -/
def emitLine (table : Dict (Str × Int) NodeId) (log : KeyedLog Edge.key) (line : Str) :
    KeyedLog Edge.key :=
  match parseLine line with
  | .row row => emitRow table log row
  | _ => log

/-- The files one line marks as attributed, in both spellings. -/
def markedFiles (osSep : Char) (line : Str) : List Str :=
  match parseLine line with
  | .file path => spellings osSep path
  | _ => []

/-- What the pass reports. -/
structure Report where
  available : Bool := false
  attributedFiles : List Str := []
deriving DecidableEq, Repr

/-- Whether too few of the invocations seen could be bound. -/
def rateTooLow (minAttributionRate : ℚ) (oracle : OracleOutput) : Bool :=
  oracle.invocationsSeen ≠ 0 &&
    decide (((oracle.resolvedInRepo + oracle.resolvedExternal : Int) : ℚ) /
      (oracle.invocationsSeen : ℚ) < minAttributionRate)

/-- Map what the oracle wrote, if it ran through, to edges of the graph. -/
def resolveJavaCalls (osSep : Char) (minAttributionRate : ℚ) (nodes : List Node) :
    Option OracleOutput → List Edge × Report
  | none => ([], {})
  | some oracle =>
      let attributed := oracle.lines.flatMap (markedFiles osSep)
      if rateTooLow minAttributionRate oracle || attributed.isEmpty then
        ([], { attributedFiles := attributed })
      else
        ((oracle.lines.foldl (emitLine (byKey nodes)) .empty).entries,
          { available := true, attributedFiles := attributed })

theorem get?_byKey (nodes : List Node) (fqn : Str) (arity : Int) :
    (byKey nodes).get? (fqn, arity) =
      (nodes.find? fun node => decide (node.label = .function ∧ node.fqn ≠ []) &&
        decide ((node.fqn, (node.paramCount : Int)) = (fqn, arity))).map Node.id := by
  have filled := Dict.get?_foldl_setdefault
    (fun node : Node => decide (node.label = .function ∧ node.fqn ≠ []))
    (fun node => (node.fqn, (node.paramCount : Int))) Node.id nodes Dict.empty (fqn, arity)
  simp only [decide_eq_true_eq, Dict.get?_empty, Option.none_or] at filled
  exact filled

/-- An edge made for some row. -/
def Bound (edge : Edge) : Prop := ∃ row, edge = javacEdge edge.src edge.dst row

/-- An edge made for some row, between two nodes found in a table. -/
structure BoundIn (table : Dict (Str × Int) NodeId) (edge : Edge) : Prop where
  bound : Bound edge
  src : ∃ key, table.get? key = some edge.src
  dst : ∃ key, table.get? key = some edge.dst

theorem boundIn_emitLine {table : Dict (Str × Int) NodeId} {log : KeyedLog Edge.key} (line : Str)
    (before : ∀ edge ∈ log.entries, BoundIn table edge) :
    ∀ edge ∈ (emitLine table log line).entries, BoundIn table edge := by
  unfold emitLine
  split
  · next row _ =>
      unfold emitRow
      split
      · next src dst caller callee =>
          intro edge present
          rcases KeyedLog.mem_of_mem_emit present with earlier | rfl
          · exact before edge earlier
          · exact ⟨⟨row, rfl⟩, ⟨_, caller⟩, ⟨_, callee⟩⟩
      · exact before
  · exact before

/-- Every edge of the pass is made for some row, between nodes found by their keys. -/
theorem boundIn_of_mem {osSep : Char} {minAttributionRate : ℚ} {nodes : List Node}
    {oracle : Option OracleOutput} {edge : Edge}
    (member : edge ∈ (resolveJavaCalls osSep minAttributionRate nodes oracle).1) :
    BoundIn (byKey nodes) edge := by
  cases oracle with
  | none => exact (List.not_mem_nil member).elim
  | some oracle =>
      simp only [resolveJavaCalls] at member
      split at member
      · exact (List.not_mem_nil member).elim
      · exact foldl_preserves
          (fun log : KeyedLog Edge.key => ∀ edge ∈ log.entries, BoundIn (byKey nodes) edge)
          oracle.lines (fun _ line _ before => boundIn_emitLine line before) .empty
          (fun _ present => (List.not_mem_nil present).elim) edge member

/-- Every edge of the pass is a compiler-bound call. -/
theorem bound_of_mem {osSep : Char} {minAttributionRate : ℚ} {nodes : List Node}
    {oracle : Option OracleOutput} {edge : Edge}
    (member : edge ∈ (resolveJavaCalls osSep minAttributionRate nodes oracle).1) : Bound edge :=
  (boundIn_of_mem member).bound

/-- A node found by its key is listed. -/
theorem exists_of_byKey {nodes : List Node} {key : Str × Int} {id : NodeId}
    (found : (byKey nodes).get? key = some id) : ∃ node ∈ nodes, node.id = id := by
  rw [get?_byKey, Option.map_eq_some_iff] at found
  obtain ⟨node, first, same⟩ := found
  exact ⟨node, List.mem_of_find?_eq_some first, same⟩

/-- Every edge of the pass joins two of the nodes it was given. -/
theorem ends_of_mem {osSep : Char} {minAttributionRate : ℚ} {nodes : List Node}
    {oracle : Option OracleOutput} {edge : Edge}
    (member : edge ∈ (resolveJavaCalls osSep minAttributionRate nodes oracle).1) :
    (∃ node ∈ nodes, node.id = edge.src) ∧ ∃ node ∈ nodes, node.id = edge.dst := by
  obtain ⟨_, ⟨_, src⟩, ⟨_, dst⟩⟩ := boundIn_of_mem member
  exact ⟨exists_of_byKey src, exists_of_byKey dst⟩

/-- The files of a kept run are those marked by some line. -/
theorem mem_attributedFiles {osSep : Char} {minAttributionRate : ℚ} {nodes : List Node}
    {oracle : OracleOutput} {file : Str} :
    file ∈ (resolveJavaCalls osSep minAttributionRate nodes (some oracle)).2.attributedFiles ↔
      ∃ line ∈ oracle.lines, ∃ path, parseLine line = .file path ∧
        file ∈ spellings osSep path := by
  have same : (resolveJavaCalls osSep minAttributionRate nodes (some oracle)).2.attributedFiles =
      oracle.lines.flatMap (markedFiles osSep) := by
    simp only [resolveJavaCalls]
    split <;> rfl
  rw [same, List.mem_flatMap]
  refine exists_congr fun line => and_congr_right fun _ => ?_
  unfold markedFiles
  cases parseLine line with
  | file path => simp only [Line.file.injEq, exists_eq_left']
  | row row => simp only [List.not_mem_nil, reduceCtorEq, false_and, exists_false]
  | passed => simp only [List.not_mem_nil, reduceCtorEq, false_and, exists_false]

end GraphIngest.Javac
