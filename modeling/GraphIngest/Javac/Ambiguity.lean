import GraphIngest.Javac.Resolver

/-! # Overloads of one arity

The rows of the compiler name a method by class, name and arity, without its
parameter types, and the table of nodes keeps the first Function node of each
such key. A row about one of several overloads of the same arity is bound to the
first of them, whichever the compiler meant. The bindings are unambiguous exactly
when no row that can be bound names such a method.
-/

namespace GraphIngest.Javac

open Foundation Text Graph

/-- The key of a row's caller. -/
def Row.callerKey (row : Row) : Str × Int :=
  (rowFqn row.callerClass row.callerMethod, row.callerArity)

/-- The key of a row's callee. -/
def Row.calleeKey (row : Row) : Str × Int :=
  (rowFqn row.calleeClass row.calleeMethod, row.calleeArity)

/-- The rows of a table, in order. -/
def rowsOf (lines : List Str) : List Row :=
  lines.filterMap fun line =>
    match parseLine line with
    | .row row => some row
    | _ => none

/-- The rows that are mapped: those of a run that is kept. -/
def keptRows (osSep : Char) (minAttributionRate : ℚ) : Option OracleOutput → List Row
  | none => []
  | some oracle =>
      if rateTooLow minAttributionRate oracle ||
          (oracle.lines.flatMap (markedFiles osSep)).isEmpty then []
      else rowsOf oracle.lines

/-- A Function node of this key. -/
def Bears (key : Str × Int) (node : Node) : Prop :=
  node.label = .function ∧ (node.fqn, (node.paramCount : Int)) = key

instance (key : Str × Int) : DecidablePred (Bears key) := fun _ =>
  inferInstanceAs (Decidable (_ ∧ _))

/-- No two Function nodes have this key. -/
def Unshared (nodes : List Node) (key : Str × Int) : Prop :=
  ∀ first ∈ nodes, ∀ second ∈ nodes, Bears key first → Bears key second → first.id = second.id

instance (nodes : List Node) (key : Str × Int) : Decidable (Unshared nodes key) :=
  inferInstanceAs (Decidable (∀ first ∈ nodes, ∀ second ∈ nodes, _))

/-- Every edge joins nodes that share their keys with no other Function node, and
a row that names one of several overloads yields no edge between nodes of its keys. -/
structure Unambiguous (nodes : List Node) (rows : List Row) (edges : List Edge) : Prop where
  ends : ∀ edge ∈ edges, ∃ caller ∈ nodes, ∃ callee ∈ nodes,
    caller.id = edge.src ∧ callee.id = edge.dst ∧
      caller.label = .function ∧ Unshared nodes (caller.fqn, caller.paramCount) ∧
      callee.label = .function ∧ Unshared nodes (callee.fqn, callee.paramCount)
  overloads : ∀ row ∈ rows, ¬ (Unshared nodes row.callerKey ∧ Unshared nodes row.calleeKey) →
    ∀ caller ∈ nodes, ∀ callee ∈ nodes, Bears row.callerKey caller → Bears row.calleeKey callee →
      ∀ edge ∈ edges, ¬ (edge.src = caller.id ∧ edge.dst = callee.id)

/-- No row both of whose methods have Function nodes names one of several
overloads of one arity. -/
def RowsUnshared (nodes : List Node) (rows : List Row) : Prop :=
  ∀ row ∈ rows, (∃ caller ∈ nodes, Bears row.callerKey caller) →
    (∃ callee ∈ nodes, Bears row.calleeKey callee) →
      Unshared nodes row.callerKey ∧ Unshared nodes row.calleeKey

section Table

variable {nodes : List Node} {key : Str × Int} {id : NodeId}

theorem rowFqn_ne_nil (classFqn method : Str) : rowFqn classFqn method ≠ [] := by
  intro empty
  have length := congrArg List.length empty
  rw [rowFqn, List.length_append, List.length_cons, List.length_nil] at length
  omega

/-- What the table has for the key of a method is a node of that key. -/
theorem bears_of_byKey {classFqn method : Str} {arity : Int}
    (found : (byKey nodes).get? (rowFqn classFqn method, arity) = some id) :
    ∃ node ∈ nodes, Bears (rowFqn classFqn method, arity) node ∧ node.id = id := by
  rw [get?_byKey, Option.map_eq_some_iff] at found
  obtain ⟨node, first, same⟩ := found
  have holds := List.find?_some first
  rw [Bool.and_eq_true, decide_eq_true_eq, decide_eq_true_eq] at holds
  exact ⟨node, List.mem_of_find?_eq_some first, ⟨holds.1.1, holds.2⟩, same⟩

/-- The table has a node for every key of a method that some node bears. -/
theorem byKey_of_bears {classFqn method : Str} {arity : Int} {node : Node} (listed : node ∈ nodes)
    (bears : Bears (rowFqn classFqn method, arity) node) :
    ∃ id, (byKey nodes).get? (rowFqn classFqn method, arity) = some id := by
  have named : node.fqn ≠ [] := by
    rw [(Prod.mk.inj bears.2).1]
    exact rowFqn_ne_nil classFqn method
  apply Option.isSome_iff_exists.mp
  rw [get?_byKey, Option.isSome_map, List.find?_isSome]
  refine ⟨node, listed, ?_⟩
  rw [Bool.and_eq_true, decide_eq_true_eq, decide_eq_true_eq]
  exact ⟨⟨bears.1, named⟩, bears.2⟩

end Table

section Rows

variable {nodes : List Node} {src dst : NodeId}

theorem mem_rowsOf {lines : List Str} {row : Row} :
    row ∈ rowsOf lines ↔ ∃ line ∈ lines, parseLine line = .row row := by
  rw [rowsOf, List.mem_filterMap]
  refine exists_congr fun line => and_congr_right fun _ => ?_
  cases parseLine line with
  | file path => simp only [reduceCtorEq]
  | row other => simp only [Option.some.injEq, Line.row.injEq]
  | passed => simp only [reduceCtorEq]

/-- One line adds the edge of the row in it, when both its keys are in the table. -/
theorem has_emitLine {table : Dict (Str × Int) NodeId} (log : KeyedLog Edge.key) (line : Str) :
    (emitLine table log line).Has (.calls, src, dst) ↔
      log.Has (.calls, src, dst) ∨ ∃ row, parseLine line = .row row ∧
        table.get? row.callerKey = some src ∧ table.get? row.calleeKey = some dst := by
  unfold emitLine
  cases parseLine line with
  | file path => simp only [reduceCtorEq, false_and, exists_false, or_false]
  | passed => simp only [reduceCtorEq, false_and, exists_false, or_false]
  | row row =>
      simp only [Line.row.injEq, exists_eq_left']
      unfold emitRow
      split
      · next caller callee foundCaller foundCallee =>
          rw [KeyedLog.has_emit, Row.callerKey, Row.calleeKey, foundCaller, foundCallee]
          simp only [Edge.key, javacEdge, Prod.mk.injEq, true_and, Option.some.injEq]
      · next missing =>
          refine (or_iff_left fun both => ?_).symm
          exact missing src dst both.1 both.2

/-- A run has an edge between two nodes exactly when a kept row has them for its
two keys. -/
theorem exists_edge_iff {osSep : Char} {minAttributionRate : ℚ} {oracle : Option OracleOutput} :
    (∃ edge ∈ (resolveJavaCalls osSep minAttributionRate nodes oracle).1,
        edge.src = src ∧ edge.dst = dst) ↔
      ∃ row ∈ keptRows osSep minAttributionRate oracle,
        (byKey nodes).get? row.callerKey = some src ∧
          (byKey nodes).get? row.calleeKey = some dst := by
  cases oracle with
  | none => simp only [resolveJavaCalls, keptRows, List.not_mem_nil, false_and, exists_false]
  | some oracle =>
      simp only [resolveJavaCalls, keptRows]
      split
      · simp only [List.not_mem_nil, false_and, exists_false]
      · have logged := foldl_iff (fun log : KeyedLog Edge.key => log.Has (.calls, src, dst))
          (@has_emitLine src dst (byKey nodes)) oracle.lines .empty
        have bound : ∀ edge ∈ (oracle.lines.foldl (emitLine (byKey nodes)) .empty).entries,
            BoundIn (byKey nodes) edge :=
          foldl_preserves
            (fun log : KeyedLog Edge.key => ∀ edge ∈ log.entries, BoundIn (byKey nodes) edge)
            oracle.lines (fun _ line _ before => boundIn_emitLine line before) .empty
            (fun _ present => (List.not_mem_nil present).elim)
        have named : (∃ edge ∈ (oracle.lines.foldl (emitLine (byKey nodes)) .empty).entries,
            edge.src = src ∧ edge.dst = dst) ↔
            (oracle.lines.foldl (emitLine (byKey nodes)) .empty).Has (.calls, src, dst) := by
          refine exists_congr fun edge => and_congr_right fun member => ?_
          obtain ⟨row, made⟩ := (bound edge member).bound
          have isCall : edge.type = .calls := congrArg Edge.type made
          rw [Edge.key, isCall, Prod.mk.injEq, Prod.mk.injEq]
          exact (and_iff_right rfl).symm
        rw [named, logged]
        simp only [KeyedLog.not_has_empty, false_or, mem_rowsOf]
        constructor
        · intro found
          obtain ⟨line, member, row, parsed, keys⟩ := found
          exact ⟨row, ⟨line, member, parsed⟩, keys⟩
        · intro found
          obtain ⟨row, ⟨line, member, parsed⟩, keys⟩ := found
          exact ⟨line, member, row, parsed, keys⟩

/-- **Overloads.** The bindings are unambiguous exactly when no kept row that can
be bound names one of several overloads of one arity. -/
theorem unambiguous_iff (osSep : Char) (minAttributionRate : ℚ) (nodes : List Node)
    (oracle : Option OracleOutput) :
    Unambiguous nodes (keptRows osSep minAttributionRate oracle)
        (resolveJavaCalls osSep minAttributionRate nodes oracle).1 ↔
      RowsUnshared nodes (keptRows osSep minAttributionRate oracle) := by
  constructor
  · intro unambiguous row kept callers callees
    obtain ⟨caller, listedCaller, bearsCaller⟩ := callers
    obtain ⟨callee, listedCallee, bearsCallee⟩ := callees
    obtain ⟨src, foundSrc⟩ := byKey_of_bears listedCaller bearsCaller
    obtain ⟨dst, foundDst⟩ := byKey_of_bears listedCallee bearsCallee
    obtain ⟨edge, present, sameSrc, sameDst⟩ := exists_edge_iff.mpr ⟨row, kept, foundSrc, foundDst⟩
    obtain ⟨first, listedFirst, bearsFirst, rfl⟩ := bears_of_byKey foundSrc
    obtain ⟨second, listedSecond, bearsSecond, rfl⟩ := bears_of_byKey foundDst
    by_contra shared
    exact unambiguous.overloads row kept shared first listedFirst second listedSecond bearsFirst
      bearsSecond edge present ⟨sameSrc, sameDst⟩
  · intro unshared
    refine ⟨fun edge present => ?_, fun row kept shared caller listedCaller callee listedCallee
      bearsCaller bearsCallee => ?_⟩
    · obtain ⟨row, kept, foundSrc, foundDst⟩ := exists_edge_iff.mp ⟨edge, present, rfl, rfl⟩
      obtain ⟨caller, listedCaller, bearsCaller, sameSrc⟩ := bears_of_byKey foundSrc
      obtain ⟨callee, listedCallee, bearsCallee, sameDst⟩ := bears_of_byKey foundDst
      obtain ⟨soleCaller, soleCallee⟩ := unshared row kept ⟨caller, listedCaller, bearsCaller⟩
        ⟨callee, listedCallee, bearsCallee⟩
      refine ⟨caller, listedCaller, callee, listedCallee, sameSrc, sameDst, bearsCaller.1, ?_,
        bearsCallee.1, ?_⟩
      · rw [bearsCaller.2]
        exact soleCaller
      · rw [bearsCallee.2]
        exact soleCallee
    · exact absurd (unshared row kept ⟨caller, listedCaller, bearsCaller⟩
        ⟨callee, listedCallee, bearsCallee⟩) shared

end Rows

section Overloads

/-- A caller, and two overloads of one name and one arity. -/
def overloadNodes : List Node :=
  [{ id := ⟨['r'], List.cons_ne_nil 'r' []⟩, label := .function, name := ['r'],
     fqn := ['A', '#', 'r'], repo := [] },
   { id := ⟨['i'], List.cons_ne_nil 'i' []⟩, label := .function, name := ['f'],
     fqn := ['A', '#', 'f'], repo := [], paramCount := 1, paramTypes := [['i', 'n', 't']] },
   { id := ⟨['l'], List.cons_ne_nil 'l' []⟩, label := .function, name := ['f'],
     fqn := ['A', '#', 'f'], repo := [], paramCount := 1, paramTypes := [['l', 'o', 'n', 'g']] }]

/-- The compiler's row for the call of either of them. -/
def overloadOutput : OracleOutput where
  lines := ["@FILE\tA.java".toList, "A\tr\t0\tA\tf\t1\tA.java\t3".toList]

/-- The row is bound to the overload that is listed first. -/
theorem not_unambiguous :
    ¬ ∀ (osSep : Char) (minAttributionRate : ℚ) (nodes : List Node)
        (oracle : Option OracleOutput),
      Unambiguous nodes (keptRows osSep minAttributionRate oracle)
        (resolveJavaCalls osSep minAttributionRate nodes oracle).1 := by
  intro all
  have unambiguous := all '/' 0 overloadNodes (some overloadOutput)
  have edges : (resolveJavaCalls '/' 0 overloadNodes (some overloadOutput)).1 =
      [javacEdge ⟨['r'], List.cons_ne_nil 'r' []⟩ ⟨['i'], List.cons_ne_nil 'i' []⟩
        ⟨['A'], ['r'], 0, ['A'], ['f'], 1, "A.java".toList, 3⟩] := by
    decide +kernel
  have row : ⟨['A'], ['r'], 0, ['A'], ['f'], 1, "A.java".toList, 3⟩ ∈
      keptRows '/' 0 (some overloadOutput) := by
    decide +kernel
  rw [edges] at unambiguous
  exact unambiguous.overloads _ row (by decide) (overloadNodes.get ⟨0, by decide⟩) (by decide)
    (overloadNodes.get ⟨1, by decide⟩) (by decide) (by decide) (by decide) _
    List.mem_cons_self ⟨rfl, rfl⟩

end Overloads

end GraphIngest.Javac
