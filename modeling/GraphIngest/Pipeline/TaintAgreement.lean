import GraphIngest.Bytecode.ExternalFacts
import GraphIngest.Resolve.ExternalFacts
import Mathlib.Data.Char
import Mathlib.Data.List.Lex
import Mathlib.Data.List.Sort

/-! # Two ways to mark a function

The catalogued calls of a function are collected from its compiled body, or from
its references. The two collections are stored by two routines, each with the
categories and the sites sorted. An unknown line is minus one in a compiled
body and zero in a reference, and zero is what both take for no line.
-/

namespace GraphIngest.Pipeline

open Foundation Text Graph External

/-- Lists that are nowhere longer and together as long are everywhere as long. -/
theorem length_eq_of_length_flatMap_eq {α β : Type} {items : List α} {short long : α → List β}
    (below : ∀ item ∈ items, (short item).length ≤ (long item).length)
    (same : (items.flatMap short).length = (items.flatMap long).length) :
    ∀ item ∈ items, (short item).length = (long item).length := by
  induction items with
  | nil => exact fun item listed => (List.not_mem_nil listed).elim
  | cons head rest ih =>
      have tail : ∀ item ∈ rest, (short item).length ≤ (long item).length :=
        fun item later => below item (List.mem_cons_of_mem _ later)
      have first := below head List.mem_cons_self
      have others : (rest.flatMap short).length ≤ (rest.flatMap long).length := by
        clear same ih below first
        induction rest with
        | nil => exact Nat.le_refl _
        | cons next rest ih =>
            have here := tail next List.mem_cons_self
            have later := ih fun item listed => tail item (List.mem_cons_of_mem _ listed)
            rw [List.flatMap_cons, List.flatMap_cons, List.length_append, List.length_append]
            omega
      rw [List.flatMap_cons, List.flatMap_cons, List.length_append, List.length_append] at same
      intro item listed
      cases List.mem_cons.mp listed with
      | inl here =>
          subst here
          omega
      | inr later => exact ih tail (by omega) item later

/-- A call as both paths see it: the full name of the type that owns the method,
and the row the call stands in, where that is known. -/
structure OwnedCall where
  owner : Str
  method : Str
  row : Option Nat
deriving DecidableEq, Repr

namespace OwnedCall

/-- The line of an instruction, minus one when no table covers it. -/
def compiledLine (call : OwnedCall) : Int :=
  match call.row with
  | some row => row + 1
  | none => -1

/-- The line of a reference, zero when it has none. -/
def sourceLine (call : OwnedCall) : Int :=
  match call.row with
  | some row => row + 1
  | none => 0

/-- The call as an instruction of a compiled body. -/
def invocation (call : OwnedCall) : Bytecode.Invocation where
  opcode := .invokevirtual
  owner := call.owner
  name := call.method
  descriptor := []
  line := call.compiledLine

/-- The call as a reference of a function: the type by its simple name. -/
def reference (call : OwnedCall) (caller : NodeId) : RawRef where
  type := .calls
  src := caller
  targetName := call.method
  kindHint := .call
  recvType := afterLast '.' call.owner
  refLine := call.sourceLine

/-- The entry and the positions the catalog has for a call. -/
def entry (catalog : Catalog) (call : OwnedCall) : Option (Entry × List Int) :=
  classifyTaint catalog call.owner call.method

/-- The catalog finds the same by the simple name of the owner. -/
def SimplyNamed (catalog : Catalog) (call : OwnedCall) : Prop :=
  classifyTaint catalog (afterLast '.' call.owner) call.method = call.entry catalog

end OwnedCall

/-- The text of a role. -/
def roleText : Role → Str
  | .source => "source"
  | .sink => "sink"
  | .sanitizer => "sanitizer"

/-- The order of the stored sites. -/
def SiteBefore (site other : TaintSite) : Prop :=
  site.line < other.line ∨ site.line = other.line ∧
    (site.category < other.category ∨ site.category = other.category ∧
      (roleText site.role < roleText other.role ∨ roleText site.role = roleText other.role ∧
        site.positions ≤ other.positions))

instance : DecidableRel SiteBefore := fun _ _ => inferInstanceAs (Decidable (_ ∨ _ ∧ _))

/-- Taint properties as they are stored. -/
def sortedTaint (taint : FunctionTaint) : FunctionTaint :=
  { taint with
    categories := taint.categories.insertionSort fun category other => category ≤ other
    sites := taint.sites.insertionSort SiteBefore }

section Marking

variable (settings : Resolve.Settings) (caller : NodeId) (calls : List OwnedCall)

/-- The marks of the calls of a function, collected from its body. -/
def bytecodeMarks : Bytecode.TaintMarks :=
  calls.foldl (fun marks call => marks.record settings.catalog caller call.invocation) {}

/-- `_apply_taint_marks`, as the node is written. -/
def bytecodeTaint : FunctionTaint :=
  sortedTaint ((bytecodeMarks settings caller calls).stamp caller)

/-- The marks of the calls of a function, collected from its references. -/
def heuristicMarks : Dict NodeId Resolve.ResolverMark :=
  (calls.foldl (fun memo call => Resolve.markCall settings memo (call.reference caller)) {}).marks

/-- `_persist_resolver_taint_marks` and `set_taint_marks`, over a node without
taint properties. -/
def heuristicTaint : FunctionTaint :=
  match (heuristicMarks settings caller calls).get? caller with
  | some mark => sortedTaint (mark.over {})
  | none => {}

/-- Whether the catalog knows a call in a role. -/
def hasRole (role : Role) (call : OwnedCall) : Bool :=
  (call.entry settings.catalog).any fun hit => hit.1.role == role

/-- The categories after a call: that of a sink is put to them. -/
def withCategory (categories : List Str) (call : OwnedCall) : List Str :=
  match call.entry settings.catalog with
  | none => categories
  | some (entry, _) =>
      if entry.role = .sink then categories.insert entry.category else categories

/-- The site of a call at a line, if the catalog knows the call and the line is
not zero. -/
def siteAt (line : Int) (call : OwnedCall) : List TaintSite :=
  match call.entry settings.catalog with
  | none => []
  | some (entry, positions) =>
      if line ≠ 0 then [⟨line, entry.category, entry.role, positions⟩] else []

/-- What a compiled call adds to the properties of its function. -/
def bytecodeStep (taint : FunctionTaint) (call : OwnedCall) : FunctionTaint where
  categories := withCategory settings taint.categories call
  source := taint.source || hasRole settings .source call
  sanitizer := taint.sanitizer || hasRole settings .sanitizer call
  sites := taint.sites ++ siteAt settings call.compiledLine call

/-- What a reference adds to them: nothing says that it sanitizes. -/
def heuristicStep (taint : FunctionTaint) (call : OwnedCall) : FunctionTaint where
  categories := withCategory settings taint.categories call
  source := taint.source || hasRole settings .source call
  sanitizer := taint.sanitizer
  sites := taint.sites ++ siteAt settings call.sourceLine call

variable {settings caller calls}

theorem stamp_record (marks : Bytecode.TaintMarks) (call : OwnedCall) :
    (marks.record settings.catalog caller call.invocation).stamp caller =
      bytecodeStep settings (marks.stamp caller) call := by
  unfold Bytecode.TaintMarks.record bytecodeStep withCategory hasRole siteAt OwnedCall.entry
  simp only [OwnedCall.invocation]
  cases classifyTaint settings.catalog call.owner call.method with
  | none => simp only [Option.any_none, Bool.or_false, List.append_nil]
  | some hit =>
      obtain ⟨entry, positions⟩ := hit
      unfold Bytecode.TaintMarks.stamp
      simp only [Option.any_some, FunctionTaint.mk.injEq]
      refine ⟨?_, ?_, ?_, ?_⟩
      · split
        · simp only [Dict.getD, Dict.get?_set, ↓reduceIte, Option.getD_some]
        · rfl
      · by_cases source : entry.role = .source
        · simp only [source, ↓reduceIte, List.mem_insert_self, decide_true, beq_self_eq_true,
            Bool.or_true]
        · have other : (entry.role == .source) = false := beq_eq_false_iff_ne.mpr source
          simp only [source, ↓reduceIte, other, Bool.or_false]
      · by_cases sanitizer : entry.role = .sanitizer
        · simp only [sanitizer, ↓reduceIte, List.mem_insert_self, decide_true, beq_self_eq_true,
            Bool.or_true]
        · have other : (entry.role == .sanitizer) = false := beq_eq_false_iff_ne.mpr sanitizer
          simp only [sanitizer, ↓reduceIte, other, Bool.or_false]
      · by_cases lined : call.compiledLine = 0
        · simp only [ne_eq, lined, not_true_eq_false, ↓reduceIte, List.append_nil]
        · simp only [ne_eq, lined, not_false_eq_true, ↓reduceIte, Dict.getD_append]

theorem over_markCall {call : OwnedCall} (named : call.SimplyNamed settings.catalog)
    (memo : Resolve.Memo) :
    ((Resolve.markCall settings memo (call.reference caller)).marks.getD caller {}).over {} =
      heuristicStep settings ((memo.marks.getD caller {}).over {}) call := by
  unfold OwnedCall.SimplyNamed at named
  unfold Resolve.markCall heuristicStep withCategory hasRole siteAt
  simp only [OwnedCall.reference, named]
  cases call.entry settings.catalog with
  | none =>
      simp only [Option.any_none, Bool.or_false, List.append_nil]
  | some hit =>
      obtain ⟨entry, positions⟩ := hit
      simp only [Dict.getD, Dict.get?_set, ↓reduceIte, Option.getD_some, Option.any_some,
        Resolve.ResolverMark.over, Resolve.ResolverMark.record, FunctionTaint.mk.injEq, true_and]
      by_cases lined : call.sourceLine ≠ 0
      · rw [if_pos lined, if_pos lined]
      · rw [if_neg lined, if_neg lined, List.append_nil]

/-- **The compiled body**, call by call. -/
theorem bytecodeTaint_eq :
    bytecodeTaint settings caller calls =
      sortedTaint (calls.foldl (bytecodeStep settings) {}) := by
  have collected : ∀ marks : Bytecode.TaintMarks,
      (calls.foldl (fun marks call => marks.record settings.catalog caller call.invocation)
        marks).stamp caller = calls.foldl (bytecodeStep settings) (marks.stamp caller) := by
    induction calls with
    | nil => exact fun _ => rfl
    | cons call rest ih =>
        intro marks
        rw [List.foldl_cons, ih, stamp_record, List.foldl_cons]
  have blank : ({} : Bytecode.TaintMarks).stamp caller = {} := by
    simp only [Bytecode.TaintMarks.stamp, List.not_mem_nil, decide_false]
    rfl
  rw [bytecodeTaint, bytecodeMarks, collected, blank]

/-- **The references**, call by call. -/
theorem heuristicTaint_eq (named : ∀ call ∈ calls, call.SimplyNamed settings.catalog) :
    heuristicTaint settings caller calls =
      sortedTaint (calls.foldl (heuristicStep settings) {}) := by
  have collected : ∀ memo : Resolve.Memo,
      ((calls.foldl (fun memo call => Resolve.markCall settings memo (call.reference caller))
        memo).marks.getD caller {}).over {} =
          calls.foldl (heuristicStep settings) ((memo.marks.getD caller {}).over {}) := by
    induction calls with
    | nil => exact fun _ => rfl
    | cons call rest ih =>
        intro memo
        rw [List.foldl_cons, ih fun other later => named other (List.mem_cons_of_mem _ later),
          over_markCall (named call List.mem_cons_self), List.foldl_cons]
  have stored : heuristicTaint settings caller calls =
      sortedTaint (((heuristicMarks settings caller calls).getD caller {}).over {}) := by
    unfold heuristicTaint Dict.getD
    cases (heuristicMarks settings caller calls).get? caller with
    | none => rfl
    | some mark => rfl
  rw [stored]
  exact congrArg sortedTaint (collected {})

theorem foldl_steps {first second : FunctionTaint}
    (categories : first.categories = second.categories) (source : first.source = second.source) :
    (calls.foldl (bytecodeStep settings) first).categories =
        (calls.foldl (heuristicStep settings) second).categories ∧
      (calls.foldl (bytecodeStep settings) first).source =
        (calls.foldl (heuristicStep settings) second).source := by
  induction calls generalizing first second with
  | nil => exact ⟨categories, source⟩
  | cons call rest ih =>
      apply ih
      · exact congrArg (withCategory settings · call) categories
      · exact congrArg (· || hasRole settings .source call) source

theorem sanitizer_foldl_bytecodeStep (taint : FunctionTaint) :
    (calls.foldl (bytecodeStep settings) taint).sanitizer =
      (taint.sanitizer || calls.any (hasRole settings .sanitizer)) := by
  induction calls generalizing taint with
  | nil => exact (Bool.or_false _).symm
  | cons call rest ih =>
      rw [List.foldl_cons, ih, List.any_cons, ← Bool.or_assoc]
      rfl

theorem sanitizer_foldl_heuristicStep (taint : FunctionTaint) :
    (calls.foldl (heuristicStep settings) taint).sanitizer = taint.sanitizer := by
  apply foldl_frame FunctionTaint.sanitizer
  exact fun _ _ => rfl

theorem sites_foldl_bytecodeStep (taint : FunctionTaint) :
    (calls.foldl (bytecodeStep settings) taint).sites =
      taint.sites ++ calls.flatMap fun call => siteAt settings call.compiledLine call := by
  apply foldl_gathers FunctionTaint.sites
  exact fun _ _ => rfl

theorem sites_foldl_heuristicStep (taint : FunctionTaint) :
    (calls.foldl (heuristicStep settings) taint).sites =
      taint.sites ++
        calls.flatMap fun call => siteAt settings call.sourceLine call := by
  apply foldl_gathers FunctionTaint.sites
  exact fun _ _ => rfl

/-- A compiled call has at least the site of its reference, and the same unless
its line is unknown. -/
theorem length_siteAt (call : OwnedCall) :
    (siteAt settings call.sourceLine call).length ≤
        (siteAt settings call.compiledLine call).length ∧
      ((siteAt settings call.sourceLine call).length =
          (siteAt settings call.compiledLine call).length ↔
        call.entry settings.catalog = none ∨ call.row ≠ none) := by
  unfold siteAt OwnedCall.sourceLine OwnedCall.compiledLine
  cases call.entry settings.catalog with
  | none => simp only [List.length_nil, Nat.le_refl, true_or, and_self]
  | some hit =>
      cases call.row with
      | none => simp
      | some row =>
          have positive : (row : Int) + 1 ≠ 0 := by omega
          simp [positive]

/-- The two sites of a call with a known line are the same. -/
theorem siteAt_of_known {call : OwnedCall} (known : call.row ≠ none) :
    siteAt settings call.compiledLine call = siteAt settings call.sourceLine call := by
  unfold OwnedCall.compiledLine OwnedCall.sourceLine
  cases row : call.row with
  | none => exact (known row).elim
  | some row => rfl

theorem sortedTaint_eq {first second : FunctionTaint}
    (categories : first.categories = second.categories) (source : first.source = second.source) :
    sortedTaint first = sortedTaint second ↔
      first.sanitizer = second.sanitizer ∧
        first.sites.insertionSort SiteBefore = second.sites.insertionSort SiteBefore := by
  simp only [sortedTaint, FunctionTaint.mk.injEq, categories, source, true_and]

/-- **Agreement.** Where the simple names resolve as the full ones, both paths
store the same exactly when no catalogued call is a sanitizer or has an unknown
line. -/
theorem bytecodeTaint_eq_heuristicTaint_iff (settings : Resolve.Settings) (caller : NodeId)
    (calls : List OwnedCall) (named : ∀ call ∈ calls, call.SimplyNamed settings.catalog) :
    bytecodeTaint settings caller calls = heuristicTaint settings caller calls ↔
      ∀ call ∈ calls, ∀ hit ∈ call.entry settings.catalog,
        hit.1.role ≠ .sanitizer ∧ call.row ≠ none := by
  obtain ⟨categories, source⟩ := @foldl_steps settings calls {} {} rfl rfl
  rw [bytecodeTaint_eq, heuristicTaint_eq named, sortedTaint_eq categories source,
    sanitizer_foldl_bytecodeStep, sanitizer_foldl_heuristicStep, sites_foldl_bytecodeStep,
    sites_foldl_heuristicStep, Bool.false_or, List.nil_append, List.nil_append]
  constructor
  · intro ⟨clean, sites⟩ call listed hit found
    constructor
    · intro sanitizer
      apply Bool.eq_false_iff.mp clean
      refine List.any_eq_true.mpr ⟨call, listed, ?_⟩
      rw [hasRole, Option.mem_def.mp found, Option.any_some, sanitizer]
      rfl
    · have lengths := congrArg List.length sites
      rw [List.length_insertionSort, List.length_insertionSort] at lengths
      have each := length_eq_of_length_flatMap_eq
        (fun call _ => (@length_siteAt settings call).1) lengths.symm call listed
      cases (length_siteAt call).2.mp each with
      | inl unknown =>
          rw [Option.mem_def.mp found] at unknown
          cases unknown
      | inr known => exact known
  · intro plain
    constructor
    · apply List.any_eq_false.mpr
      intro call listed
      rw [hasRole]
      cases found : call.entry settings.catalog with
      | none => exact Bool.false_ne_true
      | some hit =>
          rw [Option.any_some, beq_iff_eq]
          exact (plain call listed hit found).1
    · apply congrArg
      apply List.flatMap_congr
      intro call listed
      cases found : call.entry settings.catalog with
      | none => simp only [siteAt, found]
      | some hit => exact siteAt_of_known (plain call listed hit found).2

/-- A catalog of one owner, by both its names. -/
def oneOwner (role : Role) : Resolve.Settings where
  repo := []
  makeId := Resolve.spelledId
  nameCap := 0
  catalog :=
    { java := Dict.empty.set ['a', '.', 'E'] ⟨role, ['c'], Dict.empty.set ['m'] [0]⟩
      bySimpleName := Dict.empty.set ['E'] ⟨role, ['c'], Dict.empty.set ['m'] [0]⟩ }
  skipCallFiles := []

/-- Two calls of a sink at known lines agree. -/
theorem bytecodeTaint_eq_heuristicTaint_iff_sinks :
    let calls : List OwnedCall :=
      [⟨['a', '.', 'E'], ['m'], some 7⟩, ⟨['a', '.', 'E'], ['m'], some 3⟩]
    (∀ call ∈ calls, call.SimplyNamed (oneOwner .sink).catalog) ∧
      (bytecodeTaint (oneOwner .sink) ⟨['f'], List.cons_ne_nil _ _⟩ calls =
          heuristicTaint (oneOwner .sink) ⟨['f'], List.cons_ne_nil _ _⟩ calls ↔
        ∀ call ∈ calls, ∀ hit ∈ call.entry (oneOwner .sink).catalog,
          hit.1.role ≠ .sanitizer ∧ call.row ≠ none) := by
  have named : ∀ call ∈ ([⟨['a', '.', 'E'], ['m'], some 7⟩, ⟨['a', '.', 'E'], ['m'], some 3⟩] :
      List OwnedCall), call.SimplyNamed (oneOwner .sink).catalog := by
    intro call listed
    simp only [List.mem_cons, List.not_mem_nil, or_false] at listed
    cases listed with
    | inl first => rw [first]; rfl
    | inr second => rw [second]; rfl
  exact ⟨named, bytecodeTaint_eq_heuristicTaint_iff _ _ _ named⟩

/-- A call of a sanitizer sets the flag on one path only. -/
theorem sanitizer_disagrees : ¬ ∀ (settings : Resolve.Settings) (caller : NodeId)
    (calls : List OwnedCall), (∀ call ∈ calls, call.SimplyNamed settings.catalog) →
      bytecodeTaint settings caller calls = heuristicTaint settings caller calls := by
  intro agree
  have named : ∀ call ∈ ([⟨['a', '.', 'E'], ['m'], some 7⟩] : List OwnedCall),
      call.SimplyNamed (oneOwner .sanitizer).catalog := by
    intro call listed
    rw [List.mem_singleton.mp listed]
    rfl
  have same := congrArg FunctionTaint.sanitizer
    (agree (oneOwner .sanitizer) ⟨['f'], List.cons_ne_nil _ _⟩ _ named)
  revert same
  decide +kernel

end Marking

end GraphIngest.Pipeline
