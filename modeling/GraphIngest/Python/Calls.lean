import GraphIngest.Python.Walk
import Mathlib.Data.List.Perm.Subperm

/-! # The calls of a Python file

A call in a function is looked for in the body of the function, short of the definitions in it,
and the definitions that stand in the body themselves are gone through on their own. No call is
seen twice that way: the references are those of different calls of the file.
-/

namespace GraphIngest.Python

open Foundation Text Graph

/-- A call as its reference tells it: the name, where the callee begins, the number of arguments. -/
structure CallSite where
  name : Str
  line : Int
  col : Int
  arity : Int
deriving DecidableEq

section Sites

/-- The site of a call whose callee has a name. -/
def callSite (node : Tree) : Option CallSite :=
  if kindOf node = .call then
    ((childByField node .function).filter fun function => dottedTail function ≠ []).map
      fun function =>
        { name := dottedTail function
          line := function.label.start.line
          col := function.label.start.col
          arity := callArity node }
  else none

/-- The sites of the calls in a tree. -/
def sitesBelow (tree : Tree) : List CallSite := tree.all.filterMap callSite

/-- The site of a `CALLS` reference. -/
def refSite (ref : RawRef) : Option CallSite :=
  if ref.type = .calls then
    some { name := ref.targetName, line := ref.refLine, col := ref.refCol, arity := ref.callArity }
  else none

/-- The sites that a request brings, a field aside. -/
def Request.sites : Request → List CallSite
  | .refer ref => (refSite ref).toList
  | _ => []

end Sites

section Below

theorem sitesBelow_eq (tree : Tree) :
    sitesBelow tree = (callSite tree).toList ++ tree.children.flatMap sitesBelow := by
  rw [sitesBelow, Rose.all_eq, List.filterMap_cons, List.filterMap_flatMap]
  cases callSite tree <;> rfl

theorem sitesBelow_sublist {tree child : Tree} (member : child ∈ tree.children) :
    (sitesBelow child).Sublist (sitesBelow tree) :=
  (Rose.all_sublist_of_mem member).filterMap callSite

/-- The calls in the scope of a body and those of the definitions that stand in it are different
calls of the body. -/
theorem scope_append_subperm (body : Tree) :
    ((scopeNodes body).filterMap callSite ++
      (body.children.filter isDefinition).flatMap sitesBelow).Subperm (sitesBelow body) := by
  have top : (body.placed.map Prod.snd) = body.children := by
    rw [Rose.placed, List.map_map]
    exact List.map_id _
  have outer : (body.children.filter isDefinition).Sublist
      (Rose.outermost isDefinition body.placed) := by
    rw [← top]
    exact Rose.filter_sublist_outermost body.placed
  have everything := (Rose.within_append_outermost_perm isDefinition body.placed).filterMap callSite
  rw [List.filterMap_append, List.filterMap_flatMap, List.filterMap_flatMap, Rose.placed,
    List.flatMap_map] at everything
  rw [sitesBelow_eq]
  refine .trans ?_ (List.sublist_append_right _ _).subperm
  exact ((outer.flatMap _).append_left _).subperm.trans everything.subperm

end Below

section Brought

variable {file : SourceFile}

/-- The sites that a list of requests brings. -/
def sitesOf (requests : List Request) : List CallSite := requests.flatMap Request.sites

theorem sitesOf_append (front back : List Request) :
    sitesOf (front ++ back) = sitesOf front ++ sitesOf back := List.flatMap_append

/-- Where no calls are allowed there are none. -/
theorem sitesOf_eq_nil (stateful shared : Prop) (id container : NodeId)
    {requests : List Request}
    (own : ∀ request ∈ requests, request.Local False stateful shared id container) :
    sitesOf requests = [] := by
  refine List.flatMap_eq_nil_iff.mpr fun request listed => ?_
  cases request with
  | declare | expose | field => rfl
  | refer ref =>
      have other : ¬ ref.type = .calls := (own _ listed).2.1
      rw [Request.sites, refSite, if_neg other]
      rfl

/-- A call brings its own site. -/
theorem sitesOf_callRequests (id : NodeId) (types : Dict Str Str) {call : Tree}
    (kind : kindOf call = .call) :
    sitesOf (file.callRequests id types call) = (callSite call).toList := by
  unfold SourceFile.callRequests callSite
  rw [if_pos kind]
  cases childByField call .function with
  | none => rfl
  | some function =>
      have event : ∀ (type : EdgeType) (names : List Str), type ∉ bodyTypes →
          sitesOf (if eventTopic names call = [] then []
            else [file.refer type id (eventTopic names call) .other function]) = [] := by
        intro type names plain
        split
        · rfl
        · exact sitesOf_eq_nil False False id id
            (List.forall_mem_singleton.mpr (local_refer plain _ _ _))
      have asked : sitesOf ((outboundCall call).toList.map fun asked =>
          file.emitApiCall id asked.1 asked.2 function) = [] :=
        sitesOf_eq_nil False False id id
          (List.forall_mem_map.mpr fun asked _ => local_emitApiCall _ _ _)
      have reference : sitesOf ((file.callReference id types call function).toList.map .refer) =
          (((some function).filter fun function => dottedTail function ≠ []).map fun function =>
            ({ name := dottedTail function
               line := function.label.start.line
               col := function.label.start.col
               arity := callArity call } : CallSite)).toList := by
        unfold SourceFile.callReference
        by_cases named : dottedTail function = []
        · rw [if_pos named, Option.filter_some, if_neg (by simpa using named)]
          rfl
        · rw [if_neg named, Option.filter_some, if_pos (by simpa using named)]
          rfl
      simp only [sitesOf_append, event .emitsEvent _ (by decide),
        event .consumesEvent _ (by decide), asked, reference, List.append_nil]

theorem sitesOf_classRequests (node : Tree) (name fqn : Str) (container : NodeId)
    (decos : List (Str × Tree)) :
    sitesOf (file.classRequests node name fqn container decos) = [] := by
  obtain ⟨own, made, each⟩ := local_classRequests file container node name fqn decos
  rw [made]
  change sitesOf own = []
  exact sitesOf_eq_nil False False _ _ each

theorem sitesOf_functionRequests (node : Tree) (name fqn : Str) (container : NodeId)
    (inClass : Bool) (decos : List (Str × Tree)) :
    sitesOf (file.functionRequests node name fqn container inClass decos) = [] := by
  obtain ⟨own, made, each⟩ := local_functionRequests file container node name fqn inClass decos
  rw [made]
  change sitesOf own = []
  exact sitesOf_eq_nil False False _ _ each

theorem sitesOf_bodyRequests (globals : List Str) (body : Tree) (id : NodeId) (parentFqn : Str)
    (container : NodeId) (inClass : Bool) :
    sitesOf (file.bodyRequests globals body id parentFqn container inClass) =
      (scopeNodes body).filterMap callSite := by
  have calls : sitesOf ((callsInScope body).flatMap
      (file.callRequests id (localReceiverTypes body))) = (scopeNodes body).filterMap callSite := by
    rw [sitesOf, List.flatMap_assoc, callsInScope]
    induction scopeNodes body with
    | nil => rfl
    | cons node rest ih =>
        rw [List.filterMap_cons, ← ih]
        by_cases kind : kindOf node = .call
        · rw [List.filter_cons_of_pos (by simpa using kind), List.flatMap_cons]
          have here : (file.callRequests id (localReceiverTypes body) node).flatMap Request.sites =
              (callSite node).toList := sitesOf_callRequests id (localReceiverTypes body) kind
          rw [here]
          cases callSite node <;> rfl
        · rw [List.filter_cons_of_neg (by simpa using kind), callSite, if_neg kind]
  have state :
      sitesOf (if inClass then file.emitState body id parentFqn container else []) = [] := by
    split
    · exact sitesOf_eq_nil True True id container (local_emitState trivial body parentFqn)
    · rfl
  have exceptions : sitesOf (file.emitExceptions body id) = [] :=
    sitesOf_eq_nil True True id container (local_emitExceptions body)
  have shared : sitesOf (file.emitGlobalState globals body id) = [] :=
    sitesOf_eq_nil True True id container (local_emitGlobalState trivial globals body)
  rw [SourceFile.bodyRequests, sitesOf_append, sitesOf_append, sitesOf_append, calls, exceptions,
    state, shared, List.append_nil, List.append_nil, List.append_nil]

end Brought

section Settled

variable (file : SourceFile)

/-- Settling requests adds their sites to those there are. -/
theorem filterMap_foldl_settle (relpath : Str) {requests : List Request}
    (tidy : ∀ request ∈ requests, request.Tidy) (emission : Emission) :
    (requests.foldl (Emission.settle relpath) emission).bundle.refs.filterMap refSite =
      emission.bundle.refs.filterMap refSite ++ sitesOf requests := by
  induction requests generalizing emission with
  | nil => exact (List.append_nil _).symm
  | cons request rest ih =>
      obtain ⟨here, later⟩ := List.forall_mem_cons.mp tidy
      have one : (emission.settle relpath request).bundle.refs.filterMap refSite =
          emission.bundle.refs.filterMap refSite ++ request.sites := by
        cases request with
        | declare | expose => exact (List.append_nil _).symm
        | refer ref =>
            refine List.filterMap_append.trans (congrArg _ ?_)
            rw [Request.sites, List.filterMap_cons]
            cases refSite ref <;> rfl
        | field container node spot refs =>
            rw [Emission.settle]
            split
            · exact (List.append_nil _).symm
            · refine List.filterMap_append.trans (congrArg _ ?_)
              refine List.filterMap_eq_nil_iff.mpr fun ref listed => ?_
              have other : ¬ ref.type = .calls :=
                fun same => here.2 ref listed (same ▸ List.mem_cons_self)
              rw [refSite, if_neg other]
      rw [List.foldl_cons, ih later, one, List.append_assoc]
      rfl

/-- The calls found in a block are calls of the definitions that stand in it. -/
theorem sitesOf_walkBlock_subperm (globals : List Str) (tree : Tree) (fqn : Str)
    (container : NodeId) (inClass : Bool) :
    (sitesOf (file.walkBlock globals tree fqn container inClass)).Subperm
      ((tree.children.filter isDefinition).flatMap sitesBelow) := by
  refine file.walk_induction globals
    (fun stmt _ _ _ requests =>
      (sitesOf requests).Subperm (if isDefinition stmt then sitesBelow stmt else []))
    (fun tree _ _ _ requests =>
      (sitesOf requests).Subperm ((tree.children.filter isDefinition).flatMap sitesBelow))
    ?other ?field ?decorated ?cls ?function ?row tree fqn container inClass
  case other => exact fun _ _ _ _ => List.nil_subperm
  case field =>
    intro stmt fqn container
    rw [sitesOf_eq_nil False False container container (local_maybeField stmt fqn)]
    exact List.nil_subperm
  case decorated =>
    intro stmt fqn container inClass requests node member kind done
    have own : isDefinition stmt = true := by
      rw [isDefinition, kind]
      rfl
    rw [if_pos own]
    refine done.trans ?_
    split
    · exact (sitesBelow_sublist member).subperm
    · exact List.nil_subperm
  case cls =>
    intro node fqn container inClass name decos below kind inner
    have own : isDefinition node = true := by
      rw [isDefinition, kind]
      rfl
    rw [if_pos own, sitesOf_append, sitesOf_classRequests, List.nil_append]
    rcases inner with rfl | ⟨body, member, done⟩
    · exact List.nil_subperm
    · refine done.trans (.trans ?_ (sitesBelow_sublist member).subperm)
      exact (List.sublist_append_right _ _).subperm.trans (scope_append_subperm body)
  case function =>
    intro node fqn container inClass name decos own below kind inner
    have defines : isDefinition node = true := by
      rw [isDefinition, kind]
      rfl
    rw [if_pos defines, sitesOf_append, sitesOf_functionRequests, List.nil_append, sitesOf_append]
    rcases inner with ⟨rfl, rfl⟩ | ⟨body, member, rfl, done⟩
    · exact List.nil_subperm
    · rw [sitesOf_bodyRequests]
      refine .trans ?_ (sitesBelow_sublist member).subperm
      exact (List.Subperm.append (.refl _) done).trans (scope_append_subperm body)
  case row =>
    intro tree fqn container inClass requests each
    generalize tree.children = stmts at each
    induction stmts with
    | nil => exact List.nil_subperm
    | cons stmt rest ih =>
        obtain ⟨here, later⟩ := List.forall_mem_cons.mp each
        rw [List.flatMap_cons, sitesOf_append]
        by_cases own : isDefinition stmt = true
        · rw [if_pos own] at here
          rw [List.filter_cons_of_pos own, List.flatMap_cons]
          exact here.append (ih later)
        · rw [if_neg own] at here
          rw [List.filter_cons_of_neg own, List.subperm_nil.mp here, List.nil_append]
          exact ih later

/-- **Calls.** The `CALLS` references of a Python file are those of different calls of the file: no
call is attributed to two functions, or twice to one. -/
theorem SourceFile.calls_subperm (root : Tree) :
    ((file.extract root).refs.filterMap refSite).Subperm (root.all.filterMap callSite) := by
  have before : ∀ request ∈ file.importRequests root ++ file.globalRequests root,
      request.Local False False False file.fileId file.fileId := by
    exact List.forall_mem_append.mpr ⟨local_importRequests root, local_globalRequests root⟩
  rw [extract, filterMap_foldl_settle file.relpath (tidy_requests file root), List.filterMap_nil,
    List.nil_append, requests, sitesOf_append, sitesOf_eq_nil False False _ _ before,
    List.nil_append]
  refine (sitesOf_walkBlock_subperm file _ root _ _ _).trans ?_
  exact (List.sublist_append_right _ _).subperm.trans (scope_append_subperm root)

end Settled

end GraphIngest.Python
