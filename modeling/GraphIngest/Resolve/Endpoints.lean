import GraphIngest.Foundation.Dict
import GraphIngest.Resolve.Route

/-! # Matching endpoints

The endpoints are indexed by verb and route, by route alone, and, where the route
has parameters, by verb with the segments of the route. A caller asks the exact
key, then any verb on one of the two sides, then the patterns of its own verb.
What it is given matches; something is found for it exactly when a matching
endpoint has the caller's route as a text, or the caller's verb and a parameter.
-/

namespace GraphIngest.Resolve

open Foundation Text Graph

section Index

/-- `endpoints_by_key`, `endpoint_patterns` and `endpoints_by_route`. -/
structure EndpointIndex where
  byKey : Dict (Str × Str) (List Node) := Dict.empty
  patterns : Dict Str (List (List Str × Node)) := Dict.empty
  byRoute : Dict Str (List Node) := Dict.empty

namespace EndpointIndex

/-- What a node adds to the index. -/
def add (index : EndpointIndex) (node : Node) : EndpointIndex :=
  if node.label = .endpoint then
    let method := verbOf node.method
    let route := normalizeRoute node.route
    { byKey := index.byKey.append (method, route) node
      byRoute := index.byRoute.append route node
      patterns :=
        if '*' ∈ route then index.patterns.append method (routeSegments route, node)
        else index.patterns }
  else index

/-- `match_endpoints`. -/
def lookup (index : EndpointIndex) (method route : Str) : List Node :=
  let same := index.byKey.getD (method, route) []
  let anyVerb :=
    if method ≠ "ANY".toList then index.byKey.getD ("ANY".toList, route) []
    else index.byRoute.getD route []
  if same ≠ [] then same
  else if anyVerb ≠ [] then anyVerb
  else
    ((index.patterns.getD method []).filter fun pattern =>
      coversSegments pattern.1 (routeSegments route)).map Prod.snd

end EndpointIndex

/-- The index of all endpoints. -/
def endpointIndex (nodes : List Node) : EndpointIndex := nodes.foldl EndpointIndex.add {}

variable (nodes : List Node)

/-- A table of the index collects, in order, the values of the nodes with a key. -/
theorem getD_endpointIndex {κ ν : Type} [DecidableEq κ] (table : EndpointIndex → Dict κ (List ν))
    {test : Node → Bool} {key : Node → κ} {value : Node → ν} (start : table {} = Dict.empty)
    (step : ∀ index node, table (index.add node) =
      if test node then (table index).append (key node) (value node) else table index)
    (wanted : κ) :
    (table (endpointIndex nodes)).getD wanted [] =
      (nodes.filter fun node => test node && decide (key node = wanted)).map value := by
  have filled : nodes.foldl (fun dict node => if test node then
      dict.append (key node) (value node) else dict) (table {}) = table (endpointIndex nodes) :=
    List.foldl_hom table fun index node => (step index node).symm
  rw [← filled, start, Dict.getD_foldl_append test key value]
  exact List.nil_append _

/-- The index under a verb and a route has the endpoints with both. -/
theorem getD_byKey (verb route : Str) :
    (endpointIndex nodes).byKey.getD (verb, route) [] =
      (nodes.filter fun node => node.label = .endpoint).filter fun node =>
        verbOf node.method = verb ∧ normalizeRoute node.route = route := by
  rw [@getD_endpointIndex nodes _ _ _ EndpointIndex.byKey (fun node => node.label = .endpoint)
    (fun node => (verbOf node.method, normalizeRoute node.route)) id rfl, List.map_id,
    List.filter_filter]
  · refine List.filter_congr fun node _ => ?_
    rw [Bool.and_comm]
    simp only [Prod.mk.injEq]
  · intro index node
    rw [EndpointIndex.add]
    by_cases endpoint : node.label = .endpoint
    · simp only [endpoint, ↓reduceIte, decide_true, id_eq]
    · simp only [endpoint, ↓reduceIte, decide_false, Bool.false_eq_true]

theorem getD_byRoute (route : Str) :
    (endpointIndex nodes).byRoute.getD route [] =
      (nodes.filter fun node => node.label = .endpoint).filter fun node =>
        normalizeRoute node.route = route := by
  rw [@getD_endpointIndex nodes _ _ _ EndpointIndex.byRoute (fun node => node.label = .endpoint)
    (fun node => normalizeRoute node.route) id rfl, List.map_id, List.filter_filter]
  · exact List.filter_congr fun node _ => Bool.and_comm _ _
  · intro index node
    rw [EndpointIndex.add]
    by_cases endpoint : node.label = .endpoint
    · simp only [endpoint, ↓reduceIte, decide_true, id_eq]
    · simp only [endpoint, ↓reduceIte, decide_false, Bool.false_eq_true]

/-- Whether a node is an endpoint whose route has parameters. -/
def isTemplated (node : Node) : Bool :=
  decide (node.label = .endpoint) && decide ('*' ∈ normalizeRoute node.route)

/-- The index of patterns has the templated endpoints of a verb. -/
theorem getD_patterns (method : Str) :
    (endpointIndex nodes).patterns.getD method [] =
      (nodes.filter fun node => isTemplated node && decide (verbOf node.method = method)).map
        fun node => (routeSegments (normalizeRoute node.route), node) := by
  refine @getD_endpointIndex nodes _ _ _ EndpointIndex.patterns isTemplated
    (fun node => verbOf node.method)
    (fun node => (routeSegments (normalizeRoute node.route), node)) rfl (fun index node => ?_)
    method
  rw [EndpointIndex.add, isTemplated]
  by_cases endpoint : node.label = .endpoint
  · rw [if_pos endpoint, decide_eq_true endpoint, Bool.true_and]
    simp only [decide_eq_true_eq]
  · rw [if_neg endpoint, decide_eq_false endpoint, Bool.false_and]
    exact (if_neg Bool.false_ne_true).symm

/-- The index answers what the lists of endpoints hold. -/
theorem lookup_eq (method route : Str) :
    (endpointIndex nodes).lookup method route = matchEndpoints nodes method route := by
  have patterns : (((endpointIndex nodes).patterns.getD method []).filter fun pattern =>
        coversSegments pattern.1 (routeSegments route)).map Prod.snd =
      (nodes.filter fun node => node.label = .endpoint).filter fun node =>
        verbOf node.method = method ∧ '*' ∈ normalizeRoute node.route ∧
          coversSegments (routeSegments (normalizeRoute node.route)) (routeSegments route) := by
    rw [getD_patterns, List.filter_map, List.map_map, List.filter_filter, List.filter_filter]
    refine (List.map_id _).trans (List.filter_congr fun node _ => ?_)
    rw [Bool.eq_iff_iff]
    simp only [isTemplated, Function.comp_apply, Bool.and_eq_true, decide_eq_true_eq]
    tauto
  rw [EndpointIndex.lookup, matchEndpoints]
  simp only [getD_byKey, getD_byRoute, patterns]

end Index

section Matching

/-- The verbs of an endpoint and a caller agree: they are the same, or one of them
is any verb. -/
def VerbsAgree (endpoint caller : Str) : Prop :=
  endpoint = caller ∨ endpoint = "ANY".toList ∨ caller = "ANY".toList

instance (endpoint caller : Str) : Decidable (VerbsAgree endpoint caller) :=
  inferInstanceAs (Decidable (_ ∨ _))

/-- The segments of an endpoint and a caller agree: they are as many, and each one of
the endpoint is the wildcard or that of the caller. -/
def SegmentsAgree (endpoint caller : List Str) : Prop :=
  List.Forall₂ (fun own other => own = ['*'] ∨ own = other) endpoint caller

/-- A pattern covers a route where the two agree segment by segment. -/
theorem coversSegments_iff (pattern caller : List Str) :
    coversSegments pattern caller = true ↔ SegmentsAgree pattern caller := by
  rw [coversSegments, SegmentsAgree, List.forall₂_iff_zip, Bool.and_eq_true, beq_iff_eq,
    List.all_eq_true]
  refine and_congr_right fun _ => ⟨fun all first second listed => ?_, fun all pair listed => ?_⟩
  · simpa only [Bool.or_eq_true, beq_iff_eq] using all (first, second) listed
  · simpa only [Bool.or_eq_true, beq_iff_eq] using all listed

instance (endpoint caller : List Str) : Decidable (SegmentsAgree endpoint caller) :=
  decidable_of_iff _ (coversSegments_iff endpoint caller)

/-- An endpoint that answers a caller. -/
structure Answers (node : Node) (method route : Str) : Prop where
  endpoint : node.label = .endpoint
  verbs : VerbsAgree (verbOf node.method) method
  segments : SegmentsAgree (routeSegments (normalizeRoute node.route)) (routeSegments route)

/-- An endpoint that answers by the text of its route, or by a parameter under the
verb of the caller. -/
def FoundBy (node : Node) (method route : Str) : Prop :=
  normalizeRoute node.route = route ∨
    verbOf node.method = method ∧ '*' ∈ normalizeRoute node.route

variable {nodes : List Node} {method route : Str}

theorem segmentsAgree_self (segments : List Str) : SegmentsAgree segments segments :=
  List.forall₂_same.mpr fun _ _ => .inr rfl

/-- The endpoints of a key. -/
def exactHits (nodes : List Node) (method route : Str) : List Node :=
  (nodes.filter fun node => node.label = .endpoint).filter fun node =>
    verbOf node.method = method ∧ normalizeRoute node.route = route

/-- The endpoints of a route under any verb, of the endpoint or of the caller. -/
def anyVerbHits (nodes : List Node) (method route : Str) : List Node :=
  if method ≠ "ANY".toList then exactHits nodes "ANY" route
  else (nodes.filter fun node => node.label = .endpoint).filter fun node =>
    normalizeRoute node.route = route

/-- The endpoints of a verb whose route covers that of the caller by a parameter. -/
def patternHits (nodes : List Node) (method route : Str) : List Node :=
  (nodes.filter fun node => node.label = .endpoint).filter fun node =>
    verbOf node.method = method ∧ '*' ∈ normalizeRoute node.route ∧
      coversSegments (routeSegments (normalizeRoute node.route)) (routeSegments route)

/-- An exact hit comes before one of any verb, and this before a pattern. -/
theorem matchEndpoints_eq :
    matchEndpoints nodes method route =
      if exactHits nodes method route ≠ [] then exactHits nodes method route
      else if anyVerbHits nodes method route ≠ [] then anyVerbHits nodes method route
      else patternHits nodes method route :=
  rfl

/-- An exact hit has the verb and the route. -/
theorem mem_exactHits {node : Node} :
    node ∈ exactHits nodes method route ↔
      (node ∈ nodes ∧ node.label = .endpoint) ∧
        verbOf node.method = method ∧ normalizeRoute node.route = route := by
  simp only [exactHits, List.mem_filter, decide_eq_true_eq]

/-- A hit of any verb has the route, one of the two verbs being `ANY`. -/
theorem mem_anyVerbHits {node : Node} :
    node ∈ anyVerbHits nodes method route ↔
      (node ∈ nodes ∧ node.label = .endpoint) ∧
        (method = "ANY".toList ∨ verbOf node.method = "ANY".toList) ∧
          normalizeRoute node.route = route := by
  rw [anyVerbHits]
  split
  · next verbCaller =>
    rw [mem_exactHits, or_iff_right verbCaller]
  · next anyCaller =>
    simp only [List.mem_filter, decide_eq_true_eq, not_not.mp anyCaller, true_or, true_and]

/-- A hit of a pattern has the verb and a templated route that agrees. -/
theorem mem_patternHits {node : Node} :
    node ∈ patternHits nodes method route ↔
      (node ∈ nodes ∧ node.label = .endpoint) ∧ verbOf node.method = method ∧
        '*' ∈ normalizeRoute node.route ∧
          SegmentsAgree (routeSegments (normalizeRoute node.route)) (routeSegments route) := by
  simp only [patternHits, List.mem_filter, decide_eq_true_eq, coversSegments_iff]

/-- An endpoint that answers is found by its route or its verb exactly when one of
the lookups has it. -/
theorem answers_and_foundBy_iff {node : Node} :
    (node ∈ nodes ∧ Answers node method route ∧ FoundBy node method route) ↔
      node ∈ exactHits nodes method route ∨ node ∈ anyVerbHits nodes method route ∨
        node ∈ patternHits nodes method route := by
  rw [mem_exactHits, mem_anyVerbHits, mem_patternHits]
  constructor
  · rintro ⟨listed, ⟨endpoint, verbs, segments⟩, same | ⟨verb, starred⟩⟩
    · rcases verbs with verb | anyVerb | anyCaller
      · exact .inl ⟨⟨listed, endpoint⟩, verb, same⟩
      · exact .inr (.inl ⟨⟨listed, endpoint⟩, .inr anyVerb, same⟩)
      · exact .inr (.inl ⟨⟨listed, endpoint⟩, .inl anyCaller, same⟩)
    · exact .inr (.inr ⟨⟨listed, endpoint⟩, verb, starred, segments⟩)
  · have bySegments {own : Str} (same : own = route) :
        SegmentsAgree (routeSegments own) (routeSegments route) :=
      same ▸ segmentsAgree_self (routeSegments own)
    rintro (⟨⟨listed, endpoint⟩, verb, same⟩ | ⟨⟨listed, endpoint⟩, anyVerb, same⟩ |
      ⟨⟨listed, endpoint⟩, verb, starred, segments⟩)
    · exact ⟨listed, ⟨endpoint, .inl verb, bySegments same⟩, .inl same⟩
    · exact ⟨listed, ⟨endpoint, .inr anyVerb.symm, bySegments same⟩, .inl same⟩
    · exact ⟨listed, ⟨endpoint, .inl verb, segments⟩, .inr ⟨verb, starred⟩⟩

/-- What is matched is an endpoint that answers the call. -/
theorem mem_of_mem_matchEndpoints {node : Node} (found : node ∈ matchEndpoints nodes method route) :
    node ∈ nodes ∧ Answers node method route ∧ FoundBy node method route := by
  apply answers_and_foundBy_iff.mpr
  rw [matchEndpoints_eq] at found
  split at found
  · exact .inl found
  · split at found
    · exact .inr (.inl found)
    · exact .inr (.inr found)

/-- Something is returned as soon as an endpoint that answers is found by its route
or its verb. -/
theorem matchEndpoints_ne_nil {node : Node} (listed : node ∈ nodes)
    (answers : Answers node method route) (foundBy : FoundBy node method route) :
    matchEndpoints nodes method route ≠ [] := by
  have held := answers_and_foundBy_iff.mp ⟨listed, answers, foundBy⟩
  rw [matchEndpoints_eq]
  split
  · assumption
  · next noExact =>
    split
    · assumption
    · next noAny =>
      rw [not_not] at noExact noAny
      rw [noExact, noAny] at held
      exact List.ne_nil_of_mem
        ((held.resolve_left List.not_mem_nil).resolve_left List.not_mem_nil)

/-- The lookup returns only endpoints that answer the caller, and some when there
are any. -/
structure Matches (nodes : List Node) (method route : Str) : Prop where
  only : ∀ node ∈ (endpointIndex nodes).lookup method route,
    node ∈ nodes ∧ Answers node method route
  some : (∃ node ∈ nodes, Answers node method route) →
    (endpointIndex nodes).lookup method route ≠ []

/-- **Matching.** The lookup does what it should exactly when, if an endpoint answers
at all, one answers by the text of its route, or by a parameter under the verb of the
caller. -/
theorem matches_iff (nodes : List Node) (method route : Str) :
    Matches nodes method route ↔
      ((∃ node ∈ nodes, Answers node method route) →
        ∃ node ∈ nodes, Answers node method route ∧ FoundBy node method route) := by
  constructor
  · intro matched present
    obtain ⟨node, found⟩ := List.exists_mem_of_ne_nil _ (matched.some present)
    rw [lookup_eq] at found
    obtain ⟨listed, answers, foundBy⟩ := mem_of_mem_matchEndpoints found
    exact ⟨node, listed, answers, foundBy⟩
  · intro findable
    refine ⟨fun node found => ?_, fun present => ?_⟩
    · rw [lookup_eq] at found
      obtain ⟨listed, answers, -⟩ := mem_of_mem_matchEndpoints found
      exact ⟨listed, answers⟩
    · obtain ⟨node, listed, answers, foundBy⟩ := findable present
      rw [lookup_eq]
      exact matchEndpoints_ne_nil listed answers foundBy

/-- A servlet for any verb whose route has a parameter. -/
def anyUser : Node where
  id := ⟨"e1".toList, List.cons_ne_nil _ _⟩
  label := .endpoint
  name := "ANY /users/*"
  fqn := "ANY /users/*"
  repo := "demo"
  method := "ANY"
  route := "/users/*"

/-- A caller that knows its verb misses it. -/
theorem any_with_parameter_is_missed :
    ¬ Matches [anyUser] "GET".toList "/users/42".toList := by
  intro matched
  have answers : Answers anyUser "GET".toList "/users/42".toList :=
    ⟨rfl, by decide +kernel, by decide +kernel⟩
  have none : (endpointIndex [anyUser]).lookup "GET".toList "/users/42".toList = [] := by
    decide +kernel
  exact matched.some ⟨anyUser, List.mem_singleton_self anyUser, answers⟩ none

end Matching

end GraphIngest.Resolve
