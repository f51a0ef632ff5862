import GraphIngest.Graph.Record

/-! # Routes and endpoints

The key under which an HTTP caller and an HTTP handler meet: the upper-case verb
and the route with its path parameters collapsed to `*`.
-/

namespace GraphIngest.Resolve

open Foundation Text Graph

/-- The length of a bracketed parameter at the front of a text, zero when there
is none: no slash and no closing bracket between the brackets. -/
def bracketSize (opening closing : Char) : Str → Nat
  | [] => 0
  | head :: rest =>
      if head = opening then
        let inner := rest.takeWhile fun letter => letter != '/' && letter != closing
        if (rest.drop inner.length).head? = some closing then inner.length + 2 else 0
      else 0

/-- The length of a `:name` parameter at the front of a text. -/
def colonSize : Str → Nat
  | [] => 0
  | head :: rest =>
      if head = ':' then
        let inner := rest.takeWhile fun letter => letter != '/'
        if inner = [] then 0 else inner.length + 1
      else 0

/-- White space and then quotes stripped from both ends. -/
def unquote (text : Str) : Str :=
  stripWhile (fun letter => letter.toNat == 39 || letter.toNat == 34) (strip text)

/-- Collapse path parameters, drop the trailing slashes, start with a slash. -/
def normalizeRoute (route : Str) : Str :=
  let bare := unquote route
  if bare = [] then []
  else
    let collapsed := rewriteFrom colonSize ['*'] 0
      (rewriteFrom (bracketSize '<' '>') ['*'] 0 (rewriteFrom (bracketSize '{' '}') ['*'] 0 bare))
    let rooted := if collapsed.head? = some '/' then collapsed else '/' :: collapsed
    if 1 < rooted.length ∧ rooted.getLast? = some '/' then
      (rooted.reverse.dropWhile fun letter => letter == '/').reverse
    else rooted

/-- The verb, `GET` when there is none. -/
def verbOf (method : Str) : Str := upper (if method = [] then "GET".toList else method)

def endpointFqn (method route host : Str) : Str :=
  verbOf method ++ ' ' :: (host ++ normalizeRoute route)

/-- The name of an endpoint. -/
def endpointDisplay (method route host : Str) : Str := strip (endpointFqn method route host)

def endpointId (makeId : Str → Str → Str → NodeId) (repo method route host : Str) : NodeId :=
  makeId repo (endpointFqn method route host) "endpoint"

def routeSegments (route : Str) : List Str := (splitBy '/' route).filter fun segment => segment ≠ []

/-- Whether a route pattern covers the segments of a caller. -/
def coversSegments (pattern caller : List Str) : Bool :=
  pattern.length == caller.length &&
    (pattern.zip caller).all fun pair => pair.1 == ['*'] || pair.1 == pair.2

/-- The endpoints a caller's verb and normalized route meet: the exact key, else
any verb on one side, else the patterns of the verb. -/
def matchEndpoints (nodes : List Node) (method route : Str) : List Node :=
  let endpoints := nodes.filter fun node => node.label = .endpoint
  let keyed := fun verb => endpoints.filter fun node =>
    verbOf node.method = verb ∧ normalizeRoute node.route = route
  let anyVerb :=
    if method ≠ "ANY".toList then keyed "ANY"
    else endpoints.filter fun node => normalizeRoute node.route = route
  if keyed method ≠ [] then keyed method
  else if anyVerb ≠ [] then anyVerb
  else
    endpoints.filter fun node =>
      verbOf node.method = method ∧ '*' ∈ normalizeRoute node.route ∧
        coversSegments (routeSegments (normalizeRoute node.route)) (routeSegments route)

example : normalizeRoute "api/users/{id}/" = "/api/users/*".toList := by decide +kernel

end GraphIngest.Resolve
