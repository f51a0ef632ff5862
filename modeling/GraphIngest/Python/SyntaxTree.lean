import GraphIngest.Foundation.Rose
import GraphIngest.Graph.Extractor
import GraphIngest.Resolve.Route
import GraphIngest.Text

/-! # Python syntax trees

The tree a parser hands over, every node with an identity of its own, and what the extractor
reads off a node without going anywhere else: names, receivers, parameters, the literals in
arguments, and what decorators and calls say about routes, requests, events and access.
-/

namespace GraphIngest.Python

open Foundation Text Graph

/-- The kinds of nodes the extractor looks for; every other kind by its word. -/
inductive Kind
  | classDefinition | functionDefinition | decoratedDefinition | decorator
  | expressionStatement | assignment | annotatedAssignment | augmentedAssignment
  | identifier | attribute | subscript | call | string | stringContent | keywordArgument | comment
  | importStatement | importFromStatement | dottedName | aliasedImport | scopedIdentifier
  | typedParameter | defaultParameter | typedDefaultParameter | listSplatPattern
  | dictionarySplatPattern
  | raiseStatement | exceptClause | globalStatement | nonlocalStatement | block
  | patternList | tuple | tuplePattern | listPattern
  | other (word : Str)
deriving DecidableEq

/-- The fields the extractor looks up. -/
inductive Field
  | name | definition | body | superclasses | parameters | returnType | type
  | function | arguments | left | right | object | attribute | value | moduleName
deriving DecidableEq

/-- A node without its children: the field it stands in, its kind, identity and text, where it
begins, and its last line. -/
structure Part where
  field : Option Field
  kind : Kind
  id : Nat
  text : Str
  start : Spot
  lastLine : Int
deriving DecidableEq

abbrev Tree := Rose Part

section Parts

def kindOf (tree : Tree) : Kind := tree.label.kind

/-- `text`. -/
def textOf (tree : Tree) : Str := tree.label.text

/-- `child_by_field_name`. -/
def childByField (tree : Tree) (field : Field) : Option Tree :=
  tree.children.find? fun child => child.label.field = some field

theorem mem_children_of_childByField {tree child : Tree} {field : Field}
    (found : childByField tree field = some child) : child ∈ tree.children :=
  List.mem_of_find?_eq_some found

/-- Whether a node is a token of some word. -/
def isToken (words : List Str) (tree : Tree) : Bool :=
  words.any fun word => kindOf tree = .other word

end Parts

section Names

/-- `_dotted_tail`. -/
def dottedTail (tree : Tree) : Str :=
  match kindOf tree with
  | .identifier => textOf tree
  | .attribute => ((childByField tree .attribute).map textOf).getD []
  | .dottedName | .aliasedImport | .scopedIdentifier =>
      ((tree.children.filter fun child =>
        kindOf child = .identifier || kindOf child = .dottedName).getLast?.map textOf).getD
          (textOf tree)
  | .call =>
      match found : childByField tree .function with
      | some function => dottedTail function
      | none => []
  | _ => strip (textOf tree)
termination_by tree.size
decreasing_by exact Rose.size_lt_of_mem (mem_children_of_childByField found)

/-- `_visibility`. -/
def visibility (name : Str) : Visibility :=
  let dunder := "__".toList.isSuffixOf name
  if "__".toList.isPrefixOf name && !dunder then .private
  else if "_".toList.isPrefixOf name && !dunder then .protected
  else .public

/-- What the object itself is called in a method. -/
def selfNames : List Str := ["self", "cls"]

/-- `_self_attr_name`; the empty text for what is not an attribute of the object itself. -/
def selfAttrName (tree : Tree) : Str :=
  if kindOf tree = .attribute then
    match childByField tree .object with
    | some object =>
        if kindOf object = .identifier ∧ textOf object ∈ selfNames then
          ((childByField tree .attribute).map textOf).getD []
        else []
    | none => []
  else []

/-- The kinds of targets that are taken apart. -/
def isPattern (tree : Tree) : Bool :=
  kindOf tree = .patternList || kindOf tree = .tuple || kindOf tree = .tuplePattern ||
    kindOf tree = .listPattern

/-- `_assign_targets`. -/
def assignTargets (left : Tree) : List Tree :=
  if selfAttrName left ≠ [] then [left]
  else if isPattern left then left.children.filter fun child => selfAttrName child ≠ []
  else []

/-- `_base_ident_node`. -/
def baseIdentNode (tree : Tree) : Option Tree :=
  match kindOf tree with
  | .subscript =>
      match found : childByField tree .value with
      | some value => baseIdentNode value
      | none => none
  | .attribute =>
      match found : childByField tree .object with
      | some object => baseIdentNode object
      | none => none
  | .identifier => some tree
  | _ => none
termination_by tree.size
decreasing_by all_goals exact Rose.size_lt_of_mem (mem_children_of_childByField found)

/-- `_is_attr_or_kwarg_name`, for a node and the one above it. -/
def isAttrOrKwargName (parent tree : Tree) : Bool :=
  let stands := fun field => (childByField parent field).map (fun child => child.label.id) =
    some tree.label.id
  (kindOf parent = .attribute && stands .attribute) ||
    (kindOf parent = .keywordArgument && stands .name) ||
    kindOf parent = .globalStatement || kindOf parent = .nonlocalStatement

end Names

section Types

/-- The quotes of `_strip_quotes`, longest first. -/
def quoteMarks : List Str :=
  let single := [Char.ofNat 39]
  let double := [Char.ofNat 34]
  [double ++ double ++ double, single ++ single ++ single, double, single]

/-- `_strip_quotes`. -/
def stripQuotes (text : Str) : Str :=
  match quoteMarks.find? fun mark =>
      mark.isPrefixOf text && mark.isSuffixOf text && decide (2 * mark.length ≤ text.length) with
  | some mark => strip ((text.drop mark.length).take (text.length - 2 * mark.length))
  | none => strip text

/-- `_collect_type_names`, given which texts are identifiers. -/
def collectTypeNames (isIdentifier : Str → Bool) (tree : Tree) : List Str :=
  match kindOf tree with
  | .identifier => [textOf tree]
  | .attribute => if dottedTail tree = [] then [] else [dottedTail tree]
  | .string =>
      let inner := stripQuotes (textOf tree)
      if inner ≠ [] ∧ isIdentifier inner then [inner] else []
  | _ => tree.children.attach.flatMap fun child => collectTypeNames isIdentifier child.1
termination_by tree.size
decreasing_by exact Rose.size_lt_of_mem child.2

end Types

section Parameters

/-- The formal parameters of a list of them. -/
def isFormal (tree : Tree) : Bool :=
  kindOf tree = .identifier || kindOf tree = .typedParameter || kindOf tree = .defaultParameter ||
    kindOf tree = .typedDefaultParameter || kindOf tree = .listSplatPattern ||
    kindOf tree = .dictionarySplatPattern

/-- `_first_is_selfish`. -/
def firstIsSelfish (tree : Tree) : Bool :=
  selfNames.contains (strip (beforeFirst '=' (beforeFirst ':' (textOf tree))))

/-- The formal parameters, without the object itself for a method. -/
def formals (parameters : Option Tree) (inClass : Bool) : List Tree :=
  match parameters with
  | none => []
  | some tree =>
      match tree.children.filter isFormal with
      | [] => []
      | first :: rest => if inClass && firstIsSelfish first then rest else first :: rest

/-- `_splat_inner`. -/
def splatInner (tree : Tree) : Str :=
  ((tree.children.find? fun child => kindOf child = .identifier).map textOf).getD []

/-- The name of a parameter in `_params`. -/
def paramName (tree : Tree) : Str :=
  match kindOf tree with
  | .identifier => textOf tree
  | .listSplatPattern => '*' :: splatInner tree
  | .dictionarySplatPattern => '*' :: '*' :: splatInner tree
  | .typedParameter =>
      tree.children.foldl (fun name child =>
        match kindOf child with
        | .identifier => textOf child
        | .listSplatPattern => '*' :: splatInner child
        | .dictionarySplatPattern => '*' :: '*' :: splatInner child
        | _ => name) []
  | .defaultParameter | .typedDefaultParameter => ((childByField tree .name).map textOf).getD []
  | _ => []

/-- The type of a parameter in `_params`. -/
def paramType (tree : Tree) : Str :=
  match kindOf tree with
  | .typedParameter | .defaultParameter | .typedDefaultParameter =>
      ((childByField tree .type).map fun type => strip (textOf type)).getD []
  | _ => []

/-- The types of `_params`: those of the parameters with a name. -/
def paramTypes (parameters : Option Tree) (inClass : Bool) : List Str :=
  ((formals parameters inClass).filter fun tree => paramName tree ≠ []).map paramType

end Parameters

section Arguments

/-- What stands between the brackets of a call. -/
def argumentsOf (call : Tree) : List Tree :=
  ((childByField call .arguments).map Rose.children).getD []

/-- `_call_arity`. -/
def callArity (call : Tree) : Int :=
  match childByField call .arguments with
  | none => -1
  | some arguments =>
      (arguments.children.countP fun child => !isToken [['('], [')'], [',']] child : Nat)

/-- `_string_text`. -/
def stringText (tree : Tree) : Str :=
  if kindOf tree = .string then
    match tree.children.find? fun child => kindOf child = .stringContent with
    | some content => textOf content
    | none => stripWhile (fun letter => letter.toNat == 39 || letter.toNat == 34) (textOf tree)
  else []

/-- `_positional_args`. -/
def positionalArgs (call : Tree) : List Tree :=
  (argumentsOf call).filter fun child =>
    !isToken [['('], [')'], [',']] child && decide (kindOf child ≠ .keywordArgument) &&
      decide (kindOf child ≠ .comment)

/-- `_string_arg`. -/
def stringArg (call : Tree) (index : Nat) : Str :=
  ((positionalArgs call)[index]?.map stringText).getD []

/-- `_receiver`. -/
def receiver (function : Tree) : Str :=
  if kindOf function = .attribute then ((childByField function .object).map dottedTail).getD []
  else []

end Arguments

section Conventions

/-- Whether a word stands somewhere in a text. -/
def hasWord (word text : Str) : Bool := text.tails.any word.isPrefixOf

/-- `HTTP_METHODS`. -/
def httpMethods : List Str := ["get", "post", "put", "delete", "patch", "head", "options"]

/-- `HTTP_CLIENT_RECEIVERS`. -/
def httpClientReceivers : List Str :=
  ["requests", "httpx", "session", "client", "http", "aiohttp", "urllib3", "session_"]

/-- `_AUTH_REQUIRE_DECORATORS`. -/
def authRequireDecorators : List Str :=
  ["login_required", "requires_auth", "auth_required", "authenticated", "jwt_required",
   "token_required"]

/-- `_POLICY_DECORATOR_TOKENS`. -/
def policyDecoratorTokens : List Str :=
  ["preauthorize", "roles_allowed", "permissions_required", "require_permission", "require_role",
   "policy", "permission_required", "roles_required", "roles_accepted"]

/-- `_EVENT_CONSUMER_DECORATORS`. -/
def eventConsumerDecorators : List Str :=
  ["kafka_listener", "rabbit_listener", "subscriber", "subscribe", "consumer", "event_handler",
   "sqs_listener", "jms_listener"]

/-- `_EVENT_EMIT_CALLS_STRONG` and `_EVENT_EMIT_CALLS_GENERIC`. -/
def eventEmitCalls : List Str :=
  ["emit", "publish", "produce", "send_event", "publish_event", "dispatch_event", "send",
   "dispatch"]

/-- `_EVENT_CONSUME_CALLS_STRONG` and `_EVENT_CONSUME_CALLS_GENERIC`. -/
def eventConsumeCalls : List Str := ["subscribe", "consume", "add_listener", "listen", "on"]

/-- The call that a decorator is made of. -/
def decoratorCall (decorator : Tree) : Option Tree :=
  (decorator.children[1]?).filter fun expr => kindOf expr = .call

/-- `_decorator_policy_target`. -/
def decoratorPolicyTarget (decorator : Tree) : Str :=
  ((decoratorCall decorator).map fun call => strip (stringArg call 0)).getD []

/-- The first text of a list that is not empty. -/
def firstFilled (texts : List Str) : Str := (texts.find? fun text => text ≠ []).getD []

/-- `_auth_specs`, without the strategies. -/
def authSpecs (name : Str) (decorator : Tree) : List (EdgeType × Str) :=
  let word := lower name
  (if authRequireDecorators.contains word || hasWord "auth" word then
    [(EdgeType.requiresAuth, "AUTH_REQUIRED".toList)] else []) ++
  if policyDecoratorTokens.contains word ||
      ["role".toList, "permission", "policy", "scope"].any (hasWord · word) then
    [(EdgeType.enforcesPolicy,
      firstFilled [decoratorPolicyTarget decorator, name, "POLICY".toList])] else []

/-- `_event_consumer_topic`, without the strategy. -/
def eventConsumerTopic (name : Str) (decorator : Tree) : Str :=
  let word := lower name
  if eventConsumerDecorators.contains word ||
      ["listener".toList, "consumer"].any (hasWord · word) then
    ((decoratorCall decorator).map fun call => strip (stringArg call 0)).getD []
  else []

/-- `_methods_kwarg`. -/
def methodsKwarg (call : Tree) : List Str :=
  (argumentsOf call).flatMap fun child =>
    if kindOf child = .keywordArgument ∧
        (childByField child .name).map textOf = some "methods".toList then
      (((childByField child .value).map Rose.children).getD []).filterMap fun element =>
        if kindOf element = .string ∧ httpMethods.contains (lower (stringText element)) then
          some (lower (stringText element))
        else none
    else []

/-- `_endpoint_specs`. -/
def endpointSpecs (decorator : Tree) : List (Str × Str) :=
  match decoratorCall decorator with
  | none => []
  | some call =>
      match (childByField call .function).filter fun function => kindOf function = .attribute with
      | none => []
      | some function =>
          let tail := dottedTail function
          let route := stringArg call 0
          if route = [] then []
          else if httpMethods.contains tail then [(upper tail, route)]
          else if tail = "route".toList ∨ tail = "api_route".toList then
            let methods := if methodsKwarg call = [] then ["get".toList] else methodsKwarg call
            methods.map fun method => (upper method, route)
          else []

/-- `_looks_like_url`. -/
def looksLikeUrl (text : Str) : Bool :=
  ["/".toList, "http://", "https://"].any fun start => start.isPrefixOf text

/-- `_outbound_call`. -/
def outboundCall (call : Tree) : Option (Str × Str) :=
  match childByField call .function with
  | none => none
  | some function =>
      let asked := fun (verb : Str) (url : Str) =>
        if verb ≠ [] ∧ url ≠ [] ∧ looksLikeUrl url then some (upper verb, url) else none
      if kindOf function = .identifier ∧ textOf function = "urlopen".toList then
        asked "GET" (stringArg call 0)
      else if kindOf function = .attribute ∧ httpClientReceivers.contains (receiver function) then
        if httpMethods.contains (dottedTail function) then
          asked (dottedTail function) (stringArg call 0)
        else if dottedTail function = "request".toList then
          asked (stringArg call 0) (stringArg call 1)
        else none
      else none

/-- `_outbound_event` and `_inbound_event`, without the strategies: the topic of a call of one of
some names. -/
def eventTopic (names : List Str) (call : Tree) : Str :=
  match childByField call .function with
  | none => []
  | some function =>
      if names.contains (lower (dottedTail function)) then strip (stringArg call 0) else []

end Conventions

end GraphIngest.Python
