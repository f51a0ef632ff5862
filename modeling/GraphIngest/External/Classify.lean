import GraphIngest.Foundation.Dict
import GraphIngest.Graph.Record

/-! # Classifying calls that leave the repository

A call is classified by its owner type first and by its method name only within
that type; a call that returns a connection is an acquire whoever owns it. What
the resource classifier does not know is looked up in the vulnerability
catalog, whose tables are data and enter as a parameter.
-/

namespace GraphIngest.External

open Foundation Text Graph

/-- What a catalogued API does to tainted data. -/
inductive Role
  | source | sink | sanitizer
deriving DecidableEq, Repr

/-- One catalogued API: its role, its category and, for each lower-case method
name, the argument positions that carry the role. -/
structure Entry where
  role : Role
  category : Str
  methods : Dict Str (List Int)

/-- The catalog tables, by full and by simple owner name, and the categories
switched on for classification. -/
structure Catalog where
  java : Dict Str Entry := Dict.empty
  bySimpleName : Dict Str Entry := Dict.empty
  enabled : List Str := []

/-- The entry and the argument positions of a catalogued API. -/
def classifyTaint (catalog : Catalog) (owner method : Str) : Option (Entry × List Int) :=
  if owner = [] ∨ method = [] then none
  else
    match (catalog.java.get? owner).or (catalog.bySimpleName.get? (afterLast '.' owner)) with
    | none => none
    | some entry => (entry.methods.get? (lower method)).map fun positions => (entry, positions)

/-- One catalogued call: its line, category, role and argument positions. -/
structure TaintSite where
  line : Int
  category : Str
  role : Role
  positions : List Int
deriving DecidableEq, Repr

/-- A table of types by package and simple name. -/
abbrev TypeTable := List (Str × Str)

/-- `DB_TYPES`: types whose methods are database work. -/
def dbTypes : TypeTable :=
  [("java.sql", "Connection"), ("java.sql", "Statement"), ("java.sql", "PreparedStatement"),
   ("java.sql", "CallableStatement"), ("java.sql", "ResultSet"), ("java.sql", "DataSource"),
   ("javax.sql", "DataSource"), ("javax.sql", "PooledConnection"), ("java.sql", "DriverManager"),
   ("javax.persistence", "EntityManager"), ("jakarta.persistence", "EntityManager"),
   ("javax.persistence", "EntityManagerFactory"), ("jakarta.persistence", "EntityManagerFactory"),
   ("javax.persistence", "Query"), ("jakarta.persistence", "Query"),
   ("javax.persistence", "TypedQuery"), ("jakarta.persistence", "TypedQuery"),
   ("org.hibernate", "Session"), ("org.hibernate", "SessionFactory"),
   ("org.hibernate", "Transaction"), ("org.springframework.jdbc.core", "JdbcTemplate"),
   ("org.springframework.jdbc.core.namedparam", "NamedParameterJdbcTemplate"),
   ("org.springframework.transaction.support", "TransactionTemplate"),
   ("org.apache.ibatis.session", "SqlSession"), ("org.apache.ibatis.session", "SqlSessionFactory")]

/-- `CONNECTION_TYPES`: a method returning one of these is an acquire. -/
def connectionTypes : TypeTable :=
  [("java.sql", "Connection"), ("javax.sql", "PooledConnection"), ("org.hibernate", "Session"),
   ("javax.persistence", "EntityManager"), ("jakarta.persistence", "EntityManager"),
   ("org.apache.ibatis.session", "SqlSession")]

/-- Whether a type is tabled, by its full or by its simple name. -/
def TypeTable.matches (table : TypeTable) (type : Str) : Bool :=
  table.any (fun entry => entry.1 ++ '.' :: entry.2 == type) ||
    table.any fun entry => entry.2 == simpleName type

/-- `_ACQUIRE_METHODS`. -/
def acquireMethods : List Str :=
  ["getconnection", "createstatement", "preparestatement", "preparecall", "getsession",
   "opensession", "createentitymanager", "opensqlsession", "getcurrentsession"]

/-- `_EXECUTE_METHODS`. -/
def executeMethods : List Str :=
  ["executequery", "executeupdate", "execute", "executebatch", "executelargeupdate", "query",
   "queryforobject", "queryforlist", "update", "createquery", "createnativequery",
   "getresultlist", "getsingleresult", "selectone", "selectlist", "insert", "delete",
   "persist", "merge", "remove", "save", "find"]

/-- `_RELEASE_METHODS`. -/
def releaseMethods : List Str :=
  ["close", "commit", "rollback", "setautocommit", "releasesavepoint"]

/-- `_REFLECT_TYPES`: types that exist for reflective access only. -/
def reflectTypes : List Str :=
  ["java.lang.reflect.Method", "java.lang.reflect.Constructor", "java.lang.reflect.Field"]

/-- `_REFLECT_METHODS_BY_TYPE`: the reflective methods of types with harmless
ones. -/
def reflectMethodsByType (owner : Str) : List Str :=
  if owner = "java.lang.Class".toList then
    ["forname", "newinstance", "getmethod", "getmethods", "getdeclaredmethod",
     "getdeclaredmethods", "getconstructor", "getconstructors", "getdeclaredconstructor",
     "getdeclaredconstructors", "getfield", "getfields", "getdeclaredfield", "getdeclaredfields"]
  else if owner = "java.lang.ClassLoader".toList then ["loadclass"]
  else []

/-- The kind of a catalogued sink. -/
def categoryKind (category : Str) : ExternalKind :=
  if category = "CWE-78/command-injection".toList then .exec
  else if category = "CWE-94/code-injection".toList then .exec
  else if category = "CWE-22/path-traversal".toList then .fileWrite
  else if category = "CWE-502/unsafe-deserialization".toList then .deserialize
  else if category = "CWE-79/xss".toList then .response
  else if category = "CWE-113/response-splitting".toList then .response
  else if category = "CWE-89/sql-injection".toList then .dbExecute
  else if category = "CWE-943/nosql-injection".toList then .dbExecute
  else .taintSink

/-- The kind the catalog gives a call, none when its category is switched off. -/
def classifyCatalogued (catalog : Catalog) (owner method : Str) : Option ExternalKind :=
  match classifyTaint catalog owner method with
  | none => none
  | some (entry, _) =>
      if entry.category ∈ catalog.enabled then
        match entry.role with
        | .sink => some (categoryKind entry.category)
        | .source => some .taintSource
        | .sanitizer => some .taintSanitizer
      else none

/-- Whether a call reaches code or members by reflection. -/
def classifyReflection (owner method : Str) : Bool :=
  reflectTypes.contains owner || (reflectMethodsByType owner).contains (lower method)

/-- The kind of a call, none when nothing recognises it. -/
def classifyCall (catalog : Catalog) (owner method returnType : Str) : Option ExternalKind :=
  if returnType ≠ [] ∧ connectionTypes.matches returnType then some .dbAcquire
  else if classifyReflection owner method then some .reflection
  else if owner ≠ [] ∧ dbTypes.matches owner then
    if lower method ∈ acquireMethods then some .dbAcquire
    else if lower method ∈ releaseMethods then some .dbRelease
    else if lower method ∈ executeMethods then some .dbExecute
    else some ((classifyCatalogued catalog owner method).getD .dbOther)
  else classifyCatalogued catalog owner method

/-- The kind of a call, with a catch-all for unrecognised ones when asked for. -/
def classifyExternal (catalog : Catalog) (owner method returnType : Str) (includeOther : Bool) :
    Option ExternalKind :=
  (classifyCall catalog owner method returnType).or (if includeOther then some .other else none)

/-- The identity of an external target: owner and method, overloads together. -/
def externalKey (owner method : Str) : Str := owner ++ '#' :: method

/-- The node id of an external target, shared between repositories. -/
def externalId (makeId : Str → Str → Str → NodeId) (owner method : Str) : NodeId :=
  makeId "external" (externalKey owner method) "external"

/-- The display name of an external target. -/
def externalDisplay (owner method : Str) : Str := simpleName owner ++ '.' :: method

example : classifyCall {} "java.sql.Connection" "close" [] = some .dbRelease := by decide +kernel

end GraphIngest.External
