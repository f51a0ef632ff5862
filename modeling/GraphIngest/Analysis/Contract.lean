import GraphIngest.Foundation.Json
import GraphIngest.Text

/-! # The summary contract

The shape of the summary that a model writes of one function, as the schema it is
held to. Every object in it is closed and requires all of its members.
-/

namespace GraphIngest.Analysis

open Foundation

/-- `TOUCHES`. -/
def touches : List Str :=
  ["sql", "exec", "file", "deserialize", "response", "reflection", "none"]

/-- `SOURCE_KINDS`. -/
def sourceKinds : List Str :=
  ["http_request", "rpc", "jsp", "message_queue", "file_input", "cli", "scheduled", "none"]

/-- `RESOURCE_TYPES`. -/
def resourceTypes : List Str :=
  ["Connection", "Statement", "ResultSet", "Session", "Stream", "none"]

/-- `CERTAINTY`. -/
def certainty : List Str := ["demonstrated", "probable", "speculative"]

/-- `IMPACT`. -/
def impact : List Str := ["exposure", "integrity", "correctness", "quality"]

def findingKinds : List Str :=
  ["sql_injection", "command_injection", "path_traversal", "deserialization", "xss", "xxe", "ssrf",
   "open_redirect", "log_injection",
   "hardcoded_secret", "weak_crypto", "weak_random", "tls_verification_disabled",
   "missing_authn", "missing_authz", "session_fixation", "insecure_cookie",
   "sensitive_data_logged",
   "resource_leak",
   "null_dereference", "correctness", "concurrency", "error_handling", "debug_code",
   "performance", "duplication", "dead_code", "complexity", "other"]

/-- A closed object all of whose members are required. -/
def record (properties : List (Str × Schema)) : Schema :=
  .object (properties.map Prod.fst) properties

/-- The `contracts` block. -/
def contractsSchema : Schema :=
  record
    [("may_return_null".toList, .boolean),
     ("null_condition".toList, .string),
     ("returns_sentinel".toList, .string),
     ("unguarded_calls".toList, .array .string),
     ("swallowed_exception_calls".toList, .array .string)]

/-- The `db` block. -/
def dbSchema : Schema :=
  record
    [("acquires".toList, .boolean),
     ("releases".toList, .boolean),
     ("released_in_finally".toList, .boolean),
     ("executes_sql".toList, .boolean),
     ("sql_is_dynamic".toList, .boolean),
     ("resources_leaked".toList, .array .string),
     ("throws_between_acquire_and_release".toList, .boolean),
     ("resource_types".toList, .array (.enum resourceTypes))]

/-- The `source` block. -/
def sourceSchema : Schema :=
  record
    [("is_entry_point".toList, .boolean),
     ("reads_untrusted".toList, .boolean),
     ("kinds".toList, .array (.enum sourceKinds))]

/-- The `guards` block. -/
def guardsSchema : Schema :=
  record
    [("is_sanitizer".toList, .boolean),
     ("authenticates".toList, .boolean),
     ("authorizes".toList, .boolean),
     ("validates_input".toList, .boolean),
     ("sanitizers_called".toList, .array .string)]

/-- One entry of `findings`. -/
def findingSchema : Schema :=
  record
    [("kind".toList, .enum findingKinds),
     ("line".toList, .integer),
     ("detail".toList, .string),
     ("certainty".toList, .enum certainty),
     ("impact".toList, .enum impact)]

/-- `_SUMMARY`. -/
def summarySchema : Schema :=
  record
    [("id".toList, .string),
     ("does".toList, .string),
     ("contracts".toList, contractsSchema),
     ("db".toList, dbSchema),
     ("touches".toList, .array (.enum touches)),
     ("source".toList, sourceSchema),
     ("guards".toList, guardsSchema),
     ("findings".toList, .array findingSchema)]

theorem findings_of_conforms {summary : Json} (conforming : summarySchema.conforms summary = true) :
    ∃ members entries, summary = .object members ∧
      members.lookup "findings".toList = some (.array entries) ∧
        ∀ entry ∈ entries, findingSchema.conforms entry = true := by
  have named : "findings".toList ∈ ["id".toList, "does".toList, "contracts".toList, "db".toList,
      "touches".toList, "source".toList, "guards".toList, "findings".toList] := by decide
  obtain ⟨found, held, typed⟩ := Schema.get?_of_required conforming named rfl
  obtain ⟨members, rfl, _, _⟩ := Schema.conforms_object conforming
  obtain ⟨entries, rfl, each⟩ := Schema.conforms_array typed
  exact ⟨members, entries, rfl, held, each⟩

/-- A conforming entry has a kind and nothing beside its five members. -/
theorem entry_of_conforms {entry : Json} (conforming : findingSchema.conforms entry = true) :
    ∃ members kind, entry = .object members ∧ members.lookup "kind".toList = some (.string kind) ∧
      members.lookup "confidence".toList = none := by
  have named : "kind".toList ∈ ["kind".toList, "line".toList, "detail".toList, "certainty".toList,
      "impact".toList] := by decide
  obtain ⟨found, held, typed⟩ := Schema.get?_of_required conforming named rfl
  have absent : entry.get? "confidence".toList = none :=
    Schema.get?_eq_none conforming (by decide)
  obtain ⟨members, rfl, _, _⟩ := Schema.conforms_object conforming
  obtain ⟨kind, _, rfl⟩ := Schema.conforms_enum typed
  exact ⟨members, kind, rfl, held, absent⟩

end GraphIngest.Analysis
