import GraphIngest.External.Classify

/-! # The taint properties of a function

What the store keeps of the catalogued calls of a function: the sink categories
it touches, whether it takes in untrusted data or sanitizes, and where. A
catalogued call shows in these properties by its role; two entries of the same
role, and for sinks of the same category, show alike.
-/

namespace GraphIngest.External

open Foundation Text Graph

/-- `taint_categories`, `taint_source`, `taint_sanitizer` and `taint_sites`. -/
structure FunctionTaint where
  categories : List Str := []
  source : Bool := false
  sanitizer : Bool := false
  sites : List TaintSite := []
deriving DecidableEq, Repr

/-- Whether a catalogued call shows: a sink by its category, a source by the
flag, a sanitizer by the flag or by a recorded site. -/
def FunctionTaint.Shows (taint : FunctionTaint) (entry : Entry) : Prop :=
  match entry.role with
  | .sink => entry.category ∈ taint.categories
  | .source => taint.source = true
  | .sanitizer => taint.sanitizer = true ∨ ∃ site ∈ taint.sites, site.role = .sanitizer

/-- Two entries that show in the same way. -/
def Alike (entry other : Entry) : Prop :=
  entry.role = other.role ∧ (other.role = .sink → entry.category = other.category)

instance (entry other : Entry) : Decidable (Alike entry other) :=
  inferInstanceAs (Decidable (_ ∧ _))

/-- A function without properties shows nothing. -/
theorem not_shows_empty (entry : Entry) : ¬ ({} : FunctionTaint).Shows entry := by
  unfold FunctionTaint.Shows
  cases entry.role with
  | sink => exact List.not_mem_nil
  | source => exact Bool.false_ne_true
  | sanitizer =>
      rintro (flagged | ⟨site, listed, _⟩)
      · exact Bool.false_ne_true flagged
      · exact List.not_mem_nil listed

instance (taint : FunctionTaint) (entry : Entry) : Decidable (taint.Shows entry) := by
  unfold FunctionTaint.Shows
  split <;> infer_instance

end GraphIngest.External
