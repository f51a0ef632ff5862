import GraphIngest.External.Taint
import GraphIngest.Graph.Store
import Mathlib.Data.Finset.Basic
import Mathlib.Tactic.MkIffOfInductiveProp

/-! # What a database holds

A node with all that is kept of it, and the relationships between nodes. Deleting a
node takes its relationships along. A record put over another one fills what it has a
value for, so that it takes the other's place exactly when it leaves nothing of it.
-/

namespace GraphIngest.Pipeline

open Foundation Text Graph External

section Records

/-- The taint properties after one more write. -/
def putTaint (old new : FunctionTaint) : FunctionTaint where
  categories := rewrite [] old.categories new.categories
  source := rewrite false old.source new.source
  sanitizer := rewrite false old.sanitizer new.sanitizer
  sites := rewrite [] old.sites new.sites

/-- A node as held: its labels, and with its other properties the hash of the file it
stands for and its taint properties. -/
structure NodeRecord where
  labels : Finset NodeLabel
  props : StoredNode
  fileHash : Str
  taint : FunctionTaint
  bare : props.labels = []
deriving DecidableEq

/-- `SET n:label, n += row.props`. -/
def NodeRecord.over (old new : NodeRecord) : NodeRecord where
  labels := old.labels ∪ new.labels
  props := old.props.over new.props
  fileHash := rewrite [] old.fileHash new.fileHash
  taint := putTaint old.taint new.taint
  bare := by
    change new.props.labels.foldl _ old.props.labels = []
    rw [new.bare, old.bare]
    rfl

/-- A property that is absent now was absent before. -/
def Fills {α : Type*} (absent new old : α) : Prop := new = absent → old = absent

instance {α : Type*} [DecidableEq α] (absent new old : α) : Decidable (Fills absent new old) :=
  inferInstanceAs (Decidable (_ → _))

/-- No property of a node is left from before. -/
@[mk_iff]
structure CoversProps (new old : StoredNode) : Prop where
  name : Fills [] new.name old.name
  fqn : Fills [] new.fqn old.fqn
  repo : Fills [] new.repo old.repo
  kind : Fills .none new.kind old.kind
  lang : Fills .none new.lang old.lang
  file : Fills [] new.file old.file
  startLine : Fills 0 new.startLine old.startLine
  endLine : Fills 0 new.endLine old.endLine
  visibility : Fills .none new.visibility old.visibility
  isStatic : Fills false new.isStatic old.isStatic
  isAbstract : Fills false new.isAbstract old.isAbstract
  returnType : Fills [] new.returnType old.returnType
  paramCount : Fills 0 new.paramCount old.paramCount
  signature : Fills [] new.signature old.signature
  method : Fills [] new.method old.method
  route : Fills [] new.route old.route
  scope : Fills .none new.scope old.scope

/-- No taint property is left from before; where the properties of sinks and sources are
set anew in any case, only the sanitizer can be. -/
structure CoversTaint (set : Prop) (new old : FunctionTaint) : Prop where
  sanitizer : Fills false new.sanitizer old.sanitizer
  categories : ¬ set → Fills [] new.categories old.categories
  source : ¬ set → Fills false new.source old.source
  sites : ¬ set → Fills [] new.sites old.sites

/-- Nothing of a node is left from before. -/
structure NodeRecord.Covers (set : Prop) (new old : NodeRecord) : Prop where
  labels : old.labels ⊆ new.labels
  props : CoversProps new.props old.props
  fileHash : Fills [] new.fileHash old.fileHash
  taint : CoversTaint set new.taint old.taint

/-- No property of a relationship is left from before. -/
structure CoversLink (new old : Relationship) : Prop where
  evidenceLine : Fills 0 new.evidenceLine old.evidenceLine
  strategy : Fills [] new.strategy old.strategy

end Records

section Algebra

variable {α : Type*} [DecidableEq α] {absent : α}

theorem rewrite_assoc (first second third : α) :
    rewrite absent (rewrite absent first second) third =
      rewrite absent first (rewrite absent second third) := by
  unfold rewrite
  by_cases gone : third = absent
  · simp only [gone, ↓reduceIte]
  · simp only [gone, ↓reduceIte]

/-- Writing over a value leaves the new one where this fills what the old one had. -/
theorem rewrite_eq_new {old new : α} : rewrite absent old new = new ↔ Fills absent new old := by
  unfold rewrite Fills
  by_cases gone : new = absent
  · simp only [gone, ↓reduceIte, true_imp_iff]
  · simp only [gone, ↓reduceIte, false_imp_iff]

theorem putTaint_assoc (first second third : FunctionTaint) :
    putTaint (putTaint first second) third = putTaint first (putTaint second third) := by
  simp only [putTaint, rewrite_assoc]

/-- Writing a taint over another leaves the new one where it covers the old one. -/
theorem putTaint_eq_new {old new : FunctionTaint} :
    putTaint old new = new ↔ CoversTaint False new old := by
  obtain ⟨categories, source, sanitizer, sites⟩ := new
  simp only [putTaint, FunctionTaint.mk.injEq, rewrite_eq_new]
  constructor
  · rintro ⟨kinds, input, cleans, places⟩
    exact ⟨cleans, fun _ => kinds, fun _ => input, fun _ => places⟩
  · intro covers
    exact ⟨covers.categories id, covers.source id, covers.sanitizer, covers.sites id⟩

/-- Writing a node over another leaves the new one where it covers the old one. -/
theorem overProps_eq_new {old new : StoredNode} (oldBare : old.labels = [])
    (newBare : new.labels = []) : old.over new = new ↔ CoversProps new old := by
  obtain ⟨_, _⟩ := new
  obtain ⟨_, _⟩ := old
  subst oldBare newBare
  simp only [StoredNode.over, StoredNode.mk.injEq, rewrite_eq_new, List.foldl_nil, true_and,
    and_true, coversProps_iff]

namespace NodeRecord

theorem ext_iff {first second : NodeRecord} : first = second ↔ first.labels = second.labels ∧
    first.props = second.props ∧ first.fileHash = second.fileHash ∧
      first.taint = second.taint := by
  obtain ⟨_, _, _, _, _⟩ := first
  obtain ⟨_, _, _, _, _⟩ := second
  simp only [mk.injEq]

theorem over_assoc (first second third : NodeRecord) :
    (first.over second).over third = first.over (second.over third) := by
  have props : (first.props.over second.props).over third.props =
      first.props.over (second.props.over third.props) := by
    simp only [StoredNode.over, rewrite_assoc, first.bare, second.bare, third.bare, List.foldl_nil]
  exact ext_iff.mpr ⟨Finset.union_assoc _ _ _, props, rewrite_assoc _ _ _, putTaint_assoc _ _ _⟩

/-- A record takes the place of the one it is put over exactly when it covers it. -/
theorem over_eq_new {old new : NodeRecord} : old.over new = new ↔ new.Covers False old := by
  rw [ext_iff]
  simp only [NodeRecord.over, Finset.union_eq_right, rewrite_eq_new, putTaint_eq_new,
    overProps_eq_new old.bare new.bare]
  constructor
  · rintro ⟨labels, props, fileHash, taint⟩
    exact ⟨labels, props, fileHash, taint⟩
  · intro covers
    exact ⟨covers.labels, covers.props, covers.fileHash, covers.taint⟩

end NodeRecord

theorem overLink_assoc (first second third : Relationship) :
    (first.over second).over third = first.over (second.over third) := by
  simp only [Relationship.over, rewrite_assoc]

/-- Writing a relationship over another leaves the new one where it covers the old one. -/
theorem overLink_eq_new {old new : Relationship} : old.over new = new ↔ CoversLink new old := by
  obtain ⟨_, _, _, _⟩ := new
  simp only [Relationship.over, Relationship.mk.injEq, rewrite_eq_new, true_and]
  constructor
  · rintro ⟨evidenceLine, strategy⟩
    exact ⟨evidenceLine, strategy⟩
  · intro covers
    exact ⟨covers.evidenceLine, covers.strategy⟩

end Algebra

/-- The nodes and relationships that are held. -/
structure Holding where
  nodes : Dict NodeId NodeRecord := Dict.empty
  relationships : Dict EdgeKey Relationship := Dict.empty

namespace Holding

variable (holding : Holding) (doomed : NodeRecord → Bool)

/-- Whether an id is that of a node that goes. -/
def goes (id : NodeId) : Bool :=
  match holding.nodes.get? id with
  | some record => doomed record
  | none => false

/-- `DETACH DELETE`. -/
def delete : Holding where
  nodes := holding.nodes.filter fun _ record => !doomed record
  relationships := holding.relationships.filter fun key _ =>
    !holding.goes doomed key.2.1 && !holding.goes doomed key.2.2

/-- `wipe`: the nodes of a repository go. -/
def wipe (repo : Str) : Holding := holding.delete fun record => decide (record.props.repo = repo)

/-- `delete_files`: the nodes of a repository that belong to some files go. -/
def deleteFiles (repo : Str) (relpaths : List Str) : Holding :=
  holding.delete fun record => decide (record.props.repo = repo) &&
    decide (record.props.file ≠ []) && decide (record.props.file ∈ relpaths)

/-- `file_shas`: the hash on each file node of a repository. -/
def fileShas (repo : Str) : Dict Str Str :=
  (holding.nodes.entries.filter fun entry =>
    decide (NodeLabel.file ∈ entry.2.labels) && decide (entry.2.props.repo = repo) &&
      decide (entry.2.props.file ≠ []) && decide (entry.2.fileHash ≠ [])).foldl
    (fun shas entry => shas.set entry.2.props.file entry.2.fileHash) Dict.empty

/-- No relationship is held without its ends. -/
def Closed : Prop := ∀ key link, holding.relationships.get? key = some link →
  (holding.nodes.get? key.2.1).isSome ∧ (holding.nodes.get? key.2.2).isSome

theorem closed_empty : Closed {} := fun _ _ held => nomatch held

/-- A node is still there after a deletion if it was there and does not go. -/
theorem isSome_get?_nodes_delete {id : NodeId} :
    ((holding.delete doomed).nodes.get? id).isSome ↔
      (holding.nodes.get? id).isSome ∧ holding.goes doomed id = false := by
  rw [delete, Dict.get?_filter, goes]
  cases holding.nodes.get? id with
  | none => simp only [Option.filter_none, Option.isSome_none, Bool.false_eq_true, false_and]
  | some record =>
      simp only [Option.isSome_some, true_and]
      cases gone : doomed record with
      | false => simp only [Option.filter_some, gone, Bool.not_false, ↓reduceIte, Option.isSome_some]
      | true => simp only [Option.filter_some, gone, Bool.not_true, Bool.false_eq_true, ↓reduceIte,
          Option.isSome_none, reduceCtorEq]

variable {holding}

/-- The relationships of a node go along with it. -/
theorem Closed.delete (closed : holding.Closed) : (holding.delete doomed).Closed := by
  intro key link held
  rw [isSome_get?_nodes_delete, isSome_get?_nodes_delete]
  rw [Holding.delete, Dict.get?_filter, Option.filter_eq_some_iff, Bool.and_eq_true,
    Bool.not_eq_true', Bool.not_eq_true'] at held
  obtain ⟨present, source, target⟩ := held
  have ends := closed key link present
  exact ⟨⟨ends.1, source⟩, ⟨ends.2, target⟩⟩

end Holding

end GraphIngest.Pipeline
