import GraphIngest.Foundation.Cutting
import GraphIngest.Foundation.Joining
import GraphIngest.Foundation.Memo
import GraphIngest.Resolve.Step
import Mathlib.Data.List.Induction

/-! # Segments remembered by node

The candidates a file's imports qualify are looked for by the segments of their fqns behind
the first. The segments are kept under the node's id from one call to the next. A segment is
an imported tail exactly when the fqn has the tail behind a dot, up to the next dot or to its
end. What is compared are the segments of the first node met under an id, which is the node's
own fqn unless nodes of different fqns share the id.
-/

namespace GraphIngest.Resolve

open Foundation Text Graph

/-- The segments of an fqn behind the first. -/
def dottedSegments (fqn : Str) : List Str := (splitBy '.' fqn).tail

/-- `fqn_segs_cache`. -/
abbrev SegmentCache := Dict NodeId (List Str)

/-- `_import_qualified_hits`, with the segments it leaves in the cache. -/
def importQualifiedHitsCached (candidates : List Node) (tails : List Str) (cache : SegmentCache) :
    List Node × SegmentCache :=
  if tails.isEmpty then ([], cache)
  else
    candidates.foldl (Memo.keepStep Node.id (fun node => dottedSegments node.fqn) fun segments =>
      segments.any fun segment => tails.contains segment) ([], cache)

/-- What a call is made with. -/
structure QualifiedCall where
  candidates : List Node
  tails : List Str

/-- The cache after a run of calls, empty before the first. -/
def cacheAfter (calls : List QualifiedCall) : SegmentCache :=
  calls.foldl (fun cache call => (importQualifiedHitsCached call.candidates call.tails cache).2)
    .empty

/-- The candidates a call looks at. -/
def QualifiedCall.probed (call : QualifiedCall) : List Node :=
  if call.tails.isEmpty then [] else call.candidates

/-- Whether a tail stands in an fqn behind a dot, up to the next dot or to the end. -/
def QualifiedBy (tail fqn : Str) : Prop := '.' :: tail ++ ['.'] <:+: fqn ∨ '.' :: tail <:+ fqn

instance (tail fqn : Str) : Decidable (QualifiedBy tail fqn) :=
  inferInstanceAs (Decidable (_ ∨ _))

/-- The segments meet the tails where the fqn is qualified by a tail. -/
theorem any_dottedSegments {tails : List Str} (dotless : ∀ tail ∈ tails, '.' ∉ tail) (fqn : Str) :
    ((dottedSegments fqn).any fun segment => tails.contains segment) =
      tails.any fun tail => QualifiedBy tail fqn := by
  rw [Bool.eq_iff_iff, List.any_eq_true, List.any_eq_true]
  simp only [List.contains_iff_mem, decide_eq_true_eq]
  constructor
  · intro shared
    obtain ⟨segment, listed, imported⟩ := shared
    exact ⟨segment, imported, (mem_tail_splitBy_iff (dotless segment imported)).mp listed⟩
  · intro qualified
    obtain ⟨tail, imported, stands⟩ := qualified
    exact ⟨tail, (mem_tail_splitBy_iff (dotless tail imported)).mpr stands, imported⟩

section Calls

variable {cache : SegmentCache} {met : List Node}

/-- A call keeps the candidates by the segments of the nodes first met. -/
theorem remembers_importQualifiedHitsCached
    (remembers : Memo.Remembers Node.id (fun node => dottedSegments node.fqn) cache met)
    (call : QualifiedCall) :
    (importQualifiedHitsCached call.candidates call.tails cache).1 =
        call.candidates.filter (fun node =>
          (dottedSegments (Memo.firstMet Node.id (met ++ call.candidates) node).fqn).any
            fun segment => call.tails.contains segment) ∧
      Memo.Remembers Node.id (fun node => dottedSegments node.fqn)
        (importQualifiedHitsCached call.candidates call.tails cache).2 (met ++ call.probed) := by
  unfold importQualifiedHitsCached QualifiedCall.probed
  cases none : call.tails.isEmpty with
  | true =>
      refine ⟨?_, ?_⟩
      · rw [List.isEmpty_iff.mp none]
        symm
        apply List.filter_eq_nil_iff.mpr
        intro node _ passes
        obtain ⟨segment, _, imported⟩ := List.any_eq_true.mp passes
        cases imported
      · simp only [↓reduceIte, List.append_nil]
        exact remembers
  | false => exact remembers.foldl_keepStep _ call.candidates []

theorem remembers_cacheAfter (calls : List QualifiedCall) :
    Memo.Remembers Node.id (fun node => dottedSegments node.fqn) (cacheAfter calls)
      (calls.flatMap QualifiedCall.probed) := by
  induction calls using List.reverseRecOn with
  | nil => exact Memo.remembers_empty _ _
  | append_singleton earlier call ih =>
      rw [cacheAfter, List.foldl_append, List.flatMap_append, List.flatMap_singleton]
      exact (remembers_importQualifiedHitsCached ih call).2

end Calls

/-- **Import segments.** After any calls, a call keeps the candidates for which the fqn first
met under the id is qualified by a tail, in their order; these are the candidates with a
qualified fqn when nodes met under one id have one fqn. -/
theorem importQualifiedHitsCached_eq (calls : List QualifiedCall) (candidates : List Node)
    {tails : List Str} (dotless : ∀ tail ∈ tails, '.' ∉ tail) :
    (importQualifiedHitsCached candidates tails (cacheAfter calls)).1 =
        candidates.filter (fun node => tails.any fun tail => QualifiedBy tail
          (Memo.firstMet Node.id (calls.flatMap QualifiedCall.probed ++ candidates) node).fqn) ∧
      ((∀ node ∈ candidates, ∀ other ∈ calls.flatMap QualifiedCall.probed ++ candidates,
          other.id = node.id → other.fqn = node.fqn) →
        (importQualifiedHitsCached candidates tails (cacheAfter calls)).1 =
          candidates.filter fun node => tails.any fun tail => QualifiedBy tail node.fqn) := by
  have kept := (remembers_importQualifiedHitsCached (remembers_cacheAfter calls)
    ⟨candidates, tails⟩).1
  simp only [any_dottedSegments dotless] at kept
  refine ⟨kept, fun agree => ?_⟩
  rw [kept]
  apply List.filter_congr
  intro node listed
  rw [@Memo.compute_firstMet _ _ _ _ Node.id Node.fqn _ node (agree node listed)]

/-- A class of an fqn, under an id of its own choice. -/
def classUnder (id : NodeId) (fqn : Str) : Node where
  id := id
  label := .cls
  name := simpleName fqn
  fqn := fqn
  repo := ['r']

/-- A file that imports `T` asks twice, for `p.T` and for the same class next to `q`. -/
theorem importQualifiedHitsCached_eq_asked :
    (importQualifiedHitsCached
        [classUnder (letterId 'a') ['p', '.', 'T'], classUnder (letterId 'b') ['q']] [['T']]
        (cacheAfter [⟨[classUnder (letterId 'a') ['p', '.', 'T']], [['T']]⟩])).1 =
      [classUnder (letterId 'a') ['p', '.', 'T']] := by
  rw [(importQualifiedHitsCached_eq _ _ (by decide)).2 (by decide)]
  decide

/-- Two classes under one id are compared by the fqn of the first. -/
theorem exists_sharedId_hit : ¬ ∀ (calls : List QualifiedCall) (candidates : List Node)
    (tails : List Str), (∀ tail ∈ tails, '.' ∉ tail) →
      (importQualifiedHitsCached candidates tails (cacheAfter calls)).1 =
        candidates.filter fun node => tails.any fun tail => QualifiedBy tail node.fqn := by
  intro matching
  have same := matching []
    [classUnder (letterId 'a') ['p', '.', 'T'], classUnder (letterId 'a') ['q']] [['T']] (by decide)
  revert same
  decide

/-- **Resolver.** Where ids tell fqns apart, the cache does not change what the imports of a
file qualify. -/
theorem importQualifiedHitsCached_importTailsOf (corpus : Corpus) (file : Str)
    (calls : List QualifiedCall) {candidates : List Node}
    (agree : ∀ node ∈ candidates, ∀ other ∈ calls.flatMap QualifiedCall.probed ++ candidates,
      other.id = node.id → other.fqn = node.fqn) :
    (importQualifiedHitsCached candidates (corpus.importTailsOf file) (cacheAfter calls)).1 =
      importQualifiedHits candidates (corpus.importTailsOf file) := by
  rw [(remembers_importQualifiedHitsCached (remembers_cacheAfter calls)
    ⟨candidates, corpus.importTailsOf file⟩).1]
  apply List.filter_congr
  intro node listed
  rw [@Memo.compute_firstMet _ _ _ _ Node.id Node.fqn _ node (agree node listed)]
  rfl

end GraphIngest.Resolve
