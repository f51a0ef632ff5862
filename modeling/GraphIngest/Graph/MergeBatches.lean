import GraphIngest.Graph.Bundle

/-! # Merging batch by batch

The loop of the merge goes through the bundles one after another with three
registries, one for nodes, one for edges and one for references. The files of a
repository are merged batch by batch as they are extracted, the batches are put
one behind the other, and what comes out is merged once more.
-/

namespace GraphIngest.Graph

open Foundation

/-- The variables of the merge loop: the lists kept, with the keys seen. -/
structure Merging where
  nodes : Registry Node.id
  edges : Registry Edge.site
  refs : Registry RawRef.site

namespace Merging

/-- The variables before the first bundle. -/
def start : Merging where
  nodes := .ofItems [] List.nodup_nil
  edges := .ofItems [] List.nodup_nil
  refs := .ofItems [] List.nodup_nil

/-- One round of the loop of `merge_bundles`. -/
def absorb (merging : Merging) (bundle : Bundle) : Merging where
  nodes := bundle.nodes.foldl Registry.add merging.nodes
  edges := bundle.edges.foldl Registry.add merging.edges
  refs := bundle.refs.foldl Registry.add merging.refs

/-- The lists kept. -/
def bundle (merging : Merging) : Bundle where
  nodes := merging.nodes.items
  edges := merging.edges.items
  refs := merging.refs.items

theorem nodes_foldl_absorb (merging : Merging) (bundles : List Bundle) :
    (bundles.foldl absorb merging).nodes =
      (bundles.flatMap Bundle.nodes).foldl Registry.add merging.nodes := by
  rw [List.foldl_flatMap]
  exact (List.foldl_hom Merging.nodes fun _ _ => rfl).symm

theorem edges_foldl_absorb (merging : Merging) (bundles : List Bundle) :
    (bundles.foldl absorb merging).edges =
      (bundles.flatMap Bundle.edges).foldl Registry.add merging.edges := by
  rw [List.foldl_flatMap]
  exact (List.foldl_hom Merging.edges fun _ _ => rfl).symm

theorem refs_foldl_absorb (merging : Merging) (bundles : List Bundle) :
    (bundles.foldl absorb merging).refs =
      (bundles.flatMap Bundle.refs).foldl Registry.add merging.refs := by
  rw [List.foldl_flatMap]
  exact (List.foldl_hom Merging.refs fun _ _ => rfl).symm

end Merging

/-- `merge_bundles`, loop by loop. -/
def mergeLoop (bundles : List Bundle) : Bundle :=
  (bundles.foldl Merging.absorb .start).bundle

/-- The loop keeps what the merge keeps. -/
theorem mergeLoop_eq (bundles : List Bundle) : mergeLoop bundles = mergeBundles bundles := by
  unfold mergeLoop Merging.bundle mergeBundles keptRefs
  rw [Merging.nodes_foldl_absorb, Merging.edges_foldl_absorb, Merging.refs_foldl_absorb,
    Registry.items_foldl_add, Registry.items_foldl_add, Registry.items_foldl_add]
  rfl

/-- The lists of several bundles, one behind the other. -/
def concatenated (bundles : List Bundle) : Bundle where
  nodes := bundles.flatMap Bundle.nodes
  edges := bundles.flatMap Bundle.edges
  refs := bundles.flatMap Bundle.refs

/-- The merge of one batch; a batch without bundles is not merged. -/
def mergedBatch (batch : List Bundle) : Bundle :=
  if batch.isEmpty then {} else mergeLoop batch

/-- The final merge over all batches. -/
def mergedBatches (batches : List (List Bundle)) : Bundle :=
  mergeLoop [concatenated (batches.map mergedBatch)]

theorem mergedBatch_eq (batch : List Bundle) : mergedBatch batch = mergeBundles batch := by
  unfold mergedBatch
  split
  · next empty => rw [List.isEmpty_iff.mp empty]; rfl
  · exact mergeLoop_eq batch

/-- Thinning out the lists of each batch and then those of all batches is thinning
out those of all bundles. -/
theorem accepted_batches {α κ : Type*} [DecidableEq κ] (name : α → κ) (part : Bundle → List α)
    (batches : List (List Bundle)) :
    accepted name [] (batches.flatMap fun batch => accepted name [] (batch.flatMap part)) =
      accepted name [] (batches.flatten.flatMap part) := by
  have whole : batches.flatten.flatMap part = batches.flatMap fun batch => batch.flatMap part := by
    rw [← List.flatMap_id, List.flatMap_assoc]
    rfl
  have pieces := @accepted_flatMap_accepted _ _ _ name
    (batches.map fun batch => batch.flatMap part) []
  rw [List.flatMap_map, ← List.flatMap_def] at pieces
  rw [whole]
  exact pieces

/-- Merging batch by batch and once more over the batches keeps the same nodes,
edges and references in the same order as merging all bundles at once. -/
theorem mergedBatches_eq (batches : List (List Bundle)) :
    mergedBatches batches = mergeLoop batches.flatten := by
  have batchwise : batches.map mergedBatch = batches.map mergeBundles :=
    List.map_congr_left fun batch _ => mergedBatch_eq batch
  unfold mergedBatches
  rw [mergeLoop_eq, mergeLoop_eq, batchwise]
  simp only [mergeBundles, keptRefs, concatenated, List.flatMap_singleton, List.flatMap_map,
    accepted_batches]

end GraphIngest.Graph
