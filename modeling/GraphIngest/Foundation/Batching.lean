import Mathlib.Data.List.Basic

/-! # Writing behind in batches

A producer emits chunks; each chunk declares names and carries links between
names. A buffer collects chunks and hands them on as one batch as soon as it
holds enough links, and once more at the end. The receiver writes a batch by
learning its names first and then keeping the links it accepts under the names
known so far. Batching neither loses nor reorders a link, and a link that would
be accepted without batching is accepted with it.
-/

namespace GraphIngest.Foundation

/-- Declarations with the links that come along. -/
structure Chunk (α β : Type*) where
  declares : List α := []
  links : List β := []

namespace Chunk

variable {α β : Type*}

/-- Two chunks as one. -/
def append (first second : Chunk α β) : Chunk α β where
  declares := first.declares ++ second.declares
  links := first.links ++ second.links

/-- Whether a chunk carries nothing. -/
def isEmpty (chunk : Chunk α β) : Bool := chunk.declares.isEmpty && chunk.links.isEmpty

end Chunk

section Batches

variable {α β : Type*}

/-- The batches handed on: the buffer is flushed before a chunk when it holds at
least `limit` links, and at the end when it holds anything. -/
def batches (limit : Nat) : Chunk α β → List (Chunk α β) → List (Chunk α β)
  | pending, [] => if pending.isEmpty then [] else [pending]
  | pending, chunk :: rest =>
      if limit ≤ pending.links.length then pending :: batches limit chunk rest
      else batches limit (pending.append chunk) rest

/-- Batching neither loses nor reorders a declaration. -/
theorem flatMap_declares_batches (limit : Nat) (pending : Chunk α β) (chunks : List (Chunk α β)) :
    (batches limit pending chunks).flatMap Chunk.declares =
      pending.declares ++ chunks.flatMap Chunk.declares := by
  induction chunks generalizing pending with
  | nil =>
      unfold batches
      split
      · next empty =>
          simp only [Chunk.isEmpty, Bool.and_eq_true, List.isEmpty_iff] at empty
          simp only [List.flatMap_nil, empty, List.append_nil]
      · simp only [List.flatMap_cons, List.flatMap_nil]
  | cons chunk rest ih =>
      unfold batches
      split
      · rw [List.flatMap_cons, ih, List.flatMap_cons]
      · rw [ih, List.flatMap_cons, Chunk.append, List.append_assoc]

/-- Batching neither loses nor reorders a link. -/
theorem flatMap_links_batches (limit : Nat) (pending : Chunk α β) (chunks : List (Chunk α β)) :
    (batches limit pending chunks).flatMap Chunk.links =
      pending.links ++ chunks.flatMap Chunk.links := by
  induction chunks generalizing pending with
  | nil =>
      unfold batches
      split
      · next empty =>
          simp only [Chunk.isEmpty, Bool.and_eq_true, List.isEmpty_iff] at empty
          simp only [List.flatMap_nil, empty, List.append_nil]
      · simp only [List.flatMap_cons, List.flatMap_nil]
  | cons chunk rest ih =>
      unfold batches
      split
      · rw [List.flatMap_cons, ih, List.flatMap_cons]
      · rw [ih, List.flatMap_cons, Chunk.append, List.append_assoc]

/-- A link of a batch came with a chunk, and what was declared up to that chunk was
handed on with this batch or before it. -/
theorem exists_chunk_of_mem_batches {limit : Nat} {pending batch : Chunk α β}
    {chunks before after : List (Chunk α β)}
    (split : batches limit pending chunks = before ++ batch :: after) {link : β}
    (carried : link ∈ batch.links) :
    ∃ earlier chunk later, pending :: chunks = earlier ++ chunk :: later ∧ link ∈ chunk.links ∧
      ∀ name ∈ (earlier ++ [chunk]).flatMap Chunk.declares,
        name ∈ (before ++ [batch]).flatMap Chunk.declares := by
  induction chunks generalizing pending before with
  | nil =>
      unfold batches at split
      by_cases empty : pending.isEmpty = true
      · rw [if_pos empty] at split
        cases before <;> cases split
      · rw [if_neg empty] at split
        cases before with
        | nil =>
            obtain ⟨rfl, _⟩ := List.cons.inj split
            exact ⟨[], pending, [], rfl, carried, fun _ declared => declared⟩
        | cons _ before => cases before <;> cases List.cons.inj split |>.2
  | cons first rest ih =>
      unfold batches at split
      by_cases full : limit ≤ pending.links.length
      · rw [if_pos full] at split
        cases before with
        | nil =>
            obtain ⟨rfl, _⟩ := List.cons.inj split
            exact ⟨[], pending, first :: rest, rfl, carried, fun _ declared => declared⟩
        | cons flushed before =>
            obtain ⟨rfl, further⟩ := List.cons.inj split
            obtain ⟨earlier, chunk, later, parts, brought, declared⟩ := ih further
            refine ⟨pending :: earlier, chunk, later, by rw [parts]; rfl, brought, ?_⟩
            intro name listed
            rw [List.cons_append, List.flatMap_cons, List.mem_append] at listed ⊢
            exact listed.imp_right (declared name)
      · rw [if_neg full] at split
        obtain ⟨earlier, chunk, later, parts, brought, declared⟩ := ih split
        cases earlier with
        | nil =>
            obtain ⟨rfl, rfl⟩ := List.cons.inj parts
            rcases List.mem_append.mp brought with old | new
            · refine ⟨[], pending, first :: rest, rfl, old, fun name listed => declared name ?_⟩
              rw [List.nil_append, List.flatMap_singleton] at listed ⊢
              exact List.mem_append_left _ listed
            · refine ⟨[pending], first, rest, rfl, new, fun name listed => declared name ?_⟩
              rw [List.singleton_append, List.flatMap_cons, List.flatMap_singleton] at listed
              rw [List.nil_append, List.flatMap_singleton]
              exact listed
        | cons joined earlier =>
            obtain ⟨rfl, further⟩ := List.cons.inj parts
            refine ⟨pending :: first :: earlier, chunk, later, ?_, brought, ?_⟩
            · exact congrArg (pending :: first :: ·) further
            · intro name listed
              apply declared name
              rw [List.cons_append, List.cons_append, List.flatMap_cons, List.flatMap_cons,
                ← List.append_assoc] at listed
              exact listed

end Batches

/-- What a receiver knows and has kept. -/
structure Ledger (κ β : Type*) where
  known : List κ := []
  links : List β := []

namespace Ledger

variable {α β κ : Type*} (name : α → κ) (accepts : List κ → β → Bool)

/-- Write a batch: its names first, then the links accepted under them. -/
def write (ledger : Ledger κ β) (chunk : Chunk α β) : Ledger κ β where
  known := ledger.known ++ chunk.declares.map name
  links := ledger.links ++ chunk.links.filter (accepts (ledger.known ++ chunk.declares.map name))

/-- What is accepted under some names is accepted under more of them. -/
def Growing : Prop := ∀ known more link, (∀ word ∈ known, word ∈ more) →
  accepts known link = true → accepts more link = true

theorem known_foldl_write (chunks : List (Chunk α β)) (ledger : Ledger κ β) :
    (chunks.foldl (write name accepts) ledger).known =
      ledger.known ++ (chunks.flatMap Chunk.declares).map name := by
  induction chunks generalizing ledger with
  | nil => simp only [List.foldl_nil, List.flatMap_nil, List.map_nil, List.append_nil]
  | cons chunk rest ih =>
      rw [List.foldl_cons, ih, write, List.flatMap_cons, List.map_append, List.append_assoc]

variable {name accepts}

/-- A kept link stays. -/
theorem mem_foldl_write_of_mem {chunks : List (Chunk α β)} {ledger : Ledger κ β} {link : β}
    (kept : link ∈ ledger.links) : link ∈ (chunks.foldl (write name accepts) ledger).links := by
  induction chunks generalizing ledger with
  | nil => exact kept
  | cons chunk rest ih => exact ih (List.mem_append_left _ kept)

/-- Every kept link was there or came with some chunk. -/
theorem mem_of_mem_foldl_write {chunks : List (Chunk α β)} {ledger : Ledger κ β} {link : β}
    (kept : link ∈ (chunks.foldl (write name accepts) ledger).links) :
    link ∈ ledger.links ∨ link ∈ chunks.flatMap Chunk.links := by
  induction chunks generalizing ledger with
  | nil => exact Or.inl kept
  | cons chunk rest ih =>
      rw [List.flatMap_cons, List.mem_append]
      rcases ih kept with written | later
      · rcases List.mem_append.mp written with before | now
        · exact Or.inl before
        · exact Or.inr (Or.inl (List.mem_of_mem_filter now))
      · exact Or.inr (Or.inr later)

/-- What is kept is acceptable under the names known in the end. -/
theorem accepts_of_mem_foldl_write (grows : Growing accepts) {chunks : List (Chunk α β)}
    {ledger : Ledger κ β} (before : ∀ link ∈ ledger.links, accepts ledger.known link) :
    ∀ link ∈ (chunks.foldl (write name accepts) ledger).links,
      accepts (chunks.foldl (write name accepts) ledger).known link := by
  induction chunks generalizing ledger with
  | nil => exact before
  | cons chunk rest ih =>
      refine ih fun link kept => ?_
      rcases List.mem_append.mp kept with earlier | now
      · exact grows _ _ _ (fun _ => List.mem_append_left _) (before link earlier)
      · exact (List.mem_filter.mp now).2

/-- Who knows more names keeps more links. -/
theorem links_sublist (grows : Growing accepts) {chunks : List (Chunk α β)}
    {small large : Ledger κ β} (names : ∀ word ∈ small.known, word ∈ large.known)
    (links : small.links.Sublist large.links) :
    (chunks.foldl (write name accepts) small).links.Sublist
      (chunks.foldl (write name accepts) large).links := by
  induction chunks generalizing small large with
  | nil => exact links
  | cons chunk rest ih =>
      have further : ∀ word ∈ small.known ++ chunk.declares.map name,
          word ∈ large.known ++ chunk.declares.map name := by
        intro word listed
        rcases List.mem_append.mp listed with old | new
        · exact List.mem_append_left _ (names word old)
        · exact List.mem_append_right _ new
      refine ih further (links.append ?_)
      exact List.monotone_filter_right _ fun link => grows _ _ link further

/-- A link that is acceptable under the names known when its chunk is written is
kept. -/
theorem mem_foldl_write {before after : List (Chunk α β)} {chunk : Chunk α β}
    {ledger : Ledger κ β} {link : β} (carried : link ∈ chunk.links)
    (accepted : accepts (ledger.known ++ ((before ++ [chunk]).flatMap Chunk.declares).map name)
      link) :
    link ∈ ((before ++ chunk :: after).foldl (write name accepts) ledger).links := by
  rw [List.flatMap_append, List.flatMap_cons, List.flatMap_nil, List.append_nil, List.map_append,
    ← List.append_assoc] at accepted
  rw [List.foldl_append, List.foldl_cons]
  apply mem_foldl_write_of_mem
  refine List.mem_append_right _ (List.mem_filter.mpr ⟨carried, ?_⟩)
  rwa [known_foldl_write]

/-- The chunk of a stream that brings a link, with the names declared up to it. -/
inductive Brings (name : α → κ) (link : β) : List κ → List (Chunk α β) → List κ → Prop
  | here {known chunk rest} (carried : link ∈ chunk.links) :
      Brings name link known (chunk :: rest) (known ++ chunk.declares.map name)
  | later {known chunk rest final}
      (further : Brings name link (known ++ chunk.declares.map name) rest final) :
      Brings name link known (chunk :: rest) final

/-- Collecting two chunks into one brings a link no earlier than its names. -/
theorem Brings.merge {link : β} {known final : List κ} {first second : Chunk α β}
    {rest : List (Chunk α β)} (brings : Brings name link known (first :: second :: rest) final) :
    ∃ more, Brings name link known (first.append second :: rest) (final ++ more) := by
  cases brings with
  | here carried =>
      refine ⟨second.declares.map name, ?_⟩
      rw [List.append_assoc, ← List.map_append]
      exact Brings.here (List.mem_append_left _ carried)
  | later further =>
      cases further with
      | here carried =>
          refine ⟨[], ?_⟩
          rw [List.append_nil, List.append_assoc, ← List.map_append]
          exact Brings.here (List.mem_append_right _ carried)
      | later beyond =>
          refine ⟨[], ?_⟩
          rw [List.append_assoc, ← List.map_append] at beyond
          rw [List.append_nil]
          exact Brings.later beyond

/-- **Batched writing.** A link that is acceptable under the names declared up to
its own chunk is kept, whatever the size of the batches. -/
theorem mem_links_of_brings (grows : Growing accepts) {limit : Nat} {pending : Chunk α β}
    {chunks : List (Chunk α β)} {ledger : Ledger κ β} {link : β} {final : List κ}
    (brings : Brings name link ledger.known (pending :: chunks) final)
    (accepted : accepts final link) :
    link ∈ ((batches limit pending chunks).foldl (write name accepts) ledger).links := by
  induction chunks generalizing pending ledger final with
  | nil =>
      cases brings with
      | here carried =>
          unfold batches
          split
          · next empty =>
              simp only [Chunk.isEmpty, Bool.and_eq_true, List.isEmpty_iff] at empty
              exact (List.not_mem_nil (empty.2 ▸ carried)).elim
          · exact List.mem_append_right _ (List.mem_filter.mpr ⟨carried, accepted⟩)
      | later further => cases further
  | cons chunk rest ih =>
      unfold batches
      split
      · rw [List.foldl_cons]
        cases brings with
        | here carried =>
            apply mem_foldl_write_of_mem
            exact List.mem_append_right _ (List.mem_filter.mpr ⟨carried, accepted⟩)
        | later further => exact ih further accepted
      · obtain ⟨more, merged⟩ := brings.merge
        exact ih merged (grows _ _ link (fun _ => List.mem_append_left more) accepted)

end Ledger

end GraphIngest.Foundation
