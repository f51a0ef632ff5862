import GraphIngest.Foundation.Saturation

/-! # Gathering along edges, round by round

Every point holds a list and takes over, round by round, what its successors
hold, until a round adds nothing or a guard on the number of rounds is met. What
a point holds in the end is what the points hold at first that a chain of at
most as many edges leads to (`mem_settle`). A loop that stops before its guard
has followed every chain (`mem_saturate_of_converges`, `mem_settle_of_settles`).
-/

namespace GraphIngest.Foundation

section Convergence

variable {α : Type*} [DecidableEq α] {edges : List (α × α)}

/-- Whether some round marks nothing before the guard is met. -/
def converges (edges : List (α × α)) : Nat → List α → Bool
  | 0, _ => false
  | guard + 1, marked =>
      (spread edges marked).isEmpty || converges edges guard (marked ++ spread edges marked)

/-- What a loop that stops by itself marks is closed under the edges. -/
theorem closed_of_converges {guard : Nat} {marked : List α}
    (stops : converges edges guard marked = true) (first last : α)
    (start : first ∈ saturate edges guard marked) (edge : (first, last) ∈ edges) :
    last ∈ saturate edges guard marked := by
  induction guard generalizing marked with
  | zero => cases stops
  | succ guard ih =>
      unfold saturate at start ⊢
      rw [converges, Bool.or_eq_true] at stops
      cases settled : (spread edges marked).isEmpty with
      | true =>
          rw [settled] at start
          exact closed_of_spread_isEmpty settled first last start edge
      | false =>
          rw [settled] at start stops
          exact ih (stops.resolve_left Bool.noConfusion) start

/-- A loop that stops by itself has marked what any chain reaches. -/
theorem mem_saturate_of_converges {guard : Nat} {marked : List α}
    (stops : converges edges guard marked = true) {last : α} :
    last ∈ saturate edges guard marked ↔
      ∃ first ∈ marked, ∃ length, Chain (fun a b => (a, b) ∈ edges) length first last := by
  constructor
  · intro present
    obtain ⟨first, start, length, _, chain⟩ := mem_saturate.mp present
    exact ⟨first, start, length, chain⟩
  · intro ⟨first, start, length, chain⟩
    apply chain.closed (closed_of_converges stops)
    exact mem_saturate.mpr ⟨first, start, 0, Nat.zero_le _, .nil⟩

end Convergence

section Gathering

variable {α β : Type*} [DecidableEq α] [DecidableEq β] (edges : List (α × α))

/-- The ends of the edges that begin at a point. -/
def successors (point : α) : List α :=
  (edges.filter fun edge => edge.1 = point).map Prod.snd

/-- What a point holds with what its successors hold put behind it. -/
def gather (held : α → List β) (point : α) : List β :=
  ((successors edges point).map held).dedup.foldl
    (fun merged list => merged ++ list.filter fun item => item ∉ merged) (held point)

/-- Whether a point takes over anything. -/
def grows (held : α → List β) (point : α) : Bool :=
  decide ((held point).length < (gather edges held point).length)

/-- Gather, at most as many rounds as the guard allows and no further than the
first round that adds nothing. -/
def settle : Nat → (α → List β) → α → List β
  | 0, held => held
  | guard + 1, held =>
      if edges.any fun edge => grows edges held edge.1 then settle guard (gather edges held)
      else held

/-- Whether some round adds nothing before the guard is met. -/
def settles : Nat → (α → List β) → Bool
  | 0, _ => false
  | guard + 1, held =>
      !(edges.any fun edge => grows edges held edge.1) || settles guard (gather edges held)

variable {edges}

theorem mem_successors {point next : α} :
    next ∈ successors edges point ↔ (point, next) ∈ edges := by
  simp only [successors, List.mem_map, List.mem_filter, decide_eq_true_eq]
  constructor
  · rintro ⟨⟨first, last⟩, ⟨listed, rfl⟩, rfl⟩
    exact listed
  · exact fun listed => ⟨(point, next), ⟨listed, rfl⟩, rfl⟩

theorem mem_foldl_merge {lists : List (List β)} {merged : List β} {item : β} :
    item ∈ lists.foldl (fun merged list => merged ++ list.filter fun item => item ∉ merged) merged ↔
      item ∈ merged ∨ ∃ list ∈ lists, item ∈ list := by
  induction lists generalizing merged with
  | nil => simp only [List.foldl_nil, List.not_mem_nil, false_and, exists_false, or_false]
  | cons list lists ih =>
      rw [List.foldl_cons, ih, List.mem_append, List.mem_filter, decide_eq_true_eq]
      simp only [List.mem_cons, exists_eq_or_imp]
      by_cases before : item ∈ merged
      · exact iff_of_true (Or.inl (Or.inl before)) (Or.inl before)
      · simp only [before, not_false_eq_true, and_true, false_or]

/-- One round takes over what the successors hold. -/
theorem mem_gather {held : α → List β} {point : α} {item : β} :
    item ∈ gather edges held point ↔
      item ∈ held point ∨ ∃ next, (point, next) ∈ edges ∧ item ∈ held next := by
  rw [gather, mem_foldl_merge]
  simp only [List.mem_dedup, List.mem_map, mem_successors, exists_exists_and_eq_and]

theorem length_le_foldl_merge (lists : List (List β)) (merged : List β) :
    merged.length ≤ (lists.foldl
      (fun merged list => merged ++ list.filter fun item => item ∉ merged) merged).length := by
  induction lists generalizing merged with
  | nil => exact Nat.le_refl _
  | cons list lists ih =>
      refine Nat.le_trans ?_ (ih _)
      rw [List.length_append]
      exact Nat.le_add_right _ _

/-- A merge that adds no length has met nothing new. -/
theorem mem_of_foldl_merge_length {lists : List (List β)} {merged : List β}
    (still : (lists.foldl (fun merged list => merged ++ list.filter fun item => item ∉ merged)
      merged).length ≤ merged.length) {list : List β} (listed : list ∈ lists) {item : β}
    (member : item ∈ list) : item ∈ merged := by
  induction lists generalizing merged with
  | nil => cases listed
  | cons head lists ih =>
      have grown := length_le_foldl_merge lists (merged ++ head.filter fun item => item ∉ merged)
      rw [List.foldl_cons] at still
      rw [List.length_append] at grown
      have nothing : head.filter (fun item => decide (item ∉ merged)) = [] :=
        List.eq_nil_of_length_eq_zero (by omega)
      rcases List.mem_cons.mp listed with rfl | later
      · by_contra fresh
        exact List.filter_eq_nil_iff.mp nothing item member (decide_eq_true fresh)
      · rw [nothing, List.append_nil] at still
        exact ih still later

/-- What a point holds that no round extends is closed under the edges. -/
theorem closed_of_not_grows {held : α → List β}
    (still : (edges.any fun edge => grows edges held edge.1) = false) {point next : α}
    (edge : (point, next) ∈ edges) {item : β} (member : item ∈ held next) : item ∈ held point := by
  have short := List.any_eq_false.mp still (point, next) edge
  rw [grows, decide_eq_true_eq, Nat.not_lt] at short
  refine mem_of_foldl_merge_length short ?_ member
  exact List.mem_dedup.mpr (List.mem_map_of_mem (mem_successors.mpr edge))

/-- A point without successors holds what it held. -/
theorem settle_of_no_successors {guard : Nat} {held : α → List β} {point : α}
    (last : ∀ next, (point, next) ∉ edges) : settle edges guard held point = held point := by
  have alone : successors edges point = [] :=
    List.eq_nil_iff_forall_not_mem.mpr fun next listed => last next (mem_successors.mp listed)
  induction guard generalizing held with
  | zero => rfl
  | succ guard ih =>
      unfold settle
      split
      · rw [ih, gather, alone]
        rfl
      · rfl

/-- **Gathering.** A point holds in the end what is held at first at the ends of
chains of at most as many edges as the guard allows. -/
theorem mem_settle {guard : Nat} {held : α → List β} {point : α} {item : β} :
    item ∈ settle edges guard held point ↔
      ∃ last, ∃ length ≤ guard, Chain (fun a b => (a, b) ∈ edges) length point last ∧
        item ∈ held last := by
  induction guard generalizing held point with
  | zero =>
      constructor
      · exact fun present => ⟨point, 0, Nat.le_refl 0, .nil, present⟩
      · rintro ⟨last, length, within, chain, present⟩
        obtain rfl := Nat.le_zero.mp within
        cases chain
        exact present
  | succ guard ih =>
      unfold settle
      split
      · rw [ih]
        constructor
        · rintro ⟨last, length, within, chain, present⟩
          rcases mem_gather.mp present with before | ⟨next, edge, before⟩
          · exact ⟨last, length, Nat.le_succ_of_le within, chain, before⟩
          · exact ⟨next, length + 1, Nat.succ_le_succ within, chain.concat edge, before⟩
        · rintro ⟨last, length, within, chain, present⟩
          -- the last edge of a chain that uses up the guard is followed in the first round
          have back : Chain (fun a b => (b, a) ∈ edges) length last point := chain.reverse
          cases back with
          | nil => exact ⟨point, 0, Nat.zero_le _, .nil, mem_gather.mpr (Or.inl present)⟩
          | @cons length _ middle _ final rest =>
              exact ⟨middle, length, Nat.le_of_succ_le_succ within, rest.reverse,
                mem_gather.mpr (Or.inr ⟨last, final, present⟩)⟩
      · next still =>
          rw [Bool.not_eq_true] at still
          constructor
          · exact fun present => ⟨point, 0, Nat.zero_le _, .nil, present⟩
          · rintro ⟨last, length, _, chain, present⟩
            have back : Chain (fun a b => (b, a) ∈ edges) length last point := chain.reverse
            have step : ∀ a b, item ∈ held a → (b, a) ∈ edges → item ∈ held b :=
              fun _ _ before edge => closed_of_not_grows still edge before
            exact back.closed step present

/-- What a loop that stops by itself leaves is closed under the edges. -/
theorem closed_of_settles {guard : Nat} {held : α → List β}
    (stops : settles edges guard held = true) {point next : α} (edge : (point, next) ∈ edges)
    {item : β} (member : item ∈ settle edges guard held next) :
    item ∈ settle edges guard held point := by
  induction guard generalizing held with
  | zero => cases stops
  | succ guard ih =>
      unfold settle at member ⊢
      rw [settles, Bool.or_eq_true, Bool.not_eq_true'] at stops
      cases growing : edges.any fun edge => grows edges held edge.1 with
      | false =>
          rw [growing] at member
          exact closed_of_not_grows growing edge member
      | true =>
          rw [growing] at member stops
          exact ih (stops.resolve_left Bool.noConfusion) member

/-- **Convergence.** A loop that stops by itself has gathered what any chain
leads to. -/
theorem mem_settle_of_settles {guard : Nat} {held : α → List β}
    (stops : settles edges guard held = true) {point : α} {item : β} :
    item ∈ settle edges guard held point ↔
      ∃ last length, Chain (fun a b => (a, b) ∈ edges) length point last ∧ item ∈ held last := by
  constructor
  · intro present
    obtain ⟨last, length, _, chain, start⟩ := mem_settle.mp present
    exact ⟨last, length, chain, start⟩
  · rintro ⟨last, length, chain, start⟩
    have back : Chain (fun a b => (b, a) ∈ edges) length last point := chain.reverse
    have step : ∀ a b, item ∈ settle edges guard held a → (b, a) ∈ edges →
        item ∈ settle edges guard held b :=
      fun _ _ before edge => closed_of_settles stops edge before
    exact back.closed step (mem_settle.mpr ⟨last, 0, Nat.zero_le _, .nil, start⟩)

end Gathering

end GraphIngest.Foundation
