import Mathlib.Data.List.Basic
import Mathlib.Logic.Relation

/-! # Search by levels

A frontier is scanned for points not seen before; what the new points lead to is
the next frontier. Each round but the last finds a new point, so that over a
finite universe a number of rounds suffices, more rounds change nothing, and what
is found is what can be reached.
-/

namespace GraphIngest.Foundation

variable {κ : Type*} [DecidableEq κ] (next : κ → List κ)

/-- One round: the new points of a frontier, and what they lead to. -/
def level (seen frontier : List κ) : List κ × List κ :=
  frontier.foldl (fun found point =>
    if point ∈ seen ∨ point ∈ found.1 then found
    else (found.1 ++ [point], found.2 ++ next point)) ([], [])

/-- The points found in some rounds, in the order of the rounds. -/
def search : Nat → List κ → List κ → List κ
  | 0, _, _ => []
  | rounds + 1, seen, frontier =>
      if frontier.isEmpty then []
      else
        let found := level next seen frontier
        found.1 ++ search rounds (seen ++ found.1) found.2

section Level

variable {next} {seen : List κ}

private theorem level_foldl (frontier : List κ) (found : List κ × List κ)
    (led : found.2 = found.1.flatMap next) (point : κ) :
    let after := frontier.foldl (fun found point =>
      if point ∈ seen ∨ point ∈ found.1 then found
      else (found.1 ++ [point], found.2 ++ next point)) found
    after.2 = after.1.flatMap next ∧
      (point ∈ after.1 ↔ point ∈ found.1 ∨ point ∈ frontier ∧ point ∉ seen) := by
  induction frontier generalizing found with
  | nil => exact ⟨led, by simp only [List.foldl_nil, List.not_mem_nil, false_and, or_false]⟩
  | cons head rest ih =>
      rw [List.foldl_cons]
      by_cases old : head ∈ seen ∨ head ∈ found.1
      · rw [if_pos old]
        obtain ⟨leads, mem⟩ := ih found led
        refine ⟨leads, mem.trans ?_⟩
        rw [List.mem_cons]
        constructor
        · exact Or.imp_right fun ⟨waiting, fresh⟩ => ⟨Or.inr waiting, fresh⟩
        · rintro (before | ⟨rfl | waiting, fresh⟩)
          · exact Or.inl before
          · exact Or.inl (old.resolve_left fresh)
          · exact Or.inr ⟨waiting, fresh⟩
      · rw [if_neg old]
        obtain ⟨leads, mem⟩ := ih (found.1 ++ [head], found.2 ++ next head) (by
          rw [led, List.flatMap_append, List.flatMap_singleton])
        refine ⟨leads, mem.trans ?_⟩
        rw [List.mem_append, List.mem_singleton, List.mem_cons, or_assoc]
        refine or_congr_right ?_
        constructor
        · rintro (rfl | ⟨waiting, fresh⟩)
          · exact ⟨Or.inl rfl, fun known => old (Or.inl known)⟩
          · exact ⟨Or.inr waiting, fresh⟩
        · rintro ⟨rfl | waiting, fresh⟩
          · exact Or.inl rfl
          · exact Or.inr ⟨waiting, fresh⟩

/-- A round finds the points of the frontier not seen before. -/
theorem mem_level {frontier : List κ} {point : κ} :
    point ∈ (level next seen frontier).1 ↔ point ∈ frontier ∧ point ∉ seen :=
  (level_foldl frontier ([], []) rfl point).2.trans (or_iff_right List.not_mem_nil)

/-- The next frontier is what the new points lead to. -/
theorem snd_level (frontier : List κ) :
    (level next seen frontier).2 = (level next seen frontier).1.flatMap next := by
  cases frontier with
  | nil => rfl
  | cons head rest => exact (level_foldl (head :: rest) ([], []) rfl head).1

/-- The next frontier stays among the points that can be led to. -/
theorem mem_of_mem_snd_level {points frontier : List κ}
    (bounded : ∀ point, ∀ later ∈ next point, later ∈ points) {later : κ}
    (reached : later ∈ (level next seen frontier).2) : later ∈ points := by
  rw [snd_level] at reached
  obtain ⟨point, _, leads⟩ := List.mem_flatMap.mp reached
  exact bounded point later leads

end Level

section Search

variable {next}

/-- From what is seen already nothing is found. -/
theorem search_of_subset {rounds : Nat} {seen frontier : List κ}
    (known : ∀ point ∈ frontier, point ∈ seen) : search next rounds seen frontier = [] := by
  cases rounds with
  | zero => rfl
  | succ rounds =>
      have nothing : (level next seen frontier).1 = [] := by
        rw [List.eq_nil_iff_forall_not_mem]
        exact fun point new => (mem_level.mp new).2 (known point (mem_level.mp new).1)
      unfold search
      split
      · rfl
      · simp only [snd_level, nothing, List.flatMap_nil, List.nil_append, List.append_nil]
        cases rounds <;> rfl

/-- The points of a list not seen yet. -/
def unseen (points seen : List κ) : List κ := points.filter fun point => point ∉ seen

/-- A new point of the list leaves fewer of them unseen. -/
theorem length_unseen_lt {points seen more : List κ} {point : κ} (inside : point ∈ points)
    (fresh : point ∉ seen) (new : point ∈ more) :
    (unseen points (seen ++ more)).length < (unseen points seen).length := by
  have split : unseen points (seen ++ more) =
      (unseen points seen).filter fun point => point ∉ more := by
    simp only [unseen, List.filter_filter, List.mem_append, not_or, Bool.decide_and, Bool.and_comm]
  rw [split, List.length_filter_lt_length_iff_exists]
  exact ⟨point, List.mem_filter.mpr ⟨inside, decide_eq_true fresh⟩, by
    simpa only [decide_eq_true_eq, not_not] using new⟩

/-- Where no point is unseen, a frontier is seen. -/
theorem mem_of_no_unseen {points seen frontier : List κ}
    (inside : ∀ point ∈ frontier, point ∈ points) (none : (unseen points seen).length ≤ 0) :
    ∀ point ∈ frontier, point ∈ seen := by
  intro point waiting
  by_contra fresh
  have left : point ∈ unseen points seen :=
    List.mem_filter.mpr ⟨inside point waiting, decide_eq_true fresh⟩
  rw [List.length_eq_zero_iff.mp (Nat.le_zero.mp none)] at left
  cases left

/-- A frontier with a new point leaves fewer points unseen, and the search goes on
behind it. -/
theorem search_of_new {points seen frontier : List κ} (rounds : Nat)
    (inside : ∀ point ∈ frontier, point ∈ points) (new : ¬ ∀ point ∈ frontier, point ∈ seen) :
    (unseen points (seen ++ (level next seen frontier).1)).length <
        (unseen points seen).length ∧
      search next (rounds + 1) seen frontier =
        (level next seen frontier).1 ++
          search next rounds (seen ++ (level next seen frontier).1)
            (level next seen frontier).2 := by
  obtain ⟨point, waiting, fresh⟩ : ∃ point ∈ frontier, point ∉ seen := by
    simpa only [not_forall, exists_prop] using new
  constructor
  · exact length_unseen_lt (inside point waiting) fresh (mem_level.mpr ⟨waiting, fresh⟩)
  · have busy : frontier.isEmpty = false :=
      List.isEmpty_eq_false_iff.mpr (List.ne_nil_of_mem waiting)
    simp only [search, busy, Bool.false_eq_true, ↓reduceIte]

/-- With rounds enough for the unseen points, more rounds change nothing. -/
theorem search_stable {points : List κ}
    (bounded : ∀ point, ∀ later ∈ next point, later ∈ points) {rounds more : Nat}
    {seen frontier : List κ} (inside : ∀ point ∈ frontier, point ∈ points)
    (enough : (unseen points seen).length ≤ rounds) (still : rounds ≤ more) :
    search next more seen frontier = search next rounds seen frontier := by
  induction rounds generalizing more seen frontier with
  | zero =>
      have known := mem_of_no_unseen inside enough
      rw [search_of_subset known, search_of_subset known]
  | succ rounds ih =>
      obtain ⟨more, rfl⟩ : ∃ fewer, more = fewer + 1 :=
        ⟨more - 1, (Nat.sub_add_cancel (Nat.one_le_of_lt still)).symm⟩
      by_cases known : ∀ point ∈ frontier, point ∈ seen
      · rw [search_of_subset known, search_of_subset known]
      · obtain ⟨fewer, turn⟩ := @search_of_new _ _ next points _ _ rounds inside known
        obtain ⟨-, longer⟩ := @search_of_new _ _ next points _ _ more inside known
        rw [turn, longer]
        congr 1
        apply ih
        · exact fun later reached => mem_of_mem_snd_level bounded reached
        · omega
        · exact Nat.le_of_succ_le_succ still

/-- What is found is new and reached from the frontier. -/
theorem reached_of_mem_search {rounds : Nat} {seen frontier : List κ} {point : κ}
    (found : point ∈ search next rounds seen frontier) :
    point ∉ seen ∧ ∃ start ∈ frontier,
      Relation.ReflTransGen (fun first later => later ∈ next first) start point := by
  induction rounds generalizing seen frontier with
  | zero => cases found
  | succ rounds ih =>
      unfold search at found
      split at found
      · cases found
      · rcases List.mem_append.mp found with now | later
        · obtain ⟨waiting, fresh⟩ := mem_level.mp now
          exact ⟨fresh, point, waiting, .refl⟩
        · obtain ⟨fresh, start, leads, path⟩ := ih later
          rw [snd_level] at leads
          obtain ⟨earlier, new, step⟩ := List.mem_flatMap.mp leads
          exact ⟨fun known => fresh (List.mem_append_left _ known), earlier,
            (mem_level.mp new).1, .head step path⟩

/-- With rounds enough, the frontier and all that follows what is found is seen or
found. -/
theorem closed_search {points : List κ}
    (bounded : ∀ point, ∀ later ∈ next point, later ∈ points) {rounds : Nat}
    {seen frontier : List κ} (inside : ∀ point ∈ frontier, point ∈ points)
    (enough : (unseen points seen).length ≤ rounds) :
    (∀ point ∈ frontier, point ∈ seen ∨ point ∈ search next rounds seen frontier) ∧
      ∀ point ∈ search next rounds seen frontier, ∀ later ∈ next point,
        later ∈ seen ∨ later ∈ search next rounds seen frontier := by
  induction rounds generalizing seen frontier with
  | zero =>
      have known := mem_of_no_unseen inside enough
      exact ⟨fun point waiting => Or.inl (known point waiting), fun point found => nomatch found⟩
  | succ rounds ih =>
      by_cases known : ∀ point ∈ frontier, point ∈ seen
      · rw [search_of_subset known]
        exact ⟨fun point waiting => Or.inl (known point waiting), fun point found => nomatch found⟩
      · obtain ⟨fewer, turn⟩ := @search_of_new _ _ next points _ _ rounds inside known
        have led : ∀ later ∈ (level next seen frontier).2, later ∈ points :=
          fun later reached => mem_of_mem_snd_level bounded reached
        obtain ⟨taken, closed⟩ := ih led (by omega :
          (unseen points (seen ++ (level next seen frontier).1)).length ≤ rounds)
        have shift : ∀ later, later ∈ seen ++ (level next seen frontier).1 ∨
            later ∈ search next rounds (seen ++ (level next seen frontier).1)
              (level next seen frontier).2 →
            later ∈ seen ∨ later ∈ search next (rounds + 1) seen frontier := by
          intro later
          rw [turn, List.mem_append, List.mem_append]
          exact fun held => or_assoc.mp held
        constructor
        · intro other waits
          by_cases old : other ∈ seen
          · exact Or.inl old
          · exact shift other (Or.inl (List.mem_append_right _ (mem_level.mpr ⟨waits, old⟩)))
        · intro other found later leads
          rw [turn, List.mem_append] at found
          rcases found with now | after
          · refine shift later (taken later ?_)
            rw [snd_level]
            exact List.mem_flatMap.mpr ⟨other, now, leads⟩
          · exact shift later (closed other after later leads)

/-- **Search is reachability.** From the points behind a start, with rounds enough,
everything reached from the start is found, but the start itself. -/
theorem mem_search_iff {points : List κ}
    (bounded : ∀ point, ∀ later ∈ next point, later ∈ points) {rounds : Nat} {start : κ}
    (enough : points.length ≤ rounds) {point : κ} :
    point ∈ search next rounds [start] (next start) ↔
      point ≠ start ∧ Relation.TransGen (fun first later => later ∈ next first) start point := by
  constructor
  · intro found
    obtain ⟨fresh, first, leads, path⟩ := reached_of_mem_search found
    exact ⟨fun same => fresh (List.mem_singleton.mpr same), .head' leads path⟩
  · rintro ⟨other, path⟩
    obtain ⟨taken, closed⟩ := closed_search bounded (bounded start)
      (Nat.le_trans (List.length_filter_le _ points) enough :
        (unseen points [start]).length ≤ rounds)
    have held : point ∈ [start] ∨ point ∈ search next rounds [start] (next start) := by
      induction path with
      | single leads => exact taken _ leads
      | @tail middle last _ leads ih =>
          by_cases back : middle = start
          · exact taken last (back ▸ leads)
          · rcases ih back with same | found
            · exact (back (List.mem_singleton.mp same)).elim
            · exact closed middle found last leads
    exact held.resolve_left fun same => other (List.mem_singleton.mp same)

end Search

end GraphIngest.Foundation
