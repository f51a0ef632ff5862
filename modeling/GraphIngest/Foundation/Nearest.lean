import GraphIngest.Foundation.LevelSearch
import Mathlib.Data.Nat.Find

/-! # The nearest wanted point

A search by levels meets a wanted point first on the nearest level that has one. Which of
them it meets is settled on the way: at every point it goes on to the first later point
that leads to the level. Two orders of the later points thus agree on the point met, when
no two points that they put first in turn lead to different wanted ones.
-/

namespace GraphIngest.Foundation

variable {κ : Type*} (next : κ → List κ) (wanted : κ → Bool)

/-- Whether some wanted point is so many steps away. -/
def leads : Nat → κ → Bool
  | 0, point => wanted point
  | steps + 1, point => (next point).any (leads steps)

/-- Go so many steps, each to the first point that leads to a wanted one. -/
def descend : Nat → κ → Option κ
  | 0, point => some point
  | steps + 1, point => ((next point).find? (leads next wanted steps)).bind (descend steps)

/-- So many steps lead from one point to another. -/
def StepsTo : Nat → κ → κ → Prop
  | 0, start, goal => start = goal
  | steps + 1, start, goal => ∃ later ∈ next start, StepsTo steps later goal

section Descend

variable {next wanted}

theorem StepsTo.tail {steps : Nat} {start goal later : κ} (walk : StepsTo next steps start goal)
    (step : later ∈ next goal) : StepsTo next (steps + 1) start later := by
  induction steps generalizing start with
  | zero =>
      obtain rfl := walk
      exact ⟨later, step, rfl⟩
  | succ steps ih =>
      obtain ⟨first, leads, rest⟩ := walk
      exact ⟨first, leads, ih rest⟩

theorem leads_iff {steps : Nat} {point : κ} :
    leads next wanted steps point = true ↔
      ∃ goal, StepsTo next steps point goal ∧ wanted goal = true := by
  induction steps generalizing point with
  | zero => exact ⟨fun wants => ⟨point, rfl, wants⟩, fun ⟨_, same, wants⟩ => same ▸ wants⟩
  | succ steps ih =>
      rw [leads, List.any_eq_true]
      simp only [ih, StepsTo]
      exact ⟨fun ⟨later, step, goal, walk, wants⟩ => ⟨goal, ⟨later, step, walk⟩, wants⟩,
        fun ⟨goal, ⟨later, step, walk⟩, wants⟩ => ⟨later, step, goal, walk, wants⟩⟩

/-- The descent ends at a wanted point. -/
theorem exists_descend {steps : Nat} {point : κ} (led : leads next wanted steps point = true) :
    ∃ goal, descend next wanted steps point = some goal ∧ wanted goal = true ∧
      StepsTo next steps point goal := by
  induction steps generalizing point with
  | zero => exact ⟨point, rfl, led, rfl⟩
  | succ steps ih =>
      obtain ⟨first, found⟩ := List.find?_isSome.mpr (List.any_eq_true.mp led) |>
        Option.isSome_iff_exists.mp
      obtain ⟨goal, reached, wants, walk⟩ := ih (List.find?_some found)
      refine ⟨goal, ?_, wants, first, List.mem_of_find?_eq_some found, walk⟩
      rw [descend, found, Option.bind_some, reached]

/-- Where steps lead does not depend on the order. -/
theorem stepsTo_congr {other : κ → List κ}
    (same : ∀ point later, later ∈ next point ↔ later ∈ other point) (steps : Nat)
    (start goal : κ) : StepsTo next steps start goal ↔ StepsTo other steps start goal := by
  induction steps generalizing start with
  | zero => exact Iff.rfl
  | succ steps ih => exact exists_congr fun later => and_congr (same start later) (ih later)

theorem leads_congr {other : κ → List κ}
    (same : ∀ point later, later ∈ next point ↔ later ∈ other point) (steps : Nat) (point : κ) :
    leads next wanted steps point = leads other wanted steps point := by
  rw [Bool.eq_iff_iff, leads_iff, leads_iff]
  exact exists_congr fun goal => and_congr_left fun _ => stepsTo_congr same steps point goal

variable (next wanted) in
/-- From a point on the way to the nearest wanted ones, two points that come first in turn do
not lead to different ones. -/
def Settles (other : κ → List κ) (root : κ) : Prop :=
  ∀ below above point first second, StepsTo next below root point →
    (∀ fewer < below + (above + 1), leads next wanted fewer root = false) →
    (next point).find? (leads next wanted above) = some first →
    (other point).find? (leads next wanted above) = some second → first ≠ second →
    ∀ left right, StepsTo next above first left → StepsTo next above second right →
      wanted left = true → wanted right = true → left = right

/-- **Two orders.** On the way to the nearest wanted points, the descents end at the same one,
where the orders settle it. -/
theorem descend_congr {other : κ → List κ}
    (same : ∀ point later, later ∈ next point ↔ later ∈ other point) {root : κ}
    (settles : Settles next wanted other root) {below steps : Nat} {point : κ}
    (walk : StepsTo next below root point)
    (nearest : ∀ fewer < below + steps, leads next wanted fewer root = false)
    (led : leads next wanted steps point = true) :
    descend next wanted steps point = descend other wanted steps point := by
  have alike : leads other wanted = leads next wanted := by
    funext steps point
    exact (leads_congr same steps point).symm
  induction steps generalizing below point with
  | zero => rfl
  | succ steps ih =>
      obtain ⟨goal, listed, on⟩ := List.any_eq_true.mp led
      obtain ⟨first, found⟩ := Option.isSome_iff_exists.mp
        (List.find?_isSome.mpr ⟨goal, listed, on⟩)
      obtain ⟨second, met⟩ := Option.isSome_iff_exists.mp
        (List.find?_isSome.mpr ⟨goal, (same point goal).mp listed, on⟩)
      rw [descend, descend, alike, found, met, Option.bind_some, Option.bind_some]
      by_cases equal : first = second
      · subst equal
        refine ih (walk.tail (List.mem_of_find?_eq_some found)) ?_ (List.find?_some found)
        intro fewer bound
        exact nearest fewer (by omega)
      · obtain ⟨left, ends, wants, up⟩ := exists_descend (List.find?_some found)
        obtain ⟨right, closes, needs, way⟩ := @exists_descend κ other wanted steps second
          (by rw [alike]; exact List.find?_some met)
        rw [ends, closes, settles below steps point first second walk nearest found met equal left
          right up ((stepsTo_congr same steps second right).mpr way) wants needs]

end Descend

section Search

variable {next} {wanted}

theorem find?_flatMap (points : List κ) :
    (points.flatMap next).find? wanted =
      (points.find? fun point => (next point).any wanted).bind fun point =>
        (next point).find? wanted := by
  induction points with
  | nil => rfl
  | cons point rest ih =>
      rw [List.flatMap_cons, List.find?_append, ih, List.find?_cons]
      cases leading : (next point).any wanted with
      | true =>
          obtain ⟨first, found⟩ := Option.isSome_iff_exists.mp
            (List.find?_isSome.mpr (List.any_eq_true.mp leading))
          rw [found, Option.some_or]
          exact found.symm
      | false =>
          have none : (next point).find? wanted = none :=
            List.find?_eq_none.mpr (List.any_eq_false.mp leading)
          rw [none, Option.none_or]

variable [DecidableEq κ]

/-- A round misses no wanted point, where none has been seen. -/
theorem find?_level {seen : List κ} (unseen : ∀ point ∈ seen, wanted point = false)
    (frontier : List κ) : (level next seen frontier).1.find? wanted = frontier.find? wanted := by
  have each : ∀ (rest : List κ) (found : List κ × List κ),
      (rest.foldl (fun found point =>
        if point ∈ seen ∨ point ∈ found.1 then found
        else (found.1 ++ [point], found.2 ++ next point)) found).1.find? wanted =
          (found.1.find? wanted).or (rest.find? wanted) := by
    intro rest
    induction rest with
    | nil => exact fun found => (Option.or_none).symm
    | cons head rest ih =>
        intro found
        rw [List.foldl_cons, ih, List.find?_cons]
        split
        · next old =>
            cases wants : wanted head with
            | false => rfl
            | true =>
                have earlier : head ∈ found.1 := old.resolve_left fun known => by
                  rw [unseen head known] at wants
                  cases wants
                obtain ⟨first, met⟩ := Option.isSome_iff_exists.mp
                  (List.find?_isSome.mpr ⟨head, earlier, wants⟩)
                rw [met, Option.some_or, Option.some_or]
        · rw [List.find?_append, Option.or_assoc, List.find?_singleton]
          cases wanted head with
          | false => rfl
          | true => rfl
  exact each frontier ([], [])

/-- From a frontier on the way, a search meets what the descent of the first leading point
ends at. -/
theorem find?_search_frontier {steps more : Nat} {seen frontier : List κ}
    (unseen : ∀ point ∈ seen, ∀ fewer ≤ steps, leads next wanted fewer point = false)
    (nearest : ∀ point ∈ frontier, ∀ fewer < steps, leads next wanted fewer point = false)
    (leading : frontier.any (leads next wanted steps) = true) :
    (search next (steps + 1 + more) seen frontier).find? wanted =
      (frontier.find? (leads next wanted steps)).bind (descend next wanted steps) := by
  have busy : frontier.isEmpty = false := by
    obtain ⟨point, waiting, _⟩ := List.any_eq_true.mp leading
    exact List.isEmpty_eq_false_iff.mpr (List.ne_nil_of_mem waiting)
  induction steps generalizing seen frontier with
  | zero =>
      have now : (level next seen frontier).1.find? wanted = frontier.find? wanted :=
        find?_level (fun point known => unseen point known 0 (Nat.le_refl _)) frontier
      obtain ⟨first, found⟩ := Option.isSome_iff_exists.mp
        (List.find?_isSome.mpr (List.any_eq_true.mp leading))
      have met : frontier.find? wanted = some first := found
      rw [Nat.zero_add, Nat.add_comm, search, busy]
      simp only [Bool.false_eq_true, ↓reduceIte]
      rw [List.find?_append, now, met, found, Option.some_or]
      rfl
  | succ steps ih =>
      have none : (level next seen frontier).1.find? wanted = none := by
        have now : (level next seen frontier).1.find? wanted = frontier.find? wanted :=
          find?_level (fun point known => unseen point known 0 (Nat.zero_le _)) frontier
        rw [now, List.find?_eq_none]
        intro point waiting wants
        exact Bool.false_ne_true ((nearest point waiting 0 (Nat.succ_pos steps)).symm.trans wants)
      have onward : (level next seen frontier).2.any (leads next wanted steps) = true := by
        obtain ⟨point, waiting, on⟩ := List.any_eq_true.mp leading
        have fresh : point ∉ seen := fun known =>
          Bool.false_ne_true ((unseen point known (steps + 1) (Nat.le_refl _)).symm.trans on)
        obtain ⟨later, step, further⟩ := List.any_eq_true.mp on
        rw [snd_level]
        exact List.any_eq_true.mpr
          ⟨later, List.mem_flatMap.mpr ⟨point, mem_level.mpr ⟨waiting, fresh⟩, step⟩, further⟩
      have after : (search next (steps + 1 + more) (seen ++ (level next seen frontier).1)
          (level next seen frontier).2).find? wanted =
            ((level next seen frontier).2.find? (leads next wanted steps)).bind
              (descend next wanted steps) := by
        refine ih ?_ ?_ onward ?_
        · intro point known fewer bound
          rcases List.mem_append.mp known with old | new
          · exact unseen point old fewer (by omega)
          · exact nearest point (mem_level.mp new).1 fewer (by omega)
        · intro point reached fewer bound
          rw [snd_level] at reached
          obtain ⟨earlier, new, step⟩ := List.mem_flatMap.mp reached
          rw [← Bool.not_eq_true]
          intro on
          have longer : leads next wanted (fewer + 1) earlier = true :=
            List.any_eq_true.mpr ⟨point, step, on⟩
          rw [nearest earlier (mem_level.mp new).1 (fewer + 1) (by omega)] at longer
          cases longer
        · obtain ⟨point, waiting, _⟩ := List.any_eq_true.mp onward
          exact List.isEmpty_eq_false_iff.mpr (List.ne_nil_of_mem waiting)
      have kept : (level next seen frontier).1.find? (leads next wanted (steps + 1)) =
          frontier.find? (leads next wanted (steps + 1)) :=
        find?_level (fun point known => unseen point known (steps + 1) (Nat.le_refl _)) frontier
      rw [show steps + 1 + 1 + more = steps + 1 + more + 1 from Nat.add_right_comm _ _ _, search,
        busy]
      simp only [Bool.false_eq_true, ↓reduceIte]
      rw [List.find?_append, none, Option.none_or, after, snd_level, find?_flatMap,
        Option.bind_assoc, ← kept]
      rfl

/-- **Nearest.** With rounds enough, a search meets what the descent to the nearest level ends
at. -/
theorem find?_search_of_leads {points : List κ}
    (bounded : ∀ point, ∀ later ∈ next point, later ∈ points) {rounds : Nat}
    (enough : points.length ≤ rounds) {root : κ} (idle : wanted root = false) {steps : Nat}
    (led : leads next wanted steps root = true)
    (least : ∀ fewer < steps, leads next wanted fewer root = false) :
    (search next rounds [root] (next root)).find? wanted = descend next wanted steps root := by
  cases steps with
  | zero => cases idle.symm.trans led
  | succ steps =>
      have stable : search next (steps + 1 + rounds) [root] (next root) =
          search next rounds [root] (next root) :=
        search_stable bounded (bounded root)
          (Nat.le_trans (List.length_filter_le _ points) enough) (by omega)
      rw [← stable, find?_search_frontier _ _ led]
      · rfl
      · intro point known fewer bound
        rw [List.mem_singleton.mp known]
        exact least fewer (by omega)
      · intro point step fewer bound
        rw [← Bool.not_eq_true]
        intro on
        have longer : leads next wanted (fewer + 1) root = true :=
          List.any_eq_true.mpr ⟨point, step, on⟩
        rw [least (fewer + 1) (by omega)] at longer
        cases longer

omit [DecidableEq κ] in
/-- A path to a wanted point leads there. -/
theorem exists_leads {start goal : κ}
    (path : Relation.ReflTransGen (fun first later => later ∈ next first) start goal)
    (wants : wanted goal = true) : ∃ steps, leads next wanted steps start = true := by
  induction path using Relation.ReflTransGen.head_induction_on with
  | refl => exact ⟨0, wants⟩
  | head step _ ih =>
      obtain ⟨steps, led⟩ := ih
      exact ⟨steps + 1, List.any_eq_true.mpr ⟨_, step, led⟩⟩

theorem find?_search_eq_none {rounds : Nat} {root : κ}
    (far : ∀ steps, leads next wanted steps root = false) :
    (search next rounds [root] (next root)).find? wanted = none := by
  rw [List.find?_eq_none]
  intro point met wants
  obtain ⟨_, start, step, path⟩ := reached_of_mem_search met
  obtain ⟨steps, led⟩ := exists_leads (path.head step) wants
  rw [far steps] at led
  cases led

/-- **Two searches.** Searches over the same points in two orders meet the same wanted point
first, where the orders settle it. -/
theorem find?_search_congr {other : κ → List κ} {points : List κ}
    (bounded : ∀ point, ∀ later ∈ next point, later ∈ points)
    (same : ∀ point later, later ∈ next point ↔ later ∈ other point) {rounds : Nat}
    (enough : points.length ≤ rounds) {root : κ} (idle : wanted root = false)
    (settles : Settles next wanted other root) :
    (search next rounds [root] (next root)).find? wanted =
      (search other rounds [root] (other root)).find? wanted := by
  by_cases near : ∃ steps, leads next wanted steps root = true
  · have least : ∀ fewer < Nat.find near, leads next wanted fewer root = false :=
      fun fewer bound => Bool.not_eq_true _ ▸ Nat.find_min near bound
    have met := find?_search_of_leads bounded enough idle (Nat.find_spec near) least
    have alsoMet := @find?_search_of_leads κ other wanted _ points
      (fun point later step => bounded point later ((same point later).mpr step)) rounds enough root
      idle _ (leads_congr same _ root ▸ Nat.find_spec near)
      (fun fewer bound => leads_congr same _ root ▸ least fewer bound)
    rw [met, alsoMet]
    have start : StepsTo next 0 root root := rfl
    refine descend_congr same settles start ?_ (Nat.find_spec near)
    rwa [Nat.zero_add]
  · have far : ∀ steps, leads next wanted steps root = false := by
      intro steps
      rw [← Bool.not_eq_true]
      exact fun led => near ⟨steps, led⟩
    rw [find?_search_eq_none far, find?_search_eq_none fun steps =>
      leads_congr same steps root ▸ far steps]

end Search

end GraphIngest.Foundation
