import GraphIngest.Foundation.Dict
import GraphIngest.Text
import Mathlib.Data.List.Dedup
import Mathlib.Data.List.Sort

/-! # Parameter positions of stack slots

The mined taint rules name arguments by the slots of the operand stack, counted
from its top; the catalog names them by their position in the parameter list.
The conversion fills a table from slots to positions with a running offset. It is
read off the stack as it stands when the method is invoked: the receiver was
pushed first, then the arguments from left to right.
-/

namespace GraphIngest.Catalog

open Foundation Text

section Descriptors

/-- The letters of `_PARAM` that are a type by themselves. -/
def typeLetters : List Char := ['B', 'C', 'D', 'F', 'I', 'J', 'S', 'Z']

/-- The length of what `_PARAM` matches at the front of a text, zero when it does
not match. -/
def paramSize (text : Str) : Nat :=
  let dims := (text.takeWhile fun letter => letter == '[').length
  match text.drop dims with
  | [] => 0
  | letter :: rest =>
      if letter ∈ typeLetters then dims + 1
      else
        let name := rest.takeWhile fun letter => letter != ';'
        if letter = 'L' ∧ name ≠ [] ∧ (rest.drop name.length).head? = some ';' then
          dims + name.length + 2
        else 0

/-- `parse_params`: no result where a descriptor does not match. -/
def parseParams (desc : Str) : Option (List Str) :=
  if desc = [] then some []
  else
    let size := paramSize desc
    if size = 0 then none
    else (parseParams (desc.drop size)).map (desc.take size :: ·)
termination_by desc.length
decreasing_by
  have some := List.length_pos_iff.mpr ‹desc ≠ []›
  rw [List.length_drop]
  omega

end Descriptors

section Conversion

/-- `is_two_slot`. -/
def isTwoSlot (param : Str) : Bool := param == ['J'] || param == ['D']

/-- The slots of a parameter. -/
def width (param : Str) : Nat := if isTwoSlot param then 2 else 1

/-- `CATALOG_RECEIVER`. -/
def catalogReceiver : Int := -2

/-- `total`: the slots of all parameters. -/
def slotCount (widths : List Nat) : Nat := widths.foldr (· + ·) 0

/-- The slots of one parameter, below those of the parameters before it. -/
def fillSlots (total : Int) (state : Int × Dict Int Nat) (entry : Nat × Nat) :
    Int × Dict Int Nat :=
  (state.1 + entry.1, (List.range entry.1).foldl
    (fun slots (step : Nat) => slots.set (total - state.1 - entry.1 + step) entry.2) state.2)

/-- `slot_to_pos`. -/
def slotToPos (widths : List Nat) : Dict Int Nat :=
  (widths.zipIdx.foldl (fillSlots (slotCount widths)) (0, Dict.empty)).2

/-- The position of an upstream index, none when it lies beyond the receiver. -/
def positionOf (widths : List Nat) (index : Int) : Option Int :=
  match (slotToPos widths).get? index with
  | some position => some (position : Int)
  | none => if index = slotCount widths then some catalogReceiver else none

/-- `to_positions`. -/
def toPositions (upstream : List Int) (params : List Str) : List Int :=
  (upstream.filterMap (positionOf (params.map width))).dedup.insertionSort (· ≤ ·)

end Conversion

section Stack

/-- What a slot of the operand stack holds. -/
inductive Held
  | receiver
  | parameter (position : Nat)
deriving DecidableEq, Repr

/-- What the catalog calls it. -/
def Held.marker : Held → Int
  | receiver => catalogReceiver
  | parameter position => position

/-- The slots that an argument of a type takes: two for a `long` or a `double`, one for any
other, arrays included. -/
def slotsOf : Str → Nat
  | ['J'] => 2
  | ['D'] => 2
  | _ => 1

/-- The conversion counts these. -/
theorem width_eq_slotsOf (param : Str) : width param = slotsOf param := by
  unfold width isTwoSlot
  split
  · next two =>
      rw [Bool.or_eq_true, beq_iff_eq, beq_iff_eq] at two
      rcases two with rfl | rfl <;> rfl
  · next single =>
      unfold slotsOf
      split
      · exact absurd rfl single
      · exact absurd rfl single
      · rfl

/-- Push an argument on the stack, whose top comes first. -/
def push (stack : List Held) (argument : Str × Nat) : List Held :=
  List.replicate (slotsOf argument.1) (.parameter argument.2) ++ stack

/-- The operand stack when a method is invoked: the receiver, and on it the
arguments from left to right. -/
def operandStack (params : List Str) : List Held := params.zipIdx.foldl push [.receiver]

/-- The positions in the order of their slots, the first pushed first. -/
def owners (first : Nat) : List Nat → List Nat
  | [] => []
  | width :: widths => List.replicate width first ++ owners (first + 1) widths

theorem length_owners (first : Nat) (widths : List Nat) :
    (owners first widths).length = slotCount widths := by
  induction widths generalizing first with
  | nil => rfl
  | cons width widths ih =>
      rw [owners, List.length_append, List.length_replicate, ih]
      rfl

/-- The stack from its top is the order of pushing read backwards. -/
theorem operandStack_eq (params : List Str) :
    operandStack params =
      ((owners 0 (params.map width)).map Held.parameter).reverse ++ [.receiver] := by
  have pushed : ∀ (params : List Str) (first : Nat) (stack : List Held),
      (params.zipIdx first).foldl push stack =
        ((owners first (params.map width)).map Held.parameter).reverse ++ stack := by
    intro params
    induction params with
    | nil => exact fun _ _ => rfl
    | cons param params ih =>
        intro first stack
        rw [List.zipIdx_cons, List.foldl_cons, ih, push, ← width_eq_slotsOf, List.map_cons, owners,
          List.map_append,
          List.reverse_append, List.map_replicate, List.reverse_replicate, List.append_assoc]
  exact pushed params 0 [.receiver]

end Stack

section Table

/-- The slots of one parameter lead to it. -/
theorem get?_fill (start : Int) (position width : Nat) (slots : Dict Int Nat) (index : Int) :
    ((List.range width).foldl (fun slots (step : Nat) => slots.set (start + step) position)
        slots).get? index =
      if start ≤ index ∧ index < start + width then some position else slots.get? index := by
  induction width with
  | zero =>
      rw [if_neg (by omega)]
      rfl
  | succ width ih =>
      rw [List.range_succ, List.foldl_append, List.foldl_cons, List.foldl_nil, Dict.get?_set, ih]
      by_cases last : index = start + width
      · rw [if_pos last, if_pos (by omega)]
      · rw [if_neg last]
        by_cases inside : start ≤ index ∧ index < start + width
        · rw [if_pos inside, if_pos (by omega)]
        · rw [if_neg inside, if_neg (by omega)]

/-- The loop over the parameters gives every slot its owner. -/
theorem get?_fillSlots (total : Int) (widths : List Nat) (first : Nat) (running : Int)
    (slots : Dict Int Nat) (index : Int) :
    ((widths.zipIdx first).foldl (fillSlots total) (running, slots)).2.get? index =
      if index < total - running then
        (owners first widths)[(total - running - 1 - index).toNat]?.or (slots.get? index)
      else slots.get? index := by
  induction widths generalizing first running slots with
  | nil =>
      rw [owners, List.getElem?_nil, Option.none_or, ite_self]
      rfl
  | cons width widths ih =>
      rw [List.zipIdx_cons, List.foldl_cons]
      change ((widths.zipIdx (first + 1)).foldl (fillSlots total) (running + width, _)).2.get? _ = _
      rw [ih, get?_fill, owners]
      by_cases above : index < total - running
      · rw [if_pos above]
        by_cases below : index < total - (running + width)
        · rw [if_pos below, if_neg (by omega), List.getElem?_append_right
            (by rw [List.length_replicate]; omega), List.length_replicate]
          congr 2
          omega
        · rw [if_neg below, if_pos (by omega), List.getElem?_append_left
            (by rw [List.length_replicate]; omega), List.getElem?_replicate, if_pos (by omega)]
          rfl
      · rw [if_neg above, if_neg (by omega), if_neg (by omega)]

/-- **The table.** A slot leads to the position of the argument that it holds on the
operand stack. -/
theorem get?_slotToPos (params : List Str) (slot : Nat) (position : Nat) :
    (slotToPos (params.map width)).get? slot = some position ↔
      (operandStack params)[slot]? = some (.parameter position) := by
  have size := length_owners 0 (params.map width)
  rw [slotToPos, get?_fillSlots, operandStack_eq]
  by_cases inside : slot < slotCount (params.map width)
  · rw [if_pos (by omega), Dict.get?_empty, Option.or_none, List.getElem?_append_left
      (by rw [List.length_reverse, List.length_map]; omega),
      List.getElem?_reverse (by rw [List.length_map]; omega), List.getElem?_map, List.length_map,
      size]
    have place : ((slotCount (params.map width) : Int) - 0 - 1 - slot).toNat =
        slotCount (params.map width) - 1 - slot := by omega
    rw [place]
    cases (owners 0 (params.map width))[slotCount (params.map width) - 1 - slot]? with
    | none => exact iff_of_false (Option.some_ne_none _ ∘ Eq.symm) (Option.some_ne_none _ ∘ Eq.symm)
    | some owner => rw [Option.map_some, Option.some.injEq, Option.some.injEq, Held.parameter.injEq]
  · rw [if_neg (by omega), Dict.get?_empty, List.getElem?_append_right
      (by rw [List.length_reverse, List.length_map]; omega)]
    refine iff_of_false (Option.some_ne_none _ ∘ Eq.symm) fun found => ?_
    have held := List.mem_of_getElem? found
    rw [List.mem_singleton] at held
    cases held

/-- The receiver stands right below the arguments. -/
theorem operandStack_eq_receiver (params : List Str) (slot : Nat) :
    (operandStack params)[slot]? = some .receiver ↔ slot = slotCount (params.map width) := by
  have size := length_owners 0 (params.map width)
  have args : ((owners 0 (params.map width)).map Held.parameter).reverse.length =
      slotCount (params.map width) := by rw [List.length_reverse, List.length_map, size]
  rw [operandStack_eq]
  constructor
  · intro found
    by_cases inside : slot < slotCount (params.map width)
    · rw [List.getElem?_append_left (by omega)] at found
      obtain ⟨owner, -, same⟩ := List.mem_map.mp (List.mem_reverse.mp (List.mem_of_getElem? found))
      cases same
    · obtain ⟨short, -⟩ := List.getElem?_eq_some_iff.mp found
      rw [List.length_append, args, List.length_singleton] at short
      omega
  · rintro rfl
    rw [List.getElem?_append_right (by omega), args, Nat.sub_self]
    rfl

/-- A slot is converted to what it holds. -/
theorem positionOf_slot (params : List Str) (slot : Nat) :
    positionOf (params.map width) slot = (operandStack params)[slot]?.map Held.marker := by
  rw [positionOf]
  cases found : (slotToPos (params.map width)).get? slot with
  | some position =>
      rw [(get?_slotToPos params slot position).mp found]
      rfl
  | none =>
      cases held : (operandStack params)[slot]? with
      | none =>
          refine if_neg fun below => ?_
          rw [(operandStack_eq_receiver params slot).mpr (Int.ofNat_inj.mp below)] at held
          cases held
      | some content =>
          cases content with
          | receiver =>
              rw [(operandStack_eq_receiver params slot).mp held]
              exact if_pos rfl
          | parameter position =>
              rw [(get?_slotToPos params slot position).mpr held] at found
              cases found

/-- A negative index is none. -/
theorem positionOf_negative (params : List Str) {index : Int} (negative : index < 0) :
    positionOf (params.map width) index = none := by
  have size := length_owners 0 (params.map width)
  have beyond : (owners 0 (params.map width)).length ≤
      ((slotCount (params.map width) : Int) - 0 - 1 - index).toNat := by omega
  have missing : (slotToPos (params.map width)).get? index = none := by
    rw [slotToPos, get?_fillSlots, if_pos (by omega), List.getElem?_eq_none beyond]
    rfl
  rw [positionOf, missing]
  exact if_neg (by omega)

end Table

/-- **Positions.** The conversion returns, in increasing order and each once, what
the named slots of the operand stack hold: the position of an argument for each of
its slots, and the receiver marker for the slot below the arguments. -/
theorem toPositions_exact (upstream : List Int) (params : List Str) :
    (toPositions upstream params).Pairwise (· < ·) ∧
      ∀ position, position ∈ toPositions upstream params ↔
        ∃ (slot : Nat) (held : Held), (slot : Int) ∈ upstream ∧
          (operandStack params)[slot]? = some held ∧ held.marker = position := by
  constructor
  · have sorted := List.pairwise_insertionSort (· ≤ ·)
      (upstream.filterMap (positionOf (params.map width))).dedup
    have once : (toPositions upstream params).Nodup :=
      (List.perm_insertionSort (· ≤ ·) _).nodup_iff.mpr (List.nodup_dedup _)
    exact (sorted.and once).imp fun ordered => lt_of_le_of_ne ordered.1 ordered.2
  · intro position
    rw [toPositions, List.mem_insertionSort, List.mem_dedup, List.mem_filterMap]
    constructor
    · rintro ⟨index, listed, converted⟩
      by_cases negative : index < 0
      · rw [positionOf_negative params negative] at converted
        cases converted
      · obtain ⟨slot, rfl⟩ := Int.eq_ofNat_of_zero_le (Int.not_lt.mp negative)
        rw [positionOf_slot] at converted
        obtain ⟨held, found, named⟩ := Option.map_eq_some_iff.mp converted
        exact ⟨slot, held, listed, found, named⟩
    · rintro ⟨slot, held, listed, found, rfl⟩
      refine ⟨slot, listed, ?_⟩
      rw [positionOf_slot, found]
      rfl

example : toPositions [2, 0] ["D".toList, "I".toList] = [0, 1] := by decide +kernel

end GraphIngest.Catalog
