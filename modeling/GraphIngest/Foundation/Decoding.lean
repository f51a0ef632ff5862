import Mathlib.Algebra.Group.Nat.Defs
import Mathlib.Data.List.Basic

/-! # Decoders over a fixed text

A decoder moves a cursor over a text that stays as it is, and fails or returns
a value. A decoder *reads* a stretch of tokens as a value when it returns that
value wherever the stretch stands in a text and leaves the cursor right behind
it. The rules compose such readings: in sequence, in counted repetition, and on
a stretch taken out as a text of its own. The last section writes and reads
numbers of a fixed width, most significant byte first.
-/

namespace GraphIngest.Foundation

section Places

variable {β : Type}

/-- The tokens stand in the text from this position on. -/
def StandsAt (tokens data : List β) (pos : Nat) : Prop :=
  ∃ before after : List β, before ++ (tokens ++ after) = data ∧ before.length = pos

namespace StandsAt

variable {tokens first second data : List β} {token : β} {pos : Nat}

/-- Tokens stand where they were put. -/
theorem of_append (before tokens after : List β) :
    StandsAt tokens (before ++ (tokens ++ after)) before.length :=
  ⟨before, after, rfl, rfl⟩

theorem left (stands : StandsAt (first ++ second) data pos) : StandsAt first data pos := by
  obtain ⟨before, after, text, start⟩ := stands
  exact ⟨before, second ++ after, by rw [← text, List.append_assoc], start⟩

/-- The second part stands behind the first. -/
theorem right (stands : StandsAt (first ++ second) data pos) :
    StandsAt second data (pos + first.length) := by
  obtain ⟨before, after, text, start⟩ := stands
  refine ⟨before ++ first, after, ?_, by rw [List.length_append, start]⟩
  rw [← text, List.append_assoc, List.append_assoc]

theorem tail (stands : StandsAt (token :: second) data pos) :
    StandsAt second data (pos + 1) := by
  rw [← List.singleton_append] at stands
  exact stands.right

theorem le_length (stands : StandsAt tokens data pos) : pos + tokens.length ≤ data.length := by
  obtain ⟨before, after, rfl, rfl⟩ := stands
  simp only [List.length_append]
  omega

/-- The slice of that length at that position is the stretch. -/
theorem slice (stands : StandsAt tokens data pos) :
    (data.drop pos).take tokens.length = tokens := by
  obtain ⟨before, after, rfl, rfl⟩ := stands
  rw [List.drop_left, List.take_left]

theorem getElem? (stands : StandsAt (token :: second) data pos) : data[pos]? = some token := by
  obtain ⟨before, after, rfl, rfl⟩ := stands
  rw [List.getElem?_append_right (Nat.le_refl _), Nat.sub_self]
  rfl

end StandsAt

end Places

section Decoders

variable {ε β α γ : Type}

/-- A text with a position in it. -/
structure Cursor (β : Type) where
  data : List β
  pos : Nat := 0

/-- A computation that moves a cursor and may fail. -/
abbrev Decoder (ε β α : Type) := StateT (Cursor β) (Except ε) α

namespace Decoder

/-- Decode a text of its own from its start; what stands behind is ignored. -/
def runOn (decoder : Decoder ε β α) (data : List β) : Except ε α := do
  let (value, _) ← decoder.run ⟨data, 0⟩
  pure value

/-- The next `count` tokens; too few of them are an error that names the place. -/
def slice (short : Cursor β → ε) (count : Nat) : Decoder ε β (List β) := fun cursor =>
  if cursor.data.length < cursor.pos + count then .error (short cursor)
  else .ok ((cursor.data.drop cursor.pos).take count, { cursor with pos := cursor.pos + count })

/-- Decode one item after the other, `count` of them. -/
def times : Nat → Decoder ε β α → Decoder ε β (List α)
  | 0, _ => pure []
  | count + 1, item => do
      let value ← item
      let rest ← times count item
      pure (value :: rest)

end Decoder

/-- The decoder reads these tokens as this value, wherever they stand. -/
def Decodes (decoder : Decoder ε β α) (tokens : List β) (value : α) : Prop :=
  ∀ (data : List β) (pos : Nat), StandsAt tokens data pos →
    decoder.run ⟨data, pos⟩ = .ok (value, ⟨data, pos + tokens.length⟩)

namespace Decodes

open Decoder

theorem pure (value : α) : Decodes (pure value : Decoder ε β α) [] value :=
  fun _ _ _ => rfl

/-- A stretch is read as one value. -/
theorem unique {decoder : Decoder ε β α} {tokens : List β} {value other : α}
    (first : Decodes decoder tokens value) (second : Decodes decoder tokens other) :
    value = other := by
  have stands : StandsAt tokens tokens 0 := ⟨[], [], List.append_nil tokens, rfl⟩
  have same := (first tokens 0 stands).symm.trans (second tokens 0 stands)
  exact congrArg Prod.fst (Except.ok.inj same)

/-- What one decoder reads followed by what the next one reads. -/
theorem bind {decoder : Decoder ε β α} {next : α → Decoder ε β γ} {first second : List β}
    {value : α} {result : γ} (here : Decodes decoder first value)
    (there : Decodes (next value) second result) :
    Decodes (decoder >>= next) (first ++ second) result := by
  intro data pos stands
  rw [StateT.run_bind, here data pos stands.left]
  change (next value).run ⟨data, pos + first.length⟩ = _
  rw [there data _ stands.right, List.length_append, Nat.add_assoc]

/-- What follows reads nothing more. -/
theorem bind_nil {decoder : Decoder ε β α} {next : α → Decoder ε β γ} {tokens : List β}
    {value : α} {result : γ} (here : Decodes decoder tokens value)
    (there : Decodes (next value) [] result) : Decodes (decoder >>= next) tokens result := by
  have both := here.bind there
  rwa [List.append_nil] at both

/-- A value computed from what was read last. -/
theorem last {decoder : Decoder ε β α} {next : α → γ} {tokens : List β} {value : α}
    (here : Decodes decoder tokens value) :
    Decodes (decoder >>= fun value => Pure.pure (next value)) tokens (next value) :=
  here.bind_nil (Decodes.pure (next value))

/-- A step that reads nothing and succeeds. -/
theorem lifted {step : Except ε α} {value : α} (done : step = .ok value) :
    Decodes (liftM step : Decoder ε β α) [] value := by
  subst done
  exact Decodes.pure value

/-- Such a step in front of others. -/
theorem lift {step : Except ε α} {next : α → Decoder ε β γ} {tokens : List β} {value : α}
    {result : γ} (done : step = .ok value) (there : Decodes (next value) tokens result) :
    Decodes ((liftM step : Decoder ε β α) >>= next) tokens result :=
  (lifted done).bind there

theorem slice (short : Cursor β → ε) (tokens : List β) :
    Decodes (Decoder.slice short tokens.length) tokens tokens := by
  intro data pos stands
  have inside := stands.le_length
  change (if data.length < pos + tokens.length then _ else _) = _
  rw [if_neg (by omega), stands.slice]

/-- As many items as are asked for, each read as its own value. -/
theorem times {item : Decoder ε β α} {encode : γ → List β} {value : γ → α} {items : List γ}
    (each : ∀ entry ∈ items, Decodes item (encode entry) (value entry)) :
    Decodes (Decoder.times items.length item) (items.flatMap encode) (items.map value) := by
  induction items with
  | nil => exact Decodes.pure []
  | cons entry rest ih =>
      rw [List.flatMap_cons, List.map_cons]
      refine (each entry List.mem_cons_self).bind (last ?_)
      exact ih fun other member => each other (List.mem_cons_of_mem entry member)

/-- A count in front of that many items. -/
theorem counted {count : Decoder ε β Nat} {item : Decoder ε β α} {encode : γ → List β}
    {value : γ → α} {items : List γ} {tokens : List β}
    (head : Decodes count tokens items.length)
    (each : ∀ entry ∈ items, Decodes item (encode entry) (value entry)) :
    Decodes (count >>= fun number => Decoder.times number item) (tokens ++ items.flatMap encode)
      (items.map value) :=
  head.bind (times each)

/-- A text that starts with what is read. -/
theorem runOn {decoder : Decoder ε β α} {tokens : List β} {value : α}
    (here : Decodes decoder tokens value) (after : List β) :
    decoder.runOn (tokens ++ after) = .ok value := by
  have start := here _ _ (StandsAt.of_append [] tokens after)
  rw [Decoder.runOn]
  change ((decoder.run ⟨tokens ++ after, 0⟩) >>= _) = _
  rw [List.nil_append, List.length_nil] at start
  rw [start]
  rfl

end Decodes

end Decoders

section BigEndian

variable {ε : Type}

/-- The number these bytes spell, most significant byte first. -/
def ofBigEndian (bytes : List UInt8) : Nat :=
  bytes.foldl (fun total byte => total * 256 + byte.toNat) 0

/-- The last `width` bytes of a number, most significant byte first. -/
def bigEndian : Nat → Nat → List UInt8
  | 0, _ => []
  | width + 1, number => bigEndian width (number / 256) ++ [UInt8.ofNat number]

@[simp]
theorem length_bigEndian (width number : Nat) : (bigEndian width number).length = width := by
  induction width generalizing number with
  | zero => rfl
  | succ width ih => rw [bigEndian, List.length_append, ih, List.length_singleton]

/-- Entries of one width. -/
theorem length_flatMap_of_width {γ : Type} {encode : γ → List UInt8} {width : Nat}
    (each : ∀ entry, (encode entry).length = width) (entries : List γ) :
    (entries.flatMap encode).length = entries.length * width := by
  induction entries with
  | nil => rw [List.flatMap_nil, List.length_nil, List.length_nil, Nat.zero_mul]
  | cons entry rest ih =>
      rw [List.flatMap_cons, List.length_append, each, ih, List.length_cons, Nat.succ_mul,
        Nat.add_comm]

/-- A number that fits its width is read back. -/
theorem ofBigEndian_bigEndian {width number : Nat} (fits : number < 256 ^ width) :
    ofBigEndian (bigEndian width number) = number := by
  induction width generalizing number with
  | zero =>
      rw [Nat.pow_zero, Nat.lt_one_iff] at fits
      rw [fits]
      rfl
  | succ width ih =>
      have high : number / 256 < 256 ^ width := by
        apply Nat.div_lt_of_lt_mul
        rwa [Nat.pow_succ, Nat.mul_comm] at fits
      have prior := ih high
      rw [ofBigEndian] at prior
      rw [ofBigEndian, bigEndian, List.foldl_append, prior, List.foldl_cons, List.foldl_nil,
        UInt8.toNat_ofNat']
      omega

/-- The number in the next `width` bytes. -/
def Decoder.number (short : Cursor UInt8 → ε) (width : Nat) : Decoder ε UInt8 Nat := do
  let bytes ← Decoder.slice short width
  pure (ofBigEndian bytes)

/-- A number that fits its width is decoded from its bytes. -/
theorem Decodes.number (short : Cursor UInt8 → ε) {width number : Nat}
    (fits : number < 256 ^ width) :
    Decodes (Decoder.number short width) (bigEndian width number) number := by
  have bytes := Decodes.slice short (bigEndian width number)
  rw [length_bigEndian] at bytes
  have read : Decodes (Decoder.number short width) (bigEndian width number)
      (ofBigEndian (bigEndian width number)) := bytes.last
  rwa [ofBigEndian_bigEndian fits] at read

end BigEndian

end GraphIngest.Foundation
