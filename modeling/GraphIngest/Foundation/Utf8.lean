import Mathlib.Algebra.Group.Nat.Defs
import Mathlib.Data.List.Basic

/-! # UTF-8 with replacement

The decoder of UTF-8 that never fails: it takes a byte at a time, and puts one
replacement character for every longest beginning of a character that is not
continued as it must be. The encoding of a text is read back, and it is the only
spelling of a text without replacement characters. Beside it stands the modified
encoding of 16-bit code units, which writes zero in two bytes and a surrogate on
its own. The two agree on text without zeros and surrogates.
-/

namespace GraphIngest.Foundation.Utf8

/-- The character that stands for what is no character. -/
def replacement : Char := Char.ofNat 0xFFFD

/-- Where the decoder stands: between characters, or inside one with the bits
read so far, the number of bytes owed and the range the next of them lies in. -/
inductive Place
  | between
  | inside (bits owed low high : Nat)
deriving DecidableEq, Repr

/-- The first byte of a character: what it gives at once, and where it leads. -/
def lead (byte : Nat) : List Char × Place :=
  if byte ≤ 0x7F then ([Char.ofNat byte], .between)
  else if byte < 0xC2 then ([replacement], .between)
  else if byte ≤ 0xDF then ([], .inside (byte - 0xC0) 1 0x80 0xBF)
  else if byte ≤ 0xEF then
    -- the second byte after `E0` excludes overlong forms, after `ED` surrogates
    ([], .inside (byte - 0xE0) 2 (if byte = 0xE0 then 0xA0 else 0x80)
      (if byte = 0xED then 0x9F else 0xBF))
  else if byte ≤ 0xF4 then
    ([], .inside (byte - 0xF0) 3 (if byte = 0xF0 then 0x90 else 0x80)
      (if byte = 0xF4 then 0x8F else 0xBF))
  else ([replacement], .between)

/-- One byte. A byte that does not continue the character it stands in is read
again as a first byte. -/
def step : Place → Nat → List Char × Place
  | .between, byte => lead byte
  | .inside bits owed low high, byte =>
      if low ≤ byte ∧ byte ≤ high then
        if owed ≤ 1 then ([Char.ofNat (bits * 64 + (byte - 0x80))], .between)
        else ([], .inside (bits * 64 + (byte - 0x80)) (owed - 1) 0x80 0xBF)
      else (replacement :: (lead byte).1, (lead byte).2)

/-- Decode from a place on; the end of the bytes inside a character is an error
of its own. -/
def decodeFrom : Place → List UInt8 → List Char
  | .between, [] => []
  | .inside _ _ _ _, [] => [replacement]
  | place, byte :: rest =>
      (step place byte.toNat).1 ++ decodeFrom (step place byte.toNat).2 rest

/-- The text these bytes spell, with replacement characters for errors. -/
def decode (bytes : List UInt8) : List Char := decodeFrom .between bytes

theorem decodeFrom_cons (place : Place) (byte : UInt8) (rest : List UInt8) :
    decodeFrom place (byte :: rest) =
      (step place byte.toNat).1 ++ decodeFrom (step place byte.toNat).2 rest := by
  cases place <;> rfl

/-- The modified encoding of one code unit. -/
def encodeUnit (unit : UInt16) : List UInt8 :=
  let code := unit.toNat
  if 0 < code ∧ code ≤ 0x7F then [UInt8.ofNat code]
  else if code ≤ 0x7FF then [UInt8.ofNat (0xC0 + code / 64), UInt8.ofNat (0x80 + code % 64)]
  else [UInt8.ofNat (0xE0 + code / 4096), UInt8.ofNat (0x80 + code / 64 % 64),
    UInt8.ofNat (0x80 + code % 64)]

/-- The modified encoding of a sequence of code units. -/
def encodeUnits (units : List UInt16) : List UInt8 := units.flatMap encodeUnit

/-- A code unit that is a character on its own and not zero. -/
def plain (unit : UInt16) : Bool := 0 < unit.toNat && (unit.toNat < 0xD800 || 0xDFFF < unit.toNat)

/-- The character of a plain code unit. -/
def letter (unit : UInt16) : Char := Char.ofNat unit.toNat

theorem plain_iff {unit : UInt16} :
    plain unit = true ↔ 0 < unit.toNat ∧ (unit.toNat < 0xD800 ∨ 0xDFFF < unit.toNat) := by
  rw [plain, Bool.and_eq_true, Bool.or_eq_true, decide_eq_true_eq, decide_eq_true_eq,
    decide_eq_true_eq]

/-- A continuation byte in its range ends the character it was owed to. -/
theorem step_last {bits low high byte : Nat} (inRange : low ≤ byte ∧ byte ≤ high) :
    step (.inside bits 1 low high) byte =
      ([Char.ofNat (bits * 64 + (byte - 0x80))], .between) := by
  rw [step, if_pos inRange, if_pos (Nat.le_refl 1)]

/-- A continuation byte in its range, with another one owed behind it. -/
theorem step_inner {bits low high byte : Nat} (inRange : low ≤ byte ∧ byte ≤ high) :
    step (.inside bits 2 low high) byte =
      ([], .inside (bits * 64 + (byte - 0x80)) 1 0x80 0xBF) := by
  rw [step, if_pos inRange, if_neg (by omega)]

/-- One plain code unit in front of the rest is read as its character. -/
theorem decodeFrom_encodeUnit {unit : UInt16} (isPlain : plain unit = true) (rest : List UInt8) :
    decodeFrom .between (encodeUnit unit ++ rest) = letter unit :: decodeFrom .between rest := by
  obtain ⟨positive, single⟩ := plain_iff.mp isPlain
  have bound := unit.toNat_lt
  rw [encodeUnit, letter]
  generalize unit.toNat = code at positive single bound
  by_cases short : code ≤ 0x7F
  · have byte : code % 256 = code := by omega
    rw [if_pos ⟨positive, short⟩, List.singleton_append, decodeFrom_cons, UInt8.toNat_ofNat', byte,
      step, lead, if_pos short]
    rfl
  · rw [if_neg fun fits => short fits.2]
    by_cases middle : code ≤ 0x7FF
    · have first : (0xC0 + code / 64) % 256 = 0xC0 + code / 64 := by omega
      have second : (0x80 + code % 64) % 256 = 0x80 + code % 64 := by omega
      have value : (0xC0 + code / 64 - 0xC0) * 64 + (0x80 + code % 64 - 0x80) = code := by omega
      rw [if_pos middle, List.cons_append, List.singleton_append, decodeFrom_cons,
        UInt8.toNat_ofNat', first, step, lead, if_neg (by omega), if_neg (by omega),
        if_pos (by omega), List.nil_append, decodeFrom_cons, UInt8.toNat_ofNat', second,
        step_last (by omega), value]
      rfl
    · have first : (0xE0 + code / 4096) % 256 = 0xE0 + code / 4096 := by omega
      have second : (0x80 + code / 64 % 64) % 256 = 0x80 + code / 64 % 64 := by omega
      have third : (0x80 + code % 64) % 256 = 0x80 + code % 64 := by omega
      have value : ((0xE0 + code / 4096 - 0xE0) * 64 + (0x80 + code / 64 % 64 - 0x80)) * 64 +
          (0x80 + code % 64 - 0x80) = code := by omega
      -- a unit above `7FF` is not overlong, and one that is no surrogate not in `ED A0`
      have inRange : (if 0xE0 + code / 4096 = 0xE0 then 0xA0 else 0x80) ≤ 0x80 + code / 64 % 64 ∧
          0x80 + code / 64 % 64 ≤ if 0xE0 + code / 4096 = 0xED then 0x9F else 0xBF := by
        split <;> split <;> omega
      rw [if_neg middle, List.cons_append, List.cons_append, List.singleton_append,
        decodeFrom_cons, UInt8.toNat_ofNat', first, step, lead, if_neg (by omega),
        if_neg (by omega), if_neg (by omega), if_pos (by omega), List.nil_append, decodeFrom_cons,
        UInt8.toNat_ofNat', second, step_inner inRange, List.nil_append, decodeFrom_cons,
        UInt8.toNat_ofNat', third, step_last (by omega), value]
      rfl

/-- Plain text is read back from its modified encoding. -/
theorem decode_encodeUnits {units : List UInt16} (isPlain : units.all plain = true) :
    decode (encodeUnits units) = units.map letter := by
  induction units with
  | nil => rfl
  | cons unit rest ih =>
      rw [List.all_cons, Bool.and_eq_true] at isPlain
      have tail := ih isPlain.2
      rw [decode, encodeUnits] at tail
      rw [decode, encodeUnits, List.flatMap_cons, decodeFrom_encodeUnit isPlain.1, tail,
        List.map_cons]

section Encoding

/-- The continuation bytes of a code point. -/
def trail : Nat → Nat → List UInt8
  | 0, _ => []
  | owed + 1, code => UInt8.ofNat (0x80 + code / 64 ^ owed % 64) :: trail owed code

/-- The bytes of a code point. -/
def encodeCode (code : Nat) : List UInt8 :=
  if code ≤ 0x7F then [UInt8.ofNat code]
  else if code ≤ 0x7FF then UInt8.ofNat (0xC0 + code / 64) :: trail 1 code
  else if code ≤ 0xFFFF then UInt8.ofNat (0xE0 + code / 4096) :: trail 2 code
  else UInt8.ofNat (0xF0 + code / 262144) :: trail 3 code

/-- The bytes of a text, with a spelling of its own for the replacement character. -/
def encodeWith (broken : List UInt8) (text : List Char) : List UInt8 :=
  text.flatMap fun letter => if letter = replacement then broken else encodeCode letter.toNat

/-- The bytes of a text. -/
def encode (text : List Char) : List UInt8 := text.flatMap fun letter => encodeCode letter.toNat

/-- The digits of a code point, from the highest down. -/
theorem digit_div (code owed : Nat) :
    code / 64 ^ (owed + 1) * 64 + code / 64 ^ owed % 64 = code / 64 ^ owed := by
  have higher : code / 64 ^ (owed + 1) = code / 64 ^ owed / 64 := by
    rw [Nat.pow_succ, Nat.div_div_eq_div_mul]
  rw [higher]
  omega

/-- The continuation bytes end the character they belong to. -/
theorem decodeFrom_trail {code owed low high : Nat}
    (inRange : low ≤ 0x80 + code / 64 ^ owed % 64 ∧ 0x80 + code / 64 ^ owed % 64 ≤ high)
    (rest : List UInt8) :
    decodeFrom (.inside (code / 64 ^ (owed + 1)) (owed + 1) low high)
        (trail (owed + 1) code ++ rest) = Char.ofNat code :: decodeFrom .between rest := by
  induction owed generalizing low high with
  | zero =>
      have digit := digit_div code 0
      have byte : (0x80 + code / 64 ^ 0 % 64) % 256 = 0x80 + code / 64 ^ 0 % 64 := by omega
      have value : code / 64 ^ 1 * 64 + (0x80 + code / 64 ^ 0 % 64 - 0x80) = code := by omega
      rw [trail, trail, List.singleton_append, decodeFrom_cons, UInt8.toNat_ofNat', byte,
        step_last inRange, value]
      rfl
  | succ owed ih =>
      have digit := digit_div code (owed + 1)
      have byte :
          (0x80 + code / 64 ^ (owed + 1) % 64) % 256 = 0x80 + code / 64 ^ (owed + 1) % 64 := by omega
      have value : code / 64 ^ (owed + 1 + 1) * 64 + (0x80 + code / 64 ^ (owed + 1) % 64 - 0x80) =
          code / 64 ^ (owed + 1) := by omega
      rw [trail, List.cons_append, decodeFrom_cons, UInt8.toNat_ofNat', byte, step, if_pos inRange,
        if_neg (by omega), value, List.nil_append]
      exact ih (by omega)

/-- A character is read back from its bytes. -/
theorem decodeFrom_encodeCode {code : Nat} (valid : code.isValidChar) (rest : List UInt8) :
    decodeFrom .between (encodeCode code ++ rest) =
      Char.ofNat code :: decodeFrom .between rest := by
  unfold encodeCode
  by_cases one : code ≤ 0x7F
  · have byte : code % 256 = code := by omega
    rw [if_pos one, List.singleton_append, decodeFrom_cons, UInt8.toNat_ofNat', byte, step, lead,
      if_pos one]
    rfl
  rw [if_neg one]
  by_cases two : code ≤ 0x7FF
  · have byte : (0xC0 + code / 64) % 256 = 0xC0 + code / 64 := by omega
    have bits : 0xC0 + code / 64 - 0xC0 = code / 64 ^ 1 := by omega
    rw [if_pos two, List.cons_append, decodeFrom_cons, UInt8.toNat_ofNat', byte, step, lead,
      if_neg (by omega), if_neg (by omega), if_pos (by omega), List.nil_append, bits]
    exact decodeFrom_trail (by omega) rest
  rw [if_neg two]
  by_cases three : code ≤ 0xFFFF
  · have byte : (0xE0 + code / 4096) % 256 = 0xE0 + code / 4096 := by omega
    have bits : 0xE0 + code / 4096 - 0xE0 = code / 64 ^ 2 := by omega
    rw [if_pos three, List.cons_append, decodeFrom_cons, UInt8.toNat_ofNat', byte, step, lead,
      if_neg (by omega), if_neg (by omega), if_neg (by omega), if_pos (by omega), List.nil_append,
      bits]
    apply decodeFrom_trail
    -- a code point above `7FF` is not overlong, and one that is no surrogate not in `ED A0`
    split <;> split <;> omega
  · have bound : code < 0x110000 := by omega
    have byte : (0xF0 + code / 262144) % 256 = 0xF0 + code / 262144 := by omega
    have bits : 0xF0 + code / 262144 - 0xF0 = code / 64 ^ 3 := by omega
    rw [if_neg three, List.cons_append, decodeFrom_cons, UInt8.toNat_ofNat', byte, step, lead,
      if_neg (by omega), if_neg (by omega), if_neg (by omega), if_neg (by omega), if_pos (by omega),
      List.nil_append, bits]
    apply decodeFrom_trail
    split <;> split <;> omega

/-- A text is read back from its bytes, whatever single byte that begins no character stands for
the replacement character. -/
theorem decode_encodeWith {broken : UInt8} (invalid : 0xF4 < broken.toNat) (text : List Char) :
    decode (encodeWith [broken] text) = text := by
  unfold decode encodeWith
  induction text with
  | nil => rfl
  | cons letter rest ih =>
      rw [List.flatMap_cons]
      split
      case isTrue same =>
        rw [List.singleton_append, decodeFrom_cons, step, lead, if_neg (by omega),
          if_neg (by omega), if_neg (by omega), if_neg (by omega), if_neg (by omega), ih, same]
        rfl
      case isFalse =>
        have valid : letter.toNat.isValidChar := letter.valid
        rw [decodeFrom_encodeCode valid, ih, Char.ofNat_toNat]

theorem decode_encode (text : List Char) : decode (encode text) = text := by
  unfold decode encode
  induction text with
  | nil => rfl
  | cons letter rest ih =>
      have valid : letter.toNat.isValidChar := letter.valid
      rw [List.flatMap_cons, decodeFrom_encodeCode valid, ih, Char.ofNat_toNat]

theorem encode_injective : Function.Injective encode :=
  Function.LeftInverse.injective decode_encode

/-- The bytes taken by the time a place is reached: with the continuation bytes of a code point
that leads through the place they are the bytes of that code point. -/
def Taken (taken : List UInt8) : Place → Prop
  | .between => taken = []
  | .inside bits owed low high =>
      0 < owed ∧ 0x80 ≤ low ∧ high ≤ 0xBF ∧
        ∀ code, code / 64 ^ owed = bits → low ≤ 0x80 + code / 64 ^ (owed - 1) % 64 →
          0x80 + code / 64 ^ (owed - 1) % 64 ≤ high →
            code.isValidChar ∧ encodeCode code = taken ++ trail owed code

theorem toNat_ofNat {code : Nat} (valid : code.isValidChar) : (Char.ofNat code).toNat = code := by
  rw [Char.ofNat, dif_pos valid]
  rfl

/-- A first byte that gives no replacement character: a character of one byte, or the place behind
the first byte of a longer one. -/
theorem taken_lead {byte : UInt8} (clean : replacement ∉ (lead byte.toNat).1) :
    (∃ letter, lead byte.toNat = ([letter], .between) ∧ encodeCode letter.toNat = [byte]) ∨
      (lead byte.toNat).1 = [] ∧ Taken [byte] (lead byte.toNat).2 := by
  have bound := byte.toNat_lt
  have same : UInt8.ofNat byte.toNat = byte := UInt8.ofNat_toNat
  unfold lead at clean ⊢
  by_cases one : byte.toNat ≤ 0x7F
  · refine .inl ⟨Char.ofNat byte.toNat, if_pos one, ?_⟩
    rw [toNat_ofNat (.inl (by omega)), encodeCode, if_pos one, same]
  rw [if_neg one] at clean ⊢
  by_cases early : byte.toNat < 0xC2
  · rw [if_pos early] at clean
    exact (clean List.mem_cons_self).elim
  rw [if_neg early] at clean ⊢
  right
  by_cases two : byte.toNat ≤ 0xDF
  · rw [if_pos two]
    refine ⟨rfl, by omega, by omega, by omega, fun code bits low high => ⟨.inl (by omega), ?_⟩⟩
    have first : 0xC0 + code / 64 = byte.toNat := by omega
    rw [encodeCode, if_neg (by omega), if_pos (by omega), first, same]
    rfl
  rw [if_neg two] at clean ⊢
  by_cases three : byte.toNat ≤ 0xEF
  · rw [if_pos three]
    refine ⟨rfl, by omega, by split <;> omega, by split <;> omega, fun code bits low high => ?_⟩
    have first : 0xE0 + code / 4096 = byte.toNat := by omega
    -- neither overlong, behind `E0`, nor a surrogate, behind `ED`
    have long : 0x7FF < code := by
      split at low <;> omega
    refine ⟨?_, ?_⟩
    · unfold Nat.isValidChar
      split at high <;> omega
    · rw [encodeCode, if_neg (by omega), if_neg (by omega), if_pos (by omega), first, same]
      rfl
  rw [if_neg three] at clean ⊢
  by_cases four : byte.toNat ≤ 0xF4
  · rw [if_pos four]
    refine ⟨rfl, by omega, by split <;> omega, by split <;> omega, fun code bits low high => ?_⟩
    have first : 0xF0 + code / 262144 = byte.toNat := by omega
    have long : 0xFFFF < code := by
      split at low <;> omega
    refine ⟨?_, ?_⟩
    · unfold Nat.isValidChar
      split at high <;> omega
    · rw [encodeCode, if_neg (by omega), if_neg (by omega), if_neg (by omega), first, same]
      rfl
  · rw [if_neg four] at clean
    exact (clean List.mem_cons_self).elim

theorem taken_between : Taken [] .between := rfl

/-- The next byte: it ends a character, or leads to the place behind it. -/
theorem taken_step {place : Place} {taken : List UInt8} {byte : UInt8} (holds : Taken taken place)
    (clean : replacement ∉ (step place byte.toNat).1) :
    (∃ letter, step place byte.toNat = ([letter], .between) ∧
        encodeCode letter.toNat = taken ++ [byte]) ∨
      (step place byte.toNat).1 = [] ∧ Taken (taken ++ [byte]) (step place byte.toNat).2 := by
  cases place with
  | between =>
      have start : taken = [] := holds
      subst start
      exact taken_lead clean
  | inside bits owed low high =>
      obtain ⟨some, lowest, highest, leads⟩ := holds
      rw [step] at clean ⊢
      by_cases inRange : low ≤ byte.toNat ∧ byte.toNat ≤ high
      case neg =>
        rw [if_neg inRange] at clean
        exact (clean List.mem_cons_self).elim
      rw [if_pos inRange]
      obtain ⟨owed, rfl⟩ := Nat.exists_eq_succ_of_ne_zero (Nat.pos_iff_ne_zero.mp some)
      -- the code points that go on with this byte
      have goes : ∀ code, code / 64 ^ owed = bits * 64 + (byte.toNat - 0x80) →
          code.isValidChar ∧ encodeCode code = taken ++ byte :: trail owed code := by
        intro code digits
        have higher : code / 64 ^ (owed + 1) = bits := by
          rw [Nat.pow_succ, ← Nat.div_div_eq_div_mul, digits]
          omega
        have digit : 0x80 + code / 64 ^ owed % 64 = byte.toNat := by omega
        obtain ⟨valid, spelled⟩ := leads code higher (by
          rw [Nat.succ_sub_one, digit]
          exact inRange.1) (by
          rw [Nat.succ_sub_one, digit]
          exact inRange.2)
        rw [trail, digit, UInt8.ofNat_toNat] at spelled
        exact ⟨valid, spelled⟩
      by_cases last : owed + 1 ≤ 1
      · have none : owed = 0 := by omega
        subst none
        obtain ⟨valid, spelled⟩ := goes _ (Nat.div_one _)
        refine .inl ⟨Char.ofNat (bits * 64 + (byte.toNat - 0x80)), if_pos last, ?_⟩
        rw [toNat_ofNat valid, spelled]
        rfl
      · rw [if_neg last]
        refine .inr ⟨rfl, by omega, by omega, by omega, fun code digits _ _ => ?_⟩
        rw [Nat.succ_sub_one] at digits
        obtain ⟨valid, spelled⟩ := goes code digits
        refine ⟨valid, ?_⟩
        rw [spelled, List.append_assoc, List.singleton_append]
        rfl

/-- Bytes that decode without replacement characters are the bytes of their text. -/
theorem encode_decodeFrom {place : Place} {taken bytes : List UInt8} (holds : Taken taken place)
    (clean : replacement ∉ decodeFrom place bytes) :
    encode (decodeFrom place bytes) = taken ++ bytes := by
  induction bytes generalizing place taken with
  | nil =>
      cases place with
      | between =>
          have start : taken = [] := holds
          rw [start]
          rfl
      | inside bits owed low high => exact (clean List.mem_cons_self).elim
  | cons byte rest ih =>
      rw [decodeFrom_cons, List.mem_append, not_or] at clean
      rw [decodeFrom_cons]
      cases taken_step holds clean.1 with
      | inl ended =>
          obtain ⟨letter, given, spelled⟩ := ended
          rw [given] at clean ⊢
          rw [List.singleton_append, encode, List.flatMap_cons, spelled, List.append_assoc,
            List.singleton_append]
          congr 2
          exact ih taken_between clean.2
      | inr continued =>
          rw [continued.1, List.nil_append, ih continued.2 clean.2, List.append_assoc,
            List.singleton_append]

/-- Two spellings of the replacement character make two texts of bytes. -/
theorem encodeWith_ne {broken other : UInt8} (differ : broken ≠ other) {text : List Char}
    (member : replacement ∈ text) : encodeWith [broken] text ≠ encodeWith [other] text := by
  unfold encodeWith
  induction text with
  | nil => cases member
  | cons letter rest ih =>
      rw [List.flatMap_cons, List.flatMap_cons]
      intro same
      split at same
      case isTrue => exact differ (List.cons.inj same).1
      case isFalse other =>
        have later : replacement ∈ rest := List.mem_of_ne_of_mem (Ne.symm other) member
        exact ih later (List.append_cancel_left same)

/-- **Lossless decoding.** The bytes are determined by the text they decode to exactly when it has
no replacement character. -/
theorem decode_injective_iff {bytes : List UInt8} :
    (∀ other, decode other = decode bytes → other = bytes) ↔ replacement ∉ decode bytes := by
  constructor
  · intro determined member
    have first := determined _ (@decode_encodeWith 0xFE (by decide) (decode bytes))
    have second := determined _ (@decode_encodeWith 0xFF (by decide) (decode bytes))
    exact encodeWith_ne (by decide) member (first.trans second.symm)
  · intro clean other same
    have cleanToo : replacement ∉ decode other := by rwa [same]
    calc
      other = encode (decode other) := (encode_decodeFrom taken_between cleanToo).symm
      _ = encode (decode bytes) := by rw [same]
      _ = bytes := encode_decodeFrom taken_between clean

end Encoding

end GraphIngest.Foundation.Utf8
