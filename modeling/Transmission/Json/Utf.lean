import Mathlib.Data.List.Basic

/-!
# Converting between UTF-8 and UTF-32

The JSON printer and parser of `variant-json.c` convert characters with `ConvertUTF8toUTF32` and
`ConvertUTF32toUTF8` of `ConvertUTF.c`, the Unicode consortium's reference converter, always with
strict conversion.  That file is not under `src/`; both functions are written here from the
reference code, with its tables, its order of checks and its four results, because what the
printer emits depends on them in detail:

* `ConvertUTF8toUTF32` converts character after character until the target is full, so with a
  target of one code point — the only one the printer uses — it still looks at the character
  after the first, and reports an error (and so no conversion at all) when that one is
  truncated or ill-formed;
* `ConvertUTF32toUTF8` encodes one code point in one to four bytes and refuses the surrogates.

Bytes are compared by their values, `b.toNat`, as the C code compares `unsigned char`s.  Code
points are natural numbers: the reference code computes in 32 bits, and none of the values it
reaches after its legality checks comes near that bound.

The last section proves the two agree on the Basic Multilingual Plane: `Utf8Char` says what
`ConvertUTF8toUTF32` needs of one character (`ConvertUTF8toUTF32_char`), and
`utf8Char_of_bmp` says that `ConvertUTF32toUTF8` writes such a character for every code point of
the plane that is not a surrogate.  `Json/Literal.lean` builds the string round trip on them.
-/

set_option autoImplicit false

namespace Transmission

/-- `ConversionResult`. -/
inductive ConversionResult where
  | conversionOK
  | sourceExhausted
  | targetExhausted
  | sourceIllegal
  deriving DecidableEq, Repr

/-- `UNI_MAX_LEGAL_UTF32`. -/
def UNI_MAX_LEGAL_UTF32 : ℕ := 0x10FFFF

/-- `UNI_SUR_HIGH_START`, the first surrogate. -/
def UNI_SUR_HIGH_START : ℕ := 0xD800

/-- `UNI_SUR_LOW_END`, the last surrogate. -/
def UNI_SUR_LOW_END : ℕ := 0xDFFF

/-- `UNI_REPLACEMENT_CHAR`. -/
def UNI_REPLACEMENT_CHAR : ℕ := 0xFFFD

/-! ## UTF-8 to UTF-32 -/

/-- `trailingBytesForUTF8[b]`: the continuation bytes a first byte announces. -/
def trailingBytesForUTF8 (b : UInt8) : ℕ :=
  if b.toNat < 0xC0 then 0 else if b.toNat < 0xE0 then 1 else if b.toNat < 0xF0 then 2
  else if b.toNat < 0xF8 then 3 else if b.toNat < 0xFC then 4 else 5

/-- `offsetsFromUTF8[n]`: what the marker bits of an `n + 1` byte sequence add. -/
def offsetsFromUTF8 : ℕ → ℕ
  | 0 => 0x00000000
  | 1 => 0x00003080
  | 2 => 0x000E2080
  | 3 => 0x03C82080
  | 4 => 0xFA082080
  | _ => 0x82082080

/-- A continuation byte, `0x80 ..= 0xBF`. -/
def isContinuation (a : UInt8) : Bool :=
  0x80 ≤ a.toNat && a.toNat ≤ 0xBF

/-- The test `isLegalUTF8` makes of the second byte, which depends on the first. -/
def secondByteOk (lead a : UInt8) : Bool :=
  a.toNat ≤ 0xBF &&
    if lead.toNat = 0xE0 then 0xA0 ≤ a.toNat
    else if lead.toNat = 0xED then a.toNat ≤ 0x9F
    else if lead.toNat = 0xF0 then 0x90 ≤ a.toNat
    else if lead.toNat = 0xF4 then a.toNat ≤ 0x8F
    else 0x80 ≤ a.toNat

/-- The tests `isLegalUTF8` makes of the first byte: not a continuation byte nor `0xC0`, `0xC1`,
and at most `0xF4`. -/
def leadOk (b : UInt8) : Bool :=
  !(0x80 ≤ b.toNat && b.toNat < 0xC2) && b.toNat ≤ 0xF4

/-- `isLegalUTF8(source, length)`, for the `length` bytes of `s`. -/
def isLegalUTF8 : List UInt8 → Bool
  | [b] => leadOk b
  | [b, a] => secondByteOk b a && leadOk b
  | [b, a, c] => isContinuation c && secondByteOk b a && leadOk b
  | [b, a, c, d] => isContinuation d && isContinuation c && secondByteOk b a && leadOk b
  | _ => false

/-- The bytes of a sequence run together six bits at a time, marker bits included. -/
def utf8Accumulate (seq : List UInt8) : ℕ :=
  seq.foldl (fun ch b ↦ ch * 64 + b.toNat) 0

/-- Modelled from the Unicode reference converter: `ConvertUTF8toUTF32` of `ConvertUTF.c`, which
is not under `src/` and which the spec does not describe, strict, for a target with room for `room` code points.  It returns the result, the number of bytes of the
source consumed (`*sourceStart` after the call), and the code points written. -/
def ConvertUTF8toUTF32 : List UInt8 → ℕ → ConversionResult × ℕ × List ℕ
  | [], _ => (.conversionOK, 0, [])
  | b :: rest, room =>
    let extra := trailingBytesForUTF8 b
    if (b :: rest).length ≤ extra then (.sourceExhausted, 0, [])
    else
      let seq := (b :: rest).take (extra + 1)
      if !isLegalUTF8 seq then (.sourceIllegal, 0, [])
      else
        let ch := utf8Accumulate seq - offsetsFromUTF8 extra
        match room with
        | 0 => (.targetExhausted, 0, [])
        | room + 1 =>
          let next := ConvertUTF8toUTF32 ((b :: rest).drop (extra + 1)) room
          if ch ≤ UNI_MAX_LEGAL_UTF32 then
            if UNI_SUR_HIGH_START ≤ ch ∧ ch ≤ UNI_SUR_LOW_END then (.sourceIllegal, 0, [])
            else (next.1, extra + 1 + next.2.1, ch :: next.2.2)
          else
            (if next.1 = .conversionOK then .sourceIllegal else next.1, extra + 1 + next.2.1,
              UNI_REPLACEMENT_CHAR :: next.2.2)

/-! ## UTF-32 to UTF-8 -/

/-- `firstByteMark[n]`: the marker bits of the first byte of an `n` byte sequence. -/
def firstByteMark : ℕ → ℕ
  | 2 => 0xC0
  | 3 => 0xE0
  | 4 => 0xF0
  | 5 => 0xF8
  | 6 => 0xFC
  | _ => 0x00

/-- The `n` bytes the reference code writes for `ch`, from the last one back: six bits of `ch`
with `byteMark` under `byteMask` each, then what is left of `ch` with `firstByteMark[n]`, each
cast to a byte. -/
def utf8Encode (ch n : ℕ) : List UInt8 :=
  ((ch >>> (6 * (n - 1))) ||| firstByteMark n).toUInt8 ::
    (List.range (n - 1)).reverse.map fun k ↦ (((ch >>> (6 * k)) ||| 0x80) &&& 0xBF).toUInt8

/-- Modelled from the Unicode reference converter: `ConvertUTF32toUTF8` of `ConvertUTF.c`, which
is not under `src/` and which the spec does not describe, strict, for one code point and a target with room for eight bytes.  It returns the result and the bytes
written. -/
def ConvertUTF32toUTF8 (ch : ℕ) : ConversionResult × List UInt8 :=
  if UNI_SUR_HIGH_START ≤ ch ∧ ch ≤ UNI_SUR_LOW_END then (.sourceIllegal, [])
  else if ch < 0x80 then (.conversionOK, utf8Encode ch 1)
  else if ch < 0x800 then (.conversionOK, utf8Encode ch 2)
  else if ch < 0x10000 then (.conversionOK, utf8Encode ch 3)
  else if ch ≤ UNI_MAX_LEGAL_UTF32 then (.conversionOK, utf8Encode ch 4)
  else (.sourceIllegal, utf8Encode UNI_REPLACEMENT_CHAR 3)

/-! ## Characters of the Basic Multilingual Plane -/

theorem toNat_toUInt8 {n : ℕ} (h : n < 256) : n.toUInt8.toNat = n :=
  UInt8.toNat_ofNat_of_lt h

theorem toUInt8_toNat (b : UInt8) : b.toNat.toUInt8 = b :=
  UInt8.eq_of_val_eq (Fin.ext (toNat_toUInt8 b.val.isLt))

set_option maxRecDepth 2000 in
/-- A continuation byte keeps the low six bits of what it is cut from. -/
theorem contByte (y : ℕ) : (y ||| 0x80) &&& 0xBF = y % 64 + 0x80 := by
  have h : ∀ z < 256, (z &&& 0xBF) ||| 0x80 = z % 64 + 0x80 := by decide
  have e : y &&& 0xBF = y % 256 &&& 0xBF := by
    rw [← Nat.and_pow_two_sub_one_eq_mod y 8, Nat.and_assoc]; rfl
  rw [Nat.and_distrib_right, e, show (0x80 : ℕ) &&& 0xBF = 0x80 from rfl,
    h _ (Nat.mod_lt _ (by omega))]
  omega

theorem utf8Encode_two {c : ℕ} (h : c < 0x800) :
    utf8Encode c 2 = [(c / 64 + 0xC0).toUInt8, (c % 64 + 0x80).toUInt8] := by
  have hl : ∀ q < 32, q ||| 0xC0 = q + 0xC0 := by decide
  simp [utf8Encode, firstByteMark, Nat.shiftRight_eq_div_pow, contByte,
    hl _ (by omega : c / 64 < 32), List.range_succ]

theorem utf8Encode_three {c : ℕ} (h : c < 0x10000) :
    utf8Encode c 3 =
      [(c / 4096 + 0xE0).toUInt8, (c / 64 % 64 + 0x80).toUInt8, (c % 64 + 0x80).toUInt8] := by
  have hl : ∀ q < 16, q ||| 0xE0 = q + 0xE0 := by decide
  simp [utf8Encode, firstByteMark, Nat.shiftRight_eq_div_pow, contByte,
    hl _ (by omega : c / 4096 < 16), List.range_succ]

/-- `seq` is one whole character that `ConvertUTF8toUTF32` reads as the code point `ch`: its
first byte announces its length, `isLegalUTF8` accepts it, and what it accumulates is a legal
code point outside the surrogates. -/
structure Utf8Char (seq : List UInt8) (ch : ℕ) : Prop where
  ne_nil : seq ≠ []
  trailing : trailingBytesForUTF8 (seq.headD 0) + 1 = seq.length
  legal : isLegalUTF8 seq = true
  value : utf8Accumulate seq - offsetsFromUTF8 (seq.length - 1) = ch
  scalar : ch ≤ UNI_MAX_LEGAL_UTF32 ∧ ¬(UNI_SUR_HIGH_START ≤ ch ∧ ch ≤ UNI_SUR_LOW_END)

/-- `ConvertUTF8toUTF32` over a character and whatever follows it: with room it writes the
character and goes on, and with none it stops at once. -/
theorem ConvertUTF8toUTF32_char {seq : List UInt8} {ch : ℕ} (h : Utf8Char seq ch)
    (rest : List UInt8) (room : ℕ) :
    ConvertUTF8toUTF32 (seq ++ rest) (room + 1) =
      ((ConvertUTF8toUTF32 rest room).1, seq.length + (ConvertUTF8toUTF32 rest room).2.1,
        ch :: (ConvertUTF8toUTF32 rest room).2.2) ∧
    ConvertUTF8toUTF32 (seq ++ rest) 0 = (.targetExhausted, 0, []) := by
  obtain ⟨b, t, rfl⟩ := List.exists_cons_of_ne_nil h.ne_nil
  have htr : trailingBytesForUTF8 b = t.length := by simpa using h.trailing
  have hseq : (b :: t ++ rest).take (t.length + 1) = b :: t := by simp
  have hdrop : (b :: t ++ rest).drop (t.length + 1) = rest := by simp
  have hval := h.value
  simp only [List.length_cons, Nat.add_sub_cancel] at hval
  constructor <;>
  · rw [List.cons_append, ConvertUTF8toUTF32]
    simp only [htr, ← List.cons_append, hseq, hdrop, h.legal, hval, List.length_append,
      List.length_cons]
    simp [h.scalar.1, h.scalar.2]
    omega

/-- A code point of the Basic Multilingual Plane that is not a surrogate. -/
def IsBmpScalar (c : ℕ) : Prop :=
  c < 0x10000 ∧ ¬(UNI_SUR_HIGH_START ≤ c ∧ c ≤ UNI_SUR_LOW_END)

instance : DecidablePred IsBmpScalar := fun _ ↦ inferInstanceAs (Decidable (_ ∧ _))

theorem ConvertUTF32toUTF8_ascii {c : ℕ} (h : c < 0x80) :
    ConvertUTF32toUTF8 c = (.conversionOK, [c.toUInt8]) := by
  unfold ConvertUTF32toUTF8 UNI_SUR_HIGH_START
  rw [if_neg (by omega), if_pos h]
  simp [utf8Encode, firstByteMark]

theorem ConvertUTF32toUTF8_bmp {c : ℕ} (h : IsBmpScalar c) :
    (ConvertUTF32toUTF8 c).1 = .conversionOK := by
  obtain ⟨hc, hs⟩ := h
  unfold ConvertUTF32toUTF8
  rw [if_neg hs]
  split_ifs <;> rfl

/-- The first byte of a character outside ASCII is a lead byte, `0xC2` or above. -/
theorem ConvertUTF32toUTF8_lead {c : ℕ} (h : IsBmpScalar c) (h80 : 0x80 ≤ c) :
    ∃ b t, (ConvertUTF32toUTF8 c).2 = b :: t ∧ 0xC2 ≤ b.toNat := by
  obtain ⟨hc, hs⟩ := h
  unfold ConvertUTF32toUTF8
  rw [if_neg hs, if_neg (by omega)]
  split_ifs with h2
  · exact ⟨_, _, utf8Encode_two h2, by rw [toNat_toUInt8 (by omega)]; omega⟩
  · exact ⟨_, _, utf8Encode_three hc, by rw [toNat_toUInt8 (by omega)]; omega⟩

/-- **The encoder writes what the decoder reads**: for a code point of the plane,
`ConvertUTF32toUTF8` writes one character that `ConvertUTF8toUTF32` reads back as that code
point.  One case per length of the encoding. -/
theorem utf8Char_of_bmp {c : ℕ} (h : IsBmpScalar c) : Utf8Char (ConvertUTF32toUTF8 c).2 c := by
  obtain ⟨hc, hs⟩ := h
  have hsc : c ≤ UNI_MAX_LEGAL_UTF32 ∧ ¬(UNI_SUR_HIGH_START ≤ c ∧ c ≤ UNI_SUR_LOW_END) :=
    ⟨by unfold UNI_MAX_LEGAL_UTF32; omega, hs⟩
  unfold ConvertUTF32toUTF8
  rw [if_neg hs]
  unfold UNI_SUR_HIGH_START UNI_SUR_LOW_END at hs
  by_cases h1 : c < 0x80
  · rw [if_pos h1, show utf8Encode c 1 = [c.toUInt8] by simp [utf8Encode, firstByteMark]]
    refine ⟨by simp, ?_, ?_, ?_, hsc⟩ <;>
      simp [trailingBytesForUTF8, isLegalUTF8, leadOk, utf8Accumulate, offsetsFromUTF8,
        toNat_toUInt8 (by omega : c < 256)] <;> omega
  by_cases h2 : c < 0x800
  · rw [if_neg h1, if_pos h2, utf8Encode_two h2]
    refine ⟨by simp, ?_, ?_, ?_, hsc⟩ <;>
      simp [trailingBytesForUTF8, isLegalUTF8, leadOk, secondByteOk, utf8Accumulate,
        offsetsFromUTF8, toNat_toUInt8 (by omega : c / 64 + 0xC0 < 256),
        toNat_toUInt8 (by omega : c % 64 + 0x80 < 256)] <;> (try split_ifs) <;> omega
  · rw [if_neg h1, if_neg h2, if_pos hc, utf8Encode_three hc]
    refine ⟨by simp, ?_, ?_, ?_, hsc⟩ <;>
      simp [trailingBytesForUTF8, isLegalUTF8, leadOk, secondByteOk, isContinuation,
        utf8Accumulate, offsetsFromUTF8, toNat_toUInt8 (by omega : c / 4096 + 0xE0 < 256),
        toNat_toUInt8 (by omega : c / 64 % 64 + 0x80 < 256),
        toNat_toUInt8 (by omega : c % 64 + 0x80 < 256)] <;> (try split_ifs) <;> omega

/-- The UTF-8 text of a list of code points, as `ConvertUTF32toUTF8` encodes each. -/
def encodeUTF8 (cps : List ℕ) : List UInt8 :=
  cps.flatMap fun c ↦ (ConvertUTF32toUTF8 c).2

theorem encodeUTF8_cons (c : ℕ) (cps : List ℕ) :
    encodeUTF8 (c :: cps) = (ConvertUTF32toUTF8 c).2 ++ encodeUTF8 cps :=
  List.flatMap_cons _ _ _

/-- With no room left, `ConvertUTF8toUTF32` still checks the next character of a UTF-8 text,
and finds it well formed. -/
theorem ConvertUTF8toUTF32_encode_zero {cps : List ℕ} (h : ∀ c ∈ cps, IsBmpScalar c) :
    (ConvertUTF8toUTF32 (encodeUTF8 cps) 0).2.1 = 0 ∧
      ((ConvertUTF8toUTF32 (encodeUTF8 cps) 0).1 = .conversionOK ∨
        (ConvertUTF8toUTF32 (encodeUTF8 cps) 0).1 = .targetExhausted) := by
  cases cps with
  | nil => exact ⟨rfl, .inl rfl⟩
  | cons c cps =>
    rw [encodeUTF8_cons,
      (ConvertUTF8toUTF32_char (utf8Char_of_bmp (h c (List.mem_cons_self _ _))) _ 0).2]
    exact ⟨rfl, .inr rfl⟩

end Transmission
