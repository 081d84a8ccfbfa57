import Mathlib.Data.Nat.Digits
import Transmission.Json.Text

/-!
# A string literal read back

`jsonStringFunc` writes a string as a JSON literal and `extract_string` reads a literal back.
`Json/Text.lean` shows that the two disagree outside the Basic Multilingual Plane.  This file
proves that inside it they agree:

* **the printer** — over the UTF-8 text of code points of the plane, the loop of
  `jsonStringFunc` writes one `charWrite` per character (`jsonStringLoop_encode`, in
  `Json/Text.lean`): a named escape, the byte itself, or `\u` and four hex digits, `%04x` of the
  code point (`hex04_eq`);
* **the reader** — `extract_escaped_string` turns each of those back into the character's UTF-8
  bytes, with one lemma per kind of write followed by any rest (`extractEscapedLoop_char`, then
  `extractEscapedLoop_charWrite`);
* **the round trip** — together, `extract_string` of the literal gives the text back
  (`jsonString_bmp_roundtrip`).

Both loops run on fuel, the length of their input in the source's terms; each lemma takes any
fuel at least that length, so the statements hold of the fuel the definitions pass.
-/

set_option autoImplicit false

namespace Transmission

/-! ## `%04x` -/

/-- The byte of the lowercase hex digit `d`. -/
def hexDigit (d : ℕ) : UInt8 :=
  (Nat.digitChar d).toNat.toUInt8

theorem toDigitsCore_of_lt {b n fuel : ℕ} (hf : 0 < fuel) (hn : n < b) (ds : List Char) :
    Nat.toDigitsCore b fuel n ds = Nat.digitChar n :: ds := by
  obtain ⟨f, rfl⟩ := Nat.exists_eq_succ_of_ne_zero hf.ne'
  simp [Nat.toDigitsCore, Nat.div_eq_of_lt hn, Nat.mod_eq_of_lt hn]

theorem toDigitsCore_of_ge {b n fuel : ℕ} (hf : 0 < fuel) (hb : 0 < b) (hn : b ≤ n)
    (ds : List Char) :
    Nat.toDigitsCore b fuel n ds =
      Nat.toDigitsCore b (fuel - 1) (n / b) (Nat.digitChar (n % b) :: ds) := by
  obtain ⟨f, rfl⟩ := Nat.exists_eq_succ_of_ne_zero hf.ne'
  have : n / b ≠ 0 := (Nat.div_pos hn hb).ne'
  simp [Nat.toDigitsCore, this]

/-- `%04x` of a number below `0x10000`: its four hex digits, zeros in front. -/
theorem hex04_eq {c : ℕ} (h : c < 0x10000) :
    hex04 c = [hexDigit (c / 4096), hexDigit (c / 256 % 16), hexDigit (c / 16 % 16),
      hexDigit (c % 16)] := by
  unfold hex04 ascii Nat.toDigits
  by_cases h1 : c < 16
  · rw [toDigitsCore_of_lt (by omega) h1]
    simp [hexDigit, Nat.div_eq_of_lt h1, Nat.mod_eq_of_lt h1,
      show c / 4096 = 0 by omega, show c / 256 = 0 by omega]
    rfl
  by_cases h2 : c < 256
  · rw [toDigitsCore_of_ge (by omega) (by omega) (by omega),
      toDigitsCore_of_lt (by omega) (by omega)]
    simp [hexDigit, show c / 4096 = 0 by omega, show c / 256 = 0 by omega,
      show c / 16 % 16 = c / 16 by omega]
    rfl
  by_cases h3 : c < 4096
  · rw [toDigitsCore_of_ge (by omega) (by omega) (by omega),
      toDigitsCore_of_ge (by omega) (by omega) (by omega : 16 ≤ c / 16),
      toDigitsCore_of_lt (by omega) (by omega)]
    simp [hexDigit, show c / 4096 = 0 by omega, Nat.div_div_eq_div_mul,
      show c / 256 % 16 = c / 256 by omega]
    rfl
  · rw [toDigitsCore_of_ge (by omega) (by omega) (by omega),
      toDigitsCore_of_ge (by omega) (by omega) (by omega : 16 ≤ c / 16),
      toDigitsCore_of_ge (by omega) (by omega) (by omega : 16 ≤ c / 16 / 16),
      toDigitsCore_of_lt (by omega) (by omega)]
    simp [hexDigit, Nat.div_div_eq_div_mul, show c / 4096 % 16 = c / 4096 by omega]

theorem hexValue_hexDigit : ∀ d < 16, hexValue (hexDigit d) = some d := by
  decide

/-- `decode_hex_string` reads back the four digits of `%04x`. -/
theorem decode_hex_string_hex04 {c : ℕ} (h : c < 0x10000) (rest : List UInt8) :
    decode_hex_string (0x5C :: 0x75 :: (hex04 c ++ rest)) = some c := by
  rw [decode_hex_string, hex04_eq h]
  simp [List.foldlM, hexValue_hexDigit _ (Nat.mod_lt _ (by omega : 16 > 0)),
    hexValue_hexDigit (c / 4096) (by omega)]
  omega

/-! ## The reader -/

theorem namedUnescape_namedEscape :
    ∀ c < 128, (namedEscape c.toUInt8).bind namedUnescape =
      (namedEscape c.toUInt8).map fun _ ↦ c.toUInt8 := by
  decide

/-- A `\u` escape of a code point of the plane is read back as its UTF-8 bytes. -/
theorem extractEscapedLoop_u {c : ℕ} (hc : IsBmpScalar c) (fuel : ℕ) (rest : List UInt8) :
    extractEscapedLoop (fuel + 1) (ascii "\\u" ++ hex04 c ++ rest) =
      (ConvertUTF32toUTF8 c).2 ++ extractEscapedLoop fuel rest := by
  have hd := decode_hex_string_hex04 hc.1 rest
  have hl : (hex04 c).length = 4 := by rw [hex04_eq hc.1]; rfl
  show extractEscapedLoop (fuel + 1) (0x5C :: 0x75 :: (hex04 c ++ rest)) = _
  simp only [extractEscapedLoop, show namedUnescape 0x75 = none from rfl, hd,
    ConvertUTF32toUTF8_bmp hc]
  rw [if_pos (by decide), if_pos ⟨rfl, by simp [hl]⟩, if_pos trivial]
  simp [hl]

theorem extractEscapedLoop_named {e u : UInt8} (h : namedUnescape e = some u) (fuel : ℕ)
    (rest : List UInt8) :
    extractEscapedLoop (fuel + 1) (0x5C :: e :: rest) = u :: extractEscapedLoop fuel rest := by
  simp only [extractEscapedLoop, h]
  rfl

theorem extractEscapedLoop_plain {b : UInt8} (h : b.toNat ≠ 0x5C) (fuel : ℕ)
    (rest : List UInt8) :
    extractEscapedLoop (fuel + 1) (b :: rest) = b :: extractEscapedLoop fuel rest := by
  simp only [extractEscapedLoop, if_neg h]

theorem charWrite_text_ne_nil (c : ℕ) : (charWrite c).text ≠ [] := by
  unfold charWrite; split_ifs <;> (try split) <;> simp [JsonWrite.text, ascii]

/-- The writes of one character are read back in one pass as its UTF-8 bytes, whatever
follows them. -/
theorem extractEscapedLoop_char {c : ℕ} (hc : IsBmpScalar c) (fuel : ℕ) (rest : List UInt8) :
    extractEscapedLoop (fuel + 1) ((charWrite c).text ++ rest) =
      (ConvertUTF32toUTF8 c).2 ++ extractEscapedLoop fuel rest := by
  unfold charWrite
  by_cases h80 : c < 0x80
  · rw [if_pos h80, ConvertUTF32toUTF8_ascii h80]
    have hinv := namedUnescape_namedEscape c h80
    cases hn : namedEscape c.toUInt8 with
    | some e =>
      simp only [hn, Option.some_bind, Option.map_some', Option.some.injEq] at hinv
      exact extractEscapedLoop_named hinv fuel rest
    | none =>
      by_cases hp : isprint c.toUInt8
      · have h5c : c.toUInt8.toNat ≠ 0x5C := fun h5 ↦ by simp [namedEscape, h5] at hn
        simp only [hp, if_true]
        exact extractEscapedLoop_plain h5c fuel rest
      · simp only [hp, Bool.false_eq_true, if_false, JsonWrite.text]
        rw [extractEscapedLoop_u hc, ConvertUTF32toUTF8_ascii h80]
  · rw [if_neg h80, JsonWrite.text, extractEscapedLoop_u hc]

/-- **The reader, character by character**: `extract_escaped_string` turns the writes of each
character back into its UTF-8 bytes. -/
theorem extractEscapedLoop_charWrite {cps : List ℕ} (h : ∀ c ∈ cps, IsBmpScalar c) {fuel : ℕ}
    (hfuel : ((cps.map charWrite).flatMap JsonWrite.text).length ≤ fuel) :
    extractEscapedLoop fuel ((cps.map charWrite).flatMap JsonWrite.text) = encodeUTF8 cps := by
  induction cps generalizing fuel with
  | nil => cases fuel <;> rfl
  | cons c cps ih =>
    have hcs : ∀ c ∈ cps, IsBmpScalar c := fun c hc ↦ h c (List.mem_cons_of_mem _ hc)
    have hlen := List.length_pos.2 (charWrite_text_ne_nil c)
    rw [List.map_cons, List.flatMap_cons, List.length_append] at hfuel
    obtain ⟨fuel, rfl⟩ : ∃ f, fuel = f + 1 := ⟨fuel - 1, by omega⟩
    rw [List.map_cons, List.flatMap_cons, extractEscapedLoop_char (h c (List.mem_cons_self _ _)),
      ih hcs (by omega), encodeUTF8_cons]

/-- A body without a backslash is copied. -/
theorem extractEscapedLoop_of_not_mem {s : List UInt8} (h : 0x5C ∉ s) {fuel : ℕ}
    (hfuel : s.length ≤ fuel) : extractEscapedLoop fuel s = s := by
  induction s generalizing fuel with
  | nil => cases fuel <;> rfl
  | cons b s ih =>
    obtain ⟨fuel, rfl⟩ : ∃ f, fuel = f + 1 := ⟨fuel - 1, by simp at hfuel; omega⟩
    have hb : b.toNat ≠ 0x5C := fun h5 ↦
      h ((show b = 0x5C from UInt8.eq_of_val_eq (Fin.ext h5)) ▸ List.mem_cons_self _ _)
    rw [extractEscapedLoop_plain hb,
      ih (fun hm ↦ h (List.mem_cons_of_mem _ hm)) (by simp at hfuel; omega)]

/-- `extract_string` of a literal's text from its opening quote is the loop of
`extract_escaped_string` over the body, whether or not the body holds a backslash. -/
theorem extract_string_quote (body : List UInt8) :
    extract_string (0x22 :: body) = extractEscapedLoop body.length body := by
  unfold extract_string
  simp only [List.head?_cons, if_true, List.tail_cons]
  split_ifs with h
  · rfl
  · exact (extractEscapedLoop_of_not_mem h le_rfl).symm

/-! ## The round trip -/

/-- **A string of the Basic Multilingual Plane survives printing and reading back**: for every
UTF-8 text whose characters lie in the plane, `extract_string` of the literal `jsonStringFunc`
writes gives the text back. -/
theorem jsonString_bmp_roundtrip (cps : List ℕ) (h : ∀ c ∈ cps, IsBmpScalar c) :
    extract_string (0x22 :: jsonStringBody (encodeUTF8 cps)) = encodeUTF8 cps := by
  rw [extract_string_quote, jsonStringBody, jsonStringWrites, jsonStringLoop_encode h le_rfl]
  exact extractEscapedLoop_charWrite h le_rfl

end Transmission
