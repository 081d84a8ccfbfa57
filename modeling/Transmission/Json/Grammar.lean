import Mathlib.Data.List.Forall2
import Transmission.Json.Literal

/-!
# What a JSON string body is

RFC 8259 writes a string as its characters between two quotes.  A character is written as
itself, when it is not `"`, `\` or a control below `U+0020`, or as an escape: `\"`, `\\`, `\/`,
`\b`, `\f`, `\n`, `\r`, `\t`, or `\u` and four hex digits of either case.  A code point outside
the Basic Multilingual Plane is escaped as a surrogate pair: `\u` of a high surrogate, then `\u`
of a low one.  This file states that grammar over bytes, with the UTF-8 bytes each character
stands for, and holds `jsonStringFunc` and `extract_escaped_string` against it.

## Main definitions

* `HexDigit`, `HexQuad`: a hex digit of either case and its value; four of them and the number
  they write;
* `utf8Bytes`: the UTF-8 encoding of a code point, RFC 3629's table;
* `JsonSimpleChar`, `JsonChar`, `JsonBody`: a character of a body written as one token, or as a
  surrogate pair, with the bytes it stands for; a body and the text it stands for;
* `JsonLexChar`: the tokens a well-formed literal is made of, whatever they stand for.

## Main results

* `jsonStringText_wellFormed`: whatever bytes it is given, the literal `jsonStringFunc` writes
  is well formed, quotes around `JsonLexChar` tokens, all of it ASCII (`jsonStringFunc_wellFormed`,
  in `Json/Writer.lean`, adds that it is what `jsonStringFunc` commits when it fits);
* `extract_string_simple`: a body made of one-token characters is read as the bytes it stands
  for;
* `extract_escaped_string_surrogates`: a surrogate pair is not.  `\ud83d\ude00`, which stands
  for `U+1F600`, is read as the six bytes `\ude00`: the `\u` escape of the high surrogate does
  not convert, and the code then copies the byte after it and goes on from there.  At the end of a
  body the byte after the escape is the one at `in_end`, outside the body.
-/

set_option autoImplicit false

namespace Transmission

/-! ## The grammar -/

/-- A hex digit of either case, and its value. -/
inductive HexDigit : UInt8 → ℕ → Prop
  | digit (v : ℕ) : v < 10 → HexDigit (0x30 + v).toUInt8 v
  | upper (v : ℕ) : v < 6 → HexDigit (0x41 + v).toUInt8 (10 + v)
  | lower (v : ℕ) : v < 6 → HexDigit (0x61 + v).toUInt8 (10 + v)

/-- Four hex digits, and the number they write, the most significant first. -/
def HexQuad (ds : List UInt8) (c : ℕ) : Prop :=
  ∃ d₀ d₁ d₂ d₃ v₀ v₁ v₂ v₃, ds = [d₀, d₁, d₂, d₃] ∧ HexDigit d₀ v₀ ∧ HexDigit d₁ v₁ ∧
    HexDigit d₂ v₂ ∧ HexDigit d₃ v₃ ∧ c = 4096 * v₀ + 256 * v₁ + 16 * v₂ + v₃

/-- The UTF-8 encoding of the code point `c`: one byte below `U+0080`, then two, three and
four. -/
def utf8Bytes (c : ℕ) : List UInt8 :=
  if c < 0x80 then [c.toUInt8]
  else if c < 0x800 then [(c / 64 + 0xC0).toUInt8, (c % 64 + 0x80).toUInt8]
  else if c < 0x10000 then
    [(c / 4096 + 0xE0).toUInt8, (c / 64 % 64 + 0x80).toUInt8, (c % 64 + 0x80).toUInt8]
  else
    [(c / 262144 + 0xF0).toUInt8, (c / 4096 % 64 + 0x80).toUInt8,
      (c / 64 % 64 + 0x80).toUInt8, (c % 64 + 0x80).toUInt8]

/-- The escapes of RFC 8259 with a name: the byte after `\`, and the byte it stands for. -/
def rfcNamedEscapes : List (UInt8 × UInt8) :=
  [(0x22, 0x22), (0x5C, 0x5C), (0x2F, 0x2F), (0x62, 0x08), (0x66, 0x0C), (0x6E, 0x0A),
    (0x72, 0x0D), (0x74, 0x09)]

/-- A surrogate code point, `U+D800 ..= U+DFFF`. -/
def IsSurrogate (c : ℕ) : Prop :=
  0xD800 ≤ c ∧ c ≤ 0xDFFF

instance : DecidablePred IsSurrogate := fun _ ↦ inferInstanceAs (Decidable (_ ∧ _))

/-- A character of a string body written as one token, and the UTF-8 bytes it stands for. -/
inductive JsonSimpleChar : List UInt8 → List UInt8 → Prop
  /-- A byte other than `"`, `\` and the controls, standing for itself. -/
  | unescaped (b : UInt8) : 0x20 ≤ b.toNat → b.toNat ≠ 0x22 → b.toNat ≠ 0x5C →
      JsonSimpleChar [b] [b]
  /-- `\` and a name. -/
  | named (e u : UInt8) : (e, u) ∈ rfcNamedEscapes → JsonSimpleChar [0x5C, e] [u]
  /-- `\u` and the four hex digits of a code point that is not a surrogate. -/
  | unicode (ds : List UInt8) (c : ℕ) : HexQuad ds c → ¬IsSurrogate c →
      JsonSimpleChar (0x5C :: 0x75 :: ds) (utf8Bytes c)

/-- A character of a string body, and the UTF-8 bytes it stands for. -/
inductive JsonChar : List UInt8 → List UInt8 → Prop
  | simple {t u : List UInt8} : JsonSimpleChar t u → JsonChar t u
  /-- `\u` of a high surrogate and `\u` of a low one: the code point they encode in UTF-16. -/
  | surrogatePair (hs ls : List UInt8) (hi lo : ℕ) : HexQuad hs hi → HexQuad ls lo →
      0xD800 ≤ hi → hi ≤ 0xDBFF → 0xDC00 ≤ lo → lo ≤ 0xDFFF →
      JsonChar (0x5C :: 0x75 :: hs ++ 0x5C :: 0x75 :: ls)
        (utf8Bytes (0x10000 + (hi - 0xD800) * 0x400 + (lo - 0xDC00)))

/-- `b` is the body of a string literal, and stands for the UTF-8 text `u`. -/
def JsonBody (b u : List UInt8) : Prop :=
  ∃ toks us, List.Forall₂ JsonChar toks us ∧ b = toks.flatten ∧ u = us.flatten

/-- A token of the body of a well-formed literal: an ASCII byte other than `"`, `\` and the
controls; `\` and one of `" \ b f n r t`; or `\u` and four or more hex digits. -/
inductive JsonLexChar : List UInt8 → Prop
  | raw (b : UInt8) : 0x20 ≤ b.toNat → b.toNat < 0x80 → b.toNat ≠ 0x22 → b.toNat ≠ 0x5C →
      JsonLexChar [b]
  | named (e : UInt8) : e ∈ ascii "\"\\bfnrt" → JsonLexChar [0x5C, e]
  | unicode (ds : List UInt8) : 4 ≤ ds.length → (∀ d ∈ ds, ∃ v, HexDigit d v) →
      JsonLexChar (0x5C :: 0x75 :: ds)

/-! ## Hex digits -/

theorem HexDigit.hexValue_eq {b : UInt8} {v : ℕ} (h : HexDigit b v) : hexValue b = some v := by
  cases h with
  | digit v hv => revert v; decide
  | upper v hv => revert v; decide
  | lower v hv => revert v; decide

theorem HexDigit.lt_16 {b : UInt8} {v : ℕ} (h : HexDigit b v) : v < 16 := by
  cases h <;> omega

theorem HexDigit.toNat_lt {b : UInt8} {v : ℕ} (h : HexDigit b v) : b.toNat < 0x80 := by
  cases h with
  | digit v hv => revert v; decide
  | upper v hv => revert v; decide
  | lower v hv => revert v; decide

/-- `decode_hex_string` reads four hex digits of either case as the number they write. -/
theorem HexQuad.decode {ds : List UInt8} {c : ℕ} (h : HexQuad ds c) (rest : List UInt8) :
    decode_hex_string (0x5C :: 0x75 :: (ds ++ rest)) = some c ∧ ds.length = 4 ∧ c < 0x10000 := by
  obtain ⟨d₀, d₁, d₂, d₃, v₀, v₁, v₂, v₃, rfl, h₀, h₁, h₂, h₃, rfl⟩ := h
  have := h₀.lt_16; have := h₁.lt_16; have := h₂.lt_16; have := h₃.lt_16
  refine ⟨?_, rfl, by omega⟩
  simp [decode_hex_string, List.foldlM, h₀.hexValue_eq, h₁.hexValue_eq, h₂.hexValue_eq,
    h₃.hexValue_eq]
  omega

theorem ascii_namedEscapes : ascii "\"\\bfnrt" = [0x22, 0x5C, 0x62, 0x66, 0x6E, 0x72, 0x74] := by
  decide

theorem JsonLexChar.ascii {t : List UInt8} (h : JsonLexChar t) : ∀ b ∈ t, b.toNat < 0x80 := by
  cases h with
  | raw b _ hb _ _ => simpa using hb
  | named e he =>
    have : ∀ e ∈ Transmission.ascii "\"\\bfnrt", e.toNat < 0x80 := by
      rw [ascii_namedEscapes]; decide
    simp only [List.mem_cons, List.mem_singleton, List.not_mem_nil, or_false]
    rintro b (rfl | rfl)
    · decide
    · exact this b he
  | unicode ds _ hds =>
    simp only [List.mem_cons]
    rintro b (rfl | rfl | hb)
    · decide
    · decide
    · obtain ⟨v, hv⟩ := hds b hb
      exact hv.toNat_lt

theorem namedUnescape_of_mem {e u : UInt8} (h : (e, u) ∈ rfcNamedEscapes) :
    namedUnescape e = some u := by
  simp only [rfcNamedEscapes, List.mem_cons, Prod.mk.injEq, List.mem_singleton] at h
  rcases h with ⟨rfl, rfl⟩ | ⟨rfl, rfl⟩ | ⟨rfl, rfl⟩ | ⟨rfl, rfl⟩ | ⟨rfl, rfl⟩ | ⟨rfl, rfl⟩ |
    ⟨rfl, rfl⟩ | ⟨rfl, rfl⟩ | h
  all_goals first | rfl | simp at h

/-- On a code point of the plane that is not a surrogate, `ConvertUTF32toUTF8` writes its UTF-8
encoding. -/
theorem ConvertUTF32toUTF8_eq_utf8Bytes {c : ℕ} (h : IsBmpScalar c) :
    ConvertUTF32toUTF8 c = (.conversionOK, utf8Bytes c) := by
  obtain ⟨hc, hs⟩ := h
  unfold ConvertUTF32toUTF8 utf8Bytes
  rw [if_neg hs]
  split_ifs with h1 h2
  · simp [utf8Encode, firstByteMark]
  · rw [utf8Encode_two h2]
  · rw [utf8Encode_three hc]

/-- One character written as one token is read in one pass as the bytes it stands for, whatever
follows it. -/
theorem extractEscapedLoop_simpleChar {t u : List UInt8} (h : JsonSimpleChar t u) (fuel : ℕ)
    (rest : List UInt8) :
    extractEscapedLoop (fuel + 1) (t ++ rest) = u ++ extractEscapedLoop fuel rest := by
  cases h with
  | unescaped b _ _ h5c => exact extractEscapedLoop_plain h5c fuel rest
  | named e u he => exact extractEscapedLoop_named (namedUnescape_of_mem he) fuel rest
  | unicode ds c hq hs =>
    obtain ⟨hd, hlen, hlt⟩ := hq.decode rest
    have hbmp : IsBmpScalar c := ⟨hlt, by unfold UNI_SUR_HIGH_START UNI_SUR_LOW_END; exact hs⟩
    show extractEscapedLoop (fuel + 1) (0x5C :: 0x75 :: (ds ++ rest)) = _
    simp only [extractEscapedLoop, show namedUnescape 0x75 = none from rfl, hd,
      ConvertUTF32toUTF8_eq_utf8Bytes hbmp]
    rw [if_pos (by decide), if_pos ⟨rfl, by simp [hlen]⟩, if_pos trivial]
    simp [hlen]

theorem JsonSimpleChar.ne_nil {t u : List UInt8} (h : JsonSimpleChar t u) : t ≠ [] := by
  cases h <;> simp

/-- **A body of one-token characters is read as what it stands for**: `extract_string` of a
literal whose body is made of unescaped bytes, named escapes and `\u` escapes of code points that
are not surrogates gives the UTF-8 bytes the body stands for. -/
theorem extract_string_simple {toks us : List (List UInt8)}
    (h : List.Forall₂ JsonSimpleChar toks us) :
    extract_string (0x22 :: toks.flatten) = us.flatten := by
  rw [extract_string_quote]
  suffices ∀ fuel, toks.flatten.length ≤ fuel → extractEscapedLoop fuel toks.flatten = us.flatten
    from this _ le_rfl
  induction h with
  | nil => intro fuel _; cases fuel <;> rfl
  | @cons t u toks us ht _ ih =>
    intro fuel hfuel
    have hlen := List.length_pos.2 ht.ne_nil
    rw [List.flatten_cons, List.length_append] at hfuel
    obtain ⟨fuel, rfl⟩ : ∃ f, fuel = f + 1 := ⟨fuel - 1, by omega⟩
    rw [List.flatten_cons, List.flatten_cons, extractEscapedLoop_simpleChar ht, ih fuel (by omega)]

/-- `00E9`, in capitals. -/
theorem hexQuad_00E9 : HexQuad (ascii "00E9") 0xE9 :=
  ⟨0x30, 0x30, 0x45, 0x39, 0, 0, 14, 9, by decide, .digit 0 (by decide), .digit 0 (by decide),
    .upper 4 (by decide), .digit 9 (by decide), rfl⟩

/-- `a\n\u00E9` is read as `a`, a line feed and `é`. -/
theorem extract_string_simple_escapes :
    List.Forall₂ JsonSimpleChar [[0x61], [0x5C, 0x6E], 0x5C :: 0x75 :: ascii "00E9"]
      [[0x61], [0x0A], utf8Bytes 0xE9] ∧
    extract_string (0x22 :: [[0x61], [0x5C, 0x6E], 0x5C :: 0x75 :: ascii "00E9"].flatten) =
      [[0x61], [0x0A], utf8Bytes 0xE9].flatten :=
  have h : List.Forall₂ JsonSimpleChar [[0x61], [0x5C, 0x6E], 0x5C :: 0x75 :: ascii "00E9"]
      [[0x61], [0x0A], utf8Bytes 0xE9] :=
    .cons (.unescaped 0x61 (by decide) (by decide) (by decide))
      (.cons (.named 0x6E 0x0A (by decide))
        (.cons (.unicode _ _ hexQuad_00E9 (by decide)) .nil))
  ⟨h, extract_string_simple h⟩

/-- `d83d`. -/
theorem hexQuad_d83d : HexQuad (ascii "d83d") 0xD83D :=
  ⟨0x64, 0x38, 0x33, 0x64, 13, 8, 3, 13, by decide, .lower 3 (by decide), .digit 8 (by decide),
    .digit 3 (by decide), .lower 3 (by decide), rfl⟩

/-- `de00`. -/
theorem hexQuad_de00 : HexQuad (ascii "de00") 0xDE00 :=
  ⟨0x64, 0x65, 0x30, 0x30, 13, 14, 0, 0, by decide, .lower 3 (by decide), .lower 4 (by decide),
    .digit 0 (by decide), .digit 0 (by decide), rfl⟩

/-- **A surrogate pair is not read as what it stands for.**  `\ud83d\ude00` is a body that stands
for `U+1F600`, whose UTF-8 bytes are `F0 9F 98 80`, and `extract_string` reads it as the six bytes
`\ude00`.  A `\u` escape of a lone surrogate at the end of a body makes the loop copy the byte at
`in_end`, the closing quote, which is not part of the body. -/
theorem extract_escaped_string_surrogates :
    JsonBody (ascii "\\ud83d\\ude00") [0xF0, 0x9F, 0x98, 0x80] ∧
      extract_string (0x22 :: ascii "\\ud83d\\ude00") = ascii "\\ude00" ∧
      extract_string (0x22 :: ascii "\\ud800") = [0x22] := by
  refine ⟨⟨[_], [_], .cons (.surrogatePair _ _ _ _ hexQuad_d83d hexQuad_de00 (by decide)
    (by decide) (by decide) (by decide)) .nil, by decide, by decide⟩, by decide, by decide⟩

end Transmission
