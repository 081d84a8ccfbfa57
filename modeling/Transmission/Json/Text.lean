import Transmission.Json.Utf

/-!
# JSON string literals

`jsonStringFunc` writes a string variant as a JSON string literal, and `extract_string` reads the
body of one back.  Both work on bytes:

* the printer escapes `\b \f \n \r \t \" \\` by name, copies the printable ASCII bytes, and
  writes every other character as `\u` and its code point in `%04x`, after converting it from
  UTF-8; a byte that does not start a character it can convert is dropped;
* the reader copies the body when it holds no backslash, and otherwise undoes the named escapes
  and reads `\u` with exactly four hex digits, which it converts back to UTF-8.

The printer writes into space it reserved beforehand, `len * 4` bytes for a string of `len` bytes,
through a pointer `outwalk` that it advances by what each escape takes; `tr_snprintf` is passed
the room left, `outend - outwalk`.  `JsonWrite` records each write, so that both the text and the
positions of the writes follow from one loop, `jsonStringLoop`.

Over the UTF-8 text of code points of the Basic Multilingual Plane the loop writes one thing per
character, `charWrite` (`jsonStringLoop_encode`, from `jsonStringLoop_char`); the reservation
and the reader's round trip (`Json/Literal.lean`) both rest on that.

What goes wrong:

* `jsonStringText_control`: a byte such as `\x01` takes six bytes, so a string of `n` of them
  takes `6 n + 2` bytes, quotes included, against `4 n` reserved, and from the third such byte on
  the room passed to `tr_snprintf` is negative (`jsonStringFunc_overruns_reservation`);
* a code point above `U+FFFF` is written with five or six hex digits, and read back as the code
  point of its first four, followed by the others as text
  (`jsonString_supplementary_not_roundtrip`).
-/

set_option autoImplicit false

namespace Transmission

/-- The bytes of an ASCII text. -/
def ascii (s : String) : List UInt8 :=
  s.data.map fun c ↦ c.toNat.toUInt8

/-- `isprint` of the C locale: the bytes `0x20 ..= 0x7E`. -/
def isprint (b : UInt8) : Bool :=
  0x20 ≤ b.toNat && b.toNat ≤ 0x7E

/-- `printf("%04x", n)`: the lowercase hex digits of `n`, padded with zeros to four. -/
def hex04 (n : ℕ) : List UInt8 :=
  let digits := ascii (String.mk (Nat.toDigits 16 n))
  List.replicate (4 - digits.length) 0x30 ++ digits

/-! ## The printer -/

/-- What one pass of `jsonStringFunc`'s loop writes: bytes stored through `outwalk`, or the text
of a `tr_snprintf` call. -/
inductive JsonWrite where
  | bytes (b : List UInt8)
  | snprintf (text : List UInt8)

/-- The bytes a write puts in the output, when the reserved space holds them. -/
def JsonWrite.text : JsonWrite → List UInt8
  | .bytes b => b
  | .snprintf text => text

/-- The second byte of the escape `jsonStringFunc`'s switch writes for `b`, if it has a case
for `b`. -/
def namedEscape (b : UInt8) : Option UInt8 :=
  if b.toNat = 0x08 then some 0x62
  else if b.toNat = 0x0C then some 0x66
  else if b.toNat = 0x0A then some 0x6E
  else if b.toNat = 0x0D then some 0x72
  else if b.toNat = 0x09 then some 0x74
  else if b.toNat = 0x22 then some 0x22
  else if b.toNat = 0x5C then some 0x5C
  else none

/-- The loop of `jsonStringFunc` over the bytes `[it, end)`.  A character that is neither named
nor printable is converted with a target of one code point; when that succeeds the loop writes
`\u%04x` of it and skips the bytes it took, and otherwise goes on with the next byte.  Every pass
consumes a byte at least, so `fuel` of the length of the string runs the loop to its end. -/
def jsonStringLoop : ℕ → List UInt8 → List JsonWrite
  | 0, _ => []
  | _ + 1, [] => []
  | fuel + 1, b :: rest =>
    match namedEscape b with
    | some e => .bytes [0x5C, e] :: jsonStringLoop fuel rest
    | none =>
      if isprint b then .bytes [b] :: jsonStringLoop fuel rest
      else
        let conv := ConvertUTF8toUTF32 (b :: rest) 1
        if (conv.1 = .conversionOK ∨ conv.1 = .targetExhausted) ∧ conv.2.1 ≠ 0 then
          .snprintf (ascii "\\u" ++ hex04 (conv.2.2.headD 0)) ::
            jsonStringLoop fuel ((b :: rest).drop conv.2.1)
        else jsonStringLoop fuel rest

/-- The writes of `jsonStringFunc` for the string `s`, between its quotes. -/
def jsonStringWrites (s : List UInt8) : List JsonWrite :=
  jsonStringLoop s.length s

/-- The body of the literal `jsonStringFunc` writes for `s`. -/
def jsonStringBody (s : List UInt8) : List UInt8 :=
  (jsonStringWrites s).flatMap JsonWrite.text

/-- The literal `jsonStringFunc` writes for `s` through `outwalk`, quotes included.  It is
committed to the output when it fits the room reserved for it (`jsonStringFunc`, in
`Json/Writer.lean`). -/
def jsonStringText (s : List UInt8) : List UInt8 :=
  0x22 :: (jsonStringBody s ++ [0x22])

/-- The room `outend - outwalk` passed to each `tr_snprintf` call, when `outwalk` stands at `pos`
and `outend` at `iovLen`.  `outwalk` moves by the length of every write, and by the length
`tr_snprintf` returns — the whole escape — for its calls. -/
def snprintfSizes (iovLen : ℕ) : ℕ → List JsonWrite → List ℤ
  | _, [] => []
  | pos, .bytes b :: ws => snprintfSizes iovLen (pos + b.length) ws
  | pos, .snprintf text :: ws => ((iovLen : ℤ) - pos) :: snprintfSizes iovLen (pos + text.length) ws

/-- A byte that `jsonStringFunc` writes as `\u00XX`: a control byte without a name, or `DEL`. -/
def IsUnnamedControl (b : UInt8) : Prop :=
  (b.toNat < 0x20 ∧ namedEscape b = none) ∨ b.toNat = 0x7F

instance (b : UInt8) : Decidable (IsUnnamedControl b) :=
  inferInstanceAs (Decidable (_ ∨ _))

/-! ## The printer over the Basic Multilingual Plane -/

/-- What `jsonStringFunc`'s loop writes for one character: a named escape, the byte itself when
it is printable, and `\u` with `%04x` of the code point otherwise. -/
def charWrite (c : ℕ) : JsonWrite :=
  if c < 0x80 then
    match namedEscape c.toUInt8 with
    | some e => .bytes [0x5C, e]
    | none => if isprint c.toUInt8 then .bytes [c.toUInt8] else .snprintf (ascii "\\u" ++ hex04 c)
  else .snprintf (ascii "\\u" ++ hex04 c)

/-- No byte outside ASCII has a case in `jsonStringFunc`'s switch. -/
theorem namedEscape_of_ge {b : UInt8} (h : 0x80 ≤ b.toNat) : namedEscape b = none := by
  simp (disch := omega) only [namedEscape, if_neg]

/-- One character of a UTF-8 text of the plane, before more of it: the loop writes `charWrite`
of it in one pass and goes on after its bytes. -/
theorem jsonStringLoop_char {c : ℕ} (hc : IsBmpScalar c) {cps : List ℕ}
    (hcs : ∀ c ∈ cps, IsBmpScalar c) (fuel : ℕ) :
    jsonStringLoop (fuel + 1) ((ConvertUTF32toUTF8 c).2 ++ encodeUTF8 cps) =
      charWrite c :: jsonStringLoop fuel (encodeUTF8 cps) := by
  have hchar := utf8Char_of_bmp hc
  obtain ⟨hz, hr⟩ := ConvertUTF8toUTF32_encode_zero hcs
  have hconv := (ConvertUTF8toUTF32_char hchar (encodeUTF8 cps) 0).1
  obtain ⟨b, t, hbt⟩ := List.exists_cons_of_ne_nil hchar.ne_nil
  rw [hbt] at hconv ⊢
  by_cases h80 : c < 0x80
  · -- an ASCII character: escaped by name, copied, or written as `\u00XX`
    rw [ConvertUTF32toUTF8_ascii h80] at hbt
    obtain ⟨rfl, rfl⟩ := List.cons.inj hbt
    simp only [List.singleton_append] at hconv ⊢
    simp only [jsonStringLoop, charWrite, if_pos h80]
    cases namedEscape c.toUInt8 with
    | some e => rfl
    | none =>
      by_cases hp : isprint c.toUInt8
      · simp only [hp, if_true]
      · simp only [hp, Bool.false_eq_true, if_false, hconv, hz, List.length_singleton,
          List.headD_cons, Nat.add_zero, List.drop_one, List.tail_cons]
        rw [if_pos ⟨hr, Nat.one_ne_zero⟩]
  · -- a character of two or three bytes: always `\uXXXX`
    obtain ⟨b', t', hbt', hlead⟩ := ConvertUTF32toUTF8_lead hc (by omega)
    rw [hbt] at hbt'
    obtain ⟨rfl, rfl⟩ := List.cons.inj hbt'
    have hp : isprint b = false := by simp [isprint]; omega
    simp only [List.cons_append, charWrite, if_neg h80] at hconv ⊢
    simp only [jsonStringLoop, namedEscape_of_ge (by omega : 0x80 ≤ b.toNat), hp,
      Bool.false_eq_true, if_false, hconv, hz, Nat.add_zero, List.headD_cons]
    rw [if_pos ⟨hr, by simp⟩, ← List.cons_append, List.drop_left' rfl]

/-- **The printer, character by character**: over a UTF-8 text of the Basic Multilingual Plane,
`jsonStringFunc`'s loop writes one escape or byte per character. -/
theorem jsonStringLoop_encode {cps : List ℕ} (h : ∀ c ∈ cps, IsBmpScalar c) {fuel : ℕ}
    (hfuel : (encodeUTF8 cps).length ≤ fuel) :
    jsonStringLoop fuel (encodeUTF8 cps) = cps.map charWrite := by
  induction cps generalizing fuel with
  | nil => cases fuel <;> rfl
  | cons c cps ih =>
    have hc := h c (List.mem_cons_self _ _)
    have hcs : ∀ c ∈ cps, IsBmpScalar c := fun c hc ↦ h c (List.mem_cons_of_mem _ hc)
    have hlen := List.length_pos.2 (utf8Char_of_bmp hc).ne_nil
    rw [encodeUTF8_cons, List.length_append] at hfuel
    obtain ⟨fuel, rfl⟩ : ∃ f, fuel = f + 1 := ⟨fuel - 1, by omega⟩
    rw [encodeUTF8_cons, jsonStringLoop_char hc hcs, List.map_cons, ih hcs (by omega)]

theorem hex04_length_of_lt_128 : ∀ n < 128, (hex04 n).length = 4 := by
  decide

/-! ## The reservation -/

/-- An ASCII text is its own UTF-8 encoding. -/
theorem encodeUTF8_ascii {s : List UInt8} (hs : ∀ b ∈ s, b.toNat < 0x80) :
    encodeUTF8 (s.map UInt8.toNat) = s := by
  induction s with
  | nil => rfl
  | cons b s ih =>
    rw [List.map_cons, encodeUTF8_cons, ConvertUTF32toUTF8_ascii (hs b (List.mem_cons_self _ _)),
      toUInt8_toNat, ih fun c hc ↦ hs c (List.mem_cons_of_mem _ hc)]
    rfl

theorem IsUnnamedControl.lt {b : UInt8} (hb : IsUnnamedControl b) : b.toNat < 0x80 := by
  unfold IsUnnamedControl at hb; omega

/-- A control byte without a name is written as `\u00XX`. -/
theorem charWrite_control {b : UInt8} (hb : IsUnnamedControl b) :
    charWrite b.toNat = .snprintf (ascii "\\u" ++ hex04 b.toNat) := by
  have hne : namedEscape b = none := by
    rcases hb with h | h
    · exact h.2
    · simp [namedEscape, h]
  have hp : isprint b = false := by unfold isprint IsUnnamedControl at *; simp; omega
  simp only [charWrite, if_pos hb.lt, toUInt8_toNat, hne, hp, Bool.false_eq_true, if_false]

/-- **A control byte without a name takes six bytes**: over a string of them, every pass of the
loop is one `tr_snprintf` of `\u00XX`. -/
theorem jsonStringLoop_control {s : List UInt8} (hs : ∀ b ∈ s, IsUnnamedControl b) {fuel : ℕ}
    (hfuel : s.length ≤ fuel) :
    jsonStringLoop fuel s = s.map fun b ↦ .snprintf (ascii "\\u" ++ hex04 b.toNat) := by
  have henc := encodeUTF8_ascii fun b hb ↦ (hs b hb).lt
  have hbmp : ∀ c ∈ s.map UInt8.toNat, IsBmpScalar c := by
    simp only [List.mem_map]
    rintro _ ⟨b, hb, rfl⟩
    have := (hs b hb).lt
    exact ⟨by omega, by unfold UNI_SUR_HIGH_START; omega⟩
  rw [← henc] at hfuel
  conv_lhs => rw [← henc]
  rw [jsonStringLoop_encode hbmp hfuel, List.map_map]
  exact List.map_congr_left fun b hb ↦ charWrite_control (hs b hb)

/-- A string of `n` control bytes without a name takes `6 n + 2` bytes, quotes included. -/
theorem jsonStringText_control {s : List UInt8} (hs : ∀ b ∈ s, IsUnnamedControl b) :
    (jsonStringText s).length = 6 * s.length + 2 := by
  have hbody : ∀ t : List UInt8, (∀ b ∈ t, IsUnnamedControl b) →
      ((t.map fun b ↦ JsonWrite.snprintf (ascii "\\u" ++ hex04 b.toNat)).flatMap
        JsonWrite.text).length = 6 * t.length := by
    intro t ht
    induction t with
    | nil => rfl
    | cons b t ih =>
      have hb := ht b (List.mem_cons_self _ _)
      unfold IsUnnamedControl at hb
      have := hex04_length_of_lt_128 b.toNat (by omega)
      have h2 : (ascii "\\u").length = 2 := rfl
      simp [JsonWrite.text, this, h2, ih fun c hc ↦ ht c (List.mem_cons_of_mem _ hc)]
      omega
  simp only [jsonStringText, jsonStringBody, jsonStringWrites, jsonStringLoop_control hs le_rfl,
    List.length_cons, List.length_append, hbody s hs, List.length_singleton]
  rfl

/-- Over a string of control bytes without a name, the `k`-th `tr_snprintf` is passed the room
left after `k` escapes of six bytes. -/
theorem snprintfSizes_control {s : List UInt8} (hs : ∀ b ∈ s, IsUnnamedControl b)
    (iovLen pos : ℕ) :
    snprintfSizes iovLen pos (jsonStringWrites s) =
      (List.range s.length).map fun k : ℕ ↦ (iovLen : ℤ) - pos - 6 * k := by
  rw [jsonStringWrites, jsonStringLoop_control hs le_rfl]
  induction s generalizing pos with
  | nil => rfl
  | cons b s ih =>
    have hb := hs b (List.mem_cons_self _ _)
    unfold IsUnnamedControl at hb
    have h6 : (ascii "\\u" ++ hex04 b.toNat).length = 6 := by
      rw [List.length_append, hex04_length_of_lt_128 b.toNat (by omega)]; rfl
    simp only [List.map_cons, snprintfSizes, h6, List.length_cons, List.range_succ_eq_map,
      List.map_map, ih fun c hc ↦ hs c (List.mem_cons_of_mem _ hc)]
    refine congrArg₂ _ (by simp) (List.map_congr_left fun k _ ↦ ?_)
    simp only [Function.comp_apply]
    omega

/-- **The reservation of `len * 4` bytes is too small for control bytes**: a string of `n` control
bytes without a name takes `6 n + 2` bytes, and when `evbuffer_reserve_space` gives exactly the
`4 n` bytes asked for, the room passed to the `k`-th `tr_snprintf` is `4 n - 1 - 6 k`, negative
from the third byte of three on. -/
theorem jsonStringFunc_overruns_reservation :
    (∀ s : List UInt8, (∀ b ∈ s, IsUnnamedControl b) →
      s.length * 4 < (jsonStringText s).length ∧
      snprintfSizes (s.length * 4) 1 (jsonStringWrites s) =
        (List.range s.length).map fun k : ℕ ↦ (s.length * 4 : ℤ) - 1 - 6 * k) ∧
    snprintfSizes 12 1 (jsonStringWrites [1, 1, 1]) = [11, 5, -1] :=
  ⟨fun _ hs ↦ ⟨by rw [jsonStringText_control hs]; omega, by rw [snprintfSizes_control hs]; simp⟩,
    by decide⟩

/-- Three control bytes take 20 bytes of the 12 reserved. -/
theorem jsonStringFunc_overruns_reservation_three :
    [(1 : UInt8), 1, 1].length * 4 < (jsonStringText [1, 1, 1]).length ∧
    snprintfSizes 12 1 (jsonStringWrites [1, 1, 1]) = [11, 5, -1] :=
  ⟨(jsonStringFunc_overruns_reservation.1 [1, 1, 1] (by decide)).1,
    jsonStringFunc_overruns_reservation.2⟩

/-! ## The reader -/

/-- The byte a named escape `\x` of `extract_escaped_string` stands for. -/
def namedUnescape (d : UInt8) : Option UInt8 :=
  if d.toNat = 0x62 then some 0x08
  else if d.toNat = 0x66 then some 0x0C
  else if d.toNat = 0x6E then some 0x0A
  else if d.toNat = 0x72 then some 0x0D
  else if d.toNat = 0x74 then some 0x09
  else if d.toNat = 0x2F then some 0x2F
  else if d.toNat = 0x22 then some 0x22
  else if d.toNat = 0x5C then some 0x5C
  else none

/-- The value of a hex digit, either case. -/
def hexValue (c : UInt8) : Option ℕ :=
  if 0x30 ≤ c.toNat ∧ c.toNat ≤ 0x39 then some (c.toNat - 0x30)
  else if 0x61 ≤ c.toNat ∧ c.toNat ≤ 0x66 then some (c.toNat - 0x61 + 10)
  else if 0x41 ≤ c.toNat ∧ c.toNat ≤ 0x46 then some (c.toNat - 0x41 + 10)
  else none

/-- `decode_hex_string(in, &val)`: the four hex digits after `\u`, if they are hex digits. -/
def decode_hex_string (s : List UInt8) : Option ℕ :=
  ((s.drop 2).take 4).foldlM (fun val c ↦ (hexValue c).map fun d ↦ val * 16 + d) 0

/-- The loop of `extract_escaped_string` over `[in, in_end)`.  When the code point of a `\u`
escape does not convert, the code has already moved `in` past the escape and copies the byte
there; at the end of the string that is the byte at `in_end`, the closing quote. -/
def extractEscapedLoop : ℕ → List UInt8 → List UInt8
  | 0, _ => []
  | _ + 1, [] => []
  | fuel + 1, c :: rest =>
    if c.toNat = 0x5C then
      match rest with
      | [] => c :: extractEscapedLoop fuel rest
      | d :: rest' =>
        match namedUnescape d with
        | some u => u :: extractEscapedLoop fuel rest'
        | none =>
          if d.toNat = 0x75 ∧ 6 ≤ (c :: rest).length then
            match decode_hex_string (c :: rest) with
            | some val =>
              if (ConvertUTF32toUTF8 val).1 = .conversionOK then
                (ConvertUTF32toUTF8 val).2 ++ extractEscapedLoop fuel ((c :: rest).drop 6)
              else
                match (c :: rest).drop 6 with
                | [] => [0x22]
                | x :: after => x :: extractEscapedLoop fuel after
            | none => c :: extractEscapedLoop fuel rest
          else c :: extractEscapedLoop fuel rest
    else c :: extractEscapedLoop fuel rest

/-- `extract_escaped_string`. -/
def extract_escaped_string (s : List UInt8) : List UInt8 :=
  extractEscapedLoop s.length s

/-- `extract_string`: the bytes from the string's opening quote to its end, the quote dropped,
copied when they hold no backslash and unescaped otherwise. -/
def extract_string (s : List UInt8) : List UInt8 :=
  let body := if s.head? = some 0x22 then s.tail else s
  if 0x5C ∈ body then extract_escaped_string body else body

/-- U+1F600, well-formed UTF-8, is written as `\u1f600` and read back as U+1F60 and `0`. -/
theorem jsonString_supplementary_not_roundtrip :
    isLegalUTF8 [0xF0, 0x9F, 0x98, 0x80] = true ∧
      jsonStringBody [0xF0, 0x9F, 0x98, 0x80] = ascii "\\u1f600" ∧
      extract_string (0x22 :: jsonStringBody [0xF0, 0x9F, 0x98, 0x80]) = [0xE1, 0xBD, 0xA0, 0x30] := by
  decide

end Transmission
