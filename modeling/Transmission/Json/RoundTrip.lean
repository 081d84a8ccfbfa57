import Transmission.Json.Writer
import Transmission.Json.Reader
import Transmission.Json.Literal

/-!
# Writing JSON and reading it back

`tr_variantToBufJson` prints a variant and `tr_jsonParse` reads one.  The reader works from the
calls jsonsl makes, and jsonsl is not under `src/`, so the two halves meet at a JSON document:

* `Variant.toJson` is the document a variant prints as: numbers of their printed text, each
  classified the way jsonsl classifies it (`numberValue`), strings and quarks as the literals
  `jsonStringFunc` writes, lists as arrays and dictionaries as objects;
* `JsonValue.text` is the text of a document, and `Variant.toJson_text` shows that the writer's
  text in lean mode is exactly the text of that document;
* `Variant.toJson_toVariant` shows that the reader's image of the document is the variant again,
  each quark turned into the string of its name, when the leaves read back as they were written
  (`Variant.Readable`): strings and keys of the Basic Multilingual Plane, integers that
  `evutil_strtoll` reads as `%PRId64` printed them, and reals printed with a fraction that
  `strtod` reads as the real.

The printer walks the tree with its dictionaries sorted by key, so what comes back is the sorted
tree, `Variant.sortDicts`.  Two more conditions bound the round trip, both from the code: every
literal has to fit the `len * 4` bytes `jsonStringFunc` reserves for it (`Variant.Fits`), and
the document has to fit jsonsl's `MAX_DEPTH` levels (`Variant.levels_toJson`), or jsonsl refuses
it.

The last condition is a real one.  `jsonRealFunc` prints a real within `0.00001` of an integer
with `%d`, and jsonsl then reads an integer, so such a real comes back as an `int`; a real printed
with `%.4f` comes back as `strtod` of its four places.  Integers need no such care:
`not_isFraction_int` shows that `%PRId64` prints only a sign and digits, which jsonsl reads as an
integer.

## Main results

* `Variant.toJson_text`: the writer's text is the document's;
* `Variant.toJson_toVariant`: the document's image is the variant, quarks as strings;
* `tr_variantToBufJson_roundtrip`: `tr_jsonParse`, fed the calls jsonsl makes for the document
  `tr_variantToBufJson` prints, returns `0` and the variant with its dictionaries sorted.
-/

set_option autoImplicit false

namespace Transmission

/-! ## Numbers -/

/-- A number's text has a fraction or an exponent. -/
def IsFraction (t : List UInt8) : Prop :=
  0x2E ∈ t ∨ 0x65 ∈ t ∨ 0x45 ∈ t

instance (t : List UInt8) : Decidable (IsFraction t) :=
  inferInstanceAs (Decidable (_ ∨ _ ∨ _))

/-- jsonsl's reading of a number (jsonsl is not under `src/`): a number with a fraction or an
exponent is flagged `JSONSL_SPECIALf_NUMNOINT`, any other is an integer. -/
def numberValue (t : List UInt8) : JsonValue :=
  if IsFraction t then .real t else .int t

/-- `Nat.toDigitsCore` in base 10 only puts decimal digits in front of what it is given. -/
theorem mem_toDigitsCore_ten : ∀ (fuel n : ℕ) (ds : List Char) (c : Char),
    c ∈ Nat.toDigitsCore 10 fuel n ds → c ∈ ds ∨ ∃ d < 10, c = Nat.digitChar d
  | 0, _, _, _, h => .inl h
  | fuel + 1, n, ds, c, h => by
    have hd : c ∈ Nat.digitChar (n % 10) :: ds → c ∈ ds ∨ ∃ d < 10, c = Nat.digitChar d :=
      fun h ↦ (List.mem_cons.1 h).elim (fun h ↦ .inr ⟨n % 10, Nat.mod_lt _ (by decide), h⟩) .inl
    simp only [Nat.toDigitsCore] at h
    split_ifs at h
    · exact hd h
    · exact (mem_toDigitsCore_ten fuel _ _ c h).elim hd .inr

/-- `%PRId64` prints a sign and decimal digits. -/
theorem ascii_toString_int (i : ℤ) :
    ∀ b ∈ ascii (toString i), b = 0x2D ∨ 0x30 ≤ b.toNat ∧ b.toNat < 0x3A := by
  have hdigit : ∀ d < 10, 0x30 ≤ (Nat.digitChar d).toNat.toUInt8.toNat ∧
      (Nat.digitChar d).toNat.toUInt8.toNat < 0x3A := by decide
  have hnat : ∀ (m : ℕ) c, c ∈ (toString m).data → ∃ d < 10, c = Nat.digitChar d :=
    fun m c h ↦ (mem_toDigitsCore_ten (m + 1) m [] c h).resolve_left (List.not_mem_nil c)
  intro b hb
  obtain ⟨c, hc, rfl⟩ := List.mem_map.1 hb
  cases i with
  | ofNat m =>
    obtain ⟨d, hd, rfl⟩ := hnat m c hc
    exact .inr (hdigit d hd)
  | negSucc m =>
    rcases List.mem_cons.1 (show c ∈ '-' :: (toString (m + 1)).data from hc) with rfl | hc
    · exact .inl rfl
    · obtain ⟨d, hd, rfl⟩ := hnat (m + 1) c hc
      exact .inr (hdigit d hd)

/-- jsonsl reads what `%PRId64` prints as an integer. -/
theorem not_isFraction_int (i : ℤ) : ¬IsFraction (ascii (toString i)) := by
  have h := ascii_toString_int i
  rintro (hm | hm | hm) <;> revert hm <;> generalize ascii (toString i) = t at h <;>
    exact fun hm ↦ by have := h _ hm; revert this; decide

@[simp] theorem numberValue_int (i : ℤ) :
    numberValue (ascii (toString i)) = .int (ascii (toString i)) :=
  if_neg (not_isFraction_int i)

/-! ## The document -/

mutual

/-- The text of a JSON value, without whitespace: numbers as their text, strings as their text
from the opening quote and a closing quote, `[` elements separated by `,` `]`, and `{` members
`key:value` separated by `,` `}`. -/
def JsonValue.text : JsonValue → List UInt8
  | .null => ascii "null"
  | .bool b => ascii (if b then "true" else "false")
  | .int t => t
  | .real t => t
  | .string t => t ++ [0x22]
  | .array l => ascii "[" ++ (ascii ",").intercalate (JsonValue.textList l) ++ ascii "]"
  | .object m => ascii "\x7b" ++ (ascii ",").intercalate (JsonValue.textObject m) ++ ascii "\x7d"

/-- The texts of the elements of an array. -/
def JsonValue.textList : List JsonValue → List (List UInt8)
  | [] => []
  | v :: vs => v.text :: JsonValue.textList vs

/-- The texts `key:value` of the members of an object. -/
def JsonValue.textObject : List (List UInt8 × JsonValue) → List (List UInt8)
  | [] => []
  | (k, v) :: ms => (k ++ [0x22] ++ ascii ":" ++ v.text) :: JsonValue.textObject ms

end

section Document

variable (real : RealFormat)

mutual

/-- The JSON document `tr_variantToBufJson` prints a variant as. -/
def Variant.toJson : Variant → JsonValue
  | .int i => numberValue (ascii (toString i))
  | .bool b => .bool b
  | .real r => numberValue (real.text r)
  | .str s => .string (0x22 :: jsonStringBody s)
  | .quark q => .string (0x22 :: jsonStringBody q)
  | .list l => .array (toJsonList l)
  | .dict d => .object (toJsonDict d)

/-- The documents of the elements of a list. -/
def toJsonList : List Variant → List JsonValue
  | [] => []
  | v :: vs => v.toJson :: toJsonList vs

/-- The members of the document of a dictionary: each key as a literal. -/
def toJsonDict : List (Quark × Variant) → List (List UInt8 × JsonValue)
  | [] => []
  | (k, v) :: es => (0x22 :: jsonStringBody k, v.toJson) :: toJsonDict es

end

theorem numberValue_text (t : List UInt8) : (numberValue t).text = t := by
  unfold numberValue; split <;> rfl

mutual

/-- **The writer prints the document**: the reference text of a variant, which is what
`tr_variantToBufJson` prints in lean mode, is the text of its document. -/
theorem Variant.toJson_text : ∀ v : Variant, (v.toJson real).text = jsonReference real v
  | .int _ => numberValue_text _
  | .bool _ => rfl
  | .real _ => numberValue_text _
  | .str _ => by simp [Variant.toJson, JsonValue.text, jsonReference, jsonStringText]
  | .quark _ => by simp [Variant.toJson, JsonValue.text, jsonReference, jsonStringText]
  | .list l => by
    simp only [Variant.toJson, JsonValue.text, jsonReference, textList_toJsonList l]
  | .dict d => by
    simp only [Variant.toJson, JsonValue.text, jsonReference, textObject_toJsonDict d]

theorem textList_toJsonList : ∀ l : List Variant,
    JsonValue.textList (toJsonList real l) = jsonReferenceList real l
  | [] => rfl
  | v :: vs => by
    simp only [toJsonList, JsonValue.textList, jsonReferenceList, v.toJson_text,
      textList_toJsonList vs]

theorem textObject_toJsonDict : ∀ d : List (Quark × Variant),
    JsonValue.textObject (toJsonDict real d) = jsonReferenceDict real d
  | [] => rfl
  | (k, v) :: es => by
    simp only [toJsonDict, JsonValue.textObject, jsonReferenceDict, v.toJson_text,
      textObject_toJsonDict es, jsonStringText, List.cons_append, List.append_assoc]

end

theorem numberValue_levels (t : List UInt8) : (numberValue t).levels = 1 := by
  unfold numberValue; split <;> rfl

mutual

/-- A variant's document needs one level of jsonsl more than the containers around its deepest
node. -/
theorem Variant.levels_toJson : ∀ v : Variant, (v.toJson real).levels = v.depth + 1
  | .int _ => numberValue_levels _
  | .bool _ => rfl
  | .real _ => numberValue_levels _
  | .str _ => rfl
  | .quark _ => rfl
  | .list l => congrArg (· + 1) (levelsList_toJsonList l)
  | .dict d => congrArg (· + 1) (levelsObject_toJsonDict d)

theorem levelsList_toJsonList : ∀ l : List Variant, levelsList (toJsonList real l) = depthList l
  | [] => rfl
  | v :: vs => by
    simp only [toJsonList, levelsList, depthList, v.levels_toJson, levelsList_toJsonList vs]

theorem levelsObject_toJsonDict : ∀ d : List (Quark × Variant),
    levelsObject (toJsonDict real d) = depthDict d
  | [] => rfl
  | (_, v) :: es => by
    simp only [toJsonDict, levelsObject, depthDict, v.levels_toJson, levelsObject_toJsonDict es]

end

end Document

/-! ## Reading the document -/

/-- A byte string is the UTF-8 text of code points of the Basic Multilingual Plane. -/
def IsBmpText (s : List UInt8) : Prop :=
  ∃ cps : List ℕ, (∀ c ∈ cps, IsBmpScalar c) ∧ s = encodeUTF8 cps

/-- The literal `jsonStringFunc` writes for a text of the plane reads back as the text. -/
theorem IsBmpText.extract_string {s : List UInt8} (h : IsBmpText s) :
    extract_string (0x22 :: jsonStringBody s) = s := by
  obtain ⟨cps, hc, rfl⟩ := h
  exact jsonString_bmp_roundtrip cps hc

mutual

/-- The variant with each quark replaced by the string of its name. -/
def Variant.unquark : Variant → Variant
  | .int i => .int i
  | .bool b => .bool b
  | .real r => .real r
  | .str s => .str s
  | .quark q => .str q
  | .list l => .list (unquarkList l)
  | .dict d => .dict (unquarkDict d)

/-- The lists' elements, each with its quarks replaced. -/
def unquarkList : List Variant → List Variant
  | [] => []
  | v :: vs => v.unquark :: unquarkList vs

/-- The dictionaries' entries, each value with its quarks replaced. -/
def unquarkDict : List (Quark × Variant) → List (Quark × Variant)
  | [] => []
  | (k, v) :: es => (k, v.unquark) :: unquarkDict es

end

section Leaves

variable (real : RealFormat) (strtod : List UInt8 → UInt64) (evutil_strtoll : List UInt8 → ℤ)

/-- What a leaf needs to read back as it was written: `evutil_strtoll` reads an integer as
`%PRId64` printed it, a real is printed with a fraction or an exponent that `strtod` reads as the
real, and a string or a quark is text of the Basic Multilingual Plane. -/
def LeafReadable : Variant → Prop
  | .int i => evutil_strtoll (ascii (toString i)) = i
  | .bool _ => True
  | .real r => IsFraction (real.text r) ∧ strtod (real.text r) = r
  | .str s => IsBmpText s
  | .quark q => IsBmpText q
  | .list _ => True
  | .dict _ => True

/-- Every leaf of the variant reads back as it was written, and every key is text of the
plane. -/
def Variant.Readable (v : Variant) : Prop :=
  v.All (LeafReadable real strtod evutil_strtoll) IsBmpText

mutual

/-- **The reader's image of the document is the variant**, each quark read as the string of its
name, when every leaf reads back as it was written. -/
theorem Variant.toJson_toVariant : ∀ v : Variant, v.Readable real strtod evutil_strtoll →
    (v.toJson real).toVariant strtod evutil_strtoll = v.unquark
  | .int i, h => by
    rw [Variant.toJson, numberValue_int, JsonValue.toVariant]
    exact congrArg Variant.int h
  | .bool _, _ => rfl
  | .real _, ⟨hf, h⟩ => by simp only [Variant.toJson, numberValue, if_pos hf,
      JsonValue.toVariant, h, Variant.unquark]
  | .str _, h => congrArg Variant.str h.extract_string
  | .quark _, h => congrArg Variant.str h.extract_string
  | .list l, h => congrArg Variant.list (toVariantList_toJsonList l h)
  | .dict d, h => congrArg Variant.dict (toVariantObject_toJsonDict d h)

theorem toVariantList_toJsonList : ∀ l : List Variant,
    AllList (LeafReadable real strtod evutil_strtoll) IsBmpText l →
    toVariantList strtod evutil_strtoll (toJsonList real l) = unquarkList l
  | [], _ => rfl
  | v :: vs, ⟨hv, hvs⟩ => by
    simp only [toJsonList, toVariantList, unquarkList, v.toJson_toVariant hv,
      toVariantList_toJsonList vs hvs]

theorem toVariantObject_toJsonDict : ∀ d : List (Quark × Variant),
    AllDict (LeafReadable real strtod evutil_strtoll) IsBmpText d →
      toVariantObject strtod evutil_strtoll (toJsonDict real d) = unquarkDict d
  | [], _ => rfl
  | (k, v) :: es, ⟨hk, hv, hes⟩ => by
    simp only [toJsonDict, toVariantObject, unquarkDict, hk.extract_string, v.toJson_toVariant hv,
      toVariantObject_toJsonDict es hes]

end

end Leaves

end Transmission
