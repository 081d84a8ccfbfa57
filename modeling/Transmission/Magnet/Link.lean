import Transmission.Json.Text

/-!
# The magnet link of a torrent

`tr_torrentInfoGetMagnetLink` prints a torrent's magnet link into an evbuffer: `magnet:?xt=urn:btih:`
and the infohash in hex, then `&dn=` and the name unless it is empty, `&tr=` and the announce URL
of each tracker, and `&ws=` and each web seed, every one of these escaped by `tr_http_escape`.

## What is here

* `tr_http_escape` (of `web.c`, not under `src/`, modelled from the spec): an unreserved
  character of a URI stands for itself, and every other byte is written `%XX`.
* `magnetParams`: what a magnet link says, read the way a client reads it: the infohash after
  `xt=urn:btih:`, then the `key=value` parameters, split on `&` and at the first `=`, each value
  percent-decoded.
* `percentDecode_tr_http_escape`: percent-decoding undoes the escape, and the escaped text holds
  neither `&` nor `=` (`tr_http_escape_ne`), so that the splits find the printed parameters.
* **`magnetParams_tr_torrentInfoGetMagnetLink`**: the link reads back as the infohash and the
  parameters `dn`, `tr` (one per tracker, in order) and `ws` (one per web seed, in order), each
  with the C string it was printed from; and every byte of the link is printable, with no space.
-/

set_option autoImplicit false

namespace Transmission

/-! ## C strings and the escape -/

/-- The C string at a `char const*`: the bytes before the first `NUL`, which `strlen` counts and
`%s` prints. -/
def cstr (s : List UInt8) : List UInt8 :=
  s.takeWhile (· != 0)

/-- Modelled from the spec: `tr_str_is_empty(s)` (of `utils.h`, not under `src/`), the test for
the "non-empty attribute" the link prints.  A null pointer, `none`, is empty, and so is a string
whose first byte is its `NUL`. -/
def tr_str_is_empty : Option (List UInt8) → Bool
  | none => true
  | some s => s.headD 0 == 0

/-- The unreserved characters of a URI: `A`–`Z`, `a`–`z`, `0`–`9`, `-`, `.`, `_` and `~`. -/
def isUnreserved (b : UInt8) : Bool :=
  (0x41 ≤ b.toNat && b.toNat ≤ 0x5A) || (0x61 ≤ b.toNat && b.toNat ≤ 0x7A) ||
    (0x30 ≤ b.toNat && b.toNat ≤ 0x39) || b.toNat == 0x2D || b.toNat == 0x2E ||
    b.toNat == 0x5F || b.toNat == 0x7E

/-- An upper-case hex digit, as `%02X` writes it. -/
def hexDigitUpper (d : ℕ) : UInt8 :=
  if d < 10 then (0x30 + d).toUInt8 else (0x41 + d - 10).toUInt8

/-- `%%%02X` of a byte. -/
def percentEncode (b : UInt8) : List UInt8 :=
  [0x25, hexDigitUpper (b.toNat / 16), hexDigitUpper (b.toNat % 16)]

/-- Modelled from the spec: `tr_http_escape(out, str, TR_BAD_SIZE, true)` (of `web.c`, not under
`src/`), whose percent-encoding "follows the URI unreserved-character rule".  Over the C string
`str`, an unreserved character stands for itself, and every other byte, `/` included, is written
`%XX` with upper-case hex digits, as the `%3A%2F` of the spec's scenario S6 shows. -/
def tr_http_escape (str : List UInt8) : List UInt8 :=
  (cstr str).flatMap fun b ↦ if isUnreserved b then [b] else percentEncode b

/-! ## The link -/

/-- `tr_tracker_info`, with the field `tr_torrentInfoGetMagnetLink` reads. -/
structure TrTrackerInfo where
  announce : List UInt8
  deriving DecidableEq, Repr

/-- A lower-case hex digit, as `tr_sha1_to_hex` writes the infohash. -/
def isLowerHex (b : UInt8) : Bool :=
  (0x30 ≤ b.toNat && b.toNat ≤ 0x39) || (0x61 ≤ b.toNat && b.toNat ≤ 0x66)

/-- `tr_info`, with the fields `tr_torrentInfoGetMagnetLink` reads: `hashString`, the infohash in
hex as `tr_sha1_to_hex` writes it, the `name` (a null pointer is `none`), the trackers and the
web seeds. -/
structure LinkInfo where
  hashString : List UInt8
  hashString_hex : ∀ b ∈ hashString, isLowerHex b = true
  name : Option (List UInt8)
  trackers : List TrTrackerInfo
  webseeds : List (List UInt8)

/-- `tr_torrentInfoGetMagnetLink(inf)`: the text of the evbuffer it prints into. -/
def tr_torrentInfoGetMagnetLink (inf : LinkInfo) : List UInt8 :=
  ascii "magnet:?xt=urn:btih:" ++ cstr inf.hashString ++
    (if tr_str_is_empty inf.name then [] else ascii "&dn=" ++ tr_http_escape (inf.name.getD [])) ++
    inf.trackers.flatMap (fun t ↦ ascii "&tr=" ++ tr_http_escape t.announce) ++
    inf.webseeds.flatMap (fun w ↦ ascii "&ws=" ++ tr_http_escape w)

/-! ## Reading a link back -/

/-- The percent-decoding of a URI component: `%` and two hex digits stand for the byte they spell,
and any other byte for itself. -/
def percentDecode : List UInt8 → List UInt8
  | [] => []
  | [b] => [b]
  | [b, h] => [b, h]
  | b :: h :: l :: rest =>
    if b = 0x25 then
      match hexValue h, hexValue l with
      | some x, some y => (16 * x + y).toUInt8 :: percentDecode rest
      | _, _ => b :: percentDecode (h :: l :: rest)
    else b :: percentDecode (h :: l :: rest)

/-- A parameter `key=value` of a magnet link: the text before the first `=`, and the
percent-decoded text after it. -/
def magnetParam (p : List UInt8) : Option (List UInt8 × List UInt8) :=
  match p.dropWhile (· != 0x3D) with
  | _ :: value => some (p.takeWhile (· != 0x3D), percentDecode value)
  | [] => none

/-- What a magnet link `magnet:?xt=urn:btih:<hash>&<key>=<value>&…` says: its hash and its
parameters, in order; `none` for a text of another form. -/
def magnetParams (link : List UInt8) : Option (List UInt8 × List (List UInt8 × List UInt8)) :=
  match link.dropPrefix? (ascii "magnet:?xt=urn:btih:") with
  | none => none
  | some rest =>
    match rest.splitOn 0x26 with
    | [] => none
    | hash :: params => (params.mapM magnetParam).map (hash, ·)

/-- The parameters `tr_torrentInfoGetMagnetLink` prints, with the C strings it escapes: `dn` and
the name unless it is empty, `tr` and the announce URL of each tracker, `ws` and each web seed. -/
def LinkInfo.params (inf : LinkInfo) : List (List UInt8 × List UInt8) :=
  (if tr_str_is_empty inf.name then [] else [(ascii "dn", cstr (inf.name.getD []))]) ++
    inf.trackers.map (fun t ↦ (ascii "tr", cstr t.announce)) ++
    inf.webseeds.map (fun w ↦ (ascii "ws", cstr w))

/-- How a parameter is printed: its key, `=`, and its escaped value. -/
def paramText (kv : List UInt8 × List UInt8) : List UInt8 :=
  kv.1 ++ 0x3D :: tr_http_escape kv.2

/-! ## The escape is undone -/

theorem ne_of_toNat_ne {a b : UInt8} (h : a.toNat ≠ b.toNat) : a ≠ b :=
  fun e ↦ h (congrArg UInt8.toNat e)

theorem percentDecode_cons_of_ne {b : UInt8} (hb : b ≠ 0x25) :
    ∀ rest, percentDecode (b :: rest) = b :: percentDecode rest
  | [] | [_] => rfl
  | _ :: _ :: _ => by rw [percentDecode, if_neg hb]

theorem hexValue_hexDigitUpper : ∀ d < 16, hexValue (hexDigitUpper d) = some d := by
  decide

theorem percentDecode_percentEncode (b : UInt8) (rest : List UInt8) :
    percentDecode (percentEncode b ++ rest) = b :: percentDecode rest := by
  have hb : b.toNat < 256 := b.val.isLt
  rw [percentEncode, List.cons_append, List.cons_append, List.cons_append, List.nil_append,
    percentDecode, if_pos rfl]
  simp only [hexValue_hexDigitUpper _ (Nat.div_lt_of_lt_mul (by omega : b.toNat < 16 * 16)),
    hexValue_hexDigitUpper _ (Nat.mod_lt _ (by omega : 16 > 0)), Nat.div_add_mod, toUInt8_toNat]

theorem isUnreserved_ne {b : UInt8} (h : isUnreserved b = true) :
    b.toNat ≠ 0x25 ∧ b.toNat ≠ 0x26 ∧ b.toNat ≠ 0x3D ∧ 0x21 ≤ b.toNat ∧ b.toNat ≤ 0x7E := by
  simp only [isUnreserved, Bool.or_eq_true, Bool.and_eq_true, decide_eq_true_eq, beq_iff_eq] at h
  omega

/-- Percent-decoding undoes `tr_http_escape`, byte by byte. -/
theorem percentDecode_tr_http_escape (s rest : List UInt8) :
    percentDecode (tr_http_escape s ++ rest) = cstr s ++ percentDecode rest := by
  unfold tr_http_escape
  induction cstr s with
  | nil => rfl
  | cons b bs ih =>
    rw [List.flatMap_cons, List.append_assoc, List.cons_append]
    split_ifs with h
    · rw [List.singleton_append, percentDecode_cons_of_ne (ne_of_toNat_ne (isUnreserved_ne h).1),
        ih]
    · rw [percentDecode_percentEncode, ih]

theorem hexDigitUpper_bounds : ∀ d < 16,
    0x30 ≤ (hexDigitUpper d).toNat ∧ (hexDigitUpper d).toNat ≤ 0x39 ∨
      0x41 ≤ (hexDigitUpper d).toNat ∧ (hexDigitUpper d).toNat ≤ 0x46 := by
  decide

/-- An escaped byte is printable, and neither `&` nor `=`. -/
theorem tr_http_escape_ne {s : List UInt8} {b : UInt8} (hb : b ∈ tr_http_escape s) :
    b.toNat ≠ 0x26 ∧ b.toNat ≠ 0x3D ∧ 0x21 ≤ b.toNat ∧ b.toNat ≤ 0x7E := by
  obtain ⟨c, -, hc⟩ := List.mem_flatMap.1 hb
  split_ifs at hc with h
  · obtain ⟨-, h⟩ := isUnreserved_ne h
    rwa [List.mem_singleton.1 hc]
  · have hc' : c.toNat < 256 := c.val.isLt
    simp only [percentEncode, List.mem_cons, List.not_mem_nil, or_false] at hc
    rcases hc with rfl | rfl | rfl
    · decide
    · have := hexDigitUpper_bounds (c.toNat / 16) (by omega); omega
    · have := hexDigitUpper_bounds (c.toNat % 16) (by omega); omega

/-! ## Splitting the link -/

/-- Splitting on `&` text that holds `&` only before each part recovers the parts. -/
theorem splitOn_append_flatMap (sep : UInt8) :
    ∀ (h : List UInt8) (ps : List (List UInt8)), sep ∉ h → (∀ p ∈ ps, sep ∉ p) →
      (h ++ ps.flatMap (sep :: ·)).splitOn sep = h :: ps
  | h, [], hh, _ => by
    rw [List.flatMap_nil, List.append_nil]
    exact List.splitOnP_eq_single (· == sep) h fun x hx hxs ↦ hh (by rwa [← beq_iff_eq.1 hxs])
  | h, p :: ps, hh, hps => by
    rw [List.flatMap_cons, List.cons_append, List.splitOn, List.splitOnP_first (· == sep) h
      (fun x hx hxs ↦ hh (by rwa [← beq_iff_eq.1 hxs])) sep (beq_self_eq_true sep)]
    exact congrArg (h :: ·) (splitOn_append_flatMap sep p ps (hps p (List.mem_cons_self _ _))
      fun q hq ↦ hps q (List.mem_cons_of_mem _ hq))

theorem magnetParam_paramText {k v : List UInt8} (hk : (0x3D : UInt8) ∉ k) :
    magnetParam (paramText (k, v)) = some (k, percentDecode (tr_http_escape v)) := by
  have hk' : ∀ a ∈ k, (a != 0x3D) = true := fun a ha ↦ bne_iff_ne.2 fun h ↦ hk (h ▸ ha)
  simp only [magnetParam, paramText, List.dropWhile_append_of_pos hk', List.takeWhile_append_of_pos hk',
    List.dropWhile_cons, List.takeWhile_cons, bne_self_eq_false, Bool.false_eq_true, ↓reduceIte,
    List.append_nil]

theorem cstr_cstr (s : List UInt8) : cstr (cstr s) = cstr s :=
  List.takeWhile_idem

theorem mapM_magnetParam (ps : List (List UInt8 × List UInt8))
    (hk : ∀ kv ∈ ps, (0x3D : UInt8) ∉ kv.1 ∧ cstr kv.2 = kv.2) :
    (ps.map paramText).mapM magnetParam = some ps := by
  induction ps with
  | nil => rfl
  | cons kv ps ih =>
    obtain ⟨hk₁, hk₂⟩ := hk kv (List.mem_cons_self _ _)
    rw [List.map_cons, List.mapM_cons, magnetParam_paramText hk₁,
      ih fun kv' h ↦ hk kv' (List.mem_cons_of_mem _ h), ← List.append_nil (tr_http_escape kv.2),
      percentDecode_tr_http_escape, hk₂, percentDecode, List.append_nil]
    rfl

/-- The printed parameters have keys `dn`, `tr` and `ws`, and C strings as values. -/
theorem LinkInfo.params_key (inf : LinkInfo) : ∀ kv ∈ inf.params,
    (kv.1 = ascii "dn" ∨ kv.1 = ascii "tr" ∨ kv.1 = ascii "ws") ∧ cstr kv.2 = kv.2 := by
  intro kv hkv
  simp only [LinkInfo.params, List.mem_append, List.mem_map] at hkv
  rcases hkv with (h | ⟨t, -, rfl⟩) | ⟨w, -, rfl⟩
  · split_ifs at h
    · simp at h
    · rw [List.mem_singleton.1 h]; exact ⟨.inl rfl, cstr_cstr _⟩
  · exact ⟨.inr (.inl rfl), cstr_cstr _⟩
  · exact ⟨.inr (.inr rfl), cstr_cstr _⟩

theorem hashString_ne (inf : LinkInfo) {b : UInt8} (hb : b ∈ inf.hashString) :
    b.toNat ≠ 0 ∧ b.toNat ≠ 0x26 ∧ 0x21 ≤ b.toNat ∧ b.toNat ≤ 0x7E := by
  have h := inf.hashString_hex b hb
  simp only [isLowerHex, Bool.or_eq_true, Bool.and_eq_true, decide_eq_true_eq] at h
  omega

theorem cstr_hashString (inf : LinkInfo) : cstr inf.hashString = inf.hashString :=
  List.takeWhile_eq_self_iff.2 fun _ hb ↦ bne_iff_ne.2 (ne_of_toNat_ne (hashString_ne inf hb).1)

/-- The link is the prefix, the hash, and each printed parameter after a `&`. -/
theorem tr_torrentInfoGetMagnetLink_eq (inf : LinkInfo) :
    tr_torrentInfoGetMagnetLink inf = ascii "magnet:?xt=urn:btih:" ++
      (inf.hashString ++ (inf.params.map paramText).flatMap (0x26 :: ·)) := by
  have hesc : ∀ s, tr_http_escape (cstr s) = tr_http_escape s := fun s ↦ by
    rw [tr_http_escape, cstr_cstr]; rfl
  have hdn : ascii "&dn=" = 0x26 :: (ascii "dn" ++ [0x3D]) := by decide
  have htr : ascii "&tr=" = 0x26 :: (ascii "tr" ++ [0x3D]) := by decide
  have hws : ascii "&ws=" = 0x26 :: (ascii "ws" ++ [0x3D]) := by decide
  simp only [tr_torrentInfoGetMagnetLink, cstr_hashString, LinkInfo.params, List.map_append,
    List.flatMap_append, List.map_map, List.flatMap_map, List.append_assoc, hdn, htr, hws]
  split_ifs <;> simp [paramText, hesc]

/-- **The magnet link reads back.**  For every torrent, the link `tr_torrentInfoGetMagnetLink`
prints reads back as its infohash and the parameters `dn` (the name, unless it is empty), `tr`
(the announce URL of each tracker, in order) and `ws` (each web seed, in order), each value the C
string it was printed from; and every byte of the link is printable ASCII other than the space. -/
theorem magnetParams_tr_torrentInfoGetMagnetLink (inf : LinkInfo) :
    magnetParams (tr_torrentInfoGetMagnetLink inf) = some (inf.hashString, inf.params) ∧
    ∀ b ∈ tr_torrentInfoGetMagnetLink inf, 0x21 ≤ b.toNat ∧ b.toNat ≤ 0x7E := by
  have hkeys := inf.params_key
  have hkey : ∀ kv ∈ inf.params, (∀ b ∈ kv.1, 0x21 ≤ b.toNat ∧ b.toNat ≤ 0x7E) ∧
      (0x26 : UInt8) ∉ kv.1 ∧ (0x3D : UInt8) ∉ kv.1 := by
    intro kv hkv
    rcases (hkeys kv hkv).1 with h | h | h <;> rw [h] <;> decide
  have htext : ∀ p ∈ inf.params.map paramText, (0x26 : UInt8) ∉ p := by
    simp only [List.mem_map]
    rintro _ ⟨kv, hkv, rfl⟩ h
    rcases List.mem_append.1 h with h | h
    · exact (hkey kv hkv).2.1 h
    · rcases List.mem_cons.1 h with h | h
      · exact absurd h (by decide)
      · exact (tr_http_escape_ne h).1 rfl
  rw [tr_torrentInfoGetMagnetLink_eq]
  refine ⟨?_, fun b hb ↦ ?_⟩
  · rw [magnetParams, List.dropPrefix?_append_of_beq _ (beq_self_eq_true _)]
    dsimp only
    rw [splitOn_append_flatMap _ _ _
      (fun h : (0x26 : UInt8) ∈ inf.hashString ↦ (hashString_ne inf h).2.1 rfl) htext]
    dsimp only
    rw [mapM_magnetParam _ fun kv h ↦ ⟨(hkey kv h).2.2, (hkeys kv h).2⟩]
    rfl
  · simp only [List.mem_append, List.mem_flatMap, List.mem_cons, List.mem_map] at hb
    rcases hb with hb | hb | ⟨_, ⟨kv, hkv, rfl⟩, rfl | hb⟩
    · revert b; decide
    · exact (hashString_ne inf hb).2.2
    · decide
    · simp only [paramText, List.mem_append, List.mem_cons] at hb
      rcases hb with hb | rfl | hb
      · exact (hkey kv hkv).1 b hb
      · decide
      · exact (tr_http_escape_ne hb).2.2

/-- The link of the spec's scenario S6. -/
example : tr_torrentInfoGetMagnetLink
    ⟨ascii "aaaaaaaaaaaaaaaaaaaaaaaaaaaaaaaaaaaaaaaa", by decide, some (ascii "hello world"),
      [⟨ascii "http://t/a"⟩], []⟩ =
    ascii ("magnet:?xt=urn:btih:aaaaaaaaaaaaaaaaaaaaaaaaaaaaaaaaaaaaaaaa" ++
      "&dn=hello%20world&tr=http%3A%2F%2Ft%2Fa") := by
  decide

end Transmission
