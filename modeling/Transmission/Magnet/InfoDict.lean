import Transmission.Json.Text
import Transmission.Magnet.Exchange

/-!
# Where a seeder finds its info dictionary

`tr_torrentGetMetadataPiece` reads the info dictionary from the torrent's `.torrent` file at the
offset `tor->infoDictOffset`, which `ensureInfoDictOffsetIsCached` computes on the first call and
keeps: `findInfoDictOffset` loads the file, parses it, prints its `info` dictionary back to
bencode and looks for that text in the file with `tr_memmem`, falling back to `0` whenever one of
these steps fails.

## What is here

* `tr_memmem` (of `utils.c`, not under `src/`, modelled from the spec): the least offset at
  which the needle occurs (`tr_memmem_some`), found whenever the needle occurs at all
  (`tr_memmem_isSome`).
* `findInfoDictOffset_eq`: when the file parses and the bencoding of its info dictionary occurs
  in it, the offset is its first occurrence, and the torrent is a `Seeder` of that bencoding
  (`Seeder.of_findInfoDictOffset`); `findInfoDictOffset_of_not_found`: when the bencoding does not
  occur in the file, the offset is `0`.
* `serveMetadataPieces_eq`: the cache is transparent: a seeder serving any sequence of requests
  through the cache answers each one as it would at the offset `findInfoDictOffset` gives.
* **`metadata_fetch_from_seeder`**: a magnet link fetching from such a seeder installs the
  bencoding of the seeder's info dictionary; **`metadata_fetch_file_start`**: when that bencoding
  is not in the seeder's file, it installs the file's first bytes instead.
-/

set_option autoImplicit false

namespace Transmission

/-! ## The search -/

/-- Modelled from the spec: `tr_memmem(haystack, haystackLen, needle, needleLen)` (of `utils.c`,
not under `src/`), with which `findInfoDictOffset` locates the info dictionary's "first occurrence
as a substring in the original bytes": the offset of the first occurrence of `needle` in
`haystack`, or `none` for `nullptr`. -/
def tr_memmem (haystack needle : List UInt8) : Option ℕ :=
  if needle.isPrefixOf haystack then some 0
  else match haystack with
    | [] => none
    | _ :: rest => (tr_memmem rest needle).map (· + 1)

/-- `tr_memmem` finds the least offset at which the needle starts. -/
theorem tr_memmem_some {needle : List UInt8} :
    ∀ {haystack : List UInt8} {i : ℕ}, tr_memmem haystack needle = some i →
      needle <+: haystack.drop i ∧ ∀ j < i, ¬ needle <+: haystack.drop j
  | haystack, i, h => by
    unfold tr_memmem at h
    split_ifs at h with hp
    · obtain rfl := Option.some.inj h.symm
      exact ⟨List.isPrefixOf_iff_prefix.1 hp, fun j hj ↦ absurd hj (Nat.not_lt_zero j)⟩
    · rw [List.isPrefixOf_iff_prefix] at hp
      match haystack, h with
      | _ :: rest, h =>
        obtain ⟨i', hi', rfl⟩ := Option.map_eq_some'.1 h
        obtain ⟨hpre, hmin⟩ := tr_memmem_some hi'
        refine ⟨hpre, fun j hj ↦ ?_⟩
        cases j with
        | zero => exact hp
        | succ j => exact hmin j (by omega)

/-- `tr_memmem` finds a needle that occurs. -/
theorem tr_memmem_isSome {needle : List UInt8} :
    ∀ {haystack : List UInt8}, needle <:+: haystack → ∃ i, tr_memmem haystack needle = some i
  | haystack, h => by
    unfold tr_memmem
    split_ifs with hp
    · exact ⟨0, rfl⟩
    · rw [List.isPrefixOf_iff_prefix] at hp
      match haystack, h with
      | [], h => exact absurd (List.infix_nil.1 h ▸ List.nil_prefix) hp
      | _ :: rest, h =>
        obtain ⟨i, hi⟩ := tr_memmem_isSome ((List.infix_cons_iff.1 h).resolve_left hp)
        exact ⟨i + 1, by simp [hi]⟩

/-! ## The offset -/

/-- `TR_KEY_info`. -/
def TR_KEY_info : Quark :=
  ascii "info"

/-- Modelled from the spec: `tr_variantDictFindDict(dict, key, &setme)` (of `variant.c`, not under
`src/`): the value of the first entry of `dict` under `key`, if it is a dictionary. -/
def tr_variantDictFindDict (dict : Variant) (key : Quark) : Option Variant :=
  match dict with
  | .dict d =>
    match d.lookup key with
    | some (.dict e) => some (.dict e)
    | _ => none
  | _ => none

/-- `findInfoDictOffset(tor)`: load the `.torrent` file, parse it, print its info dictionary back
to bencode and look for that text in the file; `0` when any of these fails. -/
def findInfoDictOffset (env : MagnetEnv) (tor : Torrent) : ℕ :=
  match tor.files tor.info.torrent with
  | none => 0
  | some fileContents =>
    match env.variantFromBenc fileContents with
    | none => 0
    | some top =>
      match tr_variantDictFindDict top TR_KEY_info with
      | none => 0
      | some infoDict => (tr_memmem fileContents (env.variantToBenc infoDict)).getD 0

/-- `tor->infoDictOffsetIsCached` and `tor->infoDictOffset`. -/
structure InfoDictOffsetCache where
  infoDictOffsetIsCached : Bool
  infoDictOffset : ℕ
  deriving DecidableEq, Repr

/-- `ensureInfoDictOffsetIsCached(tor)`. -/
def ensureInfoDictOffsetIsCached (env : MagnetEnv) (tor : Torrent) (c : InfoDictOffsetCache) :
    InfoDictOffsetCache :=
  if c.infoDictOffsetIsCached then c else ⟨true, findInfoDictOffset env tor⟩

/-- `tr_torrentGetMetadataPiece(tor, piece, &len)` with the call of
`ensureInfoDictOffsetIsCached` it makes once it knows the torrent has metadata: the cache after
the call, and the buffer. -/
def getMetadataPieceCached (env : MagnetEnv) (tor : Torrent) (c : InfoDictOffsetCache)
    (piece : ℤ) : InfoDictOffsetCache × Option (List UInt8) :=
  if tr_torrentHasMetadata tor then
    let c' := ensureInfoDictOffsetIsCached env tor c
    (c', tr_torrentGetMetadataPiece tor c'.infoDictOffset piece)
  else (c, none)

/-- The answers of a seeder to a sequence of requests, its cache carried from one to the next. -/
def serveMetadataPieces (env : MagnetEnv) (tor : Torrent) :
    InfoDictOffsetCache → List ℤ → List (Option (List UInt8))
  | _, [] => []
  | c, p :: ps =>
    (getMetadataPieceCached env tor c p).2 ::
      serveMetadataPieces env tor (getMetadataPieceCached env tor c p).1 ps

section Offset

variable {env : MagnetEnv} {src : Torrent} {file : List UInt8} {top infoDict : Variant}
  (hfile : src.files src.info.torrent = some file)
  (htop : env.variantFromBenc file = some top)
  (hinfo : tr_variantDictFindDict top TR_KEY_info = some infoDict)
include hfile htop hinfo

/-- Once the info dictionary is found, the offset is where `tr_memmem` finds its bencoding. -/
theorem findInfoDictOffset_eq :
    findInfoDictOffset env src = (tr_memmem file (env.variantToBenc infoDict)).getD 0 := by
  rw [findInfoDictOffset, hfile]
  simp only [htop, hinfo]

/-- When the bencoding of the info dictionary does not occur in the file, the offset is `0`. -/
theorem findInfoDictOffset_of_not_found (hnot : ¬ env.variantToBenc infoDict <:+: file) :
    findInfoDictOffset env src = 0 := by
  rw [findInfoDictOffset_eq hfile htop hinfo]
  cases hm : tr_memmem file (env.variantToBenc infoDict) with
  | none => rfl
  | some i =>
    exact absurd ((tr_memmem_some hm).1.isInfix.trans (List.drop_suffix i file).isInfix) hnot

/-- **A torrent whose file holds the bencoding of its info dictionary is a seeder of it**, at
the offset `findInfoDictOffset` gives, the first occurrence of that text. -/
theorem Seeder.of_findInfoDictOffset (hmeta : tr_torrentHasMetadata src = true)
    (hocc : env.variantToBenc infoDict <:+: file)
    (hlen : src.infoDictLength = (env.variantToBenc infoDict).length)
    (hpos : 0 < src.infoDictLength) (hmax : (src.infoDictLength : ℤ) ≤ INT_MAX)
    (hsize : file.length < 2 ^ 63) :
    Seeder src (findInfoDictOffset env src) file ∧
      (file.drop (findInfoDictOffset env src)).take src.infoDictLength =
        env.variantToBenc infoDict ∧
      ∀ j < findInfoDictOffset env src, ¬ env.variantToBenc infoDict <+: file.drop j := by
  obtain ⟨i, hi⟩ := tr_memmem_isSome hocc
  obtain ⟨hpre, hmin⟩ := tr_memmem_some hi
  have hle := hpre.length_le
  rw [List.length_drop] at hle
  rw [findInfoDictOffset_eq hfile htop hinfo, hi, Option.getD_some]
  exact ⟨⟨hmeta, hfile, hpos, hmax, by omega, by omega⟩,
    by rw [hlen]; exact (List.prefix_iff_eq_take.1 hpre).symm, hmin⟩

end Offset

/-! ## The cache -/

/-- The cache is right: once it holds an offset, that is the one `findInfoDictOffset` gives. -/
def InfoDictOffsetCache.Ok (env : MagnetEnv) (tor : Torrent) (c : InfoDictOffsetCache) : Prop :=
  c.infoDictOffsetIsCached = true → c.infoDictOffset = findInfoDictOffset env tor

/-- One request keeps the cache right, and is answered as at the offset `findInfoDictOffset`
gives. -/
theorem InfoDictOffsetCache.Ok.serve {env : MagnetEnv} {tor : Torrent}
    {c : InfoDictOffsetCache} (h : c.Ok env tor) (piece : ℤ) :
    (getMetadataPieceCached env tor c piece).1.Ok env tor ∧
      (getMetadataPieceCached env tor c piece).2 =
        tr_torrentGetMetadataPiece tor (findInfoDictOffset env tor) piece := by
  unfold getMetadataPieceCached
  split_ifs with hmeta
  · have hc : (ensureInfoDictOffsetIsCached env tor c).infoDictOffset = findInfoDictOffset env tor := by
      unfold ensureInfoDictOffsetIsCached; split_ifs with hcached
      exacts [h hcached, rfl]
    exact ⟨fun _ ↦ hc, by dsimp only; rw [hc]⟩
  · refine ⟨h, ?_⟩
    simp [tr_torrentGetMetadataPiece, hmeta]

/-- **The cache is transparent.**  From a right cache, every sequence of requests is answered as
at the offset `findInfoDictOffset` gives. -/
theorem serveMetadataPieces_eq {env : MagnetEnv} {tor : Torrent} :
    ∀ {c : InfoDictOffsetCache}, c.Ok env tor → ∀ ps : List ℤ,
      serveMetadataPieces env tor c ps =
        ps.map (tr_torrentGetMetadataPiece tor (findInfoDictOffset env tor))
  | _, _, [] => rfl
  | _, h, p :: ps => by
    obtain ⟨h₁, h₂⟩ := h.serve p
    rw [serveMetadataPieces, h₂, serveMetadataPieces_eq h₁ ps, List.map_cons]

/-! ## Fetching from the seeder -/

/-- **A magnet link fetches the seeder's info dictionary.**  Let a torrent with metadata have a
`.torrent` file that parses, with an info dictionary whose bencoding occurs in the file and is
`infoDictLength` bytes long.  Then, from a cold cache, the torrent answers every sequence of
requests as at the offset `findInfoDictOffset` gives; and a torrent with neither metadata nor
incomplete metadata that takes the size hint and `pieceCount` rounds of requests and of those
answers, at any clock readings past `MIN_REPEAT_INTERVAL_SECS`, ends in the installation of a
buffer that is that bencoding. -/
theorem metadata_fetch_from_seeder (env : MagnetEnv) {src tor₀ : Torrent} {file : List UInt8}
    {top infoDict : Variant} (hmeta : tr_torrentHasMetadata src = true)
    (hfile : src.files src.info.torrent = some file)
    (htop : env.variantFromBenc file = some top)
    (hinfo : tr_variantDictFindDict top TR_KEY_info = some infoDict)
    (hocc : env.variantToBenc infoDict <:+: file)
    (hlen : src.infoDictLength = (env.variantToBenc infoDict).length)
    (hpos : 0 < src.infoDictLength) (hmax : (src.infoDictLength : ℤ) ≤ INT_MAX)
    (hsize : file.length < 2 ^ 63)
    (h₀ : tor₀.incompleteMetadata = none) (hmeta₀ : tr_torrentHasMetadata tor₀ = false)
    (now : ℕ → ℤ) (hnow : ∀ i, MIN_REPEAT_INTERVAL_SECS < now i) :
    (∀ ps : List ℤ, serveMetadataPieces env src ⟨false, 0⟩ ps =
      ps.map (tr_torrentGetMetadataPiece src (findInfoDictOffset env src))) ∧
    ∃ m : IncompleteMetadata, m.bytes = env.variantToBenc infoDict ∧
      magnetRun env tor₀ (.sizeHint src.infoDictLength ::
        exchangeRounds src (findInfoDictOffset env src) now
          (metadataPieceCount src.infoDictLength).toNat) = finishMetadata env tor₀ m := by
  obtain ⟨hs, hdict, -⟩ :=
    Seeder.of_findInfoDictOffset hfile htop hinfo hmeta hocc hlen hpos hmax hsize
  obtain ⟨-, m, -, hbytes, hrun⟩ := exchange_rounds hs env h₀ hmeta₀ now hnow
  exact ⟨serveMetadataPieces_eq (fun h ↦ absurd h Bool.false_ne_true), m, hbytes.trans hdict, hrun⟩

/-- Collaborators whose bencode parser reads any text as a dictionary with an empty `info`
dictionary, and whose printer writes every value as the one byte `7`. -/
def sevenInfoEnv : MagnetEnv :=
  { literalEnv with
    variantFromBenc := fun _ ↦ some (.dict [(TR_KEY_info, .dict [])])
    variantToBenc := fun _ ↦ [7] }

/-- `oneByteServer`, its `.torrent` file the two bytes `1, 7`. -/
def twoByteServer : Torrent :=
  { oneByteServer with files := Files.write (fun _ ↦ none) "a.torrent" [1, 7] }

/-- The dictionary `7` found at offset `1` of the file `1, 7`, and fetched. -/
theorem metadata_fetch_from_seeder_twoByteServer :
    tr_torrentHasMetadata twoByteServer = true ∧
    twoByteServer.files twoByteServer.info.torrent = some [1, 7] ∧
    sevenInfoEnv.variantFromBenc [1, 7] = some (.dict [(TR_KEY_info, .dict [])]) ∧
    tr_variantDictFindDict (.dict [(TR_KEY_info, .dict [])]) TR_KEY_info = some (.dict []) ∧
    findInfoDictOffset sevenInfoEnv twoByteServer = 1 ∧
    ∃ m : IncompleteMetadata, m.bytes = [7] ∧
      magnetRun sevenInfoEnv (magnetTorrent [] "b.torrent" []) (.sizeHint 1 ::
        exchangeRounds twoByteServer 1 (fun _ ↦ 4) 1) =
        finishMetadata sevenInfoEnv (magnetTorrent [] "b.torrent" []) m := by
  have hoff : findInfoDictOffset sevenInfoEnv twoByteServer = 1 := by decide
  obtain ⟨-, m, hm, hrun⟩ := @metadata_fetch_from_seeder sevenInfoEnv twoByteServer
    (magnetTorrent [] "b.torrent" []) [1, 7] _ _ rfl rfl rfl rfl ⟨[1], [], rfl⟩ rfl (by decide)
    (by decide) (by decide) rfl rfl (fun _ ↦ 4) fun _ ↦ show MIN_REPEAT_INTERVAL_SECS < 4 by decide
  rw [hoff] at hrun
  exact ⟨rfl, rfl, rfl, rfl, hoff, m, hm, hrun⟩

/-- **A seeder whose file does not hold its info dictionary's bencoding serves the file's first
bytes.**  Let a torrent with metadata have a `.torrent` file that parses, with an info dictionary
whose bencoding, `infoDictLength` bytes long, does not occur in the file (a file not in canonical
bencode).  Then the offset `findInfoDictOffset` gives is `0`, and a torrent with neither metadata
nor incomplete metadata that takes the size hint and `pieceCount` rounds of requests and of the
seeder's answers ends in the installation of a buffer that holds the file's first
`infoDictLength` bytes, which is not that bencoding. -/
theorem metadata_fetch_file_start (env : MagnetEnv) {src tor₀ : Torrent} {file : List UInt8}
    {top infoDict : Variant} (hmeta : tr_torrentHasMetadata src = true)
    (hfile : src.files src.info.torrent = some file)
    (htop : env.variantFromBenc file = some top)
    (hinfo : tr_variantDictFindDict top TR_KEY_info = some infoDict)
    (hnot : ¬ env.variantToBenc infoDict <:+: file)
    (hlen : src.infoDictLength = (env.variantToBenc infoDict).length)
    (hpos : 0 < src.infoDictLength) (hmax : (src.infoDictLength : ℤ) ≤ INT_MAX)
    (hinside : src.infoDictLength ≤ file.length) (hsize : file.length < 2 ^ 63)
    (h₀ : tor₀.incompleteMetadata = none) (hmeta₀ : tr_torrentHasMetadata tor₀ = false)
    (now : ℕ → ℤ) (hnow : ∀ i, MIN_REPEAT_INTERVAL_SECS < now i) :
    findInfoDictOffset env src = 0 ∧
    ∃ m : IncompleteMetadata, m.bytes = file.take src.infoDictLength ∧
      m.bytes ≠ env.variantToBenc infoDict ∧
      magnetRun env tor₀ (.sizeHint src.infoDictLength ::
        exchangeRounds src 0 now (metadataPieceCount src.infoDictLength).toNat) =
        finishMetadata env tor₀ m := by
  have hs : Seeder src 0 file := ⟨hmeta, hfile, hpos, hmax, by omega, by omega⟩
  obtain ⟨-, m, -, hbytes, hrun⟩ := exchange_rounds hs env h₀ hmeta₀ now hnow
  rw [List.drop_zero] at hbytes
  refine ⟨findInfoDictOffset_of_not_found hfile htop hinfo hnot, m, hbytes, fun h ↦ hnot ?_, hrun⟩
  rw [← h, hbytes]
  exact (List.take_prefix _ _).isInfix

/-- The file `1, 2` does not hold the bencoding `7` of its info dictionary; its first byte is
served in its place. -/
theorem metadata_fetch_file_start_oneTwo :
    tr_torrentHasMetadata { twoByteServer with
      files := Files.write (fun _ ↦ none) "a.torrent" [1, 2] } = true ∧
    ¬ ([7] : List UInt8) <:+: [1, 2] ∧
    ∃ m : IncompleteMetadata, m.bytes = [1] ∧
      magnetRun sevenInfoEnv (magnetTorrent [] "b.torrent" []) (.sizeHint 1 ::
        exchangeRounds { twoByteServer with
          files := Files.write (fun _ ↦ none) "a.torrent" [1, 2] } 0 (fun _ ↦ 4) 1) =
        finishMetadata sevenInfoEnv (magnetTorrent [] "b.torrent" []) m := by
  have hnot : ¬ ([7] : List UInt8) <:+: [1, 2] := fun h ↦ by
    obtain ⟨i, hi⟩ := tr_memmem_isSome h
    exact Option.noConfusion ((show tr_memmem [1, 2] [7] = none from rfl).symm.trans hi)
  obtain ⟨-, m, hm, -, hrun⟩ := @metadata_fetch_file_start sevenInfoEnv
    { twoByteServer with files := Files.write (fun _ ↦ none) "a.torrent" [1, 2] }
    (magnetTorrent [] "b.torrent" []) [1, 2] _ _ rfl rfl rfl rfl hnot rfl (by decide) (by decide)
    (by decide) (by decide) rfl rfl (fun _ ↦ 4) fun _ ↦ show MIN_REPEAT_INTERVAL_SECS < 4 by decide
  exact ⟨rfl, hnot, m, hm, hrun⟩

end Transmission
