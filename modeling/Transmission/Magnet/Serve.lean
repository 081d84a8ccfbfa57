import Mathlib.Algebra.Group.Int
import Transmission.Magnet.Run

/-!
# Serving metadata to peers

A torrent that has its metadata serves it to peers in `METADATA_PIECE_SIZE` pieces:
`tr_torrentGetMetadataPiece` reads piece `piece` of the info dictionary from the torrent's
`.torrent` file, at the dictionary's offset in that file plus `piece * METADATA_PIECE_SIZE`.  The
piece index comes from the peer, and the code only asserts that it is not negative.

The offset is computed in `int`, `piece * METADATA_PIECE_SIZE`, and then converted to `size_t`.
For `piece ≥ 2^17` the product leaves the range of an `int`; the model takes the machine's
wrap-around modulo `2^32` (`toInt32`), and the conversion to `size_t` modulo `2^64`
(`toSizeT`).  What follows:

* `tr_torrentGetMetadataPiece_of_lt`: below `2^17` the code does what it means to — it serves a
  piece only if it starts inside the info dictionary, with the length of the rest of the
  dictionary capped at `METADATA_PIECE_SIZE`, read at the dictionary's offset plus the piece's;
* `tr_torrentGetMetadataPiece_wraps`: the index is read modulo `2^18`, so every index
  `piece + k * 2^18` is served the slice of `piece`; `2^18`, far outside any info dictionary, is
  served piece `0`.

The offset of the info dictionary in the file is the one `ensureInfoDictOffsetIsCached` caches,
which `findInfoDictOffset` finds with the bencode parser and printer; it is a parameter here.
-/

set_option autoImplicit false

namespace Transmission

/-- The value an `int` computation leaves: `x` modulo `2^32`, read as two's complement. -/
def toInt32 (x : ℤ) : ℤ :=
  (x + 2 ^ 31) % 2 ^ 32 - 2 ^ 31

/-- The conversion of an `int` to `size_t`: its value modulo `2^64`. -/
def toSizeT (x : ℤ) : ℕ :=
  (x % 2 ^ 64).toNat

/-- `o`, the offset of piece `piece` in the info dictionary: `piece * METADATA_PIECE_SIZE` in
`int`, converted to `size_t`. -/
def metadataPieceOffset (piece : ℤ) : ℕ :=
  toSizeT (toInt32 (piece * METADATA_PIECE_SIZE))

/-- `l`, the length of the piece at offset `o` as the code computes it in `size_t`: a whole
`METADATA_PIECE_SIZE` when that fits in the info dictionary, the rest of it otherwise. -/
def metadataPieceLength (infoDictLength o : ℕ) : ℕ :=
  if (o + METADATA_PIECE_SIZE.toNat) % 2 ^ 64 ≤ infoDictLength then METADATA_PIECE_SIZE.toNat
  else (infoDictLength + 2 ^ 64 - o) % 2 ^ 64

/-- `tr_torrentGetMetadataPiece(tor, piece, &len)`: the buffer it returns, whose length it stores
in `*len`, or `none` for `nullptr`.  `infoDictOffset` is `tor->infoDictOffset` once
`ensureInfoDictOffsetIsCached` has run.  `tr_sys_file_seek` hands the `size_t` offset to `lseek` as
an `int64_t`, which fails for a negative offset and not past the end of the file;
`tr_sys_file_read` reads what is left of the file, at most `l` bytes, and the code keeps the
buffer only when it got all `l`. -/
def tr_torrentGetMetadataPiece (tor : Torrent) (infoDictOffset : ℕ) (piece : ℤ) :
    Option (List UInt8) :=
  if !tr_torrentHasMetadata tor then none
  else match tor.files tor.info.torrent with
    | none => none
    | some file =>
      let o := metadataPieceOffset piece
      let pos := (infoDictOffset + o) % 2 ^ 64
      if 2 ^ 63 ≤ pos then none
      else
        let l := metadataPieceLength tor.infoDictLength o
        if 0 < l ∧ l ≤ METADATA_PIECE_SIZE.toNat then
          let buf := (file.drop pos).take l
          if buf.length = l then some buf else none
        else none

/-- **What a served piece is.**  A buffer is returned exactly when the torrent has metadata and its
`.torrent` file, the seek offset fits an `int64_t`, `l` is in `(0, METADATA_PIECE_SIZE]`, and the
file has `l` bytes from the offset on; the buffer is those bytes. -/
theorem tr_torrentGetMetadataPiece_eq_some {tor : Torrent} {infoDictOffset : ℕ} {piece : ℤ}
    {buf : List UInt8} :
    tr_torrentGetMetadataPiece tor infoDictOffset piece = some buf ↔
      tr_torrentHasMetadata tor ∧ ∃ file, tor.files tor.info.torrent = some file ∧
        (infoDictOffset + metadataPieceOffset piece) % 2 ^ 64 < 2 ^ 63 ∧
        0 < metadataPieceLength tor.infoDictLength (metadataPieceOffset piece) ∧
        metadataPieceLength tor.infoDictLength (metadataPieceOffset piece) ≤
          METADATA_PIECE_SIZE.toNat ∧
        buf.length = metadataPieceLength tor.infoDictLength (metadataPieceOffset piece) ∧
        buf = (file.drop ((infoDictOffset + metadataPieceOffset piece) % 2 ^ 64)).take
          buf.length := by
  unfold tr_torrentGetMetadataPiece
  cases hm : tr_torrentHasMetadata tor
  · simp
  rcases hf : tor.files tor.info.torrent with _ | file
  · simp
  simp only [Bool.not_true, Bool.false_eq_true, if_false, true_and, Option.some.injEq,
    exists_eq_left']
  split_ifs with h₁ h₂ h₃
  · simp; omega
  · constructor
    · intro h
      obtain rfl := Option.some.inj h
      exact ⟨by omega, h₂.1, h₂.2, h₃, by rw [h₃]⟩
    · rintro ⟨-, -, -, hl, hb⟩; rw [hb, hl]
  · simp only [reduceCtorEq, false_iff]
    rintro ⟨-, -, -, hl, hb⟩
    exact h₃ (by rw [hb, List.length_take] at hl; rw [List.length_take]; omega)
  · simp only [reduceCtorEq, false_iff]
    rintro ⟨-, h0, hle, -⟩
    exact h₂ ⟨h0, hle⟩

/-- The `int` product depends on the index modulo `2^18` only. -/
theorem metadataPieceOffset_add (piece k : ℤ) :
    metadataPieceOffset (piece + k * 2 ^ 18) = metadataPieceOffset piece := by
  unfold metadataPieceOffset toSizeT toInt32 METADATA_PIECE_SIZE
  congr 2
  omega

/-- Below `2^17` the product fits in an `int` and converts to `size_t` unchanged. -/
theorem metadataPieceOffset_of_lt {piece : ℤ} (h0 : 0 ≤ piece) (h : piece < 2 ^ 17) :
    metadataPieceOffset piece = (piece * METADATA_PIECE_SIZE).toNat := by
  unfold metadataPieceOffset toSizeT toInt32 METADATA_PIECE_SIZE
  omega

/-- **What the code means to do, below `2^17`.**  For every torrent, every offset of the info
dictionary that fits an `int64_t` and every index `0 ≤ piece < 2^17`, a buffer is returned only if
the piece starts inside the info dictionary, and it is then the `min(METADATA_PIECE_SIZE,
infoDictLength - piece * METADATA_PIECE_SIZE)` bytes of the `.torrent` file at
`infoDictOffset + piece * METADATA_PIECE_SIZE`. -/
theorem tr_torrentGetMetadataPiece_of_lt {tor : Torrent} {infoDictOffset : ℕ}
    (hoff : infoDictOffset < 2 ^ 63) {piece : ℤ} (h0 : 0 ≤ piece) (h : piece < 2 ^ 17)
    {buf : List UInt8} (hbuf : tr_torrentGetMetadataPiece tor infoDictOffset piece = some buf) :
    piece * METADATA_PIECE_SIZE < tor.infoDictLength ∧
      (buf.length : ℤ) = min METADATA_PIECE_SIZE (tor.infoDictLength - piece * METADATA_PIECE_SIZE) ∧
      ∃ file, tor.files tor.info.torrent = some file ∧
        buf = (file.drop (infoDictOffset + (piece * METADATA_PIECE_SIZE).toNat)).take buf.length := by
  obtain ⟨-, file, hfile, -, hl0, hl, hlen, hb⟩ := tr_torrentGetMetadataPiece_eq_some.1 hbuf
  rw [metadataPieceOffset_of_lt h0 h] at hl0 hl hlen hb
  have hp : 0 ≤ piece * METADATA_PIECE_SIZE ∧ piece * METADATA_PIECE_SIZE < 2 ^ 31 := by
    unfold METADATA_PIECE_SIZE; omega
  rw [Nat.mod_eq_of_lt (by omega)] at hb
  unfold metadataPieceLength at hl0 hl hlen
  refine ⟨?_, ?_, file, hfile, hb⟩ <;> split_ifs at hl0 hl hlen <;>
    unfold METADATA_PIECE_SIZE at * <;> omega

/-- A torrent with metadata whose `.torrent` file is the one byte `7`, which is also its info
dictionary. -/
def oneByteServer : Torrent :=
  { magnetTorrent [] "a.torrent" [7] with
    info := ⟨[], "a.torrent", [⟨1, 0, false, "f"⟩], 1, 1, 1⟩
    infoDictLength := 1 }

/-- Piece `0` of the one-byte dictionary. -/
theorem tr_torrentGetMetadataPiece_of_lt_zero :
    (0 : ℕ) < 2 ^ 63 ∧ (0 : ℤ) ≤ 0 ∧ (0 : ℤ) < 2 ^ 17 ∧
    tr_torrentGetMetadataPiece oneByteServer 0 0 = some [7] ∧
    0 * METADATA_PIECE_SIZE < oneByteServer.infoDictLength ∧
    (([7] : List UInt8).length : ℤ) =
      min METADATA_PIECE_SIZE (oneByteServer.infoDictLength - 0 * METADATA_PIECE_SIZE) ∧
    ∃ file, oneByteServer.files oneByteServer.info.torrent = some file ∧
      [7] = (file.drop (0 + (0 * METADATA_PIECE_SIZE).toNat)).take [7].length :=
  ⟨by decide, Int.le_refl 0, by decide, by decide,
    tr_torrentGetMetadataPiece_of_lt (by decide) (Int.le_refl 0) (by decide) (by decide)⟩

/-- **An index is served the slice of the index `2^18` below it.**  For every torrent, every
offset of the info dictionary and all `piece` and `k`, the index `piece + k * 2^18` gets what
`piece` gets; the index `2^18`, whose piece would start `2^32` bytes into the one-byte info
dictionary, is served its byte `7`. -/
theorem tr_torrentGetMetadataPiece_wraps :
    (∀ (tor : Torrent) (infoDictOffset : ℕ) (piece k : ℤ),
      tr_torrentGetMetadataPiece tor infoDictOffset (piece + k * 2 ^ 18) =
        tr_torrentGetMetadataPiece tor infoDictOffset piece) ∧
    oneByteServer.infoDictLength ≤ 2 ^ 18 * METADATA_PIECE_SIZE ∧
    tr_torrentGetMetadataPiece oneByteServer 0 (2 ^ 18) = some [7] := by
  refine ⟨fun tor infoDictOffset piece k ↦ ?_, by decide, ?_⟩
  · simp only [tr_torrentGetMetadataPiece, metadataPieceOffset_add]
  · have := metadataPieceOffset_add 0 1
    simp only [Int.zero_add, Int.one_mul] at this
    simp only [tr_torrentGetMetadataPiece, this]
    decide

end Transmission
