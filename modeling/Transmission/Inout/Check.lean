import Transmission.Inout.Concat
import Transmission.Inout.Verify

/-!
# Verifying what was written

`tr_ioTestPiece` reads a piece through the block cache, and the block cache reads through to the
piece I/O of `Transmission.Inout.Piece`.  This file puts the two halves of the I/O together: with
the cache holding no unflushed block, verifying a piece hashes exactly the bytes that the files
hold at the piece's place in the torrent, and so a piece that was just written is checked against
the SHA-1 of the data written, whatever was on disk before and however many files the piece
crosses.

The piece table has to agree with the file table for this to mean anything: `TrInfo.PiecesOk`
asks for `⌈totalSize / pieceSize⌉` pieces, and `TrInfo.PiecesOk.pieceBytes` shows that every
piece then lies inside the torrent, its `uint32_t` length from `tr_torPieceCountBytes` losing
nothing.

## Main results

* `runSpans_write_of_ok`: a write that returns `0` has made every call of its list;
* `readBlocks_eq_of_tile`: blocks that tile a range, each read giving its bytes, read as the
  range;
* `blockBytes_tr_cacheReadBlock`: the cache reads a block of a piece out of the torrent;
* `tr_ioTestPiece_torrentBytes`: verifying hashes the piece's bytes of the torrent, on every disk
  on which the files of the piece exist and reads do not fail;
* `tr_ioTestPiece_after_write`: after a `tr_ioWrite` of a whole piece that returns `0`, verifying
  the piece says whether the SHA-1 of the data written is the piece's digest.
-/

set_option autoImplicit false

namespace Transmission

/-- Modelled from the spec: `tr_cacheReadBlock` of `cache.cc` is not under `src/`.  The block
cache holding no unflushed block, which reads through to the piece I/O: `tr_ioRead` of the block
into the buffer, and the buffer when it returns `0`. -/
def tr_cacheReadBlock (info : TrInfo) (st : IoState) (piece offset len : ℕ) : Option (ℕ → UInt8) :=
  match tr_ioRead info piece offset len st with
  | some (st', 0) => some st'.buf
  | _ => none

/-- The file that holds byte `x` of the torrent, if any, is on disk. -/
def Disk.HasFileOf (info : TrInfo) (d : Disk) (x : ℕ) : Prop :=
  ∀ i k, locateByte info.files 0 x = some (i, k) → d.present i

/-- The piece table agrees with the file table: pieces of `pieceSize` bytes, fewer than `2^32`,
and `pieceCount = ⌈totalSize / pieceSize⌉` of them. -/
structure TrInfo.PiecesOk (info : TrInfo) : Prop where
  pieceSize_pos : 0 < info.pieceSize
  pieceSize_lt : info.pieceSize < 2 ^ 32
  /-- The pieces hold every byte of the torrent, ... -/
  total_le : info.totalSize ≤ info.pieceCount * info.pieceSize
  /-- ... and the last of them holds one at least. -/
  lt_total : info.pieceCount * info.pieceSize < info.totalSize + info.pieceSize

theorem TrInfo.tr_pieceOffset_eq (info : TrInfo) (index offset length : ℕ) :
    info.tr_pieceOffset index offset length = info.tr_pieceOffset index 0 (offset + length) := by
  simp only [TrInfo.tr_pieceOffset]; omega

/-- **Every piece lies inside the torrent.**  A piece of a well-formed table is not empty, and
its `tr_torPieceCountBytes` bytes from its start end inside the torrent. -/
theorem TrInfo.PiecesOk.pieceBytes {info : TrInfo} (h : info.PiecesOk) {p : ℕ}
    (hp : p < info.pieceCount) :
    0 < tr_torPieceCountBytes info p ∧
      info.tr_pieceOffset p 0 (tr_torPieceCountBytes info p) ≤ info.totalSize := by
  have h1 := h.total_le; have h2 := h.lt_total; have h3 := h.pieceSize_lt
  unfold tr_torPieceCountBytes TrInfo.tr_pieceOffset
  rw [Nat.mul_comm info.pieceSize p]
  split_ifs with hlast
  · have hc : info.pieceCount * info.pieceSize = p * info.pieceSize + info.pieceSize := by
      rw [← hlast, Nat.succ_mul]
    rw [Nat.mod_eq_of_lt (by omega)]
    omega
  · have hle : (p + 1) * info.pieceSize + info.pieceSize ≤ info.pieceCount * info.pieceSize := by
      rw [← Nat.succ_mul]; exact Nat.mul_le_mul_right _ (by omega)
    rw [Nat.mod_eq_of_lt h3]
    rw [Nat.succ_mul] at hle
    omega

/-! ## A write that succeeds -/

/-- A write call that returns `0` has written its bytes, unless its file is empty. -/
theorem readOrWriteBytes_write_ok {fileIndex : ℕ} {file : TrFile} {fileOffset bufPos n : ℕ}
    {st : IoState} (h : (readOrWriteBytes .write fileIndex file fileOffset bufPos n st).2 = 0) :
    readOrWriteBytes .write fileIndex file fileOffset bufPos n st =
      (if file.length = 0 then st
        else { st with disk := st.disk.writeAt fileIndex fileOffset n fun j ↦ st.buf (bufPos + j) },
        0) := by
  unfold readOrWriteBytes at h ⊢
  split_ifs at h ⊢ <;> simp_all [IoMode.doWrite]

/-- **A write that returns `0` has made every call of its list**, whatever the system does with
the files it does not touch. -/
theorem runSpans_write_of_ok : ∀ (l : List FileSpan) (st : IoState),
    (runSpans .write l st).2 = 0 →
      (runSpans .write l st).1 = { st with disk := writeSpans st.buf l st.disk }
  | [], _, _ => rfl
  | s :: ss, st, h => by
    simp only [runSpans] at h ⊢
    have h0 : (readOrWriteBytes .write s.fileIndex s.file s.fileOffset s.bufPos s.length st).2 = 0 := by
      by_contra hne
      rw [if_neg hne] at h
      exact hne h
    rw [readOrWriteBytes_write_ok h0] at h ⊢
    simp only [markWriteError_zero, if_true] at h ⊢
    rw [runSpans_write_of_ok ss _ h]
    split <;> simp [writeSpans, *]

/-- Every call of a list serving a range that moves a byte starts, in its file, at a byte of the
range. -/
theorem Serves.locate {info : TrInfo} {t : ℕ} (hc : Contiguous 0 info.files t) :
    ∀ {l : List FileSpan} {g pos len : ℕ}, Serves info l g pos len → ∀ s ∈ l, 0 < s.length →
      ∃ x, g ≤ x ∧ x < g + len ∧ locateByte info.files 0 x = some (s.fileIndex, s.fileOffset)
  | [], _, _, _, _, _, hs, _ => absurd hs (List.not_mem_nil _)
  | s :: ss, g, pos, len, h, s', hs', hlen => by
    obtain ⟨hok, hle, hss⟩ := serves_cons.1 h
    rcases List.mem_cons.1 hs' with rfl | hs'
    · exact ⟨g, le_rfl, by omega, by simpa using locateByte_of_spanOk hc hok le_rfl (by omega)⟩
    · obtain ⟨x, h1, h2, hx⟩ := Serves.locate hc hss s' hs' hlen
      exact ⟨x, by omega, by omega, hx⟩

/-- After the write calls of a list serving a range, the file of every byte of the range is on
disk. -/
theorem writeSpans_hasFileOf {info : TrInfo} {t : ℕ} (hc : Contiguous 0 info.files t)
    (buf : ℕ → UInt8) : ∀ {l : List FileSpan} {g pos len : ℕ} (d : Disk),
      Serves info l g pos len → ∀ x, g ≤ x → x < g + len → (writeSpans buf l d).HasFileOf info x
  | [], _, _, _, _, hs, x, h1, h2 => by simp only [serves_nil] at hs; omega
  | s :: ss, g, pos, len, d, hs, x, h1, h2 => by
    obtain ⟨hok, hle, hss⟩ := serves_cons.1 hs
    by_cases hx : x < g + s.length
    · intro i k hik
      rw [locateByte_of_spanOk hc hok h1 hx] at hik
      obtain ⟨rfl, -⟩ := Prod.mk.inj (Option.some.inj hik)
      exact writeSpans_present buf (s :: ss) d s (List.mem_cons_self _ _)
        (by have := hok.end_le; omega)
    · rw [writeSpans]
      exact writeSpans_hasFileOf hc buf _ hss x (by omega) (by omega)

/-! ## Reading the blocks back -/

theorem BlocksTile.le : ∀ {o : ℕ} {bs : List (ℕ × ℕ)} {t : ℕ}, BlocksTile o bs t → o ≤ t
  | _, [], _, h => le_of_eq h.symm
  | _, _ :: _, _, ⟨_, h⟩ => Nat.le_of_add_right_le (BlocksTile.le h)

/-- Blocks that tile `[o, t)`, each of which reads as its bytes of `T`, read as `[o, t)` of `T`. -/
theorem readBlocks_eq_of_tile (read : ℕ → ℕ → Option (List UInt8)) (T : ℕ → UInt8) :
    ∀ {o : ℕ} {bs : List (ℕ × ℕ)} {t : ℕ}, BlocksTile o bs t →
      (∀ b ∈ bs, read b.1 b.2 = some ((List.range b.2).map fun k ↦ T (b.1 + k))) →
      (readBlocks read bs).2 = some ((List.range (t - o)).map fun k ↦ T (o + k))
  | o, [], t, h, _ => by simp only [BlocksTile] at h; subst h; simp [readBlocks]
  | o, b :: bs, t, ⟨hb, h⟩, hr => by
    have hle := BlocksTile.le h
    simp only [readBlocks, hr b (List.mem_cons_self _ _), readBlocks_eq_of_tile read T h
      fun b' hb' ↦ hr b' (List.mem_cons_of_mem _ hb'), Option.map_some']
    rw [show t - o = b.2 + (t - (o + b.2)) by omega, List.range_add, List.map_append, List.map_map]
    simp [hb, Function.comp_def, Nat.add_assoc]

/-- A block is a nonempty part of what it tiles. -/
theorem blockTiles_mem {blockSize : ℕ} (hbs : 0 < blockSize) {o n : ℕ} {b : ℕ × ℕ}
    (hb : b ∈ blockTiles blockSize o n) : 0 < b.2 ∧ o ≤ b.1 ∧ b.1 + b.2 ≤ o + n := by
  obtain ⟨k, hk, rfl⟩ := List.mem_iff_getElem.1 hb
  obtain ⟨h, h0, -, hle⟩ := blockTiles_getElem hbs hk
  rw [h]
  exact ⟨h0, by simp only; omega⟩

section Disk

variable {info : TrInfo} (hl : info.LayoutOk) {st : IoState} (hf : ∀ i, st.disk.fault .read i = 0)
include hl hf

/-- **The cache reads the torrent.**  A nonempty block of a piece, inside the torrent, whose
bytes' files are on disk, reads as those bytes of the torrent. -/
theorem blockBytes_tr_cacheReadBlock {p off len : ℕ} (hp : p < info.pieceCount) (hlen : 0 < len)
    (hend : info.tr_pieceOffset p off len ≤ info.totalSize)
    (hpres : ∀ k < len, st.disk.HasFileOf info (info.tr_pieceOffset p off k)) :
    blockBytes (tr_cacheReadBlock info st) p off len =
      some ((List.range len).map fun k ↦ st.disk.torrentByte info (info.tr_pieceOffset p off k)) := by
  have hg : ∀ k, info.tr_pieceOffset p off k = info.tr_pieceOffset p off 0 + k := fun k ↦ by
    simp only [TrInfo.tr_pieceOffset]; omega
  rw [hg] at hend
  obtain ⟨l, hs, hpos, hrun⟩ := readOrWritePiece_spans hl hp (by omega) hend
  have hread : tr_ioRead info p off len st = some ({ st with buf := readSpans st.disk l st.buf }, 0) := by
    rw [tr_ioRead, hrun, runSpans_read_eq l st ?_ hf]
    intro s hsl hfile
    obtain ⟨x, hx1, hx2, hx⟩ := Serves.locate hl.contiguous hs s hsl (hpos s hsl hfile)
    refine hpres (x - info.tr_pieceOffset p off 0) (by omega) s.fileIndex s.fileOffset ?_
    rwa [hg, Nat.add_sub_cancel' hx1]
  simp only [blockBytes, tr_cacheReadBlock, hread, Option.map_some', Option.some.injEq]
  refine List.map_congr_left fun k hk ↦ ?_
  rw [readSpans_eq_torrentByte hl.contiguous st.disk l _ 0 len st.buf hs k (Nat.zero_le _)
    (by simpa using hk), Nat.sub_zero, ← hg]

/-- **Verifying reads the torrent.**  On a disk on which the files of the piece exist and reads
do not fail, with the cache reading through, `tr_ioTestPiece` compares the SHA-1 of the piece's
bytes of the torrent with the piece's digest. -/
theorem tr_ioTestPiece_torrentBytes (sha1 : List UInt8 → Digest) (hpo : info.PiecesOk)
    {blockSize : ℕ} (hbs : 0 < blockSize) (pieceHash : ℕ → Digest) {p : ℕ}
    (hp : p < info.pieceCount)
    (hpres : ∀ k < tr_torPieceCountBytes info p, st.disk.HasFileOf info (info.tr_pieceOffset p 0 k)) :
    tr_ioTestPiece sha1 ⟨info, blockSize, pieceHash, tr_cacheReadBlock info st⟩ p =
      some (digestsEqual (sha1 ((List.range (tr_torPieceCountBytes info p)).map fun k ↦
        st.disk.torrentByte info (info.tr_pieceOffset p 0 k))) (pieceHash p)) := by
  obtain ⟨_, -, -, hhash⟩ := recalculateHash_eq sha1 ⟨info, blockSize, pieceHash, tr_cacheReadBlock info st⟩ hbs p
  have hend := (hpo.pieceBytes hp).2
  have hblocks := readBlocks_eq_of_tile (blockBytes (tr_cacheReadBlock info st) p)
    (fun k ↦ st.disk.torrentByte info (info.tr_pieceOffset p 0 k))
    (by simpa using blockTiles_tile hbs (tr_torPieceCountBytes info p) 0) fun b hb ↦ by
      obtain ⟨h0, -, hle⟩ := blockTiles_mem hbs hb
      rw [blockBytes_tr_cacheReadBlock hl hf hp h0
        (by simp only [TrInfo.tr_pieceOffset] at hend ⊢; omega)
        fun k hk ↦ by rw [TrInfo.tr_pieceOffset_eq]; exact hpres _ (by omega)]
      simp only [TrInfo.tr_pieceOffset_eq info p b.1]
  simp only [tr_ioTestPiece, hhash, VerifyTorrent.pieceBlocks, hblocks, Option.map_some',
    Nat.sub_zero, Nat.zero_add]

end Disk

/-- **The hash round trip.**  On a well-formed torrent, after a `tr_ioWrite` of a whole piece from
the buffer that returns `0`, from any disk (files missing, or holding anything), and with reads
not failing, verifying the piece through the cache says whether the SHA-1 of the data written is
the piece's digest. -/
theorem tr_ioTestPiece_after_write (sha1 : List UInt8 → Digest) {info : TrInfo}
    (hl : info.LayoutOk) (hpo : info.PiecesOk) {blockSize : ℕ} (hbs : 0 < blockSize)
    (pieceHash : ℕ → Digest) {p : ℕ} (hp : p < info.pieceCount) {st st₁ : IoState}
    (hw : tr_ioWrite info p 0 (tr_torPieceCountBytes info p) st = some (st₁, 0))
    (hf : ∀ i, st.disk.fault .read i = 0) :
    tr_ioTestPiece sha1 ⟨info, blockSize, pieceHash, tr_cacheReadBlock info st₁⟩ p =
      some (digestsEqual (sha1 ((List.range (tr_torPieceCountBytes info p)).map st.buf))
        (pieceHash p)) := by
  have hx : ∀ k, info.tr_pieceOffset p 0 k = info.tr_pieceOffset p 0 0 + k := fun k ↦ by
    simp [TrInfo.tr_pieceOffset]
  obtain ⟨hL, hend⟩ := hpo.pieceBytes hp
  rw [hx] at hend
  obtain ⟨l, hs, -, hrun⟩ := readOrWritePiece_spans hl hp (by omega) hend
  rw [tr_ioWrite, hrun] at hw
  obtain ⟨h1, h2⟩ := Prod.mk.inj (Option.some.inj hw)
  obtain rfl : st₁ = { st with disk := writeSpans st.buf l st.disk } := by
    rw [← h1]; exact runSpans_write_of_ok l st h2
  rw [tr_ioTestPiece_torrentBytes hl (by simpa using hf) sha1 hpo hbs pieceHash hp
    fun k hk ↦ hx k ▸ writeSpans_hasFileOf hl.contiguous _ st.disk hs _ (by omega) (by omega)]
  refine congrArg (fun bytes ↦ some (digestsEqual (sha1 bytes) (pieceHash p)))
    (List.map_congr_left fun k hk ↦ ?_)
  rw [hx, torrentByte_writeSpans hl.contiguous _ l _ 0 _ _ hs _ (by omega)
    (by simp only [List.mem_range] at hk; omega)]
  simp

/-- An empty disk, on which no call fails, and a buffer of sevens. -/
def sevensOnEmptyDisk : IoState :=
  ⟨⟨fun _ ↦ false, fun _ _ ↦ 0, fun _ _ ↦ 0⟩, fun _ ↦ 7, none⟩

/-- Piece 1 of `zeroLengthMiddle` crosses the empty file `B`: written onto an empty disk, it
creates `A` and `C`, and verifies against the digest of its 512 bytes. -/
theorem tr_ioTestPiece_after_write_zeroLengthMiddle :
    zeroLengthMiddle.LayoutOk ∧ zeroLengthMiddle.PiecesOk ∧ 1 < zeroLengthMiddle.pieceCount ∧
      ∃ st₁, tr_ioWrite zeroLengthMiddle 1 0 (tr_torPieceCountBytes zeroLengthMiddle 1)
          sevensOnEmptyDisk = some (st₁, 0) ∧
        tr_ioTestPiece lengthDigest
          ⟨zeroLengthMiddle, 128, fun _ _ ↦ 0, tr_cacheReadBlock zeroLengthMiddle st₁⟩ 1 = some true := by
  have hpo : zeroLengthMiddle.PiecesOk := ⟨by decide, by decide, by decide, by decide⟩
  obtain ⟨l, -, -, hrun⟩ := @readOrWritePiece_spans zeroLengthMiddle zeroLengthMiddle_layoutOk 1 0
    (tr_torPieceCountBytes zeroLengthMiddle 1) (by decide) (by decide) (by decide)
  have hw : tr_ioWrite zeroLengthMiddle 1 0 (tr_torPieceCountBytes zeroLengthMiddle 1)
      sevensOnEmptyDisk = some ({ sevensOnEmptyDisk with
        disk := writeSpans sevensOnEmptyDisk.buf l sevensOnEmptyDisk.disk }, 0) := by
    rw [tr_ioWrite, hrun, runSpans_write_eq l _ fun _ ↦ rfl]
  refine ⟨zeroLengthMiddle_layoutOk, hpo, by decide, _, hw, ?_⟩
  rw [tr_ioTestPiece_after_write lengthDigest zeroLengthMiddle_layoutOk hpo (by decide) _ (by decide)
    hw fun _ ↦ rfl]
  have h512 : tr_torPieceCountBytes zeroLengthMiddle 1 = 512 := by decide
  simp only [Option.some.injEq, digestsEqual_iff]
  funext
  simp [lengthDigest, h512]
  rfl

end Transmission
