import Mathlib.Algebra.Group.Int
import Mathlib.Data.List.Forall2
import Transmission.Inout.Piece

/-!
# Verifying a piece

`tr_ioTestPiece` checks a piece against the digest the metainfo gives for it: `recalculateHash`
streams the piece through a SHA-1 context one block at a time, reading each block through the
block cache with `tr_cacheReadBlock`, and gives up at the first read that fails.

The loop is modelled as the code has it, with its `uint32_t` offset and its `size_t` count.  What
it calls is abstract: the block cache is any function from a read `(piece, offset, len)` to the
buffer it fills or a failure, and SHA-1 any function from bytes to a digest, fed through a
context that is the list of bytes given to it so far.  No run reads the same block twice, so a
function of the read covers every behaviour the cache can have over one run.  The prefetch at the
top of `recalculateHash` is dropped: its result is ignored, and `tr_ioPrefetch_state` shows that
it changes nothing.

## Main definitions

* `recalculateHashLoop`, `recalculateHash`, `tr_ioTestPiece`: the code; `recalculateHash` is
  `none` where the loop would not stop;
* `blockTiles`: the blocks of a piece, the `k`-th at `k * blockSize`;
* `readBlocks`: reading a list of blocks in order, up to the first that fails.

## Main results

* `blockTiles_cons`: one pass of the loop, on the blocks; `blockTiles_tile` and
  `blockTiles_getElem`: the blocks tile the piece;
* `recalculateHashLoop_eq`: from any state, the loop reads the blocks of what is left of the
  piece, in order, and feeds their bytes to the context;
* `tr_ioTestPiece_reads_blocks`: for every piece and every cache, `tr_ioTestPiece` returns, after
  reading the blocks up to the first failure, and says `true` exactly when every block reads and
  the SHA-1 of their bytes is the piece's digest.
-/

set_option autoImplicit false

namespace Transmission

/-- `SHA_DIGEST_LENGTH`. -/
def SHA_DIGEST_LENGTH : ℕ := 20

/-- A SHA-1 digest, `uint8_t[SHA_DIGEST_LENGTH]`. -/
abbrev Digest : Type := Fin SHA_DIGEST_LENGTH → UInt8

/-- `memcmp(a, b, SHA_DIGEST_LENGTH) == 0`. -/
def digestsEqual (a b : Digest) : Bool :=
  decide (∀ i, a i = b i)

@[simp] theorem digestsEqual_iff {a b : Digest} : digestsEqual a b = true ↔ a = b := by
  simp [digestsEqual, funext_iff]

/-- `tr_sha1_init()`: a context that has been fed nothing. -/
def tr_sha1_init : List UInt8 := []

/-- `tr_sha1_update(sha, buffer, len)`: feed the first `len` bytes of the buffer. -/
def tr_sha1_update (sha : List UInt8) (buffer : ℕ → UInt8) (len : ℕ) : List UInt8 :=
  sha ++ (List.range len).map buffer

/-- Modelled from the spec: `tr_torPieceCountBytes` of `torrent.h` is not under `src/`.  The
length of piece `piece`, `total_size - piece * piece_size` for the last piece and `piece_size`
for the others, as the `uint32_t` it returns. -/
def tr_torPieceCountBytes (info : TrInfo) (piece : ℕ) : ℕ :=
  (if piece + 1 = info.pieceCount then info.totalSize - piece * info.pieceSize
    else info.pieceSize) % 2 ^ 32

/-- What `recalculateHash` reads of a torrent. -/
structure VerifyTorrent where
  info : TrInfo
  /-- `tor->blockSize`, the size of the buffer. -/
  blockSize : ℕ
  /-- `tor->info.pieces[i].hash`. -/
  pieceHash : ℕ → Digest
  /-- `tr_cacheReadBlock(tor->session->cache, tor, piece, offset, len, buffer)`: the buffer it
  fills when it returns `0`, `none` when it fails. -/
  cacheReadBlock : ℕ → ℕ → ℕ → Option (ℕ → UInt8)

/-- The locals of `recalculateHash`'s loop, and the reads it has made. -/
structure HashLoop where
  /-- `uint32_t offset`. -/
  offset : ℕ
  /-- `size_t bytesLeft`. -/
  bytesLeft : ℕ
  success : Bool
  /-- The context `sha`. -/
  sha : List UInt8
  /-- The calls of `tr_cacheReadBlock` so far, `(offset, len)` each, the first first. -/
  reads : List (ℕ × ℕ)
  deriving DecidableEq, Repr

/-- The loop `while (bytesLeft != 0)` of `recalculateHash` on piece `pieceIndex`, with a buffer of
`buflen` bytes, for at most `fuel` passes: `none` when the fuel runs out first. -/
def recalculateHashLoop (cacheReadBlock : ℕ → ℕ → ℕ → Option (ℕ → UInt8))
    (pieceIndex buflen : ℕ) : ℕ → HashLoop → Option HashLoop
  | fuel, s =>
    if s.bytesLeft = 0 then some s
    else match fuel with
      | 0 => none
      | fuel + 1 =>
        let len := min s.bytesLeft buflen
        match cacheReadBlock pieceIndex s.offset len with
        | none => some { s with success := false, reads := s.reads ++ [(s.offset, len)] }
        | some buffer =>
          recalculateHashLoop cacheReadBlock pieceIndex buflen fuel
            { offset := (s.offset + len) % 2 ^ 32, bytesLeft := s.bytesLeft - len,
              success := true, sha := tr_sha1_update s.sha buffer len,
              reads := s.reads ++ [(s.offset, len)] }

/-- `recalculateHash(tor, pieceIndex, setme)` with SHA-1 `sha1`: `some (some h)` when it returns
`true` having written the digest `h` into `setme`, `some none` when it returns `false`
(`tr_sha1_final(sha, nullptr)` only frees the context), `none` when it would not return.  Every
pass reads one byte at least when the buffer is not empty, so `bytesLeft` passes are enough. -/
def recalculateHash (sha1 : List UInt8 → Digest) (tor : VerifyTorrent) (pieceIndex : ℕ) :
    Option (Option Digest) :=
  let bytesLeft := tr_torPieceCountBytes tor.info pieceIndex
  (recalculateHashLoop tor.cacheReadBlock pieceIndex tor.blockSize bytesLeft
      ⟨0, bytesLeft, true, tr_sha1_init, []⟩).map fun s ↦
    if s.success then some (sha1 s.sha) else none

/-- `tr_ioTestPiece(tor, piece)`, `none` when it would not return. -/
def tr_ioTestPiece (sha1 : List UInt8 → Digest) (tor : VerifyTorrent) (piece : ℕ) :
    Option Bool :=
  (recalculateHash sha1 tor piece).map fun
    | some hash => digestsEqual hash (tor.pieceHash piece)
    | none => false

theorem readOrWriteBytes_prefetch_state (fileIndex : ℕ) (file : TrFile)
    (fileOffset bufPos n : ℕ) (st : IoState) :
    (readOrWriteBytes .prefetch fileIndex file fileOffset bufPos n st).1 = st := by
  unfold readOrWriteBytes; split_ifs <;> rfl

theorem readOrWritePieceLoop_prefetch_state :
    ∀ (files : List TrFile) (fileIndex fileOffset bufPos buflen : ℕ) (st st' : IoState) (err : ℕ),
      readOrWritePieceLoop .prefetch files fileIndex fileOffset bufPos buflen st = some (st', err) →
        st' = st
  | _, _, _, _, 0, _, _, _, h => by
    rw [readOrWritePieceLoop] at h; exact (Prod.mk.inj (Option.some.inj h)).1.symm
  | [], _, _, _, _ + 1, _, _, _, h => by rw [readOrWritePieceLoop] at h; cases h
  | file :: files, fileIndex, fileOffset, bufPos, buflen + 1, st, st', err, h => by
    rw [readOrWritePieceLoop] at h
    simp only [markWriteError, readOrWriteBytes_prefetch_state, reduceCtorEq, false_and, and_false,
      if_false] at h
    split at h
    · exact readOrWritePieceLoop_prefetch_state files _ _ _ _ st st' err h
    · exact (Prod.mk.inj (Option.some.inj h)).1.symm

/-- A prefetch changes no state: `recalculateHash` can drop it. -/
theorem tr_ioPrefetch_state {info : TrInfo} {pieceIndex begin len : ℕ} {st st' : IoState}
    {err : ℕ} (h : tr_ioPrefetch info pieceIndex begin len st = some (st', err)) : st' = st := by
  unfold tr_ioPrefetch readOrWritePiece at h
  split at h
  · exact (Prod.mk.inj (Option.some.inj h)).1.symm
  · split at h
    · cases h
    · exact readOrWritePieceLoop_prefetch_state _ _ _ _ _ _ _ _ h

/-! ## The blocks of a piece -/

/-- The blocks of `n` bytes from `offset` on, `blockSize` at a time: block `k` starts at
`offset + k * blockSize` and is `blockSize` bytes long, or what is left of the `n`. -/
def blockTiles (blockSize offset n : ℕ) : List (ℕ × ℕ) :=
  (List.range ((n + blockSize - 1) / blockSize)).map fun k ↦
    (offset + k * blockSize, min (n - k * blockSize) blockSize)

/-- The blocks `bs` lie end to end from byte `o` on, and the last one ends at byte `t`. -/
def BlocksTile : ℕ → List (ℕ × ℕ) → ℕ → Prop
  | o, [], t => t = o
  | o, b :: bs, t => b.1 = o ∧ BlocksTile (o + b.2) bs t

@[simp] theorem blockTiles_zero (blockSize offset : ℕ) : blockTiles blockSize offset 0 = [] := by
  rcases Nat.eq_zero_or_pos blockSize with rfl | h
  · rfl
  · simp [blockTiles, Nat.div_eq_of_lt (show blockSize - 1 < blockSize by omega)]

/-- **One pass of the loop.**  A nonempty rest of the piece is its first block, `min n blockSize`
bytes, and then the blocks of what is left after it. -/
theorem blockTiles_cons {blockSize : ℕ} (hbs : 0 < blockSize) {n : ℕ} (hn : n ≠ 0) (o : ℕ) :
    blockTiles blockSize o n =
      (o, min n blockSize) :: blockTiles blockSize (o + min n blockSize) (n - min n blockSize) := by
  rcases Nat.lt_or_ge blockSize n with h | h
  · have hcount : (n + blockSize - 1) / blockSize = (n - blockSize + blockSize - 1) / blockSize + 1 := by
      rw [← Nat.add_div_right _ hbs]; congr 1; omega
    rw [blockTiles, hcount, List.range_succ_eq_map, List.map_cons, List.map_map, blockTiles,
      min_eq_right h.le]
    congr 1
    · simp [h.le]
    · congr 1; funext k; simp only [Function.comp, Nat.succ_mul]; ext <;> simp <;> omega
  · have hcount : (n + blockSize - 1) / blockSize = 1 :=
      Nat.div_eq_of_lt_le (by omega) (by omega)
    rw [blockTiles, hcount, show List.range 1 = [0] from rfl]
    simp [min_eq_left h]

theorem blockTiles_length (blockSize offset n : ℕ) :
    (blockTiles blockSize offset n).length = (n + blockSize - 1) / blockSize := by
  simp [blockTiles]

/-- Block `k` starts `k` blocks in, and is a nonempty part of the piece no longer than a block. -/
theorem blockTiles_getElem {blockSize : ℕ} (hbs : 0 < blockSize) {offset n k : ℕ}
    (hk : k < (blockTiles blockSize offset n).length) :
    (blockTiles blockSize offset n)[k] = (offset + k * blockSize, min (n - k * blockSize) blockSize) ∧
      0 < min (n - k * blockSize) blockSize ∧ min (n - k * blockSize) blockSize ≤ blockSize ∧
      k * blockSize + min (n - k * blockSize) blockSize ≤ n := by
  rw [blockTiles_length] at hk
  have : (k + 1) * blockSize ≤ n + blockSize - 1 := (Nat.le_div_iff_mul_le hbs).1 hk
  rw [Nat.succ_mul] at this
  exact ⟨by simp [blockTiles], by omega, by omega, by omega⟩

/-- **The blocks tile the piece**, in order. -/
theorem blockTiles_tile {blockSize : ℕ} (hbs : 0 < blockSize) :
    ∀ n o, BlocksTile o (blockTiles blockSize o n) (o + n) := by
  intro n
  induction n using Nat.strong_induction_on with
  | _ n ih =>
    intro o
    rcases Nat.eq_zero_or_pos n with rfl | hn
    · simp [BlocksTile]
    rw [blockTiles_cons hbs hn.ne']
    refine ⟨rfl, ?_⟩
    have := ih (n - min n blockSize) (by omega) (o + min n blockSize)
    rwa [show o + min n blockSize + (n - min n blockSize) = o + n by omega] at this

/-! ## Reading the blocks -/

/-- The bytes of a read of `len` bytes at `offset` of piece `piece` through the cache. -/
def blockBytes (cacheReadBlock : ℕ → ℕ → ℕ → Option (ℕ → UInt8)) (piece offset len : ℕ) :
    Option (List UInt8) :=
  (cacheReadBlock piece offset len).map fun buffer ↦ (List.range len).map buffer

/-- Read the blocks in order, up to the first that fails: the reads made, and the bytes of all
the blocks when none failed. -/
def readBlocks (read : ℕ → ℕ → Option (List UInt8)) :
    List (ℕ × ℕ) → List (ℕ × ℕ) × Option (List UInt8)
  | [] => ([], some [])
  | b :: bs =>
    match read b.1 b.2 with
    | none => ([b], none)
    | some bytes => (b :: (readBlocks read bs).1, (readBlocks read bs).2.map (bytes ++ ·))

/-- The reads made are the blocks up to the first that fails, or all of them. -/
theorem readBlocks_fst (read : ℕ → ℕ → Option (List UInt8)) :
    ∀ bs : List (ℕ × ℕ),
      (readBlocks read bs).1 = bs.take (bs.findIdx (fun b ↦ (read b.1 b.2).isNone) + 1)
  | [] => rfl
  | b :: bs => by
    rw [readBlocks, List.findIdx_cons]
    cases read b.1 b.2 <;> simp [readBlocks_fst read bs]

/-- The blocks give their bytes exactly when every one of them reads, and then they give the
concatenation of their bytes. -/
theorem readBlocks_snd_eq_some (read : ℕ → ℕ → Option (List UInt8)) :
    ∀ (bs : List (ℕ × ℕ)) (bytes : List UInt8), (readBlocks read bs).2 = some bytes ↔
      ∃ chunks, List.Forall₂ (fun b c ↦ read b.1 b.2 = some c) bs chunks ∧
        bytes = chunks.flatten
  | [], bytes => by simp [readBlocks, eq_comm]
  | b :: bs, bytes => by
    rw [readBlocks]
    cases h : read b.1 b.2 with
    | none => simp [List.forall₂_cons_left_iff, h]
    | some c =>
      simp only [Option.map_eq_some', readBlocks_snd_eq_some read bs, List.forall₂_cons_left_iff,
        Option.some.injEq]
      constructor
      · rintro ⟨_, ⟨chunks, hf, rfl⟩, rfl⟩
        exact ⟨c :: chunks, ⟨c, chunks, h, hf, rfl⟩, rfl⟩
      · rintro ⟨_, ⟨c', chunks, hc, hf, rfl⟩, rfl⟩
        obtain rfl : c = c' := Option.some.inj (h.symm.trans hc)
        exact ⟨_, ⟨chunks, hf, rfl⟩, rfl⟩

/-! ## The loop reads the blocks -/

section Loop

variable (cacheReadBlock : ℕ → ℕ → ℕ → Option (ℕ → UInt8)) (pieceIndex : ℕ) {buflen : ℕ}

/-- **The loop, from any state.**  With a nonempty buffer, fuel for the bytes left, and an offset
that cannot wrap, the loop stops; its reads are those before it, then the blocks of what is left
up to the first that fails; and it has succeeded, with the bytes of all of them fed to the
context, exactly when none fails. -/
theorem recalculateHashLoop_eq (hbs : 0 < buflen) :
    ∀ (fuel : ℕ) (s : HashLoop), s.bytesLeft ≤ fuel → s.offset + s.bytesLeft < 2 ^ 32 →
      s.success = true →
      ∃ s', recalculateHashLoop cacheReadBlock pieceIndex buflen fuel s = some s' ∧
        s'.reads = s.reads ++
          (readBlocks (blockBytes cacheReadBlock pieceIndex)
            (blockTiles buflen s.offset s.bytesLeft)).1 ∧
        (if s'.success then some s'.sha else none) =
          (readBlocks (blockBytes cacheReadBlock pieceIndex)
            (blockTiles buflen s.offset s.bytesLeft)).2.map (s.sha ++ ·) := by
  intro fuel
  induction fuel with
  | zero =>
    intro s hfuel _ hs
    have h0 : s.bytesLeft = 0 := by omega
    refine ⟨s, by simp [recalculateHashLoop, h0], ?_⟩
    simp [h0, readBlocks, hs]
  | succ fuel ih =>
    intro s hfuel hwrap hs
    rcases Nat.eq_zero_or_pos s.bytesLeft with h0 | hpos
    · refine ⟨s, by simp [recalculateHashLoop, h0], ?_⟩
      simp [h0, readBlocks, hs]
    rw [blockTiles_cons hbs hpos.ne', readBlocks]
    simp only [recalculateHashLoop, hpos.ne', if_false, blockBytes]
    cases hread : cacheReadBlock pieceIndex s.offset (min s.bytesLeft buflen) with
    | none => exact ⟨_, rfl, rfl, rfl⟩
    | some buffer =>
      simp only [Option.map_some']
      have hoff : (s.offset + min s.bytesLeft buflen) % 2 ^ 32 = s.offset + min s.bytesLeft buflen :=
        Nat.mod_eq_of_lt (by omega)
      obtain ⟨s', hrun, hreads, hsha⟩ := ih
        ⟨(s.offset + min s.bytesLeft buflen) % 2 ^ 32, s.bytesLeft - min s.bytesLeft buflen, true,
          tr_sha1_update s.sha buffer (min s.bytesLeft buflen),
          s.reads ++ [(s.offset, min s.bytesLeft buflen)]⟩
        (by simp only; omega) (by simp only [hoff]; omega) rfl
      simp only [hoff] at hreads hsha
      refine ⟨s', hrun, by simp [hreads], ?_⟩
      rw [hsha, Option.map_map]
      simp [tr_sha1_update, Function.comp_def]

end Loop

/-- The blocks of piece `piece`. -/
def VerifyTorrent.pieceBlocks (tor : VerifyTorrent) (piece : ℕ) : List (ℕ × ℕ) :=
  blockTiles tor.blockSize 0 (tr_torPieceCountBytes tor.info piece)

section Piece

variable (sha1 : List UInt8 → Digest) (tor : VerifyTorrent)

/-- **The loop from the start of a piece.**  It stops, having read the blocks of the piece up to
the first that fails, and `recalculateHash` gives the SHA-1 of their bytes when none fails. -/
theorem recalculateHash_eq (hbs : 0 < tor.blockSize) (piece : ℕ) :
    ∃ s, recalculateHashLoop tor.cacheReadBlock piece tor.blockSize
        (tr_torPieceCountBytes tor.info piece)
        ⟨0, tr_torPieceCountBytes tor.info piece, true, tr_sha1_init, []⟩ = some s ∧
      s.reads = (readBlocks (blockBytes tor.cacheReadBlock piece) (tor.pieceBlocks piece)).1 ∧
      recalculateHash sha1 tor piece =
        some ((readBlocks (blockBytes tor.cacheReadBlock piece) (tor.pieceBlocks piece)).2.map sha1) := by
  obtain ⟨s, hrun, hreads, hsha⟩ := recalculateHashLoop_eq tor.cacheReadBlock piece hbs _
    ⟨0, tr_torPieceCountBytes tor.info piece, true, tr_sha1_init, []⟩ le_rfl
    (by simpa using Nat.mod_lt _ (by decide)) rfl
  have hsha' : (if s.success then some s.sha else none) =
      (readBlocks (blockBytes tor.cacheReadBlock piece) (tor.pieceBlocks piece)).2 := by
    simpa [tr_sha1_init, VerifyTorrent.pieceBlocks] using hsha
  refine ⟨s, hrun, by simpa [VerifyTorrent.pieceBlocks] using hreads, ?_⟩
  simp only [recalculateHash, hrun, Option.map_some', ← hsha']
  split <;> rfl

/-- The verdict: `true` exactly when every block of the piece reads and the SHA-1 of their bytes
is the piece's digest. -/
theorem tr_ioTestPiece_eq_true (hbs : 0 < tor.blockSize) (piece : ℕ) :
    tr_ioTestPiece sha1 tor piece = some true ↔
      ∃ chunks, List.Forall₂ (fun b c ↦ blockBytes tor.cacheReadBlock piece b.1 b.2 = some c)
        (tor.pieceBlocks piece) chunks ∧ sha1 chunks.flatten = tor.pieceHash piece := by
  obtain ⟨-, -, -, hhash⟩ := recalculateHash_eq sha1 tor hbs piece
  have hsome := readBlocks_snd_eq_some (blockBytes tor.cacheReadBlock piece) (tor.pieceBlocks piece)
  simp only [tr_ioTestPiece, hhash, Option.map_some', Option.some.injEq]
  cases hR : (readBlocks (blockBytes tor.cacheReadBlock piece) (tor.pieceBlocks piece)).2 with
  | none =>
    simp only [Option.map_none', Bool.false_eq_true, false_iff, not_exists, not_and]
    intro chunks hf _
    simpa [hR] using (hsome _).2 ⟨chunks, hf, rfl⟩
  | some bytes =>
    obtain ⟨chunks, hf, rfl⟩ := (hsome _).1 hR
    simp only [Option.map_some', digestsEqual_iff]
    refine ⟨fun h ↦ ⟨chunks, hf, h⟩, fun ⟨chunks', hf', h⟩ ↦ ?_⟩
    have := (hsome _).2 ⟨chunks', hf', rfl⟩
    rw [hR] at this
    rwa [Option.some.inj this]

/-- **Verifying a piece.**  For every torrent with a nonempty block buffer, every cache and every
piece, of length `L = tr_torPieceCountBytes`: the `⌈L / blockSize⌉` blocks start `k * blockSize`
in, are nonempty and no longer than a block, and tile `[0, L)` in order with no offset reaching
`2^32`; the loop stops, having read the blocks in order up to the first that fails, so at most
`⌈L / blockSize⌉` of them; and `tr_ioTestPiece` returns, `true` exactly when every block reads and
the SHA-1 of their bytes, in order, is the piece's digest. -/
theorem tr_ioTestPiece_reads_blocks (hbs : 0 < tor.blockSize) (piece : ℕ) :
    (tor.pieceBlocks piece).length =
        (tr_torPieceCountBytes tor.info piece + tor.blockSize - 1) / tor.blockSize ∧
      (∀ k (hk : k < (tor.pieceBlocks piece).length),
        (tor.pieceBlocks piece)[k] = (k * tor.blockSize,
          min (tr_torPieceCountBytes tor.info piece - k * tor.blockSize) tor.blockSize) ∧
        0 < (tor.pieceBlocks piece)[k].2 ∧ (tor.pieceBlocks piece)[k].2 ≤ tor.blockSize) ∧
      BlocksTile 0 (tor.pieceBlocks piece) (tr_torPieceCountBytes tor.info piece) ∧
      tr_torPieceCountBytes tor.info piece < 2 ^ 32 ∧
      (∃ s, recalculateHashLoop tor.cacheReadBlock piece tor.blockSize
          (tr_torPieceCountBytes tor.info piece)
          ⟨0, tr_torPieceCountBytes tor.info piece, true, tr_sha1_init, []⟩ = some s ∧
        s.reads = (tor.pieceBlocks piece).take ((tor.pieceBlocks piece).findIdx
          (fun b ↦ (blockBytes tor.cacheReadBlock piece b.1 b.2).isNone) + 1) ∧
        s.reads.length ≤ (tr_torPieceCountBytes tor.info piece + tor.blockSize - 1) / tor.blockSize) ∧
      (tr_ioTestPiece sha1 tor piece = some true ↔
        ∃ chunks, List.Forall₂ (fun b c ↦ blockBytes tor.cacheReadBlock piece b.1 b.2 = some c)
          (tor.pieceBlocks piece) chunks ∧ sha1 chunks.flatten = tor.pieceHash piece) ∧
      ∃ ok, tr_ioTestPiece sha1 tor piece = some ok := by
  obtain ⟨s, hrun, hreads, hhash⟩ := recalculateHash_eq sha1 tor hbs piece
  rw [readBlocks_fst] at hreads
  have hlen := blockTiles_length tor.blockSize 0 (tr_torPieceCountBytes tor.info piece)
  refine ⟨hlen, fun k hk ↦ ?_, by simpa using blockTiles_tile hbs (tr_torPieceCountBytes tor.info piece) 0,
    Nat.mod_lt _ (by decide), ⟨s, hrun, hreads, ?_⟩, tr_ioTestPiece_eq_true sha1 tor hbs piece, ?_⟩
  · obtain ⟨h, h0, hle, -⟩ := blockTiles_getElem hbs hk
    simp only [VerifyTorrent.pieceBlocks, h, Nat.zero_add]
    exact ⟨trivial, h0, hle⟩
  · rw [hreads, List.length_take]
    exact (min_le_right _ _).trans hlen.le
  · simp only [tr_ioTestPiece, hhash, Option.map_some']
    exact ⟨_, rfl⟩

/-- A torrent of one five-byte piece, read two bytes at a time from a cache that holds `1`
everywhere, whose digest is the number of bytes hashed. -/
def fiveBytePiece : VerifyTorrent :=
  ⟨⟨[], "five.torrent", [⟨5, 0, false, "f"⟩], 5, 5, 1⟩, 2, fun _ _ ↦ 5, fun _ _ _ ↦ some fun _ ↦ 1⟩

/-- A stand-in for SHA-1: the number of bytes hashed, in every byte of the digest. -/
def lengthDigest (bytes : List UInt8) : Digest :=
  fun _ ↦ bytes.length.toUInt8

end Piece

/-- The five-byte piece is read as blocks of 2, 2 and 1 bytes, and passes. -/
theorem tr_ioTestPiece_reads_blocks_fiveBytePiece :
    0 < fiveBytePiece.blockSize ∧ fiveBytePiece.pieceBlocks 0 = [(0, 2), (2, 2), (4, 1)] ∧
      tr_ioTestPiece lengthDigest fiveBytePiece 0 = some true :=
  ⟨by decide, by decide, (tr_ioTestPiece_reads_blocks lengthDigest fiveBytePiece (by decide)
    0).2.2.2.2.2.1.2 ⟨[[1, 1], [1, 1], [1]], by decide, rfl⟩⟩

end Transmission
