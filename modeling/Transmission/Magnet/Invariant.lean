import Mathlib.Data.List.Nodup
import Transmission.Magnet.Run

/-!
# The invariant of the incomplete metadata

Every state the metadata exchange reaches from a torrent without incomplete metadata, by any run
of size hints, deliveries (in range or not, of the right length or not, repeated or not) and
requests, satisfies two things whenever it holds an incomplete metadata `m`:

* `IncompleteMetadata.Ok`: its size is in `(0, INT_MAX]`, its piece count is
  `ceil(size / METADATA_PIECE_SIZE)`, and `piecesNeeded` is a nonempty list of distinct pieces in
  range;
* every piece in range that is no longer needed is `FilledSinceReset`: the run contains a
  delivery of it, kept by the incomplete metadata of its time and followed by no reset, whose
  bytes are the ones that piece's range of the buffer holds now.

`metadataInv_run` proves both by induction on the run, one call at a time, from
`MagnetEvent.apply_cases`.  Two consequences follow: a delivery of a piece that is
not needed changes nothing (`tr_torrentSetMetadataPiece_of_not_needed`), and when the last piece
arrives, the bytes hashed are, piece by piece, the bytes of deliveries made since the last reset
(`hashed_bytes_delivered`).
-/

set_option autoImplicit false

namespace Transmission

/-! ## Piece ranges -/

namespace IncompleteMetadata

/-- The shape every reachable incomplete metadata keeps. -/
structure Ok (m : IncompleteMetadata) : Prop where
  size_pos : 0 < m.metadataSize
  size_le : m.metadataSize ≤ INT_MAX
  /-- `pieceCount = ceil(metadata_size / METADATA_PIECE_SIZE)`, from below ... -/
  count_lt : (m.pieceCount - 1) * METADATA_PIECE_SIZE < m.metadataSize
  /-- ... and from above. -/
  size_le_count : m.metadataSize ≤ m.pieceCount * METADATA_PIECE_SIZE
  needed_pos : 1 ≤ m.piecesNeeded.length
  needed_le : (m.piecesNeeded.length : ℤ) ≤ m.pieceCount
  nodup : m.pieces.Nodup
  mem_range : ∀ p ∈ m.pieces, 0 ≤ p ∧ p < m.pieceCount

variable {m : IncompleteMetadata}

theorem Ok.pieceCount_pos (h : m.Ok) : 0 < m.pieceCount := by
  have := h.size_pos; have := h.size_le_count; unfold METADATA_PIECE_SIZE at *; omega

/-- Every piece is at most `METADATA_PIECE_SIZE` long and not empty. -/
theorem Ok.getPieceLength_bounds (h : m.Ok) (i : ℤ) :
    0 < getPieceLength m i ∧ getPieceLength m i ≤ METADATA_PIECE_SIZE := by
  have := h.count_lt; have := h.size_le_count
  unfold getPieceLength METADATA_PIECE_SIZE at *
  split <;> constructor <;> omega

/-- Piece `i` ends where the buffer does or before. -/
theorem Ok.getPieceLength_end (h : m.Ok) {i : ℤ} (hi : i < m.pieceCount) :
    i * METADATA_PIECE_SIZE + getPieceLength m i ≤ m.metadataSize := by
  have := h.count_lt; have := h.size_le_count
  unfold getPieceLength METADATA_PIECE_SIZE at *
  split
  · omega
  · have : i + 1 < m.pieceCount := by omega
    omega

end IncompleteMetadata

/-- The bytes of piece `i`, `[i * METADATA_PIECE_SIZE, i * METADATA_PIECE_SIZE + len)`. -/
def InPiece (i len : ℤ) (b : ℕ) : Prop :=
  (i * METADATA_PIECE_SIZE).toNat ≤ b ∧ b < (i * METADATA_PIECE_SIZE).toNat + len.toNat

/-- The ranges of two different pieces do not meet. -/
theorem not_inPiece_of_ne {m : IncompleteMetadata} (h : m.Ok) {i p : ℤ} (hi0 : 0 ≤ i)
    (hp0 : 0 ≤ p) (hip : i ≠ p) {b : ℕ}
    (hb : InPiece i (getPieceLength m i) b) : ¬ InPiece p (getPieceLength m p) b := by
  have hli := (h.getPieceLength_bounds i).2
  have hlp := (h.getPieceLength_bounds p).2
  unfold InPiece METADATA_PIECE_SIZE at *
  rcases Int.lt_or_gt_of_ne hip with hlt | hlt <;> omega

/-- Every byte of the buffer lies in the range of a piece. -/
theorem exists_inPiece {m : IncompleteMetadata} (h : m.Ok) {b : ℕ} (hb : b < m.metadataSize.toNat) :
    ∃ k, 0 ≤ k ∧ k < m.pieceCount ∧ InPiece k (getPieceLength m k) b := by
  have := h.count_lt; have := h.size_le_count
  unfold InPiece getPieceLength METADATA_PIECE_SIZE at *
  refine ⟨((b / 16384 : ℕ) : ℤ), by omega, by omega, ?_⟩
  split <;> omega

/-! ## Whole lists of needed pieces -/

@[simp] theorem length_allPiecesNeeded (n : ℤ) : (allPiecesNeeded n).length = n.toNat := by
  simp only [allPiecesNeeded, List.length_map, List.length_range]

theorem map_piece_allPiecesNeeded (n : ℤ) :
    (allPiecesNeeded n).map MetadataNode.piece = (List.range n.toNat).map fun i : ℕ ↦ (i : ℤ) := by
  simp only [allPiecesNeeded, List.map_map]; rfl

theorem mem_map_piece_allPiecesNeeded {n p : ℤ} :
    p ∈ (allPiecesNeeded n).map MetadataNode.piece ↔ 0 ≤ p ∧ p < n := by
  rw [map_piece_allPiecesNeeded]
  simp only [List.mem_map, List.mem_range]
  constructor
  · rintro ⟨i, hi, rfl⟩; omega
  · intro h; exact ⟨p.toNat, by omega, by simp; omega⟩

theorem nodup_map_piece_allPiecesNeeded (n : ℤ) :
    ((allPiecesNeeded n).map MetadataNode.piece).Nodup := by
  rw [map_piece_allPiecesNeeded]
  exact (List.nodup_range _).map fun _ _ h ↦ Int.ofNat.inj h

/-- An incomplete metadata of a valid size with every piece needed is `Ok`. -/
theorem ok_of_allPiecesNeeded {m : IncompleteMetadata} (h1 : 0 < m.metadataSize)
    (h2 : m.metadataSize ≤ INT_MAX) (h3 : (m.pieceCount - 1) * METADATA_PIECE_SIZE < m.metadataSize)
    (h4 : m.metadataSize ≤ m.pieceCount * METADATA_PIECE_SIZE)
    (hn : m.piecesNeeded = allPiecesNeeded m.pieceCount) : m.Ok where
  size_pos := h1
  size_le := h2
  count_lt := h3
  size_le_count := h4
  needed_pos := by rw [hn, length_allPiecesNeeded]; unfold METADATA_PIECE_SIZE at *; omega
  needed_le := by rw [hn, length_allPiecesNeeded]; unfold METADATA_PIECE_SIZE at *; omega
  nodup := by rw [IncompleteMetadata.pieces, hn]; exact nodup_map_piece_allPiecesNeeded _
  mem_range p hp := by
    rw [IncompleteMetadata.pieces, hn] at hp; exact mem_map_piece_allPiecesNeeded.1 hp

theorem Ok.reset {m : IncompleteMetadata} (h : m.Ok) : m.reset.Ok :=
  ok_of_allPiecesNeeded h.size_pos h.size_le h.count_lt h.size_le_count rfl

/-! ## The pieces tile the buffer -/

/-- **The metadata pieces tile the buffer.**  For a size in `(0, INT_MAX]` and the piece count
`tr_torrentSetMetadataSizeHint` computes for it: `piece * METADATA_PIECE_SIZE` fits in an `int`
for every piece, every piece is `1 ..= METADATA_PIECE_SIZE` bytes long and ends inside the
buffer, no two pieces share a byte, and together they cover `[0, size)`.  So the `memcpy` of a
delivery that `tr_torrentSetMetadataPiece` accepts stays inside the buffer, and the accepted
pieces fill it exactly. -/
theorem getPieceLength_tiles {size : ℤ} (hs : 0 < size) (hs' : size ≤ INT_MAX)
    {m : IncompleteMetadata} (hsize : m.metadataSize = size)
    (hcount : m.pieceCount = metadataPieceCount size) :
    (∀ piece, 0 ≤ piece → piece < m.pieceCount →
      piece * METADATA_PIECE_SIZE ≤ INT_MAX ∧ 0 < getPieceLength m piece ∧
      getPieceLength m piece ≤ METADATA_PIECE_SIZE ∧
      piece * METADATA_PIECE_SIZE + getPieceLength m piece ≤ size) ∧
    (∀ p q, 0 ≤ p → p < m.pieceCount → 0 ≤ q → q < m.pieceCount → ∀ b,
      InPiece p (getPieceLength m p) b → InPiece q (getPieceLength m q) b → p = q) ∧
    (∀ b, b < size.toNat ↔
      ∃ piece, 0 ≤ piece ∧ piece < m.pieceCount ∧ InPiece piece (getPieceLength m piece) b) ∧
    ∀ piece len, m.Wants piece len →
      (piece * METADATA_PIECE_SIZE).toNat + len.toNat ≤ size.toNat := by
  subst hsize
  have hc := metadataPieceCount_ceil (by rw [metadataPieceCount_pos_iff]; exact ⟨hs, hs'⟩)
  rw [← hcount] at hc
  -- `getPieceLength` reads only the size and the piece count, which the reset keeps
  have hok : m.reset.Ok := ok_of_allPiecesNeeded hs hs' hc.1 hc.2 rfl
  have hend : ∀ piece, 0 ≤ piece → piece < m.pieceCount →
      0 < getPieceLength m piece ∧ piece * METADATA_PIECE_SIZE + getPieceLength m piece ≤
        m.metadataSize := fun piece _ hp ↦ ⟨(hok.getPieceLength_bounds piece).1,
    hok.getPieceLength_end hp⟩
  refine ⟨fun piece h0 hp ↦ ?_, fun p q hp0 hp hq0 hq b hbp hbq ↦ ?_, fun b ↦ ⟨fun hb ↦ ?_, ?_⟩,
    fun piece len hw ↦ ?_⟩
  · have := hend piece h0 hp
    exact ⟨by omega, this.1, (hok.getPieceLength_bounds piece).2, this.2⟩
  · by_contra hpq
    exact not_inPiece_of_ne hok hp0 hq0 hpq hbp hbq
  · exact exists_inPiece hok hb
  · rintro ⟨piece, h0, hp, hb⟩
    have := hend piece h0 hp
    unfold InPiece METADATA_PIECE_SIZE at *
    omega
  · obtain ⟨h0, hp, hlen, -⟩ := hw
    have := hend piece h0 hp
    rw [hlen] at this
    unfold METADATA_PIECE_SIZE at *
    omega

/-- 40000 bytes: two pieces of 16384 bytes and one of 7232. -/
theorem getPieceLength_tiles_40000 :
    (0 : ℤ) < 40000 ∧ (40000 : ℤ) ≤ INT_MAX ∧ metadataPieceCount 40000 = 3 ∧
    getPieceLength ⟨fun _ ↦ 0, 40000, 3, []⟩ 2 = 7232 ∧
    (∀ piece, 0 ≤ piece → piece < 3 →
      piece * METADATA_PIECE_SIZE ≤ INT_MAX ∧ 0 < getPieceLength ⟨fun _ ↦ 0, 40000, 3, []⟩ piece ∧
      getPieceLength ⟨fun _ ↦ 0, 40000, 3, []⟩ piece ≤ METADATA_PIECE_SIZE ∧
      piece * METADATA_PIECE_SIZE + getPieceLength ⟨fun _ ↦ 0, 40000, 3, []⟩ piece ≤ 40000) ∧
    (∀ p q, 0 ≤ p → p < 3 → 0 ≤ q → q < 3 → ∀ b,
      InPiece p (getPieceLength ⟨fun _ ↦ 0, 40000, 3, []⟩ p) b →
      InPiece q (getPieceLength ⟨fun _ ↦ 0, 40000, 3, []⟩ q) b → p = q) ∧
    (∀ b, b < (40000 : ℤ).toNat ↔ ∃ piece, 0 ≤ piece ∧ piece < 3 ∧
      InPiece piece (getPieceLength ⟨fun _ ↦ 0, 40000, 3, []⟩ piece) b) ∧
    ∀ piece len, IncompleteMetadata.Wants ⟨fun _ ↦ 0, 40000, 3, []⟩ piece len →
      (piece * METADATA_PIECE_SIZE).toNat + len.toNat ≤ (40000 : ℤ).toNat :=
  ⟨by decide, by decide, by decide, by decide,
    @getPieceLength_tiles 40000 (by decide) (by decide) ⟨fun _ ↦ 0, 40000, 3, []⟩ rfl (by decide)⟩

/-! ## One call keeps the shape -/

namespace IncompleteMetadata

variable {m : IncompleteMetadata}

/-- Reordering `piecesNeeded` keeps the shape. -/
theorem Ok.of_perm (h : m.Ok) {m' : IncompleteMetadata} (hs : m'.metadataSize = m.metadataSize)
    (hc : m'.pieceCount = m.pieceCount) (hp : m'.pieces.Perm m.pieces) : m'.Ok where
  size_pos := hs ▸ h.size_pos
  size_le := hs ▸ h.size_le
  count_lt := hs ▸ hc ▸ h.count_lt
  size_le_count := hs ▸ hc ▸ h.size_le_count
  needed_pos := by
    have := hp.length_eq; simp only [pieces, List.length_map] at this; have := h.needed_pos; omega
  needed_le := by
    have := hp.length_eq; simp only [pieces, List.length_map] at this; have := h.needed_le; omega
  nodup := hp.nodup_iff.2 h.nodup
  mem_range p hmem := hc ▸ h.mem_range p (hp.mem_iff.1 hmem)

/-- The pieces after a request: the head's piece moves to the tail. -/
theorem pieces_rotate {head : MetadataNode} {rest : List MetadataNode}
    (hl : m.piecesNeeded = head :: rest) (now : ℤ) :
    ({ m with piecesNeeded := rest ++ [⟨now, head.piece⟩] } : IncompleteMetadata).pieces.Perm
      m.pieces := by
  simp only [pieces, hl, List.map_append, List.map_cons, List.map_nil]
  exact List.perm_append_singleton _ _

theorem Ok.rotate (h : m.Ok) {head : MetadataNode} {rest : List MetadataNode}
    (hl : m.piecesNeeded = head :: rest) (now : ℤ) :
    ({ m with piecesNeeded := rest ++ [⟨now, head.piece⟩] } : IncompleteMetadata).Ok :=
  h.of_perm rfl rfl (pieces_rotate hl now)

theorem Ok.save (h : m.Ok) {piece len : ℤ} (data : ℕ → UInt8)
    (hne : (m.save piece data len).piecesNeeded ≠ []) : (m.save piece data len).Ok where
  size_pos := h.size_pos
  size_le := h.size_le
  count_lt := h.count_lt
  size_le_count := h.size_le_count
  needed_pos := List.length_pos.2 hne
  needed_le := by
    have : (m.save piece data len).piecesNeeded.length ≤ m.piecesNeeded.length :=
      (List.eraseP_sublist _).length_le
    have := h.needed_le
    rw [save_pieceCount]; omega
  nodup := by rw [save_pieces]; exact h.nodup.erase _
  mem_range p hp := by rw [save_pieces] at hp; exact h.mem_range p (List.mem_of_mem_erase hp)

end IncompleteMetadata

/-! ## The invariant -/

section Invariant

variable (env : MagnetEnv) (tor₀ : Torrent)

/-- Piece `i` of the buffer of `m` holds the bytes of a delivery of `i` that the run `evs` from
`tor₀` made, that the incomplete metadata of its time kept, and that no reset has followed (the
delivery itself included). -/
def FilledSinceReset (evs : List MagnetEvent) (m : IncompleteMetadata) (i : ℤ) : Prop :=
  ∃ pre data post, evs = pre ++ .metadataPiece i data (getPieceLength m i) :: post ∧
    (∃ m₀, (magnetRun env tor₀ pre).incompleteMetadata = some m₀ ∧
      m₀.Wants i (getPieceLength m i)) ∧
    Steady env (magnetRun env tor₀ pre) (.metadataPiece i data (getPieceLength m i) :: post) ∧
    ∀ b, InPiece i (getPieceLength m i) b → m.metadata b = data (b - (i * METADATA_PIECE_SIZE).toNat)

/-- What holds after the run `evs`: the incomplete metadata, when there is one, is `Ok`, and each
piece in range that is no longer needed is filled since the last reset. -/
def MetadataInv (evs : List MagnetEvent) : Prop :=
  ∀ m, (magnetRun env tor₀ evs).incompleteMetadata = some m →
    m.Ok ∧ ∀ i, 0 ≤ i → i < m.pieceCount → i ∉ m.pieces → FilledSinceReset env tor₀ evs m i

variable {env tor₀}

/-- A call that renews nothing and leaves a filled piece's bytes alone keeps it filled. -/
theorem FilledSinceReset.snoc {evs : List MagnetEvent} {m m' : IncompleteMetadata} {i : ℤ}
    (h : FilledSinceReset env tor₀ evs m i) {e : MagnetEvent}
    (he : ¬ e.Renews (magnetRun env tor₀ evs)) (hs : m'.metadataSize = m.metadataSize)
    (hc : m'.pieceCount = m.pieceCount)
    (hb : ∀ b, InPiece i (getPieceLength m i) b → m'.metadata b = m.metadata b) :
    FilledSinceReset env tor₀ (evs ++ [e]) m' i := by
  have hl : getPieceLength m' i = getPieceLength m i := by simp [getPieceLength, hs, hc]
  obtain ⟨pre, data, post, rfl, hw, hst, hbytes⟩ := h
  unfold FilledSinceReset; rw [hl]
  refine ⟨pre, data, post ++ [e], by simp, hw, ?_, fun b hb' ↦ by rw [hb b hb', hbytes b hb']⟩
  rw [← List.cons_append, steady_snoc]
  exact ⟨hst, by simpa using he⟩

theorem metadataInv_nil (h₀ : tor₀.incompleteMetadata = none) : MetadataInv env tor₀ [] := by
  intro m hm; simp [h₀] at hm

/-- **One call keeps the invariant.** -/
theorem metadataInv_snoc {evs : List MagnetEvent} (h : MetadataInv env tor₀ evs) (e : MagnetEvent) :
    MetadataInv env tor₀ (evs ++ [e]) := by
  intro m' hm'
  rw [magnetRun_append, magnetRun_cons, magnetRun_nil] at hm'
  cases hm : (magnetRun env tor₀ evs).incompleteMetadata with
  | none =>
    rcases (MagnetEvent.apply_of_none env hm e).2 with h' | ⟨-, size, rfl, hs, hs', n, h3, h4, h'⟩
    · simp [h'] at hm'
    · rw [h'] at hm'; obtain rfl := Option.some.inj hm'
      refine ⟨ok_of_allPiecesNeeded hs hs' h3 h4 rfl, fun i hi0 hi hni ↦ absurd ?_ hni⟩
      exact mem_map_piece_allPiecesNeeded.2 ⟨hi0, hi⟩
  | some m =>
    obtain ⟨hok, hfill⟩ := h m hm
    rcases MagnetEvent.apply_cases env hm e with ⟨h', -, hr⟩ | ⟨hr, now, head, rest, -, hl, -, -, h'⟩ |
      ⟨hr, -, piece, data, len, rfl, hw, hne, h'⟩ | ⟨-, piece, data, len, rfl, hw, he, h' | h'⟩
    · rw [h'] at hm'; obtain rfl := Option.some.inj hm'
      exact ⟨hok, fun i hi0 hi hni ↦ (hfill i hi0 hi hni).snoc hr rfl rfl fun _ _ ↦ rfl⟩
    · rw [h'] at hm'; obtain rfl := Option.some.inj hm'
      refine ⟨hok.rotate hl now, fun i hi0 hi hni ↦ ?_⟩
      have hni' : i ∉ m.pieces := fun hmem ↦ hni ((IncompleteMetadata.pieces_rotate hl now).mem_iff.2 hmem)
      exact (hfill i hi0 hi hni').snoc hr rfl rfl fun _ _ ↦ rfl
    · rw [h'] at hm'; obtain rfl := Option.some.inj hm'
      refine ⟨hok.save data hne, fun i hi0 hi hni ↦ ?_⟩
      rw [IncompleteMetadata.save_pieces] at hni
      by_cases hip : i = piece
      · subst hip
        have hlen : getPieceLength (m.save i data len) i = len := by
          simpa [getPieceLength] using hw.2.2.1
        unfold FilledSinceReset; rw [hlen]
        refine ⟨evs, data, [], rfl, ⟨m, hm, hw⟩, ⟨hr, trivial⟩, fun b hb ↦ ?_⟩
        simp only [IncompleteMetadata.save, overwrite]; exact if_pos hb
      · have hni' : i ∉ m.pieces := fun hmem ↦ hni ((List.mem_erase_of_ne hip).2 hmem)
        refine (hfill i hi0 hi hni').snoc hr rfl rfl fun b hb ↦ ?_
        have hout := not_inPiece_of_ne hok hi0 hw.1 hip hb
        rw [hw.2.2.1] at hout
        simp only [IncompleteMetadata.save, overwrite]; exact if_neg hout
    · simp [h'] at hm'
    · rw [h'] at hm'; obtain rfl := Option.some.inj hm'
      refine ⟨ok_of_allPiecesNeeded hok.size_pos hok.size_le hok.count_lt hok.size_le_count rfl,
        fun i hi0 hi hni ↦ absurd ?_ hni⟩
      exact mem_map_piece_allPiecesNeeded.2 ⟨hi0, hi⟩

/-- **The invariant holds after every run** from a torrent without incomplete metadata. -/
theorem metadataInv_run (h₀ : tor₀.incompleteMetadata = none) (evs : List MagnetEvent) :
    MetadataInv env tor₀ evs := by
  induction evs using List.reverseRecOn with
  | nil => exact metadataInv_nil h₀
  | append_singleton evs e ih => exact metadataInv_snoc ih e

/-! ## What the invariant gives -/

/-- A delivery of a piece that is not needed is dropped: the torrent, buffer included, is left as
it was. -/
theorem tr_torrentSetMetadataPiece_of_not_needed (env : MagnetEnv) {tor : Torrent}
    {m : IncompleteMetadata} (hm : tor.incompleteMetadata = some m) {piece : ℤ} (hp : piece ∉ m.pieces)
    (data : ℕ → UInt8) (len : ℤ) : tr_torrentSetMetadataPiece env tor piece data len = tor := by
  rw [tr_torrentSetMetadataPiece_eq]
  simp only [hm]
  exact if_neg fun hw ↦ hp hw.2.2.2

/-- **What the SHA-1 covers.**  When a kept delivery of `piece` empties `piecesNeeded`, each byte
of the buffer that `installMetadata` hashes lies in the range of one piece, and holds either the
byte just delivered or, for another piece, the byte of that piece's delivery since the last
reset. -/
theorem hashed_bytes_delivered (h₀ : tor₀.incompleteMetadata = none) (evs : List MagnetEvent)
    {m : IncompleteMetadata} (hm : (magnetRun env tor₀ evs).incompleteMetadata = some m)
    {piece len : ℤ} (hw : m.Wants piece len) (data : ℕ → UInt8)
    (he : (m.save piece data len).piecesNeeded = []) {b : ℕ} (hb : b < m.metadataSize.toNat) :
    (InPiece piece len b ∧
      (m.save piece data len).metadata b = data (b - (piece * METADATA_PIECE_SIZE).toNat)) ∨
    ∃ k, k ≠ piece ∧ 0 ≤ k ∧ k < m.pieceCount ∧ InPiece k (getPieceLength m k) b ∧
      FilledSinceReset env tor₀ evs m k ∧ (m.save piece data len).metadata b = m.metadata b := by
  obtain ⟨hok, hfill⟩ := metadataInv_run h₀ evs m hm
  obtain ⟨k, hk0, hk, hkb⟩ := exists_inPiece hok hb
  by_cases hkp : k = piece
  · subst hkp
    rw [hw.2.2.1] at hkb
    refine .inl ⟨hkb, ?_⟩
    simp only [IncompleteMetadata.save, overwrite]; exact if_pos hkb
  · have hnk : k ∉ m.pieces := fun hmem ↦ by
      have := (List.mem_erase_of_ne hkp).2 hmem
      rw [← IncompleteMetadata.save_pieces m piece data len, IncompleteMetadata.pieces, he] at this
      simp at this
    have hout := not_inPiece_of_ne hok hk0 hw.1 hkp hkb
    rw [hw.2.2.1] at hout
    refine .inr ⟨k, hkp, hk0, hk, hkb, hfill k hk0 hk hnk, ?_⟩
    simp only [IncompleteMetadata.save, overwrite]; exact if_neg hout

/-- The byte at `b` of the buffer `tr_sha1` hashes is the buffer's byte `b`. -/
theorem IncompleteMetadata.getElem?_bytes (m : IncompleteMetadata) {b : ℕ}
    (hb : b < m.metadataSize.toNat) : m.bytes[b]? = some (m.metadata b) := by
  simp [IncompleteMetadata.bytes, hb]

/-- **The incomplete metadata of every reachable state** has the shape `Ok` states, every piece
it no longer needs holds the bytes of a delivery kept since the last reset, and a delivery of such
a piece is dropped without touching anything.  The delivery that empties `piecesNeeded` hands
`finishMetadata` the buffer with its own bytes copied in, and `installMetadata` takes the SHA-1 of
that buffer's `bytes`: each of them is a byte of this delivery or of the kept delivery of another
piece since the last reset. -/
theorem metadataInv_reachable (env : MagnetEnv) {tor₀ : Torrent} (h₀ : tor₀.incompleteMetadata = none)
    (evs : List MagnetEvent) :
    MetadataInv env tor₀ evs ∧
    ∀ m, (magnetRun env tor₀ evs).incompleteMetadata = some m →
      (∀ piece, piece ∉ m.pieces → ∀ data len,
        tr_torrentSetMetadataPiece env (magnetRun env tor₀ evs) piece data len =
          magnetRun env tor₀ evs) ∧
      (∀ piece len data, m.Wants piece len → (m.save piece data len).piecesNeeded = [] →
        tr_torrentSetMetadataPiece env (magnetRun env tor₀ evs) piece data len =
          finishMetadata env (magnetRun env tor₀ evs) (m.save piece data len) ∧
        (m.save piece data len).bytes.length = m.metadataSize.toNat ∧
        ∀ b < m.metadataSize.toNat,
          (InPiece piece len b ∧ (m.save piece data len).bytes[b]? =
            some (data (b - (piece * METADATA_PIECE_SIZE).toNat))) ∨
          ∃ k, k ≠ piece ∧ 0 ≤ k ∧ k < m.pieceCount ∧ InPiece k (getPieceLength m k) b ∧
            FilledSinceReset env tor₀ evs m k ∧
            (m.save piece data len).bytes[b]? = some (m.metadata b)) := by
  refine ⟨metadataInv_run h₀ evs, fun m hm ↦
    ⟨fun _ hp data len ↦ tr_torrentSetMetadataPiece_of_not_needed env hm hp data len,
      fun piece len data hw he ↦ ⟨?_, by simp [IncompleteMetadata.bytes], fun b hb ↦ ?_⟩⟩⟩
  · rw [tr_torrentSetMetadataPiece_eq]
    simp only [hm, if_pos hw, if_pos he]
  · rw [(m.save piece data len).getElem?_bytes (by simpa using hb)]
    rcases hashed_bytes_delivered h₀ evs hm hw data he hb with
      ⟨hin, heq⟩ | ⟨k, hkp, hk0, hk, hin, hfill, heq⟩
    · exact .inl ⟨hin, congrArg some heq⟩
    · exact .inr ⟨k, hkp, hk0, hk, hin, hfill, congrArg some heq⟩

theorem metadataInv_reachable_magnetTorrent :
    (magnetTorrent [] "a.torrent" []).incompleteMetadata = none ∧
    MetadataInv literalEnv (magnetTorrent [] "a.torrent" []) [.sizeHint 20000, .nextRequest 5] ∧
    ∀ m, (magnetRun literalEnv (magnetTorrent [] "a.torrent" [])
        [.sizeHint 20000, .nextRequest 5]).incompleteMetadata = some m →
      (∀ piece, piece ∉ m.pieces → ∀ data len,
        tr_torrentSetMetadataPiece literalEnv (magnetRun literalEnv (magnetTorrent [] "a.torrent" [])
          [.sizeHint 20000, .nextRequest 5]) piece data len =
          magnetRun literalEnv (magnetTorrent [] "a.torrent" []) [.sizeHint 20000, .nextRequest 5]) ∧
      (∀ piece len data, m.Wants piece len → (m.save piece data len).piecesNeeded = [] →
        tr_torrentSetMetadataPiece literalEnv (magnetRun literalEnv (magnetTorrent [] "a.torrent" [])
          [.sizeHint 20000, .nextRequest 5]) piece data len =
          finishMetadata literalEnv (magnetRun literalEnv (magnetTorrent [] "a.torrent" [])
            [.sizeHint 20000, .nextRequest 5]) (m.save piece data len) ∧
        (m.save piece data len).bytes.length = m.metadataSize.toNat ∧
        ∀ b < m.metadataSize.toNat,
          (InPiece piece len b ∧ (m.save piece data len).bytes[b]? =
            some (data (b - (piece * METADATA_PIECE_SIZE).toNat))) ∨
          ∃ k, k ≠ piece ∧ 0 ≤ k ∧ k < m.pieceCount ∧ InPiece k (getPieceLength m k) b ∧
            FilledSinceReset literalEnv (magnetTorrent [] "a.torrent" [])
              [.sizeHint 20000, .nextRequest 5] m k ∧
            (m.save piece data len).bytes[b]? = some (m.metadata b)) :=
  ⟨rfl, metadataInv_reachable literalEnv rfl _⟩

end Invariant

end Transmission
