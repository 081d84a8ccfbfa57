import Transmission.Magnet.Invariant
import Transmission.Magnet.Serve

/-!
# Two peers exchanging metadata

A peer that has a torrent's metadata serves it with `tr_torrentGetMetadataPiece`; a peer that has
only the magnet link asks for pieces with `tr_torrentGetNextMetadataRequest` and hands what it
receives to `tr_torrentSetMetadataPiece`.  The wire between them, `peer-msgs.c`, is not under
`src/`: a delivery is *served* by a seeder when it is the seeder's answer for its piece, byte for
byte and with its length (`MagnetEvent.ServedBy`).

The two peers meet at the info dictionary, the `infoDictLength` bytes of the seeder's `.torrent`
file from `infoDictOffset` on:

* the seeder answers every piece of the dictionary, with the length the fetching peer expects of
  that piece (`Seeder.answers`, `IncompleteMetadata.Ok.getPieceLength_eq`), and the bytes of the
  file (`Seeder.answer_bytes`);
* **safety** (`hashed_bytes_served`): in every run whose deliveries are all served by the seeder,
  with size hints, requests and deliveries interleaved in any order and repeated, when the last
  needed piece of an incomplete metadata of the dictionary's size arrives, the buffer that
  `installMetadata` hashes is the dictionary;
* **progress** (`exchangeRounds_install`): from a peer that needs every piece, whatever its buffer
  holds, `pieceCount` rounds of a request and the seeder's answer, at any clock readings past
  `MIN_REPEAT_INTERVAL_SECS`, ask for every piece once and in order, fill the buffer piece by
  piece (`Seeder.fill_answer`, `Fetching.round`) and end in the installation of the dictionary.

`metadata_exchange` puts the two together, from the size hint on (`exchange_rounds`);
`metadata_retry` starts the rounds after any run that leaves every piece needed, as a failed
installation does.
-/

set_option autoImplicit false

namespace Transmission

/-- The bytes of a message, `uint8_t const*` over its buffer. -/
def bufferBytes (buf : List UInt8) (k : ℕ) : UInt8 :=
  buf.getD k 0

/-- A torrent that serves its metadata: it has metadata and its `.torrent` file `file`, whose
bytes from `infoDictOffset` on hold the info dictionary, of a size the exchange accepts. -/
structure Seeder (src : Torrent) (infoDictOffset : ℕ) (file : List UInt8) : Prop where
  hasMetadata : tr_torrentHasMetadata src = true
  file_eq : src.files src.info.torrent = some file
  length_pos : 0 < src.infoDictLength
  length_le : (src.infoDictLength : ℤ) ≤ INT_MAX
  inside : infoDictOffset + src.infoDictLength ≤ file.length
  offset_lt : infoDictOffset + src.infoDictLength < 2 ^ 63

/-- The call is the answer of the seeder `src` for its piece, if it is a delivery. -/
def MagnetEvent.ServedBy (src : Torrent) (infoDictOffset : ℕ) : MagnetEvent → Prop
  | .metadataPiece piece data len => ∃ buf, tr_torrentGetMetadataPiece src infoDictOffset piece = some buf ∧
      len = buf.length ∧ ∀ k < buf.length, data k = bufferBytes buf k
  | _ => True

/-- `n` bytes of a file from offset `o` on, byte by byte. -/
theorem take_drop_eq_map {file : List UInt8} {o n : ℕ} (h : o + n ≤ file.length) :
    (file.drop o).take n = (List.range n).map fun b ↦ file.getD (o + b) 0 := by
  apply List.ext_getElem
  · simp only [List.length_take, List.length_drop, List.length_map, List.length_range]; omega
  · intro b h₁ h₂
    have hb : o + b < file.length := by
      simp only [List.length_take, List.length_drop] at h₁; omega
    simp only [List.getElem_take, List.getElem_drop, List.getElem_map, List.getElem_range,
      List.getD_eq_getElem?_getD, List.getElem?_eq_getElem hb, Option.getD_some]

/-- The length the fetching peer expects of piece `p` is the rest of the buffer from the piece
on, capped at `METADATA_PIECE_SIZE`. -/
theorem IncompleteMetadata.Ok.getPieceLength_eq {m : IncompleteMetadata} (h : m.Ok) {p : ℤ}
    (hp : p < m.pieceCount) :
    getPieceLength m p = min METADATA_PIECE_SIZE (m.metadataSize - p * METADATA_PIECE_SIZE) := by
  have := h.count_lt; have := h.size_le_count
  unfold getPieceLength METADATA_PIECE_SIZE at *
  split <;> omega

/-! ## The seeder -/

section Seeder

variable {src : Torrent} {infoDictOffset : ℕ} {file : List UInt8}
  (hs : Seeder src infoDictOffset file)
include hs

/-- A piece that starts inside the dictionary has an index below `2^17`, so its offset is
computed without wrapping. -/
theorem Seeder.offset_eq {p : ℤ} (h0 : 0 ≤ p) (hp : p * METADATA_PIECE_SIZE < src.infoDictLength) :
    metadataPieceOffset p = (p * METADATA_PIECE_SIZE).toNat :=
  metadataPieceOffset_of_lt h0 (by have := hs.length_le; unfold METADATA_PIECE_SIZE INT_MAX at *; omega)

/-- **The seeder answers every piece of its dictionary**, with the rest of the dictionary from
the piece on, capped at `METADATA_PIECE_SIZE`. -/
theorem Seeder.answers {p : ℤ} (h0 : 0 ≤ p) (hp : p * METADATA_PIECE_SIZE < src.infoDictLength) :
    ∃ buf, tr_torrentGetMetadataPiece src infoDictOffset p = some buf ∧
      (buf.length : ℤ) = min METADATA_PIECE_SIZE (src.infoDictLength - p * METADATA_PIECE_SIZE) := by
  have hin := hs.inside; have hlt := hs.offset_lt
  have ho := hs.offset_eq h0 hp
  have hL : (metadataPieceLength src.infoDictLength (metadataPieceOffset p) : ℤ) =
      min METADATA_PIECE_SIZE (src.infoDictLength - p * METADATA_PIECE_SIZE) := by
    rw [ho, metadataPieceLength]; unfold METADATA_PIECE_SIZE at *; split_ifs <;> omega
  have hpos : (infoDictOffset + metadataPieceOffset p) % 2 ^ 64 =
      infoDictOffset + (p * METADATA_PIECE_SIZE).toNat := by
    rw [ho]; exact Nat.mod_eq_of_lt (by unfold METADATA_PIECE_SIZE at *; omega)
  have hlen : ((file.drop (infoDictOffset + (p * METADATA_PIECE_SIZE).toNat)).take
      (metadataPieceLength src.infoDictLength (metadataPieceOffset p))).length =
      metadataPieceLength src.infoDictLength (metadataPieceOffset p) := by
    simp only [List.length_take, List.length_drop]; unfold METADATA_PIECE_SIZE at *; omega
  refine ⟨_, tr_torrentGetMetadataPiece_eq_some.2 ⟨hs.hasMetadata, file, hs.file_eq, ?_, ?_, ?_,
    hlen, by rw [hpos, hlen]⟩, by rw [hlen, hL]⟩ <;> unfold METADATA_PIECE_SIZE at * <;> omega

/-- The bytes of the seeder's answer for a piece of its dictionary are the file's. -/
theorem Seeder.answer_bytes {p : ℤ} (h0 : 0 ≤ p) (hp : p * METADATA_PIECE_SIZE < src.infoDictLength)
    {buf : List UInt8} (hbuf : tr_torrentGetMetadataPiece src infoDictOffset p = some buf) {k : ℕ}
    (hk : k < buf.length) :
    bufferBytes buf k = file.getD (infoDictOffset + (p * METADATA_PIECE_SIZE).toNat + k) 0 := by
  obtain ⟨-, file', hf, -, -, -, -, hb⟩ := tr_torrentGetMetadataPiece_eq_some.1 hbuf
  obtain rfl : file' = file := Option.some.inj (hf.symm.trans hs.file_eq)
  have hlt := hs.offset_lt
  rw [hs.offset_eq h0 hp, Nat.mod_eq_of_lt (by unfold METADATA_PIECE_SIZE at *; omega)] at hb
  rw [bufferBytes, hb, List.getD_eq_getElem?_getD, List.getElem?_take, if_pos hk,
    List.getElem?_drop, ← List.getD_eq_getElem?_getD]

/-! ## Safety -/

/-- **What the fetching peer hashes is the seeder's dictionary.**  In every run from a torrent
without incomplete metadata whose deliveries are all served by the seeder, when a served delivery
empties `piecesNeeded` of an incomplete metadata of the dictionary's size, the buffer it hashes is
the dictionary. -/
theorem hashed_bytes_served {env : MagnetEnv} {tor₀ : Torrent}
    (h₀ : tor₀.incompleteMetadata = none) {evs : List MagnetEvent}
    (hserved : ∀ e ∈ evs, e.ServedBy src infoDictOffset) {m : IncompleteMetadata}
    (hm : (magnetRun env tor₀ evs).incompleteMetadata = some m)
    (hsize : m.metadataSize = src.infoDictLength) {piece : ℤ} {data : ℕ → UInt8} {len : ℤ}
    (he : (MagnetEvent.metadataPiece piece data len).ServedBy src infoDictOffset)
    (hw : m.Wants piece len) (hlast : (m.save piece data len).piecesNeeded = []) :
    (m.save piece data len).bytes = (file.drop infoDictOffset).take src.infoDictLength := by
  have hok := (metadataInv_run h₀ evs m hm).1
  -- a byte of a served delivery of a piece of the buffer is the file's byte at its place
  have hbyte : ∀ {k : ℤ} {d : ℕ → UInt8} {l : ℤ},
      (MagnetEvent.metadataPiece k d l).ServedBy src infoDictOffset → 0 ≤ k → k < m.pieceCount →
      ∀ b, InPiece k l b → d (b - (k * METADATA_PIECE_SIZE).toNat) = file.getD (infoDictOffset + b) 0 := by
    rintro k d l ⟨buf, hbuf, rfl, hd⟩ h0 hk b hb
    have hkn : k * METADATA_PIECE_SIZE < src.infoDictLength := by
      have := hok.count_lt; rw [hsize] at this; unfold METADATA_PIECE_SIZE at *; omega
    unfold InPiece at hb
    rw [hd _ (by omega), hs.answer_bytes h0 hkn hbuf (by omega)]
    congr 1; omega
  rw [take_drop_eq_map hs.inside, IncompleteMetadata.bytes, IncompleteMetadata.save_metadataSize, hsize,
    Int.toNat_natCast]
  refine List.map_congr_left fun b hb ↦ ?_
  have hb' : b < m.metadataSize.toNat := by rw [hsize]; simpa using hb
  rcases hashed_bytes_delivered h₀ evs hm hw data hlast hb' with ⟨hin, heq⟩ |
    ⟨k, -, hk0, hk, hin, ⟨pre, d, post, hevs, -, -, hfill⟩, heq⟩
  · rw [heq, hbyte he hw.1 hw.2.1 b hin]
  · rw [heq, hfill b hin]
    exact hbyte (hserved (.metadataPiece k d (getPieceLength m k)) (by rw [hevs]; simp)) hk0 hk b hin

end Seeder

/-! ## Progress -/

/-- The installation does not read the incomplete metadata of the torrent it is handed. -/
theorem installMetadata_with (env : MagnetEnv) (tor : Torrent) (x : Option IncompleteMetadata)
    (m : IncompleteMetadata) :
    installMetadata env { tor with incompleteMetadata := x } m =
      ({ (installMetadata env tor m).1 with incompleteMetadata := x }, (installMetadata env tor m).2) := by
  simp only [installMetadata]
  split_ifs
  · rfl
  · split
    · rfl
    · split
      · rfl
      · split
        · rfl
        · split_ifs <;> rfl

theorem finishMetadata_with (env : MagnetEnv) (tor : Torrent) (x : Option IncompleteMetadata)
    (m : IncompleteMetadata) :
    finishMetadata env { tor with incompleteMetadata := x } m = finishMetadata env tor m := by
  unfold finishMetadata
  rw [installMetadata_with]
  rcases installMetadata env tor m with ⟨tor', _ | _⟩ <;> rfl

/-- `piecesNeeded` when the pieces `j ..< N` are needed and none has been asked for. -/
def neededFrom (j N : ℕ) : List MetadataNode :=
  (List.range' j (N - j)).map fun i : ℕ ↦ ⟨0, (i : ℤ)⟩

theorem neededFrom_cons {j N : ℕ} (h : j < N) :
    neededFrom j N = ⟨0, (j : ℤ)⟩ :: neededFrom (j + 1) N := by
  rw [neededFrom, show N - j = (N - (j + 1)) + 1 by omega, List.range'_succ]; rfl

theorem neededFrom_eq_nil {j N : ℕ} : neededFrom j N = [] ↔ N ≤ j := by
  simp only [neededFrom, List.map_eq_nil_iff, List.range'_eq_nil]; omega

theorem piece_ne_of_mem_neededFrom {j N : ℕ} {x : MetadataNode} (hx : x ∈ neededFrom (j + 1) N) :
    x.piece ≠ j := by
  obtain ⟨i, hi, rfl⟩ := List.mem_map.1 hx
  obtain ⟨k, -, rfl⟩ := List.mem_range'.1 hi
  dsimp only; omega

/-- The seeder's answer for piece `i`, empty when it has none. -/
def seederAnswer (src : Torrent) (infoDictOffset i : ℕ) : List UInt8 :=
  (tr_torrentGetMetadataPiece src infoDictOffset i).getD []

/-- Modelled from the spec: the peer wire (`peer-msgs.c`) is not under `src/`.  Round `i` of the
exchange at time `now`: the fetching peer's request, and the delivery of the seeder's answer for
piece `i`. -/
def exchangeRound (src : Torrent) (infoDictOffset : ℕ) (now : ℤ) (i : ℕ) : List MagnetEvent :=
  [.nextRequest now, .metadataPiece i (bufferBytes (seederAnswer src infoDictOffset i))
    (seederAnswer src infoDictOffset i).length]

/-- The first `N` rounds, round `i` at time `now i`. -/
def exchangeRounds (src : Torrent) (infoDictOffset : ℕ) (now : ℕ → ℤ) (N : ℕ) :
    List MagnetEvent :=
  (List.range N).flatMap fun i ↦ exchangeRound src infoDictOffset (now i) i

theorem exchangeRounds_succ (src : Torrent) (infoDictOffset : ℕ) (now : ℕ → ℤ) (N : ℕ) :
    exchangeRounds src infoDictOffset now (N + 1) =
      exchangeRounds src infoDictOffset now N ++ exchangeRound src infoDictOffset (now N) N := by
  simp [exchangeRounds, List.range_succ, List.flatMap_append]

/-- The fetching peer after `j` rounds with the seeder: the torrent it started as, fetching an
incomplete metadata of the dictionary's size and `N` pieces that needs the pieces `j ..< N`, none
asked for yet, and whose buffer holds the dictionary's bytes before piece `j`. -/
def Fetching (src : Torrent) (infoDictOffset : ℕ) (file : List UInt8) (tor₀ : Torrent) (N j : ℕ)
    (tor : Torrent) : Prop :=
  ∃ m : IncompleteMetadata, tor = { tor₀ with incompleteMetadata := some m } ∧ m.Ok ∧
    m.metadataSize = src.infoDictLength ∧ m.pieceCount = N ∧ m.piecesNeeded = neededFrom j N ∧
    ∀ b < src.infoDictLength, (b : ℤ) < j * METADATA_PIECE_SIZE →
      m.metadata b = file.getD (infoDictOffset + b) 0

section Rounds

variable {src : Torrent} {infoDictOffset : ℕ} {file : List UInt8}
  (hs : Seeder src infoDictOffset file) (env : MagnetEnv)
include hs

/-- Saving the seeder's answer for piece `j` extends the dictionary's bytes in the buffer to the
end of piece `j`. -/
theorem Seeder.fill_answer {m : IncompleteMetadata} (hok : m.Ok)
    (hsize : m.metadataSize = src.infoDictLength) {j : ℕ} (hj : (j : ℤ) < m.pieceCount)
    (hfill : ∀ b < src.infoDictLength, (b : ℤ) < j * METADATA_PIECE_SIZE →
      m.metadata b = file.getD (infoDictOffset + b) 0) :
    ∀ b < src.infoDictLength, (b : ℤ) < (j + 1) * METADATA_PIECE_SIZE →
      (m.save j (bufferBytes (seederAnswer src infoDictOffset j))
        (seederAnswer src infoDictOffset j).length).metadata b = file.getD (infoDictOffset + b) 0 := by
  have hjn : (j : ℤ) * METADATA_PIECE_SIZE < src.infoDictLength := by
    have := hok.count_lt; rw [hsize] at this; unfold METADATA_PIECE_SIZE at *; omega
  obtain ⟨buf, hbuf, hlen⟩ := hs.answers (Int.natCast_nonneg j) hjn
  have hstart : ((j : ℤ) * METADATA_PIECE_SIZE).toNat = j * 16384 := by
    unfold METADATA_PIECE_SIZE; omega
  have hl : buf.length = min 16384 (src.infoDictLength - j * 16384) := by
    unfold METADATA_PIECE_SIZE at hlen hjn; omega
  intro b hb hbj
  unfold METADATA_PIECE_SIZE at hbj
  simp only [IncompleteMetadata.save, overwrite, seederAnswer, hbuf, Option.getD_some, hstart,
    Int.toNat_natCast]
  split_ifs with hin
  · rw [hs.answer_bytes (Int.natCast_nonneg j) hjn hbuf (by omega), hstart]
    congr 1; omega
  · exact hfill b hb (by unfold METADATA_PIECE_SIZE; omega)

/-- **One round.**  The request returns the first piece still needed and moves it to the tail;
the seeder's answer for it is wanted, fills its range of the buffer and strikes it off, the
others keeping their order; the peer then fetches the pieces after it, or, when there are none,
installs the buffer, which is the dictionary. -/
theorem Fetching.round {tor₀ tor : Torrent} {N j : ℕ}
    (h : Fetching src infoDictOffset file tor₀ N j tor) (hj : j < N) {now : ℤ}
    (hnow : MIN_REPEAT_INTERVAL_SECS < now) :
    magnetRequests env tor (exchangeRound src infoDictOffset now j) = [(j : ℤ)] ∧
    (j + 1 < N → Fetching src infoDictOffset file tor₀ N (j + 1)
      (magnetRun env tor (exchangeRound src infoDictOffset now j))) ∧
    (j + 1 = N → ∃ m : IncompleteMetadata, m.piecesNeeded = [] ∧
      m.bytes = (file.drop infoDictOffset).take src.infoDictLength ∧
      magnetRun env tor (exchangeRound src infoDictOffset now j) = finishMetadata env tor₀ m) := by
  obtain ⟨m, rfl, hok, hsize, hcount, hneed, hfill⟩ := h
  have hcons : m.piecesNeeded = ⟨0, (j : ℤ)⟩ :: neededFrom (j + 1) N := hneed.trans (neededFrom_cons hj)
  let m₁ : IncompleteMetadata :=
    { m with piecesNeeded := neededFrom (j + 1) N ++ [⟨now, (j : ℤ)⟩] }
  have hok₁ : m₁.Ok := hok.rotate hcons now
  have hreq : tr_torrentGetNextMetadataRequest { tor₀ with incompleteMetadata := some m } now =
      ({ tor₀ with incompleteMetadata := some m₁ }, some (j : ℤ)) := by
    simp only [tr_torrentGetNextMetadataRequest, hcons]
    rw [if_pos (by omega)]
  have hjn : (j : ℤ) * METADATA_PIECE_SIZE < src.infoDictLength := by
    have := hok.count_lt; rw [hsize, hcount] at this; unfold METADATA_PIECE_SIZE at *; omega
  obtain ⟨buf, hbuf, hlen⟩ := hs.answers (Int.natCast_nonneg j) hjn
  have hans : seederAnswer src infoDictOffset j = buf := by rw [seederAnswer, hbuf, Option.getD_some]
  have hw : m₁.Wants j (seederAnswer src infoDictOffset j).length := by
    refine ⟨by omega, show (j : ℤ) < m.pieceCount by omega, ?_, by simp [IncompleteMetadata.pieces, m₁]⟩
    rw [hans, hlen, hok₁.getPieceLength_eq (show (j : ℤ) < m.pieceCount by omega)]
    show min _ (m.metadataSize - _) = _
    rw [hsize]
  have hsave : (m₁.save j (bufferBytes (seederAnswer src infoDictOffset j))
      (seederAnswer src infoDictOffset j).length).piecesNeeded = neededFrom (j + 1) N := by
    simp only [IncompleteMetadata.save, m₁]
    rw [List.eraseP_append_right _ fun x hx h ↦ piece_ne_of_mem_neededFrom hx (of_decide_eq_true h)]
    simp
  have hfill₁ := hs.fill_answer hok₁ hsize (show (j : ℤ) < m.pieceCount by omega) hfill
  have happ : (MagnetEvent.nextRequest now).apply env { tor₀ with incompleteMetadata := some m } =
      { tor₀ with incompleteMetadata := some m₁ } := by
    simp only [MagnetEvent.apply, hreq]
  have hrun : magnetRun env { tor₀ with incompleteMetadata := some m }
      (exchangeRound src infoDictOffset now j) =
      if neededFrom (j + 1) N = [] then
        finishMetadata env tor₀ (m₁.save j (bufferBytes (seederAnswer src infoDictOffset j))
          (seederAnswer src infoDictOffset j).length)
      else { tor₀ with incompleteMetadata := some (m₁.save j
        (bufferBytes (seederAnswer src infoDictOffset j)) (seederAnswer src infoDictOffset j).length) } := by
    rw [exchangeRound, magnetRun_cons, magnetRun_cons, magnetRun_nil, happ]
    simp only [MagnetEvent.apply, tr_torrentSetMetadataPiece_eq, if_pos hw, hsave]
    split_ifs
    · exact finishMetadata_with env tor₀ _ _
    · rfl
  refine ⟨?_, fun hj' ↦ ?_, fun hj' ↦ ?_⟩
  · simp [exchangeRound, magnetRequests, MagnetEvent.requested, hreq, happ]
  · have hne : neededFrom (j + 1) N ≠ [] := mt neededFrom_eq_nil.1 (by omega)
    rw [hrun, if_neg hne]
    exact ⟨_, rfl, hok₁.save _ (hsave ▸ hne), hsize, hcount, hsave, hfill₁⟩
  · have hemp := neededFrom_eq_nil.2 hj'.ge
    refine ⟨_, hsave.trans hemp, ?_, by rw [hrun, if_pos hemp]⟩
    rw [take_drop_eq_map hs.inside, IncompleteMetadata.bytes, IncompleteMetadata.save_metadataSize]
    show (List.range m.metadataSize.toNat).map _ = _
    rw [hsize, Int.toNat_natCast]
    refine List.map_congr_left fun b hb ↦ hfill₁ b (List.mem_range.1 hb) ?_
    have := hok.size_le_count; have := List.mem_range.1 hb
    rw [hsize, hcount] at *; unfold METADATA_PIECE_SIZE at *; omega

/-- The size hint of the dictionary's size starts the fetch, with every piece needed. -/
theorem Seeder.fetching_sizeHint {tor₀ : Torrent} (h₀ : tor₀.incompleteMetadata = none)
    (hmeta : tr_torrentHasMetadata tor₀ = false) :
    Fetching src infoDictOffset file tor₀ (metadataPieceCount src.infoDictLength).toNat 0
      ((MagnetEvent.sizeHint src.infoDictLength).apply env tor₀) := by
  have hn := hs.length_pos
  have hpos := (metadataPieceCount_pos_iff src.infoDictLength).2 ⟨by omega, hs.length_le⟩
  have hc := metadataPieceCount_ceil hpos
  refine ⟨⟨fun _ ↦ 0, src.infoDictLength, metadataPieceCount src.infoDictLength,
    allPiecesNeeded (metadataPieceCount src.infoDictLength)⟩, ?_,
    ok_of_allPiecesNeeded (show (0 : ℤ) < src.infoDictLength by omega) hs.length_le hc.1 hc.2 rfl,
    rfl, by simp only; omega, ?_, fun b _ hb ↦ by unfold METADATA_PIECE_SIZE at hb; omega⟩
  · simp only [MagnetEvent.apply, tr_torrentSetMetadataSizeHint, hmeta, h₀, Option.isSome_none,
      Bool.false_eq_true, not_le.2 hpos, ↓reduceIte]
  · rw [allPiecesNeeded, neededFrom, Nat.sub_zero, List.range_eq_range']

/-- After `j < N` rounds the peer still fetches, needing the pieces `j ..< N`, and has asked for
the pieces `0 ..< j`, in order. -/
theorem exchangeRounds_fetching {tor₀ tor : Torrent} {N : ℕ}
    (h : Fetching src infoDictOffset file tor₀ N 0 tor) (now : ℕ → ℤ)
    (hnow : ∀ i, MIN_REPEAT_INTERVAL_SECS < now i) :
    ∀ j < N, Fetching src infoDictOffset file tor₀ N j
        (magnetRun env tor (exchangeRounds src infoDictOffset now j)) ∧
      magnetRequests env tor (exchangeRounds src infoDictOffset now j) =
        (List.range j).map fun i : ℕ ↦ (i : ℤ) := by
  intro j hj
  induction j with
  | zero => exact ⟨h, rfl⟩
  | succ j ih =>
    obtain ⟨hf, hr⟩ := ih (by omega)
    obtain ⟨hreq, hnext, -⟩ := hf.round hs env (by omega) (hnow j)
    rw [exchangeRounds_succ, magnetRun_append, magnetRequests_append, hr, hreq, List.range_succ,
      List.map_append]
    exact ⟨hnext hj, rfl⟩

/-- **Progress.**  From a fetching peer that needs all `N` pieces, whatever its buffer holds,
`N` rounds of requests and the seeder's answers, at any clock readings past
`MIN_REPEAT_INTERVAL_SECS`, ask for the pieces `0, 1, …, N - 1` in that order and end in the
installation of a complete buffer that holds the dictionary. -/
theorem exchangeRounds_install {tor₀ tor : Torrent} {N : ℕ}
    (h : Fetching src infoDictOffset file tor₀ N 0 tor) (hN : 0 < N) (now : ℕ → ℤ)
    (hnow : ∀ i, MIN_REPEAT_INTERVAL_SECS < now i) :
    magnetRequests env tor (exchangeRounds src infoDictOffset now N) =
      (List.range N).map (fun i : ℕ ↦ (i : ℤ)) ∧
    ∃ m : IncompleteMetadata, m.piecesNeeded = [] ∧
      m.bytes = (file.drop infoDictOffset).take src.infoDictLength ∧
      magnetRun env tor (exchangeRounds src infoDictOffset now N) = finishMetadata env tor₀ m := by
  obtain ⟨K, rfl⟩ : ∃ K, N = K + 1 := ⟨N - 1, by omega⟩
  obtain ⟨hf, hr⟩ := exchangeRounds_fetching hs env h now hnow K (by omega)
  obtain ⟨hreq, -, hlast⟩ := hf.round hs env (by omega) (hnow K)
  rw [exchangeRounds_succ, magnetRequests_append, magnetRun_append, hr, hreq, List.range_succ,
    List.map_append]
  exact ⟨rfl, hlast rfl⟩

/-- From a torrent with neither metadata nor incomplete metadata, the size hint of the
dictionary's size and `pieceCount` rounds ask for every piece once, in order, and install the
dictionary. -/
theorem exchange_rounds {tor₀ : Torrent} (h₀ : tor₀.incompleteMetadata = none)
    (hmeta : tr_torrentHasMetadata tor₀ = false) (now : ℕ → ℤ)
    (hnow : ∀ i, MIN_REPEAT_INTERVAL_SECS < now i) :
    magnetRequests env tor₀ (.sizeHint src.infoDictLength ::
        exchangeRounds src infoDictOffset now (metadataPieceCount src.infoDictLength).toNat) =
      (List.range (metadataPieceCount src.infoDictLength).toNat).map (fun i : ℕ ↦ (i : ℤ)) ∧
    ∃ m : IncompleteMetadata, m.piecesNeeded = [] ∧
      m.bytes = (file.drop infoDictOffset).take src.infoDictLength ∧
      magnetRun env tor₀ (.sizeHint src.infoDictLength ::
        exchangeRounds src infoDictOffset now (metadataPieceCount src.infoDictLength).toNat) =
        finishMetadata env tor₀ m := by
  have hpos := (metadataPieceCount_pos_iff _).2 ⟨by have := hs.length_pos; omega, hs.length_le⟩
  simp only [magnetRequests, magnetRun_cons, MagnetEvent.requested, Option.toList_none,
    List.nil_append]
  exact exchangeRounds_install hs env (hs.fetching_sizeHint env h₀ hmeta) (by omega) now hnow

end Rounds

/-- **The metadata exchange.**  Between a seeder and a torrent without incomplete metadata:

* in every run whose deliveries the seeder serves, a delivery that completes an incomplete
  metadata of the dictionary's size installs a buffer that is the dictionary;
* from a torrent without metadata, the size hint and `pieceCount` rounds ask for each piece
  once, in order, and install the dictionary. -/
theorem metadata_exchange {src : Torrent} {infoDictOffset : ℕ} {file : List UInt8}
    (hs : Seeder src infoDictOffset file) (env : MagnetEnv) {tor₀ : Torrent}
    (h₀ : tor₀.incompleteMetadata = none) :
    (∀ (evs : List MagnetEvent) (piece : ℤ) (data : ℕ → UInt8) (len : ℤ) (m : IncompleteMetadata),
      (∀ e ∈ evs ++ [.metadataPiece piece data len], e.ServedBy src infoDictOffset) →
      (magnetRun env tor₀ evs).incompleteMetadata = some m →
      m.metadataSize = src.infoDictLength → m.Wants piece len →
      (m.save piece data len).piecesNeeded = [] →
      magnetRun env tor₀ (evs ++ [.metadataPiece piece data len]) =
        finishMetadata env (magnetRun env tor₀ evs) (m.save piece data len) ∧
      (m.save piece data len).bytes = (file.drop infoDictOffset).take src.infoDictLength) ∧
    (tr_torrentHasMetadata tor₀ = false → ∀ now : ℕ → ℤ, (∀ i, MIN_REPEAT_INTERVAL_SECS < now i) →
      magnetRequests env tor₀ (.sizeHint src.infoDictLength ::
          exchangeRounds src infoDictOffset now (metadataPieceCount src.infoDictLength).toNat) =
        (List.range (metadataPieceCount src.infoDictLength).toNat).map (fun i : ℕ ↦ (i : ℤ)) ∧
      ∃ m : IncompleteMetadata, m.piecesNeeded = [] ∧
        m.bytes = (file.drop infoDictOffset).take src.infoDictLength ∧
        magnetRun env tor₀ (.sizeHint src.infoDictLength ::
          exchangeRounds src infoDictOffset now (metadataPieceCount src.infoDictLength).toNat) =
          finishMetadata env tor₀ m) := by
  refine ⟨fun evs piece data len m hserved hm hsize hw hlast ↦ ⟨?_, ?_⟩,
    fun hmeta now hnow ↦ exchange_rounds hs env h₀ hmeta now hnow⟩
  · rw [magnetRun_append, magnetRun_cons, magnetRun_nil, MagnetEvent.apply,
      tr_torrentSetMetadataPiece_eq]
    simp only [hm, if_pos hw, if_pos hlast]
  · exact hashed_bytes_served hs h₀ (fun e he ↦ hserved e (List.mem_append_left _ he)) hm hsize
      (hserved _ (List.mem_append_right _ (List.mem_singleton_self _))) hw hlast

/-- A seeder of a dictionary of two pieces, `16385` bytes of `7`. -/
def twoPieceServer : Torrent :=
  { magnetTorrent [] "a.torrent" (List.replicate 16385 7) with
    info := ⟨[], "a.torrent", [⟨1, 0, false, "f"⟩], 1, 1, 1⟩
    infoDictLength := 16385 }

/-- The two pieces of `twoPieceServer`'s dictionary, fetched by a magnet link in two rounds that
ask for piece `0`, then piece `1`. -/
theorem metadata_exchange_twoPieceServer :
    Seeder twoPieceServer 0 (List.replicate 16385 7) ∧
    (magnetTorrent [] "b.torrent" []).incompleteMetadata = none ∧
    tr_torrentHasMetadata (magnetTorrent [] "b.torrent" []) = false ∧
    magnetRequests literalEnv (magnetTorrent [] "b.torrent" [])
        (.sizeHint 16385 :: exchangeRounds twoPieceServer 0 (fun _ ↦ 4) 2) = [0, 1] ∧
    ∃ m : IncompleteMetadata, m.piecesNeeded = [] ∧ m.bytes = List.replicate 16385 7 ∧
      magnetRun literalEnv (magnetTorrent [] "b.torrent" [])
          (.sizeHint 16385 :: exchangeRounds twoPieceServer 0 (fun _ ↦ 4) 2) =
        finishMetadata literalEnv (magnetTorrent [] "b.torrent" []) m := by
  have hs : Seeder twoPieceServer 0 (List.replicate 16385 7) :=
    ⟨rfl, rfl, by decide, by decide, by rw [List.length_replicate]; decide, by decide⟩
  obtain ⟨-, hprog⟩ :=
    @metadata_exchange _ _ _ hs literalEnv (magnetTorrent [] "b.torrent" []) rfl
  obtain ⟨hreq, m, h1, h2, h3⟩ :=
    hprog rfl (fun _ ↦ 4) fun _ ↦ show MIN_REPEAT_INTERVAL_SECS < 4 by decide
  have hN : (metadataPieceCount twoPieceServer.infoDictLength).toNat = 2 := by decide
  rw [hN] at hreq h3
  refine ⟨hs, rfl, rfl, hreq, m, h1, ?_, h3⟩
  rw [h2, List.drop_zero, List.take_replicate]
  rfl

/-- **A failed installation is retried to the end.**  From a torrent without incomplete metadata,
after any run of calls that leaves an incomplete metadata of the dictionary's size with every piece
needed and none asked for (as the size hint creates it, or as a failed installation resets it,
whatever its buffer then holds), `pieceCount` rounds of requests and the seeder's answers, at any
clock readings past `MIN_REPEAT_INTERVAL_SECS`, ask for every piece once, in order, and end in the
installation of a buffer that is the dictionary. -/
theorem metadata_retry {src : Torrent} {infoDictOffset : ℕ} {file : List UInt8}
    (hs : Seeder src infoDictOffset file) (env : MagnetEnv) {tor₀ : Torrent}
    (h₀ : tor₀.incompleteMetadata = none) (evs : List MagnetEvent) {m : IncompleteMetadata}
    (hm : (magnetRun env tor₀ evs).incompleteMetadata = some m)
    (hsize : m.metadataSize = src.infoDictLength)
    (hall : m.piecesNeeded = allPiecesNeeded m.pieceCount) (now : ℕ → ℤ)
    (hnow : ∀ i, MIN_REPEAT_INTERVAL_SECS < now i) :
    magnetRequests env tor₀ (evs ++ exchangeRounds src infoDictOffset now m.pieceCount.toNat) =
      magnetRequests env tor₀ evs ++ (List.range m.pieceCount.toNat).map (fun i : ℕ ↦ (i : ℤ)) ∧
    ∃ m' : IncompleteMetadata, m'.bytes = (file.drop infoDictOffset).take src.infoDictLength ∧
      magnetRun env tor₀ (evs ++ exchangeRounds src infoDictOffset now m.pieceCount.toNat) =
        finishMetadata env (magnetRun env tor₀ evs) m' := by
  have hok := (metadataInv_run h₀ evs m hm).1
  have hpos := hok.pieceCount_pos
  have hT : magnetRun env tor₀ evs =
      { magnetRun env tor₀ evs with incompleteMetadata := some m } := by
    rw [← hm]
  have hF : Fetching src infoDictOffset file (magnetRun env tor₀ evs) m.pieceCount.toNat 0
      (magnetRun env tor₀ evs) :=
    ⟨m, hT, hok, hsize, by omega, by rw [hall, allPiecesNeeded, neededFrom, Nat.sub_zero,
      List.range_eq_range'], fun b _ hb ↦ by unfold METADATA_PIECE_SIZE at hb; omega⟩
  obtain ⟨hreq, m', -, hbytes, hrun⟩ := exchangeRounds_install hs env hF (by omega) now hnow
  rw [magnetRequests_append, magnetRun_append, hreq]
  exact ⟨rfl, m', hbytes, hrun⟩

/-- A one-byte assembly `5` that fails the checksum `7` of `literalEnv`, and is reset. -/
def badFirstPiece : List MagnetEvent :=
  [.sizeHint 1, .nextRequest 4, .metadataPiece 0 (fun _ ↦ 5) 1]

/-- After the assembly `5` fails the checksum, one round with `oneByteServer` hashes its
dictionary `7`. -/
theorem metadata_retry_badFirstPiece :
    Seeder oneByteServer 0 [7] ∧ (magnetTorrent [7] "b.torrent" []).incompleteMetadata = none ∧
    ∃ m : IncompleteMetadata,
      (magnetRun literalEnv (magnetTorrent [7] "b.torrent" []) badFirstPiece).incompleteMetadata =
        some m ∧ m.metadataSize = 1 ∧ m.piecesNeeded = allPiecesNeeded m.pieceCount ∧
      ∃ m' : IncompleteMetadata, m'.bytes = [7] ∧
        magnetRun literalEnv (magnetTorrent [7] "b.torrent" [])
            (badFirstPiece ++ exchangeRounds oneByteServer 0 (fun _ ↦ 4) 1) =
          finishMetadata literalEnv
            (magnetRun literalEnv (magnetTorrent [7] "b.torrent" []) badFirstPiece) m' := by
  have hs : Seeder oneByteServer 0 [7] :=
    ⟨rfl, rfl, by decide, by decide, by decide, by decide⟩
  refine ⟨hs, rfl, _, rfl, rfl, rfl, ?_⟩
  obtain ⟨-, m', hbytes, hrun⟩ := @metadata_retry _ _ _ hs literalEnv
    (magnetTorrent [7] "b.torrent" []) rfl badFirstPiece _ rfl rfl rfl (fun _ ↦ 4)
    fun _ ↦ show MIN_REPEAT_INTERVAL_SECS < 4 by decide
  exact ⟨m', hbytes, hrun⟩

end Transmission
