import Transmission.Variant

/-!
# Acquiring the metadata of a magnet link

A torrent started from a magnet link knows only its infohash.  Its info dictionary is fetched
from peers in `METADATA_PIECE_SIZE` pieces, assembled in `tr_incomplete_metadata`, checked against
the infohash, parsed, merged into the torrent's `.torrent` container, and installed.  This file
models the three entry points of `torrent-magnet.c` that drive it:

* `tr_torrentSetMetadataSizeHint` creates the incomplete metadata, with every piece needed;
* `tr_torrentGetNextMetadataRequest` rotates the head of `piecesNeeded` — the piece least
  recently asked for — to the tail, unless it was asked for too recently;
* `tr_torrentSetMetadataPiece` copies a delivered piece into the buffer and strikes it from
  `piecesNeeded`; when none is left it runs the installation sequence, and resets the list to
  every piece when that fails.

The installation sequence calls code that is not under `src/` — SHA-1, the bencode parser and
printer, `tr_metainfoParse`, `tr_getBlockSize` — and the model takes it as a `MagnetEnv`, so that
everything proved about the state machine holds whatever those functions compute.  The files of
the session directory are a map from paths to contents, which is what the sequence reads, removes
and writes.
-/

set_option autoImplicit false

namespace Transmission

/-- Modelled from the spec: `METADATA_PIECE_SIZE` (of `torrent-magnet.h`, not under `src/`), the
size of every metadata piece but the last, `16384` in the spec. -/
def METADATA_PIECE_SIZE : ℤ := 16384

/-- Do not ask for the same metadata piece more often than this. -/
def MIN_REPEAT_INTERVAL_SECS : ℤ := 3

/-- `INT_MAX` of a 32-bit `int`. -/
def INT_MAX : ℤ := 2147483647

/-- An entry of `piecesNeeded`: a piece, and when it was last asked for (`0`: never). -/
structure MetadataNode where
  requestedAt : ℤ
  piece : ℤ
  deriving DecidableEq, Repr

/-- `tr_incomplete_metadata`. -/
structure IncompleteMetadata where
  /-- The buffer the pieces are copied into, `metadata_size` bytes long. -/
  metadata : ℕ → UInt8
  /-- `metadata_size`. -/
  metadataSize : ℤ
  /-- `pieceCount`. -/
  pieceCount : ℤ
  /-- `piecesNeeded[0 .. piecesNeededCount)`, sorted from least to most recently requested. -/
  piecesNeeded : List MetadataNode

/-- The files of the session directory: the contents of the file at each path, if any. -/
abbrev Files := String → Option (List UInt8)

/-- `tr_sys_path_remove`. -/
def Files.remove (fs : Files) (path : String) : Files :=
  Function.update fs path none

/-- Writing a whole file. -/
def Files.write (fs : Files) (path : String) (contents : List UInt8) : Files :=
  Function.update fs path (some contents)

/-- `tr_torrent`, with the fields the magnet code reads and writes. -/
structure Torrent where
  /-- `tor->info`. -/
  info : TrInfo
  /-- `tor->infoDictLength`. -/
  infoDictLength : ℕ
  /-- `tor->incompleteMetadata`. -/
  incompleteMetadata : Option IncompleteMetadata
  /-- The message of `tr_torrentSetLocalError`, once set. -/
  localError : Option String
  isStopping : Bool
  magnetVerify : Bool
  startAfterVerify : Bool
  prefetchMagnetMetadata : Bool
  /-- Set by `tr_torrentSetDirty`. -/
  isDirty : Bool
  /-- Set by `tr_torrentMarkEdited`. -/
  edited : Bool
  /-- The session directory, with the `.torrent` and `.resume` files. -/
  files : Files

/-- The code the installation sequence calls that is not under `src/`. -/
structure MagnetEnv where
  /-- `tr_sha1`. -/
  sha1 : List UInt8 → List UInt8
  /-- `tr_variantFromBenc`: the value a byte string bencodes, if it parses. -/
  variantFromBenc : List UInt8 → Option Variant
  /-- The bencoding `tr_variantToFile` writes. -/
  variantToBenc : Variant → List UInt8
  /-- `tr_variantMergeDicts(tr_variantDictAddDict(&newMetainfo, TR_KEY_info, 0), &infoDict)`:
  the container with the info dictionary merged in under `info`. -/
  mergeInfoDict : Variant → Variant → Variant
  /-- `tr_metainfoParse`: the `tr_info` of a container and the length of its info dictionary. -/
  metainfoParse : Variant → Option (TrInfo × ℕ)
  /-- `tr_getBlockSize`: the block size for a piece size, `0` when none fits. -/
  getBlockSize : ℕ → ℕ
  /-- The path of the torrent's `.resume` file, which `tr_torrentRemoveResume` removes. -/
  resumePath : String

/-- Modelled from the spec: `tr_torrentHasMetadata` (of `torrent.h`, not under `src/`).  A
torrent has metadata once its info describes its files. -/
def tr_torrentHasMetadata (tor : Torrent) : Bool :=
  0 < tor.info.fileCount

/-! ## The size hint -/

/-- `piecesNeeded[i] = {0, i}` for every piece `i < n`. -/
def allPiecesNeeded (n : ℤ) : List MetadataNode :=
  (List.range n.toNat).map fun i : ℕ ↦ ⟨0, (i : ℤ)⟩

/-- The `n` of `tr_torrentSetMetadataSizeHint`: the number of pieces of a size in
`(0, INT_MAX]`, and `-1` for any other size. -/
def metadataPieceCount (size : ℤ) : ℤ :=
  if size ≤ 0 ∨ size > INT_MAX then -1
  else size / METADATA_PIECE_SIZE + (if size % METADATA_PIECE_SIZE ≠ 0 then 1 else 0)

/-- `tr_torrentSetMetadataSizeHint`: unless the torrent has metadata or is already fetching it,
and if the size is in `(0, INT_MAX]`, create the incomplete metadata with every piece needed.
Returns whether it did.  (Allocation is taken to succeed.) -/
def tr_torrentSetMetadataSizeHint (tor : Torrent) (size : ℤ) : Torrent × Bool :=
  if tr_torrentHasMetadata tor then (tor, false)
  else if tor.incompleteMetadata.isSome then (tor, false)
  else
    let n := metadataPieceCount size
    if n ≤ 0 then (tor, false)
    else ({ tor with incompleteMetadata := some (
      { metadata := fun _ ↦ 0, metadataSize := size, pieceCount := n,
        piecesNeeded := allPiecesNeeded n }) }, true)

/-- The piece count is positive exactly for the sizes in `(0, INT_MAX]`, and is then
`ceil(size / METADATA_PIECE_SIZE)`. -/
theorem metadataPieceCount_pos_iff (size : ℤ) :
    0 < metadataPieceCount size ↔ 0 < size ∧ size ≤ INT_MAX := by
  unfold metadataPieceCount METADATA_PIECE_SIZE INT_MAX
  split <;> [omega; (split <;> omega)]

theorem metadataPieceCount_ceil {size : ℤ} (h : 0 < metadataPieceCount size) :
    (metadataPieceCount size - 1) * METADATA_PIECE_SIZE < size ∧
      size ≤ metadataPieceCount size * METADATA_PIECE_SIZE := by
  unfold metadataPieceCount METADATA_PIECE_SIZE at *
  split at h <;> [omega; (split <;> split at h <;> omega)]

/-- **The size hint, case by case.**  Either nothing changes, or the torrent had neither metadata
nor incomplete metadata, the size is in `(0, INT_MAX]`, and the incomplete metadata is created
with `ceil(size / METADATA_PIECE_SIZE)` pieces, all needed. -/
theorem tr_torrentSetMetadataSizeHint_spec (tor : Torrent) (size : ℤ) :
    (tr_torrentSetMetadataSizeHint tor size).2 = false ∧ (tr_torrentSetMetadataSizeHint tor size).1 = tor ∨
    (tr_torrentSetMetadataSizeHint tor size).2 = true ∧ tor.incompleteMetadata = none ∧
      0 < size ∧ size ≤ INT_MAX ∧ ∃ n : ℤ,
        (n - 1) * METADATA_PIECE_SIZE < size ∧ size ≤ n * METADATA_PIECE_SIZE ∧
        (tr_torrentSetMetadataSizeHint tor size).1 = { tor with incompleteMetadata := some (
          { metadata := fun _ ↦ 0, metadataSize := size, pieceCount := n,
            piecesNeeded := allPiecesNeeded n }) } := by
  unfold tr_torrentSetMetadataSizeHint
  split
  · exact .inl ⟨rfl, rfl⟩
  split
  · exact .inl ⟨rfl, rfl⟩
  rename_i hm
  dsimp only
  split
  · exact .inl ⟨rfl, rfl⟩
  rename_i hn
  have hs := (metadataPieceCount_pos_iff size).1 (by omega)
  exact .inr ⟨rfl, by simpa using hm, hs.1, hs.2, _,
    (metadataPieceCount_ceil (by omega)).1, (metadataPieceCount_ceil (by omega)).2, rfl⟩

/-! ## Requests -/

/-- `tr_torrentGetNextMetadataRequest`: the piece to ask for at time `now`, if any.  The head of
`piecesNeeded` is asked for unless it was asked for `MIN_REPEAT_INTERVAL_SECS` or less ago; it
then moves to the tail, stamped with `now`. -/
def tr_torrentGetNextMetadataRequest (tor : Torrent) (now : ℤ) : Torrent × Option ℤ :=
  match tor.incompleteMetadata with
  | some m =>
    match m.piecesNeeded with
    | head :: rest =>
      if head.requestedAt + MIN_REPEAT_INTERVAL_SECS < now then
        ({ tor with incompleteMetadata := some ({ m with piecesNeeded := rest ++ [⟨now, head.piece⟩] }) },
          some head.piece)
      else (tor, none)
    | [] => (tor, none)
  | none => (tor, none)

/-- **A request, case by case.**  Either nothing changes and no piece is returned, because the
head of `piecesNeeded` (if any) was asked for too recently; or the head was asked for more than
`MIN_REPEAT_INTERVAL_SECS` before `now`, is returned, and moves to the tail stamped with `now`. -/
theorem tr_torrentGetNextMetadataRequest_spec (tor : Torrent) (now : ℤ) :
    (tr_torrentGetNextMetadataRequest tor now).2 = none ∧
      (tr_torrentGetNextMetadataRequest tor now).1 = tor ∧
      (∀ m, tor.incompleteMetadata = some m → ∀ head ∈ m.piecesNeeded.head?,
        now ≤ head.requestedAt + MIN_REPEAT_INTERVAL_SECS) ∨
    ∃ m head rest, tor.incompleteMetadata = some m ∧ m.piecesNeeded = head :: rest ∧
      head.requestedAt + MIN_REPEAT_INTERVAL_SECS < now ∧
      (tr_torrentGetNextMetadataRequest tor now).2 = some head.piece ∧
      (tr_torrentGetNextMetadataRequest tor now).1 =
        { tor with incompleteMetadata := some ({ m with piecesNeeded := rest ++ [⟨now, head.piece⟩] }) } := by
  unfold tr_torrentGetNextMetadataRequest
  split
  · rename_i m hm
    split
    · rename_i head rest hl
      split
      · exact .inr ⟨m, head, rest, hm, hl, ‹_›, rfl, rfl⟩
      · refine .inl ⟨rfl, rfl, fun m' hm' h hh ↦ ?_⟩
        obtain rfl : m = m' := Option.some.inj (hm.symm.trans hm')
        rw [hl] at hh; obtain rfl := Option.some.inj hh; omega
    · refine .inl ⟨rfl, rfl, fun m' hm' h hh ↦ ?_⟩
      obtain rfl : m = m' := Option.some.inj (hm.symm.trans hm')
      simp [*] at hh
  · exact .inl ⟨rfl, rfl, fun m' hm' ↦ by simp_all⟩

/-! ## Deliveries -/

/-- `getPieceNeededIndex`: the position of `piece` in `piecesNeeded`, or `-1`. -/
def getPieceNeededIndex (m : IncompleteMetadata) (piece : ℤ) : ℤ :=
  match m.piecesNeeded.findIdx? fun node ↦ node.piece = piece with
  | some i => i
  | none => -1

/-- `getPieceLength`: `METADATA_PIECE_SIZE`, except for the last piece, which holds the rest. -/
def getPieceLength (m : IncompleteMetadata) (piece : ℤ) : ℤ :=
  if piece + 1 = m.pieceCount then m.metadataSize - piece * METADATA_PIECE_SIZE
  else METADATA_PIECE_SIZE

/-- The bytes `tr_sha1` hashes: the whole buffer. -/
def IncompleteMetadata.bytes (m : IncompleteMetadata) : List UInt8 :=
  (List.range m.metadataSize.toNat).map m.metadata

/-- The installation sequence, from the checksum test to the new `.torrent` file: the torrent
after it, and whether it succeeded.  The old `.torrent` and `.resume` files are removed as soon
as the container is loaded, before `tr_metainfoParse` and the block size are checked. -/
def installMetadata (env : MagnetEnv) (tor : Torrent) (m : IncompleteMetadata) : Torrent × Bool :=
  if env.sha1 m.bytes ≠ tor.info.hash then (tor, false)
  else match env.variantFromBenc m.bytes with
    | none => (tor, false)
    | some infoDict =>
      let path := tor.info.torrent
      match (tor.files path).bind env.variantFromBenc with
      | none => (tor, false)
      | some newMetainfo =>
        let tor₁ := { tor with files := (tor.files.remove path).remove env.resumePath }
        let newMetainfo := env.mergeInfoDict newMetainfo infoDict
        match env.metainfoParse newMetainfo with
        | none => (tor₁, false)
        | some (info, infoDictLength) =>
          if env.getBlockSize info.pieceSize = 0 then
            ({ tor₁ with localError := some "Magnet torrent's metadata is not usable" }, false)
          else
            ({ tor₁ with
                info := info
                infoDictLength := infoDictLength
                isDirty := true
                files := tor₁.files.write info.torrent (env.variantToBenc newMetainfo) }, true)

/-- The incomplete metadata after a failed installation: every piece needed again, never asked
for, and the buffer kept. -/
def IncompleteMetadata.reset (m : IncompleteMetadata) : IncompleteMetadata :=
  { m with piecesNeeded := allPiecesNeeded m.pieceCount }

/-- What `tr_torrentSetMetadataPiece` does once no piece is needed: on success free the
incomplete metadata and schedule the stop and verify; otherwise ask for every piece again,
keeping the buffer. -/
def finishMetadata (env : MagnetEnv) (tor : Torrent) (m : IncompleteMetadata) : Torrent :=
  match installMetadata env tor m with
  | (tor', true) =>
    { tor' with
      incompleteMetadata := none
      isStopping := true
      magnetVerify := true
      startAfterVerify := !tor'.prefetchMagnetMetadata
      edited := true }
  | (tor', false) => { tor' with incompleteMetadata := some m.reset }

/-- Finishing either installs the metadata, freeing the incomplete metadata, or resets it. -/
theorem finishMetadata_incompleteMetadata (env : MagnetEnv) (tor : Torrent) (m : IncompleteMetadata) :
    (finishMetadata env tor m).incompleteMetadata = none ∨
      (finishMetadata env tor m).incompleteMetadata = some m.reset := by
  unfold finishMetadata; split <;> simp

/-- `tr_torrentSetMetadataPiece`: drop the piece unless the torrent is fetching metadata, the
piece is in range, has the right length and is still needed; otherwise copy it into the buffer,
strike it from `piecesNeeded`, and finish when that was the last one. -/
def tr_torrentSetMetadataPiece (env : MagnetEnv) (tor : Torrent) (piece : ℤ) (data : ℕ → UInt8)
    (len : ℤ) : Torrent :=
  match tor.incompleteMetadata with
  | none => tor
  | some m =>
    if piece < 0 ∨ piece ≥ m.pieceCount then tor
    else if getPieceLength m piece ≠ len then tor
    else
      let idx := getPieceNeededIndex m piece
      if idx = -1 then tor
      else
        let m' := { m with
          metadata := overwrite m.metadata (piece * METADATA_PIECE_SIZE).toNat len.toNat data
          piecesNeeded := m.piecesNeeded.eraseIdx idx.toNat }
        if m'.piecesNeeded.length = 0 then finishMetadata env tor m'
        else { tor with incompleteMetadata := some m' }

/-! ## What each call does

One lemma per entry point says everything it can do to the incomplete metadata; the invariants
of `Transmission.Magnet.Invariant` and `Transmission.Magnet.Queue` are derived from these and never
unfold the calls again. -/

namespace IncompleteMetadata

/-- The pieces still needed, in queue order. -/
def pieces (m : IncompleteMetadata) : List ℤ :=
  m.piecesNeeded.map MetadataNode.piece

/-- A delivery `tr_torrentSetMetadataPiece` keeps: the piece is in range, has the right length,
and is still needed. -/
def Wants (m : IncompleteMetadata) (piece len : ℤ) : Prop :=
  0 ≤ piece ∧ piece < m.pieceCount ∧ getPieceLength m piece = len ∧ piece ∈ m.pieces

instance (m : IncompleteMetadata) (piece len : ℤ) : Decidable (m.Wants piece len) :=
  inferInstanceAs (Decidable (_ ∧ _ ∧ _ ∧ _))

/-- The incomplete metadata after a kept delivery: the piece copied into the buffer, and its
entry struck from `piecesNeeded`, the others keeping their order. -/
def save (m : IncompleteMetadata) (piece : ℤ) (data : ℕ → UInt8) (len : ℤ) : IncompleteMetadata :=
  { m with
    metadata := overwrite m.metadata (piece * METADATA_PIECE_SIZE).toNat len.toNat data
    piecesNeeded := m.piecesNeeded.eraseP fun node ↦ node.piece = piece }

@[simp] theorem save_pieceCount (m : IncompleteMetadata) (piece : ℤ) (data : ℕ → UInt8) (len : ℤ) :
    (m.save piece data len).pieceCount = m.pieceCount := rfl

@[simp] theorem save_metadataSize (m : IncompleteMetadata) (piece : ℤ) (data : ℕ → UInt8)
    (len : ℤ) : (m.save piece data len).metadataSize = m.metadataSize := rfl

@[simp] theorem reset_pieceCount (m : IncompleteMetadata) : m.reset.pieceCount = m.pieceCount :=
  rfl

@[simp] theorem reset_metadataSize (m : IncompleteMetadata) :
    m.reset.metadataSize = m.metadataSize := rfl

@[simp] theorem reset_metadata (m : IncompleteMetadata) : m.reset.metadata = m.metadata := rfl

theorem save_pieces (m : IncompleteMetadata) (piece : ℤ) (data : ℕ → UInt8) (len : ℤ) :
    (m.save piece data len).pieces = m.pieces.erase piece := by
  simp only [pieces, save, List.erase_eq_eraseP, List.eraseP_map]
  congr 2
  funext node
  by_cases h : node.piece = piece <;> simp [h, Ne.symm]

end IncompleteMetadata

theorem eraseIdx_eq_eraseP {α : Type} {p : α → Bool} :
    ∀ {l : List α} {i : ℕ}, l.findIdx? p = some i → l.eraseIdx i = l.eraseP p
  | [], _, h => by simp at h
  | a :: l, i, h => by
    by_cases ha : p a
    · obtain rfl : 0 = i := by simpa [ha] using h
      simp [ha]
    · simp only [List.findIdx?_cons, ha, List.findIdx?_succ] at h
      obtain ⟨j, hj, rfl⟩ := Option.map_eq_some'.1 (by simpa using h)
      simp [ha, eraseIdx_eq_eraseP hj]

theorem getPieceNeededIndex_eq_neg_one_iff (m : IncompleteMetadata) (piece : ℤ) :
    getPieceNeededIndex m piece = -1 ↔ piece ∉ m.pieces := by
  unfold getPieceNeededIndex IncompleteMetadata.pieces
  split
  · rename_i i h
    have := (List.findIdx?_eq_some_iff_getElem.1 h)
    simp only [decide_eq_true_eq] at this
    obtain ⟨hi, hp, -⟩ := this
    simp only [List.mem_map, not_exists, not_and]
    exact ⟨by omega, fun h' ↦ (h' _ (List.getElem_mem hi) hp).elim⟩
  · rename_i h
    simp only [List.findIdx?_eq_none_iff, decide_eq_true_eq] at h
    simpa using fun node hn ↦ h node hn

/-- **`tr_torrentSetMetadataPiece`, case by case.**  A delivery the incomplete metadata does not
want changes nothing; one it wants is saved, and finishes the metadata when it was the last. -/
theorem tr_torrentSetMetadataPiece_eq (env : MagnetEnv) (tor : Torrent) (piece : ℤ)
    (data : ℕ → UInt8) (len : ℤ) :
    tr_torrentSetMetadataPiece env tor piece data len =
      match tor.incompleteMetadata with
      | none => tor
      | some m =>
        if m.Wants piece len then
          if (m.save piece data len).piecesNeeded = [] then finishMetadata env tor (m.save piece data len)
          else { tor with incompleteMetadata := some (m.save piece data len) }
        else tor := by
  unfold tr_torrentSetMetadataPiece
  split
  · rfl
  · rename_i m _
    by_cases hr : piece < 0 ∨ piece ≥ m.pieceCount
    · rw [if_pos hr, if_neg (by unfold IncompleteMetadata.Wants; omega)]
    by_cases hl : getPieceLength m piece ≠ len
    · rw [if_neg hr, if_pos hl, if_neg (by unfold IncompleteMetadata.Wants; tauto)]
    by_cases hn : getPieceNeededIndex m piece = -1
    · rw [if_neg hr, if_neg hl, if_pos hn,
        if_neg (by unfold IncompleteMetadata.Wants; rw [getPieceNeededIndex_eq_neg_one_iff] at hn; tauto)]
    have hw : m.Wants piece len :=
      ⟨by omega, by omega, by simpa using hl, by rwa [getPieceNeededIndex_eq_neg_one_iff, not_not] at hn⟩
    rw [if_neg hr, if_neg hl, if_neg hn, if_pos hw]
    have heq : m.piecesNeeded.eraseIdx (getPieceNeededIndex m piece).toNat =
        m.piecesNeeded.eraseP fun node ↦ node.piece = piece := by
      unfold getPieceNeededIndex at hn ⊢
      split at hn
      · rename_i i h; simpa using eraseIdx_eq_eraseP h
      · exact absurd rfl hn
    simp only [heq, List.length_eq_zero]
    rfl

end Transmission
