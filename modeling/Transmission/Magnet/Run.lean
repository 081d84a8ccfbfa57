import Transmission.Magnet.Metadata

/-!
# Runs of the metadata exchange

The session drives the metadata exchange of a torrent with three kinds of call, in any order
and with any arguments: a size hint from a peer, a metadata piece from a peer, and a tick asking
for the next piece to request.  A run is a list of such calls, `MagnetEvent`s, applied in order.

Properties of the exchange speak of what happens "since the last reset" or "with no reset in
between".  The incomplete metadata is replaced at two kinds of step: a size hint that creates it,
and a delivery that empties `piecesNeeded`, after which it is either installed (and freed) or
reset to every piece.  `MagnetEvent.Renews` names those steps, and `Steady` says that none of the
steps of a stretch of a run is one of them.

`MagnetEvent.apply_cases` is the one inversion lemma of the section: everything one call can do
to the incomplete metadata, guards included.  The invariants are derived from it.
-/

set_option autoImplicit false

namespace Transmission

/-- A call into the metadata exchange. -/
inductive MagnetEvent
  /-- `tr_torrentSetMetadataSizeHint(tor, size)`. -/
  | sizeHint (size : ℤ)
  /-- `tr_torrentSetMetadataPiece(tor, piece, data, len)`. -/
  | metadataPiece (piece : ℤ) (data : ℕ → UInt8) (len : ℤ)
  /-- `tr_torrentGetNextMetadataRequest(tor, now, &piece)`. -/
  | nextRequest (now : ℤ)

namespace MagnetEvent

variable (env : MagnetEnv)

/-- The torrent after the call. -/
def apply (tor : Torrent) : MagnetEvent → Torrent
  | sizeHint size => (tr_torrentSetMetadataSizeHint tor size).1
  | metadataPiece piece data len => tr_torrentSetMetadataPiece env tor piece data len
  | nextRequest now => (tr_torrentGetNextMetadataRequest tor now).1

/-- The piece a call returns for requesting: only a request that is not throttled returns one. -/
def requested (tor : Torrent) : MagnetEvent → Option ℤ
  | nextRequest now => (tr_torrentGetNextMetadataRequest tor now).2
  | _ => none

/-- The call replaces the incomplete metadata: a size hint that creates it, or a delivery that
empties `piecesNeeded` and so installs or resets it. -/
def Renews (tor : Torrent) : MagnetEvent → Prop
  | sizeHint size => (tr_torrentSetMetadataSizeHint tor size).2 = true
  | metadataPiece piece data len => ∃ m, tor.incompleteMetadata = some m ∧ m.Wants piece len ∧
      (m.save piece data len).piecesNeeded = []
  | nextRequest _ => False

end MagnetEvent

/-- The torrent after a run of calls. -/
def magnetRun (env : MagnetEnv) (tor : Torrent) (evs : List MagnetEvent) : Torrent :=
  evs.foldl (fun tor e ↦ e.apply env tor) tor

/-- The pieces the requests of a run return, in order. -/
def magnetRequests (env : MagnetEnv) : Torrent → List MagnetEvent → List ℤ
  | _, [] => []
  | tor, e :: es => (e.requested tor).toList ++ magnetRequests env (e.apply env tor) es

/-- The clock a call reads: the `now` of a request. -/
def MagnetEvent.requestTime : MagnetEvent → Option ℤ
  | .nextRequest now => some now
  | _ => none

/-- The `now` of every request of a run, in order. -/
def requestTimes (evs : List MagnetEvent) : List ℤ :=
  evs.filterMap MagnetEvent.requestTime

/-- No call of the run renews the incomplete metadata. -/
def Steady (env : MagnetEnv) : Torrent → List MagnetEvent → Prop
  | _, [] => True
  | tor, e :: es => ¬ e.Renews tor ∧ Steady env (e.apply env tor) es

section Runs

variable {env : MagnetEnv}

@[simp] theorem magnetRun_nil (tor : Torrent) : magnetRun env tor [] = tor := rfl

@[simp] theorem magnetRun_cons (tor : Torrent) (e : MagnetEvent) (evs : List MagnetEvent) :
    magnetRun env tor (e :: evs) = magnetRun env (e.apply env tor) evs := rfl

@[simp] theorem magnetRun_append (tor : Torrent) (xs ys : List MagnetEvent) :
    magnetRun env tor (xs ++ ys) = magnetRun env (magnetRun env tor xs) ys := by
  simp [magnetRun, List.foldl_append]

@[simp] theorem magnetRequests_append (tor : Torrent) (xs ys : List MagnetEvent) :
    magnetRequests env tor (xs ++ ys) =
      magnetRequests env tor xs ++ magnetRequests env (magnetRun env tor xs) ys := by
  induction xs generalizing tor with
  | nil => rfl
  | cons e xs ih => simp [magnetRequests, ih]

@[simp] theorem magnetRequests_singleton (tor : Torrent) (e : MagnetEvent) :
    magnetRequests env tor [e] = (e.requested tor).toList := by
  simp [magnetRequests]

theorem steady_append (tor : Torrent) (xs ys : List MagnetEvent) :
    Steady env tor (xs ++ ys) ↔ Steady env tor xs ∧ Steady env (magnetRun env tor xs) ys := by
  induction xs generalizing tor with
  | nil => simp [Steady]
  | cons e xs ih => simp [Steady, ih, and_assoc]

theorem steady_snoc (tor : Torrent) (xs : List MagnetEvent) (e : MagnetEvent) :
    Steady env tor (xs ++ [e]) ↔ Steady env tor xs ∧ ¬ e.Renews (magnetRun env tor xs) := by
  simp [steady_append, Steady]

end Runs

/-! ## One call -/

/-- **Everything one call can do to an incomplete metadata.**  It stays as it was; or a request
moves the head of `piecesNeeded` to the tail with a new stamp; or a wanted delivery is saved and
pieces remain; or a wanted delivery empties `piecesNeeded` — the renewing case — and the
metadata is freed or reset. -/
theorem MagnetEvent.apply_cases (env : MagnetEnv) {tor : Torrent} {m : IncompleteMetadata}
    (hm : tor.incompleteMetadata = some m) (e : MagnetEvent) :
    ((e.apply env tor).incompleteMetadata = some m ∧ e.requested tor = none ∧ ¬ e.Renews tor) ∨
    (¬ e.Renews tor ∧ ∃ now head rest, e = .nextRequest now ∧ m.piecesNeeded = head :: rest ∧
      head.requestedAt + MIN_REPEAT_INTERVAL_SECS < now ∧ e.requested tor = some head.piece ∧
      (e.apply env tor).incompleteMetadata =
        some ({ m with piecesNeeded := rest ++ [⟨now, head.piece⟩] })) ∨
    (¬ e.Renews tor ∧ e.requested tor = none ∧ ∃ piece data len, e = .metadataPiece piece data len ∧
      m.Wants piece len ∧ (m.save piece data len).piecesNeeded ≠ [] ∧
      (e.apply env tor).incompleteMetadata = some (m.save piece data len)) ∨
    (e.Renews tor ∧ ∃ piece data len, e = .metadataPiece piece data len ∧ m.Wants piece len ∧
      (m.save piece data len).piecesNeeded = [] ∧
      ((e.apply env tor).incompleteMetadata = none ∨
        (e.apply env tor).incompleteMetadata = some (m.save piece data len).reset)) := by
  cases e with
  | sizeHint size =>
    rcases tr_torrentSetMetadataSizeHint_spec tor size with ⟨h2, h1⟩ | ⟨-, h, -⟩
    · exact .inl ⟨by simp [apply, h1, hm], rfl, by simp [Renews, h2]⟩
    · simp [hm] at h
  | nextRequest now =>
    rcases tr_torrentGetNextMetadataRequest_spec tor now with ⟨h2, h1, -⟩ |
      ⟨m', head, rest, hm', hl, ht, h2, h1⟩
    · exact .inl ⟨by simp [apply, h1, hm], h2, by simp [Renews]⟩
    · obtain rfl : m = m' := Option.some.inj (hm.symm.trans hm')
      exact .inr (.inl ⟨by simp [Renews], now, head, rest, rfl, hl, ht, h2, by simp [apply, h1]⟩)
  | metadataPiece piece data len =>
    have happ := tr_torrentSetMetadataPiece_eq env tor piece data len
    simp only [hm] at happ
    by_cases hw : m.Wants piece len
    · rw [if_pos hw] at happ
      by_cases he : (m.save piece data len).piecesNeeded = []
      · rw [if_pos he] at happ
        refine .inr (.inr (.inr ⟨⟨m, hm, hw, he⟩, piece, data, len, rfl, hw, he, ?_⟩))
        simpa [apply, happ] using finishMetadata_incompleteMetadata env tor (m.save piece data len)
      · rw [if_neg he] at happ
        refine .inr (.inr (.inl ⟨?_, rfl, piece, data, len, rfl, hw, he, by simp [apply, happ]⟩))
        rintro ⟨m', hm', -, he'⟩
        obtain rfl : m = m' := Option.some.inj (hm.symm.trans hm')
        exact he he'
    · rw [if_neg hw] at happ
      refine .inl ⟨by simp [apply, happ, hm], rfl, ?_⟩
      rintro ⟨m', hm', hw', -⟩
      obtain rfl : m = m' := Option.some.inj (hm.symm.trans hm')
      exact hw hw'

/-! ## A magnet link -/

/-- A torrent added from a magnet link with infohash `hash`, whose `.torrent` container at path
`torrent` holds `container`: it has no files yet, fetches nothing, and has no error. -/
def magnetTorrent (hash : List UInt8) (torrent : String) (container : List UInt8) : Torrent where
  info := { hash, torrent, files := [], totalSize := 0, pieceSize := 0, pieceCount := 0 }
  infoDictLength := 0
  incompleteMetadata := none
  localError := none
  isStopping := false
  magnetVerify := false
  startAfterVerify := false
  prefetchMagnetMetadata := false
  isDirty := false
  edited := false
  files := Files.write (fun _ ↦ none) torrent container

/-- Collaborators whose checksum of a buffer is the buffer itself and that parse nothing. -/
def literalEnv : MagnetEnv where
  sha1 := id
  variantFromBenc _ := none
  variantToBenc _ := []
  mergeInfoDict v _ := v
  metainfoParse _ := none
  getBlockSize _ := 0
  resumePath := "resume"

/-- Without incomplete metadata only a size hint that creates it changes it, and no piece is
requested. -/
theorem MagnetEvent.apply_of_none (env : MagnetEnv) {tor : Torrent}
    (hm : tor.incompleteMetadata = none) (e : MagnetEvent) :
    e.requested tor = none ∧
    ((e.apply env tor).incompleteMetadata = none ∨
      e.Renews tor ∧ ∃ size, e = .sizeHint size ∧ 0 < size ∧ size ≤ INT_MAX ∧ ∃ n : ℤ,
        (n - 1) * METADATA_PIECE_SIZE < size ∧ size ≤ n * METADATA_PIECE_SIZE ∧
        (e.apply env tor).incompleteMetadata = some
          { metadata := fun _ ↦ 0, metadataSize := size, pieceCount := n,
            piecesNeeded := allPiecesNeeded n }) := by
  cases e with
  | sizeHint size =>
    refine ⟨rfl, ?_⟩
    rcases tr_torrentSetMetadataSizeHint_spec tor size with ⟨-, h1⟩ | ⟨h2, -, hs, hs', n, h3, h4, h1⟩
    · exact .inl (by simp [apply, h1, hm])
    · exact .inr ⟨h2, size, rfl, hs, hs', n, h3, h4, by simp [apply, h1]⟩
  | nextRequest now =>
    simp [requested, apply, tr_torrentGetNextMetadataRequest, hm]
  | metadataPiece piece data len =>
    simp [requested, apply, tr_torrentSetMetadataPiece, hm]

end Transmission
