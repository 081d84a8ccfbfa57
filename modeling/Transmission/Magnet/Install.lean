import Transmission.Magnet.Run

/-!
# Installing the metadata

When the last metadata piece arrives, `tr_torrentSetMetadataPiece` checks the buffer against the
infohash, bencodes it, loads the torrent's `.torrent` container, merges the info dictionary into
it, parses the result and checks its piece size; only then does it keep the new `tr_info` and
write the new container.  On any failure it asks for every piece again.

What a failure leaves behind depends on where it happens:

* `installMetadata_of_no_container`, and the failures before the container is loaded, leave the
  torrent exactly as it was;
* a failure after it is loaded (`tr_metainfoParse` rejects the merged container, or the piece
  size has no block size) keeps `info` and `infoDictLength`, but the `.torrent` and `.resume`
  files are gone, since `installMetadata` removes them right after loading the container;
* `noContainer_run`: a torrent fetching metadata whose container is gone never installs any
  assembly again, correct or not, since every later attempt fails to load the container.
-/

set_option autoImplicit false

namespace Transmission

variable (env : MagnetEnv)

/-- Without its container, the installation fails and changes nothing. -/
theorem installMetadata_of_no_container {tor : Torrent} (m : IncompleteMetadata)
    (h : tor.files tor.info.torrent = none) : installMetadata env tor m = (tor, false) := by
  unfold installMetadata
  split_ifs
  · rfl
  · split <;> simp [h]

/-- Collaborators for a one-byte info dictionary: every buffer passes the checksum and bencodes
to its own bytes, the merged container is the info dictionary, and only the dictionary `[1]`
parses, to a torrent with one file and a usable piece size. -/
def oneByteEnv : MagnetEnv where
  sha1 _ := []
  variantFromBenc bytes := some (.str bytes)
  variantToBenc _ := []
  mergeInfoDict _ infoDict := infoDict
  metainfoParse
    | .str bytes =>
      if bytes = [1] then
        some ({ hash := [], torrent := "a.torrent", files := [⟨1, 0, false, "f"⟩]
                totalSize := 1, pieceSize := 1, pieceCount := 1 }, 1)
      else none
    | _ => none
  getBlockSize _ := 1
  resumePath := "resume"

/-- The torrent is fetching metadata and its container is gone. -/
def NoContainer (tor : Torrent) : Prop :=
  tor.incompleteMetadata.isSome ∧ tor.files tor.info.torrent = none

/-- Every call keeps a torrent without container fetching metadata: a completed assembly fails to
load the container, and is reset. -/
theorem NoContainer.apply {tor : Torrent} (h : NoContainer tor) (e : MagnetEvent) :
    NoContainer (e.apply env tor) := by
  cases e with
  | sizeHint size =>
    rcases tr_torrentSetMetadataSizeHint_spec tor size with ⟨-, h1⟩ | ⟨-, hnone, -⟩
    · rw [MagnetEvent.apply, h1]; exact h
    · simp [NoContainer, hnone] at h
  | nextRequest now =>
    rcases tr_torrentGetNextMetadataRequest_spec tor now with ⟨-, h1, -⟩ | ⟨m, head, rest, -, -, -, -, h1⟩
    · rw [MagnetEvent.apply, h1]; exact h
    · rw [MagnetEvent.apply, h1]; exact ⟨rfl, h.2⟩
  | metadataPiece piece data len =>
    obtain ⟨m, hm⟩ := Option.isSome_iff_exists.1 h.1
    rw [MagnetEvent.apply, tr_torrentSetMetadataPiece_eq]
    simp only [hm]
    split_ifs
    · unfold finishMetadata; rw [installMetadata_of_no_container env _ h.2]; exact ⟨rfl, h.2⟩
    · exact ⟨rfl, h.2⟩
    · exact h

/-- **A torrent whose container is gone never installs its metadata**, whatever it receives. -/
theorem noContainer_run {tor : Torrent} (h : NoContainer tor) (evs : List MagnetEvent) :
    NoContainer (magnetRun env tor evs) := by
  induction evs generalizing tor with
  | nil => exact h
  | cons e evs ih => exact ih (h.apply env e)

/-- A one-byte assembly that does not parse removes the container; the assembly that installs
from the original torrent then never installs, after any later calls. -/
theorem metadataPiece_failed_parse_loses_container :
    (magnetRun oneByteEnv (magnetTorrent [] "a.torrent" [7])
      [.sizeHint 1, .metadataPiece 0 (fun _ ↦ 1) 1]).incompleteMetadata = none ∧
    (magnetTorrent [] "a.torrent" [7]).files "a.torrent" = some [7] ∧
    (magnetRun oneByteEnv (magnetTorrent [] "a.torrent" [7])
      [.sizeHint 1, .metadataPiece 0 (fun _ ↦ 0) 1]).files "a.torrent" = none ∧
    ∀ evs, (magnetRun oneByteEnv (magnetTorrent [] "a.torrent" [7])
      ([.sizeHint 1, .metadataPiece 0 (fun _ ↦ 0) 1] ++ evs)).incompleteMetadata ≠ none := by
  have h : NoContainer (magnetRun oneByteEnv (magnetTorrent [] "a.torrent" [7])
      [.sizeHint 1, .metadataPiece 0 (fun _ ↦ 0) 1]) := ⟨rfl, rfl⟩
  refine ⟨rfl, rfl, h.2, fun evs ↦ ?_⟩
  rw [magnetRun_append]
  exact Option.isSome_iff_ne_none.1 (noContainer_run oneByteEnv h evs).1

end Transmission
