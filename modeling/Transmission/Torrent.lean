import Mathlib.Data.List.Basic

/-!
# Torrents and their file tables

The data the piece I/O code and the magnet code of libtransmission share: a torrent's
`tr_info` (its infohash, the path of its `.torrent` container, its pieces and its file table)
and the few helpers of `torrent.h` that the code under `src/` calls.  Everything here is read
only: the functions that change a torrent live with the code that changes it.

The one property of this module is the **layout invariant** of a file table.  `tr_info` stores
each file's `offset`, the position of its first byte in the concatenation of all the files, and
the I/O code trusts those offsets to tile `[0, totalSize)`.  `TrInfo.LayoutOk` states the
invariant file by file; `Contiguous` states it as a recursion down the list,
which is the form every proof uses, and `TrInfo.LayoutOk.contiguous` converts one into the other.
Zero-length files are allowed anywhere, runs of them included, and nothing below excludes them.
-/

set_option autoImplicit false

namespace Transmission

/-- `ENOENT`, the `errno` of a missing file. -/
def ENOENT : ℕ := 2

/-- `EINVAL`, the `errno` of an invalid argument. -/
def EINVAL : ℕ := 22

/-- A file of the torrent, `tr_file` with the fields the code reads. -/
structure TrFile where
  /-- Its length in bytes. -/
  length : ℕ
  /-- The position of its first byte in the concatenation of the torrent's files. -/
  offset : ℕ
  /-- "Do not download": the user excluded it, so it is never preallocated. -/
  dnd : Bool
  /-- Its path inside the torrent. -/
  name : String
  deriving DecidableEq, Repr

/-- The torrent's `tr_info`, with the fields the code under `src/` reads. -/
structure TrInfo where
  /-- `info.hash`: the SHA-1 of the info dictionary, which names the torrent. -/
  hash : List UInt8
  /-- `info.torrent`: the path of the `.torrent` container on disk. -/
  torrent : String
  /-- `info.files[0 .. fileCount)`. -/
  files : List TrFile
  /-- The sum of the file lengths. -/
  totalSize : ℕ
  /-- The size of every piece but the last. -/
  pieceSize : ℕ
  /-- `info.pieceCount`. -/
  pieceCount : ℕ
  deriving DecidableEq, Repr

namespace TrInfo

/-- `info.fileCount`. -/
def fileCount (info : TrInfo) : ℕ := info.files.length

/-- Modelled from the spec: `tr_pieceOffset` of `torrent.h` is not under `src/`.  The global
byte offset of `offset + length` bytes into piece `index`, `g = piece * piece_size +
piece_offset` in the spec's words. -/
def tr_pieceOffset (info : TrInfo) (index offset length : ℕ) : ℕ :=
  info.pieceSize * index + offset + length

end TrInfo

/-- `memcpy(f + start, src, n)` on a byte array: `f` with the bytes `[start, start + n)` taken
from `src`. -/
def overwrite (f : ℕ → UInt8) (start n : ℕ) (src : ℕ → UInt8) : ℕ → UInt8 :=
  fun k ↦ if start ≤ k ∧ k < start + n then src (k - start) else f k

/-! ## The layout invariant -/

/-- The files of `fs` lie end to end from byte `o` on, and the last of them ends at byte `t`. -/
def Contiguous : ℕ → List TrFile → ℕ → Prop
  | o, [], t => t = o
  | o, f :: fs, t => f.offset = o ∧ Contiguous (o + f.length) fs t

/-- The layout invariant of a file table, file by file: the first file starts at byte
0, each file ends where the next one starts, and the torrent ends where its last file does. -/
structure TrInfo.LayoutOk (info : TrInfo) : Prop where
  /-- `files[0].offset = 0`. -/
  first_offset : ∀ f ∈ info.files.head?, f.offset = 0
  /-- `files[i].offset + files[i].length = files[i+1].offset`. -/
  next_offset : ∀ i (h : i + 1 < info.files.length),
    info.files[i].offset + info.files[i].length = info.files[i + 1].offset
  /-- `totalSize` is the end of the last file (and 0 for a torrent without files). -/
  total_size : info.totalSize = (info.files.getLast?.map fun f ↦ f.offset + f.length).getD 0

theorem contiguous_of_offsets {t : ℕ} :
    ∀ (fs : List TrFile) (o : ℕ), (∀ f ∈ fs.head?, f.offset = o) →
      (∀ i (h : i + 1 < fs.length), fs[i].offset + fs[i].length = fs[i + 1].offset) →
      t = (fs.getLast?.map fun f ↦ f.offset + f.length).getD o → Contiguous o fs t
  | [], o, _, _, ht => ht
  | f :: fs, o, hhead, hnext, ht => by
    have hf : f.offset = o := hhead f rfl
    refine ⟨hf, contiguous_of_offsets fs _ ?_ (fun i h ↦ hnext (i + 1) (by simp; omega)) ?_⟩
    · intro g hg
      cases fs with
      | nil => simp at hg
      | cons g' fs =>
        obtain rfl : g' = g := by simpa using hg
        simpa [hf] using (hnext 0 (by simp)).symm
    · cases fs with
      | nil => simpa [hf] using ht
      | cons g' fs => simpa using ht

theorem TrInfo.LayoutOk.contiguous {info : TrInfo} (h : info.LayoutOk) :
    Contiguous 0 info.files info.totalSize :=
  contiguous_of_offsets _ _ h.first_offset h.next_offset h.total_size

end Transmission
