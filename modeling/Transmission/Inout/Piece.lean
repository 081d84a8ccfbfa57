import Transmission.Inout.Locate

/-!
# Reading and writing a range of a piece

`readOrWritePiece` serves a contiguous range of a piece out of, or into, the files that hold it.
It locates the first byte with `tr_ioFindFileLocation`, then loops: it hands the current file as
many bytes as remain or as the file has left, moves to the next file at offset 0, and stops when
no bytes remain or a call fails.  `readOrWriteBytes` is the per-file call: it opens (on a write,
creates) the file and reads, writes or advises the system about the bytes.

The loop never checks that `fileIndex` stays below `fileCount`; whether it does depends on the
layout invariant and on the range being in bounds.  The model makes the question visible: the
loop `readOrWritePieceLoop` walks the list of files from `fileIndex` on and answers `none` where
the C code would read `info->files[fileCount]`.

The loop's arguments do not depend on what the calls return, only on when they fail, so the calls
it makes are a list fixed in advance, `pieceSpans`.  `readOrWritePieceLoop_eq_runSpans` says the
loop *is* running that list and stopping at the first error, and `pieceSpans_serves` says what the
list is on a well-formed table: calls that satisfy `readOrWriteBytes`'s assertions, stay in
range, and serve `[g, g + len)` of the torrent from `[0, len)` of the buffer, file after file.
-/

set_option autoImplicit false

namespace Transmission

/-- The I/O modes, in the order of the C enum: `TR_IO_READ`, `TR_IO_PREFETCH`, `TR_IO_WRITE`. -/
inductive IoMode
  | read
  | prefetch
  | write
  deriving DecidableEq, Repr

/-- `ioMode >= TR_IO_WRITE`: the operations that need write access. -/
def IoMode.doWrite : IoMode → Bool
  | .write => true
  | _ => false

/-- The torrent's files on disk, as the piece I/O sees them: a byte array per file index. -/
structure Disk where
  /-- `tr_torrentFindFile2` finds file `i` on disk. -/
  present : ℕ → Bool
  /-- Byte `k` of file `i`. -/
  bytes : ℕ → ℕ → UInt8
  /-- The errno the system answers a call of mode `m` on file `i` with (opening the file, or
  reading or writing it), `0` when it succeeds. -/
  fault : IoMode → ℕ → ℕ

/-- What the piece I/O reads and changes. -/
structure IoState where
  /-- The disk. -/
  disk : Disk
  /-- The caller's buffer: byte `k` is `buf[k]`. -/
  buf : ℕ → UInt8
  /-- `tor->error == TR_STAT_LOCAL_ERROR`, with the errno and the file its message names. -/
  localError : Option (ℕ × String)

/-- `tr_sys_file_write_at` on file `i`, created (sparse, so reading as zeros) if it is not on
disk yet: its bytes `[offset, offset + n)` become those of `src`. -/
def Disk.writeAt (d : Disk) (i offset n : ℕ) (src : ℕ → UInt8) : Disk :=
  { d with
    present := Function.update d.present i true
    bytes := Function.update d.bytes i
      (overwrite (if d.present i then d.bytes i else fun _ ↦ 0) offset n src) }

/-- `readOrWriteBytes`: serve `n` bytes of file `fileIndex` (which is `file`) at `fileOffset`,
from or into the buffer at `bufPos`.  Returns the errno, `0` on success.  A zero-length file is
left alone; a file that is not on disk cannot be read (`ENOENT`) and is created by a write; a
failing system call returns its errno and changes nothing. -/
def readOrWriteBytes (mode : IoMode) (fileIndex : ℕ) (file : TrFile) (fileOffset bufPos n : ℕ)
    (st : IoState) : IoState × ℕ :=
  if file.length = 0 then (st, 0)
  else if !st.disk.present fileIndex && !mode.doWrite then (st, ENOENT)
  else if st.disk.fault mode fileIndex ≠ 0 then (st, st.disk.fault mode fileIndex)
  else match mode with
    | .read =>
      ({ st with buf := overwrite st.buf bufPos n fun j ↦
          st.disk.bytes fileIndex (fileOffset + j) }, 0)
    | .prefetch => (st, 0)
    | .write =>
      ({ st with disk := st.disk.writeAt fileIndex fileOffset n fun j ↦ st.buf (bufPos + j) }, 0)

/-- After a failed call on `file`: on a write, and unless the torrent already has a local
error, `tr_torrentSetLocalError` names the file. -/
def markWriteError (mode : IoMode) (file : TrFile) (err : ℕ) (st : IoState) : IoState :=
  if err ≠ 0 ∧ mode = .write ∧ st.localError = none then
    { st with localError := some (err, file.name) }
  else st

/-- The loop `while (buflen != 0 && err == 0)` of `readOrWritePiece`, over the files from
`fileIndex` on.  `none` is the read of `info->files[fileIndex]` past the end of the table. -/
def readOrWritePieceLoop (mode : IoMode) :
    List TrFile → (fileIndex fileOffset bufPos buflen : ℕ) → IoState → Option (IoState × ℕ)
  | _, _, _, _, 0, st => some (st, 0)
  | [], _, _, _, _ + 1, _ => none
  | file :: files, fileIndex, fileOffset, bufPos, buflen + 1, st =>
    let n := min (buflen + 1) (file.length - fileOffset)
    let r := readOrWriteBytes mode fileIndex file fileOffset bufPos n st
    let st' := markWriteError mode file r.2 r.1
    if r.2 = 0 then readOrWritePieceLoop mode files (fileIndex + 1) 0 (bufPos + n) (buflen + 1 - n) st'
    else some (st', r.2)

/-- `readOrWritePiece`: `EINVAL` for a piece out of range, otherwise the loop from the file and
offset `tr_ioFindFileLocation` gives.  `none` is an assertion of the locator failing, or the loop
running off the table. -/
def readOrWritePiece (info : TrInfo) (mode : IoMode) (pieceIndex pieceOffset buflen : ℕ)
    (st : IoState) : Option (IoState × ℕ) :=
  if pieceIndex ≥ info.pieceCount then some (st, EINVAL)
  else match tr_ioFindFileLocation info pieceIndex pieceOffset with
    | none => none
    | some (fileIndex, fileOffset) =>
      readOrWritePieceLoop mode (info.files.drop fileIndex) fileIndex fileOffset 0 buflen st

/-- `tr_ioRead`: read `len` bytes at `begin` of the piece into the buffer. -/
def tr_ioRead (info : TrInfo) (pieceIndex begin len : ℕ) (st : IoState) : Option (IoState × ℕ) :=
  readOrWritePiece info .read pieceIndex begin len st

/-- `tr_ioPrefetch`: advise the system that the range will soon be read. -/
def tr_ioPrefetch (info : TrInfo) (pieceIndex begin len : ℕ) (st : IoState) :
    Option (IoState × ℕ) :=
  readOrWritePiece info .prefetch pieceIndex begin len st

/-- `tr_ioWrite`: write `len` bytes of the buffer at `begin` of the piece. -/
def tr_ioWrite (info : TrInfo) (pieceIndex begin len : ℕ) (st : IoState) : Option (IoState × ℕ) :=
  readOrWritePiece info .write pieceIndex begin len st

/-! ## The calls the loop makes -/

/-- One call of `readOrWriteBytes` by the loop: the file and its index, the offset in the file,
the position in the buffer and the number of bytes. -/
structure FileSpan where
  fileIndex : ℕ
  file : TrFile
  fileOffset : ℕ
  bufPos : ℕ
  length : ℕ

/-- The calls the loop of `readOrWritePiece` makes when none of them fails, in order; `none` when
it would run off the table. -/
def pieceSpans : List TrFile → (fileIndex fileOffset bufPos buflen : ℕ) → Option (List FileSpan)
  | _, _, _, _, 0 => some []
  | [], _, _, _, _ + 1 => none
  | file :: files, fileIndex, fileOffset, bufPos, buflen + 1 =>
    let n := min (buflen + 1) (file.length - fileOffset)
    (pieceSpans files (fileIndex + 1) 0 (bufPos + n) (buflen + 1 - n)).map
      (⟨fileIndex, file, fileOffset, bufPos, n⟩ :: ·)

/-- The calls of a list, in order, up to the first that fails. -/
def runSpans (mode : IoMode) : List FileSpan → IoState → IoState × ℕ
  | [], st => (st, 0)
  | s :: ss, st =>
    let r := readOrWriteBytes mode s.fileIndex s.file s.fileOffset s.bufPos s.length st
    let st' := markWriteError mode s.file r.2 r.1
    if r.2 = 0 then runSpans mode ss st' else (st', r.2)

/-- **The loop is its list of calls.**  Wherever the calls it would make stay on the table, the
loop makes exactly them, in order, and stops at the first that fails. -/
theorem readOrWritePieceLoop_eq_runSpans (mode : IoMode) :
    ∀ (files : List TrFile) (fileIndex fileOffset bufPos buflen : ℕ) (l : List FileSpan)
      (st : IoState), pieceSpans files fileIndex fileOffset bufPos buflen = some l →
      readOrWritePieceLoop mode files fileIndex fileOffset bufPos buflen st = some (runSpans mode l st)
  | _, _, _, _, 0, l, st, h => by
    obtain rfl : [] = l := by simpa [pieceSpans] using h
    simp [readOrWritePieceLoop, runSpans]
  | [], _, _, _, _ + 1, _, _, h => by simp [pieceSpans] at h
  | file :: files, fileIndex, fileOffset, bufPos, buflen + 1, l, st, h => by
    simp only [pieceSpans, Option.map_eq_some'] at h
    obtain ⟨l', hl', rfl⟩ := h
    simp only [readOrWritePieceLoop, runSpans]
    split
    · exact readOrWritePieceLoop_eq_runSpans mode files _ _ _ _ l' _ hl'
    · rfl

/-- What a call must be for the loop to serve byte `g` of the torrent from position `pos` of the
buffer: its file is on the table, its arguments satisfy the assertions of `readOrWriteBytes`, and
it starts at `g` in the torrent and at `pos` in the buffer. -/
structure SpanOk (info : TrInfo) (s : FileSpan) (g pos : ℕ) : Prop where
  /-- `TR_ASSERT(fileIndex < info->fileCount)`. -/
  index_lt : s.fileIndex < info.fileCount
  /-- The call's file is `info->files[fileIndex]`. -/
  file_eq : info.files[s.fileIndex]? = some s.file
  /-- `TR_ASSERT(file->length == 0 || fileOffset < file->length)`. -/
  offset_lt : s.file.length = 0 ∨ s.fileOffset < s.file.length
  /-- `TR_ASSERT(fileOffset + buflen <= file->length)`. -/
  end_le : s.fileOffset + s.length ≤ s.file.length
  /-- The call starts at byte `g` of the torrent. -/
  global_eq : s.file.offset + s.fileOffset = g
  /-- ... and at position `pos` of the buffer. -/
  bufPos_eq : s.bufPos = pos

/-- `l` serves the bytes `[g, g + len)` of the torrent from the positions `[pos, pos + len)` of
the buffer: each call is `SpanOk` and starts where the previous one stopped, in the torrent and in
the buffer, and together they cover the range. -/
def Serves (info : TrInfo) : List FileSpan → (g pos len : ℕ) → Prop
  | [], _, _, len => len = 0
  | s :: ss, g, pos, len =>
    SpanOk info s g pos ∧ s.length ≤ len ∧ Serves info ss (g + s.length) (pos + s.length) (len - s.length)

@[simp] theorem serves_nil {info : TrInfo} {g pos len : ℕ} : Serves info [] g pos len ↔ len = 0 :=
  Iff.rfl

@[simp] theorem serves_cons {info : TrInfo} {s : FileSpan} {ss : List FileSpan} {g pos len : ℕ} :
    Serves info (s :: ss) g pos len ↔ SpanOk info s g pos ∧ s.length ≤ len ∧
      Serves info ss (g + s.length) (pos + s.length) (len - s.length) :=
  Iff.rfl

theorem pieceSpans_zero (files : List TrFile) (fileIndex fileOffset bufPos : ℕ) :
    pieceSpans files fileIndex fileOffset bufPos 0 = some [] := by
  cases files <;> rfl

/-- **The calls the loop makes are the right ones.**  From a file `fileIndex` of a contiguous
table, at an offset inside it (or at its start), with the range in bounds, the loop stays on the
table and its calls serve the range. -/
theorem pieceSpans_serves {info : TrInfo} {t : ℕ} :
    ∀ (files : List TrFile) (fileIndex fileOffset bufPos len g o : ℕ),
      info.files.drop fileIndex = files → Contiguous o files t → g = o + fileOffset →
      (fileOffset = 0 ∨ ∃ f ∈ files.head?, fileOffset < f.length) → g + len ≤ t →
      ∃ l, pieceSpans files fileIndex fileOffset bufPos len = some l ∧ Serves info l g bufPos len
  | files, _, _, _, 0, _, _, _, _, _, _, _ => ⟨[], pieceSpans_zero .., rfl⟩
  | [], _, _, _, _ + 1, _, _, _, hc, hg, _, hlen => by simp only [Contiguous] at hc; omega
  | file :: files, fileIndex, fileOffset, bufPos, len + 1, g, o, hdrop, ⟨hfo, hc⟩, hg, hoff,
      hlen => by
    have hoff' : fileOffset = 0 ∨ fileOffset < file.length := by
      rcases hoff with h | ⟨f, hf, h⟩
      · exact .inl h
      · obtain rfl : file = f := by simpa using hf
        exact .inr h
    clear hoff
    have hidx : fileIndex < info.fileCount := by
      have := congrArg List.length hdrop; simp only [List.length_drop, List.length_cons] at this
      unfold TrInfo.fileCount; omega
    have hfile : info.files[fileIndex]? = some file := by
      rw [← List.head?_drop, hdrop]; rfl
    have hrest : info.files.drop (fileIndex + 1) = files := by
      rw [← List.drop_drop, hdrop]; rfl
    have hok : SpanOk info ⟨fileIndex, file, fileOffset, bufPos,
        min (len + 1) (file.length - fileOffset)⟩ g bufPos :=
      ⟨hidx, hfile, by simp only; omega, by simp only; omega, by simp only; omega, rfl⟩
    by_cases h0 : len + 1 - min (len + 1) (file.length - fileOffset) = 0
    · refine ⟨[⟨fileIndex, file, fileOffset, bufPos, min (len + 1) (file.length - fileOffset)⟩],
        ?_, serves_cons.2 ⟨hok, by simp only; omega, h0⟩⟩
      simp only [pieceSpans, h0, pieceSpans_zero, Option.map_some']
    · obtain ⟨l, hl, hs⟩ := pieceSpans_serves files (fileIndex + 1) 0
        (bufPos + min (len + 1) (file.length - fileOffset))
        (len + 1 - min (len + 1) (file.length - fileOffset))
        (g + min (len + 1) (file.length - fileOffset)) (o + file.length) hrest hc (by omega)
        (.inl rfl) (by omega)
      exact ⟨_, by simp only [pieceSpans, hl, Option.map_some'],
        serves_cons.2 ⟨hok, by simp only; omega, hs⟩⟩

/-- The loop never makes an empty call on a nonempty file: it starts inside the first file or at
its start, and moves on to the next file at offset 0, so each call on a nonempty file covers a
byte of it. -/
theorem pieceSpans_pos :
    ∀ (files : List TrFile) (fileIndex fileOffset bufPos len : ℕ) (l : List FileSpan),
      pieceSpans files fileIndex fileOffset bufPos len = some l →
      (fileOffset = 0 ∨ ∃ f ∈ files.head?, fileOffset < f.length) →
      ∀ s ∈ l, 0 < s.file.length → 0 < s.length
  | files, _, _, _, 0, l, h, _ => by
    obtain rfl : [] = l := by simpa [pieceSpans_zero] using h
    simp
  | [], _, _, _, _ + 1, _, h, _ => by simp [pieceSpans] at h
  | file :: files, fileIndex, fileOffset, bufPos, len + 1, l, h, hoff => by
    simp only [pieceSpans, Option.map_eq_some'] at h
    obtain ⟨l', hl', rfl⟩ := h
    rintro s (_ | ⟨_, hs⟩) hpos
    · rcases hoff with rfl | ⟨f, hf, h⟩
      · simp only at hpos ⊢; omega
      · obtain rfl : file = f := by simpa using hf
        simp only; omega
    · exact pieceSpans_pos files _ _ _ _ l' hl' (.inl rfl) s hs hpos

/-- **The loop of `readOrWritePiece` on a well-formed table.**  For every request in range there
is one list of calls, whatever the mode and the state, that serves the range (and nothing else)
and makes no empty call on a nonempty file; the loop makes exactly these calls up to the first
that fails, and never reads past the file table. -/
theorem readOrWritePiece_spans {info : TrInfo} (hl : info.LayoutOk)
    {pieceIndex pieceOffset len : ℕ} (hp : pieceIndex < info.pieceCount)
    (hg : info.tr_pieceOffset pieceIndex pieceOffset 0 < info.totalSize)
    (hlen : info.tr_pieceOffset pieceIndex pieceOffset 0 + len ≤ info.totalSize) :
    ∃ l, Serves info l (info.tr_pieceOffset pieceIndex pieceOffset 0) 0 len ∧
      (∀ s ∈ l, 0 < s.file.length → 0 < s.length) ∧
      ∀ (mode : IoMode) (st : IoState),
        readOrWritePiece info mode pieceIndex pieceOffset len st = some (runSpans mode l st) := by
  obtain ⟨i, hi, hloc, h1, h2⟩ := tr_ioFindFileLocation_spec hl hg
  have hoff : ∃ f ∈ (info.files.drop i).head?,
      info.tr_pieceOffset pieceIndex pieceOffset 0 - info.files[i].offset < f.length :=
    ⟨info.files[i], by simp [List.head?_drop, hi], by omega⟩
  obtain ⟨l, hsp, hs⟩ := @pieceSpans_serves info _ (info.files.drop i) i
    (info.tr_pieceOffset pieceIndex pieceOffset 0 - info.files[i].offset) 0 len _ _ rfl
    (hl.contiguous.drop i hi) (by omega) (.inr hoff) hlen
  refine ⟨l, hs, pieceSpans_pos _ _ _ _ _ l hsp (.inr hoff), fun mode st ↦ ?_⟩
  rw [readOrWritePiece, if_neg (by omega), hloc]
  exact readOrWritePieceLoop_eq_runSpans mode _ _ _ _ _ l st hsp

/-- The calls of `readOrWritePiece_spans`, without the fact about empty calls. -/
theorem readOrWritePiece_serves {info : TrInfo} (hl : info.LayoutOk)
    {pieceIndex pieceOffset len : ℕ} (hp : pieceIndex < info.pieceCount)
    (hg : info.tr_pieceOffset pieceIndex pieceOffset 0 < info.totalSize)
    (hlen : info.tr_pieceOffset pieceIndex pieceOffset 0 + len ≤ info.totalSize) :
    ∃ l, Serves info l (info.tr_pieceOffset pieceIndex pieceOffset 0) 0 len ∧
      ∀ (mode : IoMode) (st : IoState),
        readOrWritePiece info mode pieceIndex pieceOffset len st = some (runSpans mode l st) := by
  obtain ⟨l, hs, -, hrun⟩ := readOrWritePiece_spans hl hp hg hlen
  exact ⟨l, hs, hrun⟩

end Transmission
