import Transmission.Inout.Piece

/-!
# The torrent as one byte array

The files of a torrent are, to the rest of libtransmission, one array of `totalSize` bytes: the
concatenation of the files in table order.  `Disk.torrentByte` reads that array off the per-file
disk model, and this file proves that the piece I/O implements it:

* `torrentByte_writeSpans`: a write that meets no system error puts the buffer at `[g, g + len)`
  of the array, and `torrentByte_writeSpans_before` leaves the bytes before `g` alone wherever
  their file already existed;
* `readSpans_eq_torrentByte`: a read of files that exist, meeting no system error, fills the
  buffer with `[g, g + len)` of the array;
* `tr_ioWrite_tr_ioRead`: hence a write followed by a read of the same range gives the written
  bytes back, however many files — zero-length ones included — the range crosses.
-/

set_option autoImplicit false

namespace Transmission

/-- The file, counted from index `i`, whose bytes contain byte `x` of the torrent, and the offset
of the byte in it. -/
def locateByte : List TrFile → (i x : ℕ) → Option (ℕ × ℕ)
  | [], _, _ => none
  | f :: fs, i, x => if f.offset ≤ x ∧ x < f.offset + f.length then some (i, x - f.offset)
    else locateByte fs (i + 1) x

/-- Byte `x` of the concatenation of the torrent's files (`0` past its end). -/
def Disk.torrentByte (info : TrInfo) (d : Disk) (x : ℕ) : UInt8 :=
  match locateByte info.files 0 x with
  | some (i, k) => d.bytes i k
  | none => 0

/-- On a contiguous table a byte is found in the file whose range holds it. -/
theorem locateByte_eq {o t : ℕ} : ∀ {fs : List TrFile}, Contiguous o fs t →
    ∀ (i j x : ℕ) (hj : j < fs.length), fs[j].offset ≤ x → x < fs[j].offset + fs[j].length →
      locateByte fs i x = some (i + j, x - fs[j].offset)
  | [], _, _, _, _, hj, _, _ => absurd hj (by simp)
  | f :: fs, _, i, 0, x, _, h1, h2 => by simp_all [locateByte]
  | f :: fs, hc, i, j + 1, x, hj, h1, h2 => by
    have := hc.end_le_offset 0 (j + 1) (by omega) hj
    simp only [List.getElem_cons_succ, List.getElem_cons_zero] at h1 h2 this
    rw [locateByte, if_neg (by omega), locateByte_eq hc.2 (i + 1) j x (by simpa using hj) h1 h2]
    simp only [List.getElem_cons_succ]; congr 2; omega

theorem locateByte_spec : ∀ {fs : List TrFile} {i₀ x i k : ℕ}, locateByte fs i₀ x = some (i, k) →
    ∃ (j : ℕ) (hj : j < fs.length), i = i₀ + j ∧ k = x - fs[j].offset ∧ fs[j].offset ≤ x
  | [], _, _, _, _, h => by simp [locateByte] at h
  | f :: fs, i₀, x, i, k, h => by
    rw [locateByte] at h
    split at h
    · obtain ⟨rfl, rfl⟩ := Prod.mk.inj (Option.some.inj h)
      exact ⟨0, by simp, rfl, rfl, by simp; omega⟩
    · obtain ⟨j, hj, rfl, rfl, hx⟩ := locateByte_spec h
      exact ⟨j + 1, by simpa using hj, by omega, rfl, by simpa using hx⟩

/-- Byte `x` of a call's range is byte `fileOffset + (x - g)` of the call's file. -/
theorem locateByte_of_spanOk {info : TrInfo} {t : ℕ} (hc : Contiguous 0 info.files t)
    {s : FileSpan} {g pos x : ℕ} (hs : SpanOk info s g pos) (h1 : g ≤ x) (h2 : x < g + s.length) :
    locateByte info.files 0 x = some (s.fileIndex, s.fileOffset + (x - g)) := by
  have hi : s.fileIndex < info.files.length := hs.index_lt
  have hf : info.files[s.fileIndex] = s.file := by simpa [hi] using hs.file_eq
  have := hs.end_le; have := hs.global_eq
  rw [locateByte_eq hc 0 s.fileIndex x hi (by rw [hf]; omega) (by rw [hf]; omega), hf]
  congr 2 <;> omega

/-! ## One call -/

@[simp] theorem writeAt_present (d : Disk) (i offset n : ℕ) (src : ℕ → UInt8) (j : ℕ) :
    (d.writeAt i offset n src).present j = (j == i || d.present j) := by
  by_cases h : j = i <;> simp [Disk.writeAt, Function.update, h]

@[simp] theorem writeAt_fault (d : Disk) (i offset n : ℕ) (src : ℕ → UInt8) :
    (d.writeAt i offset n src).fault = d.fault := rfl

theorem writeAt_bytes_of_ne (d : Disk) {i j : ℕ} (h : j ≠ i) (offset n : ℕ)
    (src : ℕ → UInt8) (k : ℕ) : (d.writeAt i offset n src).bytes j k = d.bytes j k := by
  simp [Disk.writeAt, Function.update, h]

/-- A write to a file that exists changes only the bytes it writes. -/
theorem writeAt_bytes_of_present (d : Disk) {i : ℕ} (hi : d.present i) (offset n : ℕ)
    (src : ℕ → UInt8) {k : ℕ} (hk : ¬(offset ≤ k ∧ k < offset + n)) :
    (d.writeAt i offset n src).bytes i k = d.bytes i k := by
  simp [Disk.writeAt, hi, overwrite, hk]

theorem writeAt_bytes_self (d : Disk) (i offset n : ℕ) (src : ℕ → UInt8) {k : ℕ}
    (h1 : offset ≤ k) (h2 : k < offset + n) :
    (d.writeAt i offset n src).bytes i k = src (k - offset) := by
  simp [Disk.writeAt, overwrite, h1, h2]

/-- The write call on a nonempty file, when the system does not fail. -/
theorem readOrWriteBytes_write {fileIndex : ℕ} {file : TrFile} {fileOffset bufPos n : ℕ}
    {st : IoState} (hlen : 0 < file.length) (hf : st.disk.fault .write fileIndex = 0) :
    readOrWriteBytes .write fileIndex file fileOffset bufPos n st =
      ({ st with disk := st.disk.writeAt fileIndex fileOffset n fun j ↦ st.buf (bufPos + j) }, 0) := by
  simp [readOrWriteBytes, IoMode.doWrite, hf, Nat.pos_iff_ne_zero.1 hlen]

/-- The read call on a nonempty file that exists, when the system does not fail. -/
theorem readOrWriteBytes_read {fileIndex : ℕ} {file : TrFile} {fileOffset bufPos n : ℕ}
    {st : IoState} (hlen : 0 < file.length) (hp : st.disk.present fileIndex)
    (hf : st.disk.fault .read fileIndex = 0) :
    readOrWriteBytes .read fileIndex file fileOffset bufPos n st =
      ({ st with buf := overwrite st.buf bufPos n fun j ↦
          st.disk.bytes fileIndex (fileOffset + j) }, 0) := by
  simp [readOrWriteBytes, hp, hf, Nat.pos_iff_ne_zero.1 hlen]

theorem readOrWriteBytes_empty (mode : IoMode) {fileIndex : ℕ} {file : TrFile}
    {fileOffset bufPos n : ℕ} {st : IoState} (hlen : file.length = 0) :
    readOrWriteBytes mode fileIndex file fileOffset bufPos n st = (st, 0) := by
  simp [readOrWriteBytes, hlen]

@[simp] theorem markWriteError_zero (mode : IoMode) (file : TrFile) (st : IoState) :
    markWriteError mode file 0 st = st := by
  simp [markWriteError]

/-! ## A list of calls -/

/-- The disk after the write calls of `l`, none of which fails. -/
def writeSpans (buf : ℕ → UInt8) : List FileSpan → Disk → Disk
  | [], d => d
  | s :: ss, d => writeSpans buf ss (if s.file.length = 0 then d
      else d.writeAt s.fileIndex s.fileOffset s.length fun j ↦ buf (s.bufPos + j))

/-- The buffer after the read calls of `l`, none of which fails. -/
def readSpans (d : Disk) : List FileSpan → (ℕ → UInt8) → ℕ → UInt8
  | [], buf => buf
  | s :: ss, buf => readSpans d ss (if s.file.length = 0 then buf
      else overwrite buf s.bufPos s.length fun j ↦ d.bytes s.fileIndex (s.fileOffset + j))

theorem runSpans_write_eq : ∀ (l : List FileSpan) (st : IoState),
    (∀ i, st.disk.fault .write i = 0) →
    runSpans .write l st = ({ st with disk := writeSpans st.buf l st.disk }, 0)
  | [], _, _ => rfl
  | s :: ss, st, hf => by
    by_cases h0 : s.file.length = 0
    · simp only [runSpans, readOrWriteBytes_empty _ h0, markWriteError_zero, if_true]
      simpa [writeSpans, h0] using runSpans_write_eq ss st hf
    · simp only [runSpans, readOrWriteBytes_write (Nat.pos_of_ne_zero h0) (hf _),
        markWriteError_zero, if_true]
      rw [runSpans_write_eq ss _ (by simpa using hf)]
      simp [writeSpans, h0]

theorem runSpans_read_eq : ∀ (l : List FileSpan) (st : IoState),
    (∀ s ∈ l, 0 < s.file.length → st.disk.present s.fileIndex) →
    (∀ i, st.disk.fault .read i = 0) →
    runSpans .read l st = ({ st with buf := readSpans st.disk l st.buf }, 0)
  | [], _, _, _ => rfl
  | s :: ss, st, hp, hf => by
    have hp' : ∀ s' ∈ ss, 0 < s'.file.length → st.disk.present s'.fileIndex :=
      fun s' hs' ↦ hp s' (List.mem_cons_of_mem _ hs')
    by_cases h0 : s.file.length = 0
    · simp only [runSpans, readOrWriteBytes_empty _ h0, markWriteError_zero, if_true]
      simpa [readSpans, h0] using runSpans_read_eq ss st hp' hf
    · have hlen := Nat.pos_of_ne_zero h0
      simp only [runSpans, readOrWriteBytes_read hlen (hp s (List.mem_cons_self _ _) hlen) (hf _),
        markWriteError_zero, if_true]
      refine (runSpans_read_eq ss { st with buf := (overwrite st.buf s.bufPos s.length
        fun j ↦ st.disk.bytes s.fileIndex (s.fileOffset + j)) } hp' hf).trans ?_
      simp [readSpans, h0]

@[simp] theorem writeSpans_fault (buf : ℕ → UInt8) :
    ∀ (l : List FileSpan) (d : Disk), (writeSpans buf l d).fault = d.fault
  | [], _ => rfl
  | s :: ss, d => by
    rw [writeSpans, writeSpans_fault buf ss]; split <;> rfl

theorem writeSpans_present_of_present (buf : ℕ → UInt8) :
    ∀ (l : List FileSpan) (d : Disk) (j : ℕ), d.present j → (writeSpans buf l d).present j
  | [], _, _, h => h
  | s :: ss, d, j, h => by
    rw [writeSpans]
    exact writeSpans_present_of_present buf ss _ j (by split <;> simp [h])

/-- Every nonempty file a write touches exists afterwards. -/
theorem writeSpans_present (buf : ℕ → UInt8) :
    ∀ (l : List FileSpan) (d : Disk), ∀ s ∈ l, 0 < s.file.length →
      (writeSpans buf l d).present s.fileIndex
  | [], _, _, hs, _ => absurd hs (List.not_mem_nil _)
  | s :: ss, d, s', hs', hlen => by
    rw [writeSpans]
    rcases List.mem_cons.1 hs' with rfl | hs'
    · exact writeSpans_present_of_present buf ss _ _ (by simp [Nat.pos_iff_ne_zero.1 hlen])
    · exact writeSpans_present buf ss _ s' hs' hlen

/-- A write leaves alone the bytes before its range whose file already existed. -/
theorem torrentByte_writeSpans_before {info : TrInfo} (buf : ℕ → UInt8) : ∀ (l : List FileSpan) (g pos len : ℕ) (d : Disk),
    Serves info l g pos len → ∀ x, x < g →
      (∀ i k, locateByte info.files 0 x = some (i, k) → d.present i) →
      (writeSpans buf l d).torrentByte info x = d.torrentByte info x
  | [], _, _, _, _, _, _, _, _ => rfl
  | s :: ss, g, pos, len, d, hs, x, hx, hp => by
    obtain ⟨hok, -, hss⟩ := serves_cons.1 hs
    rw [writeSpans, torrentByte_writeSpans_before buf ss _ _ _ _ hss x (by omega) fun i k h ↦ by
      split
      · exact hp i k h
      · simp [hp i k h]]
    split
    · rfl
    · unfold Disk.torrentByte
      split
      · rename_i i k h
        by_cases hi : i = s.fileIndex
        · subst hi
          obtain ⟨j, hj, hji, rfl, hjx⟩ := locateByte_spec h
          obtain rfl : j = s.fileIndex := by omega
          have hf : info.files[s.fileIndex] = s.file := by simpa [hj] using hok.file_eq
          have := hok.global_eq
          rw [hf] at hjx ⊢
          exact writeAt_bytes_of_present _ (hp _ _ h) _ _ _ (by omega)
        · exact writeAt_bytes_of_ne _ hi _ _ _ _
      · rfl

section Concat

variable {info : TrInfo} {t : ℕ} (hc : Contiguous 0 info.files t)
include hc

/-- **A write puts the buffer into the torrent.**  After the write calls of a list serving
`[g, g + len)` from `[pos, pos + len)`, byte `x` of that range is byte `pos + (x - g)` of the
buffer. -/
theorem torrentByte_writeSpans (buf : ℕ → UInt8) :
    ∀ (l : List FileSpan) (g pos len : ℕ) (d : Disk), Serves info l g pos len →
      ∀ x, g ≤ x → x < g + len → (writeSpans buf l d).torrentByte info x = buf (pos + (x - g))
  | [], _, _, _, _, hs, x, h1, h2 => by simp only [serves_nil] at hs; omega
  | s :: ss, g, pos, len, d, hs, x, h1, h2 => by
    obtain ⟨hok, hlen, hss⟩ := serves_cons.1 hs
    rw [writeSpans]
    by_cases hx : x < g + s.length
    · have hne : s.file.length ≠ 0 := by have := hok.end_le; omega
      have hloc := locateByte_of_spanOk hc hok h1 hx
      rw [if_neg hne, torrentByte_writeSpans_before buf ss _ _ _ _ hss x hx fun i k h ↦ by
        rw [hloc] at h; obtain ⟨rfl, -⟩ := Prod.mk.inj (Option.some.inj h); simp]
      simp only [Disk.torrentByte, hloc]
      rw [writeAt_bytes_self _ _ _ _ _ (by omega) (by omega), hok.bufPos_eq]
      congr 1; omega
    · rw [torrentByte_writeSpans buf ss _ _ _ _ hss x (by omega) (by omega)]
      congr 1; omega

omit hc in
/-- A read leaves the buffer before its range alone. -/
theorem readSpans_before (d : Disk) : ∀ (l : List FileSpan) (g pos len : ℕ) (buf : ℕ → UInt8),
    Serves info l g pos len → ∀ k, k < pos → readSpans d l buf k = buf k
  | [], _, _, _, _, _, _, _ => rfl
  | s :: ss, g, pos, len, buf, hs, k, hk => by
    obtain ⟨hok, -, hss⟩ := serves_cons.1 hs
    rw [readSpans, readSpans_before d ss _ _ _ _ hss k (by omega)]
    split
    · rfl
    · simp [overwrite, hok.bufPos_eq]; omega

/-- **A read takes the bytes of the torrent.**  After the read calls of a list serving
`[g, g + len)` into `[pos, pos + len)`, position `k` of that range holds byte `g + (k - pos)` of
the torrent. -/
theorem readSpans_eq_torrentByte (d : Disk) :
    ∀ (l : List FileSpan) (g pos len : ℕ) (buf : ℕ → UInt8), Serves info l g pos len →
      ∀ k, pos ≤ k → k < pos + len → readSpans d l buf k = d.torrentByte info (g + (k - pos))
  | [], _, _, _, _, hs, k, h1, h2 => by simp only [serves_nil] at hs; omega
  | s :: ss, g, pos, len, buf, hs, k, h1, h2 => by
    obtain ⟨hok, hlen, hss⟩ := serves_cons.1 hs
    rw [readSpans]
    by_cases hk : k < pos + s.length
    · have hne : s.file.length ≠ 0 := by have := hok.end_le; omega
      rw [readSpans_before d ss _ _ _ _ hss k hk, if_neg hne]
      simp only [Disk.torrentByte, locateByte_of_spanOk hc hok (show g ≤ g + (k - pos) by omega)
        (show g + (k - pos) < g + s.length by omega), overwrite, hok.bufPos_eq]
      rw [if_pos ⟨h1, hk⟩]
      congr 1; omega
    · rw [readSpans_eq_torrentByte d ss _ _ _ _ hss k (by omega) (by omega)]
      congr 1; omega

end Concat

/-- **Split correctness of the piece I/O.**  On a file table satisfying the layout invariant
(zero-length files anywhere), for every request in range: in every mode the loop of
`readOrWritePiece` stays on the table and makes one fixed list of calls, each satisfying the
assertions of `readOrWriteBytes`, whose ranges start at `g`, follow each other in the torrent and
in the buffer, and cover `[g, g + len)` exactly; and when no system call fails, `tr_ioWrite`
followed by `tr_ioRead` of the same range gives back the bytes written. -/
theorem readOrWritePiece_write_read {info : TrInfo} (hl : info.LayoutOk)
    {pieceIndex begin len : ℕ} (hp : pieceIndex < info.pieceCount)
    (hg : info.tr_pieceOffset pieceIndex begin 0 < info.totalSize)
    (hlen : info.tr_pieceOffset pieceIndex begin 0 + len ≤ info.totalSize) :
    (∃ l, Serves info l (info.tr_pieceOffset pieceIndex begin 0) 0 len ∧
      ∀ (mode : IoMode) (st : IoState),
        readOrWritePiece info mode pieceIndex begin len st = some (runSpans mode l st)) ∧
    ∀ (st : IoState) (out : ℕ → UInt8), (∀ m i, st.disk.fault m i = 0) →
      ∃ st₁ st₂, tr_ioWrite info pieceIndex begin len st = some (st₁, 0) ∧
        tr_ioRead info pieceIndex begin len { st₁ with buf := out } = some (st₂, 0) ∧
        ∀ k, k < len → st₂.buf k = st.buf k := by
  obtain ⟨l, hs, hrun⟩ := readOrWritePiece_serves hl hp hg hlen
  refine ⟨⟨l, hs, hrun⟩, fun st out hf ↦ ?_⟩
  let st₁ : IoState := { st with disk := writeSpans st.buf l st.disk }
  have hw : tr_ioWrite info pieceIndex begin len st = some (st₁, 0) := by
    rw [tr_ioWrite, hrun, runSpans_write_eq l st fun i ↦ hf _ i]
  have hr : tr_ioRead info pieceIndex begin len { st₁ with buf := out } =
      some ({ st₁ with buf := readSpans st₁.disk l out }, 0) := by
    rw [tr_ioRead, hrun, runSpans_read_eq l _ (fun s hs hlen ↦ writeSpans_present _ l _ s hs hlen)
      (by simpa [st₁] using fun i ↦ hf _ i)]
  refine ⟨st₁, _, hw, hr, fun k hk ↦ ?_⟩
  show readSpans st₁.disk l out k = st.buf k
  rw [readSpans_eq_torrentByte hl.contiguous _ l _ 0 len out hs k (Nat.zero_le _) (by omega),
    torrentByte_writeSpans hl.contiguous _ l _ 0 len _ hs _ (by omega) (by omega)]
  congr 1; omega

theorem readOrWritePiece_write_read_zeroLengthMiddle :
    zeroLengthMiddle.LayoutOk ∧ 1 < zeroLengthMiddle.pieceCount ∧
    zeroLengthMiddle.tr_pieceOffset 1 400 0 < zeroLengthMiddle.totalSize ∧
    zeroLengthMiddle.tr_pieceOffset 1 400 0 + 600 ≤ zeroLengthMiddle.totalSize ∧
    ((∃ l, Serves zeroLengthMiddle l (zeroLengthMiddle.tr_pieceOffset 1 400 0) 0 600 ∧
      ∀ (mode : IoMode) (st : IoState),
        readOrWritePiece zeroLengthMiddle mode 1 400 600 st = some (runSpans mode l st)) ∧
    ∀ (st : IoState) (out : ℕ → UInt8), (∀ m i, st.disk.fault m i = 0) →
      ∃ st₁ st₂, tr_ioWrite zeroLengthMiddle 1 400 600 st = some (st₁, 0) ∧
        tr_ioRead zeroLengthMiddle 1 400 600 { st₁ with buf := out } = some (st₂, 0) ∧
        ∀ k, k < 600 → st₂.buf k = st.buf k) :=
  ⟨zeroLengthMiddle_layoutOk, by decide, by decide, by decide,
    readOrWritePiece_write_read zeroLengthMiddle_layoutOk (by decide) (by decide) (by decide)⟩

end Transmission
