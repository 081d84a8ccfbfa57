import Transmission.Torrent

/-!
# Finding the file that holds a byte

`tr_ioFindFileLocation` turns a position inside a piece into a file and an offset in that file.
It computes the global offset `g` of the position and hands it to the C library's `bsearch`
over the file table, with `compareOffsetToFile` as the comparator.

`bsearch` only promises to find an element that compares equal when the array is partitioned by
the comparator: a prefix comparing greater than the key, then the matches, then a suffix comparing
less.  `compareOffsetToFile` makes zero-length files compare unequal to every offset — `+1` at or
after their position, `-1` before it — so on a table satisfying the layout invariant the
partition has exactly one match, the nonempty file whose bytes contain `g`
(`compareOffsetToFile_partition`).  The generic `bsearch_eq_of_partition` then finds it, and
`tr_ioFindFileLocation_spec` is the resulting contract: the file index is in range and the offset
lies inside that (nonempty) file.
-/

set_option autoImplicit false

namespace Transmission

/-! ## Facts about contiguous tables -/

namespace Contiguous

theorem offset_ge {o t : ℕ} : ∀ {fs : List TrFile}, Contiguous o fs t →
    ∀ (j : ℕ) (hj : j < fs.length), o ≤ fs[j].offset
  | [], _, j, hj => absurd hj (by simp)
  | f :: fs, ⟨hf, h⟩, 0, _ => by simp [hf]
  | f :: fs, ⟨_, h⟩, j + 1, hj => by
    have := offset_ge h j (by simpa using hj)
    simp only [List.getElem_cons_succ]; omega

theorem end_le_offset {o t : ℕ} : ∀ {fs : List TrFile}, Contiguous o fs t →
    ∀ (j k : ℕ) (hjk : j < k) (hk : k < fs.length),
      fs[j].offset + fs[j].length ≤ fs[k].offset
  | [], _, _, _, _, hk => absurd hk (by simp)
  | f :: fs, ⟨hf, h⟩, 0, k + 1, _, hk => by
    simpa [hf] using offset_ge h k (by simpa using hk)
  | f :: fs, ⟨_, h⟩, j + 1, k + 1, hjk, hk => by
    simpa using end_le_offset h j k (by omega) (by simpa using hk)

theorem le_total {o t : ℕ} : ∀ {fs : List TrFile}, Contiguous o fs t → o ≤ t
  | [], h => by simp [Contiguous] at h; omega
  | f :: fs, ⟨_, h⟩ => by have := le_total h; omega

theorem end_le_total {o t : ℕ} : ∀ {fs : List TrFile}, Contiguous o fs t →
    ∀ (j : ℕ) (hj : j < fs.length), fs[j].offset + fs[j].length ≤ t
  | [], _, j, hj => absurd hj (by simp)
  | f :: fs, ⟨hf, h⟩, 0, _ => by have := le_total h; simp; omega
  | f :: fs, ⟨_, h⟩, j + 1, hj => by simpa using end_le_total h j (by simpa using hj)

/-- At most one file of the table holds a given byte. -/
theorem container_unique {o t g : ℕ} {fs : List TrFile} (h : Contiguous o fs t) {i j : ℕ}
    (hi : i < fs.length) (hj : j < fs.length) (hi₁ : fs[i].offset ≤ g)
    (hi₂ : g < fs[i].offset + fs[i].length) (hj₁ : fs[j].offset ≤ g)
    (hj₂ : g < fs[j].offset + fs[j].length) : i = j := by
  rcases Nat.lt_trichotomy i j with hij | rfl | hij
  · have := h.end_le_offset i j hij hj; omega
  · rfl
  · have := h.end_le_offset j i hij hi; omega

/-- A byte of `[o, t)` lies in some file of the table, necessarily a nonempty one. -/
theorem exists_container {o t g : ℕ} : ∀ {fs : List TrFile}, Contiguous o fs t → o ≤ g → g < t →
    ∃ (i : ℕ) (hi : i < fs.length), fs[i].offset ≤ g ∧ g < fs[i].offset + fs[i].length
  | [], h, hog, hgt => by simp [Contiguous] at h; omega
  | f :: fs, ⟨hf, h⟩, hog, hgt => by
    by_cases hg : g < o + f.length
    · exact ⟨0, by simp, by simp; omega, by simp; omega⟩
    · obtain ⟨i, hi, h1, h2⟩ := exists_container h (by omega) hgt
      exact ⟨i + 1, by simpa using hi, by simpa using h1, by simpa using h2⟩

/-- The files from index `i` on lie end to end from the start of file `i`. -/
theorem drop {o t : ℕ} : ∀ {fs : List TrFile}, Contiguous o fs t →
    ∀ (i : ℕ) (hi : i < fs.length), Contiguous fs[i].offset (fs.drop i) t
  | [], _, i, hi => absurd hi (by simp)
  | f :: fs, ⟨hf, h⟩, 0, _ => by subst hf; exact ⟨rfl, h⟩
  | f :: fs, ⟨_, h⟩, i + 1, hi => by simpa using drop h i (by simpa using hi)

end Contiguous

/-! ## The comparator and the search -/

/-- `compareOffsetToFile`: `-1` when the offset lies before the file, `1` when it lies at or
after its end, `0` when the file's bytes contain it. -/
def compareOffsetToFile (offset : ℕ) (file : TrFile) : ℤ :=
  if offset < file.offset then -1
  else if offset ≥ file.offset + file.length then 1
  else 0

/-- The C library's `bsearch` as glibc writes it: halve `[l, u)` until the middle element
compares equal.  `cmp x` is the comparator applied to the key and `x`; the result is the index
of the element found. -/
def bsearch {α : Type} (cmp : α → ℤ) (xs : List α) : Option ℕ :=
  go 0 xs.length
where
  /-- The loop `while (l < u)` of `bsearch`. -/
  go (l u : ℕ) : Option ℕ :=
    if l < u then
      match xs[(l + u) / 2]? with
      | none => none
      | some x =>
        if cmp x < 0 then go l ((l + u) / 2)
        else if 0 < cmp x then go ((l + u) / 2 + 1) u
        else some ((l + u) / 2)
    else none
  termination_by u - l

section Search

variable {α : Type} {cmp : α → ℤ} {xs : List α} {i : ℕ}

/-- `xs` is partitioned by `cmp` around index `i`: greater before it, equal at it, less after. -/
structure Partitioned (cmp : α → ℤ) (xs : List α) (i : ℕ) : Prop where
  lt_length : i < xs.length
  before : ∀ (j : ℕ) (hj : j < xs.length), j < i → 0 < cmp xs[j]
  at_eq : cmp xs[i] = 0
  after : ∀ (j : ℕ) (hj : j < xs.length), i < j → cmp xs[j] < 0

theorem bsearch_go_eq (hp : Partitioned cmp xs i) (l u : ℕ) :
    l ≤ i → i < u → u ≤ xs.length → bsearch.go cmp xs l u = some i := by
  induction l, u using bsearch.go.induct cmp xs with
  | case1 l u _ hx => intro _ _ _; simp [show (l + u) / 2 < xs.length by omega] at hx
  | case2 l u hlu x hx hlt ih =>
    intro hl hu hlen
    have hm : (l + u) / 2 < xs.length := by omega
    obtain rfl : xs[(l + u) / 2] = x := by simpa [hm] using hx
    have hi : i < (l + u) / 2 := by
      rcases Nat.lt_trichotomy i ((l + u) / 2) with h | h | h
      · exact h
      · simp only [← h, hp.at_eq] at hlt; omega
      · exact absurd (hp.before _ hm h) (by omega)
    rw [bsearch.go, if_pos hlu, hx]
    simp only [if_pos hlt]
    exact ih hl hi (by omega)
  | case3 l u hlu x hx hlt hgt ih =>
    intro hl hu hlen
    have hm : (l + u) / 2 < xs.length := by omega
    obtain rfl : xs[(l + u) / 2] = x := by simpa [hm] using hx
    have hi : (l + u) / 2 < i := by
      rcases Nat.lt_trichotomy i ((l + u) / 2) with h | h | h
      · exact absurd (hp.after _ hm h) (by omega)
      · simp only [← h, hp.at_eq] at hgt; omega
      · exact h
    rw [bsearch.go, if_pos hlu, hx]
    simp only [if_neg hlt, if_pos hgt]
    exact ih (by omega) hu hlen
  | case4 l u hlu x hx hlt hgt =>
    intro _ _ _
    have hm : (l + u) / 2 < xs.length := by omega
    obtain rfl : xs[(l + u) / 2] = x := by simpa [hm] using hx
    have hi : (l + u) / 2 = i := by
      rcases Nat.lt_trichotomy ((l + u) / 2) i with h | h | h
      · exact absurd (hp.before _ hm h) (by omega)
      · exact h
      · exact absurd (hp.after _ hm h) (by omega)
    rw [bsearch.go, if_pos hlu, hx]
    simp only [if_neg hlt, if_neg hgt]
    rw [hi]
  | case5 l u hlu => intro _ _ _; omega

/-- On a partitioned array `bsearch` finds the one element that compares equal. -/
theorem bsearch_eq_of_partition (hp : Partitioned cmp xs i) : bsearch cmp xs = some i :=
  bsearch_go_eq hp 0 xs.length (Nat.zero_le _) hp.lt_length le_rfl

end Search

/-- On a contiguous table, the file containing `g` splits the table for `compareOffsetToFile g`:
every file before it ends at or before `g`, every file after it starts after `g`. -/
theorem compareOffsetToFile_partition {o t g : ℕ} {fs : List TrFile} (h : Contiguous o fs t)
    {i : ℕ} (hi : i < fs.length) (h1 : fs[i].offset ≤ g) (h2 : g < fs[i].offset + fs[i].length) :
    Partitioned (compareOffsetToFile g) fs i where
  lt_length := hi
  before j hj hji := by
    have := h.end_le_offset j i hji hi
    simp only [compareOffsetToFile]; split_ifs <;> omega
  at_eq := by simp only [compareOffsetToFile]; split_ifs <;> omega
  after j hj hij := by
    have := h.end_le_offset i j hij hj
    simp only [compareOffsetToFile]; split_ifs <;> omega

/-! ## `tr_ioFindFileLocation` -/

/-- `tr_ioFindFileLocation`: the file holding byte `pieceOffset` of piece `pieceIndex`, and the
offset of that byte in the file.  `none` stands for the `TR_ASSERT(file != nullptr)` that fails
when `bsearch` finds nothing. -/
def tr_ioFindFileLocation (info : TrInfo) (pieceIndex pieceOffset : ℕ) : Option (ℕ × ℕ) :=
  let offset := info.tr_pieceOffset pieceIndex pieceOffset 0
  match bsearch (compareOffsetToFile offset) info.files with
  | none => none
  | some i => info.files[i]?.map fun file ↦ (i, offset - file.offset)

/-- **The locator's contract.**  On a table satisfying the layout invariant, every in-range
offset is found in the unique nonempty file whose bytes contain it. -/
theorem tr_ioFindFileLocation_spec {info : TrInfo} (hl : info.LayoutOk) {pieceIndex pieceOffset : ℕ}
    (hg : info.tr_pieceOffset pieceIndex pieceOffset 0 < info.totalSize) :
    ∃ (i : ℕ) (hi : i < info.fileCount),
      tr_ioFindFileLocation info pieceIndex pieceOffset =
        some (i, info.tr_pieceOffset pieceIndex pieceOffset 0 - info.files[i].offset) ∧
      info.files[i].offset ≤ info.tr_pieceOffset pieceIndex pieceOffset 0 ∧
      info.tr_pieceOffset pieceIndex pieceOffset 0 < info.files[i].offset + info.files[i].length := by
  obtain ⟨i, hi, h1, h2⟩ := hl.contiguous.exists_container (Nat.zero_le _) hg
  refine ⟨i, hi, ?_, h1, h2⟩
  rw [tr_ioFindFileLocation, bsearch_eq_of_partition (compareOffsetToFile_partition
    hl.contiguous hi h1 h2)]
  simp [hi]

/-- **Locator coverage.**  On a table satisfying the layout invariant, every offset `g` below
`totalSize` lies in exactly one file, and that file is not empty; `compareOffsetToFile g` splits
the table around it, a prefix comparing `+1`, the file comparing `0`, a suffix comparing `-1`;
`bsearch` finds it; and `tr_ioFindFileLocation` of a position at `g` returns it, with the offset
of `g` inside it. -/
theorem tr_ioFindFileLocation_covers {info : TrInfo} (hl : info.LayoutOk) {g : ℕ}
    (hg : g < info.totalSize) :
    ∃ (i : ℕ) (f : TrFile), info.files[i]? = some f ∧ f.offset ≤ g ∧ g < f.offset + f.length ∧
      0 < f.length ∧
      (∀ (j : ℕ) (f' : TrFile), info.files[j]? = some f' → f'.offset ≤ g →
        g < f'.offset + f'.length → j = i) ∧
      Partitioned (compareOffsetToFile g) info.files i ∧
      bsearch (compareOffsetToFile g) info.files = some i ∧
      ∀ pieceIndex pieceOffset : ℕ, info.tr_pieceOffset pieceIndex pieceOffset 0 = g →
        tr_ioFindFileLocation info pieceIndex pieceOffset = some (i, g - f.offset) ∧
        i < info.fileCount ∧ g - f.offset < f.length ∧ f.offset + (g - f.offset) = g := by
  obtain ⟨i, hi, h₁, h₂⟩ := hl.contiguous.exists_container (Nat.zero_le _) hg
  have hp := compareOffsetToFile_partition hl.contiguous hi h₁ h₂
  refine ⟨i, _, List.getElem?_eq_getElem hi, h₁, h₂, by omega, fun j f' hj h₁' h₂' ↦ ?_, hp,
    bsearch_eq_of_partition hp, fun pieceIndex pieceOffset hpo ↦ ?_⟩
  · obtain ⟨hj', rfl⟩ := List.getElem?_eq_some_iff.1 hj
    exact hl.contiguous.container_unique hj' hi h₁' h₂' h₁ h₂
  · refine ⟨?_, hi, by omega, by omega⟩
    rw [tr_ioFindFileLocation, hpo, bsearch_eq_of_partition hp]
    simp [hi]

/-- A table with a zero-length file between two nonempty ones, in 512-byte pieces. -/
def zeroLengthMiddle : TrInfo :=
  { hash := [], torrent := "t", totalSize := 3000, pieceSize := 512, pieceCount := 6,
    files := [⟨1000, 0, false, "A"⟩, ⟨0, 1000, false, "B"⟩, ⟨2000, 1000, false, "C"⟩] }

theorem zeroLengthMiddle_layoutOk : zeroLengthMiddle.LayoutOk :=
  ⟨by decide, fun i h ↦ by rcases i with _ | _ | i <;> simp [zeroLengthMiddle] at h ⊢; omega,
    by decide⟩

/-- Byte 1000 starts both the empty file `B` and the file `C`: the search returns `C`. -/
theorem tr_ioFindFileLocation_covers_zeroLengthMiddle :
    zeroLengthMiddle.LayoutOk ∧ 1000 < zeroLengthMiddle.totalSize ∧
      bsearch (compareOffsetToFile 1000) zeroLengthMiddle.files = some 2 ∧
      tr_ioFindFileLocation zeroLengthMiddle 1 488 = some (2, 0) := by
  obtain ⟨i, f, hf, -, -, -, huniq, -, hb, hloc⟩ :=
    tr_ioFindFileLocation_covers zeroLengthMiddle_layoutOk (by decide : 1000 < 3000)
  obtain rfl : 2 = i := huniq 2 ⟨2000, 1000, false, "C"⟩ rfl (by decide) (by decide)
  obtain rfl : f = ⟨2000, 1000, false, "C"⟩ := by simp [zeroLengthMiddle] at hf; exact hf.symm
  exact ⟨zeroLengthMiddle_layoutOk, by decide, hb, (hloc 1 488 rfl).1⟩

end Transmission
