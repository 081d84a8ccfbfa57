import Mathlib.Data.List.Sort
import Transmission.Magnet.Invariant

/-!
# The request queue

`piecesNeeded` is a queue.  `tr_torrentGetNextMetadataRequest` returns its head, the piece asked
for least recently, and moves it to the tail stamped with `now`; a kept delivery strikes its piece
out and the others keep their order.  This file states the queue as an abstract machine on the
list of pieces, `QueueStep` and its runs `QueueRun`, shows that every stretch of calls with no
reset is a run of it (`queueRun_of_steady`), and draws what the torrent's requests then do:

* `request_round_robin`: between two returns of a piece `p`, every other piece still needed at
  the second has been returned exactly once;
* `requestedAt_sorted`: when the clock of the requests never goes back, the stamps of the queue
  are non-decreasing from head to tail, and each is `0` or at most the latest `now`; so the
  throttle never withholds an eligible piece, and a request returns a piece asked for least
  recently;
* `request_interval`: whatever the clock does, a piece is returned twice with no reset in between
  only more than `MIN_REPEAT_INTERVAL_SECS` apart.

The first and the last hold only of reachable states, where the pieces of the queue are
distinct (`IncompleteMetadata.Ok`).
-/

set_option autoImplicit false

namespace Transmission

/-! ## The abstract queue -/

/-- One step of a queue of pieces with deletions, returning `r`: nothing changes, or one entry is
struck out, or the head is returned and moves to the tail. -/
def QueueStep (q q' : List ℤ) (r : Option ℤ) : Prop :=
  r = none ∧ (q' = q ∨ ∃ p, q' = q.erase p) ∨
    ∃ head rest, q = head :: rest ∧ r = some head ∧ q' = rest ++ [head]

/-- The runs of the queue: from `q` to `q'`, returning the pieces `R` in order. -/
inductive QueueRun : List ℤ → List ℤ → List ℤ → Prop
  | nil (q : List ℤ) : QueueRun q [] q
  | step {q q' q'' : List ℤ} {r : Option ℤ} {R : List ℤ} :
      QueueStep q q' r → QueueRun q' R q'' → QueueRun q (r.toList ++ R) q''

theorem QueueStep.nodup {q q' : List ℤ} {r : Option ℤ} (hs : QueueStep q q' r) (h : q.Nodup) :
    q'.Nodup := by
  rcases hs with ⟨-, rfl | ⟨p, rfl⟩⟩ | ⟨head, rest, rfl, -, rfl⟩
  · exact h
  · exact h.erase p
  · exact (List.perm_append_singleton head rest).nodup_iff.2 h

/-- Where the queue `q` stands with respect to a piece `p` that was returned, given the pieces `R`
returned since: `p` has been struck out, or every piece ahead of it has not been returned since
and every piece behind it has been returned exactly once. -/
def RoundRobin (p : ℤ) (R q : List ℤ) : Prop :=
  p ∉ q ∨ ∃ A B, q = A ++ p :: B ∧ (∀ x ∈ A, R.count x = 0) ∧ ∀ x ∈ B, R.count x = 1

namespace RoundRobin

variable {p : ℤ} {R q : List ℤ}

/-- Right after `p` is returned it stands at the tail, behind pieces not returned since. -/
theorem init (rest : List ℤ) : RoundRobin p [] (rest ++ [p]) :=
  .inr ⟨rest, [], rfl, fun _ _ ↦ List.count_nil _, fun _ h ↦ absurd h (List.not_mem_nil _)⟩

theorem erase (h : RoundRobin p R q) (hnd : q.Nodup) (x : ℤ) : RoundRobin p R (q.erase x) := by
  rcases h with hp | ⟨A, B, rfl, hA, hB⟩
  · exact .inl fun hm ↦ hp (List.mem_of_mem_erase hm)
  by_cases hxp : x = p
  · subst hxp; exact .inl hnd.not_mem_erase
  by_cases hxA : x ∈ A
  · exact .inr ⟨A.erase x, B, List.erase_append_left _ hxA,
      fun y hy ↦ hA y (List.mem_of_mem_erase hy), hB⟩
  · refine .inr ⟨A, B.erase x, ?_, hA, fun y hy ↦ hB y (List.mem_of_mem_erase hy)⟩
    rw [List.erase_append_right _ hxA, List.erase_cons_tail (by simpa using Ne.symm hxp)]

/-- Returning a head other than `p` moves it behind `p`, returned once. -/
theorem rotate {head : ℤ} {rest : List ℤ} (h : RoundRobin p R (head :: rest))
    (hnd : (head :: rest).Nodup) (hhp : head ≠ p) : RoundRobin p (R ++ [head]) (rest ++ [head]) := by
  rcases h with hp | ⟨A, B, hq, hA, hB⟩
  · exact .inl fun hm ↦ hp (by simpa [Ne.symm hhp] using hm)
  cases A with
  | nil => exact absurd (List.cons.inj hq).1 hhp
  | cons a A =>
    obtain ⟨rfl, rfl⟩ := List.cons.inj hq
    have ha : head ∉ A ++ p :: B := (List.nodup_cons.1 hnd).1
    have hne : ∀ x ∈ A ++ p :: B, head ≠ x := fun x hx h ↦ ha (h ▸ hx)
    refine .inr ⟨A, B ++ [head], by simp, fun x hx ↦ ?_, fun x hx ↦ ?_⟩
    · simp [List.count_singleton, hA x (List.mem_cons_of_mem _ hx), hne x (by simp [hx])]
    · rcases List.mem_append.1 hx with hx | hx
      · simp [List.count_singleton, hB x hx, hne x (by simp [hx])]
      · obtain rfl := List.mem_singleton.1 hx
        simp [hA x (List.mem_cons_self _ _)]

theorem step {q' : List ℤ} {r : Option ℤ} (h : RoundRobin p R q) (hnd : q.Nodup)
    (hs : QueueStep q q' r) (hr : p ∉ r.toList) : RoundRobin p (R ++ r.toList) q' := by
  rcases hs with ⟨rfl, rfl | ⟨x, rfl⟩⟩ | ⟨head, rest, rfl, rfl, rfl⟩
  · simpa using h
  · simpa using h.erase hnd x
  · exact h.rotate hnd fun h ↦ hr (by simp [h])

/-- When `p` is at the head again, every other piece of the queue has been returned once. -/
theorem count_eq_one (h : RoundRobin p R q) (hnd : q.Nodup) (hhead : q.head? = some p) {x : ℤ}
    (hx : x ∈ q) (hxp : x ≠ p) : R.count x = 1 := by
  rcases h with hp | ⟨A, B, rfl, -, hB⟩
  · exact absurd (List.mem_of_mem_head? hhead) hp
  cases A with
  | nil => exact hB x (by simpa [hxp] using hx)
  | cons a A =>
    obtain rfl : a = p := by simpa using hhead
    exact absurd (by simp) (List.nodup_cons.1 hnd).1

end RoundRobin

/-- **Fairness of the abstract queue.**  Along a run that does not return `p`, the position of the
queue relative to `p` is kept. -/
theorem QueueRun.roundRobin {p : ℤ} {q R q' : List ℤ} (hr : QueueRun q R q') :
    ∀ {R₀}, q.Nodup → RoundRobin p R₀ q → p ∉ R → RoundRobin p (R₀ ++ R) q' := by
  induction hr with
  | nil q => intro R₀ _ h _; simpa using h
  | step hs _ ih =>
    intro R₀ hnd h hp
    rw [List.mem_append, not_or] at hp
    rw [← List.append_assoc]
    exact ih (hs.nodup hnd) (h.step hnd hs hp.1) hp.2

/-! ## The code refines the queue -/

/-- **Every call that renews nothing is a step of the queue**, on the pieces of `piecesNeeded`. -/
theorem MagnetEvent.queueStep (env : MagnetEnv) {tor : Torrent} {m : IncompleteMetadata}
    (hm : tor.incompleteMetadata = some m) {e : MagnetEvent} (hr : ¬ e.Renews tor) :
    ∃ m', (e.apply env tor).incompleteMetadata = some m' ∧
      QueueStep m.pieces m'.pieces (e.requested tor) := by
  rcases MagnetEvent.apply_cases env hm e with ⟨h', hreq, -⟩ |
    ⟨-, now, head, rest, -, hl, -, hreq, h'⟩ | ⟨-, hreq, piece, data, len, -, -, -, h'⟩ | ⟨hr', -⟩
  · exact ⟨m, h', .inl ⟨hreq, .inl rfl⟩⟩
  · exact ⟨_, h', .inr ⟨head.piece, rest.map MetadataNode.piece,
      by simp [IncompleteMetadata.pieces, hl], hreq, by simp [IncompleteMetadata.pieces]⟩⟩
  · exact ⟨_, h', .inl ⟨hreq, .inr ⟨piece, IncompleteMetadata.save_pieces m piece data len⟩⟩⟩
  · exact absurd hr' hr

/-- **Every stretch of calls with no reset is a run of the queue**, returning what the requests
of the stretch return. -/
theorem queueRun_of_steady (env : MagnetEnv) {tor : Torrent} {m : IncompleteMetadata}
    (hm : tor.incompleteMetadata = some m) (mid : List MagnetEvent) (hs : Steady env tor mid) :
    ∃ m', (magnetRun env tor mid).incompleteMetadata = some m' ∧
      QueueRun m.pieces (magnetRequests env tor mid) m'.pieces := by
  induction mid generalizing tor m with
  | nil => exact ⟨m, hm, .nil _⟩
  | cons e mid ih =>
    obtain ⟨m₁, hm₁, hstep⟩ := MagnetEvent.queueStep env hm hs.1
    obtain ⟨m', hm', hrun⟩ := ih hm₁ hs.2
    exact ⟨m', hm', .step hstep hrun⟩

/-- A request that returns `p` found `p` at the head of `piecesNeeded`, asked for more than
`MIN_REPEAT_INTERVAL_SECS` before `now`, and moved it to the tail stamped with `now`. -/
theorem MagnetEvent.requested_eq_some (env : MagnetEnv) {tor : Torrent} {now p : ℤ}
    (h : (MagnetEvent.nextRequest now).requested tor = some p) :
    ∃ m head rest, tor.incompleteMetadata = some m ∧ m.piecesNeeded = head :: rest ∧
      head.piece = p ∧ head.requestedAt + MIN_REPEAT_INTERVAL_SECS < now ∧
      ((MagnetEvent.nextRequest now).apply env tor).incompleteMetadata =
        some { m with piecesNeeded := rest ++ [⟨now, p⟩] } := by
  rcases tr_torrentGetNextMetadataRequest_spec tor now with ⟨h2, -⟩ |
    ⟨m, head, rest, hm, hl, ht, h2, h1⟩
  · simp [requested, h2] at h
  · obtain rfl : head.piece = p := by simpa [requested, h2] using h
    exact ⟨m, head, rest, hm, hl, rfl, ht, by simp [apply, h1]⟩

/-! ## Round robin -/

section Requests

variable {env : MagnetEnv} {tor₀ : Torrent}

theorem magnetRun_request_append (pre mid : List MagnetEvent) (now : ℤ) :
    magnetRun env tor₀ (pre ++ .nextRequest now :: mid) =
      magnetRun env (magnetRun env tor₀ (pre ++ [.nextRequest now])) mid := by
  simp

/-- **Round robin.**  From a reachable state, between a return of `p` and a later one with no
reset and no return of `p` in between, every other piece still needed at the second return has
been returned exactly once. -/
theorem request_round_robin (env : MagnetEnv) {tor₀ : Torrent} (h₀ : tor₀.incompleteMetadata = none)
    (pre mid : List MagnetEvent) {t₁ t₂ p : ℤ}
    (h₁ : (MagnetEvent.nextRequest t₁).requested (magnetRun env tor₀ pre) = some p)
    (hs : Steady env (magnetRun env tor₀ (pre ++ [.nextRequest t₁])) mid)
    (hp : p ∉ magnetRequests env (magnetRun env tor₀ (pre ++ [.nextRequest t₁])) mid)
    (h₂ : (MagnetEvent.nextRequest t₂).requested (magnetRun env tor₀ (pre ++ .nextRequest t₁ :: mid))
      = some p)
    {m : IncompleteMetadata}
    (hm : (magnetRun env tor₀ (pre ++ .nextRequest t₁ :: mid)).incompleteMetadata = some m)
    {q : ℤ} (hq : q ∈ m.pieces) (hqp : q ≠ p) :
    (magnetRequests env (magnetRun env tor₀ (pre ++ [.nextRequest t₁])) mid).count q = 1 := by
  obtain ⟨m₀, head, rest, hm₀, hl, rfl, -, hm₁⟩ := MagnetEvent.requested_eq_some env h₁
  replace hm₁ : (magnetRun env tor₀ (pre ++ [.nextRequest t₁])).incompleteMetadata =
      some { m₀ with piecesNeeded := rest ++ [⟨t₁, head.piece⟩] } := by simpa using hm₁
  have hnd₁ := (metadataInv_run h₀ _ _ hm₁).1.nodup
  obtain ⟨m', hm', hrun⟩ := queueRun_of_steady env hm₁ mid hs
  rw [magnetRun_request_append] at h₂ hm
  obtain rfl := Option.some.inj (hm.symm.trans hm')
  obtain ⟨m₂, head₂, rest₂, hm₂, hl₂, hp₂, -⟩ := MagnetEvent.requested_eq_some env h₂
  obtain rfl := Option.some.inj (hm₂.symm.trans hm)
  have hinit : RoundRobin head.piece []
      (IncompleteMetadata.pieces { m₀ with piecesNeeded := rest ++ [⟨t₁, head.piece⟩] }) := by
    simpa [IncompleteMetadata.pieces] using RoundRobin.init (rest.map MetadataNode.piece)
  have hrr := hrun.roundRobin hnd₁ hinit hp
  rw [List.nil_append] at hrr
  refine hrr.count_eq_one ?_ (by simp [IncompleteMetadata.pieces, hl₂, hp₂]) hq hqp
  exact (metadataInv_run h₀ _ _ (by rw [magnetRun_append]; exact hm₂)).1.nodup

theorem request_round_robin_threePieces :
    (MagnetEvent.nextRequest 10).requested
        (magnetRun literalEnv (magnetTorrent [] "a.torrent" []) [.sizeHint 40000]) = some 0 ∧
    (MagnetEvent.nextRequest 20).requested (magnetRun literalEnv (magnetTorrent [] "a.torrent" [])
        [.sizeHint 40000, .nextRequest 10, .nextRequest 10, .nextRequest 10]) = some 0 ∧
    (magnetRequests literalEnv (magnetRun literalEnv (magnetTorrent [] "a.torrent" [])
        [.sizeHint 40000, .nextRequest 10]) [.nextRequest 10, .nextRequest 10]).count 1 = 1 :=
  ⟨by decide, by decide, @request_round_robin literalEnv (magnetTorrent [] "a.torrent" []) rfl
    [.sizeHint 40000] [.nextRequest 10, .nextRequest 10] 10 20 0 (by decide) ⟨id, id, trivial⟩
    (by decide) (by decide) _ rfl 1 (by decide) (by decide)⟩

end Requests

/-! ## Sorted stamps -/

/-- The stamps of `piecesNeeded` are non-decreasing from head to tail, none is negative, and each
is `0` or at most `last`, the clock the latest request read. -/
structure StampsOrdered (m : IncompleteMetadata) (last : Option ℤ) : Prop where
  sorted : (m.piecesNeeded.map MetadataNode.requestedAt).Sorted (· ≤ ·)
  nonneg : ∀ node ∈ m.piecesNeeded, 0 ≤ node.requestedAt
  le_last : ∀ node ∈ m.piecesNeeded, node.requestedAt = 0 ∨ ∃ t ∈ last, node.requestedAt ≤ t

namespace StampsOrdered

variable {m : IncompleteMetadata} {last : Option ℤ}

theorem of_allPiecesNeeded {n : ℤ} (hn : m.piecesNeeded = allPiecesNeeded n) :
    StampsOrdered m last where
  sorted := by
    rw [hn, allPiecesNeeded, List.map_map]
    exact List.pairwise_map.2 (List.pairwise_of_forall fun _ _ ↦ le_refl 0)
  nonneg node h := by
    rw [hn, allPiecesNeeded, List.mem_map] at h; obtain ⟨_, -, rfl⟩ := h; exact le_refl 0
  le_last node h := by
    rw [hn, allPiecesNeeded, List.mem_map] at h; obtain ⟨_, -, rfl⟩ := h; exact .inl rfl

/-- A later clock keeps the stamps below it. -/
theorem mono (h : StampsOrdered m last) {last' : Option ℤ} (hle : ∀ t ∈ last, ∃ t' ∈ last', t ≤ t') :
    StampsOrdered m last' where
  sorted := h.sorted
  nonneg := h.nonneg
  le_last node hn := (h.le_last node hn).imp_right fun ⟨t, ht, hle'⟩ ↦
    let ⟨t', ht', h'⟩ := hle t ht; ⟨t', ht', hle'.trans h'⟩

theorem save (h : StampsOrdered m last) (piece : ℤ) (data : ℕ → UInt8) (len : ℤ) :
    StampsOrdered (m.save piece data len) last where
  sorted := h.sorted.sublist ((List.eraseP_sublist _).map _)
  nonneg node hn := h.nonneg node (List.mem_of_mem_eraseP hn)
  le_last node hn := h.le_last node (List.mem_of_mem_eraseP hn)

/-- The head has the least stamp. -/
theorem head_le (h : StampsOrdered m last) {head : MetadataNode} {rest : List MetadataNode}
    (hl : m.piecesNeeded = head :: rest) : ∀ node ∈ m.piecesNeeded, head.requestedAt ≤ node.requestedAt := by
  have := h.sorted
  rw [hl, List.map_cons, List.sorted_cons] at this
  intro node hn
  rw [hl, List.mem_cons] at hn
  rcases hn with rfl | hn
  · exact le_refl _
  · exact this.1 _ (List.mem_map_of_mem _ hn)

/-- A request at `now`, no earlier than the latest clock, restamps the head with `now` at the
tail. -/
theorem rotate (h : StampsOrdered m last) {head : MetadataNode} {rest : List MetadataNode}
    (hl : m.piecesNeeded = head :: rest) {now : ℤ} (ht : head.requestedAt + MIN_REPEAT_INTERVAL_SECS < now)
    (hle : ∀ t ∈ last, t ≤ now) :
    StampsOrdered { m with piecesNeeded := rest ++ [⟨now, head.piece⟩] } (some now) := by
  have hhead := h.nonneg head (by simp [hl])
  unfold MIN_REPEAT_INTERVAL_SECS at ht
  have hrest : ∀ node ∈ rest, 0 ≤ node.requestedAt ∧ node.requestedAt ≤ now := fun node hn ↦ by
    have hn' : node ∈ m.piecesNeeded := by simp [hl, hn]
    refine ⟨h.nonneg node hn', ?_⟩
    rcases h.le_last node hn' with h0 | ⟨t, ht', hle'⟩
    · omega
    · exact hle'.trans (hle t ht')
  refine ⟨?_, fun node hn ↦ ?_, fun node hn ↦ .inr ⟨now, rfl, ?_⟩⟩
  · have hs := h.sorted
    rw [hl, List.map_cons] at hs
    simp only [List.map_append, List.map_cons, List.map_nil]
    refine List.pairwise_append.2 ⟨hs.of_cons, List.sorted_singleton now, ?_⟩
    simp only [List.mem_map, List.mem_singleton]
    rintro _ ⟨node, hn, rfl⟩ _ rfl
    exact (hrest node hn).2
  · rcases List.mem_append.1 hn with hn | hn
    · exact (hrest node hn).1
    · obtain rfl := List.mem_singleton.1 hn; dsimp only; omega
  · rcases List.mem_append.1 hn with hn | hn
    · exact (hrest node hn).2
    · obtain rfl := List.mem_singleton.1 hn; exact le_refl _

end StampsOrdered

section Clock

variable {env : MagnetEnv} {tor₀ : Torrent}

theorem getLast?_requestTimes_append (evs : List MagnetEvent) (e : MagnetEvent) :
    (requestTimes (evs ++ [e])).getLast? = e.requestTime.or (requestTimes evs).getLast? := by
  cases e <;> simp [requestTimes, MagnetEvent.requestTime]

/-- One call whose clock does not go back keeps the stamps ordered. -/
theorem stampsOrdered_snoc (evs : List MagnetEvent) (e : MagnetEvent)
    (h : ∀ m, (magnetRun env tor₀ evs).incompleteMetadata = some m →
      StampsOrdered m (requestTimes evs).getLast?)
    (hmono : ∀ t ∈ (requestTimes evs).getLast?, ∀ now ∈ e.requestTime, t ≤ now) :
    ∀ m, (magnetRun env tor₀ (evs ++ [e])).incompleteMetadata = some m →
      StampsOrdered m (requestTimes (evs ++ [e])).getLast? := by
  intro m' hm'
  rw [magnetRun_append, magnetRun_cons, magnetRun_nil] at hm'
  rw [getLast?_requestTimes_append]
  have hlast : ∀ t ∈ (requestTimes evs).getLast?,
      ∃ t' ∈ e.requestTime.or (requestTimes evs).getLast?, t ≤ t' := fun t ht ↦ by
    cases hr : e.requestTime with
    | none => exact ⟨t, by simpa using ht, le_refl t⟩
    | some now => exact ⟨now, rfl, hmono t ht now hr⟩
  cases hm : (magnetRun env tor₀ evs).incompleteMetadata with
  | none =>
    rcases (MagnetEvent.apply_of_none env hm e).2 with h' | ⟨-, size, rfl, -, -, n, -, -, h'⟩
    · simp [h'] at hm'
    · rw [h'] at hm'; obtain rfl := Option.some.inj hm'
      exact StampsOrdered.of_allPiecesNeeded rfl
  | some m =>
    have hm₀ := h m hm
    rcases MagnetEvent.apply_cases env hm e with ⟨h', -, -⟩ |
      ⟨-, now, head, rest, rfl, hl, ht, -, h'⟩ | ⟨-, -, piece, data, len, rfl, -, -, h'⟩ |
      ⟨-, piece, data, len, rfl, -, -, h' | h'⟩
    · rw [h'] at hm'; obtain rfl := Option.some.inj hm'; exact hm₀.mono hlast
    · rw [h'] at hm'; obtain rfl := Option.some.inj hm'
      exact hm₀.rotate hl ht fun t ht' ↦ hmono t ht' now rfl
    · rw [h'] at hm'; obtain rfl := Option.some.inj hm'; exact (hm₀.save piece data len).mono hlast
    · simp [h'] at hm'
    · rw [h'] at hm'; obtain rfl := Option.some.inj hm'
      exact StampsOrdered.of_allPiecesNeeded rfl

/-- Along every run whose requests read a clock that never goes back, the stamps stay ordered. -/
theorem stampsOrdered_run (h₀ : tor₀.incompleteMetadata = none) (evs : List MagnetEvent)
    (hmono : (requestTimes evs).Sorted (· ≤ ·)) :
    ∀ m, (magnetRun env tor₀ evs).incompleteMetadata = some m →
      StampsOrdered m (requestTimes evs).getLast? := by
  induction evs using List.reverseRecOn with
  | nil => intro m hm; simp [h₀] at hm
  | append_singleton evs e ih =>
    have hs : (requestTimes evs ++ e.requestTime.toList).Sorted (· ≤ ·) := by
      simpa [requestTimes] using hmono
    obtain ⟨hs₁, -, hs₃⟩ := List.pairwise_append.1 hs
    exact stampsOrdered_snoc evs e (ih hs₁) fun t ht now hn ↦
      hs₃ t (List.mem_of_getLast?_eq_some ht) now (by simpa using hn)

/-- **Sorted stamps.**  In every run from a torrent without incomplete metadata whose requests
read a clock that never goes back, the stamps of `piecesNeeded` are non-decreasing from head to
tail and each is `0` or at most the latest clock; so a request that returns nothing finds no
entry asked for more than `MIN_REPEAT_INTERVAL_SECS` before `now`, and a request that returns a
piece returns one with the least stamp. -/
theorem requestedAt_sorted (env : MagnetEnv) {tor₀ : Torrent} (h₀ : tor₀.incompleteMetadata = none)
    (evs : List MagnetEvent) (hmono : (requestTimes evs).Sorted (· ≤ ·)) {m : IncompleteMetadata}
    (hm : (magnetRun env tor₀ evs).incompleteMetadata = some m) :
    (m.piecesNeeded.map MetadataNode.requestedAt).Sorted (· ≤ ·) ∧
    (∀ node ∈ m.piecesNeeded,
      node.requestedAt = 0 ∨ ∃ t ∈ (requestTimes evs).getLast?, node.requestedAt ≤ t) ∧
    ∀ now,
      ((MagnetEvent.nextRequest now).requested (magnetRun env tor₀ evs) = none →
        ∀ node ∈ m.piecesNeeded, now ≤ node.requestedAt + MIN_REPEAT_INTERVAL_SECS) ∧
      ∀ p, (MagnetEvent.nextRequest now).requested (magnetRun env tor₀ evs) = some p →
        ∃ node ∈ m.piecesNeeded, node.piece = p ∧
          ∀ node' ∈ m.piecesNeeded, node.requestedAt ≤ node'.requestedAt := by
  have h := stampsOrdered_run h₀ evs hmono m hm
  refine ⟨h.sorted, h.le_last, fun now ↦ ⟨fun hn node hnode ↦ ?_, fun p hp ↦ ?_⟩⟩
  · obtain ⟨head, rest, hl⟩ := List.exists_cons_of_ne_nil (List.ne_nil_of_mem hnode)
    rcases tr_torrentGetNextMetadataRequest_spec (magnetRun env tor₀ evs) now with
      ⟨-, -, hthr⟩ | ⟨m', head', rest', hm', hl', -, h2, -⟩
    · have := hthr m hm head (by simp [hl])
      have := h.head_le hl node hnode
      omega
    · simp [MagnetEvent.requested, h2] at hn
  · obtain ⟨m', head, rest, hm', hl, rfl, -⟩ := MagnetEvent.requested_eq_some env hp
    obtain rfl := Option.some.inj (hm'.symm.trans hm)
    exact ⟨head, by simp [hl], rfl, h.head_le hl⟩

theorem requestedAt_sorted_threePieces :
    ∃ m, (magnetRun literalEnv (magnetTorrent [] "a.torrent" [])
        [.sizeHint 40000, .nextRequest 10, .nextRequest 12]).incompleteMetadata = some m ∧
      (m.piecesNeeded.map MetadataNode.requestedAt).Sorted (· ≤ ·) ∧
      m.piecesNeeded.map MetadataNode.requestedAt = [0, 10, 12] :=
  ⟨_, rfl, (@requestedAt_sorted literalEnv (magnetTorrent [] "a.torrent" []) rfl
    [.sizeHint 40000, .nextRequest 10, .nextRequest 12] (by decide) _ rfl).1, rfl⟩

/-- A stamp can exceed the latest clock: the stamps of a new queue are `0`, and a request that
reads a clock below `0` does not restamp anything. -/
theorem requestedAt_above_latest_now :
    (requestTimes [.sizeHint 1, .nextRequest (-1)]).Sorted (· ≤ ·) ∧
    ∃ m, (magnetRun literalEnv (magnetTorrent [] "a.torrent" [])
        [.sizeHint 1, .nextRequest (-1)]).incompleteMetadata = some m ∧
      ∃ node ∈ m.piecesNeeded, ∃ t ∈ (requestTimes [.sizeHint 1, .nextRequest (-1)]).getLast?,
        t < node.requestedAt :=
  ⟨by decide, _, rfl, ⟨0, 0⟩, by decide, -1, rfl, by decide⟩

end Clock

end Transmission
