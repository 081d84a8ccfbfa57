import Mathlib.Data.List.Basic

/-!
# The message log window

The GTK client shows libtransmission's log in a window.  `msgwin.cc` keeps every message it has
taken from the library in a persistent list `myHead .. myTail`, which outlives the window, and
shows them as the rows of a `GtkListStore`.  A timer calls `onRefresh`, which takes the messages
queued since the last call (`tr_logGetQueue`), adds them to the store with `addMessages`, and
links them after `myTail`; `onClearRequest` empties both; a new window first adds the whole
persistent list, then refreshes once.

The list is modelled as the list it represents: `myHead .. myTail` is `MsgLog.persistent`, and
linking a batch after `myTail` is appending it.  The rows are those of `data->store`, row `0`
first, as `gtk_list_store_insert_with_values(store, nullptr, 0, ...)` puts each new row on top.

`addMessages` walks its list with `for (i = head; i != nullptr && i->next != nullptr; ...)`, so it
stops on the last node without inserting it, and returns it as the tail.  The window therefore
never shows the last message of a batch, nor the last of the persistent list it starts from:

* `addMessagesLoop_spec` says what one walk adds;
* `ShowsChunks.run` proves, from the step lemma `ShowsChunks.apply` and by induction on any run
  of refreshes, clears and pauses, that the persistent list is a concatenation of nonempty chunks
  (the list the window started from, then one chunk per nonempty batch since) and that the rows
  are those chunks with the last message of each one dropped;
* `msgWindow_drops_last_of_batch` concludes that the rows never show the whole persistent list
  once it is not empty, and that a window opened on an empty log and refreshed with one message
  shows no row.
-/

set_option autoImplicit false

namespace Transmission

/-- `tr_log_level`: `TR_LOG_ERROR`, `TR_LOG_INFO`, `TR_LOG_DEBUG`. -/
inductive TrLogLevel where
  | error
  | info
  | debug
  deriving DecidableEq, Repr

/-- `struct tr_log_message`, with the fields the window reads; its `next` field is the position
it holds in its list. -/
structure TrLogMessage where
  level : TrLogLevel
  /-- The line of the source file that logged it. -/
  line : ℕ
  file : String
  /-- The torrent or component that logged it, if any. -/
  name : Option String
  message : String
  deriving DecidableEq, Repr

/-- A row of `data->store`: the columns `COL_SEQUENCE`, `COL_NAME`, `COL_MESSAGE`, `COL_TR_MSG`. -/
structure MsgRow where
  sequence : ℕ
  name : String
  message : String
  trMsg : TrLogMessage
  deriving DecidableEq, Repr

/-- What the window's callbacks read and write: the rows of `data->store` and `data->isPaused`,
which belong to the window, and the persistent list `myHead .. myTail`, the `static` counter
`sequence` of `addMessages` and the lines `g_warning` has printed, which outlive it. -/
structure MsgLog where
  store : List MsgRow
  isPaused : Bool
  persistent : List TrLogMessage
  sequence : ℕ
  warnings : List String
  deriving DecidableEq, Repr

/-- The line `addMessages` prints for an error: `"%s:%d %s"` of the file, line and message, and
`" (%s)"` of the name when there is one. -/
def errorLine (i : TrLogMessage) : String :=
  i.file ++ ":" ++ toString i.line ++ " " ++ i.message ++
    match i.name with
    | some name => " (" ++ name ++ ")"
    | none => ""

/-- One pass of `addMessages`'s loop: insert node `i` as row `0`, numbered `++sequence`, named
`default_name` when it has no name, and print it when it is an error. -/
def insertMessage (defaultName : String) (w : MsgLog) (i : TrLogMessage) : MsgLog :=
  { w with
    store := ⟨w.sequence + 1, i.name.getD defaultName, i.message, i⟩ :: w.store
    sequence := w.sequence + 1
    warnings := if i.level = .error then w.warnings ++ [errorLine i] else w.warnings }

/-- The loop of `addMessages(store, head)`: it runs while `i != nullptr && i->next != nullptr`,
and returns `i`, the node it stopped on. -/
def addMessagesLoop (defaultName : String) : MsgLog → List TrLogMessage → MsgLog × Option TrLogMessage
  | w, [] => (w, none)
  | w, [i] => (w, some i)
  | w, i :: j :: rest => addMessagesLoop defaultName (insertMessage defaultName w i) (j :: rest)

/-- `onRefresh`, with `queue` the list `tr_logGetQueue` returns: unless the window is paused, add
the queued messages to the store and link them after `myTail`. -/
def onRefresh (defaultName : String) (w : MsgLog) (queue : List TrLogMessage) : MsgLog :=
  if w.isPaused then w
  else match queue with
    | [] => w
    | msgs =>
      let w' := (addMessagesLoop defaultName w msgs).1
      { w' with persistent := w'.persistent ++ msgs }

/-- `onClearRequest`: clear the store and free the persistent list. -/
def onClearRequest (w : MsgLog) : MsgLog :=
  { w with store := [], persistent := [] }

/-- `onPauseToggled`. -/
def onPauseToggled (w : MsgLog) (paused : Bool) : MsgLog :=
  { w with isPaused := paused }

/-- `gtr_message_log_window_new`, on the log `w` the process holds: a new store, unpaused, filled
with `addMessages(data->store, myHead)`, then one `onRefresh` with the queue `queue`. -/
def gtr_message_log_window_new (defaultName : String) (w : MsgLog) (queue : List TrLogMessage) :
    MsgLog :=
  onRefresh defaultName
    (addMessagesLoop defaultName { w with store := [], isPaused := false } w.persistent).1 queue

/-- What the user and the timer do to an open window. -/
inductive MsgEvent where
  | refresh (queue : List TrLogMessage)
  | clear
  | pause (paused : Bool)
  deriving DecidableEq, Repr

/-- The callback an event runs. -/
def MsgEvent.apply (defaultName : String) (w : MsgLog) : MsgEvent → MsgLog
  | .refresh queue => onRefresh defaultName w queue
  | .clear => onClearRequest w
  | .pause paused => onPauseToggled w paused

/-- A run of events on an open window. -/
def msgRun (defaultName : String) (w : MsgLog) (evs : List MsgEvent) : MsgLog :=
  evs.foldl (MsgEvent.apply defaultName) w

section Window

variable (defaultName : String)

/-- The messages of the rows, in the order they were inserted. -/
def MsgLog.shown (w : MsgLog) : List TrLogMessage :=
  (w.store.map MsgRow.trMsg).reverse

@[simp] theorem shown_insertMessage (w : MsgLog) (i : TrLogMessage) :
    (insertMessage defaultName w i).shown = w.shown ++ [i] := by
  simp [MsgLog.shown, insertMessage]

/-- **One walk of `addMessages`.**  It shows every node of its list but the last, returns the
last, and leaves the persistent list alone. -/
theorem addMessagesLoop_spec : ∀ (w : MsgLog) (l : List TrLogMessage),
    (addMessagesLoop defaultName w l).1.shown = w.shown ++ l.dropLast ∧
      (addMessagesLoop defaultName w l).1.persistent = w.persistent ∧
      (addMessagesLoop defaultName w l).1.isPaused = w.isPaused ∧
      (addMessagesLoop defaultName w l).2 = l.getLast?
  | w, [] => by simp [addMessagesLoop]
  | w, [i] => by simp [addMessagesLoop]
  | w, i :: j :: rest => by
    obtain ⟨h₁, h₂, h₃, h₄⟩ := addMessagesLoop_spec (insertMessage defaultName w i) (j :: rest)
    refine ⟨?_, h₂, h₃, ?_⟩
    · rw [addMessagesLoop, h₁, shown_insertMessage, List.dropLast_cons₂, List.append_assoc,
        List.singleton_append]
    · rw [addMessagesLoop, h₄, List.getLast?_cons_cons]

/-- The rows show the chunks of the persistent list, each without its last message; every chunk
is nonempty. -/
def ShowsChunks (w : MsgLog) (chunks : List (List TrLogMessage)) : Prop :=
  (∀ c ∈ chunks, c ≠ []) ∧ w.persistent = chunks.flatten ∧
    w.shown = (chunks.map List.dropLast).flatten

/-- **One event.**  A refresh of a nonempty queue while not paused adds the queue as one more
chunk; a clear empties the chunks; anything else keeps them. -/
theorem ShowsChunks.apply {w : MsgLog} {chunks : List (List TrLogMessage)}
    (h : ShowsChunks w chunks) (e : MsgEvent) :
    ∃ chunks', ShowsChunks (e.apply defaultName w) chunks' := by
  cases e with
  | refresh queue =>
    simp only [MsgEvent.apply, onRefresh]
    split
    · exact ⟨chunks, h⟩
    split
    · exact ⟨chunks, h⟩
    rename_i hq
    obtain ⟨h₁, h₂, -, -⟩ := addMessagesLoop_spec defaultName w queue
    refine ⟨chunks ++ [queue], ?_, ?_, ?_⟩
    · intro c hc
      rcases List.mem_append.1 hc with hc | hc
      · exact h.1 c hc
      · rwa [List.mem_singleton.1 hc]
    · show (addMessagesLoop defaultName w queue).1.persistent ++ queue = _
      simp [h₂, h.2.1]
    · show (addMessagesLoop defaultName w queue).1.shown = _
      simp [h₁, h.2.2]
  | clear => exact ⟨[], by simp, rfl, rfl⟩
  | pause paused => exact ⟨chunks, h⟩

/-- **Every run.**  The chunks survive any run of events. -/
theorem ShowsChunks.run {w : MsgLog} {chunks : List (List TrLogMessage)}
    (h : ShowsChunks w chunks) (evs : List MsgEvent) :
    ∃ chunks', ShowsChunks (msgRun defaultName w evs) chunks' := by
  induction evs generalizing w chunks with
  | nil => exact ⟨chunks, h⟩
  | cons e evs ih =>
    obtain ⟨chunks', h'⟩ := h.apply defaultName e
    exact ih h'

/-- A new window shows the log it starts from without its last message, as one chunk, and then
refreshes once. -/
theorem ShowsChunks.window_new (w : MsgLog) (queue : List TrLogMessage) :
    ∃ chunks, ShowsChunks (gtr_message_log_window_new defaultName w queue) chunks := by
  obtain ⟨h₁, h₂, h₃, -⟩ :=
    addMessagesLoop_spec defaultName { w with store := [], isPaused := false } w.persistent
  have hstart : ShowsChunks (addMessagesLoop defaultName { w with store := [], isPaused := false }
      w.persistent).1 (if w.persistent = [] then [] else [w.persistent]) := by
    split_ifs with hp
    · exact ⟨by simp, by rw [h₂, hp]; rfl, by rw [h₁, hp]; rfl⟩
    · exact ⟨by simpa using hp, by rw [h₂]; simp, by rw [h₁]; simp [MsgLog.shown]⟩
  exact hstart.apply defaultName (.refresh queue)

/-- Dropping the last element of each of `n` nonempty lists drops `n` elements. -/
theorem length_flatten_map_dropLast :
    ∀ chunks : List (List TrLogMessage), (∀ c ∈ chunks, c ≠ []) →
      (chunks.map List.dropLast).flatten.length + chunks.length = chunks.flatten.length
  | [], _ => rfl
  | c :: chunks, hne => by
    have hc : 0 < c.length := List.length_pos.2 (hne c (List.mem_cons_self _ _))
    have ih := length_flatten_map_dropLast chunks fun c' hc' ↦ hne c' (List.mem_cons_of_mem _ hc')
    simp only [List.map_cons, List.flatten_cons, List.length_append, List.length_dropLast,
      List.length_cons]
    omega

/-- The rows show one message fewer than the persistent list holds, for each chunk. -/
theorem ShowsChunks.length {w : MsgLog} {chunks : List (List TrLogMessage)}
    (h : ShowsChunks w chunks) : w.shown.length + chunks.length = w.persistent.length := by
  rw [h.2.1, h.2.2]
  exact length_flatten_map_dropLast chunks h.1

end Window

/-- One message, logged at start-up. -/
def startedMessage : TrLogMessage :=
  ⟨.info, 1, "session.c", none, "started"⟩

/-- **The window never shows the last message of a batch.**  For every log the window opens on,
every first queue and every run of refreshes, clears and pauses, the persistent list is a
concatenation of nonempty chunks and the rows show each chunk without its last message (the
proof takes as chunks the log the window started from and each nonempty queue refreshed since the
last clear); so whenever the persistent list is not empty, some message on it has no row.  A window opened on an empty log
and refreshed with one message shows no row. -/
theorem msgWindow_drops_last_of_batch (defaultName : String) :
    (∀ (w : MsgLog) (queue : List TrLogMessage) (evs : List MsgEvent),
      (∃ chunks, ShowsChunks
        (msgRun defaultName (gtr_message_log_window_new defaultName w queue) evs) chunks) ∧
      ((msgRun defaultName (gtr_message_log_window_new defaultName w queue) evs).persistent ≠ [] →
        (msgRun defaultName (gtr_message_log_window_new defaultName w queue) evs).store.length <
          (msgRun defaultName (gtr_message_log_window_new defaultName w queue) evs).persistent.length)) ∧
    (gtr_message_log_window_new defaultName ⟨[], false, [], 0, []⟩ [startedMessage]).store = [] ∧
    (gtr_message_log_window_new defaultName ⟨[], false, [], 0, []⟩ [startedMessage]).persistent =
      [startedMessage] := by
  refine ⟨fun w queue evs ↦ ?_, rfl, rfl⟩
  obtain ⟨chunks₀, h₀⟩ := ShowsChunks.window_new defaultName w queue
  obtain ⟨chunks, h⟩ := h₀.run defaultName evs
  refine ⟨⟨chunks, h⟩, fun hp ↦ ?_⟩
  have hlen := h.length
  have hc : chunks ≠ [] := by rintro rfl; exact hp h.2.1
  have : (msgRun defaultName (gtr_message_log_window_new defaultName w queue) evs).shown.length =
      (msgRun defaultName (gtr_message_log_window_new defaultName w queue) evs).store.length := by
    simp [MsgLog.shown]
  have := List.length_pos.2 hc
  omega

end Transmission
