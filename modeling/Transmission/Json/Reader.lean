import Transmission.Variant
import Transmission.Json.Text

/-!
# Reading JSON into a variant

`tr_jsonParse` hands the text to the streaming parser jsonsl, which calls back
`action_callback_PUSH` when a state opens and `action_callback_POP` when it closes.  The callbacks
build the tree in `*top` through `json_wrapper_data`: a stack of pointers to the open containers,
and the pending key of an object member between the key's `POP` and its value.  `get_node` finds
the node the next value goes to: `*top` itself when nothing is open, and otherwise a new last
child of the innermost open container, a list element or, under the pending key, a dictionary
entry.  It returns `nullptr` when the innermost container is a dictionary and no key is pending,
and every caller then writes through that pointer.

Pointers are modelled as paths into `*top` (`Variant.getAt`, `Variant.modifyAt`).  Only the
innermost open container ever grows, so the pointers below it on the stack stay valid, as paths
do.  A callback that would write through `nullptr` or pop an empty stack returns `none`.  When
jsonsl finds an error it calls `error_callback`, which sets the error to `EILSEQ` and makes jsonsl
stop; `tr_jsonParse` returns that error.

jsonsl itself is not under `src/`.  `JsonValue.events` is the sequence of calls it makes for a
value: a `PUSH` at each `[` and `{`, an `HKEY` `POP` before each member's value, a `POP` for each
string, number, `true`, `false` and `null`, and a `POP` at each `]` and `}`.  (jsonsl also
reports the other states it opens, on which `action_callback_PUSH` does nothing.)  `jsonsl_new`
gives jsonsl `MAX_DEPTH` levels for its states, one per value open at a time; `Jsonsl` is what
the model assumes of it: the calls of `events` for a document that needs fewer levels, and calls
that end in `error_callback` for one that needs more (`Jsonsl.tr_jsonParse_of_gt`).  Numbers are
read by `strtod` and `evutil_strtoll`, which are parameters here.

`jsonslFeed_events` is the one induction of the file: the calls of a value, from a state whose
`get_node` succeeds, write the value's image to the node `get_node` picked and leave the stack
and the pending key as `get_node` left them.  Its list and object forms fill the innermost open
container one child at a time.
-/

set_option autoImplicit false

namespace Transmission

/-- `MAX_DEPTH`. -/
def MAX_DEPTH : ℕ := 64

/-- `EILSEQ`, the `errno` of an illegal byte sequence. -/
def EILSEQ : ℕ := 84

/-- `struct json_wrapper_data`, the fields the callbacks read: the error, whether a value was seen,
the tree `*top`, the pending key (`none` for `nullptr`), the open containers (the back of the deque
first), and the sizes of the containers last closed at each depth.  The buffers only back the
strings `extract_string` returns, and `source` only names the text in the log. -/
structure JsonWrapperData where
  error : ℕ
  hasContent : Bool
  top : Variant
  key : Option Quark
  stack : List (List ℕ)
  preallocGuess : Fin MAX_DEPTH → ℕ

/-- `get_node`: the state after it, and the node it returns, `none` for `nullptr`. -/
def get_node (data : JsonWrapperData) : JsonWrapperData × Option (List ℕ) :=
  match data.stack with
  | [] => (data, some [])
  | parent :: _ =>
    match data.top.getAt parent with
    | some (.list l) =>
      ({ data with top := data.top.modifyAt parent tr_variantListAdd }, some (parent ++ [l.length]))
    | some (.dict d) =>
      match data.key with
      | some key =>
        ({ data with top := data.top.modifyAt parent (tr_variantDictAdd key), key := none },
          some (parent ++ [d.length]))
      | none => (data, none)
    | _ => (data, none)

/-- The types of the states jsonsl reports, `JSONSL_T_*`. -/
inductive JsonslType where
  | string
  | hkey
  | special
  | list
  | object
  deriving DecidableEq, Repr

/-- The flags of a special state that the callbacks test, `JSONSL_SPECIALf_*`. -/
structure SpecialFlags where
  numnoint : Bool := false
  numeric : Bool := false
  boolean : Bool := false
  isTrue : Bool := false
  null : Bool := false
  deriving DecidableEq, Repr

/-- `struct jsonsl_state_st`, what the callbacks read of it: its type, its text from `pos_begin`
to `pos_cur` (a string's from its opening quote), and its special flags. -/
structure JsonslState where
  type : JsonslType
  text : List UInt8 := []
  flags : SpecialFlags := {}
  deriving DecidableEq, Repr

/-- `tr_variantInitList(node, n)`: an empty list; `n` only sizes its allocation. -/
def tr_variantInitList (_n : ℕ) : Variant := .list []

/-- `tr_variantInitDict(node, n)`: an empty dictionary. -/
def tr_variantInitDict (_n : ℕ) : Variant := .dict []

/-- `action_callback_PUSH`: a list or an object opens a new container where `get_node` says,
sized by the guess for its depth. -/
def action_callback_PUSH (state : JsonslState) (data : JsonWrapperData) :
    Option JsonWrapperData :=
  if state.type = .list ∨ state.type = .object then
    let data := { data with hasContent := true }
    match get_node data with
    | (data, some node) =>
      let data := { data with stack := node :: data.stack }
      let depth := data.stack.length
      let n := if h : depth < MAX_DEPTH then data.preallocGuess ⟨depth, h⟩ else 0
      some { data with
        top := data.top.modifyAt node fun _ ↦
          if state.type = .list then tr_variantInitList n else tr_variantInitDict n }
    | (_, none) => none
  else some data

/-- The pointer `extract_string` returns, `none` for `NULL`: into the text when the body holds no
backslash, and otherwise `evbuffer_pullup` of the unescaped copy, which is `NULL` when the copy
is empty. -/
def extractStringPtr (s : List UInt8) : Option (List UInt8) :=
  if 0x5C ∈ (if s.head? = some 0x22 then s.tail else s) ∧ extract_string s = [] then none
  else some (extract_string s)

/-- `tr_variantInit*(get_node(jsn), …)`: write `x` to the node `get_node` returns. -/
def initNode (x : Variant) (data : JsonWrapperData) : Option JsonWrapperData :=
  match get_node data with
  | (data, some node) => some { data with top := data.top.modifyAt node fun _ ↦ x }
  | (_, none) => none

section Callbacks

variable (strtod : List UInt8 → UInt64) (evutil_strtoll : List UInt8 → ℤ)

/-- `action_callback_POP`. -/
def action_callback_POP (state : JsonslState) (data : JsonWrapperData) :
    Option JsonWrapperData :=
  match state.type with
  | .string => initNode (.str (extract_string state.text)) { data with hasContent := true }
  | .hkey => some { data with hasContent := true, key := extractStringPtr state.text }
  | .list | .object =>
    match data.stack with
    | [] => none
    | v :: rest =>
      let depth := data.stack.length
      some { data with
        stack := rest
        preallocGuess :=
          if h : depth < MAX_DEPTH then
            Function.update data.preallocGuess ⟨depth, h⟩
              (((data.top.getAt v).map Variant.count).getD 0)
          else data.preallocGuess }
  | .special =>
    if state.flags.numnoint then
      initNode (.real (strtod state.text)) { data with hasContent := true }
    else if state.flags.numeric then
      initNode (.int (evutil_strtoll state.text)) { data with hasContent := true }
    else if state.flags.boolean then
      initNode (.bool state.flags.isTrue) { data with hasContent := true }
    else if state.flags.null then
      initNode (.quark TR_KEY_NONE) { data with hasContent := true }
    else some data

/-- `error_callback`, through `error_handler`: the error is `EILSEQ`.  (The line it logs is not
modelled.)  It returns `0`, so jsonsl makes no call after it. -/
def error_callback (data : JsonWrapperData) : JsonWrapperData :=
  { data with error := EILSEQ }

/-- A call jsonsl makes. -/
inductive JsonslAction where
  | push (state : JsonslState)
  | pop (state : JsonslState)
  | error
  deriving DecidableEq, Repr

/-- The callback of a call. -/
def JsonslAction.apply : JsonslAction → JsonWrapperData → Option JsonWrapperData
  | .push state, data => action_callback_PUSH state data
  | .pop state, data => action_callback_POP strtod evutil_strtoll state data
  | .error, data => some (error_callback data)

/-- `jsonsl_feed`, as the calls it makes, one after another; `none` once one fails. -/
def jsonslFeed : List JsonslAction → JsonWrapperData → Option JsonWrapperData
  | [], data => some data
  | a :: as, data => (a.apply strtod evutil_strtoll data).bind (jsonslFeed as)

/-- The state `tr_jsonParse` starts from, with `setme_variant` as `*top`. -/
def jsonInit (setme_variant : Variant) : JsonWrapperData :=
  ⟨0, false, setme_variant, none, [], fun _ ↦ 0⟩

/-- `tr_jsonParse`, for a text jsonsl reads as the calls `actions`: the error it returns, `EINVAL`
when no error was reported and no value seen, and the variant it leaves in `*setme_variant`. -/
def tr_jsonParse (setme_variant : Variant) (actions : List JsonslAction) : Option (ℕ × Variant) :=
  (jsonslFeed strtod evutil_strtoll actions (jsonInit setme_variant)).map fun data ↦
    (if data.error = 0 ∧ data.hasContent = false then EINVAL else data.error, data.top)

theorem jsonslFeed_append (as bs : List JsonslAction) (data : JsonWrapperData) :
    jsonslFeed strtod evutil_strtoll (as ++ bs) data =
      (jsonslFeed strtod evutil_strtoll as data).bind (jsonslFeed strtod evutil_strtoll bs) := by
  induction as generalizing data with
  | nil => rfl
  | cons a as ih =>
    simp only [List.cons_append, jsonslFeed, List.append_eq, Option.bind_assoc]
    exact congrArg _ (funext ih)

end Callbacks

/-! ## JSON values and their calls -/

/-- A JSON value, numbers and strings by their text as jsonsl delimits it (a string's from its
opening quote), object members by their key's text. -/
inductive JsonValue where
  | null
  | bool (b : Bool)
  | int (text : List UInt8)
  | real (text : List UInt8)
  | string (text : List UInt8)
  | array (l : List JsonValue)
  | object (members : List (List UInt8 × JsonValue))
  deriving Repr

mutual

/-- The calls jsonsl makes for a value. -/
def JsonValue.events : JsonValue → List JsonslAction
  | .null => [.pop ⟨.special, [], { null := true }⟩]
  | .bool b => [.pop ⟨.special, [], { boolean := true, isTrue := b }⟩]
  | .int t => [.pop ⟨.special, t, { numeric := true }⟩]
  | .real t => [.pop ⟨.special, t, { numnoint := true, numeric := true }⟩]
  | .string t => [.pop ⟨.string, t, {}⟩]
  | .array l => .push ⟨.list, [], {}⟩ :: eventsList l ++ [.pop ⟨.list, [], {}⟩]
  | .object m => .push ⟨.object, [], {}⟩ :: eventsObject m ++ [.pop ⟨.object, [], {}⟩]

/-- The calls for the elements of an array. -/
def eventsList : List JsonValue → List JsonslAction
  | [] => []
  | v :: vs => v.events ++ eventsList vs

/-- The calls for the members of an object: each key's, then its value's. -/
def eventsObject : List (List UInt8 × JsonValue) → List JsonslAction
  | [] => []
  | (k, v) :: ms => .pop ⟨.hkey, k, {}⟩ :: v.events ++ eventsObject ms

end

section Image

variable (strtod : List UInt8 → UInt64) (evutil_strtoll : List UInt8 → ℤ)

mutual

/-- The variant a JSON value stands for: elements and members in document order, keys and
strings as their decoded text, `null` as the quark `TR_KEY_NONE`. -/
def JsonValue.toVariant : JsonValue → Variant
  | .null => .quark TR_KEY_NONE
  | .bool b => .bool b
  | .int t => .int (evutil_strtoll t)
  | .real t => .real (strtod t)
  | .string t => .str (extract_string t)
  | .array l => .list (toVariantList l)
  | .object m => .dict (toVariantObject m)

/-- The images of the elements of an array. -/
def toVariantList : List JsonValue → List Variant
  | [] => []
  | v :: vs => v.toVariant :: toVariantList vs

/-- The entries of the members of an object. -/
def toVariantObject : List (List UInt8 × JsonValue) → List (Quark × Variant)
  | [] => []
  | (k, v) :: ms => (extract_string k, v.toVariant) :: toVariantObject ms

end

end Image

/-! ## The pointer to a key -/

/-- A converted code point has at least one byte. -/
theorem ConvertUTF32toUTF8_ne_nil {ch : ℕ} (h : (ConvertUTF32toUTF8 ch).1 = .conversionOK) :
    (ConvertUTF32toUTF8 ch).2 ≠ [] := by
  unfold ConvertUTF32toUTF8 at h ⊢
  split_ifs at h ⊢ <;> simp [utf8Encode] at h ⊢

/-- `extract_escaped_string` writes at least one byte for the first byte it reads. -/
theorem extractEscapedLoop_ne_nil (fuel : ℕ) (c : UInt8) (rest : List UInt8) :
    extractEscapedLoop (fuel + 1) (c :: rest) ≠ [] := by
  simp only [extractEscapedLoop]
  repeat' split
  all_goals first
    | exact fun h ↦ ConvertUTF32toUTF8_ne_nil ‹_› (List.append_eq_nil.1 h).1
    | simp

/-- `extract_string` never returns `NULL`: a body with a backslash unescapes to at least one
byte. -/
theorem extractStringPtr_eq (s : List UInt8) : extractStringPtr s = some (extract_string s) := by
  unfold extractStringPtr
  rw [if_neg]
  rintro ⟨hm, he⟩
  simp only [extract_string, if_pos hm] at he
  obtain ⟨c, rest, hcr⟩ := List.exists_cons_of_ne_nil (List.ne_nil_of_mem hm)
  rw [extract_escaped_string, hcr] at he
  exact extractEscapedLoop_ne_nil _ c rest he

/-! ## One callback at a time -/

section Steps

variable {data data₁ : JsonWrapperData} {node p : List ℕ} {R : List (List ℕ)}

theorem get_node_root (h : data.stack = []) : get_node data = (data, some []) := by
  simp [get_node, h]

theorem get_node_list (data : JsonWrapperData) {l : List Variant} (hs : data.stack = p :: R)
    (hl : data.top.getAt p = some (.list l)) :
    get_node data =
      ({ data with top := data.top.modifyAt p tr_variantListAdd }, some (p ++ [l.length])) := by
  simp [get_node, hs, hl]

theorem get_node_dict (data : JsonWrapperData) {d : List (Quark × Variant)} {key : Quark}
    (hs : data.stack = p :: R)
    (hd : data.top.getAt p = some (.dict d)) (hk : data.key = some key) :
    get_node data = ({ data with top := data.top.modifyAt p (tr_variantDictAdd key), key := none },
      some (p ++ [d.length])) := by
  simp [get_node, hs, hd, hk]

/-- `get_node` keeps `has_content`. -/
theorem get_node_hasContent (data : JsonWrapperData) :
    (get_node data).1.hasContent = data.hasContent := by
  unfold get_node
  split <;> (try split) <;> (try split) <;> rfl

/-- `get_node` keeps the error. -/
theorem get_node_error (data : JsonWrapperData) : (get_node data).1.error = data.error := by
  unfold get_node
  split <;> (try split) <;> (try split) <;> rfl

/-- The node `get_node` returns is in the tree. -/
theorem get_node_getAt (h : get_node data = (data₁, some node)) :
    ∃ c, data₁.top.getAt node = some c := by
  unfold get_node at h
  split at h
  · cases h; exact ⟨_, rfl⟩
  · split at h
    · cases h; exact ⟨_, Variant.getAt_listAdd ‹_›⟩
    · split at h
      · cases h; exact ⟨_, Variant.getAt_dictAdd ‹_› _⟩
      · cases h
    · cases h

/-- Opening a container: an empty one, where `get_node` says, on top of the stack. -/
theorem action_callback_PUSH_open (h : get_node { data with hasContent := true } = (data₁, some node))
    (state : JsonslState) (ht : state.type = .list ∨ state.type = .object) :
    action_callback_PUSH state data =
      some { data₁ with
        stack := node :: data₁.stack
        top := data₁.top.modifyAt node fun _ ↦
          if state.type = .list then .list [] else .dict [] } := by
  simp only [action_callback_PUSH, if_pos ht, h]
  rfl

variable (strtod : List UInt8 → UInt64) (evutil_strtoll : List UInt8 → ℤ)

/-- Closing a container pops it and records its size. -/
theorem action_callback_POP_close (hs : data.stack = node :: R) (state : JsonslState)
    (ht : state.type = .list ∨ state.type = .object) :
    ∃ g, action_callback_POP strtod evutil_strtoll state data =
      some { data with stack := R, preallocGuess := g } := by
  rcases ht with ht | ht <;> exact ⟨_, by simp only [action_callback_POP, ht, hs]; rfl⟩

/-- A key is pending after its `POP`. -/
theorem action_callback_POP_hkey (k : List UInt8) :
    action_callback_POP strtod evutil_strtoll ⟨.hkey, k, {}⟩ data =
      some { data with hasContent := true, key := some (extract_string k) } := by
  simp only [action_callback_POP, extractStringPtr_eq]

end Steps

/-! ## Whole values -/

/-- The state after a value: the tree is `top`, the stack is `stack`, no key is pending and
content was seen. -/
structure JsonWrapperData.Settled (data : JsonWrapperData) (top : Variant)
    (stack : List (List ℕ)) : Prop where
  top_eq : data.top = top
  stack_eq : data.stack = stack
  key_eq : data.key = none
  hasContent_eq : data.hasContent = true

section Feed

variable (strtod : List UInt8 → UInt64) (evutil_strtoll : List UInt8 → ℤ)

/-- A string, a number, a boolean or `null`: one `POP` that writes its node. -/
theorem jsonslFeed_leaf {data data₁ : JsonWrapperData} {node : List ℕ}
    (h : get_node { data with hasContent := true } = (data₁, some node)) (hk : data₁.key = none)
    {state : JsonslState} {x : Variant}
    (hpop : action_callback_POP strtod evutil_strtoll state data =
      initNode x { data with hasContent := true }) :
    ∃ t, jsonslFeed strtod evutil_strtoll [.pop state] data = some t ∧
      t.Settled (data₁.top.modifyAt node fun _ ↦ x) data₁.stack := by
  refine ⟨{ data₁ with top := data₁.top.modifyAt node fun _ ↦ x }, ?_, rfl, rfl, hk,
    by simpa [h] using get_node_hasContent { data with hasContent := true }⟩
  simp only [jsonslFeed, JsonslAction.apply, hpop, initNode, h, Option.some_bind]

/-- A list or an object: a `PUSH` that opens an empty container where `get_node` says, the
calls of its children, which fill it with `x`, and a `POP` that closes it. -/
theorem jsonslFeed_container {data data₁ : JsonWrapperData} {node : List ℕ}
    (h : get_node { data with hasContent := true } = (data₁, some node)) (hk : data₁.key = none)
    (state : JsonslState) (ht : state.type = .list ∨ state.type = .object)
    (children : List JsonslAction) (x : Variant)
    (hchildren : ∀ t₀ : JsonWrapperData, t₀.stack = node :: data₁.stack →
      t₀.top.getAt node = some (if state.type = .list then .list [] else .dict []) →
      t₀.key = none → t₀.hasContent = true →
      ∃ t, jsonslFeed strtod evutil_strtoll children t₀ = some t ∧
        t.Settled (t₀.top.modifyAt node fun _ ↦ x) t₀.stack) :
    ∃ t, jsonslFeed strtod evutil_strtoll (.push state :: children ++ [.pop state]) data = some t ∧
      t.Settled (data₁.top.modifyAt node fun _ ↦ x) data₁.stack := by
  obtain ⟨c, hc⟩ := get_node_getAt h
  obtain ⟨t, ht', hs⟩ := hchildren { data₁ with
      stack := node :: data₁.stack
      top := data₁.top.modifyAt node fun _ ↦ if state.type = .list then .list [] else .dict [] }
    rfl (by rw [Variant.getAt_modifyAt, hc]; rfl) hk
    (by simpa [h] using get_node_hasContent { data with hasContent := true })
  obtain ⟨g, hpop⟩ := action_callback_POP_close strtod evutil_strtoll hs.stack_eq state ht
  refine ⟨{ t with stack := data₁.stack, preallocGuess := g }, ?_, ?_, rfl, hs.key_eq,
    hs.hasContent_eq⟩
  · simp only [jsonslFeed, JsonslAction.apply, action_callback_PUSH_open h state ht,
      Option.some_bind, List.append_eq, jsonslFeed_append, ht', hpop]
  · show t.top = _
    rw [hs.top_eq, Variant.modifyAt_modifyAt]
    rfl

mutual

/-- **The calls of a value write its image where `get_node` says**, and leave the stack as
`get_node` left it, with no key pending. -/
theorem jsonslFeed_events : ∀ (v : JsonValue) (data : JsonWrapperData) {data₁ : JsonWrapperData}
    {node : List ℕ},
    get_node { data with hasContent := true } = (data₁, some node) → data₁.key = none →
    ∃ t, jsonslFeed strtod evutil_strtoll v.events data = some t ∧
      t.Settled (data₁.top.modifyAt node fun _ ↦ v.toVariant strtod evutil_strtoll) data₁.stack
  | .null, _, _, _, h, hk => jsonslFeed_leaf strtod evutil_strtoll h hk rfl
  | .bool _, _, _, _, h, hk => jsonslFeed_leaf strtod evutil_strtoll h hk rfl
  | .int _, _, _, _, h, hk => jsonslFeed_leaf strtod evutil_strtoll h hk rfl
  | .real _, _, _, _, h, hk => jsonslFeed_leaf strtod evutil_strtoll h hk rfl
  | .string _, _, _, _, h, hk => jsonslFeed_leaf strtod evutil_strtoll h hk rfl
  | .array l, _, _, _, h, hk =>
    jsonslFeed_container strtod evutil_strtoll h hk ⟨.list, [], {}⟩ (.inl rfl) _ _
      fun t₀ hs hc hk hh ↦ jsonslFeed_eventsList l t₀ hs hc hk hh
  | .object m, _, _, _, h, hk =>
    jsonslFeed_container strtod evutil_strtoll h hk ⟨.object, [], {}⟩ (.inr rfl) _ _
      fun t₀ hs hc hk hh ↦ jsonslFeed_eventsObject m t₀ hs hc hk hh

/-- The elements of an array fill the list on top of the stack, in order. -/
theorem jsonslFeed_eventsList : ∀ (l : List JsonValue) (data : JsonWrapperData) {node : List ℕ}
    {R : List (List ℕ)} {cs : List Variant}, data.stack = node :: R →
    data.top.getAt node = some (.list cs) → data.key = none → data.hasContent = true →
    ∃ t, jsonslFeed strtod evutil_strtoll (eventsList l) data = some t ∧
      t.Settled (data.top.modifyAt node fun _ ↦ .list (cs ++ toVariantList strtod evutil_strtoll l))
        data.stack
  | [], data, node, R, cs, _, hc, hk, hh => by
    exact ⟨data, rfl, by rw [toVariantList, List.append_nil, Variant.modifyAt_of_getAt hc], rfl, hk, hh⟩
  | v :: vs, data, node, R, cs, hs, hc, hk, hh => by
    obtain ⟨t, ht, htv⟩ := jsonslFeed_events v data (get_node_list _ hs hc) hk
    rw [Variant.modifyAt_listAdd hc] at htv
    obtain ⟨t', ht', htl⟩ := jsonslFeed_eventsList vs t (htv.stack_eq.trans hs)
      (by rw [htv.top_eq, Variant.getAt_modifyAt, hc]; rfl) htv.key_eq htv.hasContent_eq
    refine ⟨t', by simp only [eventsList, jsonslFeed_append, ht, Option.some_bind, ht'], ?_,
      htl.stack_eq.trans htv.stack_eq, htl.key_eq, htl.hasContent_eq⟩
    rw [htl.top_eq, htv.top_eq, Variant.modifyAt_modifyAt]
    simp only [toVariantList, List.append_assoc, List.singleton_append]
    rfl

/-- The members of an object fill the dictionary on top of the stack, in order. -/
theorem jsonslFeed_eventsObject : ∀ (m : List (List UInt8 × JsonValue)) (data : JsonWrapperData)
    {node : List ℕ} {R : List (List ℕ)} {es : List (Quark × Variant)}, data.stack = node :: R →
    data.top.getAt node = some (.dict es) → data.key = none → data.hasContent = true →
    ∃ t, jsonslFeed strtod evutil_strtoll (eventsObject m) data = some t ∧
      t.Settled
        (data.top.modifyAt node fun _ ↦ .dict (es ++ toVariantObject strtod evutil_strtoll m))
        data.stack
  | [], data, node, R, es, _, hc, hk, hh => by
    exact ⟨data, rfl, by rw [toVariantObject, List.append_nil, Variant.modifyAt_of_getAt hc], rfl, hk,
      hh⟩
  | (k, v) :: ms, data, node, R, es, hs, hc, hk, hh => by
    obtain ⟨t, ht, htv⟩ := jsonslFeed_events v
      { data with hasContent := true, key := some (extract_string k) } (get_node_dict _ hs hc rfl) rfl
    rw [Variant.modifyAt_dictAdd hc] at htv
    obtain ⟨t', ht', htl⟩ := jsonslFeed_eventsObject ms t (htv.stack_eq.trans hs)
      (by rw [htv.top_eq, Variant.getAt_modifyAt, hc]; rfl) htv.key_eq htv.hasContent_eq
    refine ⟨t', ?_, ?_, htl.stack_eq.trans htv.stack_eq, htl.key_eq, htl.hasContent_eq⟩
    · simp only [eventsObject, List.cons_append, jsonslFeed, JsonslAction.apply,
        action_callback_POP_hkey, Option.some_bind, List.append_eq, jsonslFeed_append, ht, ht']
    · rw [htl.top_eq, htv.top_eq, Variant.modifyAt_modifyAt]
      simp only [toVariantObject, List.append_assoc, List.singleton_append]
      rfl

end

/-! ## The error -/

/-- Writing a node keeps the error. -/
theorem initNode_error {x : Variant} {data d : JsonWrapperData} (h : initNode x data = some d) :
    d.error = data.error := by
  unfold initNode at h
  split at h
  · rename_i data₁ node hg
    cases h
    simpa [hg] using get_node_error data
  · cases h

/-- The callbacks of `PUSH` and `POP` keep the error. -/
theorem JsonslAction.apply_error {a : JsonslAction} (ha : a ≠ .error) {data d : JsonWrapperData}
    (h : a.apply strtod evutil_strtoll data = some d) : d.error = data.error := by
  cases a with
  | error => exact absurd rfl ha
  | push state =>
    simp only [JsonslAction.apply, action_callback_PUSH] at h
    by_cases ht : state.type = .list ∨ state.type = .object
    · rw [if_pos ht] at h
      split at h
      · rename_i hg
        cases h
        simpa [hg] using get_node_error { data with hasContent := true }
      · cases h
    · rw [if_neg ht] at h
      cases h; rfl
  | pop state =>
    simp only [JsonslAction.apply, action_callback_POP] at h
    repeat' split at h
    all_goals first
      | exact (initNode_error h).trans rfl
      | (cases h; rfl)
      | cases h

/-- Calls without an error keep the error. -/
theorem jsonslFeed_error {as : List JsonslAction} (has : JsonslAction.error ∉ as)
    {data t : JsonWrapperData} (h : jsonslFeed strtod evutil_strtoll as data = some t) :
    t.error = data.error := by
  induction as generalizing data with
  | nil => cases h; rfl
  | cons a as ih =>
    obtain ⟨d, hd, ht⟩ := Option.bind_eq_some.1 h
    rw [ih (fun h' ↦ has (List.mem_cons_of_mem _ h')) ht,
      JsonslAction.apply_error strtod evutil_strtoll (fun h' ↦ has (h' ▸ List.mem_cons_self _ _)) hd]

mutual

/-- The calls of a value report no error. -/
theorem JsonValue.error_not_mem_events : ∀ v : JsonValue, JsonslAction.error ∉ v.events
  | .null | .bool _ | .int _ | .real _ | .string _ => by simp [JsonValue.events]
  | .array l => by simp [JsonValue.events, error_not_mem_eventsList l]
  | .object m => by simp [JsonValue.events, error_not_mem_eventsObject m]

theorem error_not_mem_eventsList : ∀ l : List JsonValue, JsonslAction.error ∉ eventsList l
  | [] => by simp [eventsList]
  | v :: vs => by simp [eventsList, v.error_not_mem_events, error_not_mem_eventsList vs]

theorem error_not_mem_eventsObject : ∀ m : List (List UInt8 × JsonValue),
    JsonslAction.error ∉ eventsObject m
  | [] => by simp [eventsObject]
  | (_, v) :: ms => by simp [eventsObject, v.error_not_mem_events, error_not_mem_eventsObject ms]

end

/-- The calls of a value leave no error, content seen and the value's image in `*top`. -/
theorem tr_jsonParse_eq_of_events (v : JsonValue) (setme_variant : Variant) :
    tr_jsonParse strtod evutil_strtoll setme_variant v.events =
      some (0, v.toVariant strtod evutil_strtoll) := by
  obtain ⟨t, ht, hs⟩ :=
    jsonslFeed_events strtod evutil_strtoll v (jsonInit setme_variant) (get_node_root rfl) rfl
  have he := jsonslFeed_error strtod evutil_strtoll v.error_not_mem_events ht
  simp only [tr_jsonParse, ht, Option.map_some', hs.hasContent_eq, hs.top_eq, he]
  rfl

/-- **`tr_jsonParse` rebuilds every JSON value**: its calls, from the state `tr_jsonParse` starts
from, all succeed and end with an empty stack, no key pending, content seen, and the value's image
in `*top`; so `tr_jsonParse` returns 0 and the image. -/
theorem tr_jsonParse_events (v : JsonValue) (setme_variant : Variant) :
    (∃ t, jsonslFeed strtod evutil_strtoll v.events (jsonInit setme_variant) = some t ∧
      t.Settled (v.toVariant strtod evutil_strtoll) []) ∧
    tr_jsonParse strtod evutil_strtoll setme_variant v.events =
      some (0, v.toVariant strtod evutil_strtoll) :=
  ⟨jsonslFeed_events strtod evutil_strtoll v (jsonInit setme_variant) (get_node_root rfl) rfl,
    tr_jsonParse_eq_of_events strtod evutil_strtoll v setme_variant⟩

/-- A text jsonsl reports an error in, after calls the callbacks accept: `tr_jsonParse` returns
`EILSEQ`. -/
theorem tr_jsonParse_error {pre : List JsonslAction} {setme_variant : Variant} {t : JsonWrapperData}
    (h : jsonslFeed strtod evutil_strtoll pre (jsonInit setme_variant) = some t) :
    tr_jsonParse strtod evutil_strtoll setme_variant (pre ++ [.error]) = some (EILSEQ, t.top) := by
  simp only [tr_jsonParse, jsonslFeed_append, h, Option.some_bind, jsonslFeed, JsonslAction.apply,
    Option.map_some', error_callback]
  rfl

end Feed

/-! ## The levels of jsonsl -/

mutual

/-- The levels jsonsl's stack takes for a value: one for the value's own state, and for an array
or an object one more than its deepest child.  The key of a member sits at the level of its value,
which takes one level at least. -/
def JsonValue.levels : JsonValue → ℕ
  | .null => 1
  | .bool _ => 1
  | .int _ => 1
  | .real _ => 1
  | .string _ => 1
  | .array l => levelsList l + 1
  | .object m => levelsObject m + 1

/-- The levels of the deepest element of an array. -/
def levelsList : List JsonValue → ℕ
  | [] => 0
  | v :: vs => max v.levels (levelsList vs)

/-- The levels of the deepest member of an object. -/
def levelsObject : List (List UInt8 × JsonValue) → ℕ
  | [] => 0
  | (_, v) :: ms => max v.levels (levelsObject ms)

end

/-- What the model assumes of jsonsl, made by `jsonsl_new(MAX_DEPTH)` (jsonsl is not under
`src/`): the calls it makes for the text of a document.  For a document that needs fewer than
`MAX_DEPTH` levels these are the calls of `events`.  For one that needs more, jsonsl stops at the
state that does not fit: it has made the calls of a prefix of `events`, and then calls
`error_callback`.  How jsonsl counts its own first level decides the document of exactly
`MAX_DEPTH` levels, which is left open. -/
structure Jsonsl where
  calls : JsonValue → List JsonslAction
  calls_of_lt : ∀ doc : JsonValue, doc.levels < MAX_DEPTH → calls doc = doc.events
  calls_of_gt : ∀ doc : JsonValue, MAX_DEPTH < doc.levels →
    ∃ pre, pre <+: doc.events ∧ calls doc = pre ++ [.error]

/-- **A document deeper than jsonsl's levels is refused**: whatever jsonsl's calls before its
error, `tr_jsonParse` returns `EILSEQ`. -/
theorem Jsonsl.tr_jsonParse_of_gt (jsonsl : Jsonsl) (strtod : List UInt8 → UInt64)
    (evutil_strtoll : List UInt8 → ℤ) {doc : JsonValue} (hdoc : MAX_DEPTH < doc.levels)
    (setme_variant : Variant) :
    ∃ top, tr_jsonParse strtod evutil_strtoll setme_variant (jsonsl.calls doc) = some (EILSEQ, top) := by
  obtain ⟨pre, ⟨rest, hpre⟩, hcalls⟩ := jsonsl.calls_of_gt doc hdoc
  obtain ⟨t, ht, -⟩ :=
    jsonslFeed_events strtod evutil_strtoll doc (jsonInit setme_variant) (get_node_root rfl) rfl
  rw [← hpre, jsonslFeed_append] at ht
  obtain ⟨t', ht', -⟩ := Option.bind_eq_some.1 ht
  exact ⟨t'.top, hcalls ▸ tr_jsonParse_error strtod evutil_strtoll ht'⟩

end Transmission
