import Mathlib.Data.Nat.Digits
import Mathlib.Data.List.Sort
import Transmission.Variant
import Transmission.Json.Grammar

/-!
# Printing a variant as JSON

`tr_variantToBufJson` prints a variant by walking it with `tr_variantWalk`, dictionaries sorted
by key, and the callbacks of `walk_funcs`.  The callbacks keep, in `jsonWalk.parents`, one
`ParentState` per open container: its type, the children printed so far and the children it has
(two per dictionary entry, the key and the value).  Every callback prints its node and then calls
`jsonChildFunc`, which reads the top entry to decide what follows the node: `:` after a key, `,`
and an indent between two children, nothing after the last one.  In indented mode `jsonIndent`
prints a newline and four spaces per open container, which it takes from a static buffer of 1024
bytes.

`jsonStringFunc` writes a string into space it reserves first, `len * 4` bytes
(`evbuffer_reserve_space`), and then commits what it wrote (`evbuffer_commit_space`).  A literal
longer than the room it was given is written past `outend`, which is undefined behaviour and is
recorded in `JsonWalk.overrun`; libevent then commits nothing.  `Variant.Fits` says that every
literal of a tree fits its room, as it does whenever it takes at most four bytes per byte of its
string (`StringFits.of_le`), and every result below about the printer is stated under it.

`variantWalk_eq` is the one induction of the file: walking any subtree whose literals fit, from
any state, prints `jsonLayout` of the subtree at the depth of the state's stack and then does what
`jsonChildFunc` does after a node.  The parents are left as they were but for the top entry, one
child further.  From it:

* `tr_variantToBufJson_eq`: the printer's text is the buffer, `jsonLayout` of the tree with its
  dictionaries sorted (`Variant.sortDicts`) at depth 0, and the newline `tr_variantToBufJson`
  always appends;
* `jsonLayout_lean`: in lean mode the layout is the reference printer's text, `jsonReference`;
* `jsonNl_true_of_le`, `jsonLayout_congr`: in indented mode, for trees whose nodes lie inside at
  most 255 containers, it is the same text with a newline and four spaces per level inserted
  after each opening bracket of a nonempty container, after each comma and before each closing
  bracket, and a space after each colon.

`jsonStringFunc_wellFormed` states what `jsonStringFunc` adds to the output when the literal
fits: the literal, quote to quote, made of the tokens of `Json/Grammar.lean`.

`tr_variantWalk` itself is in `variant.c`, not under `src/`.  `variantWalk` walks a tree in
pre-order, each dictionary entry as its key and then its value, in the order the tree holds them;
`tr_variantWalk` with `sort_dicts`, as `tr_variantToBufJson` calls it, walks the tree whose
dictionaries are sorted by `strcmp` of their keys.
-/

set_option autoImplicit false

namespace Transmission

/-! ## The reservation -/

/-- `evbuffer_reserve_space(buf, size, vec, 1)`: the room `vec[0].iov_len` it gives for `size`
bytes, at least `size`.  How much more depends on the chains of the buffer, which the model does
not keep; every result below holds whatever the room. -/
structure ReserveSpace where
  room : ℕ → ℕ
  le_room : ∀ size, size ≤ room size

/-- A reservation that gives exactly the room asked for. -/
def exactReserve : ReserveSpace := ⟨id, fun _ ↦ le_rfl⟩

/-- The literal `jsonStringFunc` writes for `s` fits the room reserved for it, `len * 4` bytes
asked. -/
def StringFits (reserve : ReserveSpace) (s : List UInt8) : Prop :=
  (jsonStringText s).length ≤ reserve.room (s.length * 4)

instance (reserve : ReserveSpace) (s : List UInt8) : Decidable (StringFits reserve s) :=
  inferInstanceAs (Decidable (_ ≤ _))

/-- A literal of at most four bytes per byte of its string fits, whatever room libevent gives. -/
theorem StringFits.of_le {reserve : ReserveSpace} {s : List UInt8}
    (h : (jsonStringText s).length ≤ s.length * 4) : StringFits reserve s :=
  h.trans (reserve.le_room _)

/-! ## The callbacks -/

/-- The type of an open container, the `variantType` of a `ParentState`. -/
inductive ContainerType where
  | dict
  | list
  deriving DecidableEq, Repr

/-- `ParentState`: an open container. -/
structure ParentState where
  variantType : ContainerType
  /-- The children printed so far. -/
  childIndex : ℕ
  /-- The children it has, two per dictionary entry. -/
  childCount : ℕ
  deriving DecidableEq, Repr

/-- `struct jsonWalk`: the mode, the open containers (the back of the deque first) and the text
printed so far. -/
structure JsonWalk where
  doIndent : Bool
  parents : List ParentState
  out : List UInt8
  /-- Set once a string has been written past the space reserved for it: undefined
  behaviour. -/
  overrun : Bool

/-- The static buffer of `jsonIndent`, a newline and 1023 spaces, and `beyond`, what lies after
it in memory. -/
def jsonIndentBuf (beyond : ℕ → UInt8) (i : ℕ) : UInt8 :=
  if i = 0 then 0x0A else if i < 1024 then 0x20 else beyond (i - 1024)

/-- The bytes `jsonIndent` prints with `depth` open containers: the first `depth * 4 + 1` bytes
of its buffer, in indented mode, and nothing in lean mode. -/
def jsonNl (beyond : ℕ → UInt8) (doIndent : Bool) (depth : ℕ) : List UInt8 :=
  if doIndent then (List.range (depth * 4 + 1)).map (jsonIndentBuf beyond) else []

section Callbacks

variable (beyond : ℕ → UInt8) (reserve : ReserveSpace)

/-- `jsonIndent`. -/
def jsonIndent (data : JsonWalk) : JsonWalk :=
  { data with out := data.out ++ jsonNl beyond data.doIndent data.parents.length }

/-- The separator after a key: the first `2` bytes of `": "` in indented mode, `1` otherwise. -/
def jsonColon (doIndent : Bool) : List UInt8 :=
  (ascii ": ").take (if doIndent then 2 else 1)

/-- `jsonChildFunc`: after a node, count it in the top entry and print what follows it. -/
def jsonChildFunc (data : JsonWalk) : JsonWalk :=
  match data.parents with
  | [] => data
  | p :: ps =>
    let data' := { data with parents := { p with childIndex := p.childIndex + 1 } :: ps }
    match p.variantType with
    | .dict =>
      if p.childIndex % 2 = 0 then { data' with out := data'.out ++ jsonColon data.doIndent }
      else if p.childIndex + 1 = p.childCount then data'
      else jsonIndent beyond { data' with out := data'.out ++ ascii "," }
    | .list =>
      if p.childIndex + 1 = p.childCount then data'
      else jsonIndent beyond { data' with out := data'.out ++ ascii "," }

/-- `jsonPushParent`, for a container of type `t` with `count` entries. -/
def jsonPushParent (data : JsonWalk) (t : ContainerType) (count : ℕ) : JsonWalk :=
  { data with parents := ⟨t, 0, if t = .dict then count * 2 else count⟩ :: data.parents }

/-- `jsonPopParent`. -/
def jsonPopParent (data : JsonWalk) : JsonWalk :=
  { data with parents := data.parents.tail }

/-- `jsonIntFunc`: the integer in decimal, `%PRId64`. -/
def jsonIntFunc (i : ℤ) (data : JsonWalk) : JsonWalk :=
  jsonChildFunc beyond { data with out := data.out ++ ascii (toString i) }

/-- `jsonBoolFunc`. -/
def jsonBoolFunc (b : Bool) (data : JsonWalk) : JsonWalk :=
  jsonChildFunc beyond { data with out := data.out ++ ascii (if b then "true" else "false") }

/-- `jsonStringFunc`: reserve `len * 4` bytes, write the literal of `s` through `outwalk`, and
commit the `outwalk - out` bytes written.  `evbuffer_commit_space` adds them only when they fit
the room the reservation gave; a longer literal has been written past `outend`, and nothing is
added. -/
def jsonStringFunc (s : List UInt8) (data : JsonWalk) : JsonWalk :=
  if (jsonStringText s).length ≤ reserve.room (s.length * 4) then
    jsonChildFunc beyond { data with out := data.out ++ jsonStringText s }
  else jsonChildFunc beyond { data with overrun := true }

/-- `jsonDictBeginFunc`, for a dictionary of `count` entries. -/
def jsonDictBeginFunc (count : ℕ) (data : JsonWalk) : JsonWalk :=
  let data := jsonPushParent data .dict count
  let data := { data with out := data.out ++ ascii "\x7b" }
  if count ≠ 0 then jsonIndent beyond data else data

/-- `jsonListBeginFunc`, for a list of `count` elements. -/
def jsonListBeginFunc (count : ℕ) (data : JsonWalk) : JsonWalk :=
  let data := jsonPushParent data .list count
  let data := { data with out := data.out ++ ascii "[" }
  if count ≠ 0 then jsonIndent beyond data else data

/-- `jsonContainerEndFunc`.  Its `emptyContainer` flag is never set, so it always indents. -/
def jsonContainerEndFunc (t : ContainerType) (data : JsonWalk) : JsonWalk :=
  let data := jsonIndent beyond (jsonPopParent data)
  jsonChildFunc beyond { data with out := data.out ++ ascii (if t = .dict then "\x7d" else "]") }

end Callbacks

/-- A literal that fits is committed whole. -/
theorem jsonStringFunc_of_fits (beyond : ℕ → UInt8) {reserve : ReserveSpace} {s : List UInt8}
    (hs : StringFits reserve s) (data : JsonWalk) :
    jsonStringFunc beyond reserve s data =
      jsonChildFunc beyond { data with out := data.out ++ jsonStringText s } :=
  if_pos hs

/-- `jsonRealFunc`'s text for a real: `%d` of its integer part when it has no fraction to four
places, and `%.4f` of it otherwise.  Floating-point printing is not modelled; what the model
keeps is that `printf` prints at least one character. -/
structure RealFormat where
  text : UInt64 → List UInt8
  text_ne_nil : ∀ r, text r ≠ []

/-- `jsonRealFunc`. -/
def jsonRealFunc (beyond : ℕ → UInt8) (real : RealFormat) (r : UInt64) (data : JsonWalk) :
    JsonWalk :=
  jsonChildFunc beyond { data with out := data.out ++ real.text r }

/-! ## The walk -/

/-- `struct VariantWalkFuncs`, each callback given what it reads of its node. -/
structure VariantWalkFuncs (σ : Type) where
  intFunc : ℤ → σ → σ
  boolFunc : Bool → σ → σ
  realFunc : UInt64 → σ → σ
  stringFunc : List UInt8 → σ → σ
  dictBeginFunc : ℕ → σ → σ
  listBeginFunc : ℕ → σ → σ
  containerEndFunc : ContainerType → σ → σ

section Walk

variable {σ : Type} (f : VariantWalkFuncs σ)

mutual

/-- The walk of `tr_variantWalk` over a tree in the order it is to be walked: pre-order, each
dictionary entry as its key, through `stringFunc`, then its value, and `containerEndFunc` after a
container's children. -/
def variantWalk : Variant → σ → σ
  | .int i, s => f.intFunc i s
  | .bool b, s => f.boolFunc b s
  | .real r, s => f.realFunc r s
  | .str b, s => f.stringFunc b s
  | .quark q, s => f.stringFunc q s
  | .list l, s => f.containerEndFunc .list (variantWalkList l (f.listBeginFunc l.length s))
  | .dict d, s => f.containerEndFunc .dict (variantWalkDict d (f.dictBeginFunc d.length s))

/-- The children of a list, in order. -/
def variantWalkList : List Variant → σ → σ
  | [], s => s
  | v :: vs, s => variantWalkList vs (variantWalk v s)

/-- The entries of a dictionary, in order, each key then its value. -/
def variantWalkDict : List (Quark × Variant) → σ → σ
  | [], s => s
  | (k, v) :: es, s => variantWalkDict es (variantWalk v (f.stringFunc k s))

end

end Walk

/-- `strcmp` of two C strings, each cut at its first NUL (a list that ends without one ends
there): the order of the first bytes that differ, compared unsigned. -/
def strcmp : List UInt8 → List UInt8 → Ordering
  | [], [] => .eq
  | [], b :: _ => if b = 0 then .eq else .lt
  | a :: _, [] => if a = 0 then .eq else .gt
  | a :: as, b :: bs =>
    if a ≠ b then compare a.toNat b.toNat
    else if a = 0 then .eq
    else strcmp as bs

/-- The order `tr_variantWalk` sorts a dictionary's entries in: by `strcmp` of their keys. -/
def KeyLe (e₁ e₂ : Quark × Variant) : Prop :=
  strcmp e₁.1 e₂.1 ≠ .gt

instance : DecidableRel KeyLe := fun e₁ e₂ ↦ inferInstanceAs (Decidable (strcmp e₁.1 e₂.1 ≠ .gt))

mutual

/-- The tree `tr_variantWalk` walks with `sort_dicts`: at every depth, the entries of each
dictionary sorted by `KeyLe`.  The sort is stable: `qsort` leaves entries whose keys compare equal
in no fixed order, and the model keeps them in tree order. -/
def Variant.sortDicts : Variant → Variant
  | .int i => .int i
  | .bool b => .bool b
  | .real r => .real r
  | .str s => .str s
  | .quark q => .quark q
  | .list l => .list (sortDictsList l)
  | .dict d => .dict ((sortDictsDict d).insertionSort KeyLe)

/-- The elements of a list, their dictionaries sorted. -/
def sortDictsList : List Variant → List Variant
  | [] => []
  | v :: vs => v.sortDicts :: sortDictsList vs

/-- The entries of a dictionary, in tree order, their values' dictionaries sorted. -/
def sortDictsDict : List (Quark × Variant) → List (Quark × Variant)
  | [] => []
  | (k, v) :: es => (k, v.sortDicts) :: sortDictsDict es

end

/-- Modelled from the spec and from its call in `tr_variantToBufJson`: `tr_variantWalk` of
`variant.c` (not under `src/`) walks `top` as `variantWalk` does; with `sort_dicts` it walks each
dictionary sorted with `qsort` by `strcmp` of its keys. -/
def tr_variantWalk {σ : Type} (top : Variant) (f : VariantWalkFuncs σ) (sort_dicts : Bool) :
    σ → σ :=
  variantWalk f (if sort_dicts then top.sortDicts else top)

/-! ## Properties of every node -/

section All

variable (leaf : Variant → Prop) (key : Quark → Prop)

mutual

/-- Every leaf of the tree satisfies `leaf`, and every key of its dictionaries satisfies `key`. -/
def Variant.All : Variant → Prop
  | .int i => leaf (.int i)
  | .bool b => leaf (.bool b)
  | .real r => leaf (.real r)
  | .str s => leaf (.str s)
  | .quark q => leaf (.quark q)
  | .list l => AllList l
  | .dict d => AllDict d

/-- Every element of the list satisfies `Variant.All`. -/
def AllList : List Variant → Prop
  | [] => True
  | v :: vs => v.All ∧ AllList vs

/-- Every key of the dictionary satisfies `key`, and every value `Variant.All`. -/
def AllDict : List (Quark × Variant) → Prop
  | [] => True
  | (k, v) :: es => key k ∧ v.All ∧ AllDict es

end

variable {leaf key}

theorem allDict_iff : ∀ d : List (Quark × Variant),
    AllDict leaf key d ↔ ∀ e ∈ d, key e.1 ∧ e.2.All leaf key
  | [] => by simp [AllDict]
  | (k, v) :: es => by simp [AllDict, allDict_iff es, and_assoc]

mutual

/-- Sorting the dictionaries keeps every leaf and every key. -/
theorem Variant.All.sortDicts : ∀ v : Variant, v.All leaf key → v.sortDicts.All leaf key
  | .int _, h => h
  | .bool _, h => h
  | .real _, h => h
  | .str _, h => h
  | .quark _, h => h
  | .list l, h => allList_sortDictsList l h
  | .dict d, h => (allDict_iff _).2 fun e he ↦
      (allDict_iff _).1 (allDict_sortDictsDict d h) e ((List.perm_insertionSort KeyLe _).subset he)

theorem allList_sortDictsList : ∀ l : List Variant,
    AllList leaf key l → AllList leaf key (sortDictsList l)
  | [], h => h
  | v :: vs, ⟨hv, hvs⟩ => ⟨Variant.All.sortDicts v hv, allList_sortDictsList vs hvs⟩

theorem allDict_sortDictsDict : ∀ d : List (Quark × Variant),
    AllDict leaf key d → AllDict leaf key (sortDictsDict d)
  | [], h => h
  | (_, v) :: es, ⟨hk, hv, hes⟩ => ⟨hk, Variant.All.sortDicts v hv, allDict_sortDictsDict es hes⟩

end

end All

/-- What a leaf needs of the reservation: a string or a quark, that its literal fits. -/
def LeafFits (reserve : ReserveSpace) : Variant → Prop
  | .str s => StringFits reserve s
  | .quark q => StringFits reserve q
  | _ => True

/-- Every string, quark and key of the tree fits the room reserved for its literal. -/
def Variant.Fits (reserve : ReserveSpace) (v : Variant) : Prop :=
  v.All (LeafFits reserve) (StringFits reserve)

/-! ## The text -/

section Text

variable (real : RealFormat) (nl : ℕ → List UInt8) (colon : List UInt8)

mutual

/-- The text of `v` as a container at depth `d` prints it, with `nl n` after each opening bracket
of a nonempty container and each comma between children at depth `n`, and before each closing
bracket at depth `n`, and `colon` after each key. -/
def jsonLayout (d : ℕ) : Variant → List UInt8
  | .int i => ascii (toString i)
  | .bool b => ascii (if b then "true" else "false")
  | .real r => real.text r
  | .str s => jsonStringText s
  | .quark q => jsonStringText q
  | .list [] => ascii "[" ++ nl d ++ ascii "]"
  | .list (v :: vs) => ascii "[" ++ nl (d + 1) ++ jsonLayoutList d (v :: vs) ++ nl d ++ ascii "]"
  | .dict [] => ascii "\x7b" ++ nl d ++ ascii "\x7d"
  | .dict (e :: es) => ascii "\x7b" ++ nl (d + 1) ++ jsonLayoutDict d (e :: es) ++ nl d ++ ascii "\x7d"

/-- The children of a list at depth `d`, separated by `,` and `nl (d + 1)`. -/
def jsonLayoutList (d : ℕ) : List Variant → List UInt8
  | [] => []
  | v :: vs => jsonLayout (d + 1) v ++
      if vs.isEmpty then [] else ascii "," ++ nl (d + 1) ++ jsonLayoutList d vs

/-- The entries of a dictionary at depth `d`, each key, `colon` and value, separated by `,` and
`nl (d + 1)`. -/
def jsonLayoutDict (d : ℕ) : List (Quark × Variant) → List UInt8
  | [] => []
  | (k, v) :: es => jsonStringText k ++ colon ++ jsonLayout (d + 1) v ++
      if es.isEmpty then [] else ascii "," ++ nl (d + 1) ++ jsonLayoutDict d es

end

mutual

/-- A reference printer: `[` elements separated by single `,` `]`, `{` key `:`
value pairs separated by single `,` `}`, with the leaves printed as the callbacks print them. -/
def jsonReference : Variant → List UInt8
  | .int i => ascii (toString i)
  | .bool b => ascii (if b then "true" else "false")
  | .real r => real.text r
  | .str s => jsonStringText s
  | .quark q => jsonStringText q
  | .list l => ascii "[" ++ (ascii ",").intercalate (jsonReferenceList l) ++ ascii "]"
  | .dict d => ascii "\x7b" ++ (ascii ",").intercalate (jsonReferenceDict d) ++ ascii "\x7d"

/-- The texts of the elements of a list. -/
def jsonReferenceList : List Variant → List (List UInt8)
  | [] => []
  | v :: vs => jsonReference v :: jsonReferenceList vs

/-- The texts `key:value` of the entries of a dictionary. -/
def jsonReferenceDict : List (Quark × Variant) → List (List UInt8)
  | [] => []
  | (k, v) :: es => (jsonStringText k ++ ascii ":" ++ jsonReference v) :: jsonReferenceDict es

end

end Text

/-- `walk_funcs`. -/
def walkFuncs (beyond : ℕ → UInt8) (real : RealFormat) (reserve : ReserveSpace) :
    VariantWalkFuncs JsonWalk where
  intFunc := jsonIntFunc beyond
  boolFunc := jsonBoolFunc beyond
  realFunc := jsonRealFunc beyond real
  stringFunc := jsonStringFunc beyond reserve
  dictBeginFunc := jsonDictBeginFunc beyond
  listBeginFunc := jsonListBeginFunc beyond
  containerEndFunc := jsonContainerEndFunc beyond

section WalkFuncs

variable (beyond : ℕ → UInt8) (real : RealFormat) (reserve : ReserveSpace)

@[simp] theorem walkFuncs_stringFunc :
    (walkFuncs beyond real reserve).stringFunc = jsonStringFunc beyond reserve := rfl

@[simp] theorem walkFuncs_dictBeginFunc :
    (walkFuncs beyond real reserve).dictBeginFunc = jsonDictBeginFunc beyond := rfl

@[simp] theorem walkFuncs_listBeginFunc :
    (walkFuncs beyond real reserve).listBeginFunc = jsonListBeginFunc beyond := rfl

@[simp] theorem walkFuncs_containerEndFunc :
    (walkFuncs beyond real reserve).containerEndFunc = jsonContainerEndFunc beyond := rfl

end WalkFuncs

/-- `tr_variantToBufJson`: walk `top`, its dictionaries sorted, onto the buffer `buf`, then add a
newline unless the buffer is still empty; `none` once a string has been written past the space
reserved for it. -/
def tr_variantToBufJson (beyond : ℕ → UInt8) (real : RealFormat) (reserve : ReserveSpace)
    (top : Variant) (buf : List UInt8) (lean : Bool) : Option (List UInt8) :=
  let data := tr_variantWalk top (walkFuncs beyond real reserve) true ⟨!lean, [], buf, false⟩
  if data.overrun then none
  else some (if data.out.length ≠ 0 then data.out ++ ascii "\n" else data.out)

/-! ## Walking a subtree -/

section Steps

variable (beyond : ℕ → UInt8) (ind : Bool) (P : List ParentState) (out : List UInt8) (ov : Bool)

/-- After an element of a list: a comma and an indent, unless it was the last. -/
theorem jsonChildFunc_list (i n : ℕ) :
    jsonChildFunc beyond ⟨ind, ⟨.list, i, n⟩ :: P, out, ov⟩ =
      ⟨ind, ⟨.list, i + 1, n⟩ :: P,
        if i + 1 = n then out else out ++ ascii "," ++ jsonNl beyond ind (P.length + 1), ov⟩ := by
  unfold jsonChildFunc
  by_cases h : i + 1 = n <;> simp [h, jsonIndent]

/-- After a key: the colon. -/
theorem jsonChildFunc_key (i n : ℕ) :
    jsonChildFunc beyond ⟨ind, ⟨.dict, i * 2, n⟩ :: P, out, ov⟩ =
      ⟨ind, ⟨.dict, i * 2 + 1, n⟩ :: P, out ++ jsonColon ind, ov⟩ := by
  simp [jsonChildFunc]

/-- After a value: a comma and an indent, unless it was the last. -/
theorem jsonChildFunc_value (i n : ℕ) :
    jsonChildFunc beyond ⟨ind, ⟨.dict, i * 2 + 1, n⟩ :: P, out, ov⟩ =
      ⟨ind, ⟨.dict, (i + 1) * 2, n⟩ :: P,
        if (i + 1) * 2 = n then out else out ++ ascii "," ++ jsonNl beyond ind (P.length + 1), ov⟩ := by
  unfold jsonChildFunc
  have h1 : (i * 2 + 1) % 2 = 1 := by omega
  have h2 : i * 2 + 1 + 1 = (i + 1) * 2 := by omega
  by_cases h : (i + 1) * 2 = n <;> simp [h, h1, h2, jsonIndent]

theorem jsonListBeginFunc_eq {n : ℕ} (hn : n ≠ 0) :
    jsonListBeginFunc beyond n ⟨ind, P, out, ov⟩ =
      ⟨ind, ⟨.list, 0, n⟩ :: P, out ++ ascii "[" ++ jsonNl beyond ind (P.length + 1), ov⟩ := by
  simp [jsonListBeginFunc, jsonPushParent, jsonIndent, hn]

theorem jsonDictBeginFunc_eq {n : ℕ} (hn : n ≠ 0) :
    jsonDictBeginFunc beyond n ⟨ind, P, out, ov⟩ =
      ⟨ind, ⟨.dict, 0 * 2, n * 2⟩ :: P, out ++ ascii "\x7b" ++ jsonNl beyond ind (P.length + 1),
        ov⟩ := by
  simp [jsonDictBeginFunc, jsonPushParent, jsonIndent, hn]

/-- Closing a container: pop it, indent, and print its bracket, then go on in its parent. -/
theorem jsonContainerEndFunc_eq (t : ContainerType) (p : ParentState) :
    jsonContainerEndFunc beyond t ⟨ind, p :: P, out, ov⟩ =
      jsonChildFunc beyond
        ⟨ind, P, out ++ jsonNl beyond ind P.length ++ ascii (if t = .dict then "\x7d" else "]"),
          ov⟩ := by
  simp [jsonContainerEndFunc, jsonPopParent, jsonIndent]

end Steps

section WalkEq

variable (beyond : ℕ → UInt8) (real : RealFormat) (reserve : ReserveSpace)

mutual

/-- **Walking a subtree prints its layout**, at the depth of the stack, and then what
`jsonChildFunc` prints after a node, when its literals fit: the parents are as they were, but for
the top entry, one child further, and nothing is written past a reservation. -/
theorem variantWalk_eq : ∀ (v : Variant), v.Fits reserve → ∀ (ind : Bool) (P : List ParentState)
    (out : List UInt8) (ov : Bool),
    variantWalk (walkFuncs beyond real reserve) v ⟨ind, P, out, ov⟩ =
      jsonChildFunc beyond
        ⟨ind, P, out ++ jsonLayout real (jsonNl beyond ind) (jsonColon ind) P.length v, ov⟩
  | .int _, _, _, _, _, _ => rfl
  | .bool _, _, _, _, _, _ => rfl
  | .real _, _, _, _, _, _ => rfl
  | .str _, h, _, _, _, _ => jsonStringFunc_of_fits beyond h _
  | .quark _, h, _, _, _, _ => jsonStringFunc_of_fits beyond h _
  | .list [], _, ind, P, out, ov => by
    simp [variantWalk, variantWalkList, walkFuncs, jsonListBeginFunc, jsonContainerEndFunc,
      jsonPushParent, jsonPopParent, jsonIndent, jsonLayout]
  | .list (v :: vs), h, ind, P, out, ov => by
    rw [variantWalk, walkFuncs_listBeginFunc, walkFuncs_containerEndFunc,
      jsonListBeginFunc_eq beyond ind P out ov (List.cons_ne_nil v vs ∘ List.length_eq_zero.1),
      variantWalkList_eq (v :: vs) h ind P 0 _ ov (Nat.zero_add _), jsonContainerEndFunc_eq]
    simp [jsonLayout]
  | .dict [], _, ind, P, out, ov => by
    simp [variantWalk, variantWalkDict, walkFuncs, jsonDictBeginFunc, jsonContainerEndFunc,
      jsonPushParent, jsonPopParent, jsonIndent, jsonLayout]
  | .dict (e :: es), h, ind, P, out, ov => by
    rw [variantWalk, walkFuncs_dictBeginFunc, walkFuncs_containerEndFunc,
      jsonDictBeginFunc_eq beyond ind P out ov (List.cons_ne_nil e es ∘ List.length_eq_zero.1),
      variantWalkDict_eq (e :: es) h ind P 0 _ ov (Nat.zero_add _), jsonContainerEndFunc_eq]
    simp [jsonLayout]

/-- Walking the children `l` of a list of `n`, `i` of them printed before. -/
theorem variantWalkList_eq : ∀ (l : List Variant), AllList (LeafFits reserve) (StringFits reserve) l →
    ∀ (ind : Bool) (P : List ParentState) (i : ℕ) (out : List UInt8) (ov : Bool) {n : ℕ},
    i + l.length = n →
    variantWalkList (walkFuncs beyond real reserve) l ⟨ind, ⟨.list, i, n⟩ :: P, out, ov⟩ =
      ⟨ind, ⟨.list, n, n⟩ :: P,
        out ++ jsonLayoutList real (jsonNl beyond ind) (jsonColon ind) P.length l, ov⟩
  | [], _, _, _, _, _, _, _, hn => by simp at hn; simp [variantWalkList, jsonLayoutList, hn]
  | v :: vs, ⟨hv, hvs⟩, ind, P, i, out, ov, n, hn => by
    rw [variantWalkList, variantWalk_eq v hv, List.length_cons, jsonChildFunc_list]
    cases vs with
    | nil => simp at hn; simp [variantWalkList, jsonLayoutList, hn]
    | cons w ws =>
      simp only [List.length_cons] at hn
      rw [if_neg (by omega), variantWalkList_eq (w :: ws) hvs ind P (i + 1) _ ov (by simp; omega)]
      simp [jsonLayoutList]

/-- Walking the entries `es` of a dictionary of `n`, `i` of them printed before. -/
theorem variantWalkDict_eq : ∀ (es : List (Quark × Variant)),
    AllDict (LeafFits reserve) (StringFits reserve) es → ∀ (ind : Bool) (P : List ParentState)
    (i : ℕ) (out : List UInt8) (ov : Bool) {n : ℕ}, i + es.length = n →
    variantWalkDict (walkFuncs beyond real reserve) es ⟨ind, ⟨.dict, i * 2, n * 2⟩ :: P, out, ov⟩ =
      ⟨ind, ⟨.dict, n * 2, n * 2⟩ :: P,
        out ++ jsonLayoutDict real (jsonNl beyond ind) (jsonColon ind) P.length es, ov⟩
  | [], _, _, _, _, _, _, _, hn => by simp at hn; simp [variantWalkDict, jsonLayoutDict, hn]
  | (k, v) :: es, ⟨hk, hv, hes⟩, ind, P, i, out, ov, n, hn => by
    rw [variantWalkDict, walkFuncs_stringFunc, jsonStringFunc_of_fits beyond hk]
    rw [jsonChildFunc_key, variantWalk_eq v hv, List.length_cons, jsonChildFunc_value]
    cases es with
    | nil => simp at hn; simp [variantWalkDict, jsonLayoutDict, hn]
    | cons e es =>
      simp only [List.length_cons] at hn
      rw [if_neg (by omega), variantWalkDict_eq (e :: es) hes ind P (i + 1) _ ov (by simp; omega)]
      simp [jsonLayoutDict]

end

end WalkEq

/-! ## The whole text -/

section Whole

variable (real : RealFormat)

mutual

/-- In lean mode the layout is the reference printer's text. -/
theorem jsonLayout_lean : ∀ (d : ℕ) (v : Variant),
    jsonLayout real (fun _ ↦ []) (ascii ":") d v = jsonReference real v
  | _, .int _ => rfl
  | _, .bool _ => rfl
  | _, .real _ => rfl
  | _, .str _ => rfl
  | _, .quark _ => rfl
  | _, .list [] => rfl
  | d, .list (v :: vs) => by
    simp [jsonLayout, jsonReference, jsonLayoutList_lean d (v :: vs)]
  | _, .dict [] => rfl
  | d, .dict (e :: es) => by
    simp [jsonLayout, jsonReference, jsonLayoutDict_lean d (e :: es)]

theorem jsonLayoutList_lean : ∀ (d : ℕ) (l : List Variant),
    jsonLayoutList real (fun _ ↦ []) (ascii ":") d l =
      (ascii ",").intercalate (jsonReferenceList real l)
  | _, [] => rfl
  | d, [v] => by simp [jsonLayoutList, jsonReferenceList, jsonLayout_lean (d + 1) v,
      List.intercalate]
  | d, v :: w :: ws => by
    rw [jsonLayoutList, jsonLayout_lean (d + 1) v, jsonLayoutList_lean d (w :: ws)]
    simp [jsonReferenceList, List.intercalate, List.intersperse_cons_cons]

theorem jsonLayoutDict_lean : ∀ (d : ℕ) (es : List (Quark × Variant)),
    jsonLayoutDict real (fun _ ↦ []) (ascii ":") d es =
      (ascii ",").intercalate (jsonReferenceDict real es)
  | _, [] => rfl
  | d, [(k, v)] => by simp [jsonLayoutDict, jsonReferenceDict, jsonLayout_lean (d + 1) v,
      List.intercalate]
  | d, (k, v) :: e :: es => by
    rw [jsonLayoutDict, jsonLayout_lean (d + 1) v, jsonLayoutDict_lean d (e :: es)]
    simp [jsonReferenceDict, List.intercalate, List.intersperse_cons_cons]

end

/-- `Nat.toDigitsCore` only adds digits in front of what it is given. -/
theorem toDigitsCore_ne_nil (b : ℕ) : ∀ (fuel n : ℕ) (ds : List Char), ds ≠ [] →
    Nat.toDigitsCore b fuel n ds ≠ []
  | 0, _, _, h => h
  | fuel + 1, n, ds, _ => by
    simp only [Nat.toDigitsCore]
    split_ifs
    · simp
    · exact toDigitsCore_ne_nil b fuel _ _ (List.cons_ne_nil _ _)

/-- `%PRId64` prints at least one digit. -/
theorem int_toString_data_ne_nil (i : ℤ) : (toString i).data ≠ [] := by
  cases i with
  | ofNat m =>
    show Nat.toDigitsCore 10 (m + 1) m [] ≠ []
    simp only [Nat.toDigitsCore]
    split_ifs
    · simp
    · exact toDigitsCore_ne_nil 10 m _ _ (List.cons_ne_nil _ _)
  | negSucc m => simp [toString]

/-- Every node prints something. -/
theorem jsonLayout_ne_nil (nl : ℕ → List UInt8) (colon : List UInt8) (d : ℕ) (v : Variant) :
    jsonLayout real nl colon d v ≠ [] := by
  cases v with
  | int i => simpa [jsonLayout, ascii] using int_toString_data_ne_nil i
  | bool b => cases b <;> simp [jsonLayout, ascii]
  | real r => exact real.text_ne_nil r
  | list l => cases l <;> simp [jsonLayout, ascii]
  | dict e => cases e <;> simp [jsonLayout, ascii]
  | _ => simp [jsonLayout, jsonStringText]

variable (beyond : ℕ → UInt8) (reserve : ReserveSpace)

/-- **The text of `tr_variantToBufJson`**, when every literal fits: the buffer, the layout of the
tree with its dictionaries sorted at depth 0, and a newline. -/
theorem tr_variantToBufJson_eq {v : Variant} (hv : v.Fits reserve) (buf : List UInt8)
    (lean : Bool) :
    tr_variantToBufJson beyond real reserve v buf lean =
      some (buf ++ jsonLayout real (jsonNl beyond !lean) (jsonColon !lean) 0 v.sortDicts ++
        ascii "\n") := by
  unfold tr_variantToBufJson tr_variantWalk
  rw [if_pos rfl, variantWalk_eq beyond real reserve _ (hv.sortDicts _)]
  have := jsonLayout_ne_nil real (jsonNl beyond !lean) (jsonColon !lean) 0 v.sortDicts
  simp [jsonChildFunc, this]

end Whole

/-! ## Indentation and depth -/

mutual

/-- The most containers that enclose one node of the tree: `0` for a leaf and for an empty
container. -/
def Variant.depth : Variant → ℕ
  | .list l => depthList l
  | .dict d => depthDict d
  | _ => 0

/-- The depth of a list's children, one more than their own. -/
def depthList : List Variant → ℕ
  | [] => 0
  | v :: vs => max (v.depth + 1) (depthList vs)

/-- The depth of a dictionary's values, one more than their own. -/
def depthDict : List (Quark × Variant) → ℕ
  | [] => 0
  | (_, v) :: es => max (v.depth + 1) (depthDict es)

end

theorem depthDict_le_iff {n : ℕ} : ∀ d : List (Quark × Variant),
    depthDict d ≤ n ↔ ∀ e ∈ d, e.2.depth + 1 ≤ n
  | [] => by simp [depthDict]
  | (k, v) :: es => by simp [depthDict, depthDict_le_iff es]

/-- The depth of a dictionary does not depend on the order of its entries. -/
theorem depthDict_perm {d d' : List (Quark × Variant)} (h : d.Perm d') :
    depthDict d = depthDict d' :=
  le_antisymm ((depthDict_le_iff d).2 fun e he ↦ (depthDict_le_iff d').1 le_rfl e (h.subset he))
    ((depthDict_le_iff d').2 fun e he ↦ (depthDict_le_iff d).1 le_rfl e (h.symm.subset he))

mutual

/-- Sorting the dictionaries keeps the depth. -/
theorem Variant.depth_sortDicts : ∀ v : Variant, v.sortDicts.depth = v.depth
  | .int _ => rfl
  | .bool _ => rfl
  | .real _ => rfl
  | .str _ => rfl
  | .quark _ => rfl
  | .list l => depthList_sortDictsList l
  | .dict d => (depthDict_perm (List.perm_insertionSort KeyLe _)).trans (depthDict_sortDictsDict d)

theorem depthList_sortDictsList : ∀ l : List Variant, depthList (sortDictsList l) = depthList l
  | [] => rfl
  | v :: vs => by
    simp only [sortDictsList, depthList, Variant.depth_sortDicts v, depthList_sortDictsList vs]

theorem depthDict_sortDictsDict : ∀ d : List (Quark × Variant),
    depthDict (sortDictsDict d) = depthDict d
  | [] => rfl
  | (_, v) :: es => by
    simp only [sortDictsDict, depthDict, Variant.depth_sortDicts v, depthDict_sortDictsDict es]

end

section Depth

variable (real : RealFormat) (colon : List UInt8) {nl₁ nl₂ : ℕ → List UInt8}

mutual

/-- The layout at depth `d` reads `nl` only up to `d + v.depth`. -/
theorem jsonLayout_congr : ∀ (d : ℕ) (v : Variant), (∀ n ≤ d + v.depth, nl₁ n = nl₂ n) →
    jsonLayout real nl₁ colon d v = jsonLayout real nl₂ colon d v
  | _, .int _, _ => rfl
  | _, .bool _, _ => rfl
  | _, .real _, _ => rfl
  | _, .str _, _ => rfl
  | _, .quark _, _ => rfl
  | d, .list [], h => by simp [jsonLayout, h d (Nat.le_add_right d _)]
  | d, .list (v :: vs), h => by
    have hv : v.depth + 1 ≤ depthList (v :: vs) := le_max_left _ _
    rw [Variant.depth] at h
    simp only [jsonLayout]
    rw [jsonLayoutList_congr d (v :: vs) h, h d (by omega), h (d + 1) (by omega)]
  | d, .dict [], h => by simp [jsonLayout, h d (Nat.le_add_right d _)]
  | d, .dict ((k, v) :: es), h => by
    have hv : v.depth + 1 ≤ depthDict ((k, v) :: es) := le_max_left _ _
    rw [Variant.depth] at h
    simp only [jsonLayout]
    rw [jsonLayoutDict_congr d ((k, v) :: es) h, h d (by omega), h (d + 1) (by omega)]

theorem jsonLayoutList_congr : ∀ (d : ℕ) (l : List Variant), (∀ n ≤ d + depthList l, nl₁ n = nl₂ n) →
    jsonLayoutList real nl₁ colon d l = jsonLayoutList real nl₂ colon d l
  | _, [], _ => rfl
  | d, v :: vs, h => by
    have hv : v.depth + 1 ≤ depthList (v :: vs) := le_max_left _ _
    have hvs : depthList vs ≤ depthList (v :: vs) := le_max_right _ _
    simp only [jsonLayoutList]
    rw [jsonLayout_congr (d + 1) v (fun n hn ↦ h n (by omega)), h (d + 1) (by omega),
      jsonLayoutList_congr d vs (fun n hn ↦ h n (by omega))]

theorem jsonLayoutDict_congr : ∀ (d : ℕ) (es : List (Quark × Variant)),
    (∀ n ≤ d + depthDict es, nl₁ n = nl₂ n) →
    jsonLayoutDict real nl₁ colon d es = jsonLayoutDict real nl₂ colon d es
  | _, [], _ => rfl
  | d, (k, v) :: es, h => by
    have hv : v.depth + 1 ≤ depthDict ((k, v) :: es) := le_max_left _ _
    have hes : depthDict es ≤ depthDict ((k, v) :: es) := le_max_right _ _
    simp only [jsonLayoutDict]
    rw [jsonLayout_congr (d + 1) v (fun n hn ↦ h n (by omega)), h (d + 1) (by omega),
      jsonLayoutDict_congr d es (fun n hn ↦ h n (by omega))]

end

end Depth

section Indent

variable (beyond : ℕ → UInt8)

/-- In lean mode `jsonIndent` prints nothing. -/
@[simp] theorem jsonNl_false : jsonNl beyond false = fun _ ↦ [] := rfl

@[simp] theorem jsonColon_true : jsonColon true = ascii ": " := rfl

/-- With at most 255 open containers, `jsonIndent` prints a newline and four spaces per open
container, all from its buffer. -/
theorem jsonNl_true_of_le {n : ℕ} (hn : n ≤ 255) :
    jsonNl beyond true n = 0x0A :: List.replicate (n * 4) 0x20 := by
  rw [jsonNl, if_pos rfl, List.range_succ_eq_map, List.map_cons, List.map_map]
  refine congrArg _ (List.eq_replicate_iff.2 ⟨by simp, fun b hb ↦ ?_⟩)
  obtain ⟨i, hi, rfl⟩ := List.mem_map.1 hb
  have : i + 1 < 1024 := by simp at hi; omega
  simp [jsonIndentBuf, this]

end Indent

/-- Lists nested `n + 1` deep, the innermost empty. -/
def nestList : ℕ → Variant
  | 0 => .list []
  | n + 1 => .list [nestList n]

/-- The text in indented mode: a newline and four spaces per level. -/
def indentNl (n : ℕ) : List UInt8 :=
  0x0A :: List.replicate (n * 4) 0x20

/-- The amended text of the printer, for a tree whose literals fit their reservations: in lean
mode the reference text of the tree with its dictionaries sorted, and a newline; in indented mode,
for a tree whose nodes lie inside at most 255 containers, the same text with the indents of
`indentNl` and `": "` after each key; and the walk of any subtree counts it in its parent. -/
theorem tr_variantToBufJson_spec (beyond : ℕ → UInt8) (real : RealFormat) (reserve : ReserveSpace)
    (v : Variant) (hv : v.Fits reserve) (buf : List UInt8) :
    tr_variantToBufJson beyond real reserve v buf true =
      some (buf ++ jsonReference real v.sortDicts ++ ascii "\n") ∧
    (v.depth ≤ 255 → tr_variantToBufJson beyond real reserve v buf false =
      some (buf ++ jsonLayout real indentNl (ascii ": ") 0 v.sortDicts ++ ascii "\n")) ∧
    ∀ w : Variant, w.Fits reserve → ∀ (ind : Bool) (P : List ParentState) (out : List UInt8)
      (ov : Bool),
      variantWalk (walkFuncs beyond real reserve) w ⟨ind, P, out, ov⟩ =
        jsonChildFunc beyond
          ⟨ind, P, out ++ jsonLayout real (jsonNl beyond ind) (jsonColon ind) P.length w, ov⟩ := by
  refine ⟨?_, fun hd ↦ ?_, variantWalk_eq beyond real reserve⟩
  · rw [tr_variantToBufJson_eq real beyond reserve hv, Bool.not_true, jsonNl_false]
    exact congrArg (some <| buf ++ · ++ _) (jsonLayout_lean real 0 _)
  · rw [tr_variantToBufJson_eq real beyond reserve hv, Bool.not_false]
    rw [← Variant.depth_sortDicts] at hd
    exact congrArg (some <| buf ++ · ++ _) (jsonLayout_congr real _ 0 _
      fun n hn ↦ jsonNl_true_of_le beyond (by omega))

/-- Two nested lists print on three lines, the inner one empty. -/
theorem tr_variantToBufJson_spec_nestList :
    (nestList 1).Fits exactReserve ∧ (nestList 1).depth ≤ 255 ∧
    tr_variantToBufJson (fun _ ↦ 0) ⟨fun _ ↦ ascii "0", fun _ ↦ List.cons_ne_nil _ _⟩ exactReserve
      (nestList 1) [] false = some (ascii "[\n    [\n    ]\n]\n") :=
  have hfit : (nestList 1).Fits exactReserve := ⟨trivial, trivial⟩
  ⟨hfit, by decide, by rw [(tr_variantToBufJson_spec _ _ exactReserve _ hfit []).2.1 (by decide)]; rfl⟩

/-- A dictionary whose keys are out of order, `b` before `a`. -/
def keysBA : Variant :=
  .dict [(ascii "b", .int 2), (ascii "a", .int 1)]

/-- The printer's text is not the reference text of the tree: in lean mode it ends with a
newline, and it lists a dictionary's entries in the order of their keys. -/
theorem tr_variantToBufJson_text_differs :
    (∀ beyond real reserve, tr_variantToBufJson beyond real reserve (.list []) [] true =
        some (ascii "[]\n") ∧ jsonReference real (.list []) = ascii "[]") ∧
    ∀ beyond real reserve, tr_variantToBufJson beyond real reserve keysBA [] true =
        some (ascii "\x7b\"a\":1,\"b\":2\x7d\n") ∧
      jsonReference real keysBA = ascii "\x7b\"b\":2,\"a\":1\x7d" := by
  refine ⟨fun _ _ _ ↦ ⟨rfl, rfl⟩, fun beyond real reserve ↦ ⟨?_, rfl⟩⟩
  have hfit : keysBA.Fits reserve :=
    ⟨.of_le (by decide), trivial, .of_le (by decide), trivial, trivial⟩
  rw [tr_variantToBufJson_eq real beyond reserve hfit]
  rfl

end Transmission
