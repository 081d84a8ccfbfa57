import Transmission.Torrent

/-!
# Variants

`tr_variant` is libtransmission's dynamic value: the tree a bencoded `.torrent` container, a
JSON RPC message or a settings file is parsed into, and serialised from.  Its implementation,
`variant.c`, is not under `src/`; what the code under `src/` relies on is the shape of the tree,
which this file fixes.

A string variant can hold its bytes or a *quark*, an interned string; keys of dictionaries are
always quarks.  A quark is modelled by its text, so that `tr_quark_new` is the identity and two
quarks are equal exactly when their texts are.  A real holds a C `double`, kept here as its 64
bits: nothing below depends on floating-point arithmetic.
-/

set_option autoImplicit false

namespace Transmission

/-- An interned string, by its text. -/
abbrev Quark := List UInt8

/-- `TR_KEY_NONE`, the quark of the empty string. -/
def TR_KEY_NONE : Quark := []

/-- `tr_variant`: an integer, a boolean, a real, a string holding its bytes or a quark, a list,
or a dictionary whose entries are kept in the order they were added. -/
inductive Variant where
  | int (i : ℤ)
  | bool (b : Bool)
  | real (bits : UInt64)
  | str (s : List UInt8)
  | quark (q : Quark)
  | list (l : List Variant)
  | dict (d : List (Quark × Variant))
  deriving Repr, Inhabited

/-! ## Nodes by pointer

The code reaches the nodes of a tree through pointers.  A pointer into a tree is modelled by the
path that leads to its node from the root, the indices of the children taken on the way;
`getAt` reads the node a path leads to and `modifyAt` changes it in place, leaving the rest of
the tree as it was. -/

namespace Variant

/-- `v->val.l.count`: the children of a container. -/
def count : Variant → ℕ
  | .list l => l.length
  | .dict d => d.length
  | _ => 0

/-- The node the path leads to, if there is one. -/
def getAt : List ℕ → Variant → Option Variant
  | [], v => some v
  | i :: p, .list l => l[i]?.bind (getAt p)
  | i :: p, .dict d => d[i]?.bind fun e ↦ getAt p e.2
  | _ :: _, _ => none

/-- Change the node the path leads to by `f`. -/
def modifyAt : List ℕ → (Variant → Variant) → Variant → Variant
  | [], f, v => f v
  | i :: p, f, .list l => .list (l.modify (modifyAt p f) i)
  | i :: p, f, .dict d => .dict (d.modify (fun e ↦ (e.1, modifyAt p f e.2)) i)
  | _ :: _, _, v => v

@[simp] theorem getAt_nil (v : Variant) : getAt [] v = some v := rfl

@[simp] theorem modifyAt_nil (f : Variant → Variant) : modifyAt [] f = f := rfl

/-- Following `p ++ q` is following `p`, then `q`. -/
theorem getAt_append : ∀ (p q : List ℕ) (v : Variant),
    getAt (p ++ q) v = (getAt p v).bind (getAt q)
  | [], _, _ => rfl
  | i :: p, q, .list l => by
    simp only [List.cons_append, getAt, List.append_eq, getAt_append p q, Option.bind_assoc]
  | i :: p, q, .dict d => by
    simp only [List.cons_append, getAt, List.append_eq, getAt_append p q, Option.bind_assoc]
  | _ :: _, _, .int _ | _ :: _, _, .bool _ | _ :: _, _, .real _ | _ :: _, _, .str _
  | _ :: _, _, .quark _ => rfl

/-- Changing the node at `p ++ q` is changing, in the node at `p`, the node at `q`. -/
theorem modifyAt_append : ∀ (p q : List ℕ) (f : Variant → Variant),
    modifyAt (p ++ q) f = modifyAt p (modifyAt q f)
  | [], _, _ => rfl
  | i :: p, q, f => by
    funext v
    cases v <;> simp only [List.cons_append, modifyAt, List.append_eq, modifyAt_append p q]

/-- Two changes of one node are one change. -/
theorem modifyAt_comp : ∀ (p : List ℕ) (f g : Variant → Variant),
    modifyAt p g ∘ modifyAt p f = modifyAt p (g ∘ f)
  | [], _, _ => rfl
  | i :: p, f, g => by
    funext v
    cases v with
    | list l => simp only [Function.comp_apply, modifyAt, List.modify_modify_eq, modifyAt_comp p]
    | dict d =>
      simp only [Function.comp_apply, modifyAt, List.modify_modify_eq]
      congr 2
      funext e
      simp only [Function.comp_apply, ← modifyAt_comp p f g]
    | _ => rfl

theorem modifyAt_modifyAt (p : List ℕ) (f g : Variant → Variant) (v : Variant) :
    modifyAt p g (modifyAt p f v) = modifyAt p (g ∘ f) v :=
  congrFun (modifyAt_comp p f g) v

/-- Reading the node just changed. -/
theorem getAt_modifyAt : ∀ (p : List ℕ) (f : Variant → Variant) (v : Variant),
    getAt p (modifyAt p f v) = (getAt p v).map f
  | [], _, _ => rfl
  | i :: p, f, .list l => by
    simp only [modifyAt, getAt, List.getElem?_modify_eq]
    cases l[i]? <;> simp [getAt_modifyAt p]
  | i :: p, f, .dict d => by
    simp only [modifyAt, getAt, List.getElem?_modify_eq]
    cases d[i]? <;> simp [getAt_modifyAt p]
  | _ :: _, _, .int _ | _ :: _, _, .bool _ | _ :: _, _, .real _ | _ :: _, _, .str _
  | _ :: _, _, .quark _ => rfl

/-- Changing a node by the identity changes nothing. -/
@[simp] theorem modifyAt_id : ∀ p : List ℕ, modifyAt p id = id
  | [] => rfl
  | i :: p => by
    funext v
    cases v with
    | list l => simp [modifyAt, modifyAt_id p]
    | dict d =>
      simp only [modifyAt, modifyAt_id p, id]
      exact congrArg _ (List.modify_id i d)
    | _ => rfl

/-- `List.modify` only reads the element it changes. -/
theorem list_modify_congr {α : Type} {l : List α} {i : ℕ} {a : α} (h : l[i]? = some a)
    {f g : α → α} (hfg : f a = g a) : l.modify f i = l.modify g i := by
  apply List.ext_getElem?
  intro j
  simp only [List.getElem?_modify]
  by_cases hij : i = j
  · subst hij; simp [h, hfg]
  · simp [hij]

/-- A change of a node only reads that node. -/
theorem modifyAt_congr : ∀ {p : List ℕ} {v c : Variant}, getAt p v = some c →
    ∀ {f g : Variant → Variant}, f c = g c → modifyAt p f v = modifyAt p g v
  | [], _, _, h, _, _, hfg => by cases h; exact hfg
  | i :: p, .list l, c, h, f, g, hfg => by
    obtain ⟨t, ht, hc⟩ := Option.bind_eq_some.1 h
    exact congrArg Variant.list (list_modify_congr ht (modifyAt_congr hc hfg))
  | i :: p, .dict d, c, h, f, g, hfg => by
    obtain ⟨t, ht, hc⟩ := Option.bind_eq_some.1 h
    exact congrArg Variant.dict (list_modify_congr ht (by rw [modifyAt_congr hc hfg]))
  | _ :: _, .int _, _, h, _, _, _ | _ :: _, .bool _, _, h, _, _, _
  | _ :: _, .real _, _, h, _, _, _ | _ :: _, .str _, _, h, _, _, _
  | _ :: _, .quark _, _, h, _, _, _ => by cases h

/-- Writing a node back as it is changes nothing. -/
theorem modifyAt_of_getAt {p : List ℕ} {v c : Variant} (h : getAt p v = some c) :
    modifyAt p (fun _ ↦ c) v = v := by
  rw [modifyAt_congr h (show (fun _ ↦ c) c = id c from rfl), modifyAt_id]
  rfl

end Variant

/-- `tr_variantListAdd`: a new last element, which `tr_variantInit` makes the integer 0. -/
def tr_variantListAdd : Variant → Variant
  | .list l => .list (l ++ [.int 0])
  | v => v

/-- `tr_variantDictAdd`: a new last entry under `key`, its value the integer 0. -/
def tr_variantDictAdd (key : Quark) : Variant → Variant
  | .dict d => .dict (d ++ [(key, .int 0)])
  | v => v

/-- The last of `l ++ [a]` is `a`. -/
theorem modify_append_length {α : Type} (f : α → α) (l : List α) (a : α) :
    (l ++ [a]).modify f l.length = l ++ [f a] := by
  induction l <;> simp [*]

namespace Variant

variable {p : List ℕ} {v : Variant}

/-- A new element of the list at `p` is at `p ++ [l.length]`. -/
theorem getAt_listAdd {l : List Variant} (h : getAt p v = some (.list l)) :
    getAt (p ++ [l.length]) (modifyAt p tr_variantListAdd v) = some (.int 0) := by
  simp [getAt_append, getAt_modifyAt, h, tr_variantListAdd, getAt]

/-- Filling a new element of the list at `p` is appending what it is filled with. -/
theorem modifyAt_listAdd {l : List Variant} (h : getAt p v = some (.list l)) (f : Variant → Variant) :
    modifyAt (p ++ [l.length]) f (modifyAt p tr_variantListAdd v) =
      modifyAt p (fun _ ↦ .list (l ++ [f (.int 0)])) v := by
  rw [modifyAt_append, modifyAt_modifyAt]
  exact modifyAt_congr h (by simp [tr_variantListAdd, modifyAt, modify_append_length])

theorem getAt_dictAdd {d : List (Quark × Variant)} (h : getAt p v = some (.dict d)) (key : Quark) :
    getAt (p ++ [d.length]) (modifyAt p (tr_variantDictAdd key) v) = some (.int 0) := by
  simp [getAt_append, getAt_modifyAt, h, tr_variantDictAdd, getAt]

/-- Filling a new entry of the dictionary at `p` is appending the entry. -/
theorem modifyAt_dictAdd {d : List (Quark × Variant)} (h : getAt p v = some (.dict d)) (key : Quark)
    (f : Variant → Variant) :
    modifyAt (p ++ [d.length]) f (modifyAt p (tr_variantDictAdd key) v) =
      modifyAt p (fun _ ↦ .dict (d ++ [(key, f (.int 0))])) v := by
  rw [modifyAt_append, modifyAt_modifyAt]
  exact modifyAt_congr h (by simp [tr_variantDictAdd, modifyAt, modify_append_length])

end Variant

end Transmission
