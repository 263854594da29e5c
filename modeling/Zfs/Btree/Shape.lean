import Zfs.Btree.Defs
import Zfs.Lib.Compar
import Mathlib.Data.List.Nodup
import Mathlib.Algebra.BigOperators.Group.List.Basic

/-!
# Btree/Shape — what a well-formed subtree is

A node `d` levels above the leaves heads a well-formed subtree (`Sub`) when its header is right
(non-`NULL`, its parent pointer, `bth_core` exactly when `d > 0`), its elements increase strictly
from the lower bound `lo` to the upper bound `hi` it inherits, and, for a core node, its children
form a *separator chain*: child `i` heads a well-formed subtree, one level lower, whose parent is
this node and whose bounds are the separators on either side of it.  Everything is read through
the list views `elemList` and `childList` of a node's first slots.

Elements increase strictly in the sense of `Compar.Inc`, between neighbours, so no law of the
comparator is needed to build or take apart a subtree; the laws enter only when a chain is read
as a sorted list or searched.

The in-order sequence `inorder` interleaves the children's sequences with the separators
(`weave`), and increases strictly between the subtree's bounds (`inc_inorder`).  A place
(`BtPos`) is a node with the bounds it inherits; `Reach` goes down from a place through children,
as `zfs_btree_find` does.  How many elements a node holds is not part of `Sub`.
-/

namespace Zfs

open Slots Compar

variable {α : Type}

/-! ## Separator chains and the interleaving of children with separators -/

section Weave

variable {β : Type}

/-- The separator chain: `P lo hi c` for each child `c` and the separators `lo`, `hi` on either
side of it, `lo` before the first child and `hi` after the last.  There is one more child than
separators. -/
def SepChain (P : Option α → Option α → β → Prop) : Option α → List α → List β → Option α → Prop
  | lo, [], [c], hi => P lo hi c
  | lo, s :: ss, c :: cs, hi => P lo (some s) c ∧ SepChain P (some s) ss cs hi
  | _, _, _, _ => False

variable {P Q : Option α → Option α → β → Prop}

theorem sepChain_mono (hPQ : ∀ lo hi c, P lo hi c → Q lo hi c) :
    ∀ {lo hi : Option α} {ss : List α} {cs : List β},
      SepChain P lo ss cs hi → SepChain Q lo ss cs hi
  | _, _, [], [_], h => hPQ _ _ _ h
  | _, _, [], [], h => h.elim
  | _, _, [], _ :: _ :: _, h => h.elim
  | _, _, _ :: _, [], h => h.elim
  | _, _, _ :: _, _ :: _, h => ⟨hPQ _ _ _ h.1, sepChain_mono hPQ h.2⟩

/-- The children's sequences interleaved with the separators: `c₀ s₀ c₁ s₁ … cₙ`. -/
def weave : List (List α) → List α → List α
  | [], _ => []
  | c :: _, [] => c
  | c :: cs, s :: ss => c ++ s :: weave cs ss

@[simp] theorem weave_single (c : List α) : weave [c] [] = c := rfl

@[simp] theorem weave_cons_cons (c : List α) (cs : List (List α)) (s : α) (ss : List α) :
    weave (c :: cs) (s :: ss) = c ++ s :: weave cs ss := rfl

end Weave

/-! ## The list views of a node -/

namespace ZfsBtreeHdr

/-- The node's elements, `btc_elems[0 .. bth_count)`. -/
def elemList (n : ZfsBtreeHdr α) : List α := toList n.btElems n.bthCount

/-- The node's children, `btc_children[0 .. bth_count]`. -/
def childList (n : ZfsBtreeHdr α) : List NodeId := toList n.btcChildren (n.bthCount + 1)

@[simp] theorem length_elemList (n : ZfsBtreeHdr α) : n.elemList.length = n.bthCount := by
  simp [elemList]

@[simp] theorem length_childList (n : ZfsBtreeHdr α) : n.childList.length = n.bthCount + 1 := by
  simp [childList]

@[simp] theorem getElem_elemList (n : ZfsBtreeHdr α) (i : ℕ) (h : i < n.elemList.length) :
    n.elemList[i] = n.btElems i := by
  simp [elemList]

@[simp] theorem getElem_childList (n : ZfsBtreeHdr α) (i : ℕ) (h : i < n.childList.length) :
    n.childList[i] = n.btcChildren i := by
  simp [childList]

end ZfsBtreeHdr

/-! ## Subtrees -/

section Subtree

variable (cmp : α → α → ℤ) (S : α → Prop) (nodes : NodeId → ZfsBtreeHdr α)

/-- **A well-formed subtree**: node `x`, `d` levels above the leaves, with parent `p`, holding
elements strictly between `lo` and `hi`.  How many elements a node holds is not part of it. -/
def Sub : ℕ → NodeId → NodeId → Option α → Option α → Prop
  | 0, x, p, lo, hi =>
    x ≠ 0 ∧ (nodes x).bthParent = p ∧ (nodes x).bthCore = false ∧
      Inc cmp S lo (nodes x).elemList hi
  | d + 1, x, p, lo, hi =>
    x ≠ 0 ∧ (nodes x).bthParent = p ∧ (nodes x).bthCore = true ∧
      Inc cmp S lo (nodes x).elemList hi ∧
      SepChain (fun lo hi c => Sub d c x lo hi) lo (nodes x).elemList (nodes x).childList hi

/-- **The in-order sequence** of the subtree of `x`. -/
def inorder : ℕ → NodeId → List α
  | 0, x => (nodes x).elemList
  | d + 1, x => weave ((nodes x).childList.map (inorder d)) (nodes x).elemList

end Subtree

/-- **The sequence a tree stands for**: the in-order sequence from its root, empty for an empty
tree. -/
def ZfsBtree.seq (t : ZfsBtree α) : List α :=
  if t.btHeight = -1 then [] else inorder t.nodes t.btHeight.toNat t.btRoot

/-! ## What a well-formed subtree holds -/

section Holds

variable {cmp : α → α → ℤ} {S : α → Prop} {nodes : NodeId → ZfsBtreeHdr α}

/-- Weaving children that increase within their bounds gives a sequence increasing from `lo` to
`hi`. -/
theorem inc_weave {f : NodeId → List α} :
    ∀ {lo hi : Option α} {ss : List α} {cs : List NodeId}, (∀ s ∈ ss, S s) →
      SepChain (fun lo hi c => Inc cmp S lo (f c) hi) lo ss cs hi →
      Inc cmp S lo (weave (cs.map f) ss) hi
  | _, _, [], [_], _, h => h
  | _, _, [], [], _, h => h.elim
  | _, _, [], _ :: _ :: _, _, h => h.elim
  | _, _, _ :: _, [], _, h => h.elim
  | _, _, s :: ss, c :: cs, hS, h => by
    obtain ⟨h1, h2⟩ := h
    have hcs : cs ≠ [] := by
      intro hnil
      subst hnil
      cases ss <;> exact h2.elim
    obtain ⟨c', cs', rfl⟩ := List.exists_cons_of_ne_nil hcs
    simp only [List.map_cons, weave_cons_cons]
    rw [← List.map_cons, inc_append]
    exact ⟨h1, hS s (by simp), inc_weave (fun s' hs' => hS s' (by simp [hs'])) h2⟩

/-- **A well-formed subtree's in-order sequence increases strictly from `lo` to `hi`.** -/
theorem inc_inorder : ∀ {d : ℕ} {x p : NodeId} {lo hi : Option α},
    Sub cmp S nodes d x p lo hi → Inc cmp S lo (inorder nodes d x) hi
  | 0, _, _, _, _, h => h.2.2.2
  | d + 1, x, _, _, _, h => by
    obtain ⟨-, -, -, hinc, hchain⟩ := h
    have hS : ∀ s ∈ (nodes x).elemList, S s := by
      intro s hs
      obtain ⟨as, bs, hab⟩ := List.append_of_mem hs
      rw [hab] at hinc
      exact (inc_append.mp hinc).2.1
    exact inc_weave hS (sepChain_mono (fun lo hi c hc => inc_inorder hc) hchain)

end Holds

/-! ## Separator chains by index -/

section Index

variable {β : Type} {P : Option α → Option α → β → Prop}

/-- The bound before child `i`: `lo`, or the separator before the child. -/
def boundLo (lo : Option α) (ss : List α) (i : ℕ) : Option α := if i = 0 then lo else ss[i - 1]?

/-- The bound after child `i`: the separator after the child, or `hi`. -/
def boundHi (hi : Option α) (ss : List α) (i : ℕ) : Option α := ss[i]?.or hi

/-- **A separator chain, child by child.** -/
theorem sepChain_iff : ∀ {lo hi : Option α} {ss : List α} {cs : List β},
    SepChain P lo ss cs hi ↔ cs.length = ss.length + 1 ∧
      ∀ i (h : i < cs.length), P (boundLo lo ss i) (boundHi hi ss i) cs[i]
  | lo, hi, [], [c] => by
    simp [SepChain, boundLo, boundHi]
  | lo, hi, [], [] => by simp [SepChain]
  | lo, hi, [], _ :: _ :: _ => by simp [SepChain]
  | lo, hi, _ :: _, [] => by simp [SepChain]
  | lo, hi, s :: ss, c :: cs => by
    simp only [SepChain, List.length_cons, Nat.add_right_cancel_iff]
    rw [sepChain_iff]
    constructor
    · rintro ⟨h0, hlen, hrest⟩
      refine ⟨hlen, fun i hi => ?_⟩
      cases i with
      | zero => simpa [boundLo, boundHi] using h0
      | succ i =>
        have := hrest i (by simpa using hi)
        cases i <;> simpa [boundLo, boundHi] using this
    · rintro ⟨hlen, hall⟩
      refine ⟨by simpa [boundLo, boundHi] using hall 0 (by simp), hlen, fun i hi => ?_⟩
      have := hall (i + 1) (by simpa using hi)
      cases i <;> simpa [boundLo, boundHi] using this

end Index

/-! ## Places in a tree -/

/-- A place in a tree: a node `depth` levels above the leaves, its parent, and the bounds its
elements lie between. -/
structure BtPos (α : Type) where
  depth : ℕ
  node : NodeId
  parent : NodeId
  lo : Option α
  hi : Option α

section Reach

variable (nodes : NodeId → ZfsBtreeHdr α)

/-- The place of child `i` of the core node at place `P`. -/
def BtPos.child (P : BtPos α) (i : ℕ) : BtPos α :=
  ⟨P.depth - 1, (nodes P.node).btcChildren i, P.node, boundLo P.lo (nodes P.node).elemList i,
    boundHi P.hi (nodes P.node).elemList i⟩

/-- `Reach nodes P Q`: going down from place `P` through children arrives at place `Q`. -/
inductive Reach : BtPos α → BtPos α → Prop
  | refl (P : BtPos α) : Reach P P
  | child {P Q : BtPos α} (i : ℕ) : 0 < P.depth → i ≤ (nodes P.node).bthCount →
      Reach (P.child nodes i) Q → Reach P Q

variable {nodes} {cmp : α → α → ℤ} {S : α → Prop}

/-- `Sub` at a place. -/
def BtPos.Sub (P : BtPos α) (cmp : α → α → ℤ) (S : α → Prop)
    (nodes : NodeId → ZfsBtreeHdr α) : Prop :=
  Zfs.Sub cmp S nodes P.depth P.node P.parent P.lo P.hi

/-- A well-formed core node's child place is well-formed. -/
theorem BtPos.sub_child {P : BtPos α} {i : ℕ} (hd : 0 < P.depth)
    (hi : i ≤ (nodes P.node).bthCount) (h : P.Sub cmp S nodes) :
    (P.child nodes i).Sub cmp S nodes := by
  obtain ⟨_ | d, x, p, lo, hi'⟩ := P
  · cases hd
  obtain ⟨-, -, -, -, hchain⟩ := h
  obtain ⟨-, hall⟩ := sepChain_iff.mp hchain
  have := hall i (by simp at hi ⊢; omega)
  simpa [BtPos.Sub, BtPos.child, ZfsBtreeHdr.childList] using this

end Reach

end Zfs
