import Zfs.Lib.Slots
import Zfs.Lib.BinarySearch
import Zfs.Spl.Sysmacros

/-!
# Btree/Defs — the in-memory B-tree of `btree.c`

The tree is a heap of nodes.  A node is a `zfs_btree_hdr_t` together with the slots of the
`zfs_btree_core_t` or `zfs_btree_leaf_t` it heads; a slot keeps whatever was last written to it,
as `memmove` leaves it in a build without `ZFS_DEBUG` (no poisoning).  Pointers are node
numbers, `0` is `NULL`, and new nodes are numbered from the counter `nextId`.  An element is a
value of `α`; a pointer to a stored element is a node and a slot.

Every function is the C function of the same name.  A failed `VERIFY` is a panic, `none`; the
loops that follow pointers (up through `bth_parent`, down through `btc_children`) take fuel,
and running out of it is `none` too.  `ASSERT`s are debug-only and are not modelled.
-/

namespace Zfs

open Slots

/-- A pointer to a node; `0` is `NULL`. -/
abbrev NodeId := ℕ

/-- `BTREE_CORE_ELEMS`: the elements of a core node. -/
def btreeCoreElems : ℕ := 128

/-- `BTREE_LEAF_SIZE`: the bytes of a leaf, header included. -/
def btreeLeafSize : ℕ := 4096

/-- `sizeof (zfs_btree_hdr_t)`: a pointer, a `boolean_t` and a `uint32_t`. -/
def btreeHdrSize : ℕ := 16

/-- `zfs_btree_hdr_t` with the slots of its node: `btElems` is `btc_elems` or `btl_elems`,
`btcChildren` is `btc_children` (unused in a leaf). -/
structure ZfsBtreeHdr (α : Type) where
  bthParent : NodeId
  bthCore : Bool
  bthCount : ℕ
  btElems : ℕ → α
  btcChildren : ℕ → NodeId

/-- `zfs_btree_t`, with the heap of its nodes. -/
structure ZfsBtree (α : Type) where
  btRoot : NodeId
  btHeight : ℤ
  btElemSize : ℕ
  btNumElems : ℕ
  btNumNodes : ℕ
  btBulk : NodeId
  btCompar : α → α → ℤ
  nodes : NodeId → ZfsBtreeHdr α
  nextId : NodeId

/-- `zfs_btree_index_t`: a node, a slot, and whether the place is just before the slot. -/
structure ZfsBtreeIndex where
  btiNode : NodeId
  btiOffset : ℕ
  btiBefore : Bool
  deriving DecidableEq, Repr

/-- `enum bt_shift_shape`. -/
inductive BtShiftShape
  | trapezoid
  | parallelogram
  deriving DecidableEq, Repr

/-- `enum bt_shift_direction`. -/
inductive BtShiftDirection
  | left
  | right
  deriving DecidableEq, Repr

variable {α : Type} [Inhabited α]

/-- The contents of freshly allocated node memory. -/
def ZfsBtreeHdr.fresh (parent : NodeId) (core : Bool) (count : ℕ) : ZfsBtreeHdr α :=
  ⟨parent, core, count, fun _ => default, fun _ => 0⟩

namespace ZfsBtree

/-! ## Writing one field of one node -/

/-- Replace node `x`. -/
def setNode (t : ZfsBtree α) (x : NodeId) (n : ZfsBtreeHdr α) : ZfsBtree α :=
  { t with nodes := Function.update t.nodes x n }

/-- `x->bth_parent = p`. -/
def setParent (t : ZfsBtree α) (x p : NodeId) : ZfsBtree α :=
  t.setNode x { t.nodes x with bthParent := p }

/-- `x->bth_count = c`. -/
def setCount (t : ZfsBtree α) (x : NodeId) (c : ℕ) : ZfsBtree α :=
  t.setNode x { t.nodes x with bthCount := c }

/-- `bmov(v, x->btc_elems + i * size, size)`: write one element slot. -/
def setElem (t : ZfsBtree α) (x : NodeId) (i : ℕ) (v : α) : ZfsBtree α :=
  t.setNode x { t.nodes x with btElems := Function.update (t.nodes x).btElems i v }

/-- `x->btc_children[i] = c`. -/
def setChild (t : ZfsBtree α) (x : NodeId) (i : ℕ) (c : NodeId) : ZfsBtree α :=
  t.setNode x { t.nodes x with btcChildren := Function.update (t.nodes x).btcChildren i c }

/-- Allocate a node (`kmem_alloc` / `kmem_cache_alloc`) and count it in `bt_num_nodes`. -/
def allocNode (t : ZfsBtree α) (n : ZfsBtreeHdr α) : ZfsBtree α × NodeId :=
  ({ t with btNumNodes := t.btNumNodes + 1, nextId := t.nextId + 1 }.setNode t.nextId n,
    t.nextId)

/-- `P2ALIGN((BTREE_LEAF_SIZE - sizeof (zfs_btree_hdr_t)) / size, 2)`: the elements of a
leaf. -/
def leafCapacity (t : ZfsBtree α) : ℕ :=
  p2align ((btreeLeafSize - btreeHdrSize) / t.btElemSize) 2

end ZfsBtree

open ZfsBtree

/-- `zfs_btree_create`: an empty tree. -/
def zfsBtreeCreate (compar : α → α → ℤ) (size : ℕ) : ZfsBtree α :=
  ⟨0, -1, size, 0, 0, 0, compar, fun _ => ZfsBtreeHdr.fresh 0 false 0, 1⟩

/-- `zfs_btree_node_destroy`: the node leaves `bt_num_nodes`; freed memory is not touched. -/
def zfsBtreeNodeDestroy (t : ZfsBtree α) (_x : NodeId) : ZfsBtree α :=
  { t with btNumNodes := t.btNumNodes - 1 }

/-! ## Search -/

/-- `zfs_btree_find_in_buf`: binary search of the first `nelems` slots of `buf`; the slot found
with `btiBefore = false`, or the place it would go with `btiBefore = true`. -/
def zfsBtreeFindInBuf (t : ZfsBtree α) (buf : ℕ → α) (nelems : ℕ) (value : α) : ℕ × Bool :=
  BinarySearch.loop (fun i => t.btCompar (buf i) value) nelems 0 nelems

/-- The root-to-leaf descent of `zfs_btree_find` from node `x`, `d` levels above the leaves. -/
def zfsBtreeFindDescent (t : ZfsBtree α) (value : α) :
    ℕ → NodeId → Option (NodeId × ℕ) × ZfsBtreeIndex
  | 0, x =>
    let (off, before) := zfsBtreeFindInBuf t (t.nodes x).btElems (t.nodes x).bthCount value
    (if before then none else some (x, off), ⟨x, off, before⟩)
  | d + 1, x =>
    let (off, before) := zfsBtreeFindInBuf t (t.nodes x).btElems (t.nodes x).bthCount value
    if before then zfsBtreeFindDescent t value d ((t.nodes x).btcChildren off)
    else (some (x, off), ⟨x, off, false⟩)

/-- `zfs_btree_find`: the element comparing equal to `value`, and its place (`where`).  In
bulk-insert mode the last leaf is tried first. -/
def zfsBtreeFind (t : ZfsBtree α) (value : α) : Option (NodeId × ℕ) × ZfsBtreeIndex :=
  if t.btHeight = -1 then (none, ⟨0, 0, false⟩)
  else if t.btBulk ≠ 0 then
    let last := t.nodes t.btBulk
    let compar := t.btCompar (last.btElems (last.bthCount - 1)) value
    if compar < 0 then (none, ⟨t.btBulk, last.bthCount, true⟩)
    else if compar = 0 then
      (some (t.btBulk, last.bthCount - 1), ⟨t.btBulk, last.bthCount - 1, false⟩)
    else if t.btCompar (last.btElems 0) value ≤ 0 then
      let (off, before) := zfsBtreeFindInBuf t last.btElems last.bthCount value
      (if before then none else some (t.btBulk, off), ⟨t.btBulk, off, before⟩)
    else zfsBtreeFindDescent t value t.btHeight.toNat t.btRoot
  else zfsBtreeFindDescent t value t.btHeight.toNat t.btRoot

/-! ## Shifts and transfers -/

/-- `bt_shift_core`: move `count` elements from `idx`, and their children (one more for a
trapezoid, starting one later for a parallelogram), `off` slots left or right. -/
def btShiftCore (t : ZfsBtree α) (x : NodeId) (idx count off : ℕ) (shape : BtShiftShape)
    (dir : BtShiftDirection) : ZfsBtree α :=
  let n := t.nodes x
  let eOut := match dir with | .left => idx - off | .right => idx + off
  let cStart := match shape with | .trapezoid => idx | .parallelogram => idx + 1
  let cOut := match dir with | .left => cStart - off | .right => cStart + off
  let cCount := match shape with | .trapezoid => count + 1 | .parallelogram => count
  t.setNode x { n with
    btElems := move n.btElems idx n.btElems eOut count
    btcChildren := move n.btcChildren cStart n.btcChildren cOut cCount }

/-- `bt_shift_core_left`. -/
def btShiftCoreLeft (t : ZfsBtree α) (x : NodeId) (idx count : ℕ) (shape : BtShiftShape) :
    ZfsBtree α :=
  btShiftCore t x idx count 1 shape .left

/-- `bt_shift_core_right`. -/
def btShiftCoreRight (t : ZfsBtree α) (x : NodeId) (idx count : ℕ) (shape : BtShiftShape) :
    ZfsBtree α :=
  btShiftCore t x idx count 1 shape .right

/-- `bt_shift_leaf`. -/
def btShiftLeaf (t : ZfsBtree α) (x : NodeId) (idx count off : ℕ) (dir : BtShiftDirection) :
    ZfsBtree α :=
  let n := t.nodes x
  let out := match dir with | .left => idx - off | .right => idx + off
  t.setNode x { n with btElems := move n.btElems idx n.btElems out count }

/-- `bt_shift_leaf_right`. -/
def btShiftLeafRight (t : ZfsBtree α) (x : NodeId) (idx count : ℕ) : ZfsBtree α :=
  btShiftLeaf t x idx count 1 .right

/-- `bt_shift_leaf_left`. -/
def btShiftLeafLeft (t : ZfsBtree α) (x : NodeId) (idx count : ℕ) : ZfsBtree α :=
  btShiftLeaf t x idx count 1 .left

/-- `bt_transfer_core`: `count` elements from slot `sidx` of `src` to slot `didx` of `dst`, with
their children as in a shift of the same shape. -/
def btTransferCore (t : ZfsBtree α) (src : NodeId) (sidx count : ℕ) (dst : NodeId) (didx : ℕ)
    (shape : BtShiftShape) : ZfsBtree α :=
  let s := t.nodes src
  let d := t.nodes dst
  let cOff := match shape with | .trapezoid => 0 | .parallelogram => 1
  let cCount := match shape with | .trapezoid => count + 1 | .parallelogram => count
  t.setNode dst { d with
    btElems := move s.btElems sidx d.btElems didx count
    btcChildren := move s.btcChildren (sidx + cOff) d.btcChildren (didx + cOff) cCount }

/-- `bt_transfer_leaf`. -/
def btTransferLeaf (t : ZfsBtree α) (src : NodeId) (sidx count : ℕ) (dst : NodeId) (didx : ℕ) :
    ZfsBtree α :=
  let s := t.nodes src
  let d := t.nodes dst
  t.setNode dst { d with btElems := move s.btElems sidx d.btElems didx count }

/-! ## Insertion -/

/-- `bth_parent = np` for children `0 .. count` of `np` (the loop after a split). -/
def reparentChildren (t : ZfsBtree α) (np : NodeId) (count : ℕ) : ZfsBtree α :=
  (List.range (count + 1)).foldl (fun t i => t.setParent ((t.nodes np).btcChildren i) np) t

/-- `zfs_btree_insert_core_impl`: put `buf` at element slot `offset` of `parent` and `newNode`
at child slot `offset + 1`, shifting what follows. -/
def zfsBtreeInsertCoreImpl (t : ZfsBtree α) (parent : NodeId) (offset : ℕ) (newNode : NodeId)
    (buf : α) : ZfsBtree α :=
  let count := (t.nodes parent).bthCount - offset
  let t := btShiftCoreRight t parent offset count .parallelogram
  let t := t.setChild parent (offset + 1) newNode
  let t := t.setElem parent offset buf
  t.setCount parent ((t.nodes parent).bthCount + 1)

/-- The split of a full core node in `zfs_btree_insert_into_parent`: the node keeps
`keepCount` elements, `np` receives `moveCount`, and `newNode` with its separator goes to the
left half, the right half, or (as the right half's first child) the middle.  Returns the tree
and the separator left for the parent. -/
def zfsBtreeSplitCore (t : ZfsBtree α) (parent np : NodeId) (offset keepCount moveCount : ℕ)
    (newNode : NodeId) (buf : α) : ZfsBtree α × α :=
  let t := btTransferCore t parent (keepCount + 1) moveCount np 0 .trapezoid
  let tmp := (t.nodes parent).btElems keepCount
  if offset < keepCount then (zfsBtreeInsertCoreImpl t parent offset newNode buf, tmp)
  else if offset > keepCount then
    let t := t.setParent newNode np
    (zfsBtreeInsertCoreImpl t np (offset - keepCount - 1) newNode buf, tmp)
  else
    let t := btShiftCoreRight t np 0 moveCount .trapezoid
    let t := t.setChild np 0 newNode
    let t := t.setElem np 0 tmp
    (t.setCount np ((t.nodes np).bthCount + 1), buf)

/-- `zfs_btree_insert_into_parent`: insert `newNode` after `oldNode` in their parent, with `buf`
between them; a full parent is split and the split goes on upwards. -/
def zfsBtreeInsertIntoParent (t : ZfsBtree α) : ℕ → NodeId → NodeId → α → Option (ZfsBtree α)
  | 0, _, _, _ => none
  | fuel + 1, oldNode, newNode, buf =>
    let parent := (t.nodes oldNode).bthParent
    if parent = 0 then
      -- a new root above the two halves
      let (t, r) := t.allocNode ⟨0, true, 1, Function.update (fun _ => default) 0 buf,
        fun i => if i = 0 then oldNode else if i = 1 then newNode else 0⟩
      let t := (t.setParent oldNode r).setParent newNode r
      some { t with btHeight := t.btHeight + 1, btRoot := r }
    else
      let p := t.nodes parent
      let (offset, before) := zfsBtreeFindInBuf t p.btElems p.bthCount buf
      if !before then none
      else if p.bthCount ≠ btreeCoreElems then
        some (zfsBtreeInsertCoreImpl t parent offset newNode buf)
      else
        let moveCount := max (btreeCoreElems / (if t.btBulk = 0 then 2 else 4) - 1) 2
        let keepCount := btreeCoreElems - moveCount - 1
        let (t, np) := t.allocNode (ZfsBtreeHdr.fresh p.bthParent true moveCount)
        let t := t.setCount parent keepCount
        let (t, buf) := zfsBtreeSplitCore t parent np offset keepCount moveCount newNode buf
        let t := reparentChildren t np (t.nodes np).bthCount
        zfsBtreeInsertIntoParent t fuel parent np buf

/-- `zfs_btree_insert_leaf_impl`: put `value` at slot `idx` of a leaf that has room. -/
def zfsBtreeInsertLeafImpl (t : ZfsBtree α) (leaf : NodeId) (idx : ℕ) (value : α) :
    ZfsBtree α :=
  let count := (t.nodes leaf).bthCount - idx
  let t := btShiftLeafRight t leaf idx count
  let t := t.setElem leaf idx value
  t.setCount leaf ((t.nodes leaf).bthCount + 1)

/-- The split of a full leaf in `zfs_btree_insert_into_leaf`; returns the tree and the
separator for the parent. -/
def zfsBtreeSplitLeaf (t : ZfsBtree α) (leaf nl : NodeId) (idx keepCount moveCount : ℕ)
    (value : α) : ZfsBtree α × α :=
  let t := btTransferLeaf t leaf (keepCount + 1) moveCount nl 0
  let buf := (t.nodes leaf).btElems keepCount
  if idx < keepCount then (zfsBtreeInsertLeafImpl t leaf idx value, buf)
  else if idx > keepCount then (zfsBtreeInsertLeafImpl t nl (idx - keepCount - 1) value, buf)
  else
    let t := btShiftLeafRight t nl 0 moveCount
    let t := t.setElem nl 0 buf
    (t.setCount nl ((t.nodes nl).bthCount + 1), value)

/-- `zfs_btree_insert_into_leaf`: insert `value` at slot `idx` of `leaf`, splitting a full leaf
(a quarter moves out in bulk-insert mode, half otherwise). -/
def zfsBtreeInsertIntoLeaf (t : ZfsBtree α) (leaf : NodeId) (value : α) (idx : ℕ) :
    Option (ZfsBtree α) :=
  let capacity := t.leafCapacity
  if (t.nodes leaf).bthCount ≠ capacity then some (zfsBtreeInsertLeafImpl t leaf idx value)
  else
    let moveCount := max (capacity / (if t.btBulk = 0 then 2 else 4) - 1) 2
    let keepCount := capacity - moveCount - 1
    let (t, nl) := t.allocNode (ZfsBtreeHdr.fresh (t.nodes leaf).bthParent false moveCount)
    let t := t.setCount leaf keepCount
    let t := if t.btBulk ≠ 0 ∧ leaf = t.btBulk then { t with btBulk := nl } else t
    let (t, buf) := zfsBtreeSplitLeaf t leaf nl idx keepCount moveCount value
    zfsBtreeInsertIntoParent t (t.btHeight.toNat + 1) leaf nl buf

/-! ## Walking the tree -/

/-- The loop of `zfs_btree_first_helper`: follow `btc_children[0]` down to a leaf. -/
def zfsBtreeFirstHelper (t : ZfsBtree α) : ℕ → NodeId → Option NodeId
  | 0, _ => none
  | fuel + 1, x =>
    if (t.nodes x).bthCore then zfsBtreeFirstHelper t fuel ((t.nodes x).btcChildren 0) else some x

/-- The loop of `zfs_btree_last_helper`: follow `btc_children[bth_count]` down to a leaf. -/
def zfsBtreeLastHelper (t : ZfsBtree α) : ℕ → NodeId → Option NodeId
  | 0, _ => none
  | fuel + 1, x =>
    if (t.nodes x).bthCore then
      zfsBtreeLastHelper t fuel ((t.nodes x).btcChildren (t.nodes x).bthCount)
    else some x

/-- The fuel of a walk between the root and a leaf. -/
def ZfsBtree.depthFuel (t : ZfsBtree α) : ℕ := t.btHeight.toNat + 1

/-- `zfs_btree_first`: the place of the first element. -/
def zfsBtreeFirst (t : ZfsBtree α) : Option (Option ZfsBtreeIndex) :=
  if t.btHeight = -1 then some none
  else (zfsBtreeFirstHelper t t.depthFuel t.btRoot).map fun leaf => some ⟨leaf, 0, false⟩

/-- `zfs_btree_last`: the place of the last element. -/
def zfsBtreeLast (t : ZfsBtree α) : Option (Option ZfsBtreeIndex) :=
  if t.btHeight = -1 then some none
  else (zfsBtreeLastHelper t t.depthFuel t.btRoot).map fun leaf =>
    some ⟨leaf, (t.nodes leaf).bthCount - 1, false⟩

/-- `zfs_btree_find_parent_idx`: the child slot of `hdr` in its parent, found by searching the
parent's elements for the first element of `hdr`. -/
def zfsBtreeFindParentIdx (t : ZfsBtree α) (hdr : NodeId) : Option ℕ :=
  let p := t.nodes (t.nodes hdr).bthParent
  let (off, before) := zfsBtreeFindInBuf t p.btElems p.bthCount ((t.nodes hdr).btElems 0)
  if before then some off else none

/-- The upward loop of `zfs_btree_next_helper`: climb from `prev` to `node` until `prev` is not
the last child; the separator after it is next. -/
def zfsBtreeNextUp (t : ZfsBtree α) : ℕ → NodeId → NodeId → Option (Option ZfsBtreeIndex)
  | 0, _, _ => none
  | fuel + 1, prev, node =>
    if node = 0 then some none
    else do
      let i ← zfsBtreeFindParentIdx t prev
      if i = (t.nodes node).bthCount then zfsBtreeNextUp t fuel node (t.nodes node).bthParent
      else some (some ⟨node, i, false⟩)

/-- `zfs_btree_next`: the place of the element after `idx` (`some none` is `NULL`).  Called, as
everywhere in this code base, with `out_idx` the same as `idx`. -/
def zfsBtreeNext (t : ZfsBtree α) (idx : ZfsBtreeIndex) : Option (Option ZfsBtreeIndex) :=
  if idx.btiNode = 0 then some none
  else
    let n := t.nodes idx.btiNode
    if !n.bthCore then
      let newOff := idx.btiOffset + (if idx.btiBefore then 0 else 1)
      if n.bthCount > newOff then some (some ⟨idx.btiNode, newOff, false⟩)
      else zfsBtreeNextUp t t.depthFuel idx.btiNode n.bthParent
    else if idx.btiBefore then some (some ⟨idx.btiNode, idx.btiOffset, false⟩)
    else (zfsBtreeFirstHelper t t.depthFuel (n.btcChildren (idx.btiOffset + 1))).map
      fun leaf => some ⟨leaf, 0, false⟩

/-- The upward loop of `zfs_btree_prev`: climb until `prev` is not the first child; the
separator before it is previous. -/
def zfsBtreePrevUp (t : ZfsBtree α) : ℕ → NodeId → NodeId → Option (Option ZfsBtreeIndex)
  | 0, _, _ => none
  | fuel + 1, prev, node =>
    if node = 0 then some none
    else do
      let i ← zfsBtreeFindParentIdx t prev
      if i = 0 then zfsBtreePrevUp t fuel node (t.nodes node).bthParent
      else some (some ⟨node, i - 1, false⟩)

/-- `zfs_btree_prev`: the place of the element before `idx`. -/
def zfsBtreePrev (t : ZfsBtree α) (idx : ZfsBtreeIndex) : Option (Option ZfsBtreeIndex) :=
  if idx.btiNode = 0 then some none
  else
    let n := t.nodes idx.btiNode
    if !n.bthCore then
      if idx.btiOffset ≠ 0 then some (some ⟨idx.btiNode, idx.btiOffset - 1, false⟩)
      else zfsBtreePrevUp t t.depthFuel idx.btiNode n.bthParent
    else (zfsBtreeLastHelper t t.depthFuel (n.btcChildren idx.btiOffset)).map fun leaf =>
      some ⟨leaf, (t.nodes leaf).bthCount - 1, false⟩

/-- `zfs_btree_get`: the element at a place. -/
def zfsBtreeGet (t : ZfsBtree α) (idx : ZfsBtreeIndex) : α :=
  (t.nodes idx.btiNode).btElems idx.btiOffset

/-! ## Leaving bulk-insert mode -/

/-- The leaf step of `zfs_btree_bulk_finish`: fill the last leaf to half its capacity from its
left neighbour `l`, through the separator at `commonIdx` of their common ancestor. -/
def zfsBtreeBulkFinishLeaf (t : ZfsBtree α) (leaf common : NodeId) (commonIdx : ℕ)
    (l : NodeId) : ZfsBtree α :=
  let capacity := t.leafCapacity
  let count := (t.nodes leaf).bthCount
  let moveCount := capacity / 2 - count
  let t := btShiftLeaf t leaf 0 count moveCount .right
  let t := t.setElem leaf (moveCount - 1) ((t.nodes common).btElems commonIdx)
  let moveCount := moveCount - 1
  let lc := (t.nodes l).bthCount
  let t := btTransferLeaf t l (lc - moveCount) moveCount leaf 0
  let t := t.setElem common commonIdx ((t.nodes l).btElems (lc - moveCount - 1))
  let t := t.setCount l (lc - (moveCount + 1))
  t.setCount leaf ((t.nodes leaf).bthCount + (moveCount + 1))

/-- One turn of the core loop of `zfs_btree_bulk_finish`: fill `cur` to half capacity from its
left sibling, the child before it in `parent`. -/
def zfsBtreeBulkFinishCore (t : ZfsBtree α) (cur parent : NodeId) (parentIdx : ℕ) :
    ZfsBtree α :=
  let count := (t.nodes cur).bthCount
  let l := (t.nodes parent).btcChildren (parentIdx - 1)
  let moveCount := btreeCoreElems / 2 - count
  let t := btShiftCore t cur 0 count moveCount .trapezoid .right
  let t := t.setElem cur (moveCount - 1) ((t.nodes parent).btElems (parentIdx - 1))
  let moveCount := moveCount - 1
  let moveIdx := (t.nodes l).bthCount - moveCount
  let t := btTransferCore t l moveIdx moveCount cur 0 .trapezoid
  let t := t.setElem parent (parentIdx - 1) ((t.nodes l).btElems (moveIdx - 1))
  let t := t.setCount l ((t.nodes l).bthCount - (moveCount + 1))
  let t := t.setCount cur ((t.nodes cur).bthCount + (moveCount + 1))
  reparentChildren t cur (t.nodes cur).bthCount

/-- The core loop of `zfs_btree_bulk_finish`, from the last leaf's parent up to the root. -/
def zfsBtreeBulkFinishLoop (t : ZfsBtree α) : ℕ → NodeId → Option (ZfsBtree α)
  | 0, _ => none
  | fuel + 1, parent =>
    if (t.nodes parent).bthParent = 0 then some t
    else
      let cur := parent
      let parent := (t.nodes cur).bthParent
      if (t.nodes cur).bthCount ≥ btreeCoreElems / 2 then zfsBtreeBulkFinishLoop t fuel parent
      else do
        let parentIdx ← zfsBtreeFindParentIdx t cur
        zfsBtreeBulkFinishLoop (zfsBtreeBulkFinishCore t cur parent parentIdx) fuel parent

/-- `zfs_btree_bulk_finish`: take the tree out of bulk-insert mode, refilling the last leaf and
its ancestors that are below half full. -/
def zfsBtreeBulkFinish (t : ZfsBtree α) : Option (ZfsBtree α) :=
  let leaf := t.btBulk
  let parent := (t.nodes leaf).bthParent
  if parent = 0 then some { t with btBulk := 0 }
  else do
    let t ← if (t.nodes leaf).bthCount < t.leafCapacity / 2 then do
        let idx ← (← zfsBtreePrev t ⟨leaf, 0, false⟩)
        let idx2 ← (← zfsBtreePrev t idx)
        pure (zfsBtreeBulkFinishLeaf t leaf idx.btiNode idx.btiOffset idx2.btiNode)
      else pure t
    let t ← zfsBtreeBulkFinishLoop t t.depthFuel parent
    pure { t with btBulk := 0 }

/-! ## Adding -/

/-- `zfs_btree_add_idx`: insert `value` at the place `where`.  Outside the last leaf, bulk-insert
mode ends first and the place is searched again. -/
def zfsBtreeAddIdx (t : ZfsBtree α) (value : α) (where_ : ZfsBtreeIndex) :
    Option (ZfsBtree α) := do
  let (t, where_) ← if t.btBulk ≠ 0 ∧ where_.btiNode ≠ t.btBulk then do
      let t ← zfsBtreeBulkFinish t
      let (found, idx) := zfsBtreeFind t value
      if found.isSome then none else pure (t, idx)
    else pure (t, where_)
  let t := { t with btNumElems := t.btNumElems + 1 }
  if where_.btiNode = 0 then
    -- the first element: a leaf root, and bulk-insert mode begins
    let (t, leaf) := t.allocNode (ZfsBtreeHdr.fresh 0 false 0)
    let t := { t with btRoot := leaf, btHeight := t.btHeight + 1 }
    let t ← zfsBtreeInsertIntoLeaf t leaf value 0
    pure { t with btBulk := leaf }
  else if !(t.nodes where_.btiNode).bthCore then
    zfsBtreeInsertIntoLeaf t where_.btiNode value where_.btiOffset
  else
    -- `value` takes the separator's slot; the separator moves to the first leaf on its right
    let node := where_.btiNode
    let off := where_.btiOffset
    let subtree := (t.nodes node).btcChildren (off + 1)
    let buf := (t.nodes node).btElems off
    let t := t.setElem node off value
    let leaf ← zfsBtreeFirstHelper t t.depthFuel subtree
    zfsBtreeInsertIntoLeaf t leaf buf 0

/-- `zfs_btree_add`: add a value that is not in the tree. -/
def zfsBtreeAdd (t : ZfsBtree α) (value : α) : Option (ZfsBtree α) :=
  let (found, where_) := zfsBtreeFind t value
  if found.isSome then none else zfsBtreeAddIdx t value where_

/-! ## Removing -/

/-- The first child slot of `node` holding `rm`, or `bth_count + 1`. -/
def findChildIdx (t : ZfsBtree α) (node rm : NodeId) : ℕ :=
  (List.range ((t.nodes node).bthCount + 1)).findIdx fun i => (t.nodes node).btcChildren i = rm

/-- The neighbours of child `parentIdx` of `parent`: the child before and the child after it
(`0` where there is none). -/
def neighbours (t : ZfsBtree α) (parent : NodeId) (parentIdx : ℕ) : NodeId × NodeId :=
  (if parentIdx = 0 then 0 else (t.nodes parent).btcChildren (parentIdx - 1),
    if parentIdx = (t.nodes parent).bthCount then 0
    else (t.nodes parent).btcChildren (parentIdx + 1))

/-- The merge in `zfs_btree_remove_from_node`: the separator and all of `rm` move to the end of
`keep`, then child slot `newIdx` of `keep` and the separator before it are dropped.  `rm` is
freed. -/
def zfsBtreeMergeCore (t : ZfsBtree α) (parent : NodeId) (parentIdx : ℕ) (keep rm : NodeId)
    (newIdx : ℕ) : ZfsBtree α :=
  let kc := (t.nodes keep).bthCount
  let t := t.setElem keep kc ((t.nodes parent).btElems (parentIdx - 1))
  let t := t.setCount keep (kc + 1)
  let rc := (t.nodes rm).bthCount
  let t := btTransferCore t rm 0 rc keep (kc + 1) .trapezoid
  let oldCount := kc + 1
  let t := t.setCount keep (oldCount + rc)
  let t := btShiftCoreLeft t keep newIdx (oldCount + rc - newIdx) .parallelogram
  let t := t.setCount keep (oldCount + rc - 1)
  let t := (List.range (rc + 1)).foldl
    (fun t i => t.setParent ((t.nodes keep).btcChildren (oldCount - 1 + i)) keep) t
  zfsBtreeNodeDestroy (t.setCount rm 0) rm

/-- `zfs_btree_remove_from_node`: remove child `rmHdr` of the core `node`, with the separator
before it.  A node left below the minimum takes from its left or right sibling, or merges with
one and removes the emptied node from the parent in turn. -/
def zfsBtreeRemoveFromNode (t : ZfsBtree α) : ℕ → NodeId → NodeId → Option (ZfsBtree α)
  | 0, _, _ => none
  | fuel + 1, node, rmHdr =>
    let minCount := btreeCoreElems / 2 - 1
    let hdr := t.nodes node
    if hdr.bthParent = 0 ∧ hdr.bthCount ≤ 1 then
      -- the root keeps one child: it becomes the root
      let c0 := hdr.btcChildren 0
      let t := { t with btRoot := c0 }.setParent c0 0
      let t := zfsBtreeNodeDestroy t node
      some { t with btHeight := t.btHeight - 1 }
    else
      let idx := findChildIdx t node rmHdr
      if hdr.bthParent = 0 ∨ hdr.bthCount > minCount then
        let t := btShiftCoreLeft t node idx (hdr.bthCount - idx) .parallelogram
        some (t.setCount node (hdr.bthCount - 1))
      else do
        let parent := hdr.bthParent
        let parentIdx ← zfsBtreeFindParentIdx t node
        let (lHdr, rHdr) := neighbours t parent parentIdx
        if lHdr ≠ 0 ∧ (t.nodes lHdr).bthCount > minCount then
          -- take the last child of the left neighbour
          let t := btShiftCoreRight t node 0 (idx - 1) .trapezoid
          let t := t.setElem node 0 ((t.nodes parent).btElems (parentIdx - 1))
          let lc := (t.nodes lHdr).bthCount
          let t := t.setChild node 0 ((t.nodes lHdr).btcChildren lc)
          let t := t.setParent ((t.nodes node).btcChildren 0) node
          let t := t.setElem parent (parentIdx - 1) ((t.nodes lHdr).btElems (lc - 1))
          some (t.setCount lHdr (lc - 1))
        else if rHdr ≠ 0 ∧ (t.nodes rHdr).bthCount > minCount then
          -- take the first child of the right neighbour
          let t := btShiftCoreLeft t node idx (hdr.bthCount - idx) .parallelogram
          let t := t.setElem node (hdr.bthCount - 1) ((t.nodes parent).btElems parentIdx)
          let t := t.setChild node hdr.bthCount ((t.nodes rHdr).btcChildren 0)
          let t := t.setParent ((t.nodes node).btcChildren hdr.bthCount) node
          let t := t.setElem parent parentIdx ((t.nodes rHdr).btElems 0)
          let t := t.setCount rHdr ((t.nodes rHdr).bthCount - 1)
          some (btShiftCoreLeft t rHdr 1 (t.nodes rHdr).bthCount .trapezoid)
        else
          let (keep, rm, newIdx, parentIdx) :=
            if lHdr ≠ 0 then (lHdr, node, idx + (t.nodes lHdr).bthCount + 1, parentIdx)
            else (node, rHdr, idx, parentIdx + 1)
          let t := zfsBtreeMergeCore t parent parentIdx keep rm newIdx
          zfsBtreeRemoveFromNode t fuel parent rm

/-- The merge in `zfs_btree_remove_idx`: the separator and all of `rm` move to the end of the
leaf `keep`, then the element at `newIdx` is dropped.  `rm` is freed. -/
def zfsBtreeMergeLeaf (t : ZfsBtree α) (parent : NodeId) (parentIdx : ℕ) (keep rm : NodeId)
    (newIdx : ℕ) : ZfsBtree α :=
  let kc := (t.nodes keep).bthCount
  let t := t.setElem keep kc ((t.nodes parent).btElems (parentIdx - 1))
  let t := t.setCount keep (kc + 1)
  let rc := (t.nodes rm).bthCount
  let t := btTransferLeaf t rm 0 rc keep (kc + 1)
  let t := t.setCount keep (kc + 1 + rc - 1)
  let t := btShiftLeafLeft t keep (newIdx + 1) (kc + rc - newIdx)
  zfsBtreeNodeDestroy (t.setCount rm 0) rm

/-- The leaf part of `zfs_btree_remove_idx`: remove slot `idx` of `leaf`, then refill a leaf
left below the minimum from a sibling, or merge it with one. -/
def zfsBtreeRemoveFromLeaf (t : ZfsBtree α) (leaf : NodeId) (idx : ℕ) : Option (ZfsBtree α) :=
  let capacity := t.leafCapacity
  let hdr := t.nodes leaf
  let minCount := capacity / 2 - 1
  if hdr.bthCount > minCount ∨ hdr.bthParent = 0 then
    let t := t.setCount leaf (hdr.bthCount - 1)
    let t := btShiftLeafLeft t leaf (idx + 1) (hdr.bthCount - 1 - idx)
    if hdr.bthParent = 0 ∧ hdr.bthCount - 1 = 0 then
      some (zfsBtreeNodeDestroy { t with btRoot := 0, btHeight := t.btHeight - 1 } leaf)
    else some t
  else do
    let parent := hdr.bthParent
    let parentIdx ← zfsBtreeFindParentIdx t leaf
    let (lHdr, rHdr) := neighbours t parent parentIdx
    if lHdr ≠ 0 ∧ (t.nodes lHdr).bthCount > minCount then
      -- take the last element of the left neighbour
      let t := btShiftLeafRight t leaf 0 idx
      let lc := (t.nodes lHdr).bthCount
      let t := t.setElem leaf 0 ((t.nodes parent).btElems (parentIdx - 1))
      let t := t.setElem parent (parentIdx - 1) ((t.nodes lHdr).btElems (lc - 1))
      some (t.setCount lHdr (lc - 1))
    else if rHdr ≠ 0 ∧ (t.nodes rHdr).bthCount > minCount then
      -- take the first element of the right neighbour
      let t := btShiftLeafLeft t leaf (idx + 1) (hdr.bthCount - idx - 1)
      let t := t.setElem leaf (hdr.bthCount - 1) ((t.nodes parent).btElems parentIdx)
      let t := t.setElem parent parentIdx ((t.nodes rHdr).btElems 0)
      let t := t.setCount rHdr ((t.nodes rHdr).bthCount - 1)
      some (btShiftLeafLeft t rHdr 1 (t.nodes rHdr).bthCount)
    else
      let (keep, rm, newIdx, parentIdx) :=
        if lHdr ≠ 0 then (lHdr, leaf, idx + (t.nodes lHdr).bthCount + 1, parentIdx)
        else (leaf, rHdr, idx, parentIdx + 1)
      let t := zfsBtreeMergeLeaf t parent parentIdx keep rm newIdx
      zfsBtreeRemoveFromNode t t.depthFuel parent rm

/-- `zfs_btree_remove_idx`: remove the element at `where`.  Bulk-insert mode ends first and the
element is searched again; an element of a core node is replaced by its predecessor, which is
then removed from its leaf. -/
def zfsBtreeRemoveIdx (t : ZfsBtree α) (where_ : ZfsBtreeIndex) : Option (ZfsBtree α) := do
  let (t, hdr, idx) ← if t.btBulk ≠ 0 then do
      let value := zfsBtreeGet t where_
      let t ← zfsBtreeBulkFinish t
      let (found, w) := zfsBtreeFind t value
      if found.isNone then none else pure (t, w.btiNode, w.btiOffset)
    else pure (t, where_.btiNode, where_.btiOffset)
  let t := { t with btNumElems := t.btNumElems - 1 }
  if (t.nodes hdr).bthCore then do
    let leaf ← zfsBtreeLastHelper t t.depthFuel ((t.nodes hdr).btcChildren idx)
    let last := (t.nodes leaf).bthCount - 1
    let t := t.setElem hdr idx ((t.nodes leaf).btElems last)
    zfsBtreeRemoveFromLeaf t leaf last
  else zfsBtreeRemoveFromLeaf t hdr idx

/-- `zfs_btree_remove`: remove the element comparing equal to `value`, which must be there. -/
def zfsBtreeRemove (t : ZfsBtree α) (value : α) : Option (ZfsBtree α) :=
  let (found, where_) := zfsBtreeFind t value
  if found.isNone then none else zfsBtreeRemoveIdx t where_

/-- `zfs_btree_clear`: drop every node (freeing them leaves their memory as it is). -/
def zfsBtreeClear (t : ZfsBtree α) : ZfsBtree α :=
  if t.btRoot = 0 then t
  else { t with btNumElems := 0, btRoot := 0, btNumNodes := 0, btHeight := -1, btBulk := 0 }

end Zfs
