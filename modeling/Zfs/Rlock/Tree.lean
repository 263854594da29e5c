import Mathlib.Data.List.Sort
import Mathlib.Data.UInt

/-!
# Rlock/Tree — the range locks of `zfs_rlock.c`

A file's range locks are the `locked_range_t`s of `rl_tree`, an AVL tree ordered by
`lr_offset`.  A writer lock is an entry of its own.  A reader lock is an entry of its own
(`lr_count` 1) until another reader overlaps it; `zfs_rangelock_add_reader` then replaces it by a
*proxy* of the same range, sets its own `lr_count` to 0, splits proxies at both ends of the new
range, fills the gaps between them with new proxies and bumps the count of every proxy inside.
`zfs_rangelock_exit_reader` walks the proxies from the handle's offset, subtracting their lengths
from the handle's until nothing is left.

The tree is the list of its entries in offset order; an entry is known by its address, `lrId`,
and `nextId` is the address the next `kmem_alloc` returns.  `rlHandles` are the locks that
`zfs_rangelock_enter` has returned and `zfs_rangelock_exit` has not yet released, as their holders
see them.  The lock is taken atomically: an enter that would `cv_wait` is `none`, so the
`lr_write_wanted` and `lr_read_wanted` flags, which only make others wait, are left out; `rl_cb`
is the range it returns.  The arithmetic is `uint64_t`.
-/

namespace Zfs

/-- `rangelock_type_t`. -/
inductive RangelockType
  | reader
  | writer
  | append
  deriving DecidableEq, Repr

/-- `locked_range_t`, without its condition variables and wait flags. -/
structure LockedRange where
  lrId : ℕ
  lrOffset : UInt64
  lrLength : UInt64
  lrCount : ℕ
  lrType : RangelockType
  lrProxy : Bool
  deriving DecidableEq, Repr

/-- The end of an entry's range, `lr_offset + lr_length` as the code computes it. -/
def LockedRange.lrEnd (lr : LockedRange) : UInt64 := lr.lrOffset + lr.lrLength

/-- `rangelock_t`: `rl_tree`, with the handles held and the next address. -/
structure Rangelock where
  rlTree : List LockedRange
  rlHandles : List LockedRange
  nextId : ℕ
  deriving DecidableEq, Repr

/-- `zfs_rangelock_init`: an empty tree. -/
def zfsRangelockInit : Rangelock := ⟨[], [], 0⟩

/-! ## The AVL tree as a list in offset order -/

/-- `avl_find(tree, lr)`: the entry at that offset. -/
def avlFind (t : List LockedRange) (off : UInt64) : Option LockedRange :=
  t.find? (·.lrOffset == off)

/-- `avl_nearest(tree, where, AVL_BEFORE)` for a search of `off` that found nothing. -/
def avlNearestBefore (t : List LockedRange) (off : UInt64) : Option LockedRange :=
  (t.filter (·.lrOffset < off)).getLast?

/-- `avl_nearest(tree, where, AVL_AFTER)` for a search of `off`. -/
def avlNearestAfter (t : List LockedRange) (off : UInt64) : Option LockedRange :=
  t.find? (off < ·.lrOffset)

/-- The entries after offset `off`, in order: `AVL_NEXT` from the entry at `off` on. -/
def avlAfter (t : List LockedRange) (off : UInt64) : List LockedRange :=
  t.filter (off < ·.lrOffset)

/-- `avl_add(tree, lr)` and `avl_insert(tree, lr, where)`: in offset order. -/
def avlAdd (t : List LockedRange) (lr : LockedRange) : List LockedRange :=
  t.orderedInsert (fun a b => a.lrOffset ≤ b.lrOffset) lr

/-- `avl_remove(tree, lr)`. -/
def avlRemove (t : List LockedRange) (id : ℕ) : List LockedRange :=
  t.filter (·.lrId != id)

/-- A store to the fields of the entry at `lr.lrId`. -/
def setEntry (t : List LockedRange) (lr : LockedRange) : List LockedRange :=
  t.map fun e => if e.lrId = lr.lrId then lr else e

/-! ## Readers -/

/-- `zfs_rangelock_proxify(tree, lr)`: an original lock is replaced in the tree by a proxy of
its range, and its own `lr_count` becomes 0; a proxy is left as it is.  The proxy is returned. -/
def zfsRangelockProxify (s : Rangelock) (lr : LockedRange) : Rangelock × LockedRange :=
  if lr.lrProxy then (s, lr)
  else
    let proxy : LockedRange := ⟨s.nextId, lr.lrOffset, lr.lrLength, 1, .reader, true⟩
    ({ rlTree := avlAdd (avlRemove s.rlTree lr.lrId) proxy
       rlHandles := s.rlHandles.map fun h => if h.lrId = lr.lrId then { h with lrCount := 0 } else h
       nextId := s.nextId + 1 }, proxy)

/-- `zfs_rangelock_split(tree, lr, off)`: a rear proxy from `off` with `lr`'s count, and `lr`,
made a proxy, cut short at `off`.  The front is returned. -/
def zfsRangelockSplit (s : Rangelock) (lr : LockedRange) (off : UInt64) :
    Rangelock × LockedRange :=
  let rear : LockedRange :=
    ⟨s.nextId, off, lr.lrOffset + lr.lrLength - off, lr.lrCount, .reader, true⟩
  let (s, front) := zfsRangelockProxify { s with nextId := s.nextId + 1 } lr
  let front := { front with lrLength := off - lr.lrOffset }
  ({ s with rlTree := avlAdd (setEntry s.rlTree front) rear }, front)

/-- `zfs_rangelock_new_proxy(tree, off, len)`. -/
def zfsRangelockNewProxy (s : Rangelock) (off len : UInt64) : Rangelock :=
  { s with
    rlTree := avlAdd s.rlTree ⟨s.nextId, off, len, 1, .reader, true⟩
    nextId := s.nextId + 1 }

/-- `lr->lr_count++` on an entry of the tree. -/
def bumpCount (s : Rangelock) (lr : LockedRange) : Rangelock :=
  { s with rlTree := setEntry s.rlTree { lr with lrCount := lr.lrCount + 1 } }

/-- The proxy for the end of the new range after the last entry it overlaps, which ends at
`prevEnd`; the loop always runs a turn first, so there is always such an entry. -/
def addEndRange (off len : UInt64) : Option UInt64 → Rangelock → Rangelock
  | some prevEnd, s => zfsRangelockNewProxy s prevEnd (off + len - prevEnd)
  | none, s => s

/-- The proxy for a gap between the entry of the turn before, which ended at `prevEnd`, and
`next`; there is none on the first turn. -/
def addGap (prevEnd : Option UInt64) (next : LockedRange) (s : Rangelock) : Rangelock :=
  match prevEnd with
  | some pe => if pe < next.lrOffset then zfsRangelockNewProxy s pe (next.lrOffset - pe) else s
  | none => s

/-- The loop of `zfs_rangelock_add_reader` over the entries from the first one the new range
`[off, off + len)` overlaps, in offset order; `prevEnd` is the end of the entry of the turn
before.  A gap before the entry gets a proxy; an entry the range ends in is split there; every
entry inside is made a proxy and its count bumped. -/
def addReaderLoop (off len : UInt64) : Option UInt64 → List LockedRange → Rangelock → Rangelock
  | prevEnd, [], s => addEndRange off len prevEnd s
  | prevEnd, next :: rest, s =>
    if off + len ≤ next.lrOffset then addEndRange off len prevEnd s
    else
      let s := addGap prevEnd next s
      if off + len = next.lrEnd then
        let (s, next) := zfsRangelockProxify s next
        bumpCount s next
      else if off + len < next.lrEnd then
        let (s, next) := zfsRangelockSplit s next (off + len)
        bumpCount s next
      else
        let (s, next) := zfsRangelockProxify s next
        addReaderLoop off len (some next.lrEnd) rest (bumpCount s next)

/-- The start of `zfs_rangelock_add_reader`: `prev`, the entry at `off` or the nearest before,
is dropped when it ends by `off`; when it starts before `off` it is split there, and its rear,
the entry after the front, taken instead. -/
def addReaderPrev (s : Rangelock) (off : UInt64) : Option LockedRange → Rangelock × Option LockedRange
  | none => (s, none)
  | some p =>
    if p.lrEnd ≤ off then (s, none)
    else if p.lrOffset ≠ off then
      let (s, front) := zfsRangelockSplit s p off
      (s, avlNearestAfter s.rlTree front.lrOffset)
    else (s, some p)

/-- `zfs_rangelock_add_reader(tree, new, prev, where)`: `prev` is the entry at `new`'s offset or
the nearest before it.  The new lock is returned with the count it ends with: 1 when it went
into the tree itself, 0 when proxies hold its range. -/
def zfsRangelockAddReader (s : Rangelock) (new : LockedRange) (prev : Option LockedRange) :
    Rangelock × LockedRange :=
  let off := new.lrOffset
  let len := new.lrLength
  let (s, prev) := addReaderPrev s off prev
  let next := match prev with
    | some p => some p
    | none => avlNearestAfter s.rlTree off
  match next with
  | none => ({ s with rlTree := avlAdd s.rlTree new }, new)
  | some next =>
    if off + len ≤ next.lrOffset then ({ s with rlTree := avlAdd s.rlTree new }, new)
    else
      let s := if off < next.lrOffset then zfsRangelockNewProxy s off (next.lrOffset - off) else s
      (addReaderLoop off len none (s.rlTree.filter (next.lrOffset ≤ ·.lrOffset)) s,
        { new with lrCount := 0 })

/-- The scan of `zfs_rangelock_enter_reader` over the entries after `prev`: `false` when a writer
overlaps the range ending at `endR`, and the reader would wait. -/
def enterReaderScan (endR : UInt64) : List LockedRange → Bool
  | [] => true
  | next :: rest =>
    if endR ≤ next.lrOffset then true
    else if next.lrType = .writer then false
    else if endR ≤ next.lrEnd then true
    else enterReaderScan endR rest

/-- `zfs_rangelock_enter_reader(rl, new)`: `none` when a writer overlaps and it would wait. -/
def zfsRangelockEnterReader (s : Rangelock) (new : LockedRange) :
    Option (Rangelock × LockedRange) :=
  let off := new.lrOffset
  let len := new.lrLength
  let prev := (avlFind s.rlTree off).or (avlNearestBefore s.rlTree off)
  let gotLock := some (zfsRangelockAddReader s new prev)
  match prev with
  | some p =>
    if off < p.lrEnd then
      if p.lrType = .writer then none
      else if off + len < p.lrEnd then gotLock
      else if enterReaderScan (off + len) (avlAfter s.rlTree p.lrOffset) then gotLock else none
    else if enterReaderScan (off + len) (avlAfter s.rlTree p.lrOffset) then gotLock else none
  | none => if enterReaderScan (off + len) (avlAfter s.rlTree off) then gotLock else none

/-! ## Writers -/

/-- `zfs_rangelock_enter_writer(rl, new)` once `rl_cb` has set the range: `none` when an entry
at the same offset, the next one or the one before overlaps, and it would wait. -/
def zfsRangelockEnterWriter (s : Rangelock) (new : LockedRange) : Option Rangelock :=
  if s.rlTree = [] then some { s with rlTree := avlAdd s.rlTree new }
  else if (avlFind s.rlTree new.lrOffset).isSome then none
  else if (avlNearestAfter s.rlTree new.lrOffset).any (·.lrOffset < new.lrEnd) then none
  else if (avlNearestBefore s.rlTree new.lrOffset).any (·.lrEnd > new.lrOffset) then none
  else some { s with rlTree := avlAdd s.rlTree new }

/-! ## Enter, exit, reduce -/

/-- `UINT64_MAX`. -/
def uint64Max : UInt64 := 0xFFFFFFFFFFFFFFFF

/-- The length `zfs_rangelock_enter` locks: a range past the end of the offsets is cut there. -/
def clampLength (off len : UInt64) : UInt64 := if len + off < off then uint64Max - off else len

/-- `zfs_rangelock_enter(rl, off, len, type)`, with `cb` the range `rl_cb` sets for a writer or
an append (the clamped request where there is no callback): the state with the new lock held,
and the lock; `none` when it would wait. -/
def zfsRangelockEnter (s : Rangelock) (off len : UInt64) (type : RangelockType)
    (cb : UInt64 × UInt64) : Option (Rangelock × LockedRange) :=
  let new : LockedRange := ⟨s.nextId, off, clampLength off len, 1, type, false⟩
  let s := { s with nextId := s.nextId + 1 }
  let granted := fun (p : Rangelock × LockedRange) =>
    ({ p.1 with rlHandles := p.1.rlHandles ++ [p.2] }, p.2)
  if type = .reader then
    if s.rlTree = [] then some (granted ({ s with rlTree := avlAdd s.rlTree new }, new))
    else (zfsRangelockEnterReader s new).map granted
  else
    let new := { new with lrOffset := cb.1, lrLength := cb.2, lrType := .writer }
    (zfsRangelockEnterWriter s new).map fun s => granted (s, new)

/-- The walk of `zfs_rangelock_exit_reader` over the proxies from the handle's offset, while
some of the handle's length `len` is left: each proxy's length is taken from it, its count
dropped, and it leaves the tree at 0. -/
def exitReaderWalk : UInt64 → List LockedRange → Rangelock → Rangelock
  | _, [], s => s
  | len, lr :: rest, s =>
    if len = 0 then s
    else
      let lr' := { lr with lrCount := lr.lrCount - 1 }
      let s := if lr'.lrCount = 0 then { s with rlTree := avlRemove s.rlTree lr.lrId }
        else { s with rlTree := setEntry s.rlTree lr' }
      exitReaderWalk (len - lr.lrLength) rest s

/-- `zfs_rangelock_exit_reader(rl, remove)`: a lock in the tree leaves it; a lock held by
proxies drops a count from each. -/
def zfsRangelockExitReader (s : Rangelock) (remove : LockedRange) : Rangelock :=
  if remove.lrCount = 1 then { s with rlTree := avlRemove s.rlTree remove.lrId }
  else
    match avlFind s.rlTree remove.lrOffset with
    | none => s
    | some lr => exitReaderWalk remove.lrLength (s.rlTree.filter (lr.lrOffset ≤ ·.lrOffset)) s

/-- `zfs_rangelock_exit(lr)`: the lock is released and its holder lets it go. -/
def zfsRangelockExit (s : Rangelock) (lr : LockedRange) : Rangelock :=
  let s := { s with rlHandles := s.rlHandles.filter (·.lrId != lr.lrId) }
  if lr.lrType = .writer then { s with rlTree := avlRemove s.rlTree lr.lrId }
  else zfsRangelockExitReader s lr

/-- `zfs_rangelock_reduce(lr, off, len)` on the only entry, a writer of the whole file: the lock
now covers `[off, off + len)`. -/
def zfsRangelockReduce (s : Rangelock) (lr : LockedRange) (off len : UInt64) : Rangelock :=
  let lr' := { lr with lrOffset := off, lrLength := len }
  { s with
    rlTree := setEntry s.rlTree lr'
    rlHandles := s.rlHandles.map fun h => if h.lrId = lr.lrId then lr' else h }

/-! ## Runs -/

section Runs

-- which ranges `rl_cb`, and the caller of `zfs_rangelock_reduce`, may hand the lock
variable (CbOk : UInt64 → UInt64 → Prop)

/-- One atomic step: an enter that does not wait, with a request of length at least 1 once
clamped and any range `rl_cb` may set; the exit of a held lock; the reduce of a held lock whose
preconditions hold. -/
inductive RlStep : Rangelock → Rangelock → Prop
  | enter {s s' : Rangelock} {lr : LockedRange} (off len : UInt64) (type : RangelockType)
      (cb : UInt64 × UInt64) (hlen : 1 ≤ clampLength off len)
      (hcb : type ≠ .reader → CbOk cb.1 cb.2)
      (h : zfsRangelockEnter s off len type cb = some (s', lr)) : RlStep s s'
  | exit {s : Rangelock} (lr : LockedRange) (hmem : lr ∈ s.rlHandles) :
      RlStep s (zfsRangelockExit s lr)
  | reduce {s : Rangelock} (lr : LockedRange) (off len : UInt64) (hmem : lr ∈ s.rlHandles)
      (htree : s.rlTree = [lr]) (hwriter : lr.lrType = .writer) (hoff : lr.lrOffset = 0)
      (hwhole : lr.lrLength = uint64Max) (hcb : CbOk off len) :
      RlStep s (zfsRangelockReduce s lr off len)

/-- The states a lock reaches from `zfs_rangelock_init`. -/
inductive RlReachable : Rangelock → Prop
  | init : RlReachable zfsRangelockInit
  | step {s s' : Rangelock} : RlReachable s → RlStep CbOk s s' → RlReachable s'

end Runs

end Zfs
