import Zfs.Btree.Shape

/-!
# RangeTree/Defs — the range trees of `range_tree.c`

A range tree keeps a set of offsets as segments `[start, end)` in a `zfs_btree_t` ordered by
`range_tree_seg*_compare`, which answers `0` for any two overlapping segments, so that a search
for a range finds a segment it overlaps.  A segment is stored *raw*: its offsets less `rt_start`,
shifted right by `rt_shift`, and cut to 32 bits in a `range_seg32_t`; only a gap tree's
`range_seg_gap_t` stores a fill.  `rt_space` is the total length and `rt_histogram[i]` counts the
segments whose length has its highest bit at `i`.  A gap tree (`rt_gap > 0`) also joins segments
less than `rt_gap` apart, and its fill counts what was added, not the bridged gaps.

The arithmetic is `uint64_t`, so `UInt64`.  The callbacks `rtop_add` and `rtop_remove` are code
of the caller; what the code decides is which segment each is passed, and `rtCalls` records
that, in order.  A pointer to a stored segment is the node and slot it points at: reading it
reads that slot in the tree as it is at the time, whatever the B-tree has moved since.

`zfs_panic_recover` panics unless the `zfs_recover` tunable is set, and is a panic here (`none`),
as are the `VERIFY`s; `ASSERT`s are debug-only and are not modelled.
-/

namespace Zfs

/-- `range_seg_type_t`. -/
inductive RangeSegType
  | rangeSeg32
  | rangeSeg64
  | rangeSegGap
  deriving DecidableEq, Repr

/-- A stored segment (`range_seg32_t`, `range_seg64_t`, `range_seg_gap_t`), raw; `rsFill` is
stored by the gap kind only. -/
structure RangeSeg where
  rsStart : UInt64
  rsEnd : UInt64
  rsFill : UInt64
  deriving DecidableEq, Repr, Inhabited

/-- A call of a callback, with the segment it is passed. -/
inductive RtopCall
  | add (rs : RangeSeg)
  | remove (rs : RangeSeg)
  | vacate
  deriving DecidableEq, Repr

/-- `range_tree_t`.  `rtOps` says that `rt_ops` is set, with its `rtop_add`, `rtop_remove` and
`rtop_vacate`. -/
structure RangeTree where
  rtRoot : ZfsBtree RangeSeg
  rtSpace : UInt64
  rtType : RangeSegType
  rtShift : UInt8
  rtStart : UInt64
  rtOps : Bool
  rtGap : UInt64
  rtHistogram : ℕ → UInt64
  rtCalls : List RtopCall

/-- `sizeof` the segment of each type. -/
def RangeSegType.size : RangeSegType → ℕ
  | .rangeSeg32 => 8
  | .rangeSeg64 => 16
  | .rangeSegGap => 24

/-- The body shared by `range_tree_seg32_compare`, `range_tree_seg64_compare` and
`range_tree_seg_gap_compare`: `1` above, `-1` below, `0` on overlap. -/
def rangeTreeSegCompare (r1 r2 : RangeSeg) : ℤ :=
  (if r1.rsStart ≥ r2.rsEnd then 1 else 0) - (if r1.rsEnd ≤ r2.rsStart then 1 else 0)

/-- `range_tree_seg32_compare`. -/
def rangeTreeSeg32Compare : RangeSeg → RangeSeg → ℤ := rangeTreeSegCompare

/-- `range_tree_seg64_compare`. -/
def rangeTreeSeg64Compare : RangeSeg → RangeSeg → ℤ := rangeTreeSegCompare

/-- `range_tree_seg_gap_compare`. -/
def rangeTreeSegGapCompare : RangeSeg → RangeSeg → ℤ := rangeTreeSegCompare

/-- The comparator `range_tree_create_impl` picks for a type. -/
def RangeSegType.compare : RangeSegType → RangeSeg → RangeSeg → ℤ
  | .rangeSeg32 => rangeTreeSeg32Compare
  | .rangeSeg64 => rangeTreeSeg64Compare
  | .rangeSegGap => rangeTreeSegGapCompare

/-- `range_tree_create_impl`: an empty tree (`kmem_zalloc` clears the histogram and the
space). -/
def rangeTreeCreateImpl (ops : Bool) (type : RangeSegType) (start : UInt64) (shift : UInt8)
    (gap : UInt64) : RangeTree :=
  ⟨zfsBtreeCreate type.compare type.size, 0, type, shift, start, ops, gap, fun _ => 0, []⟩

/-- `range_tree_create`: a tree without gaps. -/
def rangeTreeCreate (ops : Bool) (type : RangeSegType) (start : UInt64) (shift : UInt8) :
    RangeTree :=
  rangeTreeCreateImpl ops type start shift 0

namespace RangeTree

variable (rt : RangeTree)

/-! ## The accessors of `range_tree.h` -/

/-- `rs_get_start`. -/
def rsGetStart (rs : RangeSeg) : UInt64 := (rs.rsStart <<< rt.rtShift.toUInt64) + rt.rtStart

/-- `rs_get_end`. -/
def rsGetEnd (rs : RangeSeg) : UInt64 := (rs.rsEnd <<< rt.rtShift.toUInt64) + rt.rtStart

/-- `rs_get_fill_raw`: the stored fill of a gap segment, the raw length of another. -/
def rsGetFillRaw (rs : RangeSeg) : UInt64 :=
  match rt.rtType with
  | .rangeSegGap => rs.rsFill
  | _ => rs.rsEnd - rs.rsStart

/-- `rs_get_fill`. -/
def rsGetFill (rs : RangeSeg) : UInt64 := rt.rsGetFillRaw rs <<< rt.rtShift.toUInt64

/-- `rs_set_start_raw`: a `range_seg32_t` keeps the low 32 bits. -/
def rsSetStartRaw (rs : RangeSeg) (start : UInt64) : RangeSeg :=
  match rt.rtType with
  | .rangeSeg32 => { rs with rsStart := start.toUInt32.toUInt64 }
  | _ => { rs with rsStart := start }

/-- `rs_set_end_raw`. -/
def rsSetEndRaw (rs : RangeSeg) (end_ : UInt64) : RangeSeg :=
  match rt.rtType with
  | .rangeSeg32 => { rs with rsEnd := end_.toUInt32.toUInt64 }
  | _ => { rs with rsEnd := end_ }

/-- `rs_set_fill_raw`: only a gap segment stores it. -/
def rsSetFillRaw (rs : RangeSeg) (fill : UInt64) : RangeSeg :=
  match rt.rtType with
  | .rangeSegGap => { rs with rsFill := fill }
  | _ => rs

/-- `rs_set_start`. -/
def rsSetStart (rs : RangeSeg) (start : UInt64) : RangeSeg :=
  rt.rsSetStartRaw rs ((start - rt.rtStart) >>> rt.rtShift.toUInt64)

/-- `rs_set_end`. -/
def rsSetEnd (rs : RangeSeg) (end_ : UInt64) : RangeSeg :=
  rt.rsSetEndRaw rs ((end_ - rt.rtStart) >>> rt.rtShift.toUInt64)

/-- `rs_set_fill`. -/
def rsSetFill (rs : RangeSeg) (fill : UInt64) : RangeSeg :=
  rt.rsSetFillRaw rs (fill >>> rt.rtShift.toUInt64)

/-- The search key `rsearch` for `[start, end)`. -/
def rsearch (start end_ : UInt64) : RangeSeg := rt.rsSetEnd (rt.rsSetStart default start) end_

/-! ## Pointers into the tree, statistics and callbacks -/

/-- Read through a pointer to slot `off` of node `n`. -/
def get (n : NodeId) (off : ℕ) : RangeSeg := (rt.rtRoot.nodes n).btElems off

/-- Write through a pointer to slot `off` of node `n`. -/
def set (n : NodeId) (off : ℕ) (rs : RangeSeg) : RangeTree :=
  { rt with rtRoot := rt.rtRoot.setElem n off rs }

/-- The histogram bucket of a segment, `highbit64(size) - 1`. -/
def bucket (rs : RangeSeg) : ℕ := highbit64 (rt.rsGetEnd rs - rt.rsGetStart rs).toNat - 1

/-- `range_tree_stat_incr`. -/
def rangeTreeStatIncr (rs : RangeSeg) : RangeTree :=
  { rt with rtHistogram :=
      Function.update rt.rtHistogram (rt.bucket rs) (rt.rtHistogram (rt.bucket rs) + 1) }

/-- `range_tree_stat_decr`. -/
def rangeTreeStatDecr (rs : RangeSeg) : RangeTree :=
  { rt with rtHistogram :=
      Function.update rt.rtHistogram (rt.bucket rs) (rt.rtHistogram (rt.bucket rs) - 1) }

/-- `rt->rt_ops->rtop_add(rt, rs, rt->rt_arg)`, when there is one. -/
def rtopAdd (rs : RangeSeg) : RangeTree :=
  if rt.rtOps then { rt with rtCalls := rt.rtCalls ++ [.add rs] } else rt

/-- `rt->rt_ops->rtop_remove(rt, rs, rt->rt_arg)`, when there is one. -/
def rtopRemove (rs : RangeSeg) : RangeTree :=
  if rt.rtOps then { rt with rtCalls := rt.rtCalls ++ [.remove rs] } else rt

/-- `range_tree_adjust_fill`: move the fill of the segment at `(n, off)` by `delta`, between a
removal and an addition callback. -/
def rangeTreeAdjustFill (n : NodeId) (off : ℕ) (delta : UInt64) : RangeTree :=
  let rt := rt.rtopRemove (rt.get n off)
  let rt := rt.set n off (rt.rsSetFill (rt.get n off) (rt.rsGetFill (rt.get n off) + delta))
  rt.rtopAdd (rt.get n off)

end RangeTree

open RangeTree

/-! ## Adding -/

/-- The merge with both neighbours in `range_tree_add_impl`: the segment before is removed and
the one after, found again, takes its start and both fills. -/
def rangeTreeMergeBoth (rt : RangeTree) (before after : ZfsBtreeIndex) (fill : UInt64) :
    Option (RangeTree × RangeSeg) := do
  let rsBefore := zfsBtreeGet rt.rtRoot before
  let rsAfter := zfsBtreeGet rt.rtRoot after
  let rt := (rt.rtopRemove rsBefore).rtopRemove rsAfter
  let rt := (rt.rangeTreeStatDecr rsBefore).rangeTreeStatDecr rsAfter
  let tmp := rsAfter
  let beforeStart := rsBefore.rsStart
  let beforeFill := rt.rsGetFill rsBefore
  let afterFill := rt.rsGetFill rsAfter
  let root ← zfsBtreeRemoveIdx rt.rtRoot before
  let rt := { rt with rtRoot := root }
  -- "we have to re-find the node because our old reference is invalid"
  let (n, off) ← (zfsBtreeFind rt.rtRoot tmp).1
  let rt := rt.set n off (rt.rsSetStartRaw (rt.get n off) beforeStart)
  let rt := rt.set n off (rt.rsSetFill (rt.get n off) (afterFill + beforeFill + fill))
  pure (rt, rt.get n off)

/-- The part of `range_tree_add_impl` for a range that overlaps no segment: merge it into the
neighbours within `rt_gap` of it, or insert it at `where`. -/
def rangeTreeAddNew (rt : RangeTree) (start size fill : UInt64) (where_ : ZfsBtreeIndex) :
    Option RangeTree := do
  let end_ := start + size
  let gap := rt.rtGap
  let before ← zfsBtreePrev rt.rtRoot where_
  let after ← zfsBtreeNext rt.rtRoot where_
  let mergeBefore := before.filter fun b =>
    decide (rt.rsGetEnd (zfsBtreeGet rt.rtRoot b) ≥ start - gap)
  let mergeAfter := after.filter fun a =>
    decide (rt.rsGetStart (zfsBtreeGet rt.rtRoot a) ≤ end_ + gap)
  let bridgeBefore : UInt64 := match mergeBefore with
    | some b => if gap ≠ 0 then start - rt.rsGetEnd (zfsBtreeGet rt.rtRoot b) else 0
    | none => 0
  let bridgeAfter : UInt64 := match mergeAfter with
    | some a => if gap ≠ 0 then rt.rsGetStart (zfsBtreeGet rt.rtRoot a) - end_ else 0
    | none => 0
  let bridgeSize := bridgeBefore + bridgeAfter
  let (rt, rs) ← match mergeBefore, mergeAfter with
    | some b, some a => rangeTreeMergeBoth rt b a fill
    | some b, none =>
      let rsBefore := zfsBtreeGet rt.rtRoot b
      let rt := (rt.rtopRemove rsBefore).rangeTreeStatDecr rsBefore
      let beforeFill := rt.rsGetFill rsBefore
      let rt := rt.set b.btiNode b.btiOffset (rt.rsSetEnd rsBefore end_)
      let rt := rt.set b.btiNode b.btiOffset
        (rt.rsSetFill (rt.get b.btiNode b.btiOffset) (beforeFill + fill))
      pure (rt, rt.get b.btiNode b.btiOffset)
    | none, some a =>
      let rsAfter := zfsBtreeGet rt.rtRoot a
      let rt := (rt.rtopRemove rsAfter).rangeTreeStatDecr rsAfter
      let afterFill := rt.rsGetFill rsAfter
      let rt := rt.set a.btiNode a.btiOffset (rt.rsSetStart rsAfter start)
      let rt := rt.set a.btiNode a.btiOffset
        (rt.rsSetFill (rt.get a.btiNode a.btiOffset) (afterFill + fill))
      pure (rt, rt.get a.btiNode a.btiOffset)
    | none, none =>
      let tmp := rt.rsSetFill (rt.rsearch start end_) fill
      let root ← zfsBtreeAddIdx rt.rtRoot tmp where_
      pure ({ rt with rtRoot := root }, tmp)
  let rt := (rt.rtopAdd rs).rangeTreeStatIncr rs
  pure { rt with rtSpace := rt.rtSpace + (size + bridgeSize) }

/-- `range_tree_add_impl`, with fuel for its recursion.  A range overlapping a segment that
does not cover it takes that segment out and is added again, widened; the pointer `rs` to the
segment is read again after `zfs_btree_remove`, as the code reads it. -/
def rangeTreeAddImpl : ℕ → RangeTree → UInt64 → UInt64 → UInt64 → Option RangeTree
  | 0, _, _, _, _ => none
  | fuel + 1, rt, start, size, fill =>
    let end_ := start + size
    match zfsBtreeFind rt.rtRoot (rt.rsearch start end_) with
    | (some (n, off), _) =>
      let rstart := rt.rsGetStart (rt.get n off)
      let rend := rt.rsGetEnd (rt.get n off)
      if rstart ≤ start ∧ rend ≥ end_ then some (rt.rangeTreeAdjustFill n off fill)
      else do
        let root ← zfsBtreeRemove rt.rtRoot (rt.get n off)
        let rt := { rt with rtRoot := root }
        let rt := rt.rtopRemove (rt.get n off)
        let rt := rt.rangeTreeStatDecr (rt.get n off)
        let rt := { rt with rtSpace := rt.rtSpace - (rend - rstart) }
        let fill := fill + rt.rsGetFill (rt.get n off)
        let start := min start rstart
        rangeTreeAddImpl fuel rt start (max end_ rend - start) fill
    | (none, where_) => rangeTreeAddNew rt start size fill where_

/-- The fuel of `range_tree_add_impl`: each recursive call holds one segment fewer. -/
def RangeTree.addFuel (rt : RangeTree) : ℕ := rt.rtRoot.btNumElems + 1

/-- `range_tree_add`: add `[start, start + size)`, all of it filled. -/
def rangeTreeAdd (rt : RangeTree) (start size : UInt64) : Option RangeTree :=
  rangeTreeAddImpl rt.addFuel rt start size size

/-- **Adding over a segment reads it after the B-tree has moved it.**  A gap tree holds `[0, 10)`
(filled 8, across a bridged gap) and `[100, 120)`.  Adding `[8, 12)` takes `[0, 10)` out of the
tree and then reads its old slot, which now holds `[100, 120)`: the union `[0, 12)` gets the
fill `4 + 20`, the histogram loses bucket 4 (`[100, 120)`) instead of bucket 3 (`[0, 10)`), and
`rtop_remove` is passed `[100, 120)`, which stays in the tree. -/
theorem rangeTreeAdd_overlap_reads_moved_slot :
    (do
      let rt ← rangeTreeAdd (rangeTreeCreateImpl true .rangeSegGap 0 0 2) 0 4
      let rt ← rangeTreeAdd rt 6 4
      let rt ← rangeTreeAdd rt 100 20
      let rt' ← rangeTreeAdd rt 8 4
      pure (rt.rtRoot.seq, rt'.rtRoot.seq, rt'.rtHistogram 3, rt'.rtHistogram 4,
        rt'.rtCalls.drop rt.rtCalls.length)) =
    some ([⟨0, 10, 8⟩, ⟨100, 120, 20⟩], [⟨0, 12, 24⟩, ⟨100, 120, 20⟩], 2, 0,
      [.remove ⟨100, 120, 20⟩, .add ⟨0, 12, 24⟩]) := by
  decide

/-! ## Removing -/

/-- The part of `range_tree_remove_impl` after the gap checks: take `[start, end)` out of the
segment at `(n, off)`, found at `where`, keeping what is left on either side. -/
def rangeTreeRemoveFrom (rt : RangeTree) (n : NodeId) (off : ℕ) (where_ : ZfsBtreeIndex)
    (start end_ size : UInt64) : Option RangeTree := do
  let rs := rt.get n off
  if ¬ (rt.rsGetStart rs ≤ start ∧ rt.rsGetEnd rs ≥ end_) then none
  let leftOver := rt.rsGetStart rs ≠ start
  let rightOver := rt.rsGetEnd rs ≠ end_
  let rt := (rt.rangeTreeStatDecr rs).rtopRemove rs
  let (rt, rsTmp) ← if leftOver ∧ rightOver then do
      let newseg := rt.rsSetFill (rt.rsSetEndRaw (rt.rsSetStart default end_) rs.rsEnd)
        (rt.rsGetEnd rs - end_)
      let rt := rt.rangeTreeStatIncr newseg
      let rt := rt.set n off (rt.rsSetEnd rs start)
      let rsTmp := rt.get n off
      let next ← zfsBtreeNext rt.rtRoot where_
      let root ← match next with
        | some w => zfsBtreeAddIdx rt.rtRoot newseg w
        | none => zfsBtreeAdd rt.rtRoot newseg
      pure (({ rt with rtRoot := root }).rtopAdd newseg, some rsTmp)
    else if leftOver then
      let rt := rt.set n off (rt.rsSetEnd rs start)
      pure (rt, some (rt.get n off))
    else if rightOver then
      let rt := rt.set n off (rt.rsSetStart rs end_)
      pure (rt, some (rt.get n off))
    else do
      let root ← zfsBtreeRemoveIdx rt.rtRoot where_
      pure ({ rt with rtRoot := root }, none)
  let rt := match rsTmp with
    | some rsTmp =>
      -- the fill of what is left is its length, written through `rs`
      let rt := rt.set n off
        (rt.rsSetFillRaw (rt.get n off) ((rt.get n off).rsEnd - (rt.get n off).rsStart))
      (rt.rangeTreeStatIncr rsTmp).rtopAdd rsTmp
    | none => rt
  pure { rt with rtSpace := rt.rtSpace - size }

/-- `range_tree_remove_impl`: remove `[start, start + size)`, which one segment must cover.  A
gap tree removes whole segments only; with `doFill` a range that is not a whole segment's fill
only lowers that segment's fill. -/
def rangeTreeRemoveImpl (rt : RangeTree) (start size : UInt64) (doFill : Bool) :
    Option RangeTree :=
  if size = 0 ∨ size > rt.rtSpace then none
  else
    let end_ := start + size
    match zfsBtreeFind rt.rtRoot (rt.rsearch start end_) with
    | (none, _) => none
    | (some (n, off), where_) =>
      let rs := rt.get n off
      if rt.rtGap ≠ 0 then
        if doFill then
          if rt.rsGetFill rs = size then
            rangeTreeRemoveFrom rt n off where_ (rt.rsGetStart rs) (rt.rsGetEnd rs)
              (rt.rsGetEnd rs - rt.rsGetStart rs)
          else some (rt.rangeTreeAdjustFill n off (0 - size))
        else if rt.rsGetStart rs ≠ start ∨ rt.rsGetEnd rs ≠ end_ then none
        else rangeTreeRemoveFrom rt n off where_ start end_ size
      else rangeTreeRemoveFrom rt n off where_ start end_ size

/-- `range_tree_remove`. -/
def rangeTreeRemove (rt : RangeTree) (start size : UInt64) : Option RangeTree :=
  rangeTreeRemoveImpl rt start size false

/-- `range_tree_remove_fill`. -/
def rangeTreeRemoveFill (rt : RangeTree) (start size : UInt64) : Option RangeTree :=
  rangeTreeRemoveImpl rt start size true

/-! ## Searching -/

/-- `range_tree_find_impl`: a segment overlapping `[start, start + size)`. -/
def rangeTreeFindImpl (rt : RangeTree) (start size : UInt64) : Option (Option (NodeId × ℕ)) :=
  if size = 0 then none else some (zfsBtreeFind rt.rtRoot (rt.rsearch start (start + size))).1

/-- `range_tree_find`: the segment covering `[start, start + size)`, if one does. -/
def rangeTreeFind (rt : RangeTree) (start size : UInt64) : Option (Option (NodeId × ℕ)) := do
  let rs ← rangeTreeFindImpl rt start size
  pure <| rs.filter fun (n, off) =>
    decide (rt.rsGetStart (rt.get n off) ≤ start ∧ rt.rsGetEnd (rt.get n off) ≥ start + size)

/-- `range_tree_contains`. -/
def rangeTreeContains (rt : RangeTree) (start size : UInt64) : Option Bool :=
  (rangeTreeFind rt start size).map Option.isSome

/-- The loop of `range_tree_clear`: remove the part of `[start, start + size)` in each segment
it overlaps, one at a time. -/
def rangeTreeClearLoop (start size : UInt64) : ℕ → RangeTree → Option RangeTree
  | 0, _ => none
  | fuel + 1, rt => do
    match ← rangeTreeFindImpl rt start size with
    | none => pure rt
    | some (n, off) =>
      let freeStart := max (rt.rsGetStart (rt.get n off)) start
      let freeEnd := min (rt.rsGetEnd (rt.get n off)) (start + size)
      let rt ← rangeTreeRemove rt freeStart (freeEnd - freeStart)
      rangeTreeClearLoop start size fuel rt

/-- `range_tree_clear`: make sure no part of `[start, start + size)` is in the tree. -/
def rangeTreeClear (rt : RangeTree) (start size : UInt64) : Option RangeTree :=
  if size = 0 then some rt else rangeTreeClearLoop start size rt.addFuel rt

/-- `range_tree_vacate` without a function to pass the segments to: after `rtop_vacate` the
B-tree is cleared, and the histogram and the space with it. -/
def rangeTreeVacate (rt : RangeTree) : RangeTree :=
  let rt := if rt.rtOps then { rt with rtCalls := rt.rtCalls ++ [.vacate] } else rt
  { rt with rtRoot := zfsBtreeClear rt.rtRoot, rtHistogram := fun _ => 0, rtSpace := 0 }

end Zfs
