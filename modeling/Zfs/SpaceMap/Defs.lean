import Zfs.Spa.Blkptr

/-!
# SpaceMap/Defs — the space map log of `space_map.c`

A space map object is a log of 64-bit words, written in blocks of `sm_blksz` bytes.  A word whose
two top bits (`SM_PREFIX`) are `SM_DEBUG_PREFIX` is a debug word; one whose prefix is
`SM2_PREFIX` is the first word of a two-word entry; any other word is a one-word entry.  An entry
says that `sme_run` bytes from `sme_offset` were allocated or freed.

`space_map_iterate` reads the words block by block from the start and calls a callback on each
entry.  `space_map_incremental_destroy` reads the last block, reverses it entry by entry
(`space_map_reversed_last_block_entries`), calls the callback on each entry from the end and
shortens the map behind it, block after block.  `space_map_write` appends a debug word and then
the entries of a range tree's segments; a two-word entry that would start in the last word of a
block goes to the next block, behind a padding debug word.

The object's words are a function of their index, `smp_length` is a byte count and `smp_alloc`
an integer.  The DMU calls do not fail here, so the error paths of `dmu_buf_hold` are left out;
a failed `VERIFY`, and a write out of `buf`, are `none`.  The range tree that `space_map_write`
writes is the list of its segments in the order `zfs_btree_next` visits them.
-/

namespace Zfs

/-! ## Entry words (`sys/space_map.h`) -/

/-- `SM_DEBUG_PREFIX`. -/
def smDebugPrefix : UInt64 := 2

/-- `SM2_PREFIX`. -/
def sm2Prefix : UInt64 := 3

/-- `SM_PREFIX_DECODE(x)`: the two top bits. -/
def smPrefixDecode (x : UInt64) : UInt64 := bf64Get x 62 2

/-- `SM_PREFIX_ENCODE(x)`. -/
def smPrefixEncode (x : UInt64) : UInt64 := bf64Encode x 62 2

/-- `SM_DEBUG_ACTION_ENCODE(x)`. -/
def smDebugActionEncode (x : UInt64) : UInt64 := bf64Encode x 60 2

/-- `SM_DEBUG_SYNCPASS_ENCODE(x)`. -/
def smDebugSyncpassEncode (x : UInt64) : UInt64 := bf64Encode x 50 10

/-- `SM_DEBUG_TXG_ENCODE(x)`. -/
def smDebugTxgEncode (x : UInt64) : UInt64 := bf64Encode x 0 50

/-- `SM_OFFSET_DECODE(x)`: `SM_OFFSET_BITS` (47) bits from bit 16. -/
def smOffsetDecode (x : UInt64) : UInt64 := bf64Get x 16 47

/-- `SM_OFFSET_ENCODE(x)`. -/
def smOffsetEncode (x : UInt64) : UInt64 := bf64Encode x 16 47

/-- `SM_TYPE_DECODE(x)`: bit 15. -/
def smTypeDecode (x : UInt64) : UInt64 := bf64Get x 15 1

/-- `SM_TYPE_ENCODE(x)`. -/
def smTypeEncode (x : UInt64) : UInt64 := bf64Encode x 15 1

/-- `SM_RUN_DECODE(x)`: `SM_RUN_BITS` (15) bits, biased by one. -/
def smRunDecode (x : UInt64) : UInt64 := bf64Get x 0 15 + 1

/-- `SM_RUN_ENCODE(x)`. -/
def smRunEncode (x : UInt64) : UInt64 := bf64Encode (x - 1) 0 15

/-- `SM_RUN_MAX`, `SM_RUN_DECODE(~0ULL)`. -/
def smRunMax : UInt64 := smRunDecode (~~~0)

/-- `SM2_RUN_DECODE(x)`: `SM2_RUN_BITS` (36) bits from bit `SPA_VDEVBITS` (24), biased by one. -/
def sm2RunDecode (x : UInt64) : UInt64 := bf64Get x 24 36 + 1

/-- `SM2_RUN_ENCODE(x)`. -/
def sm2RunEncode (x : UInt64) : UInt64 := bf64Encode (x - 1) 24 36

/-- `SM2_VDEV_DECODE(x)`: the low `SPA_VDEVBITS` bits. -/
def sm2VdevDecode (x : UInt64) : UInt64 := bf64Get x 0 24

/-- `SM2_VDEV_ENCODE(x)`. -/
def sm2VdevEncode (x : UInt64) : UInt64 := bf64Encode x 0 24

/-- `SM2_TYPE_DECODE(x)`: bit `SM2_OFFSET_BITS` (63). -/
def sm2TypeDecode (x : UInt64) : UInt64 := bf64Get x 63 1

/-- `SM2_TYPE_ENCODE(x)`. -/
def sm2TypeEncode (x : UInt64) : UInt64 := bf64Encode x 63 1

/-- `SM2_OFFSET_DECODE(x)`: the low 63 bits. -/
def sm2OffsetDecode (x : UInt64) : UInt64 := bf64Get x 0 63

/-- `SM2_OFFSET_ENCODE(x)`. -/
def sm2OffsetEncode (x : UInt64) : UInt64 := bf64Encode x 0 63

/-- `SM2_RUN_MAX`, `SM2_RUN_DECODE(~0ULL)`. -/
def sm2RunMax : UInt64 := sm2RunDecode (~~~0)

/-- `SM_NO_VDEVID`, `1 << SPA_VDEVBITS`. -/
def smNoVdevid : UInt64 := (1 : UInt64) <<< 24

/-- `sm_entry_is_debug(e)`. -/
def smEntryIsDebug (e : UInt64) : Bool := smPrefixDecode e == smDebugPrefix

/-- `sm_entry_is_single_word(e)`. -/
def smEntryIsSingleWord (e : UInt64) : Bool :=
  smPrefixDecode e != smDebugPrefix && smPrefixDecode e != sm2Prefix

/-- `sm_entry_is_double_word(e)`. -/
def smEntryIsDoubleWord (e : UInt64) : Bool := smPrefixDecode e == sm2Prefix

/-- `maptype_t`. -/
inductive Maptype
  | smAlloc
  | smFree
  deriving DecidableEq, Repr

/-- The value of a `maptype_t`: `SM_ALLOC` is 0 and `SM_FREE` is 1. -/
def Maptype.toUInt64 : Maptype → UInt64
  | .smAlloc => 0
  | .smFree => 1

/-- A decoded type bit stored in a `maptype_t`. -/
def Maptype.ofBit (b : UInt64) : Maptype := if b = 0 then .smAlloc else .smFree

/-- `space_map_entry_t`. -/
structure SpaceMapEntry where
  smeType : Maptype
  smeVdev : UInt32
  smeOffset : UInt64
  smeRun : UInt64
  deriving DecidableEq, Repr

/-! ## The space map -/

/-- `space_map_t` with the two fields of its `space_map_phys_t` that these functions keep,
`smp_length` and `smp_alloc`, and the words of its object.  `sm_shift` is below 64, and
`sm_blksz` is a DMU block size: a multiple of eight bytes, and at least two words. -/
structure SpaceMap where
  smStart : UInt64
  smSize : UInt64
  smShift : ℕ
  smBlksz : ℕ
  smObject : ℕ → UInt64
  smpLength : ℕ
  smpAlloc : ℤ
  shift_lt : smShift < 64
  blksz_dvd : 8 ∣ smBlksz
  two_words_le : 16 ≤ smBlksz

namespace SpaceMap

variable {σ : Type} (sm : SpaceMap)

/-- The words of a block, `sm_blksz / sizeof (uint64_t)`. -/
def blockWords : ℕ := sm.smBlksz / 8

/-- The `n` words of the object from word `i` on. -/
def readWords (i n : ℕ) : List UInt64 := (List.range' i n).map sm.smObject

/-- `raw << sm_shift`. -/
def shiftUp (raw : UInt64) : UInt64 := raw <<< sm.smShift.toUInt64

/-- The entry that both readers build from the decoded fields:
`entry_offset = (raw_offset << sm_shift) + sm_start` and `entry_run = raw_run << sm_shift`. -/
def entryOf (type : Maptype) (vdevId rawOffset rawRun : UInt64) : SpaceMapEntry :=
  { smeType := type, smeVdev := vdevId.toUInt32,
    smeOffset := sm.shiftUp rawOffset + sm.smStart, smeRun := sm.shiftUp rawRun }

/-- The entry of a one-word entry `e`. -/
def singleEntry (e : UInt64) : SpaceMapEntry :=
  sm.entryOf (Maptype.ofBit (smTypeDecode e)) smNoVdevid (smOffsetDecode e) (smRunDecode e)

/-- The entry of a two-word entry `e₁ e₂`. -/
def doubleEntry (e₁ e₂ : UInt64) : SpaceMapEntry :=
  sm.entryOf (Maptype.ofBit (sm2TypeDecode e₂)) (sm2VdevDecode e₁) (sm2OffsetDecode e₂)
    (sm2RunDecode e₁)

/-- `P2PHASE(x, 1ULL << sm_shift)`. -/
def phase (x : UInt64) : UInt64 := x &&& ((1 <<< sm.smShift.toUInt64) - 1)

/-- The two `VERIFY0(P2PHASE(…))` of both readers: offset and run are multiples of
`1 << sm_shift`. -/
def entryAligned (sme : SpaceMapEntry) : Bool :=
  sm.phase sme.smeOffset == 0 && sm.phase sme.smeRun == 0

/-- The four range checks of an entry, `ASSERT`s in `space_map_iterate` and `VERIFY`s in
`space_map_incremental_destroy`. -/
def entryInRange (sme : SpaceMapEntry) : Bool :=
  sm.smStart ≤ sme.smeOffset && sme.smeOffset < sm.smStart + sm.smSize &&
    sme.smeRun ≤ sm.smSize && sme.smeOffset + sme.smeRun ≤ sm.smStart + sm.smSize

/-! ## `space_map_iterate` -/

/-- Call `callback` on an entry once `space_map_iterate` has checked it, and go on with `k` if it
returned 0. -/
def iterateVisit (cb : σ → SpaceMapEntry → σ × Int32) (sme : SpaceMapEntry) (a : σ)
    (k : σ → Option (σ × Int32)) : Option (σ × Int32) :=
  if sm.entryAligned sme then
    if (cb a sme).2 = 0 then k (cb a sme).1 else some (cb a sme)
  else none

/-- The inner loop of `space_map_iterate` over the words `[block_cursor, block_end)`; `pastEnd` is
the word at `block_end`, which a two-word entry starting in the last word reads. -/
def iterateBlock (cb : σ → SpaceMapEntry → σ × Int32) (pastEnd : UInt64) :
    List UInt64 → σ → Option (σ × Int32)
  | [], a => some (a, 0)
  | e :: rest, a =>
    if smEntryIsDebug e then iterateBlock cb pastEnd rest a
    else if smEntryIsSingleWord e then
      sm.iterateVisit cb (sm.singleEntry e) a (iterateBlock cb pastEnd rest)
    else
      match rest with
      | [] => sm.iterateVisit cb (sm.doubleEntry e pastEnd) a fun a' => some (a', 0)
      | e₂ :: rest' => sm.iterateVisit cb (sm.doubleEntry e e₂) a (iterateBlock cb pastEnd rest')

/-- The outer loop of `space_map_iterate`, from the block at byte `blockBase`; `n` bounds the
blocks left. -/
def iterateLoop (cb : σ → SpaceMapEntry → σ × Int32) (endB : ℕ) :
    ℕ → ℕ → σ → Option (σ × Int32)
  | 0, _, a => some (a, 0)
  | n + 1, blockBase, a =>
    if blockBase < endB then
      if min (endB - blockBase) sm.smBlksz % 8 = 0 then
        match sm.iterateBlock cb (sm.smObject (blockBase / 8 + min (endB - blockBase) sm.smBlksz / 8))
            (sm.readWords (blockBase / 8) (min (endB - blockBase) sm.smBlksz / 8)) a with
        | some r => if r.2 = 0 then iterateLoop cb endB n (blockBase + sm.smBlksz) r.1 else some r
        | none => none
      else none
    else some (a, 0)

/-- `space_map_iterate(sm, end, callback, arg)`: the state `arg` after the callbacks, and the
error.  The loop visits `DIV_ROUND_UP(end, sm_blksz)` blocks. -/
def spaceMapIterate (endB : ℕ) (cb : σ → SpaceMapEntry → σ × Int32) (a : σ) :
    Option (σ × Int32) :=
  sm.iterateLoop cb endB ((endB + sm.smBlksz - 1) / sm.smBlksz) 0 a

/-! ## `space_map_incremental_destroy` -/

/-- The `for` loop of `space_map_reversed_last_block_entries`: `buf` is filled from its end, the
two words of a two-word entry kept in order.  A two-word entry that starts in the last word would
store to `buf[-1]`. -/
def reversedEntries : List UInt64 → Option (List UInt64)
  | [] => some []
  | e :: rest =>
    if smEntryIsDoubleWord e then
      match rest with
      | [] => none
      | e₂ :: rest' => (reversedEntries rest').map (· ++ [e, e₂])
    else (reversedEntries rest).map (· ++ [e])

/-- `space_map_reversed_last_block_entries`: the words of the block that holds the last word, up
to `smp_length`, reversed entry by entry. -/
def spaceMapReversedLastBlockEntries : Option (List UInt64) :=
  reversedEntries (sm.readWords ((sm.smpLength - 8) / sm.smBlksz * sm.smBlksz / 8)
    ((sm.smpLength - (sm.smpLength - 8) / sm.smBlksz * sm.smBlksz) / 8))

/-- Call `callback` on an entry once `space_map_incremental_destroy` has checked it; if it
returned 0, take the run off `smp_alloc` (`SM_ALLOC`) or add it back (`SM_FREE`), take the
entry's words off `smp_length` and go on with `k`. -/
def destroyVisit (cb : σ → SpaceMapEntry → σ × Int32) (sme : SpaceMapEntry) (words : ℕ) (a : σ)
    (k : SpaceMap → σ → Option (σ × Int32 × SpaceMap)) : Option (σ × Int32 × SpaceMap) :=
  if sm.entryAligned sme && sm.entryInRange sme then
    if (cb a sme).2 = 0 then
      k { sm with
          smpAlloc := if sme.smeType = .smAlloc then sm.smpAlloc - sme.smeRun.toNat
            else sm.smpAlloc + sme.smeRun.toNat
          smpLength := sm.smpLength - words * 8 } (cb a sme).1
    else some ((cb a sme).1, (cb a sme).2, sm)
  else none

/-- `space_map_nblocks(sm)`, `DIV_ROUND_UP(space_map_length(sm), sm_blksz)`. -/
def spaceMapNblocks : ℕ := (sm.smpLength + sm.smBlksz - 1) / sm.smBlksz

end SpaceMap

section Destroy

variable {σ : Type}

/-- The inner `for` loop of `space_map_incremental_destroy` over `buf`.  The first word of a
two-word entry in the last word of `buf` would read the stale word after it; `reversedEntries`
never builds such a buffer, and the model stops there. -/
def incrementalDestroyBlock (cb : σ → SpaceMapEntry → σ × Int32) :
    List UInt64 → SpaceMap → σ → Option (σ × Int32 × SpaceMap)
  | [], sm, a => some (a, 0, sm)
  | e :: rest, sm, a =>
    if smEntryIsDebug e then
      incrementalDestroyBlock cb rest { sm with smpLength := sm.smpLength - 8 } a
    else if smEntryIsSingleWord e then
      sm.destroyVisit cb (sm.singleEntry e) 1 a (incrementalDestroyBlock cb rest)
    else
      match rest with
      | [] => none
      | e₂ :: rest' => sm.destroyVisit cb (sm.doubleEntry e e₂) 2 a (incrementalDestroyBlock cb rest')

/-- The `while` loop of `space_map_incremental_destroy`; `n` bounds the passes left, one block
each. -/
def incrementalDestroyLoop (cb : σ → SpaceMapEntry → σ × Int32) :
    ℕ → SpaceMap → σ → Option (σ × Int32 × SpaceMap)
  | 0, sm, a => some (a, 0, sm)
  | n + 1, sm, a =>
    if 0 < sm.smpLength then
      match sm.spaceMapReversedLastBlockEntries with
      | none => none
      | some buf =>
        match incrementalDestroyBlock cb buf sm a with
        | some r => if r.2.1 = 0 then incrementalDestroyLoop cb n r.2.2 r.1 else some r
        | none => none
    else some (a, 0, sm)

/-- `space_map_incremental_destroy(sm, callback, arg, tx)`: the state `arg` after the callbacks,
the error, and the map. -/
def SpaceMap.spaceMapIncrementalDestroy (sm : SpaceMap) (cb : σ → SpaceMapEntry → σ × Int32)
    (a : σ) : Option (σ × Int32 × SpaceMap) :=
  incrementalDestroyLoop cb sm.spaceMapNblocks sm a

end Destroy

/-! ## `space_map_write` -/

/-- `words` of `space_map_write_seg`: the words of each entry it writes. -/
inductive SmWords
  | one
  | two
  deriving DecidableEq, Repr

/-- The run limit of an entry of that many words: `(words == 2) ? SM2_RUN_MAX : SM_RUN_MAX`. -/
def SmWords.runMax : SmWords → UInt64
  | .one => smRunMax
  | .two => sm2RunMax

/-- The empty debug word that pads the last word of a block. -/
def smPaddingWord : UInt64 :=
  smPrefixEncode smDebugPrefix ||| smDebugActionEncode 0 ||| smDebugSyncpassEncode 0 |||
    smDebugTxgEncode 0

namespace SpaceMap

variable (sm : SpaceMap)

/-- Store a word at `smp_length` and add `sizeof (uint64_t)` to `smp_length`. -/
def appendWord (w : UInt64) : SpaceMap :=
  { sm with smObject := Function.update sm.smObject (sm.smpLength / 8) w,
            smpLength := sm.smpLength + 8 }

/-- `space_map_write_intro_debug(sm, maptype, tx)`, with the sync pass and txg of `tx`. -/
def spaceMapWriteIntroDebug (maptype : Maptype) (syncpass txg : UInt64) : SpaceMap :=
  sm.appendWord (smPrefixEncode smDebugPrefix ||| smDebugActionEncode maptype.toUInt64 |||
    smDebugSyncpassEncode syncpass ||| smDebugTxgEncode txg)

/-- The padding of a turn of `space_map_write_seg`: a two-word entry whose first word would be
the last of its block (`next_entry == block_end`) is preceded by `smPaddingWord`. -/
def padForEntry (words : SmWords) : SpaceMap :=
  if words = .two ∧ sm.smpLength / 8 % sm.blockWords + 1 = sm.blockWords then
    sm.appendWord smPaddingWord
  else sm

/-- The words of one entry of `space_map_write_seg`. -/
def writeEntry (maptype : Maptype) (vdevId : UInt64) : SmWords → UInt64 → UInt64 → SpaceMap
  | .one, start, runLen =>
    sm.appendWord (smOffsetEncode start ||| smTypeEncode maptype.toUInt64 ||| smRunEncode runLen)
  | .two, start, runLen =>
    (sm.appendWord (smPrefixEncode sm2Prefix ||| sm2RunEncode runLen ||| sm2VdevEncode vdevId)).appendWord
      (sm2TypeEncode maptype.toUInt64 ||| sm2OffsetEncode start)

end SpaceMap

/-- The `while (size != 0)` loop of `space_map_write_seg`.  A turn that pads is followed by one
that writes the entry in the next block (blocks hold at least two words), so the two are one
step here; `n` bounds the steps, each of which takes at least one unit off `size`. -/
def writeSegLoop (maptype : Maptype) (vdevId : UInt64) (words : SmWords) :
    ℕ → SpaceMap → UInt64 → UInt64 → SpaceMap
  | 0, sm, _, _ => sm
  | n + 1, sm, start, size =>
    if size = 0 then sm
    else
      writeSegLoop maptype vdevId words n
        ((sm.padForEntry words).writeEntry maptype vdevId words start (min size words.runMax))
        (start + min size words.runMax) (size - min size words.runMax)

namespace SpaceMap

variable (sm : SpaceMap)

/-- `space_map_write_seg(sm, rstart, rend, maptype, vdev_id, words, …)`. -/
def spaceMapWriteSeg (rstart rend : UInt64) (maptype : Maptype) (vdevId : UInt64)
    (words : SmWords) : SpaceMap :=
  writeSegLoop maptype vdevId words ((rend - rstart) >>> sm.smShift.toUInt64).toNat sm
    ((rstart - sm.smStart) >>> sm.smShift.toUInt64) ((rend - rstart) >>> sm.smShift.toUInt64)

/-- The choice of `space_map_write_impl` for a segment: two words when `SPA_FEATURE_SPACEMAP_V2`
is active (`v2`) and the offset or the run does not fit one word, the vdev is set, or the test
draw `zfs_force_some_double_word_sm_entries && spa_get_random(100) == 0` (`force`) hit. -/
def wordsFor (rs : UInt64 × UInt64) (vdevId : UInt64) (v2 force : Bool) : SmWords :=
  if v2 && ((rs.1 - sm.smStart) >>> sm.smShift.toUInt64 ≥ (1 : UInt64) <<< 47 ||
      (rs.2 - rs.1) >>> sm.smShift.toUInt64 > smRunMax || vdevId != smNoVdevid || force) then .two
  else .one

end SpaceMap

/-- The segment loop of `space_map_write_impl`; `force i` is the draw for the `i`-th segment. -/
def writeImplLoop (maptype : Maptype) (vdevId : UInt64) (v2 : Bool) (force : ℕ → Bool) :
    ℕ → List (UInt64 × UInt64) → SpaceMap → SpaceMap
  | _, [], sm => sm
  | i, rs :: segs, sm =>
    writeImplLoop maptype vdevId v2 force (i + 1) segs
      (sm.spaceMapWriteSeg rs.1 rs.2 maptype vdevId (sm.wordsFor rs vdevId v2 (force i)))

/-- `range_tree_space(rt)`: the bytes of the segments. -/
def segsSpace (segs : List (UInt64 × UInt64)) : ℕ := (segs.map fun rs => (rs.2 - rs.1).toNat).sum

namespace SpaceMap

variable (sm : SpaceMap)

/-- `space_map_write_impl(sm, rt, maptype, vdev_id, tx)`. -/
def spaceMapWriteImpl (segs : List (UInt64 × UInt64)) (maptype : Maptype) (vdevId : UInt64)
    (v2 : Bool) (force : ℕ → Bool) (syncpass txg : UInt64) : SpaceMap :=
  writeImplLoop maptype vdevId v2 force 0 segs (sm.spaceMapWriteIntroDebug maptype syncpass txg)

/-- `space_map_write(sm, rt, maptype, vdev_id, tx)`: nothing for an empty tree; otherwise
`smp_alloc` moves by the tree's space and the entries are appended. -/
def spaceMapWrite (segs : List (UInt64 × UInt64)) (maptype : Maptype) (vdevId : UInt64)
    (v2 : Bool) (force : ℕ → Bool) (syncpass txg : UInt64) : SpaceMap :=
  if segs = [] then sm
  else
    { sm with smpAlloc := if maptype = Maptype.smAlloc then sm.smpAlloc + segsSpace segs
                          else sm.smpAlloc - segsSpace segs }.spaceMapWriteImpl
      segs maptype vdevId v2 force syncpass txg

/-- A segment inside the map, as the `ASSERT`s of `space_map_write_seg` want it. -/
def SegOk (rs : UInt64 × UInt64) : Prop :=
  sm.smStart ≤ rs.1 ∧ rs.1 ≤ rs.2 ∧ rs.2 ≤ sm.smStart + sm.smSize

end SpaceMap

/-- The space maps that `space_map_write` builds from an empty object: one whose `sm_start` is a
multiple of `1 << sm_shift` and whose range ends below `2^64`, as metaslabs open theirs, written
any number of times with segments inside it. -/
inductive SmWritten : SpaceMap → Prop
  | alloc {sm : SpaceMap} (hlen : sm.smpLength = 0) (hstart : sm.smStart.toNat % 2 ^ sm.smShift = 0)
      (hend : sm.smStart.toNat + sm.smSize.toNat < 2 ^ 64) : SmWritten sm
  | write {sm : SpaceMap} (segs : List (UInt64 × UInt64)) (maptype : Maptype) (vdevId : UInt64)
      (v2 : Bool) (force : ℕ → Bool) (syncpass txg : UInt64) (h : SmWritten sm)
      (hsegs : ∀ rs ∈ segs, sm.SegOk rs) :
      SmWritten (sm.spaceMapWrite segs maptype vdevId v2 force syncpass txg)

end Zfs
