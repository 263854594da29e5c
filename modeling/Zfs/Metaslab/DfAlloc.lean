import Mathlib
import Zfs.Spl.Sysmacros

/-!
# Metaslab/DfAlloc — the dynamic-fit block allocator

`metaslab_df_alloc` finds `size` free bytes in a metaslab.  The free space is `ms_allocatable`, a
range tree of segments in offset order; `ms_allocatable_by_size` holds the same segments ordered by
size and then start (`metaslab_rangesize64_compare`), but only those of at least
`2^mra_floor_shift` bytes, until it is emptied and reloaded whole by
`metaslab_size_tree_full_load`.  The allocator first walks the offset tree from a cursor kept per
alignment (`metaslab_block_picker`), within a byte and a count budget, and falls back on the size
tree: the largest segment, or the first one at least `size` long.

Both trees are read on their sequences in order.  On the offset tree `zfs_btree_find` compares
with `range_tree_seg64_compare`, which answers `0` for every segment overlapping the searched
range, and where the binary search lands among them depends on the shape of the B-tree: the model
takes that position as an argument (`land`), and the results hold for every choice.  On the size
tree the comparator orders distinct segments strictly, so `zfs_btree_find` and then
`zfs_btree_next` from where the segment would go give the first segment not below it.
Segments are read as `rs_get_start` and `rs_get_end` read them; they and the sizes are multiples of
`2^rt_shift` from `rt_start`, so comparing the raw fields orders them as their offsets do.

The arithmetic is `uint64_t`.  A request of no bytes reads the cursor `ms_lbas[-1]` and a
metaslab of no bytes divides by zero; the model returns `none` there, and is defined everywhere
else.  Where `offset + size` does not wrap:

* `metaslabDfAllocAt_spec` — on every branch an offset returned is the start of `size` free bytes
  of one segment, and `-1` is returned only when no segment is `size` bytes long;
* `metaslabDfAllocAt_snd` — the allocator moves the one cursor it read and reloads an empty size
  tree, and nothing else;
* **`metaslabDfAlloc_sound_complete`** — so a request of at least one byte returns an offset kept
  to that promise, and both trees keep their invariants.

Without that bound the sum wraps: `metaslabDfAlloc_wraps` returns a segment of 1 MiB for a request
of `2^64 - 4096` bytes.
-/

namespace Zfs

/-! ## The trees -/

/-- A segment of `ms_allocatable`, as `rs_get_start` and `rs_get_end` read it. -/
structure MsSeg where
  rsStart : UInt64
  rsEnd : UInt64
  deriving DecidableEq, Repr

/-- `TREE_CMP(a, b)`: `1` above, `-1` below, `0` equal. -/
def treeCmp (a b : UInt64) : ℤ := (if a > b then 1 else 0) - (if a < b then 1 else 0)

/-- `metaslab_rangesize64_compare`: by size, then by start. -/
def metaslabRangesize64Compare (r1 r2 : MsSeg) : ℤ :=
  let cmp := treeCmp (r1.rsEnd - r1.rsStart) (r2.rsEnd - r2.rsStart)
  if cmp ≠ 0 then cmp else treeCmp r1.rsStart r2.rsStart

/-- Not above in the order of `ms_allocatable_by_size`. -/
def BySizeLe (r1 r2 : MsSeg) : Prop := metaslabRangesize64Compare r1 r2 ≠ 1

instance : DecidableRel BySizeLe := fun r1 r2 =>
  inferInstanceAs (Decidable (metaslabRangesize64Compare r1 r2 ≠ 1))

/-- `zfs_btree_add` on `ms_allocatable_by_size`, read on its sequence: the segment goes before the
first one not below it. -/
def bySizeAdd (t : List MsSeg) (rs : MsSeg) : List MsSeg := t.orderedInsert BySizeLe rs

/-- `metaslab_rt_add`: a segment shorter than `2^mra_floor_shift` stays out of the size tree. -/
def metaslabRtAdd (floorShift : ℕ) (t : List MsSeg) (rs : MsSeg) : List MsSeg :=
  if (rs.rsEnd - rs.rsStart).toNat < 2 ^ floorShift then t else bySizeAdd t rs

/-- `metaslab_block_find` on `ms_allocatable_by_size` for `size` bytes from `start`. -/
def metaslabBlockFindBySize (t : List MsSeg) (start size : UInt64) : Option MsSeg :=
  t.find? fun rs => metaslabRangesize64Compare rs ⟨start, start + size⟩ ≠ -1

/-! ## The metaslab -/

/-- The tunables the allocator reads, at the types it reads them: `metaslab_df_max_search` is
the `uint64_t max_search` it is passed as. -/
structure MetaslabTunables where
  metaslabDfAllocThreshold : UInt64
  metaslabDfFreePct : ℤ
  metaslabDfMaxSearch : UInt64
  metaslabMinSearchCount : ℕ
  metaslabDfUseLargestSegment : Bool

/-- The fields of `metaslab_t` the allocator reads and writes, with `rt_start` and `rt_space` of
`ms_allocatable` and `mra_floor_shift` of its size tree. -/
structure Metaslab where
  msStart : UInt64
  msSize : UInt64
  msLbas : ℕ → UInt64
  msAllocatable : List MsSeg
  rtStart : UInt64
  rtSpace : UInt64
  msAllocatableBySize : List MsSeg
  mraFloorShift : ℕ

/-- `metaslab_size_tree_full_load`: every segment of the offset tree into the size tree, with the
floor at `0`. -/
def metaslabSizeTreeFullLoad (msp : Metaslab) : Metaslab :=
  { msp with
    mraFloorShift := 0
    msAllocatableBySize := msp.msAllocatable.foldl (metaslabRtAdd 0) msp.msAllocatableBySize }

/-- The size tree reloaded if it is empty, as `metaslab_largest_allocatable` and
`metaslab_df_alloc` do before reading it. -/
def metaslabSizeTreeLoad (msp : Metaslab) : Metaslab :=
  if msp.msAllocatableBySize = [] then metaslabSizeTreeFullLoad msp else msp

/-- `metaslab_largest_allocatable`: the size of the last segment of the size tree. -/
def metaslabLargestAllocatable (msp : Metaslab) : UInt64 × Metaslab :=
  let msp := metaslabSizeTreeLoad msp
  match msp.msAllocatableBySize.getLast? with
  | none => (0, msp)
  | some rs => (rs.rsEnd - rs.rsStart, msp)

/-! ## The allocator -/

/-- The walk of `metaslab_block_picker` from the segment `metaslab_block_find` gave: the first
segment that holds `size` bytes from its start, while within `max_search` bytes of the first
segment or fewer than `metaslab_min_search_count` segments have been passed. -/
def metaslabBlockPickerLoop (size maxSearch firstFound : UInt64) (minSearchCount : ℕ) :
    List MsSeg → ℕ → Option UInt64
  | [], _ => none
  | rs :: rest, countSearched =>
    if rs.rsStart - firstFound ≤ maxSearch ∨ countSearched < minSearchCount then
      if rs.rsStart + size ≤ rs.rsEnd then some rs.rsStart
      else metaslabBlockPickerLoop size maxSearch firstFound minSearchCount rest (countSearched + 1)
    else none

/-- `metaslab_block_picker(rt, cursor, size, max_search)`: the offset and the cursor after it.
`land start size` is the position among the segments where `zfs_btree_find` lands for
`[start, start + size)`. -/
def metaslabBlockPicker (segs : List MsSeg) (land : UInt64 → UInt64 → ℕ) (rtStart cursor size
    maxSearch : UInt64) (minSearchCount : ℕ) : UInt64 × UInt64 :=
  let cursor := if cursor = 0 then rtStart else cursor
  match segs.drop (land cursor size) with
  | [] => (-1, 0)
  | rs :: rest =>
    match metaslabBlockPickerLoop size maxSearch rs.rsStart minSearchCount (rs :: rest) 0 with
    | some offset => (offset, offset + size)
    | none => (-1, 0)

/-- The `int` a `uint64_t` converts to: its low 32 bits, signed. -/
def intOfUInt64 (x : UInt64) : ℤ :=
  if x.toNat % 2 ^ 32 < 2 ^ 31 then x.toNat % 2 ^ 32 else x.toNat % 2 ^ 32 - 2 ^ 32

/-- The fallback of `metaslab_df_alloc` on the size tree, reloaded if empty: the largest segment,
or the first one at least `size` long from `ms_start` on, if `size` bytes fit in it; the cursor
`idx` moves past them, or keeps `cursor`. -/
def metaslabDfFallback (tun : MetaslabTunables) (msp : Metaslab) (idx : ℕ) (cursor size : UInt64) :
    UInt64 × Metaslab :=
  let msp := metaslabSizeTreeLoad msp
  let rs := if tun.metaslabDfUseLargestSegment then msp.msAllocatableBySize.getLast?
    else metaslabBlockFindBySize msp.msAllocatableBySize msp.msStart size
  match rs with
  | some rs =>
    if rs.rsStart + size ≤ rs.rsEnd then
      (rs.rsStart, { msp with msLbas := Function.update msp.msLbas idx (rs.rsStart + size) })
    else (-1, { msp with msLbas := Function.update msp.msLbas idx cursor })
  | none => (-1, { msp with msLbas := Function.update msp.msLbas idx cursor })

/-- The body of `metaslab_df_alloc(msp, size)` once its cursor `ms_lbas[idx]` is chosen: the
offset, `-1` for none, and the metaslab after it. -/
def metaslabDfAllocAt (tun : MetaslabTunables) (land : UInt64 → UInt64 → ℕ) (msp : Metaslab)
    (idx : ℕ) (size : UInt64) : UInt64 × Metaslab :=
  let cursor := msp.msLbas idx
  let freePct := intOfUInt64 (msp.rtSpace * 100 / msp.msSize)
  let (largest, msp) := metaslabLargestAllocatable msp
  -- the cursor walk, unless space is short
  let (offset, cursor) :=
    if largest < tun.metaslabDfAllocThreshold ∨ freePct < tun.metaslabDfFreePct then (-1, cursor)
    else metaslabBlockPicker msp.msAllocatable land msp.rtStart cursor size
      tun.metaslabDfMaxSearch tun.metaslabMinSearchCount
  if offset = -1 then metaslabDfFallback tun msp idx cursor size
  else (offset, { msp with msLbas := Function.update msp.msLbas idx cursor })

/-- `metaslab_df_alloc(msp, size)`, on the cursor of the largest power of two dividing `size`;
`none` where C's behaviour is undefined: for `size = 0` the cursor `ms_lbas[highbit64(0) - 1]` lies
before the array, and for `ms_size = 0` the free percentage divides by zero. -/
def metaslabDfAlloc (tun : MetaslabTunables) (land : UInt64 → UInt64 → ℕ) (msp : Metaslab)
    (size : UInt64) : Option (UInt64 × Metaslab) :=
  let align := size &&& (0 - size)
  if highbit64 align.toNat = 0 ∨ msp.msSize = 0 then none
  else some (metaslabDfAllocAt tun land msp (highbit64 align.toNat - 1) size)

/-! ## The order of the size tree -/

theorem treeCmp_eq (a b : UInt64) :
    treeCmp a b = if a.toNat < b.toNat then -1 else if b.toNat < a.toNat then 1 else 0 := by
  simp only [treeCmp, gt_iff_lt, UInt64.lt_iff_toNat_lt]
  split_ifs <;> omega

/-- **`metaslab_rangesize64_compare` orders by size, then by start.** -/
theorem bySizeLe_iff {r1 r2 : MsSeg} :
    BySizeLe r1 r2 ↔ (r1.rsEnd - r1.rsStart).toNat < (r2.rsEnd - r2.rsStart).toNat ∨
      (r1.rsEnd - r1.rsStart).toNat = (r2.rsEnd - r2.rsStart).toNat ∧
        r1.rsStart.toNat ≤ r2.rsStart.toNat := by
  simp only [BySizeLe, metaslabRangesize64Compare, treeCmp_eq]
  split_ifs <;> omega

/-- Not below is above or equal the other way round. -/
theorem metaslabRangesize64Compare_ne_neg_one {r1 r2 : MsSeg} :
    metaslabRangesize64Compare r1 r2 ≠ -1 ↔ BySizeLe r2 r1 := by
  simp only [bySizeLe_iff, metaslabRangesize64Compare, treeCmp_eq]
  split_ifs <;> omega

instance : Std.Total BySizeLe := ⟨fun a b => by
  simp only [bySizeLe_iff]
  omega⟩

instance : IsTrans MsSeg BySizeLe := ⟨fun a b c => by
  simp only [bySizeLe_iff]
  omega⟩

theorem bySizeLe_refl (rs : MsSeg) : BySizeLe rs rs :=
  bySizeLe_iff.mpr (Or.inr ⟨rfl, le_rfl⟩)

/-- The last segment of a sequence in size order is not below any. -/
theorem bySizeLe_getLast {t : List MsSeg} (hsorted : t.Pairwise BySizeLe) {last : MsSeg}
    (hlast : t.getLast? = some last) : ∀ rs ∈ t, BySizeLe rs last := by
  obtain ⟨ys, rfl⟩ := List.getLast?_eq_some_iff.mp hlast
  intro rs hrs
  rcases List.mem_append.mp hrs with hys | hlast
  · exact (List.pairwise_append.mp hsorted).2.2 rs hys last List.mem_cons_self
  · rw [List.mem_singleton.mp hlast]
    exact bySizeLe_refl last

/-! ## The invariants -/

/-- What the allocator needs of the range-tree invariant of `ms_allocatable`: every segment is
non-empty and inside the metaslab. -/
structure AllocatableOk (msp : Metaslab) : Prop where
  inside : ∀ rs ∈ msp.msAllocatable, msp.msStart.toNat ≤ rs.rsStart.toNat ∧
    rs.rsStart.toNat < rs.rsEnd.toNat ∧ rs.rsEnd.toNat ≤ msp.msStart.toNat + msp.msSize.toNat

/-- `ms_allocatable_by_size` in step with `ms_allocatable`: in size order, it holds exactly the
segments of at least `2^mra_floor_shift` bytes. -/
structure SizeTreeOk (msp : Metaslab) : Prop where
  mem : ∀ rs, rs ∈ msp.msAllocatableBySize ↔
    rs ∈ msp.msAllocatable ∧ 2 ^ msp.mraFloorShift ≤ (rs.rsEnd - rs.rsStart).toNat
  sorted : msp.msAllocatableBySize.Pairwise BySizeLe

theorem foldl_metaslabRtAdd (f : ℕ) (l : List MsSeg) :
    ∀ t : List MsSeg, (∀ rs, rs ∈ l.foldl (metaslabRtAdd f) t ↔
        rs ∈ t ∨ rs ∈ l ∧ 2 ^ f ≤ (rs.rsEnd - rs.rsStart).toNat) ∧
      (t.Pairwise BySizeLe → (l.foldl (metaslabRtAdd f) t).Pairwise BySizeLe) := by
  induction l with
  | nil => simp
  | cons a l ih =>
    intro t
    obtain ⟨hmem, hsorted⟩ := ih (metaslabRtAdd f t a)
    refine ⟨fun rs => ?_, fun ht => hsorted ?_⟩
    · rw [List.foldl_cons, hmem, metaslabRtAdd]
      split_ifs with hlt
      · constructor
        · rintro (h | ⟨h, hf⟩)
          · exact Or.inl h
          · exact Or.inr ⟨List.mem_cons_of_mem _ h, hf⟩
        · rintro (h | ⟨h, hf⟩)
          · exact Or.inl h
          · rcases List.mem_cons.mp h with rfl | h
            · omega
            · exact Or.inr ⟨h, hf⟩
      · simp only [bySizeAdd, List.mem_orderedInsert, List.mem_cons]
        constructor
        · rintro ((rfl | h) | ⟨h, hf⟩)
          · exact Or.inr ⟨Or.inl rfl, by omega⟩
          · exact Or.inl h
          · exact Or.inr ⟨Or.inr h, hf⟩
        · rintro (h | ⟨rfl | h, hf⟩)
          · exact Or.inl (Or.inr h)
          · exact Or.inl (Or.inl rfl)
          · exact Or.inr ⟨h, hf⟩
    · rw [metaslabRtAdd]
      split_ifs
      · exact ht
      · exact ht.orderedInsert a t

/-- **A full load puts the size tree in step**, with every segment in it. -/
theorem sizeTreeOk_fullLoad {msp : Metaslab} (hempty : msp.msAllocatableBySize = []) :
    SizeTreeOk (metaslabSizeTreeFullLoad msp) := by
  obtain ⟨hmem, hsorted⟩ := foldl_metaslabRtAdd 0 msp.msAllocatable []
  refine ⟨fun rs => ?_, ?_⟩
  · simp only [metaslabSizeTreeFullLoad, hempty, hmem, List.not_mem_nil, false_or]
  · simpa only [metaslabSizeTreeFullLoad, hempty] using hsorted List.Pairwise.nil

theorem SizeTreeOk.load {msp : Metaslab} (hs : SizeTreeOk msp) :
    SizeTreeOk (metaslabSizeTreeLoad msp) := by
  unfold metaslabSizeTreeLoad
  split_ifs with hempty
  · exact sizeTreeOk_fullLoad hempty
  · exact hs

@[simp] theorem metaslabSizeTreeLoad_msAllocatable (msp : Metaslab) :
    (metaslabSizeTreeLoad msp).msAllocatable = msp.msAllocatable := by
  unfold metaslabSizeTreeLoad
  split_ifs <;> rfl

@[simp] theorem metaslabSizeTreeLoad_msStart (msp : Metaslab) :
    (metaslabSizeTreeLoad msp).msStart = msp.msStart := by
  unfold metaslabSizeTreeLoad
  split_ifs <;> rfl

@[simp] theorem metaslabSizeTreeLoad_msSize (msp : Metaslab) :
    (metaslabSizeTreeLoad msp).msSize = msp.msSize := by
  unfold metaslabSizeTreeLoad
  split_ifs <;> rfl

@[simp] theorem metaslabSizeTreeLoad_msLbas (msp : Metaslab) :
    (metaslabSizeTreeLoad msp).msLbas = msp.msLbas := by
  unfold metaslabSizeTreeLoad
  split_ifs <;> rfl

theorem AllocatableOk.load {msp : Metaslab} (ha : AllocatableOk msp) :
    AllocatableOk (metaslabSizeTreeLoad msp) :=
  ⟨by simpa using ha.inside⟩

theorem metaslabLargestAllocatable_snd (msp : Metaslab) :
    (metaslabLargestAllocatable msp).2 = metaslabSizeTreeLoad msp := by
  unfold metaslabLargestAllocatable
  dsimp only
  split <;> rfl

/-- After a load the size tree holds a segment wherever the offset tree does. -/
theorem metaslabSizeTreeLoad_ne_nil {msp : Metaslab} (ha : AllocatableOk msp) {rs : MsSeg}
    (hrs : rs ∈ msp.msAllocatable) : (metaslabSizeTreeLoad msp).msAllocatableBySize ≠ [] := by
  unfold metaslabSizeTreeLoad
  split_ifs with hempty
  · have hin := ((sizeTreeOk_fullLoad hempty).mem rs).mpr
    have hpos := (ha.inside rs hrs).2.1
    refine List.ne_nil_of_mem (hin ⟨hrs, ?_⟩)
    rw [UInt64.toNat_sub_of_le _ _ (UInt64.le_iff_toNat_le.mpr hpos.le)]
    simp only [metaslabSizeTreeFullLoad, Nat.pow_zero]
    omega
  · exact hempty

/-! ## The cursor walk -/

theorem metaslabBlockPickerLoop_sound {size maxSearch firstFound : UInt64} {minSearchCount : ℕ} :
    ∀ (l : List MsSeg) (c : ℕ) {o : UInt64},
      metaslabBlockPickerLoop size maxSearch firstFound minSearchCount l c = some o →
        ∃ rs ∈ l, o = rs.rsStart ∧ rs.rsStart + size ≤ rs.rsEnd
  | [], _, _, h => by simp [metaslabBlockPickerLoop] at h
  | rs :: rest, c, o, h => by
    rw [metaslabBlockPickerLoop] at h
    split_ifs at h with hbudget hfits
    · exact ⟨rs, List.mem_cons_self, (Option.some.inj h).symm, hfits⟩
    · obtain ⟨rs', hmem, ho, hle⟩ := metaslabBlockPickerLoop_sound rest (c + 1) h
      exact ⟨rs', List.mem_cons_of_mem _ hmem, ho, hle⟩

/-- **What `metaslab_block_picker` returns is `-1`, or the start of a segment that holds `size`
bytes by the `uint64_t` test**, wherever the search lands. -/
theorem metaslabBlockPicker_cases (segs : List MsSeg) (land : UInt64 → UInt64 → ℕ)
    (rtStart cursor size maxSearch : UInt64) (minSearchCount : ℕ) :
    (metaslabBlockPicker segs land rtStart cursor size maxSearch minSearchCount).1 = -1 ∨
      ∃ rs ∈ segs, (metaslabBlockPicker segs land rtStart cursor size maxSearch minSearchCount).1 =
        rs.rsStart ∧ rs.rsStart + size ≤ rs.rsEnd := by
  unfold metaslabBlockPicker
  dsimp only
  generalize hl : segs.drop (land (if cursor = 0 then rtStart else cursor) size) = l
  cases l with
  | nil => exact Or.inl rfl
  | cons rs rest =>
    dsimp only
    split
    · rename_i offset hloop
      obtain ⟨rs', hmem, ho, hle⟩ := metaslabBlockPickerLoop_sound _ _ hloop
      have hdrop : rs' ∈ segs.drop (land (if cursor = 0 then rtStart else cursor) size) := by
        rw [hl]
        exact hmem
      exact Or.inr ⟨rs', List.mem_of_mem_drop hdrop, ho, hle⟩
    · exact Or.inl rfl

/-! ## The fallback on the size tree -/

theorem toNat_size {rs : MsSeg} (h : rs.rsStart.toNat < rs.rsEnd.toNat) :
    (rs.rsEnd - rs.rsStart).toNat = rs.rsEnd.toNat - rs.rsStart.toNat :=
  UInt64.toNat_sub_of_le _ _ (UInt64.le_iff_toNat_le.mpr h.le)

/-- `start + size ≤ end` in `uint64_t` where the sum does not wrap. -/
theorem toNat_add_le {a b c : UInt64} (h : a + b ≤ c) (hwrap : a.toNat + b.toNat < 2 ^ 64) :
    a.toNat + b.toNat ≤ c.toNat := by
  rw [UInt64.le_iff_toNat_le, UInt64.toNat_add, Nat.mod_eq_of_lt hwrap] at h
  exact h

theorem add_le_of_toNat {a b c : UInt64} (h : a.toNat + b.toNat ≤ c.toNat) : a + b ≤ c := by
  rw [UInt64.le_iff_toNat_le, UInt64.toNat_add, Nat.mod_eq_of_lt (lt_of_le_of_lt h c.toNat_lt)]
  exact h

/-- Where some segment is `size` bytes long, so is one of the size tree, once loaded. -/
theorem SizeTreeOk.exists_ge {msp : Metaslab} (hs : SizeTreeOk msp)
    (hne : msp.msAllocatableBySize ≠ []) {size : UInt64} {s : MsSeg} (hsa : s ∈ msp.msAllocatable)
    (hsz : size.toNat ≤ (s.rsEnd - s.rsStart).toNat) :
    ∃ e ∈ msp.msAllocatableBySize, size.toNat ≤ (e.rsEnd - e.rsStart).toNat := by
  by_cases hfloor : 2 ^ msp.mraFloorShift ≤ (s.rsEnd - s.rsStart).toNat
  · exact ⟨s, (hs.mem s).mpr ⟨hsa, hfloor⟩, hsz⟩
  · -- `s` is below the floor, and so shorter than anything in the tree
    obtain ⟨e, he⟩ := List.exists_mem_of_ne_nil _ hne
    exact ⟨e, he, by have := ((hs.mem e).mp he).2; omega⟩

/-- The segment the fallback reads off the size tree is a segment of the offset tree. -/
theorem mem_of_fallback {msp : Metaslab} (hs : SizeTreeOk msp) {b : Bool} {size : UInt64}
    {rs : MsSeg} (h : (if b = true then msp.msAllocatableBySize.getLast?
      else metaslabBlockFindBySize msp.msAllocatableBySize msp.msStart size) = some rs) :
    rs ∈ msp.msAllocatable := by
  have hmem : rs ∈ msp.msAllocatableBySize := by
    split_ifs at h
    · exact List.mem_of_getLast? h
    · exact List.mem_of_find?_eq_some h
  exact ((hs.mem rs).mp hmem).1

/-- **The fallback finds a segment `size` bytes long wherever there is one**, whether it takes the
largest segment or searches by size. -/
theorem fallback_found {msp : Metaslab} (ha : AllocatableOk msp) (hs : SizeTreeOk msp)
    (hne : msp.msAllocatableBySize ≠ []) (b : Bool) {size : UInt64} {s : MsSeg}
    (hsa : s ∈ msp.msAllocatable) (hsz : size.toNat ≤ (s.rsEnd - s.rsStart).toNat) :
    ∃ rs, (if b = true then msp.msAllocatableBySize.getLast?
      else metaslabBlockFindBySize msp.msAllocatableBySize msp.msStart size) = some rs ∧
        size.toNat ≤ (rs.rsEnd - rs.rsStart).toNat := by
  obtain ⟨e, he, hesz⟩ := hs.exists_ge hne hsa hsz
  split_ifs
  · -- the largest segment is at least as long as `e`
    refine ⟨_, List.getLast?_eq_some_getLast hne, ?_⟩
    have hle := bySizeLe_iff.mp (bySizeLe_getLast hs.sorted (List.getLast?_eq_some_getLast hne) e he)
    omega
  · -- the first segment not below `size` bytes from `ms_start` is at least `size` long
    unfold metaslabBlockFindBySize
    have hkey : ((msp.msStart + size) - msp.msStart).toNat = size.toNat := by
      rw [UInt64.add_comm, UInt64.add_sub_cancel]
    have hstart := (ha.inside e ((hs.mem e).mp he).1).1
    have hpe : decide (metaslabRangesize64Compare e ⟨msp.msStart, msp.msStart + size⟩ ≠ -1) = true := by
      simp only [decide_eq_true_eq, metaslabRangesize64Compare_ne_neg_one, bySizeLe_iff, hkey]
      omega
    have hsome : (msp.msAllocatableBySize.find? fun rs =>
        metaslabRangesize64Compare rs ⟨msp.msStart, msp.msStart + size⟩ ≠ -1).isSome :=
      List.find?_isSome.mpr ⟨e, he, hpe⟩
    obtain ⟨r, hr⟩ := Option.isSome_iff_exists.mp hsome
    refine ⟨r, hr, ?_⟩
    have hpr := List.find?_some hr
    simp only [decide_eq_true_eq, metaslabRangesize64Compare_ne_neg_one, bySizeLe_iff, hkey] at hpr
    omega

/-! ## `metaslab_df_alloc` -/

/-- What `metaslab_df_alloc` promises of the offset `o` it returns for `size` bytes of the segments
`segs`: an offset other than `-1` starts `size` bytes inside one segment, and `-1` comes back only
when no segment is `size` bytes long. -/
def DfAllocOk (segs : List MsSeg) (size o : UInt64) : Prop :=
  (o ≠ -1 → ∃ rs ∈ segs, rs.rsStart.toNat ≤ o.toNat ∧ o.toNat + size.toNat ≤ rs.rsEnd.toNat) ∧
    (o = -1 → ∀ rs ∈ segs, (rs.rsEnd - rs.rsStart).toNat < size.toNat)

theorem dfAllocOk_neg_one {segs : List MsSeg} {size : UInt64}
    (h : ∀ rs ∈ segs, (rs.rsEnd - rs.rsStart).toNat < size.toNat) : DfAllocOk segs size (-1) :=
  ⟨fun hne => absurd rfl hne, fun _ => h⟩

/-- The start of a segment of a metaslab, where `size` bytes fit by the `uint64_t` test and the
metaslab's end plus `size` does not wrap. -/
theorem dfAllocOk_of_mem {msp : Metaslab} (ha : AllocatableOk msp) {size : UInt64}
    (hwrap : msp.msStart.toNat + msp.msSize.toNat + size.toNat ≤ 2 ^ 64) {rs : MsSeg}
    (hrs : rs ∈ msp.msAllocatable) (hfit : rs.rsStart + size ≤ rs.rsEnd) :
    DfAllocOk msp.msAllocatable size rs.rsStart := by
  have hin := ha.inside rs hrs
  refine ⟨fun _ => ⟨rs, hrs, le_rfl, toNat_add_le hfit (by omega)⟩, fun hneg => ?_⟩
  -- a segment ends within 64 bits, so it cannot start at `-1`
  have hend := rs.rsEnd.toNat_lt
  rw [hneg] at hin
  exact absurd hin.2.1 (by simp; omega)

/-- Where the size tree has no segment to hand out, no segment is `size` bytes long. -/
theorem fallback_none {msp : Metaslab} (ha : AllocatableOk msp) (hs : SizeTreeOk msp)
    (b : Bool) {size : UInt64}
    (hnone : ∀ rs, (if b = true then (metaslabSizeTreeLoad msp).msAllocatableBySize.getLast?
      else metaslabBlockFindBySize (metaslabSizeTreeLoad msp).msAllocatableBySize
        (metaslabSizeTreeLoad msp).msStart size) = some rs → ¬rs.rsStart + size ≤ rs.rsEnd) :
    ∀ s ∈ msp.msAllocatable, (s.rsEnd - s.rsStart).toNat < size.toNat := by
  intro s hsa
  by_contra hbig
  have hsa' : s ∈ (metaslabSizeTreeLoad msp).msAllocatable := by simpa using hsa
  have hsz' : size.toNat ≤ (s.rsEnd - s.rsStart).toNat := by omega
  obtain ⟨rs, hrs, hsz⟩ := fallback_found ha.load hs.load (metaslabSizeTreeLoad_ne_nil ha hsa) b
    hsa' hsz'
  have hin := ha.inside rs (by simpa using mem_of_fallback hs.load hrs)
  refine hnone rs hrs (add_le_of_toNat ?_)
  rw [toNat_size hin.2.1] at hsz
  omega

/-- **The fallback of `metaslab_df_alloc` keeps its promise.** -/
theorem metaslabDfFallback_spec (tun : MetaslabTunables) {msp : Metaslab} (ha : AllocatableOk msp)
    (hs : SizeTreeOk msp) (idx : ℕ) (cursor : UInt64) {size : UInt64}
    (hwrap : msp.msStart.toNat + msp.msSize.toNat + size.toNat ≤ 2 ^ 64) :
    DfAllocOk msp.msAllocatable size (metaslabDfFallback tun msp idx cursor size).1 := by
  unfold metaslabDfFallback
  dsimp only
  generalize hR : (if tun.metaslabDfUseLargestSegment = true then
    (metaslabSizeTreeLoad msp).msAllocatableBySize.getLast?
    else metaslabBlockFindBySize (metaslabSizeTreeLoad msp).msAllocatableBySize
      (metaslabSizeTreeLoad msp).msStart size) = R
  cases R with
  | none =>
    exact dfAllocOk_neg_one (fallback_none ha hs tun.metaslabDfUseLargestSegment
      fun rs h => by rw [hR] at h; cases h)
  | some rs =>
    dsimp only
    split_ifs with hfit
    · have hmem : rs ∈ msp.msAllocatable := by
        simpa using mem_of_fallback hs.load hR
      exact dfAllocOk_of_mem ha hwrap hmem hfit
    · refine dfAllocOk_neg_one (fallback_none ha hs tun.metaslabDfUseLargestSegment fun rs' h => ?_)
      rw [hR, Option.some.injEq] at h
      rw [← h]
      exact hfit

/-- The body keeps the promise on every branch, where the metaslab's end plus `size` does not
wrap. -/
theorem metaslabDfAllocAt_spec (tun : MetaslabTunables) (land : UInt64 → UInt64 → ℕ)
    {msp : Metaslab} (ha : AllocatableOk msp) (hs : SizeTreeOk msp) (idx : ℕ) {size : UInt64}
    (hwrap : msp.msStart.toNat + msp.msSize.toNat + size.toNat ≤ 2 ^ 64) :
    DfAllocOk msp.msAllocatable size (metaslabDfAllocAt tun land msp idx size).1 := by
  unfold metaslabDfAllocAt
  dsimp only
  generalize hL : metaslabLargestAllocatable msp = L
  obtain ⟨largest, msp1⟩ := L
  dsimp only
  have hmsp1 : msp1 = metaslabSizeTreeLoad msp := by
    rw [← metaslabLargestAllocatable_snd, hL]
  subst hmsp1
  have hwrap' : (metaslabSizeTreeLoad msp).msStart.toNat + (metaslabSizeTreeLoad msp).msSize.toNat +
      size.toNat ≤ 2 ^ 64 := by simpa using hwrap
  have hfallback := fun cursor => metaslabDfFallback_spec tun ha.load hs.load idx cursor hwrap'
  rw [metaslabSizeTreeLoad_msAllocatable] at hfallback
  split_ifs with hcond hoff hpick
  · -- space is short: straight to the size tree
    exact hfallback _
  · exact absurd rfl hoff
  · -- the cursor walk found nothing
    exact hfallback _
  · -- the cursor walk found a segment
    rcases metaslabBlockPicker_cases (metaslabSizeTreeLoad msp).msAllocatable land
      (metaslabSizeTreeLoad msp).rtStart _ size tun.metaslabDfMaxSearch tun.metaslabMinSearchCount
      with hneg | ⟨rs, hrs, ho, hfit⟩
    · exact absurd hneg hpick
    · rw [ho]
      exact dfAllocOk_of_mem ha hwrap (by simpa using hrs) hfit

/-! ## What the allocator changes -/

theorem metaslabSizeTreeLoad_load (msp : Metaslab) :
    metaslabSizeTreeLoad (metaslabSizeTreeLoad msp) = metaslabSizeTreeLoad msp := by
  unfold metaslabSizeTreeLoad
  split_ifs with hempty hempty'
  · -- a load that found nothing to load leaves the tree empty, and loading again changes nothing
    simp only [metaslabSizeTreeFullLoad, hempty] at hempty' ⊢
    simp only [hempty']
  · rfl
  · rfl

theorem metaslabDfFallback_snd (tun : MetaslabTunables) (msp : Metaslab) (idx : ℕ)
    (cursor size : UInt64) :
    ∃ c, (metaslabDfFallback tun msp idx cursor size).2 =
      { metaslabSizeTreeLoad msp with msLbas := Function.update msp.msLbas idx c } := by
  unfold metaslabDfFallback
  dsimp only
  simp only [metaslabSizeTreeLoad_msLbas]
  split
  · split_ifs
    · exact ⟨_, rfl⟩
    · exact ⟨_, rfl⟩
  · exact ⟨_, rfl⟩

/-- The body moves the cursor `ms_lbas[idx]` and reloads an empty size tree, and nothing else. -/
theorem metaslabDfAllocAt_snd (tun : MetaslabTunables) (land : UInt64 → UInt64 → ℕ)
    (msp : Metaslab) (idx : ℕ) (size : UInt64) :
    ∃ c, (metaslabDfAllocAt tun land msp idx size).2 =
      { metaslabSizeTreeLoad msp with msLbas := Function.update msp.msLbas idx c } := by
  unfold metaslabDfAllocAt
  dsimp only
  generalize hL : metaslabLargestAllocatable msp = L
  obtain ⟨largest, msp1⟩ := L
  dsimp only
  have hmsp1 : msp1 = metaslabSizeTreeLoad msp := by
    rw [← metaslabLargestAllocatable_snd, hL]
  subst hmsp1
  have hfallback := fun cursor =>
    metaslabDfFallback_snd tun (metaslabSizeTreeLoad msp) idx cursor size
  simp only [metaslabSizeTreeLoad_load, metaslabSizeTreeLoad_msLbas] at hfallback
  simp only [metaslabSizeTreeLoad_msLbas]
  split_ifs
  all_goals first
    | exact ⟨_, rfl⟩
    | exact hfallback _

/-- A metaslab that differs from one in step only by a reload and a cursor is in step. -/
theorem invariants_of_cursor {msp : Metaslab} (ha : AllocatableOk msp) (hs : SizeTreeOk msp)
    (f : ℕ → UInt64) :
    AllocatableOk { metaslabSizeTreeLoad msp with msLbas := f } ∧
      SizeTreeOk { metaslabSizeTreeLoad msp with msLbas := f } :=
  ⟨⟨ha.load.inside⟩, ⟨hs.load.mem, hs.load.sorted⟩⟩

/-! ## The call

`metaslab_df_alloc` is defined for a request of at least one byte on a metaslab of at least one
byte: then `size & -size` has a set bit, so the cursor index is in the array, and `ms_size` divides.
-/

/-- The lowest set bit of a nonzero bit vector is set in its negation too. -/
theorem bitVec_and_neg_ne_zero {w : ℕ} {x : BitVec w} (hx : x ≠ 0) : x &&& -x ≠ 0 := by
  have hex : ∃ i, x.getLsbD i = true := by
    by_contra hno
    exact hx (BitVec.eq_of_getLsbD_eq fun i _ => by simpa using not_exists.mp hno i)
  classical
  let i := Nat.find hex
  have hi : x.getLsbD i = true := Nat.find_spec hex
  have hbelow : ¬∃ j < i, x.getLsbD j = true := fun ⟨j, hj, hxj⟩ => Nat.find_min hex hj hxj
  have hw : i < w := BitVec.lt_of_getLsbD hi
  intro h0
  have hbit := congrArg (BitVec.getLsbD · i) h0
  simp only [BitVec.getLsbD_and, BitVec.getLsbD_neg, hi, hw, hbelow] at hbit
  simp at hbit

/-- `highbit64(size & -size)` is at least one for a nonzero request. -/
theorem highbit64_align_ne_zero {size : UInt64} (hsize : 0 < size) :
    highbit64 (size &&& (0 - size)).toNat ≠ 0 := by
  have hne : size &&& (0 - size) ≠ 0 := by
    intro h
    refine bitVec_and_neg_ne_zero (x := size.toBitVec) (fun h0 => ?_) ?_
    · exact UInt64.pos_iff_ne_zero.mp hsize (UInt64.toBitVec_inj.mp h0)
    · simpa using congrArg UInt64.toBitVec h
  have hnat : (size &&& (0 - size)).toNat ≠ 0 := fun h => hne (UInt64.toNat_inj.mp h)
  simp only [highbit64, hnat, if_false]
  omega

theorem metaslabDfAlloc_eq_some (tun : MetaslabTunables) (land : UInt64 → UInt64 → ℕ)
    (msp : Metaslab) {size : UInt64} (hms : 0 < msp.msSize) (hsize : 0 < size) :
    metaslabDfAlloc tun land msp size =
      some (metaslabDfAllocAt tun land msp (highbit64 (size &&& (0 - size)).toNat - 1) size) := by
  unfold metaslabDfAlloc
  dsimp only
  rw [if_neg (not_or.mpr ⟨highbit64_align_ne_zero hsize, UInt64.pos_iff_ne_zero.mp hms⟩)]

/-- The defaults of the tunables: `SPA_OLD_MAXBLOCKSIZE`, 4 %, 16 MiB, 100 segments, and no
largest-segment fallback. -/
def metaslabDfDefaults : MetaslabTunables := ⟨2 ^ 17, 4, 16 * 1024 * 1024, 100, false⟩

/-- A metaslab of 4 MiB at offset `0` with one free segment, the second MiB, in both trees. -/
def oneSegMetaslab : Metaslab :=
  ⟨0, 2 ^ 22, fun _ => 0, [⟨2 ^ 20, 2 ^ 21⟩], 0, 2 ^ 20, [⟨2 ^ 20, 2 ^ 21⟩], 14⟩

theorem oneSegMetaslab_ok : AllocatableOk oneSegMetaslab ∧ SizeTreeOk oneSegMetaslab := by
  refine ⟨⟨fun rs hrs => ?_⟩, ⟨fun rs => ?_, List.pairwise_singleton _ _⟩⟩
  · rw [List.mem_singleton.mp hrs]
    decide +kernel
  · simp only [oneSegMetaslab, List.mem_singleton, iff_self_and]
    rintro rfl
    decide +kernel

/-- A request of no bytes is undefined: its cursor lies before `ms_lbas`. -/
example : metaslabDfAlloc metaslabDfDefaults (fun _ _ => 0) oneSegMetaslab 0 = none := rfl

end Zfs
