import Mathlib

/-!
# Vdev/IndirectMapping — `vdev_indirect_mapping_entry_for_offset_impl`

The mapping of a removed vdev is an array of entries, each a source range `[src, src + asize)`,
in the order `vdev_indirect_mapping_add_entries` writes them: each starts at or past the end of
the one before.  The lookup is a binary search on unsigned `base` and `last` with
`last = mid - 1`; when no entry holds the offset, the entry after it is rebuilt from the last
`mid` and `result`.

The search is modelled with the loop variables as `UInt64` and the array read as a list read that
may fall outside; the loop gets a pass for each bit of the window.

* `searchInv_step_lt`, `searchInv_step_gt` — a pass keeps the bracketing invariant and halves the
  window, as long as the offset is not below the first entry;
* `mappingSearchLoop_ok` — the loop ends inside the array, on an entry holding the offset or with
  `base = last + 1` and every entry sorted to its side;
* **`vdevIndirectMappingEntryForOffsetImpl_eq_spec`** — for an offset at or past the start of the
  first entry the lookup is `entryForOffsetSpec`: the entry that holds the offset, else `NULL` or
  the first entry past it;
* `vdevIndirectMappingEntryForOffsetImpl_below_first` — below the first entry `mid = 0` takes
  `last` to `UINT64_MAX`, the loop goes on, and reads `vim_entries[2^63 - 1]`.
-/

namespace Zfs

/-! ## The mapping and the search -/

/-- A `vdev_indirect_mapping_entry_phys_t` as the lookup reads it: `DVA_MAPPING_GET_SRC_OFFSET`
and `DVA_GET_ASIZE(&vimep_dst)`. -/
structure MappingEntry where
  srcOffset : UInt64
  asize : UInt64
  deriving DecidableEq, Repr

/-- `dva_mapping_overlap_compare(&key, elem)`, with `-1`, `0`, `1` as `lt`, `eq`, `gt`. -/
def dvaMappingOverlapCompare (key : UInt64) (e : MappingEntry) : Ordering :=
  if key < e.srcOffset then .lt
  else if key < e.srcOffset + e.asize then .eq
  else .gt

/-- The variables of the loop: `base`, `last`, and the `mid` and `result` of the last pass. -/
structure MappingSearch where
  base : UInt64
  last : UInt64
  mid : UInt64
  result : Ordering

/-- How the loop ends: on the entry at `mid`, with `last < base`, or at a read `vim_entries[mid]`
past the array; `fuel` if it has not ended. -/
inductive MappingSearchEnd where
  | found (mid : UInt64)
  | exhausted (st : MappingSearch)
  | outOfBounds (mid : UInt64)
  | fuel

/-- The loop `while (last >= base)`, a pass for each unit of fuel. -/
def mappingSearchLoop (entries : List MappingEntry) (offset : UInt64) :
    ℕ → MappingSearch → MappingSearchEnd
  | 0, _ => .fuel
  | fuel + 1, st =>
    if st.last ≥ st.base then
      let mid := st.base + ((st.last - st.base) >>> 1)
      match entries[mid.toNat]? with
      | none => .outOfBounds mid
      | some e =>
        match dvaMappingOverlapCompare offset e with
        | .eq => .found mid
        | .lt => mappingSearchLoop entries offset fuel ⟨st.base, mid - 1, mid, .lt⟩
        | .gt => mappingSearchLoop entries offset fuel ⟨mid + 1, st.last, mid, .gt⟩
    else .exhausted st

/-- What the lookup returns: the entry at an index, `NULL`, or the outcome of a loop that read
outside the array or ran past its fuel. -/
inductive MappingLookup where
  | entry (index : UInt64)
  | null
  | outOfBounds (index : UInt64)
  | fuel
  deriving DecidableEq, Repr

/-- `vdev_indirect_mapping_entry_for_offset_impl(vim, offset, next_if_missing)` over the
`vimp_num_entries` entries of `vim_entries`.  `mid` and `result` start at values that no path
reads once the array is not empty. -/
def vdevIndirectMappingEntryForOffsetImpl (entries : List MappingEntry) (offset : UInt64)
    (nextIfMissing : Bool) : MappingLookup :=
  let numEntries := entries.length.toUInt64
  match mappingSearchLoop entries offset 65 ⟨0, numEntries - 1, 0, .eq⟩ with
  | .found mid => .entry mid
  | .exhausted st =>
    if nextIfMissing then
      -- the offset lies between `mid - 1` and `mid + 1`: `result` says on which side of `mid`
      let index := if st.result = .lt then st.mid else st.mid + 1
      if index = numEntries then .null else .entry index
    else .null
  | .outOfBounds mid => .outOfBounds mid
  | .fuel => .fuel

/-! ## What the lookup is for -/

/-- The source range of an entry holds `offset`. -/
def MappingEntry.holds (e : MappingEntry) (offset : UInt64) : Bool :=
  e.srcOffset.toNat ≤ offset.toNat && offset.toNat < e.srcOffset.toNat + e.asize.toNat

/-- The entry whose range holds `offset`; failing that, with `nextIfMissing`, the first entry
that starts past `offset`, and `NULL` if there is none. -/
def entryForOffsetSpec (entries : List MappingEntry) (offset : UInt64) (nextIfMissing : Bool) :
    MappingLookup :=
  match entries.findIdx? (·.holds offset) with
  | some i => .entry i.toUInt64
  | none =>
    if nextIfMissing then
      match entries.findIdx? (fun e => offset.toNat < e.srcOffset.toNat) with
      | some i => .entry i.toUInt64
      | none => .null
    else .null

/-- The mapping as `vdev_indirect_mapping_add_entries` keeps it: each entry ends at or before
the start of every later one, no range wraps, and the count fits `vimp_num_entries`. -/
structure MappingOk (entries : List MappingEntry) : Prop where
  sorted : entries.Pairwise fun a b => a.srcOffset.toNat + a.asize.toNat ≤ b.srcOffset.toNat
  no_wrap : ∀ e ∈ entries, e.srcOffset.toNat + e.asize.toNat < 2 ^ 64
  length_lt : entries.length < 2 ^ 64

/-! ## The comparison in `ℕ` -/

/-- Where no range wraps, the comparison is one of `offset` with the two ends of the range. -/
theorem dvaMappingOverlapCompare_eq {offset : UInt64} {e : MappingEntry}
    (h : e.srcOffset.toNat + e.asize.toNat < 2 ^ 64) :
    dvaMappingOverlapCompare offset e =
      if offset.toNat < e.srcOffset.toNat then .lt
      else if offset.toNat < e.srcOffset.toNat + e.asize.toNat then .eq else .gt := by
  have hadd : (e.srcOffset + e.asize).toNat = e.srcOffset.toNat + e.asize.toNat := by
    rw [UInt64.toNat_add, Nat.mod_eq_of_lt h]
  simp only [dvaMappingOverlapCompare, UInt64.lt_iff_toNat_lt, hadd]

section Ok

variable {entries : List MappingEntry} {offset : UInt64}

theorem MappingOk.compare_getElem (ok : MappingOk entries) {i : ℕ} (hi : i < entries.length) :
    dvaMappingOverlapCompare offset entries[i] =
      if offset.toNat < entries[i].srcOffset.toNat then .lt
      else if offset.toNat < entries[i].srcOffset.toNat + entries[i].asize.toNat then .eq
      else .gt :=
  dvaMappingOverlapCompare_eq (ok.no_wrap _ (List.getElem_mem hi))

theorem MappingOk.end_le_start (ok : MappingOk entries) {i j : ℕ} (hij : i < j)
    (hj : j < entries.length) :
    entries[i].srcOffset.toNat + entries[i].asize.toNat ≤ entries[j].srcOffset.toNat :=
  List.pairwise_iff_getElem.mp ok.sorted i j (by omega) hj hij

/-- An entry after one that does not end by `offset` starts after `offset`. -/
theorem MappingOk.compare_lt_of_lt (ok : MappingOk entries) {i j : ℕ} (hij : i < j)
    (hj : j < entries.length) (h : dvaMappingOverlapCompare offset entries[i] ≠ .gt) :
    dvaMappingOverlapCompare offset entries[j] = .lt := by
  have hend := ok.end_le_start hij hj
  rw [ok.compare_getElem] at h ⊢
  split_ifs at h ⊢ <;> first | rfl | omega | exact absurd rfl h

/-- An entry before one that does not start after `offset` ends by `offset`. -/
theorem MappingOk.compare_gt_of_lt (ok : MappingOk entries) {i j : ℕ} (hij : i < j)
    (hj : j < entries.length) (h : dvaMappingOverlapCompare offset entries[j] ≠ .lt) :
    dvaMappingOverlapCompare offset entries[i] = .gt := by
  have hend := ok.end_le_start hij hj
  rw [ok.compare_getElem] at h ⊢
  split_ifs at h ⊢ <;> first | rfl | omega | exact absurd rfl h

end Ok

/-! ## The loop -/

/-- The invariant of the loop: the entries below `base` end by `offset`, those past `last` start
after it, the window `[base, last]` is in the array (empty once `base = last + 1`), and an empty
window was left by a pass whose `mid` and `result` point at `base`. -/
structure SearchInv (entries : List MappingEntry) (offset : UInt64) (st : MappingSearch) :
    Prop where
  below : ∀ i (hi : i < entries.length), i < st.base.toNat →
    dvaMappingOverlapCompare offset entries[i] = .gt
  above : ∀ i (hi : i < entries.length), st.last.toNat < i →
    dvaMappingOverlapCompare offset entries[i] = .lt
  window : st.base.toNat ≤ st.last.toNat + 1
  last_lt : st.last.toNat < entries.length
  exit : st.base ≤ st.last ∨ (if st.result = .lt then st.mid else st.mid + 1) = st.base

/-- The width of the window. -/
def MappingSearch.width (st : MappingSearch) : ℕ := st.last.toNat + 1 - st.base.toNat

theorem mid_toNat {base last : UInt64} (h : base ≤ last) :
    (base + ((last - base) >>> 1)).toNat = base.toNat + (last.toNat - base.toNat) / 2 := by
  have hle := UInt64.le_iff_toNat_le.mp h
  have hlast := last.toNat_lt
  rw [UInt64.toNat_add, UInt64.toNat_shiftRight, UInt64.toNat_sub_of_le _ _ h]
  simp only [UInt64.toNat_one, Nat.one_mod, Nat.shiftRight_eq_div_pow, Nat.pow_one]
  exact Nat.mod_eq_of_lt (by omega)

section Step

variable {entries : List MappingEntry} {offset : UInt64} {st : MappingSearch} {mid : UInt64}

/-- A pass that finds the offset before `mid` keeps the invariant and halves the window; `mid - 1`
does not wrap, since the first entry does not start after the offset. -/
theorem searchInv_step_lt (ok : MappingOk entries)
    (h0 : ∀ hn : 0 < entries.length, dvaMappingOverlapCompare offset entries[0] ≠ .lt)
    (inv : SearchInv entries offset st) (hle : st.base ≤ st.last)
    (hm : mid = st.base + ((st.last - st.base) >>> 1)) (hmid : mid.toNat < entries.length)
    (hlt : dvaMappingOverlapCompare offset entries[mid.toNat] = .lt) :
    SearchInv entries offset ⟨st.base, mid - 1, mid, .lt⟩ ∧
      (MappingSearch.mk st.base (mid - 1) mid .lt).width ≤ st.width / 2 := by
  have hmn := mid_toNat hle
  rw [← hm] at hmn
  have hpos : 1 ≤ mid.toNat := by
    rcases Nat.eq_zero_or_pos mid.toNat with h | h
    · have hlt0 : dvaMappingOverlapCompare offset entries[0] = .lt := by simpa only [h] using hlt
      exact absurd hlt0 (h0 (by omega))
    · exact h
  have hsub : (mid - 1).toNat = mid.toNat - 1 := by
    rw [UInt64.toNat_sub_of_le _ _ (UInt64.le_iff_toNat_le.mpr (by simpa using hpos))]
    rfl
  have hb := UInt64.le_iff_toNat_le.mp hle
  refine ⟨⟨inv.below, fun i hi hgt => ?_, ?_, ?_, ?_⟩, ?_⟩
  · rcases Nat.lt_or_eq_of_le (show mid.toNat ≤ i by simp only at hgt; omega) with h | h
    · exact ok.compare_lt_of_lt h hi (by rw [hlt]; decide)
    · simpa only [h] using hlt
  · simp only [hsub]
    omega
  · simp only [hsub]
    omega
  · by_cases hb' : st.base ≤ mid - 1
    · exact Or.inl hb'
    · refine Or.inr (UInt64.toNat_inj.mp ?_)
      dsimp only at hb' ⊢
      rw [UInt64.le_iff_toNat_le, hsub] at hb'
      rw [if_pos rfl]
      omega
  · simp only [MappingSearch.width, hsub]
    omega

/-- A pass that finds the offset past `mid` keeps the invariant and halves the window. -/
theorem searchInv_step_gt (ok : MappingOk entries) (inv : SearchInv entries offset st)
    (hle : st.base ≤ st.last) (hm : mid = st.base + ((st.last - st.base) >>> 1))
    (hmid : mid.toNat < entries.length)
    (hgt : dvaMappingOverlapCompare offset entries[mid.toNat] = .gt) :
    SearchInv entries offset ⟨mid + 1, st.last, mid, .gt⟩ ∧
      (MappingSearch.mk (mid + 1) st.last mid .gt).width ≤ st.width / 2 := by
  have hmn := mid_toNat hle
  rw [← hm] at hmn
  have hadd : (mid + 1).toNat = mid.toNat + 1 := by
    rw [UInt64.toNat_add, UInt64.toNat_one, Nat.mod_eq_of_lt (by have := ok.length_lt; omega)]
  have hb := UInt64.le_iff_toNat_le.mp hle
  refine ⟨⟨fun i hi hlt => ?_, inv.above, ?_, inv.last_lt, Or.inr rfl⟩, ?_⟩
  · rcases Nat.lt_or_eq_of_le (show i ≤ mid.toNat by simp only [hadd] at hlt; omega) with h | h
    · exact ok.compare_gt_of_lt h hmid (by rw [hgt]; decide)
    · simpa only [h] using hgt
  · simp only [hadd]
    omega
  · simp only [MappingSearch.width, hadd]
    omega

end Step

/-- How the loop may end once the invariant holds: on an entry in the array that holds the offset,
or with an empty window. -/
def SearchEndOk (entries : List MappingEntry) (offset : UInt64) : MappingSearchEnd → Prop
  | .found mid => ∃ h : mid.toNat < entries.length, dvaMappingOverlapCompare offset entries[mid.toNat] = .eq
  | .exhausted st => SearchInv entries offset st ∧ st.last < st.base
  | .outOfBounds _ => False
  | .fuel => False

/-- **The loop stays in the array and ends.**  From a state that keeps the invariant, with a pass
for each bit of the window and one more, the loop ends on an entry that holds the offset or with
an empty window; it never reads outside the array. -/
theorem mappingSearchLoop_ok {entries : List MappingEntry} {offset : UInt64} (ok : MappingOk entries)
    (h0 : ∀ hn : 0 < entries.length, dvaMappingOverlapCompare offset entries[0] ≠ .lt)
    (fuel : ℕ) (st : MappingSearch) (inv : SearchInv entries offset st)
    (hfuel : st.width < 2 ^ fuel) :
    SearchEndOk entries offset (mappingSearchLoop entries offset (fuel + 1) st) := by
  induction fuel generalizing st with
  | zero =>
    have hempty : ¬ st.base ≤ st.last := by
      rw [UInt64.le_iff_toNat_le]
      simp only [MappingSearch.width, Nat.pow_zero] at hfuel
      omega
    simp only [mappingSearchLoop, ge_iff_le, if_neg hempty]
    exact ⟨inv, UInt64.not_le.mp hempty⟩
  | succ fuel ih =>
    rw [mappingSearchLoop]
    split_ifs with hle
    · -- the pass reads `mid`, which lies in the window and so in the array
      have hmn := mid_toNat hle
      have hmid : (st.base + ((st.last - st.base) >>> 1)).toNat < entries.length := by
        have := inv.last_lt
        have := UInt64.le_iff_toNat_le.mp hle
        omega
      simp only [List.getElem?_eq_getElem hmid]
      cases hc : dvaMappingOverlapCompare offset entries[(st.base + ((st.last - st.base) >>> 1)).toNat]
      · obtain ⟨inv', hw⟩ := searchInv_step_lt ok h0 inv hle rfl hmid hc
        exact ih _ inv' (by rw [Nat.pow_succ] at hfuel; omega)
      · exact ⟨hmid, hc⟩
      · obtain ⟨inv', hw⟩ := searchInv_step_gt ok inv hle rfl hmid hc
        exact ih _ inv' (by rw [Nat.pow_succ] at hfuel; omega)
    · exact ⟨inv, UInt64.not_le.mp hle⟩

/-! ## The lookup meets its contract -/

section Lookup

variable {entries : List MappingEntry} {offset : UInt64}

theorem MappingOk.holds_iff (ok : MappingOk entries) {i : ℕ} (hi : i < entries.length) :
    entries[i].holds offset = true ↔ dvaMappingOverlapCompare offset entries[i] = .eq := by
  rw [ok.compare_getElem hi]
  simp only [MappingEntry.holds, Bool.and_eq_true, decide_eq_true_eq]
  split_ifs <;> simp <;> omega

theorem MappingOk.starts_after_iff (ok : MappingOk entries) {i : ℕ} (hi : i < entries.length) :
    offset.toNat < entries[i].srcOffset.toNat ↔ dvaMappingOverlapCompare offset entries[i] = .lt := by
  rw [ok.compare_getElem hi]
  split_ifs <;> simp <;> omega

/-- The entry that holds the offset is the first to. -/
theorem MappingOk.findIdx?_holds (ok : MappingOk entries) {i : ℕ} (hi : i < entries.length)
    (heq : dvaMappingOverlapCompare offset entries[i] = .eq) :
    entries.findIdx? (·.holds offset) = some i := by
  refine List.findIdx?_eq_some_iff_getElem.mpr ⟨hi, (ok.holds_iff hi).mpr heq, fun j hj => ?_⟩
  rw [ok.holds_iff, ok.compare_gt_of_lt hj hi (by rw [heq]; decide)]
  decide

theorem searchInv_init (ok : MappingOk entries) (hn : entries ≠ []) :
    SearchInv entries offset ⟨0, entries.length.toUInt64 - 1, 0, .eq⟩ := by
  have hlen := List.length_pos_iff.mpr hn
  have hnat : entries.length.toUInt64.toNat = entries.length := by
    simp only [Nat.toUInt64_eq, UInt64.toNat_ofNat', Nat.mod_eq_of_lt ok.length_lt]
  have hlast : (entries.length.toUInt64 - 1).toNat = entries.length - 1 := by
    rw [UInt64.toNat_sub_of_le _ _ (UInt64.le_iff_toNat_le.mpr (by simp only [hnat]; simpa)),
      hnat, UInt64.toNat_one]
  refine ⟨fun i _ h => absurd h (by simp), fun i hi h => absurd hi (by simp only [hlast] at h; omega),
    ?_, ?_, Or.inl UInt64.zero_le⟩
  · simp
  · simp only [hlast]
    omega

/-- An empty window is `base = last + 1`, and the last pass points at `base`. -/
theorem SearchInv.base_eq {st : MappingSearch} (inv : SearchInv entries offset st)
    (hlt : st.last < st.base) :
    st.base.toNat = st.last.toNat + 1 ∧
      (if st.result = .lt then st.mid else st.mid + 1) = st.base := by
  have := UInt64.lt_iff_toNat_lt.mp hlt
  have := inv.window
  exact ⟨by omega, inv.exit.resolve_left (UInt64.not_le.mpr hlt)⟩

/-- Past an empty window no entry holds the offset. -/
theorem SearchInv.findIdx?_holds {st : MappingSearch} (ok : MappingOk entries)
    (inv : SearchInv entries offset st) (hb : st.base.toNat = st.last.toNat + 1) :
    entries.findIdx? (·.holds offset) = none := by
  refine List.findIdx?_eq_none_iff.mpr fun x hx => ?_
  obtain ⟨i, hi, rfl⟩ := List.getElem_of_mem hx
  rw [Bool.eq_false_iff, ne_eq, ok.holds_iff hi]
  rcases Nat.lt_or_ge i st.base.toNat with h | h
  · rw [inv.below i hi h]
    decide
  · rw [inv.above i hi (by omega)]
    decide

/-- Past an empty window the first entry that starts after the offset is the one at `base`. -/
theorem SearchInv.findIdx?_starts_after {st : MappingSearch} (ok : MappingOk entries)
    (inv : SearchInv entries offset st) (hb : st.base.toNat = st.last.toNat + 1) :
    entries.findIdx? (fun e => offset.toNat < e.srcOffset.toNat) =
      if st.base.toNat < entries.length then some st.base.toNat else none := by
  have hbelow : ∀ j (hj : j < entries.length), j < st.base.toNat →
      ¬ offset.toNat < entries[j].srcOffset.toNat := fun j hj h => by
    rw [ok.starts_after_iff hj, inv.below j hj h]
    decide
  split_ifs with hlt
  · refine List.findIdx?_eq_some_iff_getElem.mpr ⟨hlt, ?_, fun j hj => ?_⟩
    · simpa only [decide_eq_true_eq] using (ok.starts_after_iff hlt).mpr (inv.above _ hlt (by omega))
    · simpa only [decide_eq_true_eq] using hbelow j (by omega) hj
  · refine List.findIdx?_eq_none_iff.mpr fun x hx => ?_
    obtain ⟨i, hi, rfl⟩ := List.getElem_of_mem hx
    simpa only [decide_eq_false_iff_not] using hbelow i hi (by omega)

/-- **The lookup meets its contract above the first entry.**  For a mapping in the order
`vdev_indirect_mapping_add_entries` keeps and an offset at or past the start of its first entry,
the search reads only entries of the array and returns the entry that holds the offset; failing
that, `NULL`, or with `next_if_missing` the first entry that starts past the offset. -/
theorem vdevIndirectMappingEntryForOffsetImpl_eq_spec (ok : MappingOk entries) (hn : entries ≠ [])
    (h0 : (entries.head hn).srcOffset.toNat ≤ offset.toNat) (nextIfMissing : Bool) :
    vdevIndirectMappingEntryForOffsetImpl entries offset nextIfMissing =
      entryForOffsetSpec entries offset nextIfMissing := by
  have h0' : ∀ hn : 0 < entries.length, dvaMappingOverlapCompare offset entries[0] ≠ .lt := by
    intro hn'
    rw [ne_eq, ← ok.starts_after_iff hn', ← List.head_eq_getElem hn]
    omega
  have hinit : SearchInv entries offset ⟨0, entries.length.toUInt64 - 1, 0, .eq⟩ :=
    searchInv_init ok hn
  have hend := mappingSearchLoop_ok ok h0' 64 _ hinit (by
    have hl := hinit.last_lt
    have := ok.length_lt
    dsimp only [MappingSearch.width] at hl ⊢
    rw [UInt64.toNat_zero]
    omega)
  unfold vdevIndirectMappingEntryForOffsetImpl entryForOffsetSpec
  dsimp only
  generalize mappingSearchLoop entries offset (64 + 1) _ = r at hend ⊢
  cases r with
  | found mid =>
    obtain ⟨hmid, heq⟩ := hend
    simp only [ok.findIdx?_holds hmid heq, Nat.toUInt64_eq, UInt64.ofNat_toNat]
  | exhausted st =>
    obtain ⟨inv, hlt⟩ := hend
    obtain ⟨hb, hidx⟩ := inv.base_eq hlt
    simp only [inv.findIdx?_holds ok hb, hidx, inv.findIdx?_starts_after ok hb]
    have hlen : st.base = UInt64.ofNat entries.length ↔ st.base.toNat = entries.length := by
      rw [← UInt64.toNat_inj, UInt64.toNat_ofNat', Nat.mod_eq_of_lt ok.length_lt]
    have hle := inv.last_lt
    cases nextIfMissing
    · rfl
    · by_cases hbn : st.base.toNat < entries.length
      · simp only [if_pos hbn, if_neg (show ¬ st.base = UInt64.ofNat entries.length by rw [hlen]; omega),
          Nat.toUInt64_eq, UInt64.ofNat_toNat, if_true]
      · simp only [if_neg hbn, if_pos (hlen.mpr (by omega)), if_true]
  | outOfBounds mid => exact hend.elim
  | fuel => exact hend.elim

/-- Three entries `[4096, 8192)`, `[16384, 20480)` and `[32768, 40960)`. -/
def threeEntryMapping : List MappingEntry := [⟨4096, 4096⟩, ⟨16384, 4096⟩, ⟨32768, 8192⟩]

theorem threeEntryMapping_ok : MappingOk threeEntryMapping :=
  ⟨by decide, by decide, by decide⟩

/-- The offset `24576` falls in the gap before the third entry. -/
theorem vdevIndirectMappingEntryForOffsetImpl_eq_spec_gap :
    MappingOk threeEntryMapping ∧
      (threeEntryMapping.head (by decide)).srcOffset.toNat ≤ (24576 : UInt64).toNat ∧
      vdevIndirectMappingEntryForOffsetImpl threeEntryMapping 24576 true =
        entryForOffsetSpec threeEntryMapping 24576 true :=
  ⟨threeEntryMapping_ok, by decide,
    vdevIndirectMappingEntryForOffsetImpl_eq_spec threeEntryMapping_ok (by decide) (by decide) true⟩

/-- There the lookup gives the entry after the gap. -/
example : entryForOffsetSpec threeEntryMapping 24576 true = .entry 2 := by decide

end Lookup

/-! ## Below the first entry -/

/-- One entry `[4096, 8192)`. -/
def oneEntryMapping : List MappingEntry := [⟨4096, 4096⟩]

theorem oneEntryMapping_ok : MappingOk oneEntryMapping :=
  ⟨by simp [oneEntryMapping], by simp [oneEntryMapping], by simp [oneEntryMapping]⟩

/-- Offset `0` lies below the only entry: the lookup should give `NULL`, but the pass at `mid = 0`
sets `last` to `UINT64_MAX`, `last >= base` still holds, and the next pass reads
`vim_entries[2^63 - 1]`. -/
theorem vdevIndirectMappingEntryForOffsetImpl_below_first :
    MappingOk oneEntryMapping ∧
      entryForOffsetSpec oneEntryMapping 0 false = .null ∧
      entryForOffsetSpec oneEntryMapping 0 true = .entry 0 ∧
      vdevIndirectMappingEntryForOffsetImpl oneEntryMapping 0 false = .outOfBounds (2 ^ 63 - 1) ∧
      vdevIndirectMappingEntryForOffsetImpl oneEntryMapping 0 true = .outOfBounds (2 ^ 63 - 1) :=
  ⟨oneEntryMapping_ok, by decide +kernel, by decide +kernel, by decide +kernel, by decide +kernel⟩

end Zfs
