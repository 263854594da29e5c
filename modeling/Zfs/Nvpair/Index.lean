import Zfs.Nvpair.Table
import Zfs.Lib.HashChains

/-!
# Nvpair/Index — an nvlist with a uniqueness flag is a map, and its table indexes it

An nvlist created with `NV_UNIQUE_NAME` or `NV_UNIQUE_NAME_TYPE` holds at most one pair of each
name, or of each name and type: `nvlist_add_common` removes what a new pair replaces before it
links it.  Every pair is then found twice, on the list in the order of the adds and on the hash
table, and the two agree after every run of adds and removes.  The table changes size on the
way: `nvt_add_nvpair` doubles it when it holds more pairs than chains, `nvt_remove_nvpair`
halves it when a quarter of the chains would do, and `nvt_resize` moves each pair to its chain
under the new mask.  The engine is `HashChains`: pushing on a chain, erasing from a chain and
rehashing keep the chains a bucketed copy of the list.

* `NvIndexes` — the table indexes a list of pairs: chain `j` holds its pairs of bucket `j`, the
  bucket count is a power of two from 16 to `2^31`, the pairs number at most twice the chains
  (the load past which `nvt_add_nvpair` grows the table), and `nvp_nentries` counts them;
* `NvPriv.Indexed` — the same for the nvlist's own pairs, which are distinct objects of
  distinct keys;
* **`nvlist_index_invariant`** — every nvlist reachable by adds and removes keeps it;
* **`nvlist_lookup_refines_list`** — a lookup through the table finds what a walk of the list
  finds;
* **`nvlistAddCommon_replaces`**, **`nvlistRemove_removes`** — an add replaces the pair of its
  key, a remove takes off exactly the pairs it names.
-/

namespace Zfs

open HashChains

/-! ## The steps of `nvt_add_nvpair` and `nvt_remove_nvpair` -/

/-- `nvt_tab_alloc(priv, buckets)`: an empty table of `buckets` chains. -/
def nvtTabAlloc (priv : NvPriv) (buckets : UInt32) : NvPriv :=
  { priv with nvpHashtable := some fun _ => [], nvpNbuckets := buckets }

/-- `nvt_grow(priv)`: the pairs in a table twice the size. -/
def nvtGrow (priv : NvPriv) : NvPriv := nvtResize priv (priv.nvpNbuckets <<< 1)

/-- `nvt_shrink(priv)`: the pairs in a table half the size. -/
def nvtShrink (priv : NvPriv) : NvPriv := nvtResize priv (priv.nvpNbuckets >>> 1)

/-- The first step of `nvt_add_nvpair`: the table, allocated on first use. -/
def nvtAddTable (priv : NvPriv) : NvPriv :=
  match priv.nvpHashtable with
  | none => nvtTabAlloc priv nvlistHashtableInitSize
  | some _ => priv

/-- The second step of `nvt_add_nvpair`: under a uniqueness flag, unlink a match. -/
def nvtRemoveIf (priv : NvPriv) (nvp : NvPair) : NvPriv :=
  if priv.nvflag != 0 then nvtRemoveNvpair priv nvp else priv

/-- The third step of `nvt_add_nvpair`: `nvt_grow` when `nvt_needs_togrow`. -/
def nvtGrowIf (priv : NvPriv) : NvPriv := if nvtNeedsTogrow priv then nvtGrow priv else priv

/-- The last step of `nvt_add_nvpair`: the pair on the head of its chain. -/
def nvtLinkHead (priv : NvPriv) (nvp : NvPair) : NvPriv :=
  match priv.nvpHashtable with
  | none => priv
  | some tab =>
    let index := nvtIndex nvp.name priv.nvpNbuckets
    { priv with
      nvpHashtable := some (Function.update tab index (nvp :: tab index))
      nvpNentries := priv.nvpNentries + 1 }

/-- The first step of `nvt_remove_nvpair`: `nvt_shrink` when `nvt_needs_toshrink`. -/
def nvtShrinkIf (priv : NvPriv) : NvPriv := if nvtNeedsToshrink priv then nvtShrink priv else priv

/-- The rest of `nvt_remove_nvpair`: the first pair on the chain of `nvp` that matches it,
unlinked. -/
def nvtUnlinkMatch (priv : NvPriv) (nvp : NvPair) : NvPriv :=
  match priv.nvpHashtable with
  | none => priv
  | some tab =>
    let index := nvtIndex nvp.name priv.nvpNbuckets
    let chain := tab index
    match chain.findIdx? fun e => nvtNvpairMatch e nvp priv.nvflag with
    | none => priv
    | some k =>
      { priv with
        nvpHashtable := some (Function.update tab index (chain.eraseIdx k))
        nvpNentries := priv.nvpNentries - 1 }

theorem nvtAddNvpair_eq (priv : NvPriv) (nvp : NvPair) :
    nvtAddNvpair priv nvp = nvtLinkHead (nvtGrowIf (nvtRemoveIf (nvtAddTable priv) nvp)) nvp := rfl

theorem nvtRemoveNvpair_eq (priv : NvPriv) (nvp : NvPair) :
    nvtRemoveNvpair priv nvp = nvtUnlinkMatch (nvtShrinkIf priv) nvp := rfl

/-! ## What each step leaves alone -/

section Fields

variable (priv : NvPriv) (nvp : NvPair)

@[simp] theorem nvpList_nvtResize (newSize : UInt32) :
    (nvtResize priv newSize).nvpList = priv.nvpList := by
  unfold nvtResize
  split <;> rfl

@[simp] theorem nvflag_nvtResize (newSize : UInt32) :
    (nvtResize priv newSize).nvflag = priv.nvflag := by
  unfold nvtResize
  split <;> rfl

@[simp] theorem isSome_nvtResize (newSize : UInt32) :
    (nvtResize priv newSize).nvpHashtable.isSome = priv.nvpHashtable.isSome := by
  unfold nvtResize
  split <;> simp_all

@[simp] theorem nvpList_nvtUnlinkMatch : (nvtUnlinkMatch priv nvp).nvpList = priv.nvpList := by
  unfold nvtUnlinkMatch
  split
  · rfl
  · dsimp only
    split <;> rfl

@[simp] theorem nvflag_nvtUnlinkMatch : (nvtUnlinkMatch priv nvp).nvflag = priv.nvflag := by
  unfold nvtUnlinkMatch
  split
  · rfl
  · dsimp only
    split <;> rfl

@[simp] theorem nvpList_nvtShrinkIf : (nvtShrinkIf priv).nvpList = priv.nvpList := by
  unfold nvtShrinkIf nvtShrink
  split <;> simp

@[simp] theorem nvflag_nvtShrinkIf : (nvtShrinkIf priv).nvflag = priv.nvflag := by
  unfold nvtShrinkIf nvtShrink
  split <;> simp

@[simp] theorem isSome_nvtShrinkIf :
    (nvtShrinkIf priv).nvpHashtable.isSome = priv.nvpHashtable.isSome := by
  unfold nvtShrinkIf nvtShrink
  split <;> simp

@[simp] theorem nvflag_nvtAddTable : (nvtAddTable priv).nvflag = priv.nvflag := by
  unfold nvtAddTable
  split <;> rfl

@[simp] theorem nvpList_nvtRemoveNvpair : (nvtRemoveNvpair priv nvp).nvpList = priv.nvpList := by
  simp [nvtRemoveNvpair_eq]

@[simp] theorem nvflag_nvtRemoveNvpair : (nvtRemoveNvpair priv nvp).nvflag = priv.nvflag := by
  simp [nvtRemoveNvpair_eq]

@[simp] theorem nvpList_nvtAddNvpair : (nvtAddNvpair priv nvp).nvpList = priv.nvpList := by
  rw [nvtAddNvpair_eq]
  unfold nvtLinkHead nvtGrowIf nvtGrow nvtRemoveIf nvtAddTable nvtTabAlloc
  split <;> split_ifs <;> split <;> simp_all

@[simp] theorem nvflag_nvtAddNvpair : (nvtAddNvpair priv nvp).nvflag = priv.nvflag := by
  rw [nvtAddNvpair_eq]
  unfold nvtLinkHead nvtGrowIf nvtGrow nvtRemoveIf nvtAddTable nvtTabAlloc
  split <;> split_ifs <;> split <;> simp_all

end Fields

/-! ## The table of an nvlist -/

/-- **A table of `nb` chains indexes the pairs `l`**: `nb` is a power of two from
`nvlist_hashtable_init_size` to `2^31`, `l` has at most twice as many pairs as there are chains
(the load bound; chains may be longer) unless the table can grow no further, and chain `j`
holds, in some order, the pairs of `l` whose name hashes to bucket `j`. -/
structure NvTable (nb : UInt32) (tab : ℕ → List NvPair) (l : List NvPair) : Prop where
  pow : ∃ k, 4 ≤ k ∧ k ≤ 31 ∧ nb.toNat = 2 ^ k
  load : l.length ≤ 2 * nb.toNat ∨ nb.toNat = 2 ^ 31
  chains : Indexes (fun nvp => nvtIndex nvp.name nb) tab l

/-- **The table of `priv` indexes the pairs `l`**: `nvp_nentries` counts them, and there is no
table only while there are none. -/
structure NvIndexes (priv : NvPriv) (l : List NvPair) : Prop where
  nentries : priv.nvpNentries.toNat = l.length
  empty : priv.nvpHashtable = none → l = []
  table : ∀ tab, priv.nvpHashtable = some tab → NvTable priv.nvpNbuckets tab l

/-- Room for one more pair: a table, with no more pairs than chains unless it has `2^31`. -/
def NvRoom (priv : NvPriv) (l : List NvPair) : Prop :=
  priv.nvpHashtable.isSome ∧ (l.length ≤ priv.nvpNbuckets.toNat ∨ priv.nvpNbuckets.toNat = 2 ^ 31)

section Table

variable {priv : NvPriv} {l : List NvPair} {nvp : NvPair} {tab : ℕ → List NvPair}

theorem nvlistHashtableInitSize_eq : nvlistHashtableInitSize = 16 := by decide

theorem nvtNvpairMatch_self (nvp : NvPair) (nvflag : UInt32) : nvtNvpairMatch nvp nvp nvflag = true := by
  unfold nvtNvpairMatch
  split <;> simp

theorem nvtIndex_lt {nb : UInt32} (h : nb ≠ 0) (name : List UInt8) : nvtIndex name nb < nb.toNat := by
  unfold nvtIndex
  have hpos : 0 < nb.toNat := by simpa [Nat.pos_iff_ne_zero, ← UInt32.toNat_inj] using h
  have hand : (nvtHash name &&& (nb - 1)).toNat ≤ (nb - 1).toNat := by
    rw [UInt32.toNat_and]
    exact Nat.and_le_right
  have hsub : (nb - 1).toNat = nb.toNat - 1 := by
    rw [UInt32.toNat_sub_of_le _ _ (by rw [UInt32.le_iff_toNat_le]; simp; omega)]
    simp
  omega

theorem NvTable.bounds {nb : UInt32} (h : NvTable nb tab l) : 16 ≤ nb.toNat ∧ nb.toNat ≤ 2 ^ 31 := by
  obtain ⟨k, hk4, hk31, hk⟩ := h.pow
  rw [hk]
  exact ⟨le_trans (by norm_num) (Nat.pow_le_pow_right two_pos hk4),
    Nat.pow_le_pow_right two_pos hk31⟩

theorem NvTable.ne_zero {nb : UInt32} (h : NvTable nb tab l) : nb ≠ 0 := by
  intro h0
  have := h.bounds.1
  simp [h0] at this

/-- An update that keeps the table, its size and its count keeps what the table indexes. -/
theorem NvIndexes.congr {priv' : NvPriv} (h : NvIndexes priv l)
    (ht : priv'.nvpHashtable = priv.nvpHashtable) (hnb : priv'.nvpNbuckets = priv.nvpNbuckets)
    (hne : priv'.nvpNentries = priv.nvpNentries) : NvIndexes priv' l :=
  ⟨hne ▸ h.nentries, ht ▸ h.empty, hnb ▸ ht ▸ h.table⟩

/-- **The resize loop, in closed form**: new chain `j` holds the pairs of the old chains walked
whose name hashes to `j` under the new mask, the last pushed first. -/
theorem nvtResizeLoop_apply (tab : ℕ → List NvPair) (newMask : UInt32) :
    ∀ (is : List ℕ) (newTab : ℕ → List NvPair) (j : ℕ),
      nvtResizeLoop tab newMask is newTab j =
        ((is.flatMap tab).filter fun e => (nvtHash e.name &&& newMask).toNat = j).reverse ++
          newTab j
  | [], newTab, j => by simp [nvtResizeLoop]
  | i :: is, newTab, j => by
    rw [nvtResizeLoop, nvtResizeLoop_apply tab newMask is]
    dsimp only
    rw [foldl_push_apply (fun e : NvPair => (nvtHash e.name &&& newMask).toNat)]
    simp [List.filter_append]

/-- **`nvt_resize` re-indexes the same pairs under the new size**, and its count of the pairs it
moves is `nvp_nentries` again. -/
theorem NvIndexes.nvtResize_eq (h : NvIndexes priv l) (htab : priv.nvpHashtable = some tab)
    (newSize : UInt32) :
    ∃ tab', nvtResize priv newSize = { priv with nvpHashtable := some tab', nvpNbuckets := newSize } ∧
      Indexes (fun nvp => nvtIndex nvp.name newSize) tab' l := by
  have ht := h.table tab htab
  have hlt : ∀ nvp ∈ l, nvtIndex nvp.name priv.nvpNbuckets < priv.nvpNbuckets.toNat :=
    fun nvp _ => nvtIndex_lt ht.ne_zero nvp.name
  refine ⟨nvtResizeLoop tab (newSize - 1) (List.range priv.nvpNbuckets.toNat) fun _ => [], ?_,
    fun j => ?_⟩
  · simp only [nvtResize, htab, ht.chains.sum_length hlt, ← h.nentries]
    simp
  · rw [nvtResizeLoop_apply, List.append_nil]
    exact (List.reverse_perm _).trans ((ht.chains.flatMap_range_perm hlt).filter _)

theorem nvtNeedsToshrink_eq_true :
    nvtNeedsToshrink priv = true ↔
      priv.nvpNbuckets.toNat ≠ 16 ∧ priv.nvpNentries.toNat ≤ priv.nvpNbuckets.toNat / 4 := by
  simp [nvtNeedsToshrink, nvlistHashtableInitSize_eq, UInt32.le_iff_toNat_le,
    UInt32.toNat_shiftRight, Nat.shiftRight_eq_div_pow, ← UInt32.toNat_inj]

theorem nvtNeedsTogrow_eq_true :
    nvtNeedsTogrow priv = true ↔
      priv.nvpNbuckets.toNat < priv.nvpNentries.toNat ∧ priv.nvpNbuckets.toNat ≤ 2 ^ 31 - 1 := by
  simp [nvtNeedsTogrow, UInt32.le_iff_toNat_le, UInt32.lt_iff_toNat_lt, UInt32.toNat_shiftRight]

/-- **`nvt_shrink` when due keeps the index**: it only halves a table of 32 chains or more, and
only when a quarter of the chains hold every pair. -/
theorem NvIndexes.shrinkIf (h : NvIndexes priv l) : NvIndexes (nvtShrinkIf priv) l := by
  unfold nvtShrinkIf
  split_ifs with hs
  · rcases hht : priv.nvpHashtable with _ | tab
    · simpa [nvtShrink, nvtResize, hht] using h
    obtain ⟨tab', heq, hch⟩ := h.nvtResize_eq hht (priv.nvpNbuckets >>> 1)
    have ht := h.table tab hht
    obtain ⟨hnb, hne⟩ := nvtNeedsToshrink_eq_true.mp hs
    obtain ⟨k, hk4, hk31, hk⟩ := ht.pow
    -- the table is not at its initial size, so it has at least 32 chains
    have hk5 : 5 ≤ k := by
      by_contra hlt
      obtain rfl : k = 4 := by omega
      exact hnb (by simpa using hk)
    have hhalf : (priv.nvpNbuckets >>> 1).toNat = 2 ^ (k - 1) := by
      rw [UInt32.toNat_shiftRight, hk]
      obtain ⟨m, rfl⟩ : ∃ m, k = m + 1 := ⟨k - 1, by omega⟩
      simp [Nat.shiftRight_eq_div_pow, Nat.pow_succ]
    unfold nvtShrink
    rw [heq]
    refine ⟨h.nentries, by simp, fun t ht' => ?_⟩
    obtain rfl : tab' = t := by simpa using ht'
    refine ⟨⟨k - 1, by omega, by omega, hhalf⟩, .inl ?_, hch⟩
    have hpow : 2 ^ k = 2 * 2 ^ (k - 1) := by
      rw [← Nat.pow_succ']
      congr 1
      omega
    simp only [hhalf]
    rw [← h.nentries]
    omega
  · exact h

/-- **`nvt_grow` when due keeps the index, and leaves room for one more pair**: it only doubles a
table of fewer than `2^31` chains, and only when it holds more pairs than chains. -/
theorem NvIndexes.growIf (h : NvIndexes priv l) (hsome : priv.nvpHashtable.isSome) :
    NvIndexes (nvtGrowIf priv) l ∧ NvRoom (nvtGrowIf priv) l := by
  obtain ⟨tab, htab⟩ := Option.isSome_iff_exists.mp hsome
  have ht := h.table tab htab
  obtain ⟨k, hk4, hk31, hk⟩ := ht.pow
  unfold nvtGrowIf
  split_ifs with hg
  · obtain ⟨hlt, hmax⟩ := nvtNeedsTogrow_eq_true.mp hg
    obtain ⟨tab', heq, hch⟩ := h.nvtResize_eq htab (priv.nvpNbuckets <<< 1)
    -- below `2^31` chains the table has at most `2^30`, which doubles without overflow
    have hk30 : k ≤ 30 := by
      by_contra hgt
      have : 2 ^ 31 ≤ 2 ^ k := Nat.pow_le_pow_right two_pos (by omega)
      omega
    have hdouble : (priv.nvpNbuckets <<< 1).toNat = 2 ^ (k + 1) := by
      have hlt32 : 2 ^ (k + 1) < 2 ^ 32 := Nat.pow_lt_pow_right (by norm_num) (by omega)
      rw [UInt32.toNat_shiftLeft, hk, Nat.shiftLeft_eq]
      simp only [UInt32.reduceToNat, Nat.reduceMod, Nat.pow_one, ← Nat.pow_succ]
      exact Nat.mod_eq_of_lt hlt32
    have hload : l.length ≤ 2 * 2 ^ k := by
      rcases ht.load with hl | hl
      · rwa [← hk]
      · exact absurd (hk ▸ hl) (by intro he; have := Nat.pow_right_injective le_rfl he; omega)
    have hpow : 2 ^ (k + 1) = 2 * 2 ^ k := Nat.pow_succ'
    unfold nvtGrow
    rw [heq]
    refine ⟨⟨h.nentries, by simp, fun t ht' => ?_⟩, by simp, .inl ?_⟩
    · obtain rfl : tab' = t := by simpa using ht'
      exact ⟨⟨k + 1, by omega, by omega, hdouble⟩, .inl (by simp only [hdouble]; omega), hch⟩
    · simp only [hdouble]
      omega
  · refine ⟨h, hsome, ?_⟩
    rw [nvtNeedsTogrow_eq_true, h.nentries] at hg
    by_cases hle : l.length ≤ priv.nvpNbuckets.toNat
    · exact .inl hle
    · refine .inr ?_
      have hge : 2 ^ 31 ≤ 2 ^ k := by rw [← hk]; omega
      have hle' : 2 ^ k ≤ 2 ^ 31 := Nat.pow_le_pow_right two_pos hk31
      omega

/-- **Linking a pair on the head of its chain indexes it**, when there is room for it. -/
theorem NvIndexes.linkHead (h : NvIndexes priv l) (hroom : NvRoom priv l)
    (hlen : l.length + 1 < 2 ^ 32) : NvIndexes (nvtLinkHead priv nvp) (l ++ [nvp]) := by
  obtain ⟨tab, htab⟩ := Option.isSome_iff_exists.mp hroom.1
  have ht := h.table tab htab
  have hb := ht.bounds
  simp only [nvtLinkHead, htab]
  refine ⟨?_, by simp, fun t ht' => ?_⟩
  · simp only [UInt32.toNat_add, List.length_append, List.length_singleton, h.nentries]
    simp only [UInt32.reduceToNat]
    omega
  · obtain rfl : Function.update tab (nvtIndex nvp.name priv.nvpNbuckets)
        (nvp :: tab (nvtIndex nvp.name priv.nvpNbuckets)) = t := by simpa using ht'
    refine ⟨ht.pow, ?_, ht.chains.push nvp⟩
    rcases hroom.2 with hr | hr
    · exact .inl (by simp only [List.length_append, List.length_singleton]; omega)
    · exact .inr hr

/-- **A pair matched by nothing on the table is unlinked from nowhere.** -/
theorem NvIndexes.unlinkMatch_of_forall (h : NvIndexes priv l)
    (hno : ∀ q ∈ l, nvtNvpairMatch q nvp priv.nvflag = false) : nvtUnlinkMatch priv nvp = priv := by
  rcases htab : priv.nvpHashtable with _ | tab
  · simp [nvtUnlinkMatch, htab]
  have ht := h.table tab htab
  have hnone : (tab (nvtIndex nvp.name priv.nvpNbuckets)).findIdx?
      (fun e => nvtNvpairMatch e nvp priv.nvflag) = none :=
    List.findIdx?_eq_none_iff.mpr fun q hq => hno q (ht.chains.mem_iff.mp hq).1
  simp [nvtUnlinkMatch, htab, hnone]

/-- **A pair of the list that nothing else matches is the one unlinked**: the first match on its
chain is itself. -/
theorem NvIndexes.unlinkMatch_of_mem (h : NvIndexes priv l) (hmem : nvp ∈ l)
    (huniq : ∀ q ∈ l, nvtNvpairMatch q nvp priv.nvflag = true → q = nvp) :
    NvIndexes (nvtUnlinkMatch priv nvp) (l.erase nvp) := by
  rcases htab : priv.nvpHashtable with _ | tab
  · exact absurd (h.empty htab ▸ hmem) List.not_mem_nil
  have ht := h.table tab htab
  have hchain : nvp ∈ tab (nvtIndex nvp.name priv.nvpNbuckets) := ht.chains.mem_iff.mpr ⟨hmem, rfl⟩
  -- the search stops at a pair of the list that matches `nvp`, which can only be `nvp`
  have hfound : ((tab (nvtIndex nvp.name priv.nvpNbuckets)).findIdx?
      fun e => nvtNvpairMatch e nvp priv.nvflag).isSome := by
    rw [List.findIdx?_isSome]
    exact List.any_eq_true.mpr ⟨nvp, hchain, nvtNvpairMatch_self nvp priv.nvflag⟩
  obtain ⟨k, hk⟩ := Option.isSome_iff_exists.mp hfound
  have hat : (tab (nvtIndex nvp.name priv.nvpNbuckets))[k]? = some nvp := by
    obtain ⟨hlt, hmatch, -⟩ := List.findIdx?_eq_some_iff_getElem.mp hk
    rw [List.getElem?_eq_getElem hlt,
      huniq _ (ht.chains.mem_iff.mp (List.getElem_mem hlt)).1 hmatch]
  have hpos : 0 < l.length := List.length_pos_of_mem hmem
  simp only [nvtUnlinkMatch, htab, hk]
  refine ⟨?_, by simp, fun t ht' => ?_⟩
  · rw [List.length_erase_of_mem hmem, UInt32.toNat_sub_of_le _ _ ?_, h.nentries]
    · simp
    · rw [UInt32.le_iff_toNat_le, h.nentries]
      simp only [UInt32.reduceToNat]
      omega
  · obtain rfl : Function.update tab (nvtIndex nvp.name priv.nvpNbuckets)
        ((tab (nvtIndex nvp.name priv.nvpNbuckets)).eraseIdx k) = t := by simpa using ht'
    refine ⟨ht.pow, ?_, ht.chains.eraseIdx hat⟩
    dsimp only
    have hle : (l.erase nvp).length ≤ l.length := (List.erase_sublist).length_le
    rcases ht.load with hl | hl
    · exact .inl (by omega)
    · exact .inr hl

/-- **The first step of `nvt_add_nvpair` leaves a table**: on first use an empty one of
`nvlist_hashtable_init_size` chains, which indexes the empty list. -/
theorem NvIndexes.addTable (h : NvIndexes priv l) :
    NvIndexes (nvtAddTable priv) l ∧ (nvtAddTable priv).nvpHashtable.isSome := by
  rcases htab : priv.nvpHashtable with _ | tab
  · obtain rfl := h.empty htab
    simp only [nvtAddTable, htab, nvtTabAlloc, Option.isSome_some, and_true]
    refine ⟨h.nentries, by simp, fun t ht => ?_⟩
    obtain rfl : (fun _ => []) = t := by simpa using ht
    refine ⟨⟨4, le_rfl, by norm_num, ?_⟩, .inl (by simp), indexes_nil _⟩
    rw [nvlistHashtableInitSize_eq]
    rfl
  · simp only [nvtAddTable, htab, Option.isSome_some, and_true]
    exact h

/-- **`nvt_add_nvpair` of a pair that nothing on the list matches indexes it.** -/
theorem NvIndexes.nvtAddNvpair (h : NvIndexes priv l)
    (hno : ∀ q ∈ l, nvtNvpairMatch q nvp priv.nvflag = false) (hlen : l.length + 1 < 2 ^ 32) :
    NvIndexes (nvtAddNvpair priv nvp) (l ++ [nvp]) := by
  rw [nvtAddNvpair_eq]
  obtain ⟨h₁, hsome₁⟩ := h.addTable
  -- under a uniqueness flag the table first unlinks a match, of which there is none
  have h₂ : NvIndexes (nvtRemoveIf (nvtAddTable priv) nvp) l ∧
      (nvtRemoveIf (nvtAddTable priv) nvp).nvpHashtable.isSome := by
    unfold nvtRemoveIf
    split_ifs
    · rw [nvtRemoveNvpair_eq, h₁.shrinkIf.unlinkMatch_of_forall (by simpa using hno)]
      exact ⟨h₁.shrinkIf, by simpa using hsome₁⟩
    · exact ⟨h₁, hsome₁⟩
  obtain ⟨h₃, hroom⟩ := h₂.1.growIf h₂.2
  exact h₃.linkHead hroom hlen

end Table

/-! ## Keys, and the nvlist as a map -/

/-- The test of `nvlist_lookup_common`, `nvl_nvflag & (NV_UNIQUE_NAME | NV_UNIQUE_NAME_TYPE)`:
one of the two uniqueness flags is set. -/
def NvUnique (nvflag : UInt32) : Prop :=
  nvflag &&& nvUniqueName ≠ 0 ∨ nvflag &&& nvUniqueNameType ≠ 0

/-- The key of which `nvlist_add_common` keeps one pair: the name under `NV_UNIQUE_NAME`, the
name and the type under `NV_UNIQUE_NAME_TYPE` alone. -/
def nvKey (nvflag : UInt32) (nvp : NvPair) : List UInt8 × Option DataType :=
  if nvflag &&& nvUniqueName ≠ 0 then (nvp.name, none) else (nvp.name, some nvp.type)

/-- `nvlist_exists(nvl, name)`: a walk of the list, not a lookup in the table. -/
def nvlistExists (priv : NvPriv) (name : List UInt8) : Bool :=
  priv.nvpList.any fun nvp => name == nvp.name

/-- The part of `nvlist_add_common` before the new pair is indexed: under a uniqueness flag,
remove the pairs it replaces. -/
def nvlistAddReplace (priv : NvPriv) (nvp : NvPair) : NvPriv :=
  if priv.nvflag &&& nvUniqueName != 0 then nvlistRemoveAll priv nvp.name priv.nvpNentries.toNat
  else if priv.nvflag &&& nvUniqueNameType != 0 then (nvlistRemove priv nvp.name nvp.type).getD priv
  else priv

theorem nvlistAddCommon_eq (priv : NvPriv) (nvp : NvPair) :
    nvlistAddCommon priv nvp = nvpBufLink (nvtAddNvpair (nvlistAddReplace priv nvp) nvp) nvp := rfl

/-- **What an nvlist with a uniqueness flag keeps**: its pairs are distinct objects, no two share
a key, and its table indexes them. -/
structure NvPriv.Indexed (priv : NvPriv) : Prop where
  ids : (priv.nvpList.map NvPair.id).Nodup
  keys : (priv.nvpList.map (nvKey priv.nvflag)).Nodup
  index : NvIndexes priv priv.nvpList

section Keys

variable {nvflag : UInt32} {priv : NvPriv} {nvp : NvPair}

@[simp] theorem nvflag_nvlistRemoveNvpair : (nvlistRemoveNvpair priv nvp).nvflag = priv.nvflag := by
  simp [nvlistRemoveNvpair, nvpBufUnlink]

/-- Under a uniqueness flag, pairs that `nvt_nvpair_match` matches share their key. -/
theorem nvKey_eq_of_match {p q : NvPair} (hu : NvUnique nvflag)
    (h : nvtNvpairMatch p q nvflag = true) : nvKey nvflag p = nvKey nvflag q := by
  unfold nvtNvpairMatch at h
  unfold nvKey
  split_ifs at h with hnt
  · simp only [Bool.and_eq_true, beq_iff_eq] at h
    rw [h.1, h.2]
  · have hn : nvflag &&& nvUniqueName ≠ 0 := hu.resolve_right (by simpa using hnt)
    simp only [beq_iff_eq] at h
    simp [hn, h]

/-- Pairs of one name and one type share their key, whichever flag is set. -/
theorem nvKey_eq_of_name_type {p q : NvPair} (hn : p.name = q.name) (ht : p.type = q.type) :
    nvKey nvflag p = nvKey nvflag q := by
  simp [nvKey, hn, ht]

theorem indexed_nvlistAlloc (nvflag : UInt32) : (nvlistAlloc nvflag).Indexed :=
  ⟨List.nodup_nil, List.nodup_nil, ⟨rfl, fun _ => rfl, fun _ h => by simp [nvlistAlloc] at h⟩⟩

/-! ## Lookups -/

/-- **A lookup through the table is a search of the pairs it indexes**, when at most one of them
matches. -/
theorem NvIndexes.lookup_eq_find? {l : List NvPair} (h : NvIndexes priv l) (name : List UInt8)
    (type : Option DataType)
    (hu : (l.filter fun e => e.name == name && (type.isNone || type == some e.type)).length ≤ 1) :
    nvtLookupNameType priv name type =
      l.find? fun e => e.name == name && (type.isNone || type == some e.type) := by
  rcases htab : priv.nvpHashtable with _ | tab
  · simp [nvtLookupNameType, htab, h.empty htab]
  · simp only [nvtLookupNameType, htab]
    refine (h.table tab htab).chains.find?_eq (fun e he => ?_) hu
    simp only [Bool.and_eq_true, beq_iff_eq] at he
    rw [he.1]

theorem NvIndexes.lookup_eq_none_iff {l : List NvPair} (h : NvIndexes priv l) (name : List UInt8)
    (type : Option DataType) :
    nvtLookupNameType priv name type = none ↔
      ∀ e ∈ l, (e.name == name && (type.isNone || type == some e.type)) = false := by
  rcases htab : priv.nvpHashtable with _ | tab
  · simp [nvtLookupNameType, htab, h.empty htab]
  · simp only [nvtLookupNameType, htab]
    refine (h.table tab htab).chains.find?_eq_none_iff fun e he => ?_
    simp only [Bool.and_eq_true, beq_iff_eq] at he
    rw [he.1]

theorem NvIndexes.lookup_some {l : List NvPair} (h : NvIndexes priv l) {name : List UInt8}
    {type : Option DataType} {e : NvPair} (hs : nvtLookupNameType priv name type = some e) :
    e ∈ l ∧ e.name = name ∧ (type = none ∨ type = some e.type) := by
  rcases htab : priv.nvpHashtable with _ | tab
  · simp [nvtLookupNameType, htab] at hs
  · simp only [nvtLookupNameType, htab] at hs
    obtain ⟨hmem, hm⟩ := (h.table tab htab).chains.mem_of_find? hs
    simp only [Bool.and_eq_true, beq_iff_eq, Bool.or_eq_true, Option.isNone_iff_eq_none] at hm
    exact ⟨hmem, hm.1, hm.2⟩

/-- In an nvlist with a uniqueness flag, a lookup by name and type, or by name alone under
`NV_UNIQUE_NAME`, matches at most one pair. -/
theorem NvPriv.Indexed.lookup_unique (h : priv.Indexed) (name : List UInt8)
    (type : Option DataType) (hty : type.isSome ∨ priv.nvflag &&& nvUniqueName ≠ 0) :
    (priv.nvpList.filter fun e => e.name == name && (type.isNone || type == some e.type)).length
      ≤ 1 := by
  refine length_filter_le_one h.keys
    (b := if priv.nvflag &&& nvUniqueName ≠ 0 then (name, none) else (name, type))
    fun e _ he => ?_
  simp only [Bool.and_eq_true, beq_iff_eq, Bool.or_eq_true, Option.isNone_iff_eq_none] at he
  obtain ⟨rfl, hty'⟩ := he
  unfold nvKey
  split_ifs with hn
  · rfl
  · rcases hty' with rfl | rfl
    · simp [hn] at hty
    · rfl

/-! ## The public operations, one at a time -/

/-- **`nvlist_remove_nvpair` of a pair of the list takes it off both the list and the table.** -/
theorem NvPriv.Indexed.removeNvpair (h : priv.Indexed) (hu : NvUnique priv.nvflag)
    (hmem : nvp ∈ priv.nvpList) :
    (nvlistRemoveNvpair priv nvp).Indexed ∧
      (nvlistRemoveNvpair priv nvp).nvpList = priv.nvpList.erase nvp := by
  have hlist : (nvlistRemoveNvpair priv nvp).nvpList = priv.nvpList.erase nvp := by
    simp only [nvlistRemoveNvpair, nvpBufUnlink, nvpList_nvtRemoveNvpair]
    exact (erase_eq_filter_key h.ids hmem).symm
  -- the table unlinks `nvp` itself: no other pair of the list shares its key
  have huniq : ∀ q ∈ priv.nvpList, nvtNvpairMatch q nvp priv.nvflag = true → q = nvp :=
    fun q hq hm => List.inj_on_of_nodup_map h.keys hq hmem (nvKey_eq_of_match hu hm)
  have hidx := h.index.shrinkIf.unlinkMatch_of_mem hmem (by simpa using huniq)
  refine ⟨⟨?_, ?_, ?_⟩, hlist⟩
  · rw [hlist]
    exact List.Nodup.sublist (List.erase_sublist.map _) h.ids
  · rw [hlist, nvflag_nvlistRemoveNvpair]
    exact List.Nodup.sublist (List.erase_sublist.map _) h.keys
  · rw [hlist]
    exact hidx.congr rfl rfl rfl

/-- **`nvlist_remove` takes off the pair the table finds**, one of the name and type asked. -/
theorem NvPriv.Indexed.remove (h : priv.Indexed) (hu : NvUnique priv.nvflag)
    {name : List UInt8} {type : DataType} {priv' : NvPriv}
    (hr : nvlistRemove priv name type = some priv') :
    priv'.Indexed ∧ priv'.nvflag = priv.nvflag ∧
      ∃ q ∈ priv.nvpList, q.name = name ∧ q.type = type ∧ priv'.nvpList = priv.nvpList.erase q := by
  obtain ⟨q, hl, rfl⟩ := Option.map_eq_some_iff.mp hr
  obtain ⟨hmem, hname, htype⟩ := h.index.lookup_some hl
  have htype : q.type = type := by simpa [eq_comm] using htype
  obtain ⟨hI, hlist⟩ := h.removeNvpair hu hmem
  exact ⟨hI, nvflag_nvlistRemoveNvpair, q, hmem, hname, htype, hlist⟩

/-- **`nvlist_remove_all` takes off every pair of the name**, given turns enough for them, and
keeps the index on the way. -/
theorem NvPriv.Indexed.removeAll (name : List UInt8) : ∀ (fuel : ℕ) {priv : NvPriv},
    priv.Indexed → NvUnique priv.nvflag →
      (nvlistRemoveAll priv name fuel).Indexed ∧ (nvlistRemoveAll priv name fuel).nvflag = priv.nvflag ∧
        ((priv.nvpList.filter fun nvp => nvp.name == name).length ≤ fuel →
          (nvlistRemoveAll priv name fuel).nvpList = priv.nvpList.filter fun nvp => nvp.name != name)
  | 0, priv, h, _ => by
    refine ⟨h, rfl, fun hc => ?_⟩
    have hnone := List.filter_eq_nil_iff.mp (List.length_eq_zero_iff.mp (Nat.le_zero.mp hc))
    exact (List.filter_eq_self.mpr fun q hq => by simpa using hnone q hq).symm
  | fuel + 1, priv, h, hu => by
    simp only [nvlistRemoveAll]
    rcases hl : nvtLookupNameType priv name none with _ | q
    · -- the table finds no pair of the name: neither does the list
      have hnone := (h.index.lookup_eq_none_iff name none).mp hl
      refine ⟨h, rfl, fun _ => (List.filter_eq_self.mpr fun q hq => ?_).symm⟩
      simpa using hnone q hq
    · obtain ⟨hmem, hname, -⟩ := h.index.lookup_some hl
      obtain ⟨hI, hlist⟩ := h.removeNvpair hu hmem
      obtain ⟨hI', hf', hl'⟩ := hI.removeAll name fuel (by rwa [nvflag_nvlistRemoveNvpair])
      refine ⟨hI', hf'.trans nvflag_nvlistRemoveNvpair, fun hc => ?_⟩
      have hq : q ∈ priv.nvpList.filter fun nvp => nvp.name == name := by simp [hmem, hname]
      have hq' : q ∉ priv.nvpList.filter fun nvp => nvp.name != name := by simp [hname]
      rw [hl' (by rw [hlist, ← List.erase_filter, List.length_erase_of_mem hq]; omega), hlist,
        ← List.erase_filter, List.erase_of_not_mem hq']

/-- **The removal `nvlist_add_common` makes leaves the pairs of other keys**, and keeps the index. -/
theorem NvPriv.Indexed.addReplace (h : priv.Indexed) (hu : NvUnique priv.nvflag) (nvp : NvPair) :
    (nvlistAddReplace priv nvp).Indexed ∧ (nvlistAddReplace priv nvp).nvflag = priv.nvflag ∧
      (nvlistAddReplace priv nvp).nvpList =
        priv.nvpList.filter fun q => nvKey priv.nvflag q != nvKey priv.nvflag nvp := by
  unfold nvlistAddReplace
  split_ifs with hn ht
  · -- `NV_UNIQUE_NAME`: every pair of the name, in as many turns as there are pairs
    have hn : priv.nvflag &&& nvUniqueName ≠ 0 := by simpa using hn
    have hc : (priv.nvpList.filter fun q => q.name == nvp.name).length ≤ priv.nvpNentries.toNat := by
      rw [h.index.nentries]
      exact List.length_filter_le _ _
    obtain ⟨hI, hf, hl⟩ := h.removeAll nvp.name priv.nvpNentries.toNat hu
    refine ⟨hI, hf, (hl hc).trans (List.filter_congr fun q _ => ?_)⟩
    unfold nvKey
    rw [if_pos hn, if_pos hn]
    by_cases hq : q.name = nvp.name
    · simp [hq]
    · have hk : ((q.name, none) : List UInt8 × Option DataType) ≠ (nvp.name, none) := by simp [hq]
      rw [bne_iff_ne.mpr hq, bne_iff_ne.mpr hk]
  · -- `NV_UNIQUE_NAME_TYPE` alone: the pair of the name and type, if any
    have hn : ¬priv.nvflag &&& nvUniqueName ≠ 0 := by simpa using hn
    rcases hr : nvlistRemove priv nvp.name nvp.type with _ | priv'
    · have hnone := (h.index.lookup_eq_none_iff nvp.name (some nvp.type)).mp
        (Option.map_eq_none_iff.mp hr)
      refine ⟨h, rfl, (List.filter_eq_self.mpr fun q hq => ?_).symm⟩
      have hq := hnone q hq
      simp only [Option.isNone_some, Bool.false_or, Bool.and_eq_false_iff, beq_eq_false_iff_ne,
        ne_eq, Option.some.injEq] at hq
      simp only [nvKey, hn, if_false, bne_iff_ne, ne_eq, Prod.mk.injEq, Option.some.injEq, not_and]
      intro hname htype
      rcases hq with hq | hq
      · exact hq hname
      · exact hq htype.symm
    · obtain ⟨hI, hf, q, hmem, hname, htype, hlist⟩ := h.remove hu hr
      refine ⟨hI, hf, ?_⟩
      rw [Option.getD_some, hlist, erase_eq_filter_key h.keys hmem,
        nvKey_eq_of_name_type hname htype]
  · exact absurd hu (by simp_all [NvUnique])

/-- **`nvlist_add_common` replaces the pairs of the new pair's key by the new pair**, at the end of
the list, and keeps the index. -/
theorem NvPriv.Indexed.addCommon (h : priv.Indexed) (hu : NvUnique priv.nvflag)
    (hid : nvp.id ∉ priv.nvpList.map NvPair.id) (hlen : priv.nvpList.length + 1 < 2 ^ 32) :
    (nvlistAddCommon priv nvp).Indexed ∧ (nvlistAddCommon priv nvp).nvflag = priv.nvflag ∧
      (nvlistAddCommon priv nvp).nvpList =
        (priv.nvpList.filter fun q => nvKey priv.nvflag q != nvKey priv.nvflag nvp) ++ [nvp] := by
  obtain ⟨h₁, hf₁, hl₁⟩ := h.addReplace hu nvp
  have hsub : List.Sublist (nvlistAddReplace priv nvp).nvpList priv.nvpList :=
    hl₁ ▸ List.filter_sublist
  -- nothing left on the list matches the new pair, so the table unlinks nothing for it
  have hno : ∀ q ∈ (nvlistAddReplace priv nvp).nvpList,
      nvtNvpairMatch q nvp (nvlistAddReplace priv nvp).nvflag = false := by
    intro q hq
    rw [hl₁, List.mem_filter] at hq
    rw [hf₁, ← Bool.not_eq_true]
    intro hm
    simp [nvKey_eq_of_match hu hm] at hq
  have hidx := h₁.index.nvtAddNvpair hno (by have := hsub.length_le; omega)
  have hlist : (nvlistAddCommon priv nvp).nvpList = (nvlistAddReplace priv nvp).nvpList ++ [nvp] := by
    simp [nvlistAddCommon_eq, nvpBufLink]
  have hflag : (nvlistAddCommon priv nvp).nvflag = priv.nvflag := by
    simp [nvlistAddCommon_eq, nvpBufLink, hf₁]
  refine ⟨⟨?_, ?_, ?_⟩, hflag, hlist.trans (by rw [hl₁])⟩
  · rw [hlist, List.map_append, List.map_singleton]
    refine List.nodup_append.mpr ⟨List.Nodup.sublist (hsub.map _) h.ids, List.nodup_singleton _,
      fun a ha b hb => ?_⟩
    rw [List.mem_singleton.mp hb]
    rintro rfl
    exact hid ((hsub.map _).subset ha)
  · rw [hlist, hflag, List.map_append, List.map_singleton]
    refine List.nodup_append.mpr ⟨?_, List.nodup_singleton _, fun a ha b hb => ?_⟩
    · rw [← hf₁]
      exact h₁.keys
    · rw [List.mem_singleton.mp hb]
      rintro rfl
      obtain ⟨q, hq, hkey⟩ := List.mem_map.mp ha
      rw [hl₁, List.mem_filter] at hq
      simp [hkey] at hq
  · rw [hlist]
    exact hidx.congr rfl rfl rfl

end Keys

/-! ## Every run -/

/-- **The nvlists a program builds with the flag `nvflag`**: `nvlist_alloc`, then any sequence of
`nvlist_add_*` of a new pair (whose storage is no linked pair's, while `nvp_nentries` can count
one more), `nvlist_remove` that finds its pair, `nvlist_remove_all`, and
`nvlist_remove_nvpair` of a pair of the list. -/
inductive NvReachable (nvflag : UInt32) : NvPriv → Prop
  | alloc : NvReachable nvflag (nvlistAlloc nvflag)
  | add {priv : NvPriv} (nvp : NvPair) : NvReachable nvflag priv →
      nvp.id ∉ priv.nvpList.map NvPair.id → priv.nvpList.length + 1 < 2 ^ 32 →
      NvReachable nvflag (nvlistAddCommon priv nvp)
  | remove {priv priv' : NvPriv} (name : List UInt8) (type : DataType) : NvReachable nvflag priv →
      nvlistRemove priv name type = some priv' → NvReachable nvflag priv'
  | removeAll {priv : NvPriv} (name : List UInt8) : NvReachable nvflag priv →
      NvReachable nvflag (nvlistRemoveAll priv name priv.nvpNentries.toNat)
  | removeNvpair {priv : NvPriv} (nvp : NvPair) : NvReachable nvflag priv →
      nvp ∈ priv.nvpList → NvReachable nvflag (nvlistRemoveNvpair priv nvp)

section Runs

variable {nvflag : UInt32} {priv : NvPriv}

/-- Every step keeps the invariant and the flag: the induction every result below rests on. -/
theorem NvReachable.inv (hu : NvUnique nvflag) (h : NvReachable nvflag priv) :
    priv.Indexed ∧ priv.nvflag = nvflag := by
  induction h with
  | alloc => exact ⟨indexed_nvlistAlloc nvflag, rfl⟩
  | add nvp _ hid hlen ih =>
    obtain ⟨hI, hf, -⟩ := ih.1.addCommon (ih.2 ▸ hu) hid hlen
    exact ⟨hI, hf.trans ih.2⟩
  | remove name type _ hr ih =>
    obtain ⟨hI, hf, -⟩ := ih.1.remove (ih.2 ▸ hu) hr
    exact ⟨hI, hf.trans ih.2⟩
  | removeAll name _ ih =>
    obtain ⟨hI, hf, -⟩ := ih.1.removeAll name _ (ih.2 ▸ hu)
    exact ⟨hI, hf.trans ih.2⟩
  | removeNvpair nvp _ hmem ih =>
    exact ⟨(ih.1.removeNvpair (ih.2 ▸ hu) hmem).1, nvflag_nvlistRemoveNvpair.trans ih.2⟩

/-- **Every nvlist with a uniqueness flag keeps its table an index of its pairs**, whatever adds
and removes built it: its pairs are distinct, no two share a key, `nvp_nentries` counts them,
the table has a power of two of chains from 16 to `2^31` and at most twice as many pairs as
chains unless it has `2^31`, and chain `j` holds exactly the pairs whose name hashes to `j`. -/
theorem nvlist_index_invariant (hu : NvUnique nvflag) (h : NvReachable nvflag priv) : priv.Indexed :=
  (h.inv hu).1

theorem nvlist_index_invariant_one :
    NvUnique 1 ∧ (nvlistAddCommon (nvlistAlloc 1) ⟨1, [0x61], .uint64⟩).Indexed :=
  ⟨.inl (by decide), nvlist_index_invariant (.inl (by decide)) (.add _ .alloc (by decide) (by decide))⟩

/-- **A lookup through the table finds what a walk of the list finds**: by name and type the pair
of the list with both, by name alone under `NV_UNIQUE_NAME` the pair of the name, and under
either flag `nvt_lookup_name` finds a pair exactly when `nvlist_exists` does. -/
theorem nvlist_lookup_refines_list (hu : NvUnique nvflag) (h : NvReachable nvflag priv)
    (name : List UInt8) (type : DataType) :
    nvtLookupNameType priv name (some type) =
        priv.nvpList.find? (fun nvp => nvp.name == name && nvp.type == type) ∧
      (nvtLookupNameType priv name none).isSome = nvlistExists priv name ∧
      (nvflag &&& nvUniqueName ≠ 0 →
        nvtLookupNameType priv name none = priv.nvpList.find? fun nvp => nvp.name == name) := by
  obtain ⟨hI, rfl⟩ := h.inv hu
  refine ⟨?_, ?_, fun hn => ?_⟩
  · rw [hI.index.lookup_eq_find? name (some type) (hI.lookup_unique name (some type) (.inl rfl))]
    congr 1
    funext e
    by_cases ht : e.type = type
    · simp [ht]
    · have h1 : (some type == some e.type) = false := by simpa using Ne.symm ht
      have h2 : (e.type == type) = false := beq_eq_false_iff_ne.mpr ht
      simp only [Option.isNone_some, Bool.false_or, h1, h2]
  · rcases hl : nvtLookupNameType priv name none with _ | e
    · have hnone := (hI.index.lookup_eq_none_iff name none).mp hl
      simp only [nvlistExists, Option.isSome_none]
      refine (List.any_eq_false.mpr fun e he heq => ?_).symm
      have := hnone e he
      simp_all
    · obtain ⟨hmem, hname, -⟩ := hI.index.lookup_some hl
      simp only [nvlistExists, Option.isSome_some]
      exact (List.any_eq_true.mpr ⟨e, hmem, by simp [hname]⟩).symm
  · rw [hI.index.lookup_eq_find? name none (hI.lookup_unique name none (.inr hn))]
    congr 1
    funext e
    simp

theorem nvlist_lookup_refines_list_one :
    let priv := nvlistAddCommon (nvlistAlloc 1) ⟨1, [0x61], .uint64⟩
    NvUnique 1 ∧ NvReachable 1 priv ∧
      (nvtLookupNameType priv [0x61] (some .uint64) =
          priv.nvpList.find? (fun nvp => nvp.name == [0x61] && nvp.type == .uint64) ∧
        (nvtLookupNameType priv [0x61] none).isSome = nvlistExists priv [0x61] ∧
        ((1 : UInt32) &&& nvUniqueName ≠ 0 →
          nvtLookupNameType priv [0x61] none = priv.nvpList.find? fun nvp => nvp.name == [0x61])) := by
  intro priv
  have hu : NvUnique 1 := .inl (by decide)
  have hr : NvReachable 1 priv := .add _ .alloc (by decide) (by decide)
  exact ⟨hu, hr, nvlist_lookup_refines_list hu hr [0x61] .uint64⟩

/-- **`nvlist_add_common` replaces the pairs of the new pair's key by the new pair**: the list
loses the pairs of that key and gains the new pair at its end, and the table finds the new
pair by its name and type. -/
theorem nvlistAddCommon_replaces (hu : NvUnique nvflag) (h : NvReachable nvflag priv)
    (nvp : NvPair) (hid : nvp.id ∉ priv.nvpList.map NvPair.id)
    (hlen : priv.nvpList.length + 1 < 2 ^ 32) :
    (nvlistAddCommon priv nvp).nvpList =
        (priv.nvpList.filter fun q => nvKey nvflag q != nvKey nvflag nvp) ++ [nvp] ∧
      nvtLookupNameType (nvlistAddCommon priv nvp) nvp.name (some nvp.type) = some nvp := by
  obtain ⟨hI, rfl⟩ := h.inv hu
  obtain ⟨hI', -, hl'⟩ := hI.addCommon hu hid hlen
  refine ⟨hl', ?_⟩
  -- the pairs left of the new pair's key are none, so the search reaches the new pair
  have hnone : (priv.nvpList.filter fun q => nvKey priv.nvflag q != nvKey priv.nvflag nvp).find?
      (fun e => e.name == nvp.name && ((some nvp.type).isNone || some nvp.type == some e.type)) =
        none := by
    refine List.find?_eq_none.mpr fun q hq hm => ?_
    rw [List.mem_filter] at hq
    simp only [Option.isNone_some, Bool.false_or, Bool.and_eq_true, beq_iff_eq,
      Option.some.injEq] at hm
    have hkey : nvKey priv.nvflag q = nvKey priv.nvflag nvp := nvKey_eq_of_name_type hm.1 hm.2.symm
    simp [hkey] at hq
  rw [hI'.index.lookup_eq_find? nvp.name (some nvp.type) (hI'.lookup_unique _ _ (.inl rfl)), hl',
    List.find?_append, hnone]
  simp

theorem nvlistAddCommon_replaces_one :
    let priv := nvlistAddCommon (nvlistAlloc 1) ⟨1, [0x61], .uint64⟩
    let nvp : NvPair := ⟨2, [0x61], .string⟩
    NvUnique 1 ∧ NvReachable 1 priv ∧ nvp.id ∉ priv.nvpList.map NvPair.id ∧
      priv.nvpList.length + 1 < 2 ^ 32 ∧
      ((nvlistAddCommon priv nvp).nvpList =
          (priv.nvpList.filter fun q => nvKey 1 q != nvKey 1 nvp) ++ [nvp] ∧
        nvtLookupNameType (nvlistAddCommon priv nvp) nvp.name (some nvp.type) = some nvp) := by
  intro priv nvp
  have hu : NvUnique 1 := .inl (by decide)
  have hr : NvReachable 1 priv := .add _ .alloc (by decide) (by decide)
  have hid : nvp.id ∉ priv.nvpList.map NvPair.id := by decide
  have hlen : priv.nvpList.length + 1 < 2 ^ 32 := by decide
  exact ⟨hu, hr, hid, hlen, nvlistAddCommon_replaces hu hr nvp hid hlen⟩

/-- **`nvlist_remove` and `nvlist_remove_all` take off exactly the pairs they name**:
`nvlist_remove` fails with `ENOENT` exactly when no pair has the name and type, and otherwise
leaves the list without that pair; `nvlist_remove_all` leaves it without every pair of the
name. -/
theorem nvlistRemove_removes (hu : NvUnique nvflag) (h : NvReachable nvflag priv)
    (name : List UInt8) (type : DataType) :
    (nvlistRemove priv name type = none ↔ ∀ nvp ∈ priv.nvpList, ¬(nvp.name = name ∧ nvp.type = type)) ∧
      (∀ priv', nvlistRemove priv name type = some priv' →
        priv'.nvpList = priv.nvpList.filter fun nvp => !(nvp.name == name && nvp.type == type)) ∧
      (nvlistRemoveAll priv name priv.nvpNentries.toNat).nvpList =
        priv.nvpList.filter fun nvp => nvp.name != name := by
  obtain ⟨hI, rfl⟩ := h.inv hu
  refine ⟨?_, fun priv' hr => ?_, ?_⟩
  · rw [nvlistRemove, Option.map_eq_none_iff, hI.index.lookup_eq_none_iff]
    refine forall₂_congr fun e _ => ?_
    by_cases ht : e.type = type
    · simp [ht]
    · simp [ht, Ne.symm ht]
  · obtain ⟨-, -, q, hmem, hname, htype, hlist⟩ := hI.remove hu hr
    rw [hlist, (hI.ids.of_map _).erase_eq_filter]
    refine List.filter_congr fun x hx => ?_
    by_cases hxq : x = q
    · subst hxq
      simp [hname, htype]
    · -- no other pair has the name and type: it would share the key of `q`
      have hnot : ¬(x.name = name ∧ x.type = type) := fun hxt =>
        hxq (List.inj_on_of_nodup_map hI.keys hx hmem
          (nvKey_eq_of_name_type (hxt.1.trans hname.symm) (hxt.2.trans htype.symm)))
      have hfalse : (x.name == name && x.type == type) = false := by simpa using hnot
      rw [bne_iff_ne.mpr hxq, hfalse]
      rfl
  · refine ((hI.removeAll name _ hu).2.2 ?_)
    rw [hI.index.nentries]
    exact List.length_filter_le _ _

theorem nvlistRemove_removes_one :
    let priv := nvlistAddCommon (nvlistAlloc 1) ⟨1, [0x61], .uint64⟩
    NvUnique 1 ∧ NvReachable 1 priv ∧
      ((nvlistRemove priv [0x61] .uint64 = none ↔
          ∀ nvp ∈ priv.nvpList, ¬(nvp.name = [0x61] ∧ nvp.type = .uint64)) ∧
        (∀ priv', nvlistRemove priv [0x61] .uint64 = some priv' →
          priv'.nvpList = priv.nvpList.filter fun nvp => !(nvp.name == [0x61] && nvp.type == .uint64)) ∧
        (nvlistRemoveAll priv [0x61] priv.nvpNentries.toNat).nvpList =
          priv.nvpList.filter fun nvp => nvp.name != [0x61]) := by
  intro priv
  have hu : NvUnique 1 := .inl (by decide)
  have hr : NvReachable 1 priv := .add _ .alloc (by decide) (by decide)
  exact ⟨hu, hr, nvlistRemove_removes hu hr [0x61] .uint64⟩

end Runs

end Zfs
