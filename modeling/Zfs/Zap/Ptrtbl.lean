import Zfs.Zap.Cursor
import Mathlib.Logic.Relation

/-!
# Zap/Ptrtbl — doubling the pointer table of a fat ZAP

A fat ZAP finds the leaf of a hash through its pointer table: entry `ZAP_HASH_IDX(h, zt_shift)`
holds the block of the leaf.  The table starts embedded in the second half of the header block;
`zap_grow_ptrtbl` first moves it to a block of its own, twice the size, and later doubles it one
block per call: `zap_table_grow` copies block `b` of the old table to blocks `2b` and `2b + 1` of
the new one, each entry twice, and the call that copies the last block switches to the new table
and increments `zt_shift`.  Meanwhile `zap_table_store` writes each entry to the old table and to
both of its slots in the new one.

The ZAP object is modelled as its words, word `off` of block `blk` at `blk * 2^(bs-3) + off`;
reads and writes of blocks do not fail.

* `PtrtblOk` — the invariant: the two tables lie apart below `zap_freeblk`, and each entry of a
  block already copied stands at both of its slots in the new table;
* `zapPtrtblTransfer_apply`, `zapTableGrow_words` — what a copy writes;
* `ptrtblOk_store`, `ptrtblOk_grow` — both steps keep the invariant;
* `zapIdxToBlk_grow` — a growth step changes no entry, or doubles the table so that entry `j` is
  the old entry `j / 2`;
* `zapDerefLeafBlk_grow` — no growth step moves the leaf of a hash;
* **`zapPtrtbl_doubling`** — along every interleaving of growth steps and stores, the invariant
  holds and every growth step leaves the leaf of every hash where it was.
-/

namespace Zfs

/-! ## The table and the object -/

/-- `zap_table_phys_t`. -/
structure ZapTablePhys where
  ztBlk : ℕ
  ztNumblks : ℕ
  ztShift : ℕ
  ztNextblk : ℕ
  ztBlksCopied : ℕ
  deriving DecidableEq, Repr

/-- What the table code reads and writes of a fat ZAP: `zap_ptrtbl` and `zap_freeblk` of the
header, and the words of the object. -/
structure ZapPtrtblState where
  zapPtrtbl : ZapTablePhys
  zapFreeblk : ℕ
  words : ℕ → UInt64

/-! ## The table code, for a block shift `bs`, `FZAP_BLOCK_SHIFT(zap)` -/

section Code

variable (bs : ℕ)

/-- Word `off` of block `blk`: `dmu_buf_hold` of the byte offset `blk << bs`, then word `off` of
the buffer. -/
def wordAddr (blk off : ℕ) : ℕ := blk * 2 ^ (bs - 3) + off

/-- `ZAP_EMBEDDED_PTRTBL_SHIFT(zap)`. -/
def zapEmbeddedPtrtblShift : ℕ := bs - 3 - 1

/-- `&ZAP_EMBEDDED_PTRTBL_ENT(zap, idx)`: a word of the second half of the header block. -/
def zapEmbeddedPtrtblEnt (idx : ℕ) : ℕ := wordAddr bs 0 (idx + (1 <<< zapEmbeddedPtrtblShift bs))

/-- `zap_allocate_blocks(zap, nblocks)`. -/
def zapAllocateBlocks (s : ZapPtrtblState) (nblocks : ℕ) : ℕ × ZapPtrtblState :=
  (s.zapFreeblk, { s with zapFreeblk := s.zapFreeblk + nblocks })

/-- `zap_ptrtbl_transfer(src, dst, n)`: each of the `n` words from `src` written twice from
`dst`. -/
def zapPtrtblTransfer (src dst n : ℕ) (words : ℕ → UInt64) : ℕ → UInt64 :=
  (List.range n).foldl (fun words i =>
    let lb := words (src + i)
    Function.update (Function.update words (dst + 2 * i) lb) (dst + 2 * i + 1) lb) words

/-- `dmu_free_range` of `len` words from `start`: freed blocks read back as zeros. -/
def dmuFreeRange (start len : ℕ) (words : ℕ → UInt64) : ℕ → UInt64 :=
  fun k => if start ≤ k ∧ k < start + len then 0 else words k

/-- `zap_table_grow(zap, &zap_ptrtbl, zap_ptrtbl_transfer, tx)`: one block of the table is copied
to the table of twice the size, allocated at the first call; after the last block the new table
replaces the old one, whose blocks are freed. -/
def zapTableGrow (s : ZapPtrtblState) : ZapPtrtblState :=
  let hepb := 1 <<< (bs - 4)
  let (newblk, s) :=
    if s.zapPtrtbl.ztNextblk ≠ 0 then (s.zapPtrtbl.ztNextblk, s)
    else
      let (newblk, s) := zapAllocateBlocks s (s.zapPtrtbl.ztNumblks * 2)
      (newblk, { s with zapPtrtbl := { s.zapPtrtbl with ztNextblk := newblk } })
  let tbl := s.zapPtrtbl
  let b := tbl.ztBlksCopied
  -- the first half of the entries of old block `b` go to new block `2b`, the second to `2b + 1`
  let words := zapPtrtblTransfer (wordAddr bs (tbl.ztBlk + b) 0)
    (wordAddr bs (newblk + 2 * b) 0) hepb s.words
  let words := zapPtrtblTransfer (wordAddr bs (tbl.ztBlk + b) 0 + hepb)
    (wordAddr bs (newblk + 2 * b + 1) 0) hepb words
  if b + 1 = tbl.ztNumblks then
    { s with
      words := dmuFreeRange (wordAddr bs tbl.ztBlk 0) (tbl.ztNumblks * 2 ^ (bs - 3)) words
      zapPtrtbl := ⟨newblk, tbl.ztNumblks * 2, tbl.ztShift + 1, 0, 0⟩ }
  else { s with words, zapPtrtbl := { tbl with ztBlksCopied := b + 1 } }

/-- `ENOSPC`. -/
def enospc : ℤ := 28

/-- `zap_grow_ptrtbl(zap, tx)`: the embedded table moves to a block of its own, twice its size;
a table in blocks grows by `zap_table_grow`. -/
def zapGrowPtrtbl (flags : UInt64) (s : ZapPtrtblState) : Except ℤ ZapPtrtblState :=
  if s.zapPtrtbl.ztShift ≥ zapHashbits flags - 2 then .error enospc
  else if s.zapPtrtbl.ztNumblks = 0 then
    let (newblk, s) := zapAllocateBlocks s 1
    let words := zapPtrtblTransfer (zapEmbeddedPtrtblEnt bs 0) (wordAddr bs newblk 0)
      (1 <<< zapEmbeddedPtrtblShift bs) s.words
    .ok { s with
      words
      zapPtrtbl := { s.zapPtrtbl with
        ztBlk := newblk, ztNumblks := 1, ztShift := s.zapPtrtbl.ztShift + 1 } }
  else .ok (zapTableGrow bs s)

/-- `zap_table_load(zap, tbl, idx, &val)`. -/
def zapTableLoad (tbl : ZapTablePhys) (words : ℕ → UInt64) (idx : ℕ) : UInt64 :=
  let blk := idx >>> (bs - 3)
  let off := idx &&& ((1 <<< (bs - 3)) - 1)
  words (wordAddr bs (tbl.ztBlk + blk) off)

/-- `zap_table_store(zap, tbl, idx, val, tx)`: while the table grows, the entry is also written
to both of its slots in the new table. -/
def zapTableStore (tbl : ZapTablePhys) (words : ℕ → UInt64) (idx : ℕ) (val : UInt64) :
    ℕ → UInt64 :=
  let blk := idx >>> (bs - 3)
  let off := idx &&& ((1 <<< (bs - 3)) - 1)
  let words :=
    if tbl.ztNextblk ≠ 0 then
      let idx2 := idx * 2
      let blk2 := idx2 >>> (bs - 3)
      let off2 := idx2 &&& ((1 <<< (bs - 3)) - 1)
      Function.update (Function.update words (wordAddr bs (tbl.ztNextblk + blk2) off2) val)
        (wordAddr bs (tbl.ztNextblk + blk2) (off2 + 1)) val
    else words
  Function.update words (wordAddr bs (tbl.ztBlk + blk) off) val

/-- `zap_idx_to_blk(zap, idx, &blk)`. -/
def zapIdxToBlk (s : ZapPtrtblState) (idx : ℕ) : UInt64 :=
  if s.zapPtrtbl.ztNumblks = 0 then s.words (zapEmbeddedPtrtblEnt bs idx)
  else zapTableLoad bs s.zapPtrtbl s.words idx

/-- `zap_set_idx_to_blk(zap, idx, blk, tx)`.  It tells the embedded table apart by `zt_blk`,
where `zap_idx_to_blk` does by `zt_numblks`. -/
def zapSetIdxToBlk (s : ZapPtrtblState) (idx : ℕ) (blk : UInt64) : ZapPtrtblState :=
  if s.zapPtrtbl.ztBlk = 0 then
    { s with words := Function.update s.words (zapEmbeddedPtrtblEnt bs idx) blk }
  else { s with words := zapTableStore bs s.zapPtrtbl s.words idx blk }

/-- `ZAP_HASH_IDX(hash, n)`. -/
def zapHashIdx (hash : UInt64) (n : ℕ) : ℕ := if n = 0 then 0 else hash.toNat >>> (64 - n)

/-- The leaf block `zap_deref_leaf` reads for a hash. -/
def zapDerefLeafBlk (s : ZapPtrtblState) (h : UInt64) : UInt64 :=
  zapIdxToBlk bs s (zapHashIdx h s.zapPtrtbl.ztShift)

/-- A step of the table: a call of `zap_grow_ptrtbl` that succeeds, or a store
`zap_set_idx_to_blk` of an index of the table. -/
inductive ZapPtrtblStep (flags : UInt64) : ZapPtrtblState → ZapPtrtblState → Prop
  | grow {s s' : ZapPtrtblState} : zapGrowPtrtbl bs flags s = .ok s' → ZapPtrtblStep flags s s'
  | store {s : ZapPtrtblState} (idx : ℕ) (blk : UInt64) : idx < 2 ^ s.zapPtrtbl.ztShift →
      ZapPtrtblStep flags s (zapSetIdxToBlk bs s idx blk)

end Code

/-! ## Addresses

With at least four bits of block shift, a block holds `2^(bs-3)` entries, two halves of
`2^(bs-4)`, and the table code reads entry `idx` of a table at block `blk` at word
`blk * 2^(bs-3) + idx`. -/

section Addresses

variable {bs : ℕ}

theorem two_pow_bs (hbs : 4 ≤ bs) : 2 ^ (bs - 3) = 2 * 2 ^ (bs - 4) := by
  rw [← Nat.pow_succ']
  congr 1
  omega

theorem wordAddr_split (blk idx : ℕ) :
    wordAddr bs (blk + idx >>> (bs - 3)) (idx &&& ((1 <<< (bs - 3)) - 1)) = wordAddr bs blk idx := by
  unfold wordAddr
  rw [Nat.shiftRight_eq_div_pow, Nat.one_shiftLeft, Nat.and_two_pow_sub_one_eq_mod, Nat.add_mul,
    Nat.add_assoc, Nat.mul_comm (idx / _), Nat.div_add_mod]

theorem wordAddr_succ (blk off : ℕ) : wordAddr bs blk (off + 1) = wordAddr bs blk off + 1 := rfl

theorem zapTableLoad_eq (tbl : ZapTablePhys) (words : ℕ → UInt64) (idx : ℕ) :
    zapTableLoad bs tbl words idx = words (wordAddr bs tbl.ztBlk idx) := by
  unfold zapTableLoad
  dsimp only
  rw [wordAddr_split]

theorem zapTableStore_eq (tbl : ZapTablePhys) (words : ℕ → UInt64) (idx : ℕ) (val : UInt64) :
    zapTableStore bs tbl words idx val =
      Function.update
        (if tbl.ztNextblk ≠ 0 then
          Function.update (Function.update words (wordAddr bs tbl.ztNextblk (2 * idx)) val)
            (wordAddr bs tbl.ztNextblk (2 * idx) + 1) val
        else words)
        (wordAddr bs tbl.ztBlk idx) val := by
  unfold zapTableStore
  simp only [wordAddr_split, Nat.mul_comm idx 2, wordAddr_succ]

/-- Where a store writes: the entry of the table and, while the table grows, both of its slots in
the new one. -/
theorem zapTableStore_apply (tbl : ZapTablePhys) (words : ℕ → UInt64) (idx : ℕ) (val : UInt64)
    (k : ℕ) :
    zapTableStore bs tbl words idx val k =
      if k = wordAddr bs tbl.ztBlk idx ∨ (tbl.ztNextblk ≠ 0 ∧
          (k = wordAddr bs tbl.ztNextblk (2 * idx) ∨ k = wordAddr bs tbl.ztNextblk (2 * idx + 1)))
      then val else words k := by
  rw [zapTableStore_eq, ← wordAddr_succ]
  by_cases h0 : k = wordAddr bs tbl.ztBlk idx
  · simp [h0]
  by_cases hn : tbl.ztNextblk = 0
  · simp [h0, hn]
  by_cases h2 : k = wordAddr bs tbl.ztNextblk (2 * idx + 1)
  · subst h2
    simp [hn, h0]
  by_cases h1 : k = wordAddr bs tbl.ztNextblk (2 * idx)
  · subst h1
    simp [hn, h0, Function.update_apply]
  · simp [h0, hn, h1, h2]

theorem zapEmbeddedPtrtblEnt_eq (idx : ℕ) :
    zapEmbeddedPtrtblEnt bs idx = idx + 2 ^ (bs - 4) := by
  simp only [zapEmbeddedPtrtblEnt, wordAddr, zapEmbeddedPtrtblShift, Nat.one_shiftLeft, Nat.zero_mul,
    Nat.zero_add, Nat.sub_sub]

end Addresses

/-! ## What a copy writes -/

/-- **`zap_ptrtbl_transfer` doubles.**  Between source and destination apart, word `k` of the
`2n` written is source word `(k - dst) / 2`, and nothing else changes. -/
theorem zapPtrtblTransfer_apply {src dst n : ℕ} {words : ℕ → UInt64}
    (hdisj : src + n ≤ dst ∨ dst + 2 * n ≤ src) (k : ℕ) :
    zapPtrtblTransfer src dst n words k =
      if dst ≤ k ∧ k < dst + 2 * n then words (src + (k - dst) / 2) else words k := by
  induction n generalizing k with
  | zero =>
    simp [zapPtrtblTransfer]
  | succ n ih =>
    have ih' := ih (by omega)
    -- the word read at step `n` lies outside what the first `n` steps wrote
    have hsrc : zapPtrtblTransfer src dst n words (src + n) = words (src + n) := by
      rw [ih']
      split_ifs with h
      · omega
      · rfl
    unfold zapPtrtblTransfer at ih' hsrc ⊢
    rw [List.range_succ, List.foldl_append, List.foldl_cons, List.foldl_nil]
    dsimp only
    rw [hsrc]
    simp only [Function.update_apply, ih']
    split_ifs <;> first | rfl | omega | (congr 1; omega)

/-! ## The invariant -/

/-- The invariant of the table.  An embedded table has no block and the embedded shift; a table
in blocks holds its `2^zt_shift` entries in `zt_numblks` blocks past the header and below
`zap_freeblk`; while it grows, the new table has twice the blocks, past the old ones and below
`zap_freeblk`, and each entry of a block already copied stands at both of its slots there. -/
structure PtrtblOk (bs : ℕ) (s : ZapPtrtblState) : Prop where
  freeblk_pos : 1 ≤ s.zapFreeblk
  embedded : s.zapPtrtbl.ztNumblks = 0 →
    s.zapPtrtbl.ztBlk = 0 ∧ s.zapPtrtbl.ztNextblk = 0 ∧
      s.zapPtrtbl.ztShift = zapEmbeddedPtrtblShift bs
  table : s.zapPtrtbl.ztNumblks ≠ 0 →
    1 ≤ s.zapPtrtbl.ztBlk ∧ 2 ^ s.zapPtrtbl.ztShift = s.zapPtrtbl.ztNumblks * 2 ^ (bs - 3) ∧
      s.zapPtrtbl.ztBlk + s.zapPtrtbl.ztNumblks ≤ s.zapFreeblk ∧
      s.zapPtrtbl.ztBlksCopied < s.zapPtrtbl.ztNumblks
  idle : s.zapPtrtbl.ztNextblk = 0 → s.zapPtrtbl.ztBlksCopied = 0
  moving : s.zapPtrtbl.ztNextblk ≠ 0 → s.zapPtrtbl.ztNumblks ≠ 0 ∧
    s.zapPtrtbl.ztBlk + s.zapPtrtbl.ztNumblks ≤ s.zapPtrtbl.ztNextblk ∧
    s.zapPtrtbl.ztNextblk + 2 * s.zapPtrtbl.ztNumblks ≤ s.zapFreeblk
  copied : s.zapPtrtbl.ztNextblk ≠ 0 → ∀ i, i >>> (bs - 3) < s.zapPtrtbl.ztBlksCopied →
    s.words (wordAddr bs s.zapPtrtbl.ztNextblk (2 * i)) =
        s.words (wordAddr bs s.zapPtrtbl.ztBlk i) ∧
      s.words (wordAddr bs s.zapPtrtbl.ztNextblk (2 * i + 1)) =
        s.words (wordAddr bs s.zapPtrtbl.ztBlk i)

section Separation

variable {bs : ℕ}

theorem lt_of_shiftRight_lt {i b n : ℕ} (hi : i >>> (bs - 3) < b) (hb : b ≤ n) :
    i < n * 2 ^ (bs - 3) := by
  rw [Nat.shiftRight_eq_div_pow, Nat.div_lt_iff_lt_mul (Nat.two_pow_pos _)] at hi
  exact lt_of_lt_of_le hi (Nat.mul_le_mul_right _ hb)

/-- An entry of the new table in a block already copied is the old entry at half its index. -/
theorem PtrtblOk.new_eq_old {s : ZapPtrtblState} (ok : PtrtblOk bs s)
    (hnext : s.zapPtrtbl.ztNextblk ≠ 0) {j : ℕ} (hj : (j / 2) >>> (bs - 3) < s.zapPtrtbl.ztBlksCopied) :
    s.words (wordAddr bs s.zapPtrtbl.ztNextblk j) = s.words (wordAddr bs s.zapPtrtbl.ztBlk (j / 2)) := by
  obtain ⟨i, rfl | rfl⟩ := Nat.even_or_odd' j
  · have h2 : 2 * i / 2 = i := by omega
    rw [h2] at hj ⊢
    exact (ok.copied hnext i hj).1
  · have h2 : (2 * i + 1) / 2 = i := by omega
    rw [h2] at hj ⊢
    exact (ok.copied hnext i hj).2

end Separation

/-! ## Stores -/

section Store

variable {bs : ℕ} {s : ZapPtrtblState} {idx : ℕ} {val : UInt64}

theorem zapSetIdxToBlk_zapPtrtbl : (zapSetIdxToBlk bs s idx val).zapPtrtbl = s.zapPtrtbl := by
  unfold zapSetIdxToBlk
  split_ifs <;> rfl

theorem zapSetIdxToBlk_zapFreeblk : (zapSetIdxToBlk bs s idx val).zapFreeblk = s.zapFreeblk := by
  unfold zapSetIdxToBlk
  split_ifs <;> rfl

/-- **A store keeps the invariant**: it writes the entry to both of its slots in the new table. -/
theorem ptrtblOk_store (ok : PtrtblOk bs s) (hidx : idx < 2 ^ s.zapPtrtbl.ztShift) :
    PtrtblOk bs (zapSetIdxToBlk bs s idx val) := by
  have hp : (zapSetIdxToBlk bs s idx val).zapPtrtbl = s.zapPtrtbl := zapSetIdxToBlk_zapPtrtbl
  have hf : (zapSetIdxToBlk bs s idx val).zapFreeblk = s.zapFreeblk := zapSetIdxToBlk_zapFreeblk
  refine ⟨hf ▸ ok.freeblk_pos, hp ▸ ok.embedded, hf ▸ hp ▸ ok.table, hp ▸ ok.idle,
    hf ▸ hp ▸ ok.moving, ?_⟩
  rw [hp]
  intro hnext i hi
  obtain ⟨hn, hsep, -⟩ := ok.moving hnext
  obtain ⟨hblk, hshift, -, hcop⟩ := ok.table hn
  have hiE := lt_of_shiftRight_lt hi hcop.le
  have hidxE : idx < s.zapPtrtbl.ztNumblks * 2 ^ (bs - 3) := hshift ▸ hidx
  have hold := ok.copied hnext i hi
  have hmul := Nat.mul_le_mul_right (2 ^ (bs - 3)) hsep
  simp only [zapSetIdxToBlk, if_neg (show s.zapPtrtbl.ztBlk ≠ 0 by omega), zapTableStore_apply]
  rw [Nat.add_mul] at hmul
  unfold wordAddr at hold ⊢
  by_cases hii : i = idx
  · subst hii
    simp [hnext]
  · refine ⟨?_, ?_⟩
    · split_ifs <;> first | omega | exact hold.1
    · split_ifs <;> first | omega | exact hold.2

end Store

/-! ## A growth step of a table in blocks -/

/-- The block of the new table a call of `zap_table_grow` copies into: the one allocated by an
earlier call, or the first free block. -/
def ZapPtrtblState.growBlk (s : ZapPtrtblState) : ℕ :=
  if s.zapPtrtbl.ztNextblk ≠ 0 then s.zapPtrtbl.ztNextblk else s.zapFreeblk

/-- The two copies of a growth step: the halves of old block `ob` to new blocks `nb` and
`nb + 1`, together word `k` of the two new blocks from old word `k / 2`. -/
theorem zapPtrtblTransfer_halves {bs : ℕ} (hbs : 4 ≤ bs) {ob nb : ℕ}
    (hdisj : ob + 1 ≤ nb ∨ nb + 2 ≤ ob) (words : ℕ → UInt64) (k : ℕ) :
    zapPtrtblTransfer (wordAddr bs ob 0 + 1 <<< (bs - 4)) (wordAddr bs (nb + 1) 0) (1 <<< (bs - 4))
        (zapPtrtblTransfer (wordAddr bs ob 0) (wordAddr bs nb 0) (1 <<< (bs - 4)) words) k =
      if wordAddr bs nb 0 ≤ k ∧ k < wordAddr bs nb 0 + 2 * 2 ^ (bs - 3) then
        words (wordAddr bs ob 0 + (k - wordAddr bs nb 0) / 2)
      else words k := by
  have hE := two_pow_bs hbs
  have hob : wordAddr bs ob 0 = ob * 2 ^ (bs - 3) := rfl
  have hnb : wordAddr bs nb 0 = nb * 2 ^ (bs - 3) := rfl
  have hnb1 : wordAddr bs (nb + 1) 0 = nb * 2 ^ (bs - 3) + 2 ^ (bs - 3) := by
    simp only [wordAddr, Nat.add_zero, Nat.add_mul, Nat.one_mul]
  -- the old block and the two new ones lie apart, as multiples of the block size
  have hsep : ob * 2 ^ (bs - 3) + 2 ^ (bs - 3) ≤ nb * 2 ^ (bs - 3) ∨
      nb * 2 ^ (bs - 3) + 2 * 2 ^ (bs - 3) ≤ ob * 2 ^ (bs - 3) := by
    rcases hdisj with h | h
    · exact Or.inl (by simpa [Nat.add_mul] using Nat.mul_le_mul_right (2 ^ (bs - 3)) h)
    · exact Or.inr (by simpa [Nat.add_mul] using Nat.mul_le_mul_right (2 ^ (bs - 3)) h)
  rw [Nat.one_shiftLeft, zapPtrtblTransfer_apply (by omega)]
  simp only [zapPtrtblTransfer_apply (show wordAddr bs ob 0 + 2 ^ (bs - 4) ≤ wordAddr bs nb 0 ∨
    wordAddr bs nb 0 + 2 * 2 ^ (bs - 4) ≤ wordAddr bs ob 0 by omega)]
  split_ifs <;> first | omega | rfl | (congr 1; omega)

section Grow

variable {bs : ℕ} (s : ZapPtrtblState)

theorem zapTableGrow_zapPtrtbl :
    (zapTableGrow bs s).zapPtrtbl =
      if s.zapPtrtbl.ztBlksCopied + 1 = s.zapPtrtbl.ztNumblks then
        ⟨s.growBlk, s.zapPtrtbl.ztNumblks * 2, s.zapPtrtbl.ztShift + 1, 0, 0⟩
      else { s.zapPtrtbl with ztNextblk := s.growBlk, ztBlksCopied := s.zapPtrtbl.ztBlksCopied + 1 } := by
  unfold zapTableGrow ZapPtrtblState.growBlk
  by_cases hnext : s.zapPtrtbl.ztNextblk = 0
  · simp only [hnext, ne_eq, not_true_eq_false, if_false, zapAllocateBlocks]
    split_ifs <;> rfl
  · simp only [hnext, ne_eq, not_false_eq_true, if_true]
    split_ifs <;> rfl

theorem zapTableGrow_zapFreeblk :
    (zapTableGrow bs s).zapFreeblk =
      if s.zapPtrtbl.ztNextblk ≠ 0 then s.zapFreeblk else s.zapFreeblk + s.zapPtrtbl.ztNumblks * 2 := by
  unfold zapTableGrow
  by_cases hnext : s.zapPtrtbl.ztNextblk = 0
  · simp only [hnext, ne_eq, not_true_eq_false, if_false, zapAllocateBlocks]
    split_ifs <;> rfl
  · simp only [hnext, ne_eq, not_false_eq_true, if_true]
    split_ifs <;> rfl

/-- The words after a growth step: the two new blocks hold old block `zt_blks_copied` twice
over, and after the last block the old table is freed. -/
theorem zapTableGrow_words (hbs : 4 ≤ bs)
    (hsep : s.zapPtrtbl.ztBlk + s.zapPtrtbl.ztBlksCopied + 1 ≤ s.growBlk + 2 * s.zapPtrtbl.ztBlksCopied)
    (k : ℕ) :
    (zapTableGrow bs s).words k =
      if s.zapPtrtbl.ztBlksCopied + 1 = s.zapPtrtbl.ztNumblks ∧ wordAddr bs s.zapPtrtbl.ztBlk 0 ≤ k ∧
          k < wordAddr bs s.zapPtrtbl.ztBlk 0 + s.zapPtrtbl.ztNumblks * 2 ^ (bs - 3) then 0
      else if wordAddr bs (s.growBlk + 2 * s.zapPtrtbl.ztBlksCopied) 0 ≤ k ∧
          k < wordAddr bs (s.growBlk + 2 * s.zapPtrtbl.ztBlksCopied) 0 + 2 * 2 ^ (bs - 3) then
        s.words (wordAddr bs (s.zapPtrtbl.ztBlk + s.zapPtrtbl.ztBlksCopied) 0 +
          (k - wordAddr bs (s.growBlk + 2 * s.zapPtrtbl.ztBlksCopied) 0) / 2)
      else s.words k := by
  have hcopy := zapPtrtblTransfer_halves hbs (Or.inl hsep) s.words k
  unfold zapTableGrow
  unfold ZapPtrtblState.growBlk at hcopy ⊢
  by_cases hnext : s.zapPtrtbl.ztNextblk = 0
  · simp only [hnext, ne_eq, not_true_eq_false, if_false, zapAllocateBlocks] at hcopy ⊢
    split_ifs <;> simp_all [dmuFreeRange]
  · simp only [hnext, ne_eq, not_false_eq_true, if_true] at hcopy ⊢
    split_ifs <;> simp_all [dmuFreeRange]

variable {s}

/-- A growth step of a table in blocks copies past the old table, into blocks below the next free
block. -/
theorem PtrtblOk.growBlk_bounds (ok : PtrtblOk bs s) (hn : s.zapPtrtbl.ztNumblks ≠ 0) :
    s.zapPtrtbl.ztBlk + s.zapPtrtbl.ztNumblks ≤ s.growBlk ∧
      s.growBlk + 2 * s.zapPtrtbl.ztNumblks ≤ (zapTableGrow bs s).zapFreeblk := by
  rw [zapTableGrow_zapFreeblk]
  unfold ZapPtrtblState.growBlk
  obtain ⟨-, -, hfree, -⟩ := ok.table hn
  split_ifs with hnext
  · exact ⟨(ok.moving hnext).2.1, (ok.moving hnext).2.2⟩
  · omega

/-- Before the last block, a growth step leaves every entry of the table as it was. -/
theorem zapIdxToBlk_grow_copying (hbs : 4 ≤ bs) (ok : PtrtblOk bs s)
    (hn : s.zapPtrtbl.ztNumblks ≠ 0) (hlast : s.zapPtrtbl.ztBlksCopied + 1 ≠ s.zapPtrtbl.ztNumblks)
    {i : ℕ} (hi : i < 2 ^ s.zapPtrtbl.ztShift) :
    zapIdxToBlk bs (zapTableGrow bs s) i = zapIdxToBlk bs s i := by
  obtain ⟨-, hshift, -, hb⟩ := ok.table hn
  have hsep := (ok.growBlk_bounds hn).1
  have hmul := Nat.mul_le_mul_right (2 ^ (bs - 3)) hsep
  rw [Nat.add_mul] at hmul
  have hiE : i < s.zapPtrtbl.ztNumblks * 2 ^ (bs - 3) := hshift ▸ hi
  simp only [zapIdxToBlk, zapTableGrow_zapPtrtbl, if_neg hlast, if_neg hn, zapTableLoad_eq,
    zapTableGrow_words s hbs (by omega), if_neg (show ¬(_ ∧ _) from fun h => hlast h.1)]
  rw [if_neg]
  simp only [wordAddr, Nat.add_mul, Nat.mul_assoc, Nat.add_zero]
  omega

/-- The last block of a growth step switches to the new table, whose entry `j` is the old entry
`j / 2`. -/
theorem zapIdxToBlk_grow_last (hbs : 4 ≤ bs) (ok : PtrtblOk bs s)
    (hn : s.zapPtrtbl.ztNumblks ≠ 0) (hlast : s.zapPtrtbl.ztBlksCopied + 1 = s.zapPtrtbl.ztNumblks)
    {j : ℕ} (hj : j < 2 ^ (s.zapPtrtbl.ztShift + 1)) :
    zapIdxToBlk bs (zapTableGrow bs s) j = zapIdxToBlk bs s (j / 2) := by
  obtain ⟨-, hshift, -, hb⟩ := ok.table hn
  have hsep := (ok.growBlk_bounds hn).1
  have hmul := Nat.mul_le_mul_right (2 ^ (bs - 3)) hsep
  rw [Nat.add_mul] at hmul
  have hjE : j < 2 * (s.zapPtrtbl.ztNumblks * 2 ^ (bs - 3)) := by
    rw [Nat.pow_succ, hshift] at hj
    omega
  simp only [zapIdxToBlk, zapTableGrow_zapPtrtbl, if_pos hlast, if_neg hn,
    if_neg (show s.zapPtrtbl.ztNumblks * 2 ≠ 0 by omega), zapTableLoad_eq,
    zapTableGrow_words s hbs (by omega)]
  have hnE : s.zapPtrtbl.ztNumblks * 2 ^ (bs - 3) =
      s.zapPtrtbl.ztBlksCopied * 2 ^ (bs - 3) + 2 ^ (bs - 3) := by
    rw [← hlast, Nat.add_mul, Nat.one_mul]
  by_cases hcopy : (j / 2) >>> (bs - 3) < s.zapPtrtbl.ztBlksCopied
  · -- the blocks copied by earlier calls
    have hnext : s.zapPtrtbl.ztNextblk ≠ 0 := fun h =>
      absurd hcopy (by rw [ok.idle h]; exact Nat.not_lt_zero _)
    have hnb : s.growBlk = s.zapPtrtbl.ztNextblk := if_pos hnext
    have hlt := hcopy
    rw [Nat.shiftRight_eq_div_pow, Nat.div_lt_iff_lt_mul (Nat.two_pow_pos _)] at hlt
    rw [if_neg, if_neg, hnb, ok.new_eq_old hnext hcopy]
    all_goals
      simp only [wordAddr, Nat.add_mul, Nat.mul_assoc, Nat.add_zero]
      omega
  · -- the block this call copies
    rw [Nat.shiftRight_eq_div_pow, Nat.div_lt_iff_lt_mul (Nat.two_pow_pos _), not_lt] at hcopy
    rw [if_neg, if_pos]
    · congr 1
      simp only [wordAddr, Nat.add_mul, Nat.mul_assoc, Nat.add_zero]
      omega
    all_goals
      simp only [wordAddr, Nat.add_mul, Nat.mul_assoc, Nat.add_zero]
      omega

/-- While the table grows, each entry of the blocks copied so far, this call's block included,
stands at both of its slots in the new table. -/
theorem copied_tableGrow (hbs : 4 ≤ bs) (ok : PtrtblOk bs s) (hn : s.zapPtrtbl.ztNumblks ≠ 0)
    (hlast : ¬s.zapPtrtbl.ztBlksCopied + 1 = s.zapPtrtbl.ztNumblks) {i : ℕ}
    (hi : i >>> (bs - 3) < s.zapPtrtbl.ztBlksCopied + 1) :
    (zapTableGrow bs s).words (wordAddr bs s.growBlk (2 * i)) =
        (zapTableGrow bs s).words (wordAddr bs s.zapPtrtbl.ztBlk i) ∧
      (zapTableGrow bs s).words (wordAddr bs s.growBlk (2 * i + 1)) =
        (zapTableGrow bs s).words (wordAddr bs s.zapPtrtbl.ztBlk i) := by
  obtain ⟨-, -, -, hb⟩ := ok.table hn
  obtain ⟨hsep, hnew⟩ := ok.growBlk_bounds hn
  have hmul := Nat.mul_le_mul_right (2 ^ (bs - 3)) hsep
  rw [Nat.add_mul] at hmul
  have hiE := lt_of_shiftRight_lt hi (Nat.succ_le_of_lt hb)
  rw [Nat.shiftRight_eq_div_pow, Nat.div_lt_iff_lt_mul (Nat.two_pow_pos _)] at hi
  simp only [zapTableGrow_words s hbs (by omega), if_neg (show ¬(_ ∧ _) from fun h => hlast h.1)]
  by_cases hi' : i < s.zapPtrtbl.ztBlksCopied * 2 ^ (bs - 3)
  · -- a block copied by an earlier call, into the table allocated then
    have hnext : s.zapPtrtbl.ztNextblk ≠ 0 := fun h => by rw [ok.idle h] at hi'; omega
    have hcop : i >>> (bs - 3) < s.zapPtrtbl.ztBlksCopied := by
      rwa [Nat.shiftRight_eq_div_pow, Nat.div_lt_iff_lt_mul (Nat.two_pow_pos _)]
    have hnb : s.growBlk = s.zapPtrtbl.ztNextblk := if_pos hnext
    rw [hnb] at hmul ⊢
    rw [if_neg, if_neg, if_neg]
    · exact ok.copied hnext i hcop
    all_goals
      simp only [wordAddr, Nat.add_mul, Nat.mul_assoc, Nat.add_zero]
      omega
  · -- the block this call copies
    rw [Nat.add_mul, Nat.one_mul] at hi
    rw [if_pos, if_neg, if_pos]
    · refine ⟨congrArg s.words ?_, congrArg s.words ?_⟩
      all_goals
        simp only [wordAddr, Nat.add_mul, Nat.mul_assoc, Nat.add_zero]
        omega
    all_goals
      simp only [wordAddr, Nat.add_mul, Nat.mul_assoc, Nat.add_zero]
      omega

/-- **A growth step of a table in blocks keeps the invariant.**  The call copies one more block;
the last call leaves a table of twice the blocks, not growing. -/
theorem ptrtblOk_tableGrow (hbs : 4 ≤ bs) (ok : PtrtblOk bs s) (hn : s.zapPtrtbl.ztNumblks ≠ 0) :
    PtrtblOk bs (zapTableGrow bs s) := by
  obtain ⟨hblk, hshift, hfree, hb⟩ := ok.table hn
  obtain ⟨hsep, hnew⟩ := ok.growBlk_bounds hn
  have hfree' : s.zapFreeblk ≤ (zapTableGrow bs s).zapFreeblk := by
    rw [zapTableGrow_zapFreeblk]
    split_ifs <;> omega
  have hpos := ok.freeblk_pos
  by_cases hlast : s.zapPtrtbl.ztBlksCopied + 1 = s.zapPtrtbl.ztNumblks
  · have hp : (zapTableGrow bs s).zapPtrtbl = _ := zapTableGrow_zapPtrtbl s
    rw [if_pos hlast] at hp
    refine ⟨by omega, fun h => ?_, fun _ => ?_, fun _ => ?_, fun h => ?_, fun h => ?_⟩
    · simp only [hp] at h
      omega
    · simp only [hp]
      refine ⟨by omega, ?_, by omega, by omega⟩
      rw [Nat.pow_succ, hshift, Nat.mul_right_comm]
    · simp only [hp]
    · simp only [hp] at h
      exact absurd rfl h
    · simp only [hp] at h
      exact absurd rfl h
  · have hp : (zapTableGrow bs s).zapPtrtbl = _ := zapTableGrow_zapPtrtbl s
    rw [if_neg hlast] at hp
    refine ⟨by omega, fun h => ?_, fun _ => ?_, fun h => ?_, fun _ => ?_, fun _ i hi => ?_⟩
    · simp only [hp] at h
      exact absurd h hn
    · simp only [hp]
      exact ⟨hblk, hshift, by omega, by omega⟩
    · simp only [hp] at h
      omega
    · simp only [hp]
      exact ⟨hn, hsep, by omega⟩
    · simp only [hp] at hi ⊢
      exact copied_tableGrow hbs ok hn hlast hi

end Grow

/-! ## `zap_grow_ptrtbl` -/

section GrowPtrtbl

variable {bs : ℕ} {flags : UInt64} {s s' : ZapPtrtblState}

/-- A call of `zap_grow_ptrtbl` that succeeds found the shift below the hash bits, and moved the
embedded table to the first free block or grew the table in blocks. -/
theorem zapGrowPtrtbl_eq_ok (h : zapGrowPtrtbl bs flags s = .ok s') :
    s.zapPtrtbl.ztShift < zapHashbits flags - 2 ∧
      ((s.zapPtrtbl.ztNumblks = 0 ∧
        s' = ⟨{ s.zapPtrtbl with
            ztBlk := s.zapFreeblk, ztNumblks := 1, ztShift := s.zapPtrtbl.ztShift + 1 },
          s.zapFreeblk + 1,
          zapPtrtblTransfer (zapEmbeddedPtrtblEnt bs 0) (wordAddr bs s.zapFreeblk 0)
            (1 <<< zapEmbeddedPtrtblShift bs) s.words⟩) ∨
        (s.zapPtrtbl.ztNumblks ≠ 0 ∧ s' = zapTableGrow bs s)) := by
  unfold zapGrowPtrtbl at h
  split_ifs at h with hshift hn
  · cases h
    exact ⟨by omega, Or.inl ⟨hn, rfl⟩⟩
  · cases h
    exact ⟨by omega, Or.inr ⟨hn, rfl⟩⟩

theorem zapHashbits_le (flags : UInt64) : zapHashbits flags ≤ 48 := by
  unfold zapHashbits
  split_ifs <;> omega

/-- The words of the embedded table moved to block `fb`: entry `j` of the new block is embedded
entry `j / 2`. -/
theorem zapPtrtblTransfer_embedded (hbs : 4 ≤ bs) {fb : ℕ} (hfb : 1 ≤ fb) (words : ℕ → UInt64)
    {j : ℕ} (hj : j < 2 ^ (bs - 3)) :
    zapPtrtblTransfer (zapEmbeddedPtrtblEnt bs 0) (wordAddr bs fb 0) (1 <<< zapEmbeddedPtrtblShift bs)
        words (wordAddr bs fb j) = words (zapEmbeddedPtrtblEnt bs (j / 2)) := by
  have hE := two_pow_bs hbs
  have hfbE := Nat.mul_le_mul_right (2 ^ (bs - 3)) hfb
  have hsh : zapEmbeddedPtrtblShift bs = bs - 4 := by
    unfold zapEmbeddedPtrtblShift
    omega
  rw [zapEmbeddedPtrtblEnt_eq, zapEmbeddedPtrtblEnt_eq, hsh, Nat.one_shiftLeft]
  unfold wordAddr
  rw [zapPtrtblTransfer_apply (by omega), if_pos (by omega)]
  congr 1
  omega

/-- **A growth step keeps the invariant.** -/
theorem ptrtblOk_grow (hbs : 4 ≤ bs) (ok : PtrtblOk bs s) (hg : zapGrowPtrtbl bs flags s = .ok s') :
    PtrtblOk bs s' := by
  obtain ⟨-, ⟨hn, rfl⟩ | ⟨hn, rfl⟩⟩ := zapGrowPtrtbl_eq_ok hg
  · -- the embedded table moves to a block of its own
    obtain ⟨-, hnext, hshift⟩ := ok.embedded hn
    have hcop := ok.idle hnext
    have hpos := ok.freeblk_pos
    refine ⟨Nat.le_succ_of_le hpos, fun h => absurd h one_ne_zero,
      fun _ => ⟨hpos, ?_, Nat.le_refl _, by simp [hcop]⟩,
      fun _ => hcop, fun h => absurd hnext h, fun h => absurd hnext h⟩
    simp only [hshift, zapEmbeddedPtrtblShift, Nat.one_mul]
    congr 1
    omega
  · exact ptrtblOk_tableGrow hbs ok hn

/-- **What a growth step does to the map.**  A call either leaves every entry as it was, or doubles
the table so that entry `j` is the old entry `j / 2`: when it moves the embedded table, and at the
last block of a table in blocks. -/
theorem zapIdxToBlk_grow (hbs : 4 ≤ bs) (ok : PtrtblOk bs s) (hg : zapGrowPtrtbl bs flags s = .ok s') :
    (s'.zapPtrtbl.ztShift = s.zapPtrtbl.ztShift ∧
        ∀ i < 2 ^ s.zapPtrtbl.ztShift, zapIdxToBlk bs s' i = zapIdxToBlk bs s i) ∨
      (s'.zapPtrtbl.ztShift = s.zapPtrtbl.ztShift + 1 ∧
        ∀ j < 2 ^ s'.zapPtrtbl.ztShift, zapIdxToBlk bs s' j = zapIdxToBlk bs s (j / 2)) := by
  obtain ⟨-, ⟨hn, rfl⟩ | ⟨hn, rfl⟩⟩ := zapGrowPtrtbl_eq_ok hg
  · obtain ⟨-, -, hshift⟩ := ok.embedded hn
    refine Or.inr ⟨rfl, fun j hj => ?_⟩
    have hj' : j < 2 ^ (bs - 3) := by
      simp only [hshift, zapEmbeddedPtrtblShift] at hj
      rwa [show bs - 3 - 1 + 1 = bs - 3 by omega] at hj
    simp only [zapIdxToBlk, hn, if_true, one_ne_zero, if_false, zapTableLoad_eq]
    exact zapPtrtblTransfer_embedded hbs ok.freeblk_pos s.words hj'
  · by_cases hlast : s.zapPtrtbl.ztBlksCopied + 1 = s.zapPtrtbl.ztNumblks
    · have hsh : (zapTableGrow bs s).zapPtrtbl.ztShift = s.zapPtrtbl.ztShift + 1 := by
        rw [zapTableGrow_zapPtrtbl, if_pos hlast]
      exact Or.inr ⟨hsh, fun j hj => zapIdxToBlk_grow_last hbs ok hn hlast (hsh ▸ hj)⟩
    · have hsh : (zapTableGrow bs s).zapPtrtbl.ztShift = s.zapPtrtbl.ztShift := by
        rw [zapTableGrow_zapPtrtbl, if_neg hlast]
      exact Or.inl ⟨hsh, fun i hi => zapIdxToBlk_grow_copying hbs ok hn hlast hi⟩

/-- **What a growth step does to the map, by its kind**: the move of the embedded table and the
copy of the last block add one bit of shift and double the map; the copy of another block
leaves the shift and the map as they were. -/
theorem zapIdxToBlk_grow_kind (hbs : 4 ≤ bs) (ok : PtrtblOk bs s)
    (hg : zapGrowPtrtbl bs flags s = .ok s') :
    ((s.zapPtrtbl.ztNumblks = 0 ∨ s.zapPtrtbl.ztBlksCopied + 1 = s.zapPtrtbl.ztNumblks) →
        s'.zapPtrtbl.ztShift = s.zapPtrtbl.ztShift + 1 ∧
          ∀ j < 2 ^ s'.zapPtrtbl.ztShift, zapIdxToBlk bs s' j = zapIdxToBlk bs s (j / 2)) ∧
      (¬(s.zapPtrtbl.ztNumblks = 0 ∨ s.zapPtrtbl.ztBlksCopied + 1 = s.zapPtrtbl.ztNumblks) →
        s'.zapPtrtbl.ztShift = s.zapPtrtbl.ztShift ∧
          ∀ i < 2 ^ s.zapPtrtbl.ztShift, zapIdxToBlk bs s' i = zapIdxToBlk bs s i) := by
  obtain ⟨-, ⟨hn, hs'⟩ | ⟨hn, hs'⟩⟩ := zapGrowPtrtbl_eq_ok hg
  · -- the embedded move sets the shift one higher
    have hsh : s'.zapPtrtbl.ztShift = s.zapPtrtbl.ztShift + 1 := by rw [hs']
    refine ⟨fun _ => ⟨hsh, ?_⟩, fun hk => absurd (Or.inl hn) hk⟩
    rcases zapIdxToBlk_grow hbs ok hg with ⟨h1, -⟩ | ⟨-, hdouble⟩
    · omega
    · exact hdouble
  · subst hs'
    constructor
    · intro hk
      have hlast := hk.resolve_left hn
      exact ⟨by rw [zapTableGrow_zapPtrtbl, if_pos hlast],
        fun j hj => zapIdxToBlk_grow_last hbs ok hn hlast (by rwa [zapTableGrow_zapPtrtbl, if_pos hlast] at hj)⟩
    · intro hk
      have hlast : s.zapPtrtbl.ztBlksCopied + 1 ≠ s.zapPtrtbl.ztNumblks := fun h => hk (Or.inr h)
      exact ⟨by rw [zapTableGrow_zapPtrtbl, if_neg hlast],
        fun i hi => zapIdxToBlk_grow_copying hbs ok hn hlast hi⟩

end GrowPtrtbl

/-! ## Hashes -/

theorem zapHashIdx_lt (h : UInt64) {n : ℕ} (hn : n ≤ 64) : zapHashIdx h n < 2 ^ n := by
  unfold zapHashIdx
  split_ifs with h0
  · exact Nat.two_pow_pos n
  · rw [Nat.shiftRight_eq_div_pow, Nat.div_lt_iff_lt_mul (Nat.two_pow_pos _), ← Nat.pow_add,
      show n + (64 - n) = 64 by omega]
    exact h.toNat_lt

/-- One more bit of shift takes one more bit of the hash: halved, the index is the old one. -/
theorem zapHashIdx_succ_div_two (h : UInt64) {n : ℕ} (hn : n < 64) :
    zapHashIdx h (n + 1) / 2 = zapHashIdx h n := by
  have hpow : 2 ^ (64 - (n + 1)) * 2 = 2 ^ (64 - n) := by
    rw [← Nat.pow_succ]
    congr 1
    omega
  unfold zapHashIdx
  rw [if_neg (Nat.succ_ne_zero n), Nat.shiftRight_eq_div_pow, Nat.div_div_eq_div_mul, hpow]
  split_ifs with h0
  · subst h0
    exact Nat.div_eq_of_lt h.toNat_lt
  · rw [Nat.shiftRight_eq_div_pow]

/-- **A growth step leaves the leaf of every hash where it was.** -/
theorem zapDerefLeafBlk_grow {bs : ℕ} {flags : UInt64} {s s' : ZapPtrtblState} (hbs : 4 ≤ bs)
    (ok : PtrtblOk bs s) (hg : zapGrowPtrtbl bs flags s = .ok s') (h : UInt64) :
    zapDerefLeafBlk bs s' h = zapDerefLeafBlk bs s h := by
  have hlt := (zapGrowPtrtbl_eq_ok hg).1
  have hbits := zapHashbits_le flags
  unfold zapDerefLeafBlk
  rcases zapIdxToBlk_grow hbs ok hg with ⟨hsh, hsame⟩ | ⟨hsh, hdouble⟩
  · rw [hsh]
    exact hsame _ (zapHashIdx_lt h (by omega))
  · rw [hsh] at hdouble ⊢
    rw [hdouble _ (zapHashIdx_lt h (by omega)), zapHashIdx_succ_div_two h (by omega)]

/-! ## Every interleaving -/

section Run

variable {bs : ℕ} {flags : UInt64}

theorem ptrtblOk_step (hbs : 4 ≤ bs) {s s' : ZapPtrtblState} (ok : PtrtblOk bs s)
    (hstep : ZapPtrtblStep bs flags s s') : PtrtblOk bs s' := by
  cases hstep with
  | grow hg => exact ptrtblOk_grow hbs ok hg
  | store idx blk hidx => exact ptrtblOk_store ok hidx

theorem ptrtblOk_run (hbs : 4 ≤ bs) {s₀ s : ZapPtrtblState} (ok : PtrtblOk bs s₀)
    (hrun : Relation.ReflTransGen (ZapPtrtblStep bs flags) s₀ s) : PtrtblOk bs s := by
  induction hrun with
  | refl => exact ok
  | tail _ hstep ih => exact ptrtblOk_step hbs ih hstep

/-- **The doubling keeps the map from hashes to leaves.**  Along every interleaving of growth
steps and stores from a table that keeps the invariant: each entry of a block already copied stands
at both of its slots in the new table; a growth step that increments `zt_shift` doubles the map,
entry `j` becoming the old entry `j / 2`; and no growth step moves the leaf of any hash. -/
theorem zapPtrtbl_doubling (hbs : 4 ≤ bs) {s₀ s : ZapPtrtblState} (ok : PtrtblOk bs s₀)
    (hrun : Relation.ReflTransGen (ZapPtrtblStep bs flags) s₀ s) :
    (s.zapPtrtbl.ztNextblk ≠ 0 → ∀ i, i >>> (bs - 3) < s.zapPtrtbl.ztBlksCopied →
      s.words (wordAddr bs s.zapPtrtbl.ztNextblk (2 * i)) = zapIdxToBlk bs s i ∧
        s.words (wordAddr bs s.zapPtrtbl.ztNextblk (2 * i + 1)) = zapIdxToBlk bs s i) ∧
    ∀ s', zapGrowPtrtbl bs flags s = .ok s' →
      ((s.zapPtrtbl.ztNumblks = 0 ∨ s.zapPtrtbl.ztBlksCopied + 1 = s.zapPtrtbl.ztNumblks) →
        s'.zapPtrtbl.ztShift = s.zapPtrtbl.ztShift + 1 ∧
          ∀ j < 2 ^ s'.zapPtrtbl.ztShift, zapIdxToBlk bs s' j = zapIdxToBlk bs s (j / 2)) ∧
      (¬(s.zapPtrtbl.ztNumblks = 0 ∨ s.zapPtrtbl.ztBlksCopied + 1 = s.zapPtrtbl.ztNumblks) →
        s'.zapPtrtbl.ztShift = s.zapPtrtbl.ztShift ∧
          ∀ i < 2 ^ s.zapPtrtbl.ztShift, zapIdxToBlk bs s' i = zapIdxToBlk bs s i) ∧
      ∀ h, zapDerefLeafBlk bs s' h = zapDerefLeafBlk bs s h := by
  have oks := ptrtblOk_run hbs ok hrun
  refine ⟨fun hnext i hi => ?_, fun s' hg =>
    ⟨(zapIdxToBlk_grow_kind hbs oks hg).1, (zapIdxToBlk_grow_kind hbs oks hg).2,
      zapDerefLeafBlk_grow hbs oks hg⟩⟩
  have hn := (oks.moving hnext).1
  simp only [zapIdxToBlk, if_neg hn, zapTableLoad_eq]
  exact oks.copied hnext i hi

end Run

/-- An embedded table of 16K blocks, as `fzap_upgrade` leaves it: shift `10`, the header and the
first leaf allocated. -/
def zapPtrtblEmbedded : ZapPtrtblState := ⟨⟨0, 0, 10, 0, 0⟩, 2, fun _ => 0⟩

theorem zapPtrtblEmbedded_ok : PtrtblOk 14 zapPtrtblEmbedded :=
  ⟨by decide, fun _ => ⟨rfl, rfl, rfl⟩, fun h => absurd rfl h, fun _ => rfl, fun h => absurd rfl h,
    fun h => absurd rfl h⟩

/-- The embedded table of `zapPtrtblEmbedded` moved to block `2`, as the first growth step
leaves it. -/
def zapPtrtblMoved : ZapPtrtblState :=
  ⟨⟨2, 1, 11, 0, 0⟩, 3, zapPtrtblTransfer (zapEmbeddedPtrtblEnt 14 0) (wordAddr 14 2 0)
    (1 <<< zapEmbeddedPtrtblShift 14) fun _ => 0⟩

theorem zapGrowPtrtbl_embedded : zapGrowPtrtbl 14 0 zapPtrtblEmbedded = .ok zapPtrtblMoved := rfl

theorem zapPtrtbl_doubling_embedded :
    4 ≤ 14 ∧ PtrtblOk 14 zapPtrtblEmbedded ∧
      Relation.ReflTransGen (ZapPtrtblStep 14 0) zapPtrtblEmbedded zapPtrtblMoved ∧
      (zapPtrtblMoved.zapPtrtbl.ztNextblk ≠ 0 → ∀ i,
        i >>> (14 - 3) < zapPtrtblMoved.zapPtrtbl.ztBlksCopied →
        zapPtrtblMoved.words (wordAddr 14 zapPtrtblMoved.zapPtrtbl.ztNextblk (2 * i)) =
            zapIdxToBlk 14 zapPtrtblMoved i ∧
          zapPtrtblMoved.words (wordAddr 14 zapPtrtblMoved.zapPtrtbl.ztNextblk (2 * i + 1)) =
            zapIdxToBlk 14 zapPtrtblMoved i) ∧
      ∀ s', zapGrowPtrtbl 14 0 zapPtrtblMoved = .ok s' →
        ((zapPtrtblMoved.zapPtrtbl.ztNumblks = 0 ∨
            zapPtrtblMoved.zapPtrtbl.ztBlksCopied + 1 = zapPtrtblMoved.zapPtrtbl.ztNumblks) →
          s'.zapPtrtbl.ztShift = zapPtrtblMoved.zapPtrtbl.ztShift + 1 ∧
            ∀ j < 2 ^ s'.zapPtrtbl.ztShift,
              zapIdxToBlk 14 s' j = zapIdxToBlk 14 zapPtrtblMoved (j / 2)) ∧
        (¬(zapPtrtblMoved.zapPtrtbl.ztNumblks = 0 ∨
            zapPtrtblMoved.zapPtrtbl.ztBlksCopied + 1 = zapPtrtblMoved.zapPtrtbl.ztNumblks) →
          s'.zapPtrtbl.ztShift = zapPtrtblMoved.zapPtrtbl.ztShift ∧
            ∀ i < 2 ^ zapPtrtblMoved.zapPtrtbl.ztShift,
              zapIdxToBlk 14 s' i = zapIdxToBlk 14 zapPtrtblMoved i) ∧
        ∀ h, zapDerefLeafBlk 14 s' h = zapDerefLeafBlk 14 zapPtrtblMoved h :=
  have hrun : Relation.ReflTransGen (ZapPtrtblStep 14 0) zapPtrtblEmbedded zapPtrtblMoved :=
    .single (.grow zapGrowPtrtbl_embedded)
  ⟨by decide, zapPtrtblEmbedded_ok, hrun,
    zapPtrtbl_doubling (by decide) zapPtrtblEmbedded_ok hrun⟩

end Zfs
