import Mathlib.Order.Bounds.Basic
import Mathlib.Data.Finset.Card
import Mathlib.Data.List.TakeWhile
import Zfs.Lib.Intervals
import Zfs.Zap.Cursor

/-!
# Zap/Cd — collision differentiators

Entries whose hashes collide are told apart by their `cd`.  `zap_entry_create` with `ZAP_NEED_CD`
gives a new entry the lowest `cd` that no entry of its hash uses: a leaf in the `cd`-sorted format
finds it in one walk of the hash's chain, which mixes entries of other hashes and stops at the
first `cd` above the count so far; an old unsorted leaf searches the chain once for every
candidate.  `mze_find_unused_cd` walks the micro ZAP's AVL tree from `(hash, 0)`.
`zap_leaf_rehash_entry` links the new entry behind the entries of no larger `cd`.

* `zapEntryCreateUnsortedScan_isLeast` — the search of an unsorted leaf finds the lowest unused
  `cd` on any chain, within one more turn than the chain is long;
* `zapEntryCreateSortedScan_isLeast` — so does the walk of a chain sorted by `cd` on which no
  entry is twice, whatever the other hashes on it;
* `mzeFindUnusedCd_isLeast` — and the walk of the micro ZAP;
* `ZapLeafOk.create` — the new entry keeps every chain sorted and free of repeats, so the
  leaves made by creates and removes have the invariants the walks rely on (`ZapLeafReach.ok`).
-/

namespace Zfs

/-! ## The scans (`zap_leaf.c`, `zap_micro.c`) -/

/-- `ZAP_NEED_CD`. -/
def zapNeedCd : UInt32 := 0xFFFFFFFF

/-- The walk of a `cd`-sorted chain in `zap_entry_create`: `cd` counts the entries of the hash
met so far, and the walk stops at the first entry whose `cd` is above the count. -/
def zapEntryCreateSortedScan (h : UInt64) : UInt32 → List ZapLeafEntry → UInt32
  | cd, [] => cd
  | cd, le :: chain =>
    if le.leCd > cd then cd
    else zapEntryCreateSortedScan h (if le.leHash = h then cd + 1 else cd) chain

/-- The search of an old unsorted leaf in `zap_entry_create`: for `cd = 0, 1, ...` a walk of the
chain for an entry of the hash with that `cd`, until none is found.  The C loop has no bound;
`fuel` bounds its turns. -/
def zapEntryCreateUnsortedScan (h : UInt64) (chain : List ZapLeafEntry) : ℕ → UInt32 → UInt32
  | 0, cd => cd
  | n + 1, cd =>
    if chain.any (fun le => le.leHash == h && le.leCd == cd) then
      zapEntryCreateUnsortedScan h chain n (cd + 1)
    else cd

/-- The `cd` `zap_entry_create(l, zn, cd, ...)` gives the new entry of hash `h`: `cd` itself, or
under `ZAP_NEED_CD` what the scan of the leaf's format (`ZLF_ENTRIES_CDSORTED`) finds on the
chain of `LEAF_HASH(l, h)`; the unsorted search is given one more turn than the chain is long. -/
def zapEntryCreateCd (l : ZapLeaf) (cdsorted : Bool) (h : UInt64) (cd : UInt32) : UInt32 :=
  if cd = zapNeedCd then
    let chain := l.lHash (leafHash l h)
    if cdsorted then zapEntryCreateSortedScan h 0 chain
    else zapEntryCreateUnsortedScan h chain (chain.length + 1) 0
  else cd

/-- `zap_leaf_rehash_entry(l, entry)`: the entry linked into the chain of its hash in front of
the first entry whose `cd` is larger. -/
def zapLeafRehashEntry (l : ZapLeaf) (le : ZapLeafEntry) : ZapLeaf :=
  let b := leafHash l le.leHash
  let chain := l.lHash b
  let before := fun le2 : ZapLeafEntry => !(le2.leCd > le.leCd)
  { l with
    lHash := Function.update l.lHash b (chain.takeWhile before ++ le :: chain.dropWhile before) }

/-- `zap_entry_create(l, zn, cd, ...)` when the leaf has room: the entry of hash `h` with its
`cd`, linked into its chain. -/
def zapEntryCreate (l : ZapLeaf) (cdsorted : Bool) (h : UInt64) (cd : UInt32) : ZapLeaf :=
  zapLeafRehashEntry l ⟨h, zapEntryCreateCd l cdsorted h cd⟩

/-- `zap_entry_remove(zeh)`: the entry at place `i` of the chain of bucket `b` unlinked. -/
def zapEntryRemove (l : ZapLeaf) (b i : ℕ) : ZapLeaf :=
  { l with lHash := Function.update l.lHash b ((l.lHash b).eraseIdx i) }

/-- The walk of `mze_find_unused_cd` from the entry `avl_find` gives: count up while the entries
of the hash have `cd` equal to the count. -/
def mzeFindUnusedCdLoop (hash : UInt64) : UInt32 → List ZapLeafEntry → UInt32
  | cd, [] => cd
  | cd, mze :: rest =>
    if mze.leHash = hash then
      if mze.leCd ≠ cd then cd else mzeFindUnusedCdLoop hash (cd + 1) rest
    else cd

/-- `mze_find_unused_cd(zap, hash)`: `avl_find` of `(hash, 0)` is that entry or `NULL`, and the
walk goes on through the tree in order from there. -/
def mzeFindUnusedCd (avl : MzapAvl) (hash : UInt64) : UInt32 :=
  mzeFindUnusedCdLoop hash 0 (avl.ents.dropWhile (· ≠ ⟨hash, 0⟩))

/-! ## The lowest unused `cd` -/

/-- The `cd` `c` is used by an entry of hash `h` on a list of entries. -/
def CdUsed (ents : List ZapLeafEntry) (h : UInt64) (c : ℕ) : Prop :=
  ∃ e ∈ ents, e.leHash = h ∧ e.leCd.toNat = c

/-- A `cd` that is unused while all below it are used is the lowest unused one. -/
theorem isLeast_of_cdUsed {ents : List ZapLeafEntry} {h : UInt64} {r : ℕ}
    (hr : ¬CdUsed ents h r) (hbelow : ∀ c < r, CdUsed ents h c) :
    IsLeast {c | ¬CdUsed ents h c} r :=
  ⟨hr, fun c hc => Nat.le_of_not_lt fun hlt => hc (hbelow c hlt)⟩

/-- A list on which every `cd` below `n` is used for one hash has at least `n` entries. -/
theorem le_length_of_cdUsed {ents : List ZapLeafEntry} {h : UInt64} {n : ℕ}
    (hn : ∀ c < n, CdUsed ents h c) : n ≤ ents.length := by
  have hsub : Finset.range n ⊆ (ents.map fun e => e.leCd.toNat).toFinset := by
    intro c hc
    obtain ⟨e, he, -, rfl⟩ := hn c (Finset.mem_range.mp hc)
    exact List.mem_toFinset.mpr (List.mem_map_of_mem he)
  calc n = (Finset.range n).card := (Finset.card_range n).symm
    _ ≤ (ents.map fun e => e.leCd.toNat).toFinset.card := Finset.card_le_card hsub
    _ ≤ (ents.map fun e => e.leCd.toNat).length := List.toFinset_card_le _
    _ = ents.length := List.length_map ..

/-- The count a scan moves on from stays inside `uint32_t`: every `cd` up to it is used, so the
list is longer than it. -/
theorem toNat_add_one_of_cdUsed {ents : List ZapLeafEntry} {h : UInt64} {cd : UInt32}
    (hlen : ents.length < 2 ^ 32) (hused : ∀ c ≤ cd.toNat, CdUsed ents h c) :
    (cd + 1).toNat = cd.toNat + 1 := by
  have hle := le_length_of_cdUsed (n := cd.toNat + 1) fun c hc => hused c (by omega)
  rw [UInt32.toNat_add, UInt32.toNat_one]
  omega

/-- One candidate of the unsorted search is used iff an entry of the hash on the chain has it. -/
theorem any_eq_true_iff_cdUsed {chain : List ZapLeafEntry} {h : UInt64} {cd : UInt32} :
    chain.any (fun le => le.leHash == h && le.leCd == cd) = true ↔ CdUsed chain h cd.toNat := by
  simp only [List.any_eq_true, Bool.and_eq_true, beq_iff_eq, CdUsed, UInt32.toNat_inj]

/-- The search of an unsorted chain keeps every candidate it passes used, and stops at an
unused one or when the fuel runs out. -/
theorem zapEntryCreateUnsortedScan_spec {h : UInt64} {chain : List ZapLeafEntry}
    (hlen : chain.length < 2 ^ 32) : ∀ (n : ℕ) (cd : UInt32), (∀ c < cd.toNat, CdUsed chain h c) →
      (∀ c < (zapEntryCreateUnsortedScan h chain n cd).toNat, CdUsed chain h c) ∧
        (¬CdUsed chain h (zapEntryCreateUnsortedScan h chain n cd).toNat ∨
          (zapEntryCreateUnsortedScan h chain n cd).toNat = cd.toNat + n)
  | 0, cd, hcd => ⟨hcd, .inr rfl⟩
  | n + 1, cd, hcd => by
    rw [zapEntryCreateUnsortedScan]
    split_ifs with hany
    · -- `cd` is used, so are all below `cd + 1`, and the search goes on from there
      have hupto : ∀ c ≤ cd.toNat, CdUsed chain h c := fun c hc =>
        (Nat.lt_or_eq_of_le hc).elim (hcd c) fun hc => hc ▸ any_eq_true_iff_cdUsed.mp hany
      have hsucc := toNat_add_one_of_cdUsed hlen hupto
      obtain ⟨hbelow, hstop⟩ := zapEntryCreateUnsortedScan_spec hlen n (cd + 1)
        fun c hc => hupto c (by omega)
      exact ⟨hbelow, hstop.imp_right fun h => by omega⟩
    · exact ⟨hcd, .inl fun hused => hany (any_eq_true_iff_cdUsed.mpr hused)⟩

/-- **The search of an unsorted leaf finds the lowest unused `cd`**, on any chain: one more turn
than the chain is long is always enough. -/
theorem zapEntryCreateUnsortedScan_isLeast {h : UInt64} {chain : List ZapLeafEntry}
    (hlen : chain.length < 2 ^ 32) :
    IsLeast {c | ¬CdUsed chain h c}
      (zapEntryCreateUnsortedScan h chain (chain.length + 1) 0).toNat := by
  obtain ⟨hbelow, hstop⟩ := zapEntryCreateUnsortedScan_spec hlen (chain.length + 1) 0
    fun c hc => absurd hc (Nat.not_lt_zero c)
  refine isLeast_of_cdUsed (hstop.resolve_right fun hfuel => ?_) hbelow
  -- running out of fuel would take `chain.length + 1` used `cd`s
  have hle := le_length_of_cdUsed (hfuel ▸ hbelow)
  simp at hle

/-! ## The walk of a sorted chain -/

theorem cdUsed_append_singleton {pre : List ZapLeafEntry} {e : ZapLeafEntry} {h : UInt64} {c : ℕ} :
    CdUsed (pre ++ [e]) h c ↔ CdUsed pre h c ∨ (e.leHash = h ∧ e.leCd.toNat = c) := by
  simp only [CdUsed, List.mem_append, List.mem_singleton, or_and_right, exists_or, exists_eq_left]

theorem cdUsed_append_left {pre rest : List ZapLeafEntry} {h : UInt64} {c : ℕ}
    (hu : CdUsed pre h c) : CdUsed (pre ++ rest) h c :=
  let ⟨e, he, hh, hc⟩ := hu
  ⟨e, List.mem_append_left _ he, hh, hc⟩

/-- The walk of a sorted chain, from a point where the entries of the hash already passed have
exactly the `cd`s below the count, ends at the lowest `cd` unused on the whole chain.  Entries of
other hashes can only stop it early where nothing later has the count, for the chain is sorted by
`cd`; an entry of the hash below the count would be on the chain twice. -/
theorem zapEntryCreateSortedScan_spec {h : UInt64} :
    ∀ (rest pre : List ZapLeafEntry) (cd : UInt32),
      (pre ++ rest).Pairwise (fun a b => a.leCd.toNat ≤ b.leCd.toNat) → (pre ++ rest).Nodup →
      (pre ++ rest).length < 2 ^ 32 → (∀ c, CdUsed pre h c ↔ c < cd.toNat) →
      IsLeast {c | ¬CdUsed (pre ++ rest) h c} (zapEntryCreateSortedScan h cd rest).toNat
  | [], pre, cd, _, _, _, hpre => by
    rw [List.append_nil]
    exact isLeast_of_cdUsed (fun hu => lt_irrefl _ ((hpre _).mp hu)) fun c hc => (hpre c).mpr hc
  | le :: rest, pre, cd, hs, hnd, hlen, hpre => by
    have hbelow : ∀ c < cd.toNat, CdUsed (pre ++ le :: rest) h c :=
      fun c hc => cdUsed_append_left ((hpre c).mpr hc)
    have hsle : ∀ e ∈ rest, le.leCd.toNat ≤ e.leCd.toNat :=
      (List.pairwise_cons.mp (List.pairwise_append.mp hs).2.1).1
    rw [zapEntryCreateSortedScan]
    split_ifs with hgt hh
    · -- every entry from `le` on has a `cd` above the count
      rw [gt_iff_lt, UInt32.lt_iff_toNat_lt] at hgt
      refine isLeast_of_cdUsed (fun ⟨e, he, hh, hc⟩ => ?_) hbelow
      rcases List.mem_append.mp he with he | he
      · exact lt_irrefl _ ((hpre _).mp ⟨e, he, hh, hc⟩)
      · rcases List.mem_cons.mp he with rfl | he
        · omega
        · have := hsle e he
          omega
    · -- `le` is the entry of the hash with the count itself
      rw [gt_iff_lt, UInt32.lt_iff_toNat_lt, not_lt] at hgt
      have hcd : le.leCd.toNat = cd.toNat := by
        refine le_antisymm hgt (not_lt.mp fun hlt => ?_)
        obtain ⟨e, he, hhe, hce⟩ := (hpre _).mpr hlt
        have heq : e = le := by
          cases e
          cases le
          simp_all [UInt32.toNat_inj]
        exact (List.nodup_append.mp hnd).2.2 e he le List.mem_cons_self heq
      have hsucc := toNat_add_one_of_cdUsed hlen fun c hc =>
        (Nat.lt_or_eq_of_le hc).elim (hbelow c) fun hc =>
          ⟨le, List.mem_append_right _ List.mem_cons_self, hh, hcd.trans hc.symm⟩
      have := zapEntryCreateSortedScan_spec rest (pre ++ [le]) (cd + 1) (by simpa using hs)
        (by simpa using hnd) (by simpa using hlen) fun c => by
          rw [cdUsed_append_singleton, hpre, hsucc, hcd]
          simp only [hh, true_and]
          omega
      simpa using this
    · -- an entry of another hash leaves the count as it is
      have := zapEntryCreateSortedScan_spec rest (pre ++ [le]) cd (by simpa using hs)
        (by simpa using hnd) (by simpa using hlen) fun c => by
          rw [cdUsed_append_singleton, hpre]
          simp [hh]
      simpa using this

/-- **The walk of a sorted chain finds the lowest unused `cd`**, on a chain sorted by `cd` that
holds no entry twice. -/
theorem zapEntryCreateSortedScan_isLeast {h : UInt64} {chain : List ZapLeafEntry}
    (hs : chain.Pairwise fun a b => a.leCd.toNat ≤ b.leCd.toNat) (hnd : chain.Nodup)
    (hlen : chain.length < 2 ^ 32) :
    IsLeast {c | ¬CdUsed chain h c} (zapEntryCreateSortedScan h 0 chain).toNat :=
  zapEntryCreateSortedScan_spec chain [] 0 hs hnd hlen fun c => by simp [CdUsed]

/-! ## The walk of the micro ZAP -/

/-- The walk of `mze_find_unused_cd` through a part of the tree in order whose entries are all at
or after `(hash, cd)`, the entries of the hash before it having exactly the `cd`s below `cd`:
it ends at the lowest unused `cd`. -/
theorem mzeFindUnusedCdLoop_spec {hash : UInt64} :
    ∀ (rest pre : List ZapLeafEntry) (cd : UInt32),
      rest.Pairwise (fun a b => a.leHash < b.leHash ∨ (a.leHash = b.leHash ∧ a.leCd < b.leCd)) →
      (∀ e ∈ rest, hash < e.leHash ∨ (e.leHash = hash ∧ cd.toNat ≤ e.leCd.toNat)) →
      (pre ++ rest).length < 2 ^ 32 → (∀ c, CdUsed pre hash c ↔ c < cd.toNat) →
      IsLeast {c | ¬CdUsed (pre ++ rest) hash c} (mzeFindUnusedCdLoop hash cd rest).toNat
  | [], pre, cd, _, _, _, hpre => by
    rw [List.append_nil]
    exact isLeast_of_cdUsed (fun hu => lt_irrefl _ ((hpre _).mp hu)) fun c hc => (hpre c).mpr hc
  | mze :: rest, pre, cd, hs, hafter, hlen, hpre => by
    have hbelow : ∀ c < cd.toNat, CdUsed (pre ++ mze :: rest) hash c :=
      fun c hc => cdUsed_append_left ((hpre c).mpr hc)
    obtain ⟨hmze, hs⟩ := List.pairwise_cons.mp hs
    -- an entry after `mze` has a larger hash, or the same hash and a larger `cd`
    have hrest : ∀ e ∈ rest, mze.leHash.toNat < e.leHash.toNat ∨
        (e.leHash = mze.leHash ∧ mze.leCd.toNat < e.leCd.toNat) := fun e he => by
      simpa [UInt64.lt_iff_toNat_lt, UInt32.lt_iff_toNat_lt, eq_comm] using hmze e he
    have hfirst := hafter mze List.mem_cons_self
    rw [mzeFindUnusedCdLoop]
    split_ifs with hh hne
    · -- the first gap in the `cd`s of the hash
      have hgt : cd.toNat < mze.leCd.toNat := by
        rw [Ne, ← UInt32.toNat_inj] at hne
        rcases hfirst with hlt | ⟨-, hle⟩
        · rw [← hh, UInt64.lt_iff_toNat_lt] at hlt
          exact absurd hlt (lt_irrefl _)
        · omega
      refine isLeast_of_cdUsed (fun ⟨e, he, heh, hc⟩ => ?_) hbelow
      rcases List.mem_append.mp he with he | he
      · exact lt_irrefl _ ((hpre _).mp ⟨e, he, heh, hc⟩)
      · rcases List.mem_cons.mp he with rfl | he
        · omega
        · rcases hrest e he with hlt | ⟨-, hlt⟩
          · rw [heh, hh] at hlt
            exact lt_irrefl _ hlt
          · omega
    · -- `mze` is the entry of the hash with the count
      rw [not_not] at hne
      have hsucc := toNat_add_one_of_cdUsed hlen fun c hc =>
        (Nat.lt_or_eq_of_le hc).elim (hbelow c) fun hc =>
          ⟨mze, List.mem_append_right _ List.mem_cons_self, hh, by rw [hne, hc]⟩
      have := @mzeFindUnusedCdLoop_spec hash rest (pre ++ [mze]) (cd + 1) hs
        (fun e he => by
          rcases hrest e he with hlt | ⟨heq, hlt⟩
          · exact .inl (by rw [← hh]; exact UInt64.lt_iff_toNat_lt.mpr hlt)
          · exact .inr ⟨heq.trans hh, by rw [hsucc, ← hne]; omega⟩)
        (by simpa using hlen) fun c => by
          rw [cdUsed_append_singleton, hpre, hsucc, hne]
          simp only [hh, true_and]
          omega
      simpa using this
    · -- past the entries of the hash, nothing has it
      have hlt : hash < mze.leHash := hfirst.resolve_right fun h => hh h.1
      rw [UInt64.lt_iff_toNat_lt] at hlt
      refine isLeast_of_cdUsed (fun ⟨e, he, heh, hc⟩ => ?_) hbelow
      rcases List.mem_append.mp he with he | he
      · exact lt_irrefl _ ((hpre _).mp ⟨e, he, heh, hc⟩)
      · rcases List.mem_cons.mp he with rfl | he
        · exact hh heh
        · rcases hrest e he with hlt' | ⟨heq, -⟩
          · rw [heh] at hlt'
            omega
          · exact hh (heq.symm.trans heh)

/-- **The walk of the micro ZAP finds the lowest unused `cd`.** -/
theorem mzeFindUnusedCd_isLeast (avl : MzapAvl) (hash : UInt64) (hlen : avl.ents.length < 2 ^ 32) :
    IsLeast {c | ¬CdUsed avl.ents hash c} (mzeFindUnusedCd avl hash).toNat := by
  unfold mzeFindUnusedCd
  -- the tree in order: the entries `avl_find` passes over, then the walk from `(hash, 0)`
  suffices hwalk : ∀ pre L, pre ++ L = avl.ents → (L = [] → ⟨hash, 0⟩ ∉ avl.ents) →
      (∀ y post, L = y :: post → y = ⟨hash, 0⟩) →
      IsLeast {c | ¬CdUsed (pre ++ L) hash c} (mzeFindUnusedCdLoop hash 0 L).toNat by
    have hsplit := List.takeWhile_append_dropWhile (p := fun e => decide (e ≠ ⟨hash, 0⟩))
      (l := avl.ents)
    have h := hwalk _ _ hsplit (fun hnil hmem => by
        simpa using List.dropWhile_eq_nil_iff.mp hnil _ hmem) fun y post h => by
      have hfirst := List.head?_dropWhile_not (fun e => decide (e ≠ ⟨hash, 0⟩)) avl.ents
      rw [h] at hfirst
      simpa using hfirst
    rwa [hsplit] at h
  intro pre L hsplit hnil hhead
  have hsorted := avl.sorted
  rw [← hsplit] at hsorted hlen
  cases L with
  | nil =>
    -- `avl_find` finds no `(hash, 0)`: the walk does not start, and `0` is unused
    rw [mzeFindUnusedCdLoop, UInt32.toNat_zero]
    refine isLeast_of_cdUsed (fun ⟨e, he, hh, hc⟩ => hnil rfl ?_) fun c hc =>
      absurd hc (Nat.not_lt_zero c)
    have he0 : e = ⟨hash, 0⟩ := by
      cases e
      simp_all [← UInt32.toNat_inj]
    rw [← hsplit, ← he0]
    exact he
  | cons y post =>
    obtain rfl := hhead y post rfl
    obtain ⟨-, hsuf, hcross⟩ := List.pairwise_append.mp hsorted
    refine mzeFindUnusedCdLoop_spec _ pre 0 hsuf (fun e he => ?_) hlen fun c => ?_
    · -- everything from `(hash, 0)` on is at or after it
      rcases List.mem_cons.mp he with rfl | he
      · exact .inr ⟨rfl, Nat.zero_le _⟩
      · rcases (List.pairwise_cons.mp hsuf).1 e he with hlt | ⟨heq, -⟩
        · exact .inl hlt
        · exact .inr ⟨heq.symm, Nat.zero_le _⟩
    · -- nothing before `(hash, 0)` has the hash
      simp only [UInt32.toNat_zero, Nat.not_lt_zero, iff_false]
      rintro ⟨e, he, hh, -⟩
      rcases hcross e he _ List.mem_cons_self with hlt | ⟨-, hlt⟩
      · rw [hh, UInt64.lt_iff_toNat_lt] at hlt
        exact lt_irrefl _ hlt
      · exact absurd hlt (by simp [UInt32.lt_iff_toNat_lt])

/-! ## Leaves -/

/-- The `cd` `c` is used by an entry of hash `h` anywhere in the leaf. -/
def LeafCdUsed (l : ZapLeaf) (h : UInt64) (c : ℕ) : Prop :=
  ∃ b, CdUsed (l.lHash b) h c

/-- What `zap_entry_create` relies on in a leaf: every entry is on the chain of its hash's bucket,
no chain holds an entry twice, and in the `cd`-sorted format every chain is sorted by `cd`. -/
structure ZapLeafOk (l : ZapLeaf) (cdsorted : Bool) : Prop where
  bucket : ∀ b, ∀ e ∈ l.lHash b, leafHash l e.leHash = b
  nodup : ∀ b, (l.lHash b).Nodup
  sorted : cdsorted = true → ∀ b, (l.lHash b).Pairwise fun a c => a.leCd.toNat ≤ c.leCd.toNat

section Leaf

variable {l : ZapLeaf} {cdsorted : Bool} {h : UInt64}

/-- The entries of a hash are all on its own chain. -/
theorem ZapLeafOk.leafCdUsed_iff (hl : ZapLeafOk l cdsorted) {c : ℕ} :
    LeafCdUsed l h c ↔ CdUsed (l.lHash (leafHash l h)) h c := by
  refine ⟨fun ⟨b, e, he, hh, hc⟩ => ⟨e, ?_, hh, hc⟩, fun hu => ⟨_, hu⟩⟩
  rw [← hh, hl.bucket b e he]
  exact he

/-- **`zap_entry_create` gives the lowest `cd` no entry of the hash uses**, in either format. -/
theorem zapEntryCreateCd_isLeast (hl : ZapLeafOk l cdsorted)
    (hlen : (l.lHash (leafHash l h)).length < 2 ^ 32) :
    IsLeast {c | ¬LeafCdUsed l h c} (zapEntryCreateCd l cdsorted h zapNeedCd).toNat := by
  have hset : {c | ¬LeafCdUsed l h c} = {c | ¬CdUsed (l.lHash (leafHash l h)) h c} :=
    Set.ext fun c => not_congr hl.leafCdUsed_iff
  rw [hset, zapEntryCreateCd, if_pos rfl]
  cases cdsorted with
  | false => exact zapEntryCreateUnsortedScan_isLeast hlen
  | true => exact zapEntryCreateSortedScan_isLeast (hl.sorted rfl _) (hl.nodup _) hlen

/-- On a sorted leaf the walk and the search of the old format agree. -/
theorem zapEntryCreateCd_sorted_eq_unsorted (hl : ZapLeafOk l true)
    (hlen : (l.lHash (leafHash l h)).length < 2 ^ 32) :
    zapEntryCreateCd l true h zapNeedCd = zapEntryCreateCd l false h zapNeedCd :=
  UInt32.toNat_inj.mp <| (zapEntryCreateCd_isLeast hl hlen).unique
    (zapEntryCreateCd_isLeast ⟨hl.bucket, hl.nodup, fun h => nomatch h⟩ hlen)

/-- The chain `zap_leaf_rehash_entry` makes holds the old chain and the new entry. -/
theorem perm_rehash (chain : List ZapLeafEntry) (le : ZapLeafEntry) (p : ZapLeafEntry → Bool) :
    (chain.takeWhile p ++ le :: chain.dropWhile p).Perm (le :: chain) := by
  calc (chain.takeWhile p ++ le :: chain.dropWhile p).Perm (le :: (chain.takeWhile p ++ chain.dropWhile p)) :=
        List.perm_middle
    _ = le :: chain := by rw [List.takeWhile_append_dropWhile]

/-- Linking an entry in front of the first larger `cd` keeps a chain sorted by `cd`. -/
theorem pairwise_rehash {chain : List ZapLeafEntry}
    (hs : chain.Pairwise fun a c => a.leCd.toNat ≤ c.leCd.toNat) (le : ZapLeafEntry) :
    (chain.takeWhile (fun le2 => !(le2.leCd > le.leCd)) ++
      le :: chain.dropWhile (fun le2 => !(le2.leCd > le.leCd))).Pairwise
        fun a c => a.leCd.toNat ≤ c.leCd.toNat := by
  -- the entries the walk passes have no larger `cd`, those after it a larger one
  have hbefore : ∀ a ∈ chain.takeWhile (fun le2 => !(le2.leCd > le.leCd)),
      a.leCd.toNat ≤ le.leCd.toNat := fun a ha => by
    simpa [UInt32.lt_iff_toNat_lt] using List.mem_takeWhile_imp ha
  have hafter : ∀ c ∈ chain.dropWhile (fun le2 => !(le2.leCd > le.leCd)),
      le.leCd.toNat < c.leCd.toNat := fun c hc => by
    have := (Intervals.mem_dropWhile_of_pairwise hs (fun a c hac hc => by
      simp only [gt_iff_lt, UInt32.lt_iff_toNat_lt, Bool.not_eq_true', decide_eq_false_iff_not,
        not_lt] at hc ⊢
      omega)).mp hc
    simpa [UInt32.lt_iff_toNat_lt] using this.2
  refine List.pairwise_append.mpr ⟨hs.sublist (List.takeWhile_sublist _),
    List.pairwise_cons.mpr ⟨fun c hc => (hafter c hc).le, hs.sublist (List.dropWhile_sublist _)⟩,
    fun a ha c hc => ?_⟩
  rcases List.mem_cons.mp hc with rfl | hc
  · exact hbefore a ha
  · exact (hbefore a ha).trans (hafter c hc).le

theorem zapLeafRehashEntry_lHash (l : ZapLeaf) (le : ZapLeafEntry) (b : ℕ) :
    (zapLeafRehashEntry l le).lHash b =
      if b = leafHash l le.leHash then
        (l.lHash b).takeWhile (fun le2 => !(le2.leCd > le.leCd)) ++
          le :: (l.lHash b).dropWhile (fun le2 => !(le2.leCd > le.leCd))
      else l.lHash b := by
  unfold zapLeafRehashEntry
  split_ifs with hb
  · subst hb
    simp
  · simp [Function.update_of_ne hb]

/-- **Linking a new entry keeps the invariants**, when no entry of its chain equals it. -/
theorem ZapLeafOk.rehash (hl : ZapLeafOk l cdsorted) {le : ZapLeafEntry}
    (hnew : le ∉ l.lHash (leafHash l le.leHash)) :
    ZapLeafOk (zapLeafRehashEntry l le) cdsorted := by
  -- the leaf keeps its shape, so every hash keeps its bucket
  have hshape : leafHash (zapLeafRehashEntry l le) = leafHash l := rfl
  refine ⟨fun b e he => ?_, fun b => ?_, fun hs b => ?_⟩ <;>
    rw [zapLeafRehashEntry_lHash] at * <;> split_ifs at * with hb
  · rw [hshape]
    rcases List.mem_cons.mp ((perm_rehash _ le _).subset he) with rfl | he
    · exact hb.symm
    · exact hl.bucket b e he
  · rw [hshape]
    exact hl.bucket b e he
  · subst hb
    exact (perm_rehash _ le _).nodup_iff.mpr (List.nodup_cons.mpr ⟨hnew, hl.nodup _⟩)
  · exact hl.nodup b
  · exact pairwise_rehash (hl.sorted hs b) le
  · exact hl.sorted hs b

/-- **A new entry keeps the invariants**: its `cd` is unused, so it is on no chain yet. -/
theorem ZapLeafOk.create (hl : ZapLeafOk l cdsorted)
    (hlen : (l.lHash (leafHash l h)).length < 2 ^ 32) :
    ZapLeafOk (zapEntryCreate l cdsorted h zapNeedCd) cdsorted :=
  hl.rehash fun hmem =>
    (zapEntryCreateCd_isLeast hl hlen).1 ⟨_, _, hmem, rfl, rfl⟩

/-- Unlinking an entry keeps the invariants. -/
theorem ZapLeafOk.remove (hl : ZapLeafOk l cdsorted) (b i : ℕ) :
    ZapLeafOk (zapEntryRemove l b i) cdsorted := by
  have hsub : ∀ b', ((zapEntryRemove l b i).lHash b').Sublist (l.lHash b') := fun b' => by
    by_cases hb : b' = b
    · subst hb
      simpa [zapEntryRemove] using List.eraseIdx_sublist _ _
    · simp [zapEntryRemove, Function.update_of_ne hb]
  exact ⟨fun b' e he => hl.bucket b' e ((hsub b').subset he), fun b' => (hl.nodup b').sublist (hsub b'),
    fun hs b' => (hl.sorted hs b').sublist (hsub b')⟩

end Leaf

/-- The leaves a format's creates and removes make from an empty leaf; a create needs room, and
the `uint32_t` count of a chain never reaches `2 ^ 32` entries. -/
inductive ZapLeafReach (cdsorted : Bool) : ZapLeaf → Prop
  | init (lBs lhPrefixLen : ℕ) (lhPrefix : UInt64) :
    ZapLeafReach cdsorted ⟨lBs, lhPrefixLen, lhPrefix, fun _ => []⟩
  | create {l : ZapLeaf} (h : UInt64) : ZapLeafReach cdsorted l →
    (l.lHash (leafHash l h)).length < 2 ^ 32 → ZapLeafReach cdsorted (zapEntryCreate l cdsorted h zapNeedCd)
  | remove {l : ZapLeaf} (b i : ℕ) : ZapLeafReach cdsorted l →
    ZapLeafReach cdsorted (zapEntryRemove l b i)

/-- **Every leaf made by creates and removes has the invariants.** -/
theorem ZapLeafReach.ok {cdsorted : Bool} {l : ZapLeaf} (hr : ZapLeafReach cdsorted l) :
    ZapLeafOk l cdsorted := by
  induction hr with
  | init => exact ⟨fun _ _ he => absurd he List.not_mem_nil, fun _ => List.nodup_nil,
      fun _ _ => List.Pairwise.nil⟩
  | create h _ hlen ih => exact ih.create hlen
  | remove b i _ ih => exact ih.remove b i

/-! ## Collision differentiators in both ZAP forms -/

/-- `zap_entry_create` links the new entry into the chain of its hash and changes no other
chain. -/
theorem zapEntryCreate_lHash (l : ZapLeaf) (cdsorted : Bool) (h : UInt64) (cd : UInt32) :
    ((zapEntryCreate l cdsorted h cd).lHash (leafHash l h)).Perm
        (⟨h, zapEntryCreateCd l cdsorted h cd⟩ :: l.lHash (leafHash l h)) ∧
      ∀ b, b ≠ leafHash l h → (zapEntryCreate l cdsorted h cd).lHash b = l.lHash b := by
  unfold zapEntryCreate zapLeafRehashEntry
  dsimp only
  refine ⟨?_, fun b hb => by rw [Function.update_of_ne hb]⟩
  rw [Function.update_self]
  -- the entry goes between the two halves of the chain
  refine List.perm_middle.trans (List.Perm.of_eq ?_)
  rw [List.takeWhile_append_dropWhile]

theorem zapEntryCreate_lowest_cd {l : ZapLeaf} {cdsorted : Bool} {h : UInt64}
    (hl : ZapLeafOk l cdsorted) (hlen : (l.lHash (leafHash l h)).length < 2 ^ 32) :
    IsLeast {c | ¬LeafCdUsed l h c} (zapEntryCreateCd l cdsorted h zapNeedCd).toNat ∧
      ZapLeafOk (zapEntryCreate l cdsorted h zapNeedCd) cdsorted ∧
      ((zapEntryCreate l cdsorted h zapNeedCd).lHash (leafHash l h)).Perm
        (⟨h, zapEntryCreateCd l cdsorted h zapNeedCd⟩ :: l.lHash (leafHash l h)) ∧
      (∀ b, b ≠ leafHash l h → (zapEntryCreate l cdsorted h zapNeedCd).lHash b = l.lHash b) ∧
      (cdsorted = true → zapEntryCreateCd l true h zapNeedCd = zapEntryCreateCd l false h zapNeedCd) ∧
      ∀ avl : MzapAvl, avl.ents.length < 2 ^ 32 →
        IsLeast {c | ¬CdUsed avl.ents h c} (mzeFindUnusedCd avl h).toNat ∧
          (⟨h, mzeFindUnusedCd avl h⟩ : ZapLeafEntry) ∉ avl.ents := by
  have hlhash := zapEntryCreate_lHash l cdsorted h zapNeedCd
  refine ⟨zapEntryCreateCd_isLeast hl hlen, hl.create hlen, hlhash.1, hlhash.2, fun hs => ?_,
    fun avl havl => ?_⟩
  · subst hs
    exact zapEntryCreateCd_sorted_eq_unsorted hl hlen
  · have hleast := mzeFindUnusedCd_isLeast avl h havl
    exact ⟨hleast, fun hmem => hleast.1 ⟨_, hmem, rfl, rfl⟩⟩

/-- A sorted leaf of 16K whose chain of hash `0` already holds the entries `(0, 0)` and
`(0, 1)`. -/
def zapLeafTwoOfHashZero : ZapLeaf :=
  zapEntryCreate (zapEntryCreate ⟨14, 0, 0, fun _ => []⟩ true 0 zapNeedCd) true 0 zapNeedCd

theorem zapLeafTwoOfHashZero_reach : ZapLeafReach true zapLeafTwoOfHashZero :=
  .create 0 (.create 0 (.init 14 0 0) (by decide)) (by decide)

theorem zapEntryCreate_lowest_cd_two :
    ZapLeafOk zapLeafTwoOfHashZero true ∧
      (zapLeafTwoOfHashZero.lHash (leafHash zapLeafTwoOfHashZero 0)).length < 2 ^ 32 ∧
      (IsLeast {c | ¬LeafCdUsed zapLeafTwoOfHashZero 0 c}
          (zapEntryCreateCd zapLeafTwoOfHashZero true 0 zapNeedCd).toNat ∧
        ZapLeafOk (zapEntryCreate zapLeafTwoOfHashZero true 0 zapNeedCd) true ∧
        ((zapEntryCreate zapLeafTwoOfHashZero true 0 zapNeedCd).lHash
            (leafHash zapLeafTwoOfHashZero 0)).Perm
          (⟨0, zapEntryCreateCd zapLeafTwoOfHashZero true 0 zapNeedCd⟩ ::
            zapLeafTwoOfHashZero.lHash (leafHash zapLeafTwoOfHashZero 0)) ∧
        (∀ b, b ≠ leafHash zapLeafTwoOfHashZero 0 →
          (zapEntryCreate zapLeafTwoOfHashZero true 0 zapNeedCd).lHash b =
            zapLeafTwoOfHashZero.lHash b) ∧
        (true = true → zapEntryCreateCd zapLeafTwoOfHashZero true 0 zapNeedCd =
          zapEntryCreateCd zapLeafTwoOfHashZero false 0 zapNeedCd) ∧
        ∀ avl : MzapAvl, avl.ents.length < 2 ^ 32 →
          IsLeast {c | ¬CdUsed avl.ents 0 c} (mzeFindUnusedCd avl 0).toNat ∧
            (⟨0, mzeFindUnusedCd avl 0⟩ : ZapLeafEntry) ∉ avl.ents) :=
  have hlen : (zapLeafTwoOfHashZero.lHash (leafHash zapLeafTwoOfHashZero 0)).length < 2 ^ 32 := by
    decide
  ⟨zapLeafTwoOfHashZero_reach.ok, hlen, zapEntryCreate_lowest_cd zapLeafTwoOfHashZero_reach.ok hlen⟩

/-- The new entry of hash `0` in that leaf gets `cd` `2`, in both formats. -/
example : zapEntryCreateCd zapLeafTwoOfHashZero true 0 zapNeedCd = 2 ∧
    zapEntryCreateCd zapLeafTwoOfHashZero false 0 zapNeedCd = 2 := by decide

end Zfs
