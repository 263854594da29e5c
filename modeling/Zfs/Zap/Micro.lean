import Zfs.Spa.Blkptr
import Zfs.Zap.Cd
import Zfs.Zap.LeafArray

/-!
# Zap/Micro — the micro ZAP and the bound that lets it become fat

A micro ZAP keeps its entries in the chunks of one block, each with a name of fewer than
`MZAP_NAME_LEN` bytes, a `uint64_t` value and a `cd`, and in memory a tree of the entries ordered
by `(hash, cd)`.  When an entry does not suit it, `mzap_upgrade` moves every entry into a fat ZAP
whose first leaf must hold them all: the entries of one hash can never be split across leaves.
`zap_add` therefore asks `mze_canfit_fzap_leaf` whether the entries of the new name's hash, in
their fat form of `MZAP_ENT_CHUNKS` chunks each, still fit in one leaf, and upgrades if not.

* `MzapOk` — the store's invariant (chunks, entries and tree agree), kept by `zap_remove`
  (`mzapOk_remove`);
* `mzeCanfitFzapLeaf_eq` — the walk of `mze_canfit_fzap_leaf` counts the entries of the hash
  whenever an entry `(hash, 0)` is in the tree, and none otherwise;
* `MzeAvl.Bound`, **`mzapFits_add_remove`** — along any run of `zap_add` and `zap_remove`, every
  hash's entries fit in one leaf;
* `zapUpdate_fresh`, `mzapRun_updates` — `zap_update` adds a new name's entry without the test;
* **`zapUpdate_overfills_leaf`** — so 128 names of one hash, added by `zap_update`, make a micro
  ZAP that the next `zap_add` of that hash upgrades, though its entries cannot fit in one leaf.
-/

namespace Zfs

/-! ## Sizes (`zap_impl.h`, `zap_leaf.h`) -/

/-- `MZAP_ENT_LEN`. -/
def mzapEntLen : ℕ := 64

/-- `MZAP_NAME_LEN`. -/
def mzapNameLen : ℕ := mzapEntLen - 8 - 4 - 2

/-- `MZAP_MAX_BLKSZ`. -/
def mzapMaxBlksz : ℕ := spaOldMaxblocksize

/-- `fzap_default_block_shift`. -/
def fzapDefaultBlockShift : ℕ := 14

/-- `ZAP_LEAF_HASH_NUMENTRIES_BS(bs)`. -/
def zapLeafHashNumentriesBs (bs : ℕ) : ℕ := 1 <<< (bs - 5)

/-- `ZAP_LEAF_NUMCHUNKS_BS(bs)`: the chunks of a leaf block, after the hash table and the header. -/
def zapLeafNumchunksBs (bs : ℕ) : ℕ :=
  ((1 <<< bs) - 2 * zapLeafHashNumentriesBs bs) / zapLeafChunksize - 2

/-- `ZAP_LEAF_NUMCHUNKS_DEF`. -/
def zapLeafNumchunksDef : ℕ := zapLeafNumchunksBs fzapDefaultBlockShift

/-- `MZAP_ENT_CHUNKS`: the chunks of a micro entry in a fat leaf at most, one for the entry, those
of the longest name and those of the value. -/
def mzapEntChunks : ℕ := 1 + zapLeafArrayNchunks mzapNameLen + zapLeafArrayNchunks 8

theorem mzapEntLen_eq : mzapEntLen = 64 := rfl
theorem spaMinblocksize_eq : spaMinblocksize = 512 := rfl
theorem mzapMaxBlksz_eq : mzapMaxBlksz = 131072 := rfl

/-- A leaf of the default size has 638 chunks, and a micro entry takes 5 of them at most: 127
entries of one hash fit, 128 do not. -/
theorem zapLeafNumchunksDef_eq : zapLeafNumchunksDef = 638 ∧ mzapEntChunks = 5 := ⟨rfl, rfl⟩

/-! ## The micro ZAP (`zap_micro.c`) -/

/-- `mzap_ent_phys_t`: a chunk of the block.  A chunk whose name is empty (`mze_name[0] == 0`)
is free. -/
structure MzapEntPhys where
  mzeValue : UInt64
  mzeCd : UInt32
  mzeName : List UInt8
  deriving DecidableEq, Repr

/-- A zeroed chunk. -/
def mzapEntPhysZero : MzapEntPhys := ⟨0, 0, []⟩

/-- `mzap_ent_t`: a node of the tree `zap_m.zap_avl`. -/
structure MzapEnt where
  mzeChunkid : ℕ
  mzeHash : UInt64
  mzeCd : UInt32
  deriving DecidableEq, Repr

/-- The place of a node in the tree's order. -/
def MzapEnt.key (e : MzapEnt) : ZapLeafEntry := ⟨e.mzeHash, e.mzeCd⟩

/-- `mze_compare(a, b) < 0`: by hash, then by `cd`. -/
def ZapLeafEntry.Lt (a b : ZapLeafEntry) : Prop :=
  a.leHash < b.leHash ∨ (a.leHash = b.leHash ∧ a.leCd < b.leCd)

instance : DecidableRel ZapLeafEntry.Lt := fun _ _ => inferInstanceAs (Decidable (_ ∨ _))

theorem ZapLeafEntry.Lt.trans {a b c : ZapLeafEntry} (hab : a.Lt b) (hbc : b.Lt c) : a.Lt c := by
  unfold ZapLeafEntry.Lt at *
  simp only [UInt64.lt_iff_toNat_lt, UInt32.lt_iff_toNat_lt, ← UInt64.toNat_inj] at *
  omega

theorem ZapLeafEntry.Lt.trichotomous (a b : ZapLeafEntry) : a.Lt b ∨ a = b ∨ b.Lt a := by
  obtain ⟨ha, ca⟩ := a
  obtain ⟨hb, cb⟩ := b
  unfold ZapLeafEntry.Lt
  simp only [ZapLeafEntry.mk.injEq, UInt64.lt_iff_toNat_lt, UInt32.lt_iff_toNat_lt,
    ← UInt64.toNat_inj, ← UInt32.toNat_inj]
  omega

/-- Insertion at a node's place keeps the order when no node has the same place. -/
theorem pairwise_orderedInsert {nodes : List MzapEnt} {e : MzapEnt}
    (hs : (nodes.map MzapEnt.key).Pairwise ZapLeafEntry.Lt) (he : ∀ x ∈ nodes, x.key ≠ e.key) :
    ((nodes.orderedInsert (fun a b => a.key.Lt b.key) e).map MzapEnt.key).Pairwise
      ZapLeafEntry.Lt := by
  induction nodes with
  | nil => simp
  | cons x rest ih =>
    simp only [List.map_cons, List.pairwise_cons, List.mem_map] at hs
    have hx : ∀ y ∈ rest, x.key.Lt y.key := fun y hy => hs.1 _ ⟨y, hy, rfl⟩
    rw [List.orderedInsert_cons]
    split_ifs with hlt
    · -- `e` goes first: below `x`, hence below all that follow
      simp only [List.map_cons, List.pairwise_cons, List.mem_cons, List.mem_map]
      refine ⟨?_, ⟨fun y hy => hs.1 y hy, hs.2⟩⟩
      rintro _ (rfl | ⟨y, hy, rfl⟩)
      · exact hlt
      · exact hlt.trans (hx y hy)
    · have hxe : x.key.Lt e.key := by
        rcases ZapLeafEntry.Lt.trichotomous x.key e.key with h | h | h
        · exact h
        · exact absurd h (he x List.mem_cons_self)
        · exact absurd h hlt
      simp only [List.map_cons, List.pairwise_cons, List.mem_map]
      refine ⟨?_, ih hs.2 fun y hy => he y (List.mem_cons_of_mem x hy)⟩
      rintro _ ⟨y, hy, rfl⟩
      rcases (List.mem_orderedInsert _).mp hy with rfl | hy
      · exact hxe
      · exact hx y hy

/-- `zap_m.zap_avl`: the nodes in increasing order. -/
structure MzeAvl where
  nodes : List MzapEnt
  sorted : (nodes.map MzapEnt.key).Pairwise ZapLeafEntry.Lt

/-- The tree as `mze_find_unused_cd` reads it. -/
def MzeAvl.toMzapAvl (t : MzeAvl) : MzapAvl := ⟨t.nodes.map MzapEnt.key, t.sorted⟩

/-- `avl_add`: the node goes to its place in the order; a node already at that place is a panic. -/
def MzeAvl.add (t : MzeAvl) (e : MzapEnt) : Option MzeAvl :=
  if h : ∀ x ∈ t.nodes, x.key ≠ e.key then
    some ⟨t.nodes.orderedInsert (fun a b => a.key.Lt b.key) e, pairwise_orderedInsert t.sorted h⟩
  else none

/-- `avl_remove`. -/
def MzeAvl.remove (t : MzeAvl) (e : MzapEnt) : MzeAvl :=
  ⟨t.nodes.erase e, t.sorted.sublist (List.erase_sublist.map _)⟩

/-- A micro ZAP: the salt and the size of its block, the chunks `mz_chunk[]`, and what `zap_m`
keeps of them (`zap_num_entries`, `zap_num_chunks`, `zap_alloc_next` and the tree).  Its names
are not normalized. -/
structure Mzap where
  mzSalt : UInt64
  dbSize : ℕ
  mzChunk : List MzapEntPhys
  zapNumEntries : ℕ
  zapNumChunks : ℕ
  zapAllocNext : ℕ
  zapAvl : MzeAvl

/-- `mz_chunk[i]`. -/
def Mzap.chunk (z : Mzap) (i : ℕ) : MzapEntPhys := z.mzChunk.getD i mzapEntPhysZero

/-- `zn_hash` of a name, as `zap_name_alloc` computes it for a micro ZAP (whose flags are `0`). -/
def Mzap.nameHash (z : Mzap) (name : List UInt8) : UInt64 := zapHash 0 z.mzSalt (.str name)

/-- A new object's micro ZAP, as `mzap_create_impl` writes its first block of `SPA_MINBLOCKSIZE`
bytes and `mzap_open` reads it: no entry. -/
def mzapCreate (salt : UInt64) : Mzap :=
  ⟨salt, spaMinblocksize, List.replicate (spaMinblocksize / mzapEntLen - 1) mzapEntPhysZero, 0,
    spaMinblocksize / mzapEntLen - 1, 0, ⟨[], List.Pairwise.nil⟩⟩

/-- How a call on a micro ZAP ends: it returns `0`, `EEXIST` or `ENOENT` with the micro ZAP it
leaves, it calls `mzap_upgrade` on a micro ZAP, or an assertion fails. -/
inductive MzapResult
  | ok (z : Mzap)
  | eexist (z : Mzap)
  | enoent (z : Mzap)
  | upgrade (z : Mzap)
  | panic

/-- `mze_find(zn)`: from the first node at or after `(hash, 0)` (`avl_find`, then
`avl_nearest`), the nodes of the hash in order, and the first whose chunk holds the name
(`zap_match`). -/
def mzeFind (z : Mzap) (name : List UInt8) (hash : UInt64) : Option MzapEnt :=
  ((z.zapAvl.nodes.dropWhile fun e => e.key.Lt ⟨hash, 0⟩).takeWhile fun e => e.mzeHash = hash).find?
    fun e => (z.chunk e.mzeChunkid).mzeName = name

/-- `mze_canfit_fzap_leaf(zn, hash)`: from the node `(hash, 0)` if `avl_find` finds it, the nodes
of the hash are counted; with the new entry they must fit in a leaf of the default size. -/
def mzeCanfitFzapLeaf (z : Mzap) (hash : UInt64) : Bool :=
  let mzapEnts := ((z.zapAvl.nodes.dropWhile fun e => e.key ≠ ⟨hash, 0⟩).takeWhile
    fun e => e.mzeHash = hash).length
  decide (zapLeafNumchunksDef > (mzapEnts + 1) * mzapEntChunks)

/-- The chunk the loop of `mzap_addent` takes: the first free one from `zap_alloc_next` on, or,
after `goto again`, the first free one from `0`. -/
def mzapAddentChunk (z : Mzap) : Option ℕ :=
  let chunks := z.mzChunk.take z.zapNumChunks
  match (chunks.drop z.zapAllocNext).findIdx? (·.mzeName = []) with
  | some j => some (z.zapAllocNext + j)
  | none => if z.zapAllocNext ≠ 0 then chunks.findIdx? (·.mzeName = []) else none

/-- `mzap_addent(zn, value)`: the name goes to a free chunk with the lowest unused `cd` of its
hash, and a node for it into the tree.  No free chunk is the panic "out of entries!". -/
def mzapAddent (z : Mzap) (name : List UInt8) (hash value : UInt64) : MzapResult :=
  let cd := mzeFindUnusedCd z.zapAvl.toMzapAvl hash
  match mzapAddentChunk z with
  | none => .panic
  | some i =>
    match z.zapAvl.add ⟨i, hash, cd⟩ with
    | none => .panic
    | some avl =>
      .ok { z with
        mzChunk := z.mzChunk.set i ⟨value, cd, name⟩
        zapNumEntries := z.zapNumEntries + 1
        zapAllocNext := if i + 1 = z.zapNumChunks then 0 else i + 1
        zapAvl := avl }

/-- What `zap_lockdir_impl` does for a call that adds to a full micro ZAP: the block grows by
`SPA_MINBLOCKSIZE`, its new chunks zeroed, or past `MZAP_MAX_BLKSZ` the ZAP is upgraded. -/
def zapLockdirAdding (z : Mzap) : MzapResult :=
  if z.zapNumEntries = z.zapNumChunks then
    let newsz := z.dbSize + spaMinblocksize
    if newsz > mzapMaxBlksz then .upgrade z
    else
      .ok { z with
        dbSize := newsz
        mzChunk := z.mzChunk ++
          List.replicate (newsz / mzapEntLen - 1 - z.mzChunk.length) mzapEntPhysZero
        zapNumChunks := newsz / mzapEntLen - 1 }
  else .ok z

/-- `zap_add(os, zapobj, key, integer_size, num_integers, val, tx)` on a micro ZAP
(`zap_add_impl`): an entry the micro ZAP cannot hold, or one whose hash's entries would not fit
in a fat leaf, upgrades it. -/
def zapAdd (z : Mzap) (key : List UInt8) (integerSize numIntegers : ℕ) (value : UInt64) :
    MzapResult :=
  match zapLockdirAdding z with
  | .ok z =>
    let hash := z.nameHash key
    if integerSize ≠ 8 ∨ numIntegers ≠ 1 ∨ key.length ≥ mzapNameLen ∨
        !mzeCanfitFzapLeaf z hash then .upgrade z
    else
      match mzeFind z key hash with
      | some _ => .eexist z
      | none => mzapAddent z key hash value
  | r => r

/-- `zap_update(os, zapobj, name, integer_size, num_integers, val, tx)` on a micro ZAP: the value
of an entry the name has is replaced; a new name is added by `mzap_addent`. -/
def zapUpdate (z : Mzap) (name : List UInt8) (integerSize numIntegers : ℕ) (value : UInt64) :
    MzapResult :=
  match zapLockdirAdding z with
  | .ok z =>
    let hash := z.nameHash name
    if integerSize ≠ 8 ∨ numIntegers ≠ 1 ∨ name.length ≥ mzapNameLen then .upgrade z
    else
      match mzeFind z name hash with
      | some mze =>
        .ok { z with mzChunk := z.mzChunk.modify mze.mzeChunkid fun c => { c with mzeValue := value } }
      | none => mzapAddent z name hash value
  | r => r

/-- `zap_remove(os, zapobj, name, tx)` on a micro ZAP (`zap_remove_impl`). -/
def zapRemove (z : Mzap) (name : List UInt8) : MzapResult :=
  match mzeFind z name (z.nameHash name) with
  | none => .enoent z
  | some mze =>
    .ok { z with
      zapNumEntries := z.zapNumEntries - 1
      mzChunk := z.mzChunk.set mze.mzeChunkid mzapEntPhysZero
      zapAvl := z.zapAvl.remove mze }

/-- A call on the ZAP object. -/
inductive MzapCall
  | add (key : List UInt8) (integerSize numIntegers : ℕ) (value : UInt64)
  | update (name : List UInt8) (integerSize numIntegers : ℕ) (value : UInt64)
  | remove (name : List UInt8)

/-- A call on a micro ZAP. -/
def MzapCall.run (z : Mzap) : MzapCall → MzapResult
  | .add key integerSize numIntegers value => zapAdd z key integerSize numIntegers value
  | .update name integerSize numIntegers value => zapUpdate z name integerSize numIntegers value
  | .remove name => zapRemove z name

/-- Calls one after the other while the ZAP stays micro. -/
def mzapRun : Mzap → List MzapCall → MzapResult
  | z, [] => .ok z
  | z, c :: cs =>
    match c.run z with
    | .ok z' | .eexist z' | .enoent z' => mzapRun z' cs
    | r => r

/-! ## What must fit -/

/-- The nodes of a hash in the tree. -/
def MzeAvl.count (t : MzeAvl) (h : UInt64) : ℕ := t.nodes.countP (·.mzeHash = h)

/-- Every hash's micro entries, in their fat form of `MZAP_ENT_CHUNKS` chunks each, fit in one
leaf of the default size, as `mze_canfit_fzap_leaf` asks. -/
def MzapFits (z : Mzap) : Prop := ∀ h, z.zapAvl.count h * mzapEntChunks < zapLeafNumchunksDef

/-- A property of the micro ZAP a call leaves or upgrades. -/
def MzapResult.Keeps (P : Mzap → Prop) : MzapResult → Prop
  | .ok z | .eexist z | .enoent z | .upgrade z => P z
  | .panic => True

/-! ## The tree -/

namespace ZapLeafEntry

theorem Lt.hash_le {a b : ZapLeafEntry} (h : a.Lt b) : a.leHash ≤ b.leHash := by
  rcases h with h | ⟨h, -⟩
  · exact UInt64.le_of_lt h
  · exact UInt64.le_of_eq h

/-- Below `(h, 0)` lie only smaller hashes. -/
theorem Lt.hash_lt_of_zero {a : ZapLeafEntry} {h : UInt64} (hlt : a.Lt ⟨h, 0⟩) : a.leHash < h := by
  rcases hlt with hlt | ⟨-, hcd⟩
  · exact hlt
  · exact (UInt32.not_lt_zero hcd).elim

end ZapLeafEntry

namespace MzeAvl

variable {t t' : MzeAvl} {e : MzapEnt}

theorem add_eq_some (h : t.add e = some t') :
    (∀ x ∈ t.nodes, x.key ≠ e.key) ∧ t'.nodes.Perm (e :: t.nodes) := by
  unfold add at h
  split_ifs at h with hfresh
  cases h
  exact ⟨hfresh, List.perm_orderedInsert _ _ _⟩

theorem add_of_fresh (h : ∀ x ∈ t.nodes, x.key ≠ e.key) : ∃ t', t.add e = some t' :=
  ⟨_, dif_pos h⟩

theorem count_of_perm (hp : t'.nodes.Perm (e :: t.nodes)) (h : UInt64) :
    t'.count h = t.count h + if e.mzeHash = h then 1 else 0 := by
  unfold count
  rw [hp.countP_eq, List.countP_cons]
  simp

theorem count_remove (h : UInt64) :
    (t.remove e).count h = t.count h - if e ∈ t.nodes ∧ e.mzeHash = h then 1 else 0 := by
  unfold count remove
  rw [List.countP_erase]
  simp

/-- After the node of a hash come the other nodes of that hash, then larger hashes: the walk
while the hash stays counts them all. -/
theorem length_takeWhile_hash {h : UInt64} : ∀ {L : List MzapEnt},
    (L.map MzapEnt.key).Pairwise ZapLeafEntry.Lt → (∀ x ∈ L, h ≤ x.mzeHash) →
    (L.takeWhile fun x => x.mzeHash = h).length = L.countP (·.mzeHash = h)
  | [], _, _ => rfl
  | x :: rest, hs, hge => by
    simp only [List.map_cons, List.pairwise_cons, List.mem_map] at hs
    have hafter : ∀ y ∈ rest, x.mzeHash ≤ y.mzeHash := fun y hy =>
      (hs.1 _ ⟨y, hy, rfl⟩).hash_le
    by_cases hx : x.mzeHash = h
    · rw [List.takeWhile_cons_of_pos (by simpa using hx), List.countP_cons_of_pos (by simpa using hx),
        List.length_cons, length_takeWhile_hash hs.2 fun y hy => hx ▸ hafter y hy]
    · -- `x` is above `h`, and so is every node after it
      have hxgt : h < x.mzeHash :=
        UInt64.lt_of_le_of_ne (hge x List.mem_cons_self) (Ne.symm hx)
      rw [List.takeWhile_cons_of_neg (by simpa using hx), List.countP_cons_of_neg (by simpa using hx),
        List.length_nil, eq_comm, List.countP_eq_zero]
      intro y hy hyh
      have hyh : y.mzeHash = h := by simpa using hyh
      exact absurd (hyh ▸ hafter y hy) (UInt64.not_le.mpr hxgt)

/-- **The walk of `mze_canfit_fzap_leaf`** counts the nodes of the hash when the node `(h, 0)`
is in the tree, and none when it is not. -/
theorem length_walk_from_zero {h : UInt64} : ∀ {L : List MzapEnt},
    (L.map MzapEnt.key).Pairwise ZapLeafEntry.Lt →
    ((L.dropWhile fun x => x.key ≠ ⟨h, 0⟩).takeWhile fun x => x.mzeHash = h).length =
      if ⟨h, 0⟩ ∈ L.map MzapEnt.key then L.countP (·.mzeHash = h) else 0
  | [], _ => rfl
  | x :: rest, hs => by
    simp only [List.map_cons, List.pairwise_cons, List.mem_map] at hs
    by_cases hx : x.key = ⟨h, 0⟩
    · -- the walk starts at `x`; all after it are above `(h, 0)`
      have hxh : x.mzeHash = h := congrArg ZapLeafEntry.leHash hx
      have hmem : (⟨h, 0⟩ : ZapLeafEntry) ∈ (x :: rest).map MzapEnt.key :=
        List.mem_map.mpr ⟨x, List.mem_cons_self, hx⟩
      rw [List.dropWhile_cons_of_neg (by simpa using hx), if_pos hmem]
      refine length_takeWhile_hash ?_ fun y hy => ?_
      · simp only [List.map_cons, List.pairwise_cons, List.mem_map]
        exact ⟨fun _ ⟨y, hy, hyk⟩ => hyk ▸ hs.1 _ ⟨y, hy, rfl⟩, hs.2⟩
      · rcases List.mem_cons.mp hy with rfl | hy
        · exact UInt64.le_of_eq hxh.symm
        · exact hxh ▸ (hs.1 _ ⟨y, hy, rfl⟩).hash_le
    · rw [List.dropWhile_cons_of_pos (by simpa using hx), length_walk_from_zero hs.2]
      simp only [List.map_cons, List.mem_cons, Ne.symm hx, false_or]
      split_ifs with hmem
      · -- `x` comes before `(h, 0)`, so its hash is below `h`
        obtain ⟨y, hy, hyk⟩ := List.mem_map.mp hmem
        have hxlt : x.mzeHash < h := (hyk ▸ hs.1 _ ⟨y, hy, rfl⟩).hash_lt_of_zero
        rw [List.countP_cons_of_neg (by simpa using UInt64.ne_of_lt hxlt)]
      · rfl

/-- With no node `(h, 0)`, `mze_find_unused_cd` gives `0`. -/
theorem mzeFindUnusedCd_of_not_mem {h : UInt64} (hn : ⟨h, 0⟩ ∉ t.nodes.map MzapEnt.key) :
    mzeFindUnusedCd t.toMzapAvl h = 0 := by
  have hnil : t.toMzapAvl.ents.dropWhile (· ≠ ⟨h, 0⟩) = [] :=
    List.dropWhile_eq_nil_iff.mpr fun x hx => by
      simpa using fun hxe : x = ⟨h, 0⟩ => hn (hxe ▸ hx)
  unfold mzeFindUnusedCd
  rw [hnil, mzeFindUnusedCdLoop]

/-- The `cd` of `mze_find_unused_cd` is at no node of the hash. -/
theorem mzeFindUnusedCd_fresh {h : UInt64} (hlen : t.nodes.length < 2 ^ 32) :
    ∀ x ∈ t.nodes, x.key ≠ ⟨h, mzeFindUnusedCd t.toMzapAvl h⟩ := by
  have hleast := mzeFindUnusedCd_isLeast t.toMzapAvl h (by simpa [toMzapAvl] using hlen)
  intro x hx hxk
  exact hleast.1 ⟨x.key, List.mem_map_of_mem hx, congrArg ZapLeafEntry.leHash hxk, by rw [hxk]⟩

/-- The invariant behind the bound: every hash's entries fit, and where no node `(h, 0)` lets the
walk of `mze_canfit_fzap_leaf` see them, so does one more. -/
structure Bound (t : MzeAvl) : Prop where
  fits : ∀ h, t.count h * mzapEntChunks < zapLeafNumchunksDef
  room : ∀ h, ⟨h, 0⟩ ∉ t.nodes.map MzapEnt.key →
    (t.count h + 1) * mzapEntChunks < zapLeafNumchunksDef

/-- A node added at the `cd` of `mze_find_unused_cd`, after the test of `mze_canfit_fzap_leaf`
passed, keeps the bound. -/
theorem Bound.add (hb : t.Bound) {h : UInt64}
    (hfit : zapLeafNumchunksDef >
      ((if ⟨h, 0⟩ ∈ t.nodes.map MzapEnt.key then t.count h else 0) + 1) * mzapEntChunks)
    {i : ℕ} (hadd : t.add ⟨i, h, mzeFindUnusedCd t.toMzapAvl h⟩ = some t') : t'.Bound := by
  obtain ⟨-, hperm⟩ := add_eq_some hadd
  have hmem : ∀ k, k ∈ t'.nodes.map MzapEnt.key ↔
      k = ⟨h, mzeFindUnusedCd t.toMzapAvl h⟩ ∨ k ∈ t.nodes.map MzapEnt.key := by
    intro k
    rw [(hperm.map MzapEnt.key).mem_iff, List.map_cons, List.mem_cons]
    rfl
  constructor
  · intro g
    rw [count_of_perm hperm]
    by_cases hg : h = g
    · subst hg
      by_cases hk : ⟨h, 0⟩ ∈ t.nodes.map MzapEnt.key
      · rw [if_pos hk] at hfit
        simpa using hfit
      · simpa using hb.room h hk
    · simpa [hg] using hb.fits g
  · intro g hg'
    have hg : ⟨g, 0⟩ ∉ t.nodes.map MzapEnt.key := fun hk => hg' ((hmem _).mpr (Or.inr hk))
    rw [count_of_perm hperm]
    by_cases hhg : h = g
    · -- with no node `(g, 0)` before, the new node is `(g, 0)`
      subst hhg
      exact absurd ((hmem _).mpr (Or.inl (by rw [mzeFindUnusedCd_of_not_mem hg]))) hg'
    · simpa [hhg] using hb.room g hg

/-- Removing a node keeps the bound. -/
theorem Bound.remove (hb : t.Bound) (e : MzapEnt) : (t.remove e).Bound := by
  constructor
  · intro g
    rw [count_remove]
    exact lt_of_le_of_lt (Nat.mul_le_mul_right _ (Nat.sub_le _ _)) (hb.fits g)
  · intro g hg
    rw [count_remove]
    by_cases he : e ∈ t.nodes ∧ e.mzeHash = g
    · -- a node of `g` fewer
      have hpos : 0 < t.count g := List.countP_pos_iff.mpr ⟨e, he.1, by simpa using he.2⟩
      rw [if_pos he, Nat.sub_add_cancel hpos]
      exact hb.fits g
    · rw [if_neg he, Nat.sub_zero]
      refine hb.room g fun hk => hg ?_
      obtain ⟨x, hx, hxk⟩ := List.mem_map.mp hk
      have hxe : x ≠ e := fun hxe => he ⟨hxe ▸ hx, hxe ▸ congrArg ZapLeafEntry.leHash hxk⟩
      exact List.mem_map.mpr ⟨x, (List.mem_erase_of_ne hxe).mpr hx, hxk⟩

end MzeAvl

/-! ## The calls, step by step -/

theorem mzeCanfitFzapLeaf_eq (z : Mzap) (h : UInt64) :
    mzeCanfitFzapLeaf z h = decide (zapLeafNumchunksDef >
      ((if ⟨h, 0⟩ ∈ z.zapAvl.nodes.map MzapEnt.key then z.zapAvl.count h else 0) + 1) *
        mzapEntChunks) := by
  unfold mzeCanfitFzapLeaf
  rw [MzeAvl.length_walk_from_zero z.zapAvl.sorted]
  rfl

/-- The three ends of the growth in `zap_lockdir_impl`: an upgrade, a block one
`SPA_MINBLOCKSIZE` larger, or nothing to do. -/
theorem zapLockdirAdding_spec (z : Mzap) :
    (z.zapNumEntries = z.zapNumChunks ∧ mzapMaxBlksz < z.dbSize + spaMinblocksize ∧
        zapLockdirAdding z = .upgrade z) ∨
      (z.zapNumEntries = z.zapNumChunks ∧ z.dbSize + spaMinblocksize ≤ mzapMaxBlksz ∧
        zapLockdirAdding z = .ok { z with
          dbSize := z.dbSize + spaMinblocksize
          mzChunk := z.mzChunk ++ List.replicate
            ((z.dbSize + spaMinblocksize) / mzapEntLen - 1 - z.mzChunk.length) mzapEntPhysZero
          zapNumChunks := (z.dbSize + spaMinblocksize) / mzapEntLen - 1 }) ∨
      (z.zapNumEntries ≠ z.zapNumChunks ∧ zapLockdirAdding z = .ok z) := by
  unfold zapLockdirAdding
  dsimp only
  by_cases hfull : z.zapNumEntries = z.zapNumChunks
  · by_cases hmax : z.dbSize + spaMinblocksize > mzapMaxBlksz
    · exact .inl ⟨hfull, hmax, by rw [if_pos hfull, if_pos hmax]⟩
    · exact .inr (.inl ⟨hfull, Nat.le_of_not_lt hmax, by rw [if_pos hfull, if_neg hmax]⟩)
  · exact .inr (.inr ⟨hfull, by rw [if_neg hfull]⟩)

theorem zapLockdirAdding_cases (z : Mzap) :
    zapLockdirAdding z = .upgrade z ∨
      ∃ z', zapLockdirAdding z = .ok z' ∧ z'.zapAvl = z.zapAvl ∧ z'.mzSalt = z.mzSalt := by
  rcases zapLockdirAdding_spec z with ⟨-, -, hl⟩ | ⟨-, -, hl⟩ | ⟨-, hl⟩
  · exact .inl hl
  · exact .inr ⟨_, hl, rfl, rfl⟩
  · exact .inr ⟨_, hl, rfl, rfl⟩

theorem mzapAddent_cases (z : Mzap) (name : List UInt8) (hash value : UInt64) :
    mzapAddent z name hash value = .panic ∨ ∃ i t', mzapAddentChunk z = some i ∧
      z.zapAvl.add ⟨i, hash, mzeFindUnusedCd z.zapAvl.toMzapAvl hash⟩ = some t' ∧
      mzapAddent z name hash value = .ok { z with
        mzChunk := z.mzChunk.set i ⟨value, mzeFindUnusedCd z.zapAvl.toMzapAvl hash, name⟩
        zapNumEntries := z.zapNumEntries + 1
        zapAllocNext := if i + 1 = z.zapNumChunks then 0 else i + 1
        zapAvl := t' } := by
  unfold mzapAddent
  dsimp only
  split
  · exact .inl rfl
  · rename_i i hc
    split
    · exact .inl rfl
    · rename_i t' ha
      exact .inr ⟨i, t', hc, ha, rfl⟩

theorem MzapResult.Keeps.mono {P Q : Mzap → Prop} (hpq : ∀ z, P z → Q z) :
    ∀ {r : MzapResult}, r.Keeps P → r.Keeps Q
  | .ok z, h | .eexist z, h | .enoent z, h | .upgrade z, h => hpq z h
  | .panic, _ => trivial

/-- `zap_add` keeps the bound: it adds only after the test of `mze_canfit_fzap_leaf`. -/
theorem bound_zapAdd {z : Mzap} (hb : z.zapAvl.Bound) (key : List UInt8)
    (integerSize numIntegers : ℕ) (value : UInt64) :
    (zapAdd z key integerSize numIntegers value).Keeps fun z => z.zapAvl.Bound := by
  unfold zapAdd
  rcases zapLockdirAdding_cases z with hl | ⟨z1, hl, havl, -⟩
  · rw [hl]
    exact hb
  · rw [hl]
    have hb1 : z1.zapAvl.Bound := havl ▸ hb
    dsimp only
    split_ifs with hcheck
    · exact hb1
    · obtain ⟨-, -, -, hcan⟩ : _ ∧ _ ∧ _ ∧ mzeCanfitFzapLeaf z1 (z1.nameHash key) = true := by
        simpa using hcheck
      have hfit := of_decide_eq_true ((mzeCanfitFzapLeaf_eq z1 _).symm.trans hcan)
      split
      · exact hb1
      · rcases mzapAddent_cases z1 key (z1.nameHash key) value with hp | ⟨i, t', -, hadd, heq⟩
        · rw [hp]
          trivial
        · rw [heq]
          exact hb1.add hfit hadd

/-- `zap_remove` keeps the bound. -/
theorem bound_zapRemove {z : Mzap} (hb : z.zapAvl.Bound) (name : List UInt8) :
    (zapRemove z name).Keeps fun z => z.zapAvl.Bound := by
  unfold zapRemove
  split
  · exact hb
  · exact hb.remove _

/-- A property every call keeps holds after a run of them. -/
theorem mzapRun_keeps {P : Mzap → Prop} :
    ∀ {calls : List MzapCall}, (∀ c ∈ calls, ∀ z, P z → (c.run z).Keeps P) →
      ∀ {z}, P z → (mzapRun z calls).Keeps P
  | [], _, _, hz => hz
  | c :: cs, hstep, z, hz => by
    have hc := hstep c List.mem_cons_self z hz
    have hrest : ∀ c ∈ cs, ∀ z, P z → (c.run z).Keeps P := fun c hc =>
      hstep c (List.mem_cons_of_mem _ hc)
    unfold mzapRun
    -- the run goes on from the micro ZAP a call leaves, and stops at an upgrade or a panic
    cases hr : c.run z with
    | ok z' | eexist z' | enoent z' =>
      rw [hr] at hc
      exact mzapRun_keeps hrest hc
    | upgrade z' =>
      rw [hr] at hc
      exact hc
    | panic => trivial

/-- Whether a call is a `zap_update`. -/
def MzapCall.isUpdate : MzapCall → Bool
  | .update .. => true
  | _ => false

/-- **Without `zap_update`, every hash's entries fit in one leaf.**  Along any run of `zap_add`
and `zap_remove` calls on a new object, the micro ZAP each call leaves, and the one a call
upgrades, keeps the bound of `mze_canfit_fzap_leaf`. -/
theorem mzapFits_add_remove (salt : UInt64) (calls : List MzapCall)
    (hcalls : ∀ c ∈ calls, c.isUpdate = false) :
    (mzapRun (mzapCreate salt) calls).Keeps MzapFits := by
  have hzero : ∀ h, (mzapCreate salt).zapAvl.count h = 0 := fun _ => rfl
  have hinit : (mzapCreate salt).zapAvl.Bound :=
    ⟨fun h => by rw [hzero]; decide, fun h _ => by rw [hzero]; decide⟩
  refine MzapResult.Keeps.mono (fun z (hb : z.zapAvl.Bound) => hb.fits)
    (mzapRun_keeps (P := fun z => z.zapAvl.Bound) (fun c hc z hz => ?_) hinit)
  cases c with
  | add key integerSize numIntegers value => exact bound_zapAdd hz key integerSize numIntegers value
  | update => exact absurd (hcalls _ hc) Bool.noConfusion
  | remove name => exact bound_zapRemove hz name

theorem mzapFits_add_remove_one :
    (∀ c ∈ [MzapCall.add [0x61] 8 1 5, .remove [0x61]], c.isUpdate = false) ∧
      (mzapRun (mzapCreate 0) [.add [0x61] 8 1 5, .remove [0x61]]).Keeps MzapFits :=
  ⟨by decide, mzapFits_add_remove 0 _ (by decide)⟩

/-! ## The store -/

/-- The names in the chunks. -/
def Mzap.names (z : Mzap) : List (List UInt8) := z.mzChunk.map (·.mzeName)

/-- What `zap_m` keeps agrees with the block: a chunk for each of `zap_num_chunks`, a block one
`MZAP_ENT_LEN` larger than they and at most `MZAP_MAX_BLKSZ`, and as many entries and nodes as
chunks in use. -/
structure MzapOk (z : Mzap) : Prop where
  chunks : z.mzChunk.length = z.zapNumChunks
  size : z.dbSize = mzapEntLen * (z.zapNumChunks + 1)
  size_le : z.dbSize ≤ mzapMaxBlksz
  entries : z.zapNumEntries = z.mzChunk.countP (·.mzeName ≠ [])
  nodes : z.zapAvl.nodes.length = z.zapNumEntries

theorem mzapOk_create (salt : UInt64) : MzapOk (mzapCreate salt) where
  chunks := List.length_replicate
  size := rfl
  size_le := by simp [mzapCreate, spaMinblocksize_eq, mzapMaxBlksz_eq]
  entries := (List.countP_eq_zero.mpr fun c hc => by
    simp [List.eq_of_mem_replicate hc, mzapEntPhysZero]).symm
  nodes := rfl

namespace MzapOk

variable {z : Mzap}

theorem entries_le (ok : MzapOk z) : z.zapNumEntries ≤ z.zapNumChunks := by
  rw [ok.entries, ← ok.chunks]
  exact List.countP_le_length

theorem nodes_lt (ok : MzapOk z) : z.zapAvl.nodes.length < 2 ^ 32 := by
  have hsize := ok.size
  have hle := ok.size_le
  have hent := ok.entries_le
  rw [mzapEntLen_eq] at hsize
  rw [mzapMaxBlksz_eq] at hle
  rw [ok.nodes]
  omega

end MzapOk

/-- A chunk read through `mz_chunk[i]` has one of the names, or none. -/
theorem Mzap.chunk_mzeName (z : Mzap) (i : ℕ) :
    (z.chunk i).mzeName ∈ z.names ∨ (z.chunk i).mzeName = [] := by
  unfold Mzap.chunk Mzap.names
  rw [List.getD_eq_getElem?_getD]
  cases hi : z.mzChunk[i]? with
  | none => exact .inr rfl
  | some c => exact .inl (List.mem_map_of_mem (List.mem_of_getElem? hi))

theorem mzeFind_eq_some {z : Mzap} {name : List UInt8} {h : UInt64} {e : MzapEnt}
    (hf : mzeFind z name h = some e) :
    e ∈ z.zapAvl.nodes ∧ (z.chunk e.mzeChunkid).mzeName = name := by
  unfold mzeFind at hf
  refine ⟨?_, by simpa using List.find?_some hf⟩
  exact ((List.takeWhile_sublist _).trans (List.dropWhile_sublist _)).subset
    (List.mem_of_find?_eq_some hf)

/-- `mze_find` finds nothing for a name no chunk holds. -/
theorem mzeFind_eq_none {z : Mzap} {name : List UInt8} (hname : name ≠ []) (hfresh : name ∉ z.names)
    (h : UInt64) : mzeFind z name h = none := by
  unfold mzeFind
  rw [List.find?_eq_none]
  intro e _ he
  have he : (z.chunk e.mzeChunkid).mzeName = name := by simpa using he
  rcases z.chunk_mzeName e.mzeChunkid with hm | hm
  · exact hfresh (he ▸ hm)
  · exact hname (he ▸ hm)

/-- The growth of `zap_lockdir_impl` keeps the invariant and leaves a free chunk. -/
theorem zapLockdirAdding_ok {z z' : Mzap} (ok : MzapOk z) (hl : zapLockdirAdding z = .ok z') :
    MzapOk z' ∧ z'.zapNumEntries < z'.zapNumChunks ∧ z'.mzSalt = z.mzSalt ∧
      z'.zapAvl = z.zapAvl ∧ z'.zapNumEntries = z.zapNumEntries ∧
      ∀ n ∈ z'.names, n ∈ z.names ∨ n = [] := by
  rcases zapLockdirAdding_spec z with ⟨-, -, h⟩ | ⟨hfull, hle, h⟩ | ⟨hfull, h⟩
  · rw [h] at hl
    cases hl
  · rw [h] at hl
    cases hl
    -- the block grows by eight chunks
    have hsize := ok.size
    have hchunks := ok.chunks
    rw [mzapEntLen_eq] at hsize
    rw [spaMinblocksize_eq, mzapMaxBlksz_eq] at hle
    have hnew : (z.dbSize + spaMinblocksize) / mzapEntLen - 1 = z.zapNumChunks + 8 := by
      rw [spaMinblocksize_eq, mzapEntLen_eq]
      omega
    refine ⟨⟨?_, ?_, ?_, ?_, ok.nodes⟩, ?_, rfl, rfl, rfl, fun n hn => ?_⟩
    · simp only [List.length_append, List.length_replicate, hnew]
      omega
    · dsimp only
      rw [hnew, mzapEntLen_eq, spaMinblocksize_eq]
      omega
    · dsimp only
      rw [spaMinblocksize_eq, mzapMaxBlksz_eq]
      exact hle
    · simp [List.countP_append, ok.entries, mzapEntPhysZero]
    · dsimp only
      omega
    · simp only [Mzap.names, List.map_append, List.mem_append, List.map_replicate,
        List.mem_replicate] at hn
      rcases hn with hn | ⟨-, hn⟩
      · exact .inl hn
      · exact .inr hn
  · rw [h] at hl
    cases hl
    exact ⟨ok, lt_of_le_of_ne ok.entries_le hfull, rfl, rfl, rfl, fun n hn => .inl hn⟩

/-- Below 2040 entries the growth of `zap_lockdir_impl` stays within `MZAP_MAX_BLKSZ`. -/
theorem zapLockdirAdding_of_room {z : Mzap} (ok : MzapOk z) (hroom : z.zapNumEntries < 2040) :
    ∃ z', zapLockdirAdding z = .ok z' := by
  rcases zapLockdirAdding_spec z with ⟨hfull, hmax, -⟩ | ⟨-, -, h⟩ | ⟨-, h⟩
  · -- a full block of fewer than 2040 chunks has room to grow
    have hsize := ok.size
    rw [mzapEntLen_eq] at hsize
    rw [spaMinblocksize_eq, mzapMaxBlksz_eq] at hmax
    omega
  · exact ⟨_, h⟩
  · exact ⟨_, h⟩

/-- The loop of `mzap_addent` finds a free chunk while not every chunk is in use. -/
theorem mzapAddentChunk_free {z : Mzap} (ok : MzapOk z) (hroom : z.zapNumEntries < z.zapNumChunks) :
    ∃ i, mzapAddentChunk z = some i ∧ i < z.zapNumChunks ∧ (z.chunk i).mzeName = [] := by
  have htake : z.mzChunk.take z.zapNumChunks = z.mzChunk := List.take_of_length_le ok.chunks.le
  -- not every chunk is in use, so the search from `0` finds one
  have hall : z.mzChunk.findIdx? (fun c => decide (c.mzeName = [])) ≠ none := by
    intro hnone
    rw [List.findIdx?_eq_none_iff] at hnone
    have hcount : z.mzChunk.countP (·.mzeName ≠ []) = z.mzChunk.length :=
      List.countP_eq_length.mpr fun c hc => by simpa using hnone c hc
    rw [ok.chunks, ← ok.entries] at hcount
    omega
  -- what a search from `a` finds is a free chunk at `a + j`
  have hfound : ∀ a j, (z.mzChunk.drop a).findIdx? (fun c => decide (c.mzeName = [])) = some j →
      a + j < z.zapNumChunks ∧ (z.chunk (a + j)).mzeName = [] := by
    intro a j hj
    have hlen := ok.chunks
    obtain ⟨hjlt, hp, -⟩ := List.findIdx?_eq_some_iff_getElem.mp hj
    rw [List.length_drop] at hjlt
    rw [List.getElem_drop] at hp
    refine ⟨by omega, ?_⟩
    unfold Mzap.chunk
    rw [List.getD_eq_getElem _ _ (by omega)]
    simpa using hp
  unfold mzapAddentChunk
  dsimp only
  rw [htake]
  cases hj : (z.mzChunk.drop z.zapAllocNext).findIdx? (fun c => decide (c.mzeName = [])) with
  | some j => exact ⟨_, rfl, hfound _ j hj⟩
  | none =>
    by_cases ha : z.zapAllocNext = 0
    · rw [ha, List.drop_zero] at hj
      exact absurd hj hall
    · rw [if_pos ha]
      obtain ⟨i, hi⟩ := Option.ne_none_iff_exists'.mp hall
      have hfi := hfound 0 i (by rwa [List.drop_zero])
      rw [Nat.zero_add] at hfi
      exact ⟨i, hi, hfi⟩

theorem mzapAddent_eq {z : Mzap} {name : List UInt8} {hash value : UInt64} {i : ℕ} {t' : MzeAvl}
    (hc : mzapAddentChunk z = some i)
    (ha : z.zapAvl.add ⟨i, hash, mzeFindUnusedCd z.zapAvl.toMzapAvl hash⟩ = some t') :
    mzapAddent z name hash value = .ok { z with
      mzChunk := z.mzChunk.set i ⟨value, mzeFindUnusedCd z.zapAvl.toMzapAvl hash, name⟩
      zapNumEntries := z.zapNumEntries + 1
      zapAllocNext := if i + 1 = z.zapNumChunks then 0 else i + 1
      zapAvl := t' } := by
  simp only [mzapAddent, hc, ha]

/-- `mzap_addent` of a name into a micro ZAP with a free chunk: one entry and one node more, at
the `cd` of `mze_find_unused_cd`. -/
theorem mzapAddent_fresh {z : Mzap} (ok : MzapOk z) (hroom : z.zapNumEntries < z.zapNumChunks)
    {name : List UInt8} (hname : name ≠ []) (hash value : UInt64) :
    ∃ z' i, mzapAddent z name hash value = .ok z' ∧ MzapOk z' ∧ z'.mzSalt = z.mzSalt ∧
      z'.zapNumEntries = z.zapNumEntries + 1 ∧ (∀ n ∈ z'.names, n ∈ z.names ∨ n = name) ∧
      z'.zapAvl.nodes.Perm
        (⟨i, hash, mzeFindUnusedCd z.zapAvl.toMzapAvl hash⟩ :: z.zapAvl.nodes) := by
  obtain ⟨i, hc, hi, hfree⟩ := mzapAddentChunk_free ok hroom
  have hilen : i < z.mzChunk.length := ok.chunks ▸ hi
  obtain ⟨t', ha⟩ := MzeAvl.add_of_fresh (e := ⟨i, hash, _⟩)
    (MzeAvl.mzeFindUnusedCd_fresh (h := hash) ok.nodes_lt)
  obtain ⟨-, hperm⟩ := MzeAvl.add_eq_some ha
  refine ⟨_, i, mzapAddent_eq hc ha, ⟨?_, ok.size, ok.size_le, ?_, ?_⟩, rfl, rfl, fun n hn => ?_,
    hperm⟩
  · simp [ok.chunks]
  · -- the chunk taken was free and now holds the name
    have hold : z.mzChunk[i].mzeName = [] := by
      rw [← List.getD_eq_getElem _ mzapEntPhysZero hilen]
      exact hfree
    rw [List.countP_set hilen, ok.entries]
    simp [hold, hname]
  · rw [hperm.length_eq, List.length_cons, ok.nodes]
  · simp only [Mzap.names, List.map_set] at hn
    exact List.mem_or_eq_of_mem_set hn

theorem countP_mzeName_modify (l : List MzapEntPhys) (i : ℕ) (value : UInt64) :
    (l.modify i fun c => { c with mzeValue := value }).countP (·.mzeName ≠ []) =
      l.countP (·.mzeName ≠ []) := by
  induction l generalizing i with
  | nil => cases i <;> rfl
  | cons c l ih =>
    cases i with
    | zero => rfl
    | succ i => rw [List.modify_succ_cons, List.countP_cons, List.countP_cons, ih]

/-! ## Every call keeps the store -/

section Store

variable {z : Mzap} {name : List UInt8}

/-- **`zap_remove` keeps the store.** -/
theorem mzapOk_remove (ok : MzapOk z) (hname : name ≠ []) : (zapRemove z name).Keeps MzapOk := by
  unfold zapRemove
  split
  · exact ok
  · rename_i e hf
    obtain ⟨he, hchunk⟩ := mzeFind_eq_some hf
    -- the chunk of the node holds the name: it lies in the block and is in use
    have hin : e.mzeChunkid < z.mzChunk.length := by
      by_contra hout
      unfold Mzap.chunk at hchunk
      rw [List.getD_eq_getElem?_getD, List.getElem?_eq_none (by omega)] at hchunk
      exact hname hchunk.symm
    have hused : z.mzChunk[e.mzeChunkid].mzeName ≠ [] := by
      rw [← List.getD_eq_getElem _ mzapEntPhysZero hin]
      exact hchunk ▸ hname
    have hpos : 1 ≤ z.mzChunk.countP (·.mzeName ≠ []) :=
      List.countP_pos_iff.mpr ⟨_, List.getElem_mem hin, by simpa using hused⟩
    refine ⟨by simp [ok.chunks], ok.size, ok.size_le, ?_, ?_⟩
    · dsimp only
      rw [List.countP_set hin, ok.entries]
      simp [hused, mzapEntPhysZero]
    · dsimp only
      rw [MzeAvl.remove, List.length_erase_of_mem he, ok.nodes]

end Store

/-! ## `zap_update` adds without the test -/

/-- **`zap_update` of a new name** into a micro ZAP below 2040 entries adds its entry, at the `cd`
of `mze_find_unused_cd`, whatever the entries of its hash already are. -/
theorem zapUpdate_fresh {z : Mzap} (ok : MzapOk z) {name : List UInt8} (hname : name ≠ [])
    (hlen : name.length < mzapNameLen) (hfresh : name ∉ z.names) (hroom : z.zapNumEntries < 2040)
    (value : UInt64) :
    ∃ z' i, zapUpdate z name 8 1 value = .ok z' ∧ MzapOk z' ∧ z'.mzSalt = z.mzSalt ∧
      z'.zapNumEntries = z.zapNumEntries + 1 ∧ (∀ n ∈ z'.names, n ∈ z.names ∨ n = name ∨ n = []) ∧
      z'.zapAvl.nodes.Perm (⟨i, z.nameHash name,
        mzeFindUnusedCd z.zapAvl.toMzapAvl (z.nameHash name)⟩ :: z.zapAvl.nodes) := by
  obtain ⟨z1, hl⟩ := zapLockdirAdding_of_room ok hroom
  obtain ⟨ok1, hroom1, hsalt1, havl1, hent1, hnames1⟩ := zapLockdirAdding_ok ok hl
  have hfresh1 : name ∉ z1.names := fun hn => (hnames1 name hn).elim hfresh hname
  have hhash : z1.nameHash name = z.nameHash name := by
    unfold Mzap.nameHash
    rw [hsalt1]
  obtain ⟨z', i, hadd, ok', hsalt', hent', hnames', hperm⟩ :=
    mzapAddent_fresh ok1 hroom1 hname (z1.nameHash name) value
  refine ⟨z', i, ?_, ok', hsalt'.trans hsalt1, by rw [hent', hent1], fun n hn => ?_, ?_⟩
  · have hcond : ¬((8 : ℕ) ≠ 8 ∨ (1 : ℕ) ≠ 1 ∨ name.length ≥ mzapNameLen) := by omega
    unfold zapUpdate
    rw [hl]
    dsimp only
    rw [if_neg hcond, mzeFind_eq_none hname hfresh1]
    exact hadd
  · rcases hnames' n hn with hn | hn
    · exact (hnames1 n hn).imp id Or.inr
    · exact .inr (.inl hn)
  · rwa [havl1, hhash] at hperm

theorem Mzap.nameHash_congr {z z' : Mzap} (h : z'.mzSalt = z.mzSalt) : z'.nameHash = z.nameHash := by
  funext name
  unfold Mzap.nameHash
  rw [h]

/-- **A run of `zap_update` calls of new names** adds one entry for each, to the count of its
hash, and keeps every node. -/
theorem mzapRun_updates (value : UInt64) :
    ∀ (names : List (List UInt8)) {z : Mzap}, MzapOk z → names.Nodup →
      (∀ n ∈ names, n ≠ [] ∧ n.length < mzapNameLen ∧ n ∉ z.names) →
      z.zapNumEntries + names.length ≤ 2040 →
      ∃ z', mzapRun z (names.map fun n => .update n 8 1 value) = .ok z' ∧ MzapOk z' ∧
        z'.mzSalt = z.mzSalt ∧ z'.zapNumEntries = z.zapNumEntries + names.length ∧
        (∀ h, z'.zapAvl.count h = z.zapAvl.count h + names.countP (z.nameHash · = h)) ∧
        ∀ k ∈ z.zapAvl.nodes.map MzapEnt.key, k ∈ z'.zapAvl.nodes.map MzapEnt.key
  | [], z, ok, _, _, _ => ⟨z, rfl, ok, rfl, rfl, fun _ => by simp, fun _ hk => hk⟩
  | n :: rest, z, ok, hnd, hnames, hroom => by
    obtain ⟨hne, hlen, hfresh⟩ := hnames n List.mem_cons_self
    rw [List.length_cons] at hroom
    obtain ⟨z1, i, hup, ok1, hsalt1, hent1, hnames1, hperm⟩ :=
      zapUpdate_fresh ok hne hlen hfresh (by omega) value
    obtain ⟨hn, hnd⟩ := List.nodup_cons.mp hnd
    -- the names still to come are new to the micro ZAP this update leaves
    have hrest : ∀ m ∈ rest, m ≠ [] ∧ m.length < mzapNameLen ∧ m ∉ z1.names := fun m hm => by
      obtain ⟨hm1, hm2, hm3⟩ := hnames m (List.mem_cons_of_mem _ hm)
      refine ⟨hm1, hm2, fun hm4 => ?_⟩
      rcases hnames1 m hm4 with h | h | h
      · exact hm3 h
      · exact hn (h ▸ hm)
      · exact hm1 h
    obtain ⟨z', hrun, ok', hsalt', hent', hcount', hkeys'⟩ :=
      mzapRun_updates value rest ok1 hnd hrest (by omega)
    have hhash := Mzap.nameHash_congr hsalt1
    refine ⟨z', ?_, ok', hsalt'.trans hsalt1, by rw [hent', hent1, List.length_cons]; omega,
      fun h => ?_, fun k hk => hkeys' k ?_⟩
    · simp only [List.map_cons, mzapRun, MzapCall.run, hup]
      exact hrun
    · rw [hcount', MzeAvl.count_of_perm hperm, hhash, List.countP_cons]
      simp only [decide_eq_true_eq]
      omega
    · rw [(hperm.map MzapEnt.key).mem_iff]
      exact List.mem_cons_of_mem _ hk

theorem mzapRun_append_of_ok {z z' : Mzap} : ∀ {calls : List MzapCall} (more : List MzapCall),
    mzapRun z calls = .ok z' → mzapRun z (calls ++ more) = mzapRun z' more
  | [], _, h => by
    cases h
    rfl
  | c :: cs, more, h => by
    rw [List.cons_append, mzapRun.eq_2]
    rw [mzapRun.eq_2] at h
    cases hr : c.run z with
    | ok z1 | eexist z1 | enoent z1 =>
      rw [hr] at h
      exact mzapRun_append_of_ok more h
    | upgrade z1 =>
      rw [hr] at h
      cases h
    | panic =>
      rw [hr] at h
      cases h

/-- **Updates of new names of one hash into a new object** leave one entry of that hash for each
name, the first at `(hash, 0)`. -/
theorem mzapRun_updates_create (salt value : UInt64) {h : UInt64} {n : List UInt8}
    {names : List (List UInt8)} (hnd : (n :: names).Nodup)
    (hnames : ∀ m ∈ n :: names, m ≠ [] ∧ m.length < mzapNameLen ∧ (mzapCreate salt).nameHash m = h)
    (hlen : names.length < 2040) :
    ∃ z', mzapRun (mzapCreate salt) ((n :: names).map fun m => .update m 8 1 value) = .ok z' ∧
      MzapOk z' ∧ z'.mzSalt = salt ∧ z'.zapNumEntries = names.length + 1 ∧
      z'.zapAvl.count h = names.length + 1 ∧ ⟨h, 0⟩ ∈ z'.zapAvl.nodes.map MzapEnt.key := by
  have ok0 := mzapOk_create salt
  -- a new object's chunks are all free
  have hfree0 : ∀ m, m ≠ [] → m ∉ (mzapCreate salt).names := fun m hm hmem => by
    simp only [Mzap.names, mzapCreate, List.map_replicate, List.mem_replicate] at hmem
    exact hm hmem.2
  obtain ⟨hne, hlen0, hhash0⟩ := hnames n List.mem_cons_self
  obtain ⟨z1, i, hup, ok1, hsalt1, hent1, hnames1, hperm1⟩ :=
    zapUpdate_fresh ok0 hne hlen0 (hfree0 n hne) (by simp [mzapCreate]) value
  -- the first name takes `cd` 0 of an empty tree
  rw [hhash0] at hperm1
  have hkey1 : ⟨h, 0⟩ ∈ z1.zapAvl.nodes.map MzapEnt.key :=
    (hperm1.map MzapEnt.key).mem_iff.mpr List.mem_cons_self
  obtain ⟨hn, hnd⟩ := List.nodup_cons.mp hnd
  have hrest : ∀ m ∈ names, m ≠ [] ∧ m.length < mzapNameLen ∧ m ∉ z1.names := fun m hm => by
    obtain ⟨hm1, hm2, -⟩ := hnames m (List.mem_cons_of_mem _ hm)
    refine ⟨hm1, hm2, fun hm3 => ?_⟩
    rcases hnames1 m hm3 with h | h | h
    · exact hfree0 m hm1 h
    · exact hn (h ▸ hm)
    · exact hm1 h
  obtain ⟨z', hrun, ok', hsalt', hent', hcount', hkeys'⟩ :=
    mzapRun_updates value names ok1 hnd hrest (by rw [hent1]; dsimp only [mzapCreate]; omega)
  have hhash1 := Mzap.nameHash_congr hsalt1
  refine ⟨z', ?_, ok', hsalt'.trans hsalt1, by rw [hent', hent1]; dsimp only [mzapCreate]; omega,
    ?_, hkeys' _ hkey1⟩
  · simp only [List.map_cons, mzapRun, MzapCall.run, hup]
    exact hrun
  · -- every later name has the hash too
    have hall : names.countP (z1.nameHash · = h) = names.length := by
      rw [List.countP_eq_length]
      intro m hm
      simpa [hhash1] using (hnames m (List.mem_cons_of_mem _ hm)).2.2
    have hcount1 : z1.zapAvl.count h = 1 := by
      rw [MzeAvl.count_of_perm hperm1]
      simp [MzeAvl.count, mzapCreate]
    rw [hcount', hcount1, hall, Nat.add_comm]

/-- `zap_add` upgrades a micro ZAP in which the test of `mze_canfit_fzap_leaf` fails for the key's
hash. -/
theorem zapAdd_upgrade_of_not_canfit {z : Mzap} (ok : MzapOk z) (hroom : z.zapNumEntries < 2040)
    {key : List UInt8} (hcan : mzeCanfitFzapLeaf z (z.nameHash key) = false) (value : UInt64) :
    ∃ z', zapAdd z key 8 1 value = .upgrade z' ∧ z'.zapAvl = z.zapAvl := by
  obtain ⟨z1, hl⟩ := zapLockdirAdding_of_room ok hroom
  obtain ⟨-, -, hsalt1, havl1, -⟩ := zapLockdirAdding_ok ok hl
  have hcan1 : mzeCanfitFzapLeaf z1 (z1.nameHash key) = false := by
    unfold mzeCanfitFzapLeaf
    rw [havl1, Mzap.nameHash_congr hsalt1]
    exact hcan
  refine ⟨z1, ?_, havl1⟩
  unfold zapAdd
  rw [hl]
  dsimp only
  rw [if_pos (Or.inr (Or.inr (Or.inr (by simp [hcan1]))))]

/-- Eight sets of positions in a name of 45 letters `a`: turning `a` into `b` at the positions of
any combination of them leaves the top 28 bits of the salted CRC unchanged, the CRC being linear. -/
def collidingMasks : List ℕ :=
  [0x35b7c0f, 0x5137f87, 0x196e724e, 0xe1970fa6, 0x1097caa61, 0x229d1e490, 0x400837fb5,
    0x8003dd018]

/-- The name of the combination `m` of `collidingMasks`. -/
def collidingName (m : ℕ) : List UInt8 :=
  let mask := collidingMasks.zipIdx.foldl
    (fun acc kj => if m.testBit kj.2 then acc ^^^ kj.1 else acc) 0
  (List.range 45).map fun i => if mask.testBit i then 0x62 else 0x61

theorem length_collidingName (m : ℕ) : (collidingName m).length = 45 := by
  simp [collidingName]

/-- A name of 45 bytes takes `MZAP_ENT_CHUNKS` chunks in a fat leaf, as many as any micro entry. -/
theorem collidingName_chunks (m : ℕ) :
    1 + zapLeafArrayNchunks ((collidingName m).length + 1) + zapLeafArrayNchunks 8 = mzapEntChunks := by
  rw [length_collidingName]
  rfl

private theorem collidingName_hash_part0 :
    ∀ m < 33, (mzapCreate 1).nameHash (collidingName m) = 2573545778152734720 := by
  decide +kernel

private theorem collidingName_hash_part1 :
    ∀ m < 33, (mzapCreate 1).nameHash (collidingName (m + 33)) = 2573545778152734720 := by
  decide +kernel

private theorem collidingName_hash_part2 :
    ∀ m < 33, (mzapCreate 1).nameHash (collidingName (m + 66)) = 2573545778152734720 := by
  decide +kernel

private theorem collidingName_hash_part3 :
    ∀ m < 30, (mzapCreate 1).nameHash (collidingName (m + 99)) = 2573545778152734720 := by
  decide +kernel

theorem collidingName_hash :
    ∀ m < 129, (mzapCreate 1).nameHash (collidingName m) = 2573545778152734720 := by
  intro m hm
  -- the kernel evaluates the salted CRCs a quarter of the names at a time
  by_cases h0 : m < 33
  · exact collidingName_hash_part0 m h0
  obtain ⟨k, rfl⟩ : ∃ k, m = k + 33 := ⟨m - 33, by omega⟩
  by_cases h1 : k < 33
  · exact collidingName_hash_part1 k h1
  obtain ⟨k, rfl⟩ : ∃ j, k = j + 33 := ⟨k - 33, by omega⟩
  by_cases h2 : k < 33
  · simpa only [Nat.add_assoc] using collidingName_hash_part2 k h2
  obtain ⟨k, rfl⟩ : ∃ j, k = j + 33 := ⟨k - 33, by omega⟩
  simpa only [Nat.add_assoc] using collidingName_hash_part3 k (by omega)

/-- **`zap_update` fills a micro ZAP past what one leaf holds.**  On a new object with salt `1`,
`zap_update` of the 128 names `collidingName 0`, ..., `collidingName 127` (which share one hash)
leaves a micro ZAP with 128 entries of that hash, 640 chunks in their fat form where a leaf has
638; `zap_add` of a 129th name of the hash then finds that they do not fit, and upgrades this micro
ZAP. -/
theorem zapUpdate_overfills_leaf :
    ∃ z, mzapRun (mzapCreate 1)
        (((List.range 128).map collidingName).map (fun n => .update n 8 1 0) ++
          [.add (collidingName 128) 8 1 0]) = .upgrade z ∧
      z.zapAvl.count 2573545778152734720 = 128 ∧ ¬MzapFits z ∧
      ∀ m, 1 + zapLeafArrayNchunks ((collidingName m).length + 1) + zapLeafArrayNchunks 8 =
        mzapEntChunks := by
  have hhash := collidingName_hash
  have hnd : ((List.range 128).map collidingName).Nodup := by decide +kernel
  rw [List.range_succ_eq_map, List.map_cons, List.map_map] at hnd ⊢
  have hnames : ∀ m ∈ collidingName 0 :: (List.range 127).map (collidingName ∘ Nat.succ),
      m ≠ [] ∧ m.length < mzapNameLen ∧ (mzapCreate 1).nameHash m = 2573545778152734720 := by
    intro m hm
    obtain ⟨k, hk, rfl⟩ : ∃ k < 128, collidingName k = m := by
      rcases List.mem_cons.mp hm with rfl | hm
      · exact ⟨0, by decide, rfl⟩
      · obtain ⟨k, hk, rfl⟩ := List.mem_map.mp hm
        rw [List.mem_range] at hk
        exact ⟨k + 1, by omega, rfl⟩
    refine ⟨fun h => by simpa [h] using length_collidingName k, ?_, hhash k (by omega)⟩
    rw [length_collidingName]
    decide
  obtain ⟨z1, hrun, ok1, hsalt1, hent1, hcount1, hkey1⟩ :=
    mzapRun_updates_create 1 0 hnd hnames (by simp)
  rw [List.length_map, List.length_range] at hent1 hcount1
  -- the 129th name of the hash: the walk from `(hash, 0)` counts 128 entries
  have hcan : mzeCanfitFzapLeaf z1 (z1.nameHash (collidingName 128)) = false := by
    rw [Mzap.nameHash_congr (z := mzapCreate 1) hsalt1, hhash 128 (by decide), mzeCanfitFzapLeaf_eq,
      if_pos hkey1, hcount1]
    rfl
  obtain ⟨z2, hadd, havl2⟩ := zapAdd_upgrade_of_not_canfit ok1 (by rw [hent1]; decide) hcan 0
  refine ⟨z2, ?_, by rw [havl2, hcount1], fun hfits => ?_, collidingName_chunks⟩
  · rw [mzapRun_append_of_ok _ hrun]
    simp only [mzapRun, MzapCall.run, hadd]
  · -- 128 entries of 5 chunks do not fit in 638
    have hover := hfits 2573545778152734720
    rw [havl2, hcount1, zapLeafNumchunksDef_eq.1, zapLeafNumchunksDef_eq.2] at hover
    omega

end Zfs
