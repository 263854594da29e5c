import Zfs.Spl.Byteorder

/-!
# Zap/Cursor — iterating over a ZAP object, and serialized cursors

A ZAP cursor walks the entries of a ZAP object in increasing order of hash and collision
differentiator (`cd`).  A micro ZAP keeps its entries in an AVL tree ordered that way; a fat ZAP
keeps them in leaves, each holding the hashes of one prefix, and `fzap_cursor_retrieve` moves
from leaf to leaf by stepping the hash to the next prefix.  A cursor can be *serialized* into a
`uint64_t` (`zap_cursor_serialize`: the high `zap_hashbits` bits of the hash, with the `cd`
above them) and a new cursor started from that value (`zap_cursor_init_serialized`), as
`readdir` and the dedup-table walk do.  A cursor that has run off the end has the hash
`-1ULL`, and serializes as `-1ULL`.

* `zapCursorLoad_serialize` — for a cursor at a hash whose low bits are clear and a `cd` below
  `zap_maxcd`, serializing and starting again resumes at the same hash and `cd`;
* `zapCursorLoad_serialize_end` — a cursor that has run off the end does not: started again from
  `-1ULL` it resumes at the largest hash, `cd` `0`, and sees an entry there once more.
* **`zapCursor_serialize_resume`** — both cases in one statement.
-/

namespace Zfs

/-! ## Flags and hashes (`zap_micro.c`) -/

/-- `ZAP_FLAG_HASH64`, `ZAP_FLAG_UINT64_KEY` and `ZAP_FLAG_PRE_HASHED_KEY`. -/
def zapFlagHash64 : UInt64 := 1
def zapFlagUint64Key : UInt64 := 2
def zapFlagPreHashedKey : UInt64 := 4

/-- `zap_hashbits(zap)`: how many high bits of a hash are used. -/
def zapHashbits (flags : UInt64) : ℕ := if flags &&& zapFlagHash64 != 0 then 48 else 28

/-- `zap_maxcd(zap)`: `(1<<16)-1`, or `-1U`. -/
def zapMaxcd (flags : UInt64) : UInt32 :=
  if flags &&& zapFlagHash64 != 0 then ((1 : UInt32) <<< 16) - 1 else 0xFFFFFFFF

/-- `ZFS_CRC64_POLY`. -/
def zfsCrc64Poly : UInt64 := 0xC96C5795D7870F42

/-- `zfs_crc64_table[i]`, as the loop in `arc_init` fills it: eight steps of the reflected
polynomial. -/
def zfsCrc64Table (i : UInt64) : UInt64 :=
  (List.range 8).foldl (fun ct _ => (ct >>> 1) ^^^ ((0 - (ct &&& 1)) &&& zfsCrc64Poly)) i

/-- One step of the CRC in `zap_hash`: `h = (h >> 8) ^ zfs_crc64_table[(h ^ c) & 0xFF]`. -/
def crc64Step (h c : UInt64) : UInt64 := (h >>> 8) ^^^ zfsCrc64Table ((h ^^^ c) &&& 0xFF)

/-- A key as `zap_name_t` holds it after normalization: the bytes of a string (without the
terminating NUL, which is not hashed) or the words of a `uint64` key. -/
inductive ZapKey
  | str (bytes : List UInt8)
  | uint64 (words : List UInt64)

/-- `zap_hash(zn)`: a pre-hashed key's first word, or the CRC of the key from the salt; only the
high `zap_hashbits` bits are kept. -/
def zapHash (flags salt : UInt64) (key : ZapKey) : UInt64 :=
  let h :=
    if flags &&& zapFlagPreHashedKey != 0 then
      match key with
      | .uint64 (w :: _) => w
      -- not reached: a pre-hashed key is a `uint64` key
      | _ => 0
    else
      match key with
      | .uint64 words =>
        words.foldl (fun h w =>
          ((List.range 8).foldl (fun (h, word) _ => (crc64Step h word, word >>> 8)) (h, w)).1) salt
      | .str bytes => bytes.foldl (fun h c => crc64Step h c.toUInt64) salt
  h &&& ~~~((1 <<< (64 - zapHashbits flags).toUInt64) - 1)

/-! ## Leaves (`zap_leaf.c`) -/

/-- An entry of a ZAP, by its place in the order: hash and collision differentiator. -/
structure ZapLeafEntry where
  leHash : UInt64
  leCd : UInt32
  deriving DecidableEq, Repr

/-- A leaf block: its block shift `l_bs`, `lh_prefix_len`, `lh_prefix`, and the entries on the
chain of each bucket of `l_hash[]`, in chain order. -/
structure ZapLeaf where
  lBs : ℕ
  lhPrefixLen : ℕ
  lhPrefix : UInt64
  lHash : ℕ → List ZapLeafEntry

/-- `ZAP_LEAF_HASH_SHIFT(l)`. -/
def zapLeafHashShift (l : ZapLeaf) : ℕ := l.lBs - 5

/-- `ZAP_LEAF_HASH_NUMENTRIES(l)`. -/
def zapLeafHashNumentries (l : ZapLeaf) : ℕ := 2 ^ zapLeafHashShift l

/-- `LEAF_HASH(l, h)`: the bucket of a hash, from the bits below the leaf's prefix. -/
def leafHash (l : ZapLeaf) (h : UInt64) : ℕ :=
  (zapLeafHashNumentries l - 1) &&& (h >>> (64 - zapLeafHashShift l - l.lhPrefixLen).toUInt64).toNat

/-- `HCD_GTEQ(h1, cd1, h2, cd2)`: `(h1, cd1) ≥ (h2, cd2)`. -/
def hcdGteq (h1 : UInt64) (cd1 : UInt32) (h2 : UInt64) (cd2 : UInt32) : Bool :=
  h1 > h2 || (h1 == h2 && cd1 ≥ cd2)

/-- The state of `zap_leaf_lookup_closest`: `besth`, `bestcd`, `bestlh`. -/
structure ZapBest where
  besth : UInt64
  bestcd : UInt32
  bestlh : ℕ

/-- The inner loop of `zap_leaf_lookup_closest` over the chain of bucket `lh`. -/
def zapLeafLookupClosestChain (h : UInt64) (cd : UInt32) (lh : ℕ) :
    ZapBest → List ZapLeafEntry → ZapBest
  | best, [] => best
  | best, le :: chain =>
    let best :=
      if hcdGteq le.leHash le.leCd h cd && hcdGteq best.besth best.bestcd le.leHash le.leCd then
        ⟨le.leHash, le.leCd, lh⟩
      else best
    zapLeafLookupClosestChain h cd lh best chain

/-- The outer loop of `zap_leaf_lookup_closest`, `for (lh = LEAF_HASH(l, h); lh <= bestlh;
lh++)`; it runs at most `ZAP_LEAF_HASH_NUMENTRIES(l)` times, the fuel it is given. -/
def zapLeafLookupClosestLoop (l : ZapLeaf) (h : UInt64) (cd : UInt32) :
    ℕ → ℕ → ZapBest → ZapBest
  | 0, _, best => best
  | n + 1, lh, best =>
    if lh ≤ best.bestlh then
      zapLeafLookupClosestLoop l h cd n (lh + 1) (zapLeafLookupClosestChain h cd lh best (l.lHash lh))
    else best

/-- `zap_leaf_lookup_closest(l, h, cd, &zeh)`: the entry it hands back, or `ENOENT`. -/
def zapLeafLookupClosest (l : ZapLeaf) (h : UInt64) (cd : UInt32) : Option ZapLeafEntry :=
  let best := zapLeafLookupClosestLoop l h cd (zapLeafHashNumentries l) (leafHash l h)
    ⟨0xFFFFFFFFFFFFFFFF, 0xFFFFFFFF, zapLeafHashNumentries l - 1⟩
  if best.bestcd = 0xFFFFFFFF then none else some ⟨best.besth, best.bestcd⟩

/-! ## Retrieving the next entry -/

/-- What a retrieve ends in: an entry, or `ENOENT`. -/
inductive ZapRetrieve
  | found (e : ZapLeafEntry)
  | enoent
  deriving DecidableEq, Repr

/-- The loop of `fzap_cursor_retrieve` from `again:`, with `zap_deref_leaf` as `derefLeaf`: the
outcome, and the cursor's new hash and `cd`.  Each turn that goes on moves the hash to the start
of the next prefix, so the hash grows strictly; the fuel bounds the turns, and `none` is a run
out of fuel. -/
def fzapCursorRetrieveLoop (derefLeaf : UInt64 → ZapLeaf) :
    ℕ → UInt64 → UInt32 → Option (ZapRetrieve × UInt64 × UInt32)
  | 0, _, _ => none
  | n + 1, h, cd =>
    let l := derefLeaf h
    match zapLeafLookupClosest l h cd with
    | some e => some (.found e, e.leHash, e.leCd)
    | none =>
      if l.lhPrefixLen = 0 then some (.enoent, 0xFFFFFFFFFFFFFFFF, 0)
      else
        let nocare : UInt64 := (1 <<< (64 - l.lhPrefixLen).toUInt64) - 1
        let h' := (h &&& ~~~nocare) + nocare + 1
        if h' = 0 then some (.enoent, 0xFFFFFFFFFFFFFFFF, 0)
        else fzapCursorRetrieveLoop derefLeaf n h' 0

/-- A micro ZAP's entries as its AVL tree holds them, in increasing `(hash, cd)` order. -/
structure MzapAvl where
  ents : List ZapLeafEntry
  sorted : ents.Pairwise fun a b => a.leHash < b.leHash ∨ (a.leHash = b.leHash ∧ a.leCd < b.leCd)

/-- A ZAP object as the cursor sees it: a micro ZAP (whose flags are `0`), or a fat ZAP with its
flags and `zap_deref_leaf`, the leaf the pointer table gives for a hash. -/
inductive Zap
  | micro (avl : MzapAvl)
  | fat (flags : UInt64) (derefLeaf : UInt64 → ZapLeaf)

/-- `zap_getflags(zap)`. -/
def zapGetflags : Zap → UInt64
  | .micro _ => 0
  | .fat flags _ => flags

/-! ## The cursor (`zap_micro.c`) -/

/-- The fields of `zap_cursor_t` that the walk reads: whether `zc_zap` is held,
`zc_serialized`, `zc_hash` and `zc_cd`. -/
structure ZapCursor where
  zcZap : Bool
  zcSerialized : UInt64
  zcHash : UInt64
  zcCd : UInt32
  deriving DecidableEq, Repr

/-- `zap_cursor_init_serialized(zc, os, zapobj, serialized)`. -/
def zapCursorInitSerialized (serialized : UInt64) : ZapCursor := ⟨false, serialized, 0, 0⟩

/-- `zap_cursor_init(zc, os, zapobj)`. -/
def zapCursorInit : ZapCursor := zapCursorInitSerialized 0

/-- `zap_cursor_serialize(zc)`: `[ cd | zap_hashbits()-bit hash ]`, or `-1ULL` at the end. -/
def zapCursorSerialize (zap : Zap) (zc : ZapCursor) : UInt64 :=
  if zc.zcHash = 0xFFFFFFFFFFFFFFFF then 0xFFFFFFFFFFFFFFFF
  else if !zc.zcZap then zc.zcSerialized
  else
    let hb := zapHashbits (zapGetflags zap)
    (zc.zcHash >>> (64 - hb).toUInt64) ||| (zc.zcCd.toUInt64 <<< hb.toUInt64)

/-- The first thing `zap_cursor_retrieve` does with a cursor that holds no ZAP yet: take the
hash and `cd` from `zc_serialized`, adding the `cd` to one `zap_cursor_advance` may have
counted, and dropping a `cd` that is too large. -/
def zapCursorLoad (zap : Zap) (zc : ZapCursor) : ZapCursor :=
  if zc.zcZap then zc
  else
    let hb := zapHashbits (zapGetflags zap)
    let cd := zc.zcCd + (zc.zcSerialized >>> hb.toUInt64).toUInt32
    { zc with
      zcZap := true
      zcHash := zc.zcSerialized <<< (64 - hb).toUInt64
      zcCd := if cd ≥ zapMaxcd (zapGetflags zap) then 0 else cd }

/-- The leaf loop runs at most once per hash value. -/
def fzapRetrieveFuel : ℕ := 2 ^ 64

/-- `zap_cursor_retrieve(zc, za)`: the outcome and the cursor after it. -/
def zapCursorRetrieve (zap : Zap) (zc : ZapCursor) : ZapRetrieve × ZapCursor :=
  if zc.zcHash = 0xFFFFFFFFFFFFFFFF then (.enoent, zc)
  else
    let zc := zapCursorLoad zap zc
    match zap with
    | .fat _ derefLeaf =>
      match fzapCursorRetrieveLoop derefLeaf fzapRetrieveFuel zc.zcHash zc.zcCd with
      | some (r, h, cd) => (r, { zc with zcHash := h, zcCd := cd })
      | none => (.enoent, zc)
    | .micro avl =>
      -- `avl_find`, then `avl_nearest(..., AVL_AFTER)`: the first entry at or after the cursor
      match avl.ents.find? (fun e => hcdGteq e.leHash e.leCd zc.zcHash zc.zcCd) with
      | some e => (.found e, { zc with zcHash := e.leHash, zcCd := e.leCd })
      | none => (.enoent, { zc with zcHash := 0xFFFFFFFFFFFFFFFF })

/-- `zap_cursor_advance(zc)`. -/
def zapCursorAdvance (zc : ZapCursor) : ZapCursor :=
  if zc.zcHash = 0xFFFFFFFFFFFFFFFF then zc else { zc with zcCd := zc.zcCd + 1 }

/-! ## Serializing and starting again -/

/-- The two hash widths, each with its largest `cd`. -/
theorem zapHashbits_maxcd (flags : UInt64) :
    (zapHashbits flags = 48 ∧ (zapMaxcd flags).toNat = 2 ^ 16 - 1) ∨
      (zapHashbits flags = 28 ∧ (zapMaxcd flags).toNat = 2 ^ 32 - 1) := by
  unfold zapHashbits zapMaxcd
  split
  · exact .inl ⟨rfl, by decide⟩
  · exact .inr ⟨rfl, by decide⟩

/-- The hash bits leave room below them, and every `cd` below `zap_maxcd` fits in that room. -/
theorem zapHashbits_bounds (flags : UInt64) :
    0 < zapHashbits flags ∧ zapHashbits flags < 64 ∧
      (zapMaxcd flags).toNat ≤ 2 ^ (64 - zapHashbits flags) := by
  rcases zapHashbits_maxcd flags with ⟨hb, hm⟩ | ⟨hb, hm⟩ <;> rw [hb, hm] <;> norm_num

/-- A hash whose low `k` bits are clear, with `cd` above its high `hb` bits, shifted back up:
the `cd` falls off the top and the hash is whole again; shifted down, the `cd` is left. -/
theorem serialized_shift {hb k c h : ℕ} (hk : hb + k = 64) (hlow : h % 2 ^ k = 0)
    (hh : h < 2 ^ 64) :
    (c * 2 ^ hb + h / 2 ^ k) * 2 ^ k % 2 ^ 64 = h ∧ (c * 2 ^ hb + h / 2 ^ k) / 2 ^ hb = c := by
  have hcancel : h / 2 ^ k * 2 ^ k = h := Nat.div_mul_cancel (Nat.dvd_of_mod_eq_zero hlow)
  have hpow : 2 ^ hb * 2 ^ k = 2 ^ 64 := by rw [← pow_add, hk]
  constructor
  · calc (c * 2 ^ hb + h / 2 ^ k) * 2 ^ k % 2 ^ 64
        = (h + c * 2 ^ 64) % 2 ^ 64 := by rw [add_mul, mul_assoc, hpow, hcancel, add_comm]
      _ = h := by rw [Nat.add_mul_mod_self_right, Nat.mod_eq_of_lt hh]
  · have hsmall : h / 2 ^ k / 2 ^ hb = 0 := by
      rw [Nat.div_div_eq_div_mul, mul_comm, hpow, Nat.div_eq_of_lt hh]
    rw [add_comm, Nat.add_mul_div_right _ _ (by positivity), hsmall, zero_add]

section Serialize

variable {zap : Zap} {zc : ZapCursor}

/-- A serialized cursor, as a number: the high bits of the hash, with the `cd` above them. -/
theorem toNat_zapCursorSerialize (hzap : zc.zcZap = true) (hend : zc.zcHash ≠ 0xFFFFFFFFFFFFFFFF)
    (hcd : zc.zcCd < zapMaxcd (zapGetflags zap)) :
    (zapCursorSerialize zap zc).toNat =
      zc.zcCd.toNat * 2 ^ zapHashbits (zapGetflags zap) +
        zc.zcHash.toNat / 2 ^ (64 - zapHashbits (zapGetflags zap)) := by
  obtain ⟨hb0, hb64, hmax⟩ := zapHashbits_bounds (zapGetflags zap)
  set hb := zapHashbits (zapGetflags zap)
  have hpow : 2 ^ hb * 2 ^ (64 - hb) = 2 ^ 64 := by rw [← pow_add, Nat.add_sub_cancel' hb64.le]
  -- the `cd` fits above the hash bits, which it does not overlap
  have hcd' : zc.zcCd.toNat * 2 ^ hb < 2 ^ 64 := by
    rw [← hpow, mul_comm (2 ^ hb)]
    exact Nat.mul_lt_mul_of_pos_right ((UInt32.lt_iff_toNat_lt.mp hcd).trans_le hmax)
      (by positivity)
  have hhash : zc.zcHash.toNat / 2 ^ (64 - hb) < 2 ^ hb := by
    rw [Nat.div_lt_iff_lt_mul (by positivity), hpow]
    exact zc.zcHash.toNat_lt
  simp only [zapCursorSerialize, hend, hzap, if_false, Bool.not_true, Bool.false_eq_true]
  rw [UInt64.toNat_or, UInt64.toNat_shiftRight, UInt64.toNat_shiftLeft, UInt32.toNat_toUInt64,
    Nat.or_comm, Nat.shiftRight_eq_div_pow, Nat.shiftLeft_eq, Nat.toUInt64_eq, UInt64.toNat_ofNat',
    Nat.toUInt64_eq, UInt64.toNat_ofNat']
  rw [Nat.mod_eq_of_lt (by omega : hb % 2 ^ 64 < 64), Nat.mod_eq_of_lt (by omega : hb < 2 ^ 64),
    Nat.mod_eq_of_lt (by omega : (64 - hb) % 2 ^ 64 < 64), Nat.mod_eq_of_lt (by omega : 64 - hb < 2 ^ 64),
    Nat.mod_eq_of_lt hcd', mul_two_pow_or_of_lt hhash]

/-- **A serialized cursor resumes where it was**: for a cursor at a hash whose bits below
`zap_hashbits` are clear and at a `cd` below `zap_maxcd`, a new cursor started from
`zap_cursor_serialize` loads the same hash and `cd`. -/
theorem zapCursorLoad_serialize (hzap : zc.zcZap = true) (hend : zc.zcHash ≠ 0xFFFFFFFFFFFFFFFF)
    (hlow : zc.zcHash.toNat % 2 ^ (64 - zapHashbits (zapGetflags zap)) = 0)
    (hcd : zc.zcCd < zapMaxcd (zapGetflags zap)) :
    (zapCursorLoad zap (zapCursorInitSerialized (zapCursorSerialize zap zc))).zcHash =
        zc.zcHash ∧
      (zapCursorLoad zap (zapCursorInitSerialized (zapCursorSerialize zap zc))).zcCd = zc.zcCd := by
  obtain ⟨hb0, hb64, hmax⟩ := zapHashbits_bounds (zapGetflags zap)
  have hser := toNat_zapCursorSerialize hzap hend hcd
  obtain ⟨hhash, hcdv⟩ := serialized_shift (c := zc.zcCd.toNat) (Nat.add_sub_cancel' hb64.le)
    hlow zc.zcHash.toNat_lt
  rw [← hser] at hhash hcdv
  simp only [zapCursorLoad, zapCursorInitSerialized, Bool.false_eq_true, if_false]
  set hb := zapHashbits (zapGetflags zap)
  set ser := zapCursorSerialize zap zc
  -- the `cd` read back: the shifted value, as a `uint32_t`, below `zap_maxcd`
  have hcd32 : (0 + (ser >>> hb.toUInt64).toUInt32) = zc.zcCd := by
    apply UInt32.toNat_inj.mp
    rw [zero_add, UInt64.toNat_toUInt32, UInt64.toNat_shiftRight, Nat.shiftRight_eq_div_pow,
      Nat.toUInt64_eq, UInt64.toNat_ofNat', Nat.mod_eq_of_lt (by omega : hb < 2 ^ 64),
      Nat.mod_eq_of_lt hb64, hcdv, Nat.mod_eq_of_lt zc.zcCd.toNat_lt]
  refine ⟨?_, ?_⟩
  · apply UInt64.toNat_inj.mp
    rw [UInt64.toNat_shiftLeft, Nat.shiftLeft_eq, Nat.toUInt64_eq, UInt64.toNat_ofNat',
      Nat.mod_eq_of_lt (by omega : 64 - hb < 2 ^ 64), Nat.mod_eq_of_lt (by omega : 64 - hb < 64),
      hhash]
  · have hnot : ¬ zapMaxcd (zapGetflags zap) ≤ zc.zcCd := UInt32.not_le.mpr hcd
    simp only [hcd32, ge_iff_le, hnot, if_false]

/-- **A cursor at the end does not stay there**: it serializes as `-1ULL`, and a cursor started
from that loads the largest hash, all `zap_hashbits` high bits set, with `cd` `0`, which is not
the end. -/
theorem zapCursorLoad_serialize_end (hend : zc.zcHash = 0xFFFFFFFFFFFFFFFF) :
    zapCursorSerialize zap zc = 0xFFFFFFFFFFFFFFFF ∧
      (zapCursorLoad zap (zapCursorInitSerialized (zapCursorSerialize zap zc))).zcHash =
        0xFFFFFFFFFFFFFFFF <<< (64 - zapHashbits (zapGetflags zap)).toUInt64 ∧
      (zapCursorLoad zap (zapCursorInitSerialized (zapCursorSerialize zap zc))).zcHash ≠
        0xFFFFFFFFFFFFFFFF ∧
      (zapCursorLoad zap (zapCursorInitSerialized (zapCursorSerialize zap zc))).zcCd = 0 := by
  have hser : zapCursorSerialize zap zc = 0xFFFFFFFFFFFFFFFF := by
    simp [zapCursorSerialize, hend]
  simp only [hser, zapCursorLoad, zapCursorInitSerialized, Bool.false_eq_true, if_false,
    true_and]
  -- the two widths, each evaluated
  rcases zapHashbits_maxcd (zapGetflags zap) with ⟨hb, hm⟩ | ⟨hb, hm⟩
  · have hm' : zapMaxcd (zapGetflags zap) = 65535 := UInt32.toNat_inj.mp (by rw [hm]; rfl)
    rw [hb, hm']
    decide
  · have hm' : zapMaxcd (zapGetflags zap) = 0xFFFFFFFF := UInt32.toNat_inj.mp (by rw [hm]; rfl)
    rw [hb, hm']
    decide

end Serialize

/-- A dedup-table ZAP (`ZAP_FLAG_HASH64 | ZAP_FLAG_UINT64_KEY | ZAP_FLAG_PRE_HASHED_KEY`) whose
one leaf holds one entry, for the key `0xFFFFFFFFFFFFFFFF`: a cursor returns the entry, then
`ENOENT`; serialized there and started again, as `ddt_zap_walk` does, it returns the entry once
more. -/
theorem zapCursor_entry_after_end (salt : UInt64) :
    let e : ZapLeafEntry := ⟨0xFFFFFFFFFFFF0000, 0⟩
    let zap : Zap := .fat 7 fun _ => ⟨12, 0, 0, fun lh => if lh = 127 then [e] else []⟩
    let r1 := zapCursorRetrieve zap zapCursorInit
    let r2 := zapCursorRetrieve zap (zapCursorAdvance r1.2)
    let s := zapCursorSerialize zap r2.2
    zapHash 7 salt (.uint64 [0xFFFFFFFFFFFFFFFF]) = e.leHash ∧ r1.1 = .found e ∧
      r2.1 = .enoent ∧ s = 0xFFFFFFFFFFFFFFFF ∧
      (zapCursorRetrieve zap (zapCursorInitSerialized s)).1 = .found e := by
  intro e zap r1 r2 s
  -- a pre-hashed key is its own hash, whatever the salt
  have hhash : zapHash 7 salt (.uint64 [0xFFFFFFFFFFFFFFFF]) = e.leHash := by
    have hpre : (7 &&& zapFlagPreHashedKey != 0) = true := by decide
    simp only [zapHash, hpre, if_true]
    decide
  exact ⟨hhash, by decide, by decide, by decide, by decide⟩

/-- **A serialized cursor resumes where it stood, except at the end**: a cursor at a hash whose
bits below `zap_hashbits` are clear and a `cd` below `zap_maxcd`, serialized and started again, is
at the same hash and `cd`; a cursor that has run off the end serializes as `-1ULL` and, started
again, stands at the largest hash with `cd` `0`, which is not the end. -/
theorem zapCursor_serialize_resume (zap : Zap) (zc : ZapCursor) :
    (zc.zcZap = true → zc.zcHash ≠ 0xFFFFFFFFFFFFFFFF →
      zc.zcHash.toNat % 2 ^ (64 - zapHashbits (zapGetflags zap)) = 0 →
      zc.zcCd < zapMaxcd (zapGetflags zap) →
      (zapCursorLoad zap (zapCursorInitSerialized (zapCursorSerialize zap zc))).zcHash =
          zc.zcHash ∧
        (zapCursorLoad zap (zapCursorInitSerialized (zapCursorSerialize zap zc))).zcCd = zc.zcCd) ∧
    (zc.zcHash = 0xFFFFFFFFFFFFFFFF →
      zapCursorSerialize zap zc = 0xFFFFFFFFFFFFFFFF ∧
        (zapCursorLoad zap (zapCursorInitSerialized (zapCursorSerialize zap zc))).zcHash =
          0xFFFFFFFFFFFFFFFF <<< (64 - zapHashbits (zapGetflags zap)).toUInt64 ∧
        (zapCursorLoad zap (zapCursorInitSerialized (zapCursorSerialize zap zc))).zcHash ≠
          0xFFFFFFFFFFFFFFFF ∧
        (zapCursorLoad zap (zapCursorInitSerialized (zapCursorSerialize zap zc))).zcCd = 0) :=
  ⟨zapCursorLoad_serialize, zapCursorLoad_serialize_end⟩

/-- A fat ZAP with 64-bit hashes and empty leaves. -/
def zapFatHash64 : Zap := .fat 7 fun _ => ⟨12, 0, 0, fun _ => []⟩

/-- A cursor at hash `0x123456789ABC0000`, `cd` 3. -/
def zapCursorMid : ZapCursor := ⟨true, 0, 0x123456789ABC0000, 3⟩

theorem zapCursor_serialize_resume_mid :
    zapCursorMid.zcZap = true ∧ zapCursorMid.zcHash ≠ 0xFFFFFFFFFFFFFFFF ∧
      zapCursorMid.zcHash.toNat % 2 ^ (64 - zapHashbits (zapGetflags zapFatHash64)) = 0 ∧
      zapCursorMid.zcCd < zapMaxcd (zapGetflags zapFatHash64) ∧
      (zapCursorLoad zapFatHash64 (zapCursorInitSerialized
          (zapCursorSerialize zapFatHash64 zapCursorMid))).zcHash = zapCursorMid.zcHash ∧
      (zapCursorLoad zapFatHash64 (zapCursorInitSerialized
          (zapCursorSerialize zapFatHash64 zapCursorMid))).zcCd = zapCursorMid.zcCd := by
  have hzap : zapCursorMid.zcZap = true := rfl
  have hend : zapCursorMid.zcHash ≠ 0xFFFFFFFFFFFFFFFF := by decide
  have hlow :
      zapCursorMid.zcHash.toNat % 2 ^ (64 - zapHashbits (zapGetflags zapFatHash64)) = 0 := by
    decide
  have hcd : zapCursorMid.zcCd < zapMaxcd (zapGetflags zapFatHash64) := by decide
  exact ⟨hzap, hend, hlow, hcd,
    (zapCursor_serialize_resume zapFatHash64 zapCursorMid).1 hzap hend hlow hcd⟩

end Zfs
