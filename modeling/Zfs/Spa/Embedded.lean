import Mathlib
import Zfs.Spa.Blkptr

/-!
# Spa/Embedded — `encode_embedded_bp_compressed`, and the round trip through the decoder

`encode_embedded_bp_compressed` zeroes a block pointer, stores the embedded bit, the compression,
the byte order and the two sizes in `blk_prop`, and packs the payload bytes little-endian into
words, moving on to the next word after each full one and stepping over `blk_prop` and
`blk_birth` as `decode_embedded_bp_compressed` does.  The main result:

* `encodeEmbeddedBpCompressed_round_trip` — for a payload of 1 to 112 bytes, a logical size from
  1 to `2^25` and a compression below `ZIO_COMPRESS_FUNCTIONS`, the fields read back as written,
  and the decoder returns the payload, also after any number of stores of the embedded type, the
  object type, the level or the birth time.

Two inputs: the encoder's loop keeps the bytes it has packed readable as payload bytes
(`EncodeAt`, `encodeEmbeddedBpCompressedLoop_spec`) and writes payload words only, so `blk_prop`
is what the field stores left; and the decoder reads nothing but the payload size and the payload
words (`decodeEmbeddedBpCompressed_congr`), which those four stores leave alone.
-/

namespace Zfs

open Blkptr

/-- The word numerals of a block pointer take this instance. -/
theorem neZero_sixteen : NeZero (16 : ℕ) := ⟨by decide⟩

attribute [local instance] neZero_sixteen

/-! ## Stores into a block pointer -/

/-- `bp64[n] = w` for a word of the structure. -/
def Blkptr.store (bp : Blkptr) (n : Fin 16) (w : UInt64) : Blkptr := ⟨Function.update bp.words n w⟩

/-- `*bp64 = w` through `(uint64_t *)bp`: `none` outside the structure. -/
def Blkptr.setWord (bp : Blkptr) (n : ℕ) (w : UInt64) : Option Blkptr :=
  if h : n < 16 then some (bp.store ⟨n, h⟩ w) else none

/-- `bp->blk_birth = b`. -/
def Blkptr.setBlkBirth (bp : Blkptr) (b : UInt64) : Blkptr := bp.store 10 b

/-- `BF64_SET((bp)->blk_prop, low, len, x)`, the store behind the `BP_SET_*` macros of a field of
`blk_prop`. -/
def bpSetProp (bp : Blkptr) (low len : ℕ) (x : UInt64) : Blkptr :=
  bp.setBlkProp (bf64Set bp.blkProp low len x)

/-- `BP_SET_EMBEDDED(bp, x)`. -/
def bpSetEmbedded (bp : Blkptr) (x : UInt64) : Blkptr := bpSetProp bp 39 1 x

/-- `BP_SET_COMPRESS(bp, x)`, with `SPA_COMPRESSBITS = 7`. -/
def bpSetCompress (bp : Blkptr) (x : UInt64) : Blkptr := bpSetProp bp 32 7 x

/-- `BP_SET_BYTEORDER(bp, x)`. -/
def bpSetByteorder (bp : Blkptr) (x : UInt64) : Blkptr := bpSetProp bp 63 1 x

/-- `BPE_SET_ETYPE(bp, t)`. -/
def bpeSetEtype (bp : Blkptr) (t : UInt64) : Blkptr := bpSetProp bp 40 8 t

/-- `BP_SET_TYPE(bp, x)`. -/
def bpSetType (bp : Blkptr) (x : UInt64) : Blkptr := bpSetProp bp 48 8 x

/-- `BP_SET_LEVEL(bp, x)`. -/
def bpSetLevel (bp : Blkptr) (x : UInt64) : Blkptr := bpSetProp bp 56 5 x

/-- `BPE_SET_LSIZE(bp, x)`. -/
def bpeSetLsize (bp : Blkptr) (x : UInt64) : Blkptr :=
  bp.setBlkProp (bf64SetSb bp.blkProp 0 25 0 1 x)

/-- `ZFS_HOST_BYTEORDER` of a little-endian host. -/
def zfsHostByteorder : UInt64 := 1

/-! ## `encode_embedded_bp_compressed` -/

/-- The loop of `encode_embedded_bp_compressed` over the bytes `ds` still to store, from byte `i`,
with `bp64` the next word to write and `w` the word being filled: the word it stands at, the
partial word, and the block pointer, or `none` when a full word would be stored outside the
structure. -/
def encodeEmbeddedBpCompressedLoop :
    List UInt8 → ℕ → ℕ → UInt64 → Blkptr → Option (ℕ × UInt64 × Blkptr)
  | [], _, bp64, w, bp => some (bp64, w, bp)
  | d :: ds, i, bp64, w, bp =>
    if i % 8 = 7 then
      match bp.setWord bp64 (bf64Set w (i % 8 * 8) 8 d.toUInt64) with
      | none => none
      | some bp => encodeEmbeddedBpCompressedLoop ds (i + 1) (bpeNextWord bp64) 0 bp
    else encodeEmbeddedBpCompressedLoop ds (i + 1) bp64 (bf64Set w (i % 8 * 8) 8 d.toUInt64) bp

/-- The zeroed block pointer with the fields of `blk_prop` that the encoder stores. -/
def embeddedBpHeader (comp lsize psize : UInt64) : Blkptr :=
  bpeSetPsize (bpeSetLsize (bpSetByteorder (bpSetCompress (bpSetEmbedded ⟨fun _ => 0⟩ 1) comp)
    zfsHostByteorder) lsize) psize

/-- `encode_embedded_bp_compressed(bp, data, comp, uncompressed_size, compressed_size)`, for the
`compressed_size` bytes of `data`: the block pointer it leaves, with the last partial word stored
when it still lies inside the structure. -/
def encodeEmbeddedBpCompressed (data : List UInt8) (comp lsize : UInt64) : Option Blkptr :=
  match encodeEmbeddedBpCompressedLoop data 0 0 0 (embeddedBpHeader comp lsize data.length.toUInt64) with
  | none => none
  | some (bp64, w, bp) => some (if h : bp64 < 16 then bp.store ⟨bp64, h⟩ w else bp)

/-! ## What a store changes -/

section Stores

variable (bp : Blkptr)

theorem wordAt_store (n : Fin 16) (w : UInt64) (k : ℕ) :
    (bp.store n w).wordAt k = if k = n then w else bp.wordAt k := by
  by_cases hk : k < 16
  · by_cases hkn : k = n
    · simp [Blkptr.wordAt, Blkptr.word, Blkptr.store, hkn]
    · have hne : (⟨k, hk⟩ : Fin 16) ≠ n := fun h => hkn (by rw [← h])
      simp [Blkptr.wordAt, Blkptr.word, Blkptr.store, hk, hkn, Function.update_of_ne hne]
  · have hkn : k ≠ n := by omega
    simp [Blkptr.wordAt, Blkptr.word, hk, hkn]

theorem setBlkProp_eq_store (p : UInt64) : bp.setBlkProp p = bp.store 6 p := rfl

theorem bf64Get_zero (low len : ℕ) : bf64Get 0 low len = 0 := by
  simp [bf64Get]

/-- The payload words are pairwise different. -/
theorem bpePayloadWord_inj {m m' : ℕ} (hm : m < 14) (hm' : m' < 14)
    (h : bpePayloadWord m = bpePayloadWord m') : m = m' := by
  simp only [bpePayloadWord] at h
  split_ifs at h <;> omega

/-- Payload word `m` lies inside the structure for the fourteen payload words only. -/
theorem bpePayloadWord_lt_iff (m : ℕ) : bpePayloadWord m < 16 ↔ m < 14 := by
  unfold bpePayloadWord
  split_ifs <;> omega

/-- A store into a word that is not a payload word leaves every payload word. -/
theorem wordAt_payloadWord_store {n : Fin 16} (hn : bpeIsPayloadword n = false) (w : UInt64)
    {m : ℕ} (hm : m < 14) :
    (bp.store n w).wordAt (bpePayloadWord m) = bp.wordAt (bpePayloadWord m) := by
  have hne : bpePayloadWord m ≠ n := fun h => by
    have := (bpePayloadWord_payload hm).2
    rw [h, hn] at this
    exact Bool.false_ne_true this
  rw [wordAt_store, if_neg hne]

@[simp] theorem blkProp_store_of_ne {n : Fin 16} (hn : (n : ℕ) ≠ 6) (w : UInt64) :
    (bp.store n w).blkProp = bp.blkProp := by
  rw [Blkptr.blkProp, wordAt_store, if_neg (Ne.symm hn), ← Blkptr.blkProp]

theorem bpePayloadByte_store (n : Fin 16) (w : UInt64) (j : ℕ) :
    bpePayloadByte (bp.store n w) j =
      if bpePayloadWord (j / 8) = n then (bf64Get w (j % 8 * 8) 8).toUInt8
      else bpePayloadByte bp j := by
  unfold bpePayloadByte
  rw [wordAt_store]
  split_ifs <;> rfl

end Stores

/-- **The decoder reads the payload size and the payload words, and nothing else.** -/
theorem decodeEmbeddedBpCompressed_congr {bp bp' : Blkptr} (hp : bpeGetPsize bp' = bpeGetPsize bp)
    (hw : ∀ m < 14, bp'.wordAt (bpePayloadWord m) = bp.wordAt (bpePayloadWord m)) :
    decodeEmbeddedBpCompressed bp' = decodeEmbeddedBpCompressed bp := by
  rw [decodeEmbeddedBpCompressed_eq, decodeEmbeddedBpCompressed_eq, hp]
  split_ifs with h
  · congr 1
    apply List.map_congr_left
    intro j hj
    rw [List.mem_range] at hj
    simp only [bpePayloadByte, hw (j / 8) (by omega)]
  · rfl

/-! ## Fields of `blk_prop` -/

section Fields

variable {low len : ℕ}

/-- A field stored shifted by 0 with a bias of one reads back as stored, for values from 1 to
`2 ^ len`. -/
theorem bf64GetSb_bf64SetSb_self (x v : UInt64) (hlow : low < 64) (hlen : len < 64)
    (hfit : low + len ≤ 64) (h1 : 1 ≤ v.toNat) (hv : v.toNat ≤ 2 ^ len) :
    bf64GetSb (bf64SetSb x low len 0 1 v) low len 0 1 = v := by
  have hsub : (v >>> (0 : ℕ).toUInt64 - (1 : ℕ).toUInt64).toNat = v.toNat - 1 := by
    rw [UInt64.toNat_sub_of_le _ _ (by simp [UInt64.le_iff_toNat_le]; omega)]
    simp
  rw [bf64GetSb, bf64SetSb, bf64Get_bf64Set_self _ _ hlow hlen hfit (by omega)]
  apply UInt64.toNat_inj.mp
  have hlt := v.toNat_lt
  simp only [UInt64.toNat_shiftLeft, UInt64.toNat_add, hsub]
  simp
  omega

theorem bf64GetSb_bf64Set_of_disjoint (x v : UInt64) {low' len' shift bias : ℕ} (hlow : low < 64)
    (hlen : len < 64) (hfit : low + len ≤ 64) (hlow' : low' < 64) (hlen' : len' < 64)
    (hd : low' + len' ≤ low ∨ low + len ≤ low') :
    bf64GetSb (bf64Set x low len v) low' len' shift bias = bf64GetSb x low' len' shift bias := by
  rw [bf64GetSb, bf64GetSb, bf64Get_bf64Set_of_disjoint x v hlow hlen hfit hlow' hlen' hd]

end Fields

section Header

variable {comp lsize psize : UInt64}

theorem bpIsEmbedded_embeddedBpHeader : bpIsEmbedded (embeddedBpHeader comp lsize psize) = true := by
  simp (disch := norm_num) only [bpIsEmbedded, embeddedBpHeader, bpeSetPsize, bpeSetLsize,
    bpSetByteorder, bpSetCompress, bpSetEmbedded, bpSetProp, blkProp_setBlkProp, bf64SetSb,
    bf64Get_bf64Set_of_disjoint]
  rw [bf64Get_bf64Set_self _ _ (by norm_num) (by norm_num) (by norm_num) (by decide)]
  decide

theorem bpGetCompress_embeddedBpHeader (hcomp : comp.toNat < 2 ^ 7) :
    bpGetCompress (embeddedBpHeader comp lsize psize) = comp := by
  simp (disch := norm_num) only [bpGetCompress, embeddedBpHeader, bpeSetPsize, bpeSetLsize,
    bpSetByteorder, bpSetCompress, bpSetProp, blkProp_setBlkProp, bf64SetSb,
    bf64Get_bf64Set_of_disjoint]
  rw [bf64Get_bf64Set_self _ _ (by norm_num) (by norm_num) (by norm_num) hcomp]

theorem bpeGetLsize_embeddedBpHeader (h1 : 1 ≤ lsize.toNat) (h : lsize.toNat ≤ 2 ^ 25) :
    bpeGetLsize (embeddedBpHeader comp lsize psize) = lsize := by
  rw [bpeGetLsize, embeddedBpHeader, bpeSetPsize, blkProp_setBlkProp, bf64SetSb,
    bf64GetSb_bf64Set_of_disjoint _ _ (by norm_num) (by norm_num) (by norm_num) (by norm_num)
      (by norm_num) (by norm_num), bpeSetLsize, blkProp_setBlkProp]
  exact bf64GetSb_bf64SetSb_self _ _ (by norm_num) (by norm_num) (by norm_num) h1 h

theorem bpeGetPsize_embeddedBpHeader (h1 : 1 ≤ psize.toNat) (h : psize.toNat ≤ 2 ^ 7) :
    bpeGetPsize (embeddedBpHeader comp lsize psize) = psize := by
  rw [bpeGetPsize, embeddedBpHeader, bpeSetPsize, blkProp_setBlkProp]
  exact bf64GetSb_bf64SetSb_self _ _ (by norm_num) (by norm_num) (by norm_num) h1 h

end Header

/-! ## Stores after encoding -/

/-- The stores a caller makes to an embedded block pointer once it is encoded: `BPE_SET_ETYPE`,
`BP_SET_TYPE`, `BP_SET_LEVEL` and `blk_birth`, any number of times in any order. -/
inductive EmbeddedRelabel (bp : Blkptr) : Blkptr → Prop
  | refl : EmbeddedRelabel bp bp
  | etype {bp' : Blkptr} (t : UInt64) : EmbeddedRelabel bp bp' →
      EmbeddedRelabel bp (bpeSetEtype bp' t)
  | type {bp' : Blkptr} (x : UInt64) : EmbeddedRelabel bp bp' → EmbeddedRelabel bp (bpSetType bp' x)
  | level {bp' : Blkptr} (x : UInt64) : EmbeddedRelabel bp bp' →
      EmbeddedRelabel bp (bpSetLevel bp' x)
  | birth {bp' : Blkptr} (b : UInt64) : EmbeddedRelabel bp bp' →
      EmbeddedRelabel bp (bp'.setBlkBirth b)

/-- A store of a field of `blk_prop` above the payload size leaves what the decoder reads. -/
theorem decodeEmbeddedBpCompressed_bpSetProp (bp : Blkptr) {low len : ℕ} (x : UInt64)
    (hlow : 32 ≤ low) (hlt : low < 64) (hlen : len < 64) (hfit : low + len ≤ 64) :
    decodeEmbeddedBpCompressed (bpSetProp bp low len x) = decodeEmbeddedBpCompressed bp := by
  apply decodeEmbeddedBpCompressed_congr
  · rw [bpeGetPsize, bpeGetPsize, bpSetProp, blkProp_setBlkProp,
      bf64GetSb_bf64Set_of_disjoint _ _ hlt hlen hfit (by norm_num) (by norm_num) (by omega)]
  · intro m hm
    rw [bpSetProp, setBlkProp_eq_store]
    exact wordAt_payloadWord_store bp (by decide) _ hm

theorem decodeEmbeddedBpCompressed_setBlkBirth (bp : Blkptr) (b : UInt64) :
    decodeEmbeddedBpCompressed (bp.setBlkBirth b) = decodeEmbeddedBpCompressed bp := by
  apply decodeEmbeddedBpCompressed_congr
  · rw [bpeGetPsize, bpeGetPsize, Blkptr.setBlkBirth, blkProp_store_of_ne bp (by decide)]
  · intro m hm
    exact wordAt_payloadWord_store bp (by decide) _ hm

/-- **Relabelling an embedded block pointer keeps its payload.** -/
theorem EmbeddedRelabel.decode {bp bp' : Blkptr} (h : EmbeddedRelabel bp bp') :
    decodeEmbeddedBpCompressed bp' = decodeEmbeddedBpCompressed bp := by
  induction h with
  | refl => rfl
  | etype t _ ih =>
    rw [bpeSetEtype, decodeEmbeddedBpCompressed_bpSetProp _ _ (by norm_num) (by norm_num)
      (by norm_num) (by norm_num), ih]
  | type x _ ih =>
    rw [bpSetType, decodeEmbeddedBpCompressed_bpSetProp _ _ (by norm_num) (by norm_num)
      (by norm_num) (by norm_num), ih]
  | level x _ ih =>
    rw [bpSetLevel, decodeEmbeddedBpCompressed_bpSetProp _ _ (by norm_num) (by norm_num)
      (by norm_num) (by norm_num), ih]
  | birth b _ ih => rw [decodeEmbeddedBpCompressed_setBlkBirth, ih]

/-! ## The encoding loop -/

/-- Where the encoding loop stands before byte `i` of `data`, started from `bp₀`: it is about to
store payload word `i / 8`, whose bytes so far are in `w`; the payload bytes of the words it
stored are those of `data`; and it has stored nothing but payload words. -/
structure EncodeAt (data : List UInt8) (bp₀ bp : Blkptr) (i bp64 : ℕ) (w : UInt64) : Prop where
  next : bp64 = bpePayloadWord (i / 8)
  filling : ∀ k < 8, bf64Get w (k * 8) 8 =
    if 8 * (i / 8) + k < i then (data.getD (8 * (i / 8) + k) 0).toUInt64 else 0
  full : ∀ j < 8 * (i / 8), bpePayloadByte bp j = data.getD j 0
  frame : ∀ n, bpeIsPayloadword n = false → bp.wordAt n = bp₀.wordAt n

section Loop

variable {data : List UInt8} {bp₀ bp : Blkptr} {i bp64 : ℕ} {w : UInt64}

theorem EncodeAt.start (data : List UInt8) (bp₀ : Blkptr) : EncodeAt data bp₀ bp₀ 0 0 0 where
  next := rfl
  filling := fun k _ => by simp [bf64Get_zero]
  full := fun j hj => absurd hj (by omega)
  frame := fun _ _ => rfl

/-- `BF64_SET(w, (i % 8) * NBBY, NBBY, data8[i])`: byte `i` joins the bytes of its word. -/
theorem filling_bf64Set
    (hw : ∀ k < 8, bf64Get w (k * 8) 8 =
      if 8 * (i / 8) + k < i then (data.getD (8 * (i / 8) + k) 0).toUInt64 else 0) :
    ∀ k < 8, bf64Get (bf64Set w (i % 8 * 8) 8 (data.getD i 0).toUInt64) (k * 8) 8 =
      if 8 * (i / 8) + k < i + 1 then (data.getD (8 * (i / 8) + k) 0).toUInt64 else 0 := by
  intro k hk
  have hi8 : i % 8 < 8 := Nat.mod_lt _ (by norm_num)
  by_cases hki : k = i % 8
  · have hv : (data.getD i 0).toUInt64.toNat < 2 ^ 8 := by
      rw [UInt8.toNat_toUInt64]
      exact UInt8.toNat_lt _
    rw [hki, bf64Get_bf64Set_self _ _ (by omega) (by norm_num) (by omega) hv, if_pos (by omega),
      show 8 * (i / 8) + i % 8 = i by omega]
  · rw [bf64Get_bf64Set_of_disjoint _ _ (by omega) (by norm_num) (by omega) (by omega) (by norm_num)
      (by omega), hw k hk]
    by_cases hc : 8 * (i / 8) + k < i
    · rw [if_pos hc, if_pos (by omega)]
    · rw [if_neg hc, if_neg (by omega)]

/-- A byte inside a word is packed into the word being filled. -/
theorem EncodeAt.step_inside (h : EncodeAt data bp₀ bp i bp64 w) (hi : i % 8 ≠ 7) :
    EncodeAt data bp₀ bp (i + 1) bp64 (bf64Set w (i % 8 * 8) 8 (data.getD i 0).toUInt64) := by
  have hdiv : (i + 1) / 8 = i / 8 := by omega
  exact ⟨by rw [h.next, hdiv], by rw [hdiv]; exact filling_bf64Set h.filling,
    by rw [hdiv]; exact h.full, h.frame⟩

/-- The last byte of a word completes it: the word is stored at `bp64`, a payload word, and the
loop moves on to the next payload word with an empty one. -/
theorem EncodeAt.step_word (h : EncodeAt data bp₀ bp i bp64 w) (hi : i % 8 = 7) (hlt : i < 112) :
    ∃ bp', bp.setWord bp64 (bf64Set w (i % 8 * 8) 8 (data.getD i 0).toUInt64) = some bp' ∧
      EncodeAt data bp₀ bp' (i + 1) (bpeNextWord bp64) 0 := by
  have hm : i / 8 < 14 := by omega
  have hdiv : (i + 1) / 8 = i / 8 + 1 := by omega
  obtain ⟨hb, hpay⟩ := bpePayloadWord_payload hm
  rw [← h.next] at hb hpay
  refine ⟨bp.store ⟨bp64, hb⟩ (bf64Set w (i % 8 * 8) 8 (data.getD i 0).toUInt64),
    by rw [Blkptr.setWord, dif_pos hb], ⟨?_, ?_, ?_, ?_⟩⟩
  · rw [h.next, hdiv, bpeNextWord_payloadWord hm]
  · intro k _
    rw [bf64Get_zero, if_neg (by omega)]
  · intro j hj
    rw [bpePayloadByte_store]
    by_cases hji : j / 8 = i / 8
    · have hk := filling_bf64Set h.filling (j % 8) (Nat.mod_lt _ (by norm_num))
      rw [if_pos (by omega), show 8 * (i / 8) + j % 8 = j by omega] at hk
      rw [if_pos (by rw [hji]; exact h.next.symm), hk]
      simp
    · have hne : bpePayloadWord (j / 8) ≠ bp64 := fun he =>
        hji (bpePayloadWord_inj (by omega) hm (he.trans h.next))
      rw [if_neg hne]
      exact h.full j (by omega)
  · intro n hn
    have hne : n ≠ bp64 := fun he => by
      rw [he, hpay] at hn
      cases hn
    rw [wordAt_store, if_neg hne]
    exact h.frame n hn

/-- **The encoding loop**, from any place it can stand, over the bytes left: it stores no word
outside the structure and ends after the last byte. -/
theorem encodeEmbeddedBpCompressedLoop_spec (hdata : data.length ≤ 112) :
    ∀ (ds : List UInt8) (i bp64 : ℕ) (w : UInt64) (bp : Blkptr),
      i ≤ data.length → data.drop i = ds → EncodeAt data bp₀ bp i bp64 w →
      ∃ bp64' w' bp', encodeEmbeddedBpCompressedLoop ds i bp64 w bp = some (bp64', w', bp') ∧
        EncodeAt data bp₀ bp' data.length bp64' w'
  | [], i, bp64, w, bp, hi, hds, h => by
    obtain rfl : i = data.length := by
      have := List.drop_eq_nil_iff.mp hds
      omega
    exact ⟨bp64, w, bp, rfl, h⟩
  | d :: ds, i, bp64, w, bp, hi, hds, h => by
    have hlt : i < data.length := by
      by_contra hge
      rw [List.drop_eq_nil_iff.mpr (by omega)] at hds
      cases hds
    rw [List.drop_eq_getElem_cons hlt, List.cons.injEq] at hds
    have hd : data.getD i 0 = d := by
      rw [List.getD_eq_getElem?_getD, List.getElem?_eq_getElem hlt, hds.1]
      rfl
    rw [encodeEmbeddedBpCompressedLoop, ← hd]
    by_cases h7 : i % 8 = 7
    · obtain ⟨bp', hset, h'⟩ := h.step_word h7 (by omega)
      rw [if_pos h7, hset]
      exact encodeEmbeddedBpCompressedLoop_spec hdata ds (i + 1) _ 0 bp' (by omega) hds.2 h'
    · rw [if_neg h7]
      exact encodeEmbeddedBpCompressedLoop_spec hdata ds (i + 1) bp64 _ bp (by omega) hds.2
        (h.step_inside h7)

end Loop

/-- **What `encode_embedded_bp_compressed` stores**: for at most 112 bytes it writes payload
words only, so every other word is as the field stores left it, and the payload bytes read back
as the data. -/
theorem encodeEmbeddedBpCompressed_spec (data : List UInt8) (comp lsize : UInt64)
    (hdata : data.length ≤ 112) :
    ∃ bp, encodeEmbeddedBpCompressed data comp lsize = some bp ∧
      (∀ n, bpeIsPayloadword n = false →
        bp.wordAt n = (embeddedBpHeader comp lsize data.length.toUInt64).wordAt n) ∧
      ∀ j < data.length, bpePayloadByte bp j = data.getD j 0 := by
  obtain ⟨bp64, w, bp, hloop, h⟩ := encodeEmbeddedBpCompressedLoop_spec hdata data 0 0 0
    (embeddedBpHeader comp lsize data.length.toUInt64) (Nat.zero_le _) List.drop_zero
    (EncodeAt.start _ _)
  refine ⟨_, by rw [encodeEmbeddedBpCompressed, hloop], ?_, ?_⟩
  · -- the last store is at `bp64`, a payload word
    intro n hn
    by_cases hb : bp64 < 16
    · have hm : data.length / 8 < 14 := (bpePayloadWord_lt_iff _).mp (h.next ▸ hb)
      have hne : n ≠ bp64 := fun he => by
        rw [he, h.next, (bpePayloadWord_payload hm).2] at hn
        cases hn
      rw [dif_pos hb, wordAt_store, if_neg hne]
      exact h.frame n hn
    · rw [dif_neg hb]
      exact h.frame n hn
  · intro j hj
    by_cases hfull : j < 8 * (data.length / 8)
    · -- a byte of a full word: the last store is to a later payload word
      have hm : j / 8 < 14 := by omega
      by_cases hb : bp64 < 16
      · have hm' : data.length / 8 < 14 := (bpePayloadWord_lt_iff _).mp (h.next ▸ hb)
        have hne : bpePayloadWord (j / 8) ≠ bp64 := fun he =>
          absurd (bpePayloadWord_inj hm hm' (he.trans h.next)) (by omega)
        rw [dif_pos hb, bpePayloadByte_store, if_neg hne]
        exact h.full j hfull
      · rw [dif_neg hb]
        exact h.full j hfull
    · -- a byte of the last, partial word, which the last store writes
      have hji : j / 8 = data.length / 8 := by omega
      have hm : data.length / 8 < 14 := by omega
      have hb : bp64 < 16 := h.next ▸ (bpePayloadWord_payload hm).1
      have hk := h.filling (j % 8) (Nat.mod_lt _ (by norm_num))
      rw [if_pos (by omega), show 8 * (data.length / 8) + j % 8 = j by omega] at hk
      rw [dif_pos hb, bpePayloadByte_store, if_pos (by rw [hji]; exact h.next.symm), hk]
      simp

/-- **Embedded block pointers round-trip.**  For a compression below `ZIO_COMPRESS_FUNCTIONS`, a
logical size from 1 to `2^25` and a payload of 1 to `BPE_PAYLOAD_SIZE = 112` bytes, the encoder
stores the block pointer as embedded, with that compression and those sizes, and the decoder
returns the payload, also after any stores of the embedded type, the object type, the level
and the birth time. -/
theorem encodeEmbeddedBpCompressed_round_trip {data : List UInt8} {comp lsize : UInt64}
    (hcomp : comp < zioCompressFunctions) (hl : 1 ≤ lsize.toNat ∧ lsize.toNat ≤ 2 ^ 25)
    (hp : 1 ≤ data.length ∧ data.length ≤ 112) :
    ∃ bp, encodeEmbeddedBpCompressed data comp lsize = some bp ∧ bpIsEmbedded bp = true ∧
      bpGetCompress bp = comp ∧ bpeGetLsize bp = lsize ∧
      bpeGetPsize bp = data.length.toUInt64 ∧
      ∀ bp', EmbeddedRelabel bp bp' → decodeEmbeddedBpCompressed bp' = some data := by
  obtain ⟨bp, henc, hframe, hbytes⟩ := encodeEmbeddedBpCompressed_spec data comp lsize hp.2
  have hprop : bp.blkProp = (embeddedBpHeader comp lsize data.length.toUInt64).blkProp :=
    hframe 6 (by decide)
  have hlen : data.length.toUInt64.toNat = data.length := by
    simp only [Nat.toUInt64_eq, UInt64.toNat_ofNat']
    exact Nat.mod_eq_of_lt (by omega)
  have hpsize : bpeGetPsize bp = data.length.toUInt64 := by
    rw [bpeGetPsize, hprop, ← bpeGetPsize]
    exact bpeGetPsize_embeddedBpHeader (by omega) (by omega)
  refine ⟨bp, henc, ?_, ?_, ?_, hpsize, fun bp' h => ?_⟩
  · rw [bpIsEmbedded, hprop, ← bpIsEmbedded]
    exact bpIsEmbedded_embeddedBpHeader
  · have hc : comp.toNat < 2 ^ 7 := by
      have := UInt64.lt_iff_toNat_lt.mp hcomp
      rw [show zioCompressFunctions.toNat = 16 from rfl] at this
      omega
    rw [bpGetCompress, hprop, ← bpGetCompress]
    exact bpGetCompress_embeddedBpHeader hc
  · rw [bpeGetLsize, hprop, ← bpeGetLsize]
    exact bpeGetLsize_embeddedBpHeader hl.1 hl.2
  · rw [h.decode, decodeEmbeddedBpCompressed_eq, hpsize, hlen, if_pos hp.2]
    congr 1
    apply List.ext_getElem (by simp)
    intro j h₁ _
    rw [List.getElem_map, List.getElem_range, hbytes j (by simpa using h₁),
      List.getD_eq_getElem?_getD, List.getElem?_eq_getElem (by simpa using h₁)]
    rfl

theorem encodeEmbeddedBpCompressed_round_trip_three :
    (2 : UInt64) < zioCompressFunctions ∧ (1 ≤ (3 : UInt64).toNat ∧ (3 : UInt64).toNat ≤ 2 ^ 25) ∧
      (1 ≤ ([7, 0, 255] : List UInt8).length ∧ ([7, 0, 255] : List UInt8).length ≤ 112) ∧
      ∃ bp, encodeEmbeddedBpCompressed [7, 0, 255] 2 3 = some bp ∧ bpIsEmbedded bp = true ∧
        bpGetCompress bp = 2 ∧ bpeGetLsize bp = 3 ∧
        bpeGetPsize bp = ([7, 0, 255] : List UInt8).length.toUInt64 ∧
        ∀ bp', EmbeddedRelabel bp bp' → decodeEmbeddedBpCompressed bp' = some [7, 0, 255] :=
  ⟨by simp [zioCompressFunctions], ⟨by simp, by simp⟩, ⟨by simp, by simp⟩,
    encodeEmbeddedBpCompressed_round_trip (by simp [zioCompressFunctions]) ⟨by simp, by simp⟩
      ⟨by simp, by simp⟩⟩

end Zfs
