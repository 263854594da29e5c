import Mathlib.Data.UInt
import Mathlib.Tactic.NormNum

/-!
# Spa/Blkptr — block pointers, their verification, and embedded payloads

A `blkptr_t` is sixteen 64-bit words: three DVAs, the property word `blk_prop`, padding, two
birth times, the fill count and the checksum.  An *embedded* block pointer stores up to 112 bytes
of data in fourteen of its words instead of pointing at a block; its property word says how many
(`BPE_GET_PSIZE`, seven bits with a bias of one, so up to 128).

`zfs_blkptr_verify` is what the read path (`zio_read`) runs on a block pointer from disk before
it is used.  `decode_embedded_bp_compressed` copies the payload out, word by word, skipping
`blk_prop` and `blk_birth`.  The main results:

* `decodeEmbeddedBpCompressed_eq` — the decoder returns the first `psize` bytes of the fourteen
  payload words when `psize ≤ 112`, and reads past the end of the block pointer otherwise;
* `zfsBlkptrVerify_bpeSetPsize` — the verifier does not look at the payload size of an embedded
  block pointer, so it accepts sizes the decoder cannot handle;
* **`zfsBlkptrVerify_bpeSetPsize_128`** — every accepted embedded block pointer has an accepted
  twin, with a payload size of 128, on which the decoder reads past the structure.
-/

namespace Zfs

/-! ## Bit fields (`sys/bitops.h`) -/

/-- `BF64_GET(x, low, len)`, `P2PHASE(x >> low, 1ULL << len)`: the `len` bits of `x` from bit
`low` on. -/
def bf64Get (x : UInt64) (low len : ℕ) : UInt64 :=
  (x >>> low.toUInt64) &&& ((1 <<< len.toUInt64) - 1)

/-- `BF64_GET_SB(x, low, len, shift, bias)`: a field stored shifted and biased. -/
def bf64GetSb (x : UInt64) (low len shift bias : ℕ) : UInt64 :=
  (bf64Get x low len + bias.toUInt64) <<< shift.toUInt64

/-- `BF64_SET(x, low, len, val)`, `x ^= BF64_ENCODE((x >> low) ^ val, low, len)`: `x` with its
`len` bits from bit `low` on replaced by `val`. -/
def bf64Set (x : UInt64) (low len : ℕ) (val : UInt64) : UInt64 :=
  x ^^^ ((((x >>> low.toUInt64) ^^^ val) &&& ((1 <<< len.toUInt64) - 1)) <<< low.toUInt64)

/-- `BF64_SET_SB(x, low, len, shift, bias, val)`: store `val` shifted and biased. -/
def bf64SetSb (x : UInt64) (low len shift bias : ℕ) (val : UInt64) : UInt64 :=
  bf64Set x low len ((val >>> shift.toUInt64) - bias.toUInt64)

/-- `BF64_ENCODE(x, low, len)`, `P2PHASE(x, 1ULL << len) << low`: `x` cut to `len` bits and moved
to bit `low`. -/
def bf64Encode (x : UInt64) (low len : ℕ) : UInt64 :=
  (x &&& ((1 <<< len.toUInt64) - 1)) <<< low.toUInt64

/-- `BF32_GET(x, low, len)`: `BF64_GET` in 32 bits. -/
def bf32Get (x : UInt32) (low len : ℕ) : UInt32 :=
  (x >>> low.toUInt32) &&& ((1 <<< len.toUInt32) - 1)

/-- `BF32_GET_SB(x, low, len, shift, bias)`. -/
def bf32GetSb (x : UInt32) (low len shift bias : ℕ) : UInt32 :=
  (bf32Get x low len + bias.toUInt32) <<< shift.toUInt32

/-- `BF32_SET(x, low, len, val)`: `BF64_SET` in 32 bits. -/
def bf32Set (x : UInt32) (low len : ℕ) (val : UInt32) : UInt32 :=
  x ^^^ ((((x >>> low.toUInt32) ^^^ val) &&& ((1 <<< len.toUInt32) - 1)) <<< low.toUInt32)

section Bits

variable {low len : ℕ}

theorem toNat_mask (hlen : len < 64) : ((1 : UInt64) <<< len.toUInt64 - 1).toNat = 2 ^ len - 1 := by
  have hpow : (2 : ℕ) ^ len < 18446744073709551616 :=
    (Nat.pow_lt_pow_right (by norm_num) hlen).trans_eq (by norm_num)
  rw [UInt64.toNat_sub_of_le]
  · simp [UInt64.toNat_shiftLeft, Nat.mod_eq_of_lt hlen, Nat.shiftLeft_eq, Nat.mod_eq_of_lt hpow]
  · rw [UInt64.le_iff_toNat_le]
    simp [UInt64.toNat_shiftLeft, Nat.mod_eq_of_lt hlen, Nat.shiftLeft_eq,
      Nat.mod_eq_of_lt hpow, Nat.one_le_two_pow]

theorem toNat_bf64Get (x : UInt64) (hlow : low < 64) (hlen : len < 64) :
    (bf64Get x low len).toNat = x.toNat / 2 ^ low % 2 ^ len := by
  rw [bf64Get, UInt64.toNat_and, toNat_mask hlen, UInt64.toNat_shiftRight]
  simp [Nat.mod_eq_of_lt hlow, Nat.shiftRight_eq_div_pow, Nat.and_two_pow_sub_one_eq_mod]

/-- An encoded field is its value cut to `len` bits, times `2 ^ low`. -/
theorem toNat_bf64Encode (x : UInt64) (hlen : len < 64) (hfit : low + len ≤ 64) :
    (bf64Encode x low len).toNat = x.toNat % 2 ^ len * 2 ^ low := by
  have hlow : low < 64 ∨ len = 0 := by omega
  have hlt : x.toNat % 2 ^ len * 2 ^ low < 2 ^ 64 := by
    calc x.toNat % 2 ^ len * 2 ^ low < 2 ^ len * 2 ^ low :=
          Nat.mul_lt_mul_of_pos_right (Nat.mod_lt _ (Nat.two_pow_pos len)) (Nat.two_pow_pos low)
      _ = 2 ^ (len + low) := (Nat.pow_add 2 len low).symm
      _ ≤ 2 ^ 64 := Nat.pow_le_pow_right (by norm_num) (by omega)
  rcases hlow with hlow | rfl
  · rw [bf64Encode, UInt64.toNat_shiftLeft, UInt64.toNat_and, toNat_mask hlen,
      Nat.and_two_pow_sub_one_eq_mod, Nat.shiftLeft_eq]
    simpa [Nat.mod_eq_of_lt hlow, Nat.mod_eq_of_lt (hlow.trans (by norm_num) :
      low < 18446744073709551616)] using Nat.mod_eq_of_lt hlt
  · simp [bf64Encode, Nat.mod_one]

/-- Words whose set bits lie apart add up under `|||`: the low one below `2 ^ i`, the high one a
multiple of it. -/
theorem toNat_or_of_lt {a b : UInt64} (i : ℕ) (ha : 2 ^ i ∣ a.toNat) (hb : b.toNat < 2 ^ i) :
    (a ||| b).toNat = a.toNat + b.toNat := by
  obtain ⟨c, hc⟩ := ha
  rw [UInt64.toNat_or, hc, Nat.two_pow_add_eq_or_of_lt hb]

/-- **Bit by bit, a field store** replaces the bits of the field and keeps the others. -/
theorem testBit_bf64Set (x v : UInt64) (hlow : low < 64) (hlen : len < 64)
    (hfit : low + len ≤ 64) (j : ℕ) :
    (bf64Set x low len v).toNat.testBit j =
      if low ≤ j ∧ j < low + len then v.toNat.testBit (j - low) else x.toNat.testBit j := by
  have hlow64 : low.toUInt64.toNat % 64 = low := by
    simp [Nat.mod_eq_of_lt hlow, Nat.mod_eq_of_lt (hlow.trans (by norm_num) :
      low < 18446744073709551616)]
  rw [bf64Set, UInt64.toNat_xor, UInt64.toNat_shiftLeft, UInt64.toNat_and, toNat_mask hlen,
    UInt64.toNat_xor, UInt64.toNat_shiftRight, hlow64]
  simp only [Nat.testBit_xor, Nat.testBit_mod_two_pow,
    Nat.testBit_shiftLeft, Nat.testBit_and, Nat.testBit_shiftRight, Nat.testBit_two_pow_sub_one]
  by_cases hj : low ≤ j ∧ j < low + len
  · have hj64 : j < 64 := by omega
    simp [hj, hj64, show low + (j - low) = j by omega, show j - low < len by omega]
  · rw [if_neg hj]
    by_cases hlj : low ≤ j
    · simp [hlj, show ¬ j - low < len by omega]
    · simp [hlj]

/-- A field store leaves every field beside it as it was. -/
theorem bf64Get_bf64Set_of_disjoint (x v : UInt64) {low' len' : ℕ} (hlow : low < 64)
    (hlen : len < 64) (hfit : low + len ≤ 64) (hlow' : low' < 64) (hlen' : len' < 64)
    (hd : low' + len' ≤ low ∨ low + len ≤ low') :
    bf64Get (bf64Set x low len v) low' len' = bf64Get x low' len' := by
  apply UInt64.toNat_inj.mp
  rw [toNat_bf64Get _ hlow' hlen', toNat_bf64Get _ hlow' hlen']
  refine Nat.eq_of_testBit_eq fun i => ?_
  simp only [Nat.testBit_mod_two_pow, Nat.testBit_div_two_pow, testBit_bf64Set x v hlow hlen hfit]
  by_cases hi : i < len'
  · simp [hi, show ¬ (low ≤ i + low' ∧ i + low' < low + len) by omega]
  · simp [hi]

/-- A field store is read back by the field read. -/
theorem bf64Get_bf64Set_self (x v : UInt64) (hlow : low < 64) (hlen : len < 64)
    (hfit : low + len ≤ 64) (hv : v.toNat < 2 ^ len) :
    bf64Get (bf64Set x low len v) low len = v := by
  apply UInt64.toNat_inj.mp
  rw [toNat_bf64Get _ hlow hlen, ← Nat.mod_eq_of_lt hv]
  refine Nat.eq_of_testBit_eq fun i => ?_
  simp only [Nat.testBit_mod_two_pow, Nat.testBit_div_two_pow, testBit_bf64Set x v hlow hlen hfit]
  by_cases hi : i < len
  · simp [hi, show low ≤ i + low by omega, show i + low < low + len by omega]
  · simp [hi]

end Bits

/-! ## The block pointer -/

/-- `blkptr_t` as the sixteen 64-bit words it is made of: `blk_dva[3]` in words 0–5, `blk_prop`
in 6, `blk_pad[2]` in 7–8, `blk_phys_birth` 9, `blk_birth` 10, `blk_fill` 11 and `blk_cksum` in
12–15. -/
structure Blkptr where
  words : Fin 16 → UInt64

namespace Blkptr

/-- A read of word `n` through `(uint64_t *)bp`: `none` outside the structure. -/
def word (bp : Blkptr) (n : ℕ) : Option UInt64 :=
  if h : n < 16 then some (bp.words ⟨n, h⟩) else none

/-- The word `n` of the structure, for the fields the code names. -/
def wordAt (bp : Blkptr) (n : ℕ) : UInt64 := (bp.word n).getD 0

/-- `blk_prop`. -/
def blkProp (bp : Blkptr) : UInt64 := bp.wordAt 6

/-- `blk_dva[i].dva_word[k]`. -/
def dvaWord (bp : Blkptr) (i k : ℕ) : UInt64 := bp.wordAt (2 * i + k)

end Blkptr

open Blkptr

/-! ## The fields of `blk_prop` (`sys/spa.h`) -/

/-- `SPA_MINBLOCKSHIFT`. -/
def spaMinblockshift : ℕ := 9

/-- `SPA_MINBLOCKSIZE`, `1 << SPA_MINBLOCKSHIFT`. -/
def spaMinblocksize : ℕ := 1 <<< 9

/-- `SPA_OLD_MAXBLOCKSIZE`: the size of the buffer `zil_parse` copies each block into. -/
def spaOldMaxblocksize : ℕ := 1 <<< 17

/-- `SPA_MAXBLOCKSIZE`, `1ULL << SPA_MAXBLOCKSHIFT`. -/
def spaMaxblocksize : UInt64 := (1 : UInt64) <<< 24

/-- `ZIO_CHECKSUM_ON`, `ZIO_CHECKSUM_OFF` and `ZIO_CHECKSUM_FUNCTIONS` of `enum zio_checksum`. -/
def zioChecksumOn : UInt64 := 1
def zioChecksumOff : UInt64 := 2
def zioChecksumFunctions : UInt64 := 14

/-- `ZIO_COMPRESS_ON`, `ZIO_COMPRESS_OFF` and `ZIO_COMPRESS_FUNCTIONS` of `enum zio_compress`. -/
def zioCompressOn : UInt64 := 1
def zioCompressOff : UInt64 := 2
def zioCompressFunctions : UInt64 := 16

/-- `BP_EMBEDDED_TYPE_DATA` and `NUM_BP_EMBEDDED_TYPES`. -/
def bpEmbeddedTypeData : UInt64 := 0
def numBpEmbeddedTypes : UInt64 := 2

/-- `BP_IS_EMBEDDED(bp)`. -/
def bpIsEmbedded (bp : Blkptr) : Bool := bf64Get bp.blkProp 39 1 != 0

/-- `BPE_GET_ETYPE(bp)`. -/
def bpeGetEtype (bp : Blkptr) : UInt64 := bf64Get bp.blkProp 40 8

/-- `BPE_GET_LSIZE(bp)`. -/
def bpeGetLsize (bp : Blkptr) : UInt64 := bf64GetSb bp.blkProp 0 25 0 1

/-- `BPE_GET_PSIZE(bp)`: seven bits with a bias of one. -/
def bpeGetPsize (bp : Blkptr) : UInt64 := bf64GetSb bp.blkProp 25 7 0 1

/-- `BP_GET_LSIZE(bp)`. -/
def bpGetLsize (bp : Blkptr) : UInt64 :=
  if bpIsEmbedded bp then (if bpeGetEtype bp = bpEmbeddedTypeData then bpeGetLsize bp else 0)
  else bf64GetSb bp.blkProp 0 16 spaMinblockshift 1

/-- `BP_GET_PSIZE(bp)`: `0` for an embedded block pointer. -/
def bpGetPsize (bp : Blkptr) : UInt64 :=
  if bpIsEmbedded bp then 0 else bf64GetSb bp.blkProp 16 16 spaMinblockshift 1

/-- `BP_GET_COMPRESS(bp)`. -/
def bpGetCompress (bp : Blkptr) : UInt64 := bf64Get bp.blkProp 32 7

/-- `BP_GET_CHECKSUM(bp)`: `ZIO_CHECKSUM_OFF` for an embedded block pointer. -/
def bpGetChecksum (bp : Blkptr) : UInt64 :=
  if bpIsEmbedded bp then zioChecksumOff else bf64Get bp.blkProp 40 8

/-- `BP_GET_TYPE(bp)`. -/
def bpGetType (bp : Blkptr) : UInt64 := bf64Get bp.blkProp 48 8

/-- `BP_GET_LEVEL(bp)`. -/
def bpGetLevel (bp : Blkptr) : UInt64 := bf64Get bp.blkProp 56 5

/-- `BP_USES_CRYPT(bp)`. -/
def bpUsesCrypt (bp : Blkptr) : UInt64 := bf64Get bp.blkProp 61 1

/-- `DMU_OT_IS_VALID(ot)`: a new-style type with one of the `DMU_BSWAP_NUMFUNCS = 10` byteswap
functions, or one of the `DMU_OT_NUMTYPES = 54` legacy types. -/
def dmuOtIsValid (ot : UInt64) : Bool :=
  if ot &&& 0x80 != 0 then (ot &&& 0x1f) < 10 else ot < 54

/-- The `ot_encrypt` column of the legacy object type table `dmu_ot`. -/
def dmuOtEncrypt : List Bool :=
  [false, false, false, false, false, false, false, false, false, true, true, false, false,
    false, false, false, false, false, true, true, true, false, true, true, false, true, true,
    false, false, false, false, false, false, true, true, true, false, false, false, true, true,
    false, false, false, true, true, true, true, false, true, false, false, false, false]

/-- `DMU_OT_IS_ENCRYPTED(ot)`. -/
def dmuOtIsEncrypted (ot : UInt64) : Bool :=
  if ot &&& 0x80 != 0 then ot &&& 0x20 != 0 else dmuOtEncrypt.getD ot.toNat false

/-- `BP_IS_ENCRYPTED(bp)`. -/
def bpIsEncrypted (bp : Blkptr) : Bool :=
  bpUsesCrypt bp != 0 && bpGetLevel bp ≤ 0 && dmuOtIsEncrypted (bpGetType bp)

/-- `DVA_GET_ASIZE(&bp->blk_dva[i])`. -/
def dvaGetAsize (bp : Blkptr) (i : ℕ) : UInt64 := bf64GetSb (bp.dvaWord i 0) 0 24 spaMinblockshift 0

/-- `DVA_GET_VDEV(&bp->blk_dva[i])`. -/
def dvaGetVdev (bp : Blkptr) (i : ℕ) : UInt64 := bf64Get (bp.dvaWord i 0) 32 24

/-- `DVA_GET_OFFSET(&bp->blk_dva[i])`. -/
def dvaGetOffset (bp : Blkptr) (i : ℕ) : UInt64 := bf64GetSb (bp.dvaWord i 1) 0 63 spaMinblockshift 0

/-- `BP_IS_GANG(bp)`: the gang bit of the first DVA of a block pointer that is not embedded. -/
def bpIsGang (bp : Blkptr) : Bool := !bpIsEmbedded bp && bf64Get (bp.dvaWord 0 1) 63 1 != 0

/-- `BP_GET_NDVAS(bp)`: `0` for an embedded block pointer. -/
def bpGetNdvas (bp : Blkptr) : ℕ :=
  if bpIsEmbedded bp then 0
  else (dvaGetAsize bp 0 != 0).toNat + (dvaGetAsize bp 1 != 0).toNat +
    (dvaGetAsize bp 2 != 0).toNat * (!bpIsEncrypted bp).toNat

/-! ## `zfs_blkptr_verify` -/

/-- The operations of a vdev, as far as `zfs_blkptr_verify` tells them apart. -/
inductive VdevOps
  | hole
  | missing
  | other
  deriving DecidableEq, Repr

/-- A child of the root vdev: its operations, `vdev_asize`, and the allocated size of a gang
header on it (`vdev_psize_to_asize(vd, SPA_GANGBLOCKSIZE)`). -/
structure Vdev where
  vdevOps : VdevOps
  vdevAsize : UInt64
  gangAsize : UInt64

/-- What `zfs_blkptr_verify` reads of a pool: `spa_trust_config`, and the children of the root
vdev (`NULL` as `none`). -/
structure Spa where
  spaTrustConfig : Bool
  vdevChild : List (Option Vdev)

/-- The pool-specific checks of `zfs_blkptr_verify` on DVA `i`: a known vdev that is not a hole,
and, unless it is missing, a block inside it. -/
def zfsDvaVerify (spa : Spa) (bp : Blkptr) (i : ℕ) : Bool :=
  match spa.vdevChild[(dvaGetVdev bp i).toNat]? with
  | none => false
  | some none => false
  | some (some vd) =>
    match vd.vdevOps with
    | .hole => false
    | .missing => true
    | .other =>
      let asize := if bpIsGang bp then vd.gangAsize else dvaGetAsize bp i
      !(dvaGetOffset bp i + asize > vd.vdevAsize)

/-- `zfs_blkptr_verify`: `true` when it calls `zfs_panic_recover` for none of its checks, the
block pointer being accepted. -/
def zfsBlkptrVerify (spa : Spa) (bp : Blkptr) : Bool :=
  dmuOtIsValid (bpGetType bp) &&
    !(bpGetChecksum bp ≥ zioChecksumFunctions || bpGetChecksum bp ≤ zioChecksumOn) &&
    !(bpGetCompress bp ≥ zioCompressFunctions || bpGetCompress bp ≤ zioCompressOn) &&
    !(bpGetLsize bp > spaMaxblocksize) && !(bpGetPsize bp > spaMaxblocksize) &&
    !(bpIsEmbedded bp && bpeGetEtype bp ≥ numBpEmbeddedTypes) &&
    (!spa.spaTrustConfig || (List.range (bpGetNdvas bp)).all (zfsDvaVerify spa bp))

/-! ## `decode_embedded_bp_compressed` -/

/-- `BPE_IS_PAYLOADWORD(bp, wp)` for the word at index `wp`: neither `blk_prop` nor
`blk_birth`. -/
def bpeIsPayloadword (wp : ℕ) : Bool := wp != 6 && wp != 10

/-- `bp64++; if (!BPE_IS_PAYLOADWORD(bp, bp64)) bp64++;`: the next word to read. -/
def bpeNextWord (bp64 : ℕ) : ℕ := if bpeIsPayloadword (bp64 + 1) then bp64 + 1 else bp64 + 2

/-- The loop of `decode_embedded_bp_compressed` over `k` more bytes from byte `i`, with `bp64` the
next word to read and `w` the word being unpacked: the bytes written to `buf`, or `none` when a
word would be read from outside the block pointer. -/
def decodeEmbeddedBpCompressedLoop (bp : Blkptr) : ℕ → ℕ → ℕ → UInt64 → Option (List UInt8)
  | 0, _, _, _ => some []
  | k + 1, i, bp64, w =>
    if i % 8 = 0 then
      match bp.word bp64 with
      | none => none
      | some w =>
        (List.cons (bf64Get w (i % 8 * 8) 8).toUInt8) <$>
          decodeEmbeddedBpCompressedLoop bp k (i + 1) (bpeNextWord bp64) w
    else
      (List.cons (bf64Get w (i % 8 * 8) 8).toUInt8) <$>
        decodeEmbeddedBpCompressedLoop bp k (i + 1) bp64 w

/-- `decode_embedded_bp_compressed(bp, buf)`: the `BPE_GET_PSIZE(bp)` bytes it writes to `buf`. -/
def decodeEmbeddedBpCompressed (bp : Blkptr) : Option (List UInt8) :=
  decodeEmbeddedBpCompressedLoop bp (bpeGetPsize bp).toNat 0 0 0

/-! ## What the decoder reads -/

/-- The word holding payload word `m`: words 0–5, 7–9 and 11–15 in turn, and `16`, past the
structure, after the fourteenth. -/
def bpePayloadWord (m : ℕ) : ℕ := if m < 6 then m else if m < 9 then m + 1 else m + 2

/-- Byte `j` of the payload: byte `j % 8`, from the low end, of payload word `j / 8`. -/
def bpePayloadByte (bp : Blkptr) (j : ℕ) : UInt8 :=
  (bf64Get (bp.wordAt (bpePayloadWord (j / 8))) (j % 8 * 8) 8).toUInt8

section Payload

variable {m : ℕ}

theorem bpeNextWord_payloadWord (hm : m < 14) :
    bpeNextWord (bpePayloadWord m) = bpePayloadWord (m + 1) := by
  simp only [bpeNextWord, bpePayloadWord, bpeIsPayloadword]
  split_ifs <;> simp_all <;> omega

/-- **The payload words are inside the structure, and neither `blk_prop` nor `blk_birth`.** -/
theorem bpePayloadWord_payload (hm : m < 14) :
    bpePayloadWord m < 16 ∧ bpeIsPayloadword (bpePayloadWord m) = true := by
  simp only [bpePayloadWord, bpeIsPayloadword]
  split_ifs <;> simp <;> omega

theorem word_payloadWord (bp : Blkptr) (hm : m < 14) :
    bp.word (bpePayloadWord m) = some (bp.wordAt (bpePayloadWord m)) := by
  simp [Blkptr.wordAt, Blkptr.word, (bpePayloadWord_payload hm).1]

end Payload

/-- Where the loop stands before byte `i`: at a word boundary it is about to read payload word
`i / 8`; inside a word it holds that word, and the next one to read is the payload word after
it. -/
def DecodeAt (bp : Blkptr) (i bp64 : ℕ) (w : UInt64) : Prop :=
  (i % 8 = 0 ∧ i ≤ 112 ∧ bp64 = bpePayloadWord (i / 8)) ∨
    (i % 8 ≠ 0 ∧ i < 112 ∧ w = bp.wordAt (bpePayloadWord (i / 8)) ∧
      bp64 = bpePayloadWord (i / 8 + 1))

/-- **The decoding loop**, from any place it can stand: the payload bytes from `i` on, as long as
they stay within the 112 payload bytes, and a read past the structure otherwise. -/
theorem decodeEmbeddedBpCompressedLoop_eq (bp : Blkptr) :
    ∀ k i bp64 w, DecodeAt bp i bp64 w →
      decodeEmbeddedBpCompressedLoop bp k i bp64 w =
        if i + k ≤ 112 then some ((List.range k).map fun t => bpePayloadByte bp (i + t))
        else none
  | 0, i, bp64, w, h => by
    have : i ≤ 112 := by rcases h with h | h <;> omega
    simp [decodeEmbeddedBpCompressedLoop, this]
  | k + 1, i, bp64, w, h => by
    rcases h with ⟨hi, hle, rfl⟩ | ⟨hi, hlt, rfl, rfl⟩
    · rcases Nat.lt_or_eq_of_le hle with hlt | rfl
      · -- a word boundary: payload word `i / 8` is read
        have hm : i / 8 < 14 := by omega
        have hdiv : (i + 1) / 8 = i / 8 := by omega
        have hnext : DecodeAt bp (i + 1) (bpeNextWord (bpePayloadWord (i / 8)))
            (bp.wordAt (bpePayloadWord (i / 8))) :=
          .inr ⟨by omega, by omega, by rw [hdiv], by rw [hdiv, bpeNextWord_payloadWord hm]⟩
        rw [decodeEmbeddedBpCompressedLoop, if_pos hi, word_payloadWord bp hm]
        simp only [decodeEmbeddedBpCompressedLoop_eq bp k _ _ _ hnext]
        by_cases hk : i + 1 + k ≤ 112
        · simp [show i + (k + 1) ≤ 112 by omega, List.range_succ_eq_map, bpePayloadByte, hi,
            Nat.add_assoc, Nat.add_comm 1]
        · simp [hk, show ¬ i + (k + 1) ≤ 112 by omega]
      · -- after the fourteenth payload word the next read is outside the structure
        simp [decodeEmbeddedBpCompressedLoop, bpePayloadWord, Blkptr.word]
    · -- inside a word
      have hnext : DecodeAt bp (i + 1) (bpePayloadWord (i / 8 + 1))
          (bp.wordAt (bpePayloadWord (i / 8))) := by
        by_cases h8 : (i + 1) % 8 = 0
        · exact .inl ⟨h8, by omega, by rw [show (i + 1) / 8 = i / 8 + 1 by omega]⟩
        · exact .inr ⟨h8, by omega, by rw [show (i + 1) / 8 = i / 8 by omega],
            by rw [show (i + 1) / 8 = i / 8 by omega]⟩
      rw [decodeEmbeddedBpCompressedLoop, if_neg hi,
        decodeEmbeddedBpCompressedLoop_eq bp k _ _ _ hnext]
      by_cases hk : i + 1 + k ≤ 112
      · simp [show i + (k + 1) ≤ 112 by omega, List.range_succ_eq_map, bpePayloadByte,
          Nat.add_assoc, Nat.add_comm 1]
      · simp [hk, show ¬ i + (k + 1) ≤ 112 by omega]

/-- **What `decode_embedded_bp_compressed` does**: with a payload size of at most
`BPE_PAYLOAD_SIZE = 112` it writes the first `psize` payload bytes, read from the fourteen payload
words only; with a larger one it reads beyond the end of the block pointer. -/
theorem decodeEmbeddedBpCompressed_eq (bp : Blkptr) :
    decodeEmbeddedBpCompressed bp =
      if (bpeGetPsize bp).toNat ≤ 112 then
        some ((List.range (bpeGetPsize bp).toNat).map (bpePayloadByte bp))
      else none := by
  rw [decodeEmbeddedBpCompressed,
    decodeEmbeddedBpCompressedLoop_eq bp _ 0 0 0 (.inl ⟨rfl, by omega, rfl⟩)]
  simp

/-! ## The payload size is not verified -/

/-- `bp->blk_prop = p`. -/
def Blkptr.setBlkProp (bp : Blkptr) (p : UInt64) : Blkptr := ⟨Function.update bp.words 6 p⟩

/-- `BPE_SET_PSIZE(bp, x)`. -/
def bpeSetPsize (bp : Blkptr) (x : UInt64) : Blkptr :=
  bp.setBlkProp (bf64SetSb bp.blkProp 25 7 0 1 x)

section SetPsize

variable (bp : Blkptr) (x : UInt64)

@[simp] theorem blkProp_setBlkProp (p : UInt64) : (bp.setBlkProp p).blkProp = p := by
  simp [Blkptr.setBlkProp, Blkptr.blkProp, Blkptr.wordAt, Blkptr.word]

/-- Storing the payload size leaves every other field of `blk_prop` as it was. -/
theorem bf64Get_bpeSetPsize {low len : ℕ} (hlow : low < 64) (hlen : len < 64)
    (hd : low + len ≤ 25 ∨ 32 ≤ low) :
    bf64Get (bpeSetPsize bp x).blkProp low len = bf64Get bp.blkProp low len := by
  rw [bpeSetPsize, blkProp_setBlkProp, bf64SetSb]
  exact bf64Get_bf64Set_of_disjoint _ _ (by norm_num) (by norm_num) (by norm_num) hlow hlen
    (by omega)

@[simp] theorem bpIsEmbedded_bpeSetPsize : bpIsEmbedded (bpeSetPsize bp x) = bpIsEmbedded bp := by
  simp [bpIsEmbedded, bf64Get_bpeSetPsize]

@[simp] theorem bpeGetEtype_bpeSetPsize : bpeGetEtype (bpeSetPsize bp x) = bpeGetEtype bp := by
  simp [bpeGetEtype, bf64Get_bpeSetPsize]

@[simp] theorem bpeGetLsize_bpeSetPsize : bpeGetLsize (bpeSetPsize bp x) = bpeGetLsize bp := by
  simp [bpeGetLsize, bf64GetSb, bf64Get_bpeSetPsize]

@[simp] theorem bpGetCompress_bpeSetPsize : bpGetCompress (bpeSetPsize bp x) = bpGetCompress bp := by
  simp [bpGetCompress, bf64Get_bpeSetPsize]

@[simp] theorem bpGetType_bpeSetPsize : bpGetType (bpeSetPsize bp x) = bpGetType bp := by
  simp [bpGetType, bf64Get_bpeSetPsize]

/-- A payload size from 1 to 128 is stored as it is read back. -/
theorem bpeGetPsize_bpeSetPsize (h1 : 1 ≤ x.toNat) (h128 : x.toNat ≤ 128) :
    bpeGetPsize (bpeSetPsize bp x) = x := by
  have hv : (x >>> (0 : ℕ).toUInt64 - (1 : ℕ).toUInt64).toNat < 2 ^ 7 := by
    rw [UInt64.toNat_sub_of_le] <;> simp [UInt64.le_iff_toNat_le] <;> omega
  rw [bpeGetPsize, bf64GetSb, bpeSetPsize, blkProp_setBlkProp, bf64SetSb,
    bf64Get_bf64Set_self _ _ (by norm_num) (by norm_num) (by norm_num) hv]
  simp

/-- **`zfs_blkptr_verify` does not look at the payload size** of an embedded block pointer:
changing it changes nothing in the verdict. -/
theorem zfsBlkptrVerify_bpeSetPsize (spa : Spa) (he : bpIsEmbedded bp = true) :
    zfsBlkptrVerify spa (bpeSetPsize bp x) = zfsBlkptrVerify spa bp := by
  simp [zfsBlkptrVerify, bpGetNdvas, bpGetLsize, bpGetPsize, bpGetChecksum, he]

end SetPsize

/-- **Every accepted embedded block pointer has an accepted twin that the decoder cannot
handle**: the same pointer with a payload size of 128, which makes the decoder read past the
end of the structure. -/
theorem zfsBlkptrVerify_bpeSetPsize_128 (spa : Spa) {bp : Blkptr} (he : bpIsEmbedded bp = true)
    (hv : zfsBlkptrVerify spa bp = true) :
    zfsBlkptrVerify spa (bpeSetPsize bp 128) = true ∧ bpeGetPsize (bpeSetPsize bp 128) = 128 ∧
      decodeEmbeddedBpCompressed (bpeSetPsize bp 128) = none := by
  have hp : bpeGetPsize (bpeSetPsize bp 128) = 128 := bpeGetPsize_bpeSetPsize bp 128 (by decide)
    (by decide)
  refine ⟨(zfsBlkptrVerify_bpeSetPsize bp 128 spa he).trans hv, hp, ?_⟩
  rw [decodeEmbeddedBpCompressed_eq, hp, if_neg (by decide)]

/-- An embedded data block pointer, uncompressed, of logical size 128, with a payload of 16
bytes. -/
def embeddedBp16 : Blkptr := ⟨fun n => if n = 6 then 558849065087 else 0⟩

theorem zfsBlkptrVerify_bpeSetPsize_128_sixteen :
    bpIsEmbedded embeddedBp16 = true ∧ zfsBlkptrVerify ⟨false, []⟩ embeddedBp16 = true ∧
      zfsBlkptrVerify ⟨false, []⟩ (bpeSetPsize embeddedBp16 128) = true ∧
      bpeGetPsize (bpeSetPsize embeddedBp16 128) = 128 ∧
      decodeEmbeddedBpCompressed (bpeSetPsize embeddedBp16 128) = none := by
  have he : bpIsEmbedded embeddedBp16 = true := by decide
  have hv : zfsBlkptrVerify ⟨false, []⟩ embeddedBp16 = true := by decide
  exact ⟨he, hv, zfsBlkptrVerify_bpeSetPsize_128 ⟨false, []⟩ he hv⟩

example : (decodeEmbeddedBpCompressed embeddedBp16).map List.length = some 16 := by decide

/-- An embedded data block pointer, uncompressed (`ZIO_COMPRESS_OFF`), of logical size 128, whose
payload size field holds 127: every pool accepts it, and decoding it reads past the structure. -/
theorem zfsBlkptrVerify_embedded_psize_128 (spa : Spa) :
    let bp : Blkptr := ⟨fun n => if n = 6 then 562607161471 else 0⟩
    zfsBlkptrVerify spa bp = true ∧ bpeGetPsize bp = 128 ∧
      decodeEmbeddedBpCompressed bp = none := by
  intro bp
  have hn : bpGetNdvas bp = 0 := by
    have he : bpIsEmbedded bp = true := by decide
    simp [bpGetNdvas, he]
  have hp : bpeGetPsize bp = 128 := by decide
  refine ⟨?_, hp, ?_⟩
  · simp only [zfsBlkptrVerify, hn, List.range_zero, List.all_nil, Bool.or_true, Bool.and_true]
    decide
  · rw [decodeEmbeddedBpCompressed_eq, hp, if_neg (by decide)]

end Zfs
