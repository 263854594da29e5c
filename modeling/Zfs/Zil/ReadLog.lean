import Zfs.Spa.Blkptr
import Zfs.Fletcher.Native

/-!
# Zil/ReadLog — reading the blocks of the intent log

A log block carries its own checksum in a trailer, `zil_chain_t`: the next block pointer of the
chain, `zc_nused` (the bytes of the block in use) and the embedded checksum.  With
`ZIO_CHECKSUM_ZILOG` the trailer is the last 184 bytes of the block and the records start at
byte 0; with `ZIO_CHECKSUM_ZILOG2` it is the first 184 bytes, the records follow it, and
`zc_nused` counts the trailer too.

`zio_checksum_error_impl` checks the embedded checksum; `zil_read_log_block` then checks the
chain linkage and copies the records into the caller's `SPA_OLD_MAXBLOCKSIZE` buffer;
`zil_parse` walks the records of that copy by their `lrc_reclen`.  The main results:

* `zilReadLogBlock_copy` — what is copied, and from where: for `ZILOG2` the length is
  `zc_nused - 184` in 64-bit arithmetic, with `zc_nused` only known to be at most the block size;
* `zilParseRecords_reclen_zero` — a record of length zero makes the walk stand still;
* **`zilReadLog_spec`** — the two together.
-/

namespace Zfs

/-- The word numerals of a block pointer take this instance. -/
theorem neZero_sixteen_zil : NeZero (16 : ℕ) := ⟨by decide⟩

attribute [local instance] neZero_sixteen_zil

open ZioCksum Blkptr

/-! ## Bytes of a block -/

/-- The bytes of a 64-bit word, in the host byte order. -/
def le64Bytes (x : UInt64) : List UInt8 := (List.range 8).map fun k => (x >>> (8 * k).toUInt64).toUInt8

/-- The bytes of a checksum, word after word. -/
def ZioCksum.bytes (zc : ZioCksum) : List UInt8 :=
  le64Bytes zc.word0 ++ le64Bytes zc.word1 ++ le64Bytes zc.word2 ++ le64Bytes zc.word3

/-- A checksum at byte `o`. -/
def readCksum (buf : List UInt8) (o : ℕ) : ZioCksum :=
  ⟨le64 buf o, le64 buf (o + 8), le64 buf (o + 16), le64 buf (o + 24)⟩

/-- `byteswap_uint64_array` over a checksum. -/
def ZioCksum.bswap (zc : ZioCksum) : ZioCksum :=
  ⟨bswap64 zc.word0, bswap64 zc.word1, bswap64 zc.word2, bswap64 zc.word3⟩

/-- `bp->blk_cksum`. -/
def Blkptr.blkCksum (bp : Blkptr) : ZioCksum :=
  ⟨bp.wordAt 12, bp.wordAt 13, bp.wordAt 14, bp.wordAt 15⟩

/-- `BP_IS_HOLE(bp)`: not embedded, and the first DVA empty. -/
def bpIsHole (bp : Blkptr) : Bool := !bpIsEmbedded bp && bp.dvaWord 0 0 == 0 && bp.dvaWord 0 1 == 0

/-! ## The trailer -/

/-- `sizeof (zil_chain_t)`: `zc_pad`, the 128-byte `zc_next_blk`, `zc_nused` and the 40-byte
`zc_eck`. -/
def zilChainSize : ℕ := 184

/-- `zil_chain_t`, as the code reads it. -/
structure ZilChain where
  zcNextBlk : Blkptr
  zcNused : UInt64
  zecMagic : UInt64
  zecCksum : ZioCksum

/-- The `zil_chain_t` at byte `o` of a buffer. -/
def readZilChain (buf : List UInt8) (o : ℕ) : ZilChain :=
  ⟨⟨fun n => le64 buf (o + 8 + 8 * n)⟩, le64 buf (o + 136), le64 buf (o + 144),
    readCksum buf (o + 152)⟩

/-- `ZEC_MAGIC`. -/
def zecMagic : UInt64 := 0x210da7ab10c7a11

/-- `ZIO_CHECKSUM_ZILOG` and `ZIO_CHECKSUM_ZILOG2` of `enum zio_checksum`. -/
def zioChecksumZilog : UInt64 := 5
def zioChecksumZilog2 : UInt64 := 9

/-- `ZIL_MIN_BLKSZ`. -/
def zilMinBlksz : UInt64 := 4096

/-- `DMU_OT_OBJSET`. -/
def dmuOtObjset : UInt64 := 11

/-! ## The checksums of log blocks -/

/-- `fletcher_2_incremental_native` from zero over the first `size` bytes: two interleaved
Fletcher sums of the 64-bit words, `a0 += ip[0]; a1 += ip[1]; b0 += a0; b1 += a1`. -/
def fletcher2Native (buf : List UInt8) (size : ℕ) : ZioCksum :=
  (List.range ((size / 8 + 1) / 2)).foldl (fun zc i =>
    let a0 := zc.word0 + le64 buf (16 * i)
    let a1 := zc.word1 + le64 buf (16 * i + 8)
    ⟨a0, a1, zc.word2 + a0, zc.word3 + a1⟩) zero

/-- `fletcher_2_incremental_byteswap` from zero over the first `size` bytes. -/
def fletcher2Byteswap (buf : List UInt8) (size : ℕ) : ZioCksum :=
  (List.range ((size / 8 + 1) / 2)).foldl (fun zc i =>
    let a0 := zc.word0 + bswap64 (le64 buf (16 * i))
    let a1 := zc.word1 + bswap64 (le64 buf (16 * i + 8))
    ⟨a0, a1, zc.word2 + a0, zc.word3 + a1⟩) zero

/-- The 32-bit words of the first `size` bytes. -/
def words32 (buf : List UInt8) (size : ℕ) : List UInt32 :=
  (List.range (size / 4)).map fun i => le32 buf (4 * i)

/-- `ci_func[byteswap]` of the two log checksums: Fletcher-2 for `ZILOG`, Fletcher-4 (through
the implementation `ops`) for `ZILOG2`. -/
def zilCiFunc (ops : Fletcher4Ops) (checksum : UInt64) (byteswap : Bool) (buf : List UInt8)
    (size : ℕ) : ZioCksum :=
  if checksum = zioChecksumZilog2 then
    if byteswap then fletcher4Byteswap ops (words32 buf size)
    else fletcher4Native ops (words32 buf size)
  else if byteswap then fletcher2Byteswap buf size else fletcher2Native buf size

/-- `buf` with the bytes from `o` on overwritten by `bs` (`abd_copy_from_buf_off`). -/
def overwrite (buf : List UInt8) (o : ℕ) (bs : List UInt8) : List UInt8 :=
  buf.take o ++ bs ++ buf.drop (o + bs.length)

/-- The trailer of a log block as `zio_checksum_error_impl` finds it: its magic, the length the
checksum covers, the checksum stored in it, and where that checksum sits; `none` for a
`ZILOG2` block with a bad magic or a `zc_nused` beyond the block. -/
def zilTrailer (checksum : UInt64) (abd : List UInt8) :
    Option (UInt64 × UInt64 × ZioCksum × ℕ) :=
  let size := abd.length.toUInt64
  if checksum = zioChecksumZilog2 then
    let zilc := readZilChain abd 0
    let nused? :=
      if zilc.zecMagic = zecMagic then some zilc.zcNused
      else if zilc.zecMagic = bswap64 zecMagic then some (bswap64 zilc.zcNused) else none
    nused?.bind fun nused =>
      if nused > size then none
      else some (zilc.zecMagic, p2roundup64 nused zilMinBlksz, zilc.zecCksum, 144 + 8)
  else
    let eckOffset := abd.length - 40
    some (le64 abd eckOffset, size, readCksum abd (eckOffset + 8), eckOffset + 8)

/-- `zio_checksum_error_impl` for a log block (the `ZCHECKSUM_FLAG_EMBEDDED` branch of the two
log checksums): `true` when it returns `0`.  The verifier, the block pointer's own checksum, is
written over the stored checksum while the block is summed. -/
def zioChecksumErrorZil (ops : Fletcher4Ops) (bp : Blkptr) (checksum : UInt64)
    (abd : List UInt8) : Bool :=
  match zilTrailer checksum abd with
  | none => false
  | some (magic, size, expected, eckOffset) =>
    let byteswap := magic = bswap64 zecMagic
    let verifier := if byteswap then bp.blkCksum.bswap else bp.blkCksum
    let actual := zilCiFunc ops checksum byteswap (overwrite abd eckOffset verifier.bytes)
      size.toNat
    let expected := if byteswap then expected.bswap else expected
    -- a MAC takes half of the checksum of an encrypted block
    if bpUsesCrypt bp != 0 && bpGetType bp != dmuOtObjset then
      decide ((⟨actual.word0 ^^^ actual.word2, actual.word1 ^^^ actual.word3, 0, 0⟩ : ZioCksum) =
        ⟨expected.word0, expected.word1, 0, 0⟩)
    else decide (actual = expected)

/-! ## `zil_read_log_block` -/

/-- What `zil_read_log_block` does: an error, or a copy into `dst` of `len` bytes from byte `src`
of the block, `*end` being `dst + len`, with the next block pointer. -/
inductive ZilReadResult
  | error
  | copy (src : ℕ) (len : UInt64) (nbp : Blkptr)

/-- `zil_read_log_block` on a block pointer whose checksum is one of the log checksums, `blk`
being the block `arc_read` reads for it.  The read fails unless the embedded checksum verifies;
the sequence number in the next pointer's checksum must be one more than this block's. -/
def zilReadLogBlock (ops : Fletcher4Ops) (bp : Blkptr) (blk : List UInt8) : ZilReadResult :=
  if !zioChecksumErrorZil ops bp (bpGetChecksum bp) blk then .error
  else
    let cksum := { bp.blkCksum with word3 := bp.blkCksum.word3 + 1 }
    if bpGetChecksum bp = zioChecksumZilog2 then
      let zilc := readZilChain blk 0
      let len := zilc.zcNused - zilChainSize.toUInt64
      if cksum ≠ zilc.zcNextBlk.blkCksum ∨ bpIsHole zilc.zcNextBlk then .error
      else .copy zilChainSize len zilc.zcNextBlk
    else
      let size := bpGetLsize bp
      let zilc := readZilChain blk (size.toNat - zilChainSize)
      if cksum ≠ zilc.zcNextBlk.blkCksum ∨ bpIsHole zilc.zcNextBlk ∨
          zilc.zcNused > size - zilChainSize.toUInt64 then .error
      else .copy 0 zilc.zcNused zilc.zcNextBlk

/-! ## What is copied -/

section Copy

variable {ops : Fletcher4Ops} {bp : Blkptr} {blk : List UInt8}

/-- A `ZILOG2` trailer in the native byte order passes only with `zc_nused` within the block. -/
theorem zilTrailer_zilog2_nused {x : UInt64 × UInt64 × ZioCksum × ℕ}
    (h : zilTrailer zioChecksumZilog2 blk = some x)
    (hmagic : (readZilChain blk 0).zecMagic = zecMagic) :
    (readZilChain blk 0).zcNused ≤ blk.length.toUInt64 := by
  simp only [zilTrailer, if_true, hmagic, Option.bind_some] at h
  split at h
  · cases h
  · exact UInt64.not_lt.mp ‹_›

/-- A verified block has a trailer. -/
theorem zilTrailer_of_verified {checksum : UInt64}
    (h : zioChecksumErrorZil ops bp checksum blk = true) :
    ∃ x, zilTrailer checksum blk = some x := by
  unfold zioChecksumErrorZil at h
  split at h
  · cases h
  · exact ⟨_, ‹_›⟩

/-- **What `zil_read_log_block` copies.**  From a `ZILOG2` block: `zc_nused - 184` bytes, in 64-bit
arithmetic, from behind the leading trailer, where the checksum verification has bounded
`zc_nused` by the size of a block in the native byte order but not from below.  From a `ZILOG`
block: `zc_nused` bytes from its start, at most the logical size less the trailer. -/
theorem zilReadLogBlock_copy {src : ℕ} {len : UInt64} {nbp : Blkptr}
    (h : zilReadLogBlock ops bp blk = .copy src len nbp) :
    (bpGetChecksum bp = zioChecksumZilog2 ∧ src = zilChainSize ∧
        len = (readZilChain blk 0).zcNused - zilChainSize.toUInt64 ∧
        ((readZilChain blk 0).zecMagic = zecMagic →
          (readZilChain blk 0).zcNused ≤ blk.length.toUInt64)) ∨
      (bpGetChecksum bp ≠ zioChecksumZilog2 ∧ src = 0 ∧
        len ≤ bpGetLsize bp - zilChainSize.toUInt64) := by
  unfold zilReadLogBlock at h
  split at h
  · cases h
  rename_i hver
  have hver : zioChecksumErrorZil ops bp (bpGetChecksum bp) blk = true := by simpa using hver
  obtain ⟨x, hx⟩ := zilTrailer_of_verified hver
  split at h
  · rename_i hck
    dsimp only at h
    split at h
    · cases h
    · cases h
      rw [hck] at hx
      exact .inl ⟨hck, rfl, rfl, zilTrailer_zilog2_nused hx⟩
  · rename_i hck
    dsimp only at h
    split at h
    · cases h
    · rename_i hchecks
      cases h
      exact .inr ⟨hck, rfl, UInt64.not_lt.mp fun hlt => hchecks (.inr (.inr hlt))⟩

end Copy

/-- A `ZILOG2` block pointer: allocated (its first DVA is not empty), `ZIO_COMPRESS_OFF`,
`DMU_OT_INTENT_LOG`, 512 bytes, and the checksum `(0, 0, 0, 1)`. -/
def zilNusedZeroBp : Blkptr := ⟨fun n => if n = 0 then 1 else if n = 1 then 0x1000
  else if n = 6 then 0x0009090200000000 else if n = 15 then 1 else 0⟩

/-- A block of 512 bytes whose leading trailer links to the checksum `(0, 0, 0, 2)`, says
`zc_nused = 0`, and carries `ZEC_MAGIC` and a zero checksum. -/
def zilNusedZeroBlk : List UInt8 := le64Bytes 0 ++ le64Bytes 1 ++ List.replicate 88 0 ++ le64Bytes 0 ++
  le64Bytes 0 ++ le64Bytes 0 ++ le64Bytes 2 ++ le64Bytes 0 ++ le64Bytes zecMagic ++
  List.replicate 360 0

set_option maxRecDepth 8000 in
/-- That block verifies, since the checksum covers no byte at all, and `zil_read_log_block`
copies `2^64 - 184` bytes from it. -/
theorem zilReadLogBlock_nusedZero (ops : Fletcher4Ops) :
    zioChecksumErrorZil ops zilNusedZeroBp (bpGetChecksum zilNusedZeroBp) zilNusedZeroBlk = true ∧
      zilReadLogBlock ops zilNusedZeroBp zilNusedZeroBlk =
        .copy 184 18446744073709551432 (readZilChain zilNusedZeroBlk 0).zcNextBlk := by
  have hck : bpGetChecksum zilNusedZeroBp = zioChecksumZilog2 := by decide
  have htr : zilTrailer zioChecksumZilog2 zilNusedZeroBlk = some (zecMagic, 0, zero, 152) := by decide
  -- the checksum covers no byte at all
  have hzc : zioChecksumErrorZil ops zilNusedZeroBp (bpGetChecksum zilNusedZeroBp) zilNusedZeroBlk =
      true := by
    have hsw : (zecMagic = bswap64 zecMagic) = False := by decide
    have hcr : (bpUsesCrypt zilNusedZeroBp != 0 && bpGetType zilNusedZeroBp != dmuOtObjset) = false := by
      decide
    rw [hck, zioChecksumErrorZil, htr]
    simp only [hsw, zilCiFunc, words32, if_false, if_true, hcr]
    simp
  have hlink : ¬ ({ zilNusedZeroBp.blkCksum with word3 := zilNusedZeroBp.blkCksum.word3 + 1 } ≠
      (readZilChain zilNusedZeroBlk 0).zcNextBlk.blkCksum ∨
        bpIsHole (readZilChain zilNusedZeroBlk 0).zcNextBlk) := by
    decide
  have hlen : (readZilChain zilNusedZeroBlk 0).zcNused - zilChainSize.toUInt64 =
      18446744073709551432 := by
    decide
  refine ⟨hzc, ?_⟩
  rw [zilReadLogBlock, hzc, hck]
  simp only [Bool.not_true, Bool.false_eq_true, if_false, if_true]
  rw [if_neg hlink, hlen]
  rfl

set_option maxRecDepth 8000 in
/-- A `ZILOG2` block of 512 bytes, allocated (its first DVA is not empty) and stored with
`ZIO_COMPRESS_OFF`, whose trailer says `zc_nused = 0`, with a zero checksum (the checksum of the
empty range `P2ROUNDUP(0, ZIL_MIN_BLKSZ)` covers) and a correct chain link: the block verifies, and
`zil_read_log_block` copies `2^64 - 184` bytes from it. -/
theorem zilReadLogBlock_zilog2_nused_zero (ops : Fletcher4Ops) :
    let bp : Blkptr := ⟨fun n => if n = 0 then 1 else if n = 1 then 0x1000
      else if n = 6 then 0x0009090200000000 else if n = 15 then 1 else 0⟩
    let blk : List UInt8 := le64Bytes 0 ++ le64Bytes 1 ++ List.replicate 88 0 ++ le64Bytes 0 ++
      le64Bytes 0 ++ le64Bytes 0 ++ le64Bytes 2 ++ le64Bytes 0 ++ le64Bytes zecMagic ++
      List.replicate 360 0
    blk.length = (bpGetLsize bp).toNat ∧ zioChecksumErrorZil ops bp (bpGetChecksum bp) blk = true ∧
      zilReadLogBlock ops bp blk = .copy 184 18446744073709551432 (readZilChain blk 0).zcNextBlk :=
  ⟨by decide, (zilReadLogBlock_nusedZero ops).1, (zilReadLogBlock_nusedZero ops).2⟩

/-! ## The record loop of `zil_parse` -/

/-- `lr->lrc_reclen` of the record at byte `o`. -/
def lrcReclen (buf : List UInt8) (o : ℕ) : UInt64 := le64 buf (o + 8)

/-- `lr->lrc_seq` of the record at byte `o`. -/
def lrcSeq (buf : List UInt8) (o : ℕ) : UInt64 := le64 buf (o + 24)

/-- `int reclen = lr->lrc_reclen;`: the low 32 bits, read as a signed `int`. -/
def reclenInt (x : UInt64) : ℤ := x.toUInt32.toInt32.toInt

/-- The record loop of `zil_parse` over the copy of a block in `lrbuf`, ending at byte `end`,
from the record at `lrp`, for at most `fuel` records: the offsets of the records handed to
`parse_lr_func` (whose result on the record at an offset is `parseLr`), and whether the loop has
left by then.  It leaves at `end`, at a record past the claimed sequence number, or when
`parse_lr_func` fails; a negative `int` length moves it backwards. -/
def zilParseRecords (parseLr : ℤ → ℤ) (claimLrSeq : UInt64) (lrbuf : List UInt8) (endOff : ℤ) :
    ℕ → ℤ → List ℤ × Bool
  | 0, _ => ([], false)
  | fuel + 1, lrp =>
    if lrp < endOff then
      let reclen := reclenInt (lrcReclen lrbuf lrp.toNat)
      if lrcSeq lrbuf lrp.toNat > claimLrSeq then ([], true)
      else if parseLr lrp ≠ 0 then ([lrp], true)
      else
        let r := zilParseRecords parseLr claimLrSeq lrbuf endOff fuel (lrp + reclen)
        (lrp :: r.1, r.2)
    else ([], true)

/-- **A record of length zero makes `zil_parse` stand still**: when the record at `lrp`, before
the end of the copy, has `lrc_reclen = 0`, a sequence number within the claim, and
`parse_lr_func` accepts it, the loop hands that same record to `parse_lr_func` again and again
and never leaves. -/
theorem zilParseRecords_reclen_zero {parseLr : ℤ → ℤ} {claimLrSeq : UInt64} {lrbuf : List UInt8}
    {endOff lrp : ℤ} (hlrp : lrp < endOff) (hrec : lrcReclen lrbuf lrp.toNat = 0)
    (hseq : lrcSeq lrbuf lrp.toNat ≤ claimLrSeq) (hparse : parseLr lrp = 0) :
    ∀ fuel, zilParseRecords parseLr claimLrSeq lrbuf endOff fuel lrp =
      (List.replicate fuel lrp, false) := by
  intro fuel
  induction fuel with
  | zero => rfl
  | succ fuel ih =>
    have hlen : reclenInt (lrcReclen lrbuf lrp.toNat) = 0 := by rw [hrec]; rfl
    simp [zilParseRecords, hlrp, hlen, UInt64.not_lt.mpr hseq, hparse, ih, List.replicate_succ]

/-- **What `zil_read_log_block` hands to `zil_parse`, and a record that holds the walk**: the copy
of a verified `ZILOG2` block is `zc_nused - 184` bytes from behind the trailer, in 64-bit
arithmetic, with `zc_nused` bounded by the block size only from above; that of a `ZILOG` block is
at most its logical size less the trailer, from its start; and a record of length zero inside the
claim, which `parse_lr_func` accepts, is handed to it at every turn and the walk never leaves. -/
theorem zilReadLog_spec (ops : Fletcher4Ops) (bp : Blkptr) (blk : List UInt8) :
    (∀ src len nbp, zilReadLogBlock ops bp blk = .copy src len nbp →
      (bpGetChecksum bp = zioChecksumZilog2 ∧ src = zilChainSize ∧
          len = (readZilChain blk 0).zcNused - zilChainSize.toUInt64 ∧
          ((readZilChain blk 0).zecMagic = zecMagic →
            (readZilChain blk 0).zcNused ≤ blk.length.toUInt64)) ∨
        (bpGetChecksum bp ≠ zioChecksumZilog2 ∧ src = 0 ∧
          len ≤ bpGetLsize bp - zilChainSize.toUInt64)) ∧
    ∀ (parseLr : ℤ → ℤ) (claimLrSeq : UInt64) (lrbuf : List UInt8) (endOff lrp : ℤ),
      lrp < endOff → lrcReclen lrbuf lrp.toNat = 0 → lrcSeq lrbuf lrp.toNat ≤ claimLrSeq →
      parseLr lrp = 0 → ∀ fuel, zilParseRecords parseLr claimLrSeq lrbuf endOff fuel lrp =
        (List.replicate fuel lrp, false) :=
  ⟨fun _ _ _ h => zilReadLogBlock_copy h, fun _ _ _ _ _ hlrp hrec hseq hparse =>
    zilParseRecords_reclen_zero hlrp hrec hseq hparse⟩

/-- The block with `zc_nused = 0` is copied from behind its trailer, and a buffer of zeros holds
a record of length zero at offset 0. -/
theorem zilReadLog_spec_nused_zero :
    zilReadLogBlock fletcher4ScalarOps zilNusedZeroBp zilNusedZeroBlk =
        .copy 184 18446744073709551432 (readZilChain zilNusedZeroBlk 0).zcNextBlk ∧
      ((bpGetChecksum zilNusedZeroBp = zioChecksumZilog2 ∧ 184 = zilChainSize ∧
          (18446744073709551432 : UInt64) =
            (readZilChain zilNusedZeroBlk 0).zcNused - zilChainSize.toUInt64 ∧
          ((readZilChain zilNusedZeroBlk 0).zecMagic = zecMagic →
            (readZilChain zilNusedZeroBlk 0).zcNused ≤ zilNusedZeroBlk.length.toUInt64)) ∨
        (bpGetChecksum zilNusedZeroBp ≠ zioChecksumZilog2 ∧ 184 = 0 ∧
          (18446744073709551432 : UInt64) ≤ bpGetLsize zilNusedZeroBp - zilChainSize.toUInt64)) ∧
      ((0 : ℤ) < 64 ∧ lrcReclen (List.replicate 64 0) 0 = 0 ∧ lrcSeq (List.replicate 64 0) 0 ≤ 0 ∧
        ∀ fuel, zilParseRecords (fun _ => 0) 0 (List.replicate 64 0) 64 fuel 0 =
          (List.replicate fuel 0, false)) := by
  have hcopy := (zilReadLogBlock_nusedZero fletcher4ScalarOps).2
  have hrec : lrcReclen (List.replicate 64 0) (0 : ℤ).toNat = 0 := by decide
  have hseq : lrcSeq (List.replicate 64 0) (0 : ℤ).toNat ≤ 0 := by decide
  have hspec := zilReadLog_spec fletcher4ScalarOps zilNusedZeroBp zilNusedZeroBlk
  exact ⟨hcopy, hspec.1 _ _ _ hcopy, by decide, hrec, hseq,
    hspec.2 (fun _ => 0) 0 (List.replicate 64 0) 64 0 (by decide) hrec hseq rfl⟩

end Zfs
