import Zfs.Spa.Blkptr
import Zfs.Spl.Sysmacros

/-!
# Recv/ReadRecord — the payload buffers of `zfs receive`

`receive_read_record` (`dmu_recv.c`) allocates a buffer for a record's payload from the
record's size fields, and passes `receive_read_payload_and_next_header` an `int` length taken
from the same header through other macros (`DRR_OBJECT_PAYLOAD_SIZE`, `DRR_WRITE_PAYLOAD_SIZE`,
`DRR_SPILL_PAYLOAD_SIZE`); `receive_read` then copies that many bytes of the stream into the
buffer.  An ARC buffer is as long as `arc_buf_size`, the header's size, which `HDR_SET_LSIZE`
keeps in 512-byte sectors in a `uint16_t`.

* `receiveReadRecord_eq_einval_iff` — nothing here checks a size: only an unknown record type is
  refused.
* `receiveReadRecord_kmem_fits` — the `kmem_zalloc` buffers of `DRR_OBJECT` and
  `DRR_WRITE_EMBEDDED` hold what is read into them, for every header.
* `receiveReadRecord_write_fits_iff`, `receiveReadRecord_spill_fits_iff` — for sizes the ARC
  header keeps exactly, which writes and spills are read inside their buffers: a raw write with
  `drr_compressiontype = 0` and a spill whose `drr_compressed_size` exceeds `drr_length` are not.
-/

namespace Zfs

/-! ## Record headers and the size macros (`sys/zfs_ioctl.h`) -/

/-- The size fields of a `dmu_replay_record_t` that `receive_read_record` reads, by `drr_type`,
after `byteswap_record` has put them in host order. -/
inductive DrrHeader
  | drrObject (drrBonuslen drrRawBonuslen : UInt32)
  | drrFreeobjects
  | drrWrite (drrCompressiontype : UInt8) (drrLogicalSize drrCompressedSize : UInt64)
  | drrWriteByref
  | drrWriteEmbedded (drrPsize : UInt32)
  | drrFree
  | drrEnd
  | drrSpill (drrLength drrCompressedSize : UInt64)
  | drrObjectRange
  | other
  deriving DecidableEq, Repr

/-- `DRR_OBJECT_PAYLOAD_SIZE(drro)`. -/
def drrObjectPayloadSize (drrBonuslen drrRawBonuslen : UInt32) : UInt32 :=
  if drrRawBonuslen != 0 then drrRawBonuslen else p2roundup32 drrBonuslen 8

/-- `DRR_WRITE_COMPRESSED(drrw)`. -/
def drrWriteCompressed (drrCompressiontype : UInt8) : Bool := drrCompressiontype != 0

/-- `DRR_WRITE_PAYLOAD_SIZE(drrw)`. -/
def drrWritePayloadSize (drrCompressiontype : UInt8) (drrLogicalSize drrCompressedSize : UInt64) :
    UInt64 :=
  if drrWriteCompressed drrCompressiontype then drrCompressedSize else drrLogicalSize

/-- `DRR_SPILL_PAYLOAD_SIZE(drrs)`. -/
def drrSpillPayloadSize (drrLength drrCompressedSize : UInt64) : UInt64 :=
  if drrCompressedSize != 0 then drrCompressedSize else drrLength

/-- A `uint64_t` passed where the code takes an `int` or an `int32_t`: its low 32 bits, in two's
complement. -/
def narrowInt (x : UInt64) : Int32 := x.toUInt32.toInt32

/-! ## Buffers and reads -/

/-- `HDR_SET_LSIZE(hdr, x)` then `HDR_GET_LSIZE(hdr)` (the same for `PSIZE`), for the `int32_t`
size that `arc_hdr_alloc` takes: `x >> SPA_MINBLOCKSHIFT` kept in a `uint16_t`, shifted back. -/
def hdrSize (x : Int32) : ℕ := (x >>> 9).toUInt32.toUInt16.toNat <<< spaMinblockshift

/-- The bytes of the buffer of `arc_loan_buf(spa, is_meta, size)`: its header has
`psize = lsize = size` and no compression, so `arc_buf_size` is the logical size. -/
def arcLoanBuf (size : Int32) : ℕ := hdrSize size

/-- The bytes of the buffer of `arc_loan_compressed_buf(spa, psize, lsize, compression_type)`:
compressed, of the physical size, unless the header's compression is `ZIO_COMPRESS_OFF`. -/
def arcLoanCompressedBuf (psize lsize : UInt64) (compressionType : UInt8) : ℕ :=
  if compressionType.toUInt64 != zioCompressOff then hdrSize (narrowInt psize)
  else hdrSize (narrowInt lsize)

/-- The bytes of the buffer of `arc_loan_raw_buf(..., psize, lsize, compression_type)`: an
encrypted buffer is a compressed one, of the physical size, whatever `lsize` and the
compression are. -/
def arcLoanRawBuf (psize : UInt64) : ℕ := hdrSize (narrowInt psize)

/-- The bytes `receive_read(ra, len, buf)` stores at `buf` when the stream has them: its loop
`while (done < len)` stops at `len`, and does not run for `len ≤ 0`. -/
def receiveReadLen (len : Int32) : ℕ := len.toInt.toNat

/-- What `receive_read_record` hands on for a record: a payload buffer of `bufSize` bytes and the
`int` length for `receive_read_payload_and_next_header` (no buffer and length `0` for the
records without payload); no read at all for `DRR_END`; `EINVAL` for an unknown type. -/
inductive RecordRead
  | payload (bufSize : ℕ) (len : Int32)
  | noRead
  | einval
  deriving DecidableEq, Repr

/-- The payload read stays inside the buffer. -/
def RecordRead.Fits : RecordRead → Prop
  | .payload bufSize len => receiveReadLen len ≤ bufSize
  | _ => True

instance : DecidablePred RecordRead.Fits := fun r =>
  match r with
  | .payload bufSize len => inferInstanceAs (Decidable (receiveReadLen len ≤ bufSize))
  | .noRead => isTrue trivial
  | .einval => isTrue trivial

/-- `receive_read_record` in a stream that is `raw` or not, up to the payload read. -/
def receiveReadRecord (raw : Bool) : DrrHeader → RecordRead
  | .drrObject drrBonuslen drrRawBonuslen =>
    -- `kmem_zalloc(size)`, or `NULL` for `size = 0`
    let size := drrObjectPayloadSize drrBonuslen drrRawBonuslen
    .payload size.toNat size.toInt32
  | .drrFreeobjects => .payload 0 0
  | .drrWrite drrCompressiontype drrLogicalSize drrCompressedSize =>
    let bufSize :=
      if raw then arcLoanRawBuf drrCompressedSize
      else if drrWriteCompressed drrCompressiontype then
        arcLoanCompressedBuf drrCompressedSize drrLogicalSize drrCompressiontype
      else arcLoanBuf (narrowInt drrLogicalSize)
    .payload bufSize
      (narrowInt (drrWritePayloadSize drrCompressiontype drrLogicalSize drrCompressedSize))
  | .drrWriteByref => .payload 0 0
  | .drrWriteEmbedded drrPsize =>
    let size := p2roundup32 drrPsize 8
    .payload size.toNat size.toInt32
  | .drrFree => .payload 0 0
  | .drrEnd => .noRead
  | .drrSpill drrLength drrCompressedSize =>
    let len := narrowInt (drrSpillPayloadSize drrLength drrCompressedSize)
    let bufSize := if raw then arcLoanRawBuf drrCompressedSize else arcLoanBuf (narrowInt drrLength)
    .payload bufSize len
  | .drrObjectRange => .payload 0 0
  | .other => .einval

/-- **No size is checked before the allocation**: every record of a known type gets its buffer
and its read, whatever its size fields say; only an unknown `drr_type` is refused. -/
theorem receiveReadRecord_eq_einval_iff {raw : Bool} {h : DrrHeader} :
    receiveReadRecord raw h = .einval ↔ h = .other := by
  cases h <;> simp [receiveReadRecord]

/-! ## Sizes through `int` and through the ARC header -/

section Narrow

theorem toInt_toInt32 (x : UInt32) :
    x.toInt32.toInt = if 2 * x.toNat < 2 ^ 32 then (x.toNat : ℤ) else x.toNat - 2 ^ 32 :=
  BitVec.toInt_eq_toNat_cond _

/-- A `uint32_t` length passed as an `int` never reads more than it says. -/
theorem receiveReadLen_toInt32_le (x : UInt32) : receiveReadLen x.toInt32 ≤ x.toNat := by
  unfold receiveReadLen
  rw [toInt_toInt32]
  split <;> omega

theorem receiveReadLen_toInt32 {x : UInt32} (h : 2 * x.toNat < 2 ^ 32) :
    receiveReadLen x.toInt32 = x.toNat := by
  unfold receiveReadLen
  rw [toInt_toInt32, if_pos h]
  simp

/-- On a non-negative `int32_t` the arithmetic shift is the logical one. -/
theorem toUInt32_toInt32_shiftRight {y : UInt32} (h : 2 * y.toNat < 2 ^ 32) :
    (y.toInt32 >>> 9).toUInt32 = y >>> 9 := by
  have hmsb : y.toBitVec.msb = false := by
    rw [BitVec.msb_eq_decide]
    simp only [decide_eq_false_iff_not, not_le]
    change y.toNat < 2 ^ 31
    omega
  have h9 : ((9 : Int32).toBitVec.smod 32).toNat = 9 := by decide
  apply UInt32.toBitVec_inj.mp
  change (y.toInt32 >>> 9).toBitVec = _
  rw [Int32.toBitVec_shiftRight, BitVec.sshiftRight', h9]
  exact BitVec.sshiftRight_eq_of_msb_false hmsb

theorem hdrSize_toInt32 {y : UInt32} (h : 2 * y.toNat < 2 ^ 32) :
    hdrSize y.toInt32 = y.toNat / 512 % 65536 * 512 := by
  have h9 : (9 : UInt32).toNat % 32 = 9 := rfl
  rw [hdrSize, toUInt32_toInt32_shiftRight h, spaMinblockshift, Nat.shiftLeft_eq]
  simp only [UInt32.toNat_toUInt16, UInt32.toNat_shiftRight, h9, Nat.shiftRight_eq_div_pow]

/-- A size that the ARC header keeps exactly: a multiple of the sector size, at most
`SPA_MAXBLOCKSIZE`. -/
def SectorSize (x : UInt64) : Prop := 512 ∣ x.toNat ∧ x.toNat ≤ spaMaxblocksize.toNat

instance (x : UInt64) : Decidable (SectorSize x) := inferInstanceAs (Decidable (_ ∧ _))

theorem toNat_spaMaxblocksize : spaMaxblocksize.toNat = 2 ^ 24 := by decide

variable {x : UInt64} (hx : SectorSize x)
include hx

theorem toNat_toUInt32_of_sectorSize : x.toUInt32.toNat = x.toNat := by
  have := hx.2
  rw [toNat_spaMaxblocksize] at this
  simp only [UInt64.toNat_toUInt32]
  omega

/-- A sector-sized size is a non-negative `int`. -/
theorem two_mul_toNat_toUInt32_lt : 2 * x.toUInt32.toNat < 2 ^ 32 := by
  have h24 := hx.2
  rw [toNat_spaMaxblocksize] at h24
  rw [toNat_toUInt32_of_sectorSize hx]
  omega

/-- The ARC header keeps a sector-sized size as it is. -/
theorem hdrSize_narrowInt : hdrSize (narrowInt x) = x.toNat := by
  rw [narrowInt, hdrSize_toInt32 (two_mul_toNat_toUInt32_lt hx), toNat_toUInt32_of_sectorSize hx]
  have h24 := hx.2
  rw [toNat_spaMaxblocksize] at h24
  obtain ⟨k, hk⟩ := hx.1
  omega

/-- A sector-sized length passed as an `int` reads exactly that many bytes. -/
theorem receiveReadLen_narrowInt : receiveReadLen (narrowInt x) = x.toNat := by
  rw [narrowInt, receiveReadLen_toInt32 (two_mul_toNat_toUInt32_lt hx),
    toNat_toUInt32_of_sectorSize hx]

end Narrow

/-! ## Which reads fit their buffers -/

/-- **The `kmem_zalloc` buffers fit**: `DRR_OBJECT` and `DRR_WRITE_EMBEDDED` allocate the very
`uint32_t` size they then read, which as an `int` is that size or negative. -/
theorem receiveReadRecord_kmem_fits (raw : Bool) (drrBonuslen drrRawBonuslen drrPsize : UInt32) :
    (receiveReadRecord raw (.drrObject drrBonuslen drrRawBonuslen)).Fits ∧
      (receiveReadRecord raw (.drrWriteEmbedded drrPsize)).Fits :=
  ⟨receiveReadLen_toInt32_le _, receiveReadLen_toInt32_le _⟩

section Arc

variable {raw : Bool} {drrLength drrLogicalSize drrCompressedSize : UInt64}

/-- **Which writes fit.**  With sizes the ARC header keeps exactly, a write is read inside its
buffer unless it is raw with `drr_compressiontype = 0` and a logical size above the compressed
one (the buffer has the compressed size, the read the logical one), or not raw with the
compression `ZIO_COMPRESS_OFF` and a compressed size above the logical one. -/
theorem receiveReadRecord_write_fits_iff {drrCompressiontype : UInt8}
    (hl : SectorSize drrLogicalSize) (hc : SectorSize drrCompressedSize) :
    (receiveReadRecord raw (.drrWrite drrCompressiontype drrLogicalSize drrCompressedSize)).Fits ↔
      if raw then drrCompressiontype = 0 → drrLogicalSize ≤ drrCompressedSize
      else drrCompressiontype.toUInt64 = zioCompressOff → drrCompressedSize ≤ drrLogicalSize := by
  have hct : drrCompressiontype.toUInt64 = zioCompressOff → drrCompressiontype ≠ 0 := by
    intro h h0
    simp [h0, zioCompressOff] at h
  simp only [receiveReadRecord, RecordRead.Fits, arcLoanRawBuf, arcLoanCompressedBuf,
    arcLoanBuf, drrWritePayloadSize, drrWriteCompressed, hdrSize_narrowInt hl,
    hdrSize_narrowInt hc, UInt64.le_iff_toNat_le]
  have hread := And.intro (receiveReadLen_narrowInt hl) (receiveReadLen_narrowInt hc)
  cases raw with
  | true =>
    -- the raw buffer has the compressed size whatever the compression
    by_cases h0 : drrCompressiontype = 0 <;> simp [h0, hread]
  | false =>
    by_cases h0 : drrCompressiontype = 0
    · -- `arc_loan_buf` of the logical size, which is what is read
      simp [h0, hread, zioCompressOff]
    · -- `arc_loan_compressed_buf`: the logical size only under `ZIO_COMPRESS_OFF`
      by_cases hoff : drrCompressiontype.toUInt64 = zioCompressOff <;> simp [h0, hoff, hread]

/-- **Which spills fit.**  With sizes the ARC header keeps exactly, a spill record that is not
raw is read inside its buffer iff `drr_compressed_size ≤ drr_length` (its buffer has
`drr_length` bytes, its read `DRR_SPILL_PAYLOAD_SIZE`); a raw one iff it does not claim a
compressed size of `0` with a nonzero `drr_length`. -/
theorem receiveReadRecord_spill_fits_iff (hl : SectorSize drrLength)
    (hc : SectorSize drrCompressedSize) :
    (receiveReadRecord raw (.drrSpill drrLength drrCompressedSize)).Fits ↔
      if raw then drrCompressedSize = 0 → drrLength = 0 else drrCompressedSize ≤ drrLength := by
  simp only [receiveReadRecord, RecordRead.Fits, arcLoanRawBuf, arcLoanBuf, drrSpillPayloadSize,
    hdrSize_narrowInt hl, hdrSize_narrowInt hc, UInt64.le_iff_toNat_le]
  have hread := And.intro (receiveReadLen_narrowInt hl) (receiveReadLen_narrowInt hc)
  by_cases h0 : drrCompressedSize = 0
  · -- the read is `drr_length`; a raw buffer then has `0` bytes
    have hz : drrLength.toNat = 0 ↔ drrLength = 0 := by
      rw [← UInt64.toNat_inj, UInt64.toNat_zero]
    subst h0
    cases raw <;> simp [hread, hz]
  · -- the read is `drr_compressed_size`, which is what a raw buffer has
    cases raw <;> simp [h0, hread]

end Arc

/-- **Which payloads `receive_read_record` reads inside their buffers**: it refuses only a record
of unknown type, checking no size; the `kmem_zalloc` buffers of `DRR_OBJECT` and
`DRR_WRITE_EMBEDDED` always hold what is read; and for sizes the ARC header keeps exactly, a write
or a spill is read inside its ARC buffer exactly under the conditions on its compression and its
two sizes. -/
theorem receiveReadRecord_buffers (raw : Bool) :
    (∀ h, receiveReadRecord raw h = .einval ↔ h = .other) ∧
    (∀ drrBonuslen drrRawBonuslen drrPsize : UInt32,
      (receiveReadRecord raw (.drrObject drrBonuslen drrRawBonuslen)).Fits ∧
        (receiveReadRecord raw (.drrWriteEmbedded drrPsize)).Fits) ∧
    (∀ (drrCompressiontype : UInt8) (drrLogicalSize drrCompressedSize : UInt64),
      SectorSize drrLogicalSize → SectorSize drrCompressedSize →
      ((receiveReadRecord raw (.drrWrite drrCompressiontype drrLogicalSize drrCompressedSize)).Fits ↔
        if raw then drrCompressiontype = 0 → drrLogicalSize ≤ drrCompressedSize
        else drrCompressiontype.toUInt64 = zioCompressOff → drrCompressedSize ≤ drrLogicalSize)) ∧
    (∀ drrLength drrCompressedSize : UInt64, SectorSize drrLength → SectorSize drrCompressedSize →
      ((receiveReadRecord raw (.drrSpill drrLength drrCompressedSize)).Fits ↔
        if raw then drrCompressedSize = 0 → drrLength = 0 else drrCompressedSize ≤ drrLength)) :=
  ⟨fun _ => receiveReadRecord_eq_einval_iff, receiveReadRecord_kmem_fits raw,
    fun _ _ _ hl hc => receiveReadRecord_write_fits_iff hl hc,
    fun _ _ hl hc => receiveReadRecord_spill_fits_iff hl hc⟩

/-- An uncompressed write of 4 KiB, read into its buffer. -/
theorem receiveReadRecord_buffers_write :
    SectorSize 4096 ∧
      ((receiveReadRecord false (.drrWrite 2 4096 4096)).Fits ↔
        ((2 : UInt8).toUInt64 = zioCompressOff → (4096 : UInt64) ≤ 4096)) :=
  ⟨by decide, (receiveReadRecord_buffers false).2.2.1 2 4096 4096 (by decide) (by decide)⟩

/-- A spill record of `drr_length = 512` whose `drr_compressed_size` says `4096`, in a stream
that is not raw: `receive_read_record` loans a 512-byte ARC buffer and reads 4096 bytes into it. -/
theorem receiveReadRecord_spill_overrun :
    receiveReadRecord false (.drrSpill 512 4096) = .payload 512 4096 ∧
      receiveReadLen 4096 = 4096 ∧ ¬ (receiveReadRecord false (.drrSpill 512 4096)).Fits := by
  refine ⟨by decide +kernel, by decide +kernel, ?_⟩
  rw [receiveReadRecord_spill_fits_iff (by decide) (by decide)]
  decide

end Zfs
