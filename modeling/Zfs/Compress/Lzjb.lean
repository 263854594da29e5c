import Zfs.Spl.Byteorder
import Zfs.Lib.Except

/-!
# Compress/Lzjb — the Lempel-Ziv compression of `lzjb.c`

An LZJB stream is a sequence of items, eight to a copy map: a copy-map byte whose bit `k` says
whether item `k` of the group is a literal byte or a two-byte match, the match holding its length
less `MATCH_MIN` in six bits and a back offset in ten.  `lzjb_compress` finds a match candidate
through a hash table of the low 16 bits of source addresses (`lempel`), keeps it when it lies
inside the source before `src` and its first three bytes agree, and extends it to at most
`MATCH_MAX` bytes; it gives up, returning `s_len`, when a new group might not fit the
destination.  `lzjb_decompress` walks the destination, not the source: it never looks at `s_len`.

The pointers of the code are offsets, except where the compressor takes a source address apart:
the hash table holds `(uint16_t)(uintptr_t)src`, so the model takes the address `base` of the
source.  A load from the source is `bufAt`, which reports a read past its end.

* `lzjbDecompress_reads_past_source`: a one-byte stream makes the decompressor load the byte
  after it.
-/

namespace Zfs

/-- `NBBY`. -/
def nbby : ℕ := 8

/-- `MATCH_BITS`. -/
def matchBits : ℕ := 6

/-- `MATCH_MIN`. -/
def matchMin : ℕ := 3

/-- `MATCH_MAX`. -/
def matchMax : ℕ := (1 <<< matchBits) + (matchMin - 1)

/-- `OFFSET_MASK`. -/
def offsetMask : ℕ := (1 <<< (16 - matchBits)) - 1

/-- `LEMPEL_SIZE`. -/
def lempelSize : ℕ := 1024

theorem matchMax_eq : matchMax = 66 := rfl

theorem offsetMask_eq : offsetMask = 1023 := rfl

/-! ## `lzjb_compress` -/

/-- The slot of `lempel` for the three bytes at `src`. -/
def lzjbHash (b0 b1 b2 : UInt8) : ℕ :=
  let hash := (b0.toNat <<< 16) + (b1.toNat <<< 8) + b2.toNat
  let hash := hash + (hash >>> 9)
  let hash := hash + (hash >>> 5)
  hash &&& (lempelSize - 1)

/-- `for (mlen = MATCH_MIN; mlen < MATCH_MAX; mlen++) if (src[mlen] != cpy[mlen]) break;`, with
`k` turns left. -/
def lzjbMatchLen (s : List UInt8) (src cpy : ℕ) : ℕ → ℕ → ℕ
  | 0, mlen => mlen
  | k + 1, mlen =>
    if s.getD (src + mlen) 0 ≠ s.getD (cpy + mlen) 0 then mlen
    else lzjbMatchLen s src cpy k (mlen + 1)

/-- The second half of a turn of `lzjb_compress`'s loop, once the copy map is in place: a literal
near the end of the source; otherwise the hash table's candidate, recorded over by `src`, is
written as a match when it lies in the source before `src` and its first three bytes agree, and
a literal is written when it does not.  The next source offset, the output and the hash table. -/
def lzjbCompressItem (s : List UInt8) (base src : ℕ) (out : List UInt8) (cm mask : ℕ)
    (lempel : ℕ → ℕ) : ℕ × List UInt8 × (ℕ → ℕ) :=
  if s.length < src + matchMax then (src + 1, out ++ [s.getD src 0], lempel)
  else
    let h := lzjbHash (s.getD src 0) (s.getD (src + 1) 0) (s.getD (src + 2) 0)
    let offset := ((((base + src : ℕ) : ℤ) - (lempel h : ℤ)) % (offsetMask + 1 : ℤ)).toNat
    let lempel := Function.update lempel h ((base + src) % 2 ^ 16)
    if offset ≤ src ∧ offset ≠ 0 ∧ s.getD src 0 = s.getD (src - offset) 0 ∧
        s.getD (src + 1) 0 = s.getD (src - offset + 1) 0 ∧
        s.getD (src + 2) 0 = s.getD (src - offset + 2) 0 then
      let mlen := lzjbMatchLen s src (src - offset) (matchMax - matchMin) matchMin
      (src + mlen,
        out.modify cm (· ||| UInt8.ofNat mask) ++
          [UInt8.ofNat (((mlen - matchMin) <<< (nbby - matchBits)) ||| (offset >>> nbby)),
            UInt8.ofNat offset],
        lempel)
    else (src + 1, out ++ [s.getD src 0], lempel)

/-- The loop of `lzjb_compress` from source offset `src`, with the bytes written so far, the offset
of the current copy map, its mask and the hash table: the bytes written, and whether it gave up
because a group might not fit (`return (s_len)`). -/
def lzjbCompressLoop (s : List UInt8) (dLen base : ℕ) :
    ℕ → ℕ → List UInt8 → ℕ → ℕ → (ℕ → ℕ) → List UInt8 × Bool
  | 0, _, out, _, _, _ => (out, false)
  | fuel + 1, src, out, cm, copymask, lempel =>
    if src < s.length then
      if copymask <<< 1 = 1 <<< nbby ∧ dLen ≤ out.length + 1 + 2 * nbby then (out, true)
      else
        -- a new group starts with a zero copy map
        let (out, cm, mask) := if copymask <<< 1 = 1 <<< nbby then (out ++ [0], out.length, 1)
          else (out, cm, copymask <<< 1)
        let r := lzjbCompressItem s base src out cm mask lempel
        lzjbCompressLoop s dLen base fuel r.1 r.2.1 cm mask r.2.2
    else (out, false)

/-- `lzjb_compress(s_start, d_start, s_len, d_len, n)` for a source at address `base`: the bytes
written to the destination, and the length returned. -/
def lzjbCompress (s : List UInt8) (dLen base : ℕ) : List UInt8 × ℕ :=
  let r := lzjbCompressLoop s dLen base s.length 0 [] 0 (1 <<< (nbby - 1)) fun _ => 0
  (r.1, if r.2 then s.length else r.1.length)

/-! ## `lzjb_decompress` -/

/-- The copy of a match, `while (--mlen >= 0 && dst < d_end) *dst++ = *cpy++`, a byte at a time,
so that it reads what it has just written when the match overlaps it. -/
def lzjbCopy (dLen : ℕ) : ℕ → ℕ → ℕ → List UInt8 → ℕ × List UInt8
  | 0, _, dst, buf => (dst, buf)
  | mlen + 1, cpy, dst, buf =>
    if dst < dLen then lzjbCopy dLen mlen (cpy + 1) (dst + 1) (buf.set dst (buf.getD cpy 0))
    else (dst, buf)

/-- `if ((copymask <<= 1) == (1 << NBBY)) { copymask = 1; copymap = *src++; }`: the source
offset, copy map and mask of the next item. -/
def lzjbNextMap (s : List UInt8) (src copymap copymask : ℕ) : Except ℕ (ℕ × ℕ × ℕ) :=
  if copymask <<< 1 = 1 <<< nbby then do
    let m ← bufAt s src
    pure (src + 1, m.toNat, 1)
  else pure (src, copymap, copymask <<< 1)

/-- The loop of `lzjb_decompress` over the destination `buf` of `d_len` bytes, from source offset
`src` and destination offset `dst`, with the copy map and its mask: `.error i` for a load past the
source, otherwise the value returned and the destination. -/
def lzjbDecompressLoop (s : List UInt8) (dLen : ℕ) :
    ℕ → ℕ → ℕ → ℕ → ℕ → List UInt8 → Except ℕ (ℤ × List UInt8)
  | 0, _, _, _, _, buf => .ok (0, buf)
  | fuel + 1, src, dst, copymap, copymask, buf =>
    if dst < dLen then do
      let (src, copymap, copymask) ← lzjbNextMap s src copymap copymask
      if copymap &&& copymask ≠ 0 then do
        let b0 ← bufAt s src
        let b1 ← bufAt s (src + 1)
        let mlen := (b0.toNat >>> (nbby - matchBits)) + matchMin
        let offset := ((b0.toNat <<< nbby) ||| b1.toNat) &&& offsetMask
        if dst < offset then .ok (-1, buf)
        else
          let r := lzjbCopy dLen mlen (dst - offset) dst buf
          lzjbDecompressLoop s dLen fuel (src + 2) r.1 copymap copymask r.2
      else do
        let b ← bufAt s src
        lzjbDecompressLoop s dLen fuel (src + 1) (dst + 1) copymap copymask (buf.set dst b)
    else .ok (0, buf)

/-- `lzjb_decompress(s_start, d_start, s_len, d_len, n)` into the destination buffer `d`. -/
def lzjbDecompress (s d : List UInt8) : Except ℕ (ℤ × List UInt8) :=
  lzjbDecompressLoop s d.length d.length 0 0 0 (1 <<< (nbby - 1)) d

/-- The one-byte source `[0]`, read into any destination: the copy map says that the first item is
a literal, and the decompressor loads it from offset 1, past the source. -/
theorem lzjbDecompress_reads_past_source (b : UInt8) (d : List UInt8) :
    lzjbDecompress [0] (b :: d) = .error 1 := by
  simp [lzjbDecompress, lzjbDecompressLoop, lzjbNextMap, bufAt, nbby]

end Zfs
