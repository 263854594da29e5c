import Zfs.Fletcher.Vector
import Zfs.Spa.Blkptr
import Zfs.Spl.Sysmacros

/-!
# Fletcher/Native — implementation selection, `fletcher_4_native` and the incremental checksum

`fletcher_4_native` checksums the 64-byte-aligned prefix of a buffer with the implementation
`fletcher_4_impl_get` returns (`init`, `compute`, `fini` of one entry of `fletcher_4_impls`, or
of the benchmark's `fastest`, which copies them from one), then runs the scalar code over the
tail, continuing from that checksum.  Every implementation agrees with the scalar code on whole
64-byte blocks (`fletcher4Impls_agree`), so the result never depends on the choice.

`fletcher_4_incremental_native` updates a running checksum with one more buffer: small buffers
directly with the scalar code, larger ones in pieces of at most `ZFS_FLETCHER_4_INC_MAX_SIZE`
bytes, each checksummed from zero and folded in by `fletcher_4_incremental_combine`.  Feeding a
buffer in any split gives the checksum of the whole (`fletcher4Incremental_chunks`).
-/

open scoped UInt64.CommRing

namespace Zfs

open ZioCksum

/-! ## The implementations -/

/-- `fletcher_4_ops_t`, as far as checksumming uses it: each variant's `init`, `compute` and
`fini` over the implementation's own member of the context union. -/
structure Fletcher4Ops where
  /-- The member of `fletcher_4_ctx_t` the implementation uses. -/
  Ctx : Type
  initNative : Ctx
  computeNative : Ctx → List UInt32 → Ctx
  finiNative : Ctx → ZioCksum
  initByteswap : Ctx
  computeByteswap : Ctx → List UInt32 → Ctx
  finiByteswap : Ctx → ZioCksum

/-- `fletcher_4_scalar_ops`: the context is `ctx->scalar`, `fini` copies it out. -/
def fletcher4ScalarOps : Fletcher4Ops where
  Ctx := ZioCksum
  initNative := zero
  computeNative := fletcher4ScalarNative
  finiNative := id
  initByteswap := zero
  computeByteswap := fletcher4ScalarByteswap
  finiByteswap := id

/-- `fletcher_4_superscalar_ops`. -/
def fletcher4SuperscalarOps : Fletcher4Ops where
  Ctx := LaneCtx 2
  initNative := laneInit 2
  computeNative := fletcher4SuperscalarNative
  finiNative := fletcher4SuperscalarFini
  initByteswap := laneInit 2
  computeByteswap := fletcher4SuperscalarByteswap
  finiByteswap := fletcher4SuperscalarFini

/-- `fletcher_4_superscalar4_ops`. -/
def fletcher4Superscalar4Ops : Fletcher4Ops where
  Ctx := LaneCtx 4
  initNative := laneInit 4
  computeNative := fletcher4Superscalar4Native
  finiNative := fletcher4Superscalar4Fini
  initByteswap := laneInit 4
  computeByteswap := fletcher4Superscalar4Byteswap
  finiByteswap := fletcher4Superscalar4Fini

/-- `fletcher_4_sse2_fini`. -/
def fletcher4Sse2Fini : LaneCtx 2 → ZioCksum := laneFini2

/-- `fletcher_4_avx2_fini`. -/
def fletcher4Avx2Fini : LaneCtx 4 → ZioCksum := laneFini4

/-- `fletcher_4_aarch64_neon_fini`. -/
def fletcher4Aarch64NeonFini : LaneCtx 2 → ZioCksum := laneFini2

/-- `fletcher_4_sse2_ops`. -/
def fletcher4Sse2Ops : Fletcher4Ops where
  Ctx := LaneCtx 2
  initNative := laneInit 2
  computeNative := fletcher4Sse2Native
  finiNative := fletcher4Sse2Fini
  initByteswap := laneInit 2
  computeByteswap := fletcher4Sse2Byteswap
  finiByteswap := fletcher4Sse2Fini

/-- `fletcher_4_ssse3_ops`: SSE2's native functions, its own byte-swapping loop. -/
def fletcher4Ssse3Ops : Fletcher4Ops where
  Ctx := LaneCtx 2
  initNative := laneInit 2
  computeNative := fletcher4Sse2Native
  finiNative := fletcher4Sse2Fini
  initByteswap := laneInit 2
  computeByteswap := fletcher4Ssse3Byteswap
  finiByteswap := fletcher4Sse2Fini

/-- `fletcher_4_avx2_ops`. -/
def fletcher4Avx2Ops : Fletcher4Ops where
  Ctx := LaneCtx 4
  initNative := laneInit 4
  computeNative := fletcher4Avx2Native
  finiNative := fletcher4Avx2Fini
  initByteswap := laneInit 4
  computeByteswap := fletcher4Avx2Byteswap
  finiByteswap := fletcher4Avx2Fini

/-- `fletcher_4_avx512f_ops`. -/
def fletcher4Avx512fOps : Fletcher4Ops where
  Ctx := LaneCtx 8
  initNative := laneInit 8
  computeNative := fletcher4Avx512fNative
  finiNative := fletcher4Avx512fFini
  initByteswap := laneInit 8
  computeByteswap := fletcher4Avx512fByteswap
  finiByteswap := fletcher4Avx512fFini

/-- `fletcher_4_aarch64_neon_ops`. -/
def fletcher4Aarch64NeonOps : Fletcher4Ops where
  Ctx := LaneCtx 2
  initNative := laneInit 2
  computeNative := fletcher4Aarch64NeonNative
  finiNative := fletcher4Aarch64NeonFini
  initByteswap := laneInit 2
  computeByteswap := fletcher4Aarch64NeonByteswap
  finiByteswap := fletcher4Aarch64NeonFini

/-- `fletcher_4_impls`, every entry of every configuration. -/
def fletcher4Impls : List Fletcher4Ops :=
  [fletcher4ScalarOps, fletcher4SuperscalarOps, fletcher4Superscalar4Ops, fletcher4Sse2Ops,
    fletcher4Ssse3Ops, fletcher4Avx2Ops, fletcher4Avx512fOps, fletcher4Aarch64NeonOps]

/-- `fletcher_4_native_impl`: `init_native`, `compute_native`, `fini_native`. -/
def fletcher4NativeImpl (ops : Fletcher4Ops) (buf : List UInt32) : ZioCksum :=
  ops.finiNative (ops.computeNative ops.initNative buf)

/-- `fletcher_4_byteswap_impl`. -/
def fletcher4ByteswapImpl (ops : Fletcher4Ops) (buf : List UInt32) : ZioCksum :=
  ops.finiByteswap (ops.computeByteswap ops.initByteswap buf)

/-- An implementation agrees with the scalar code on every buffer of whole 64-byte blocks. -/
def Fletcher4Ops.Agrees (ops : Fletcher4Ops) : Prop :=
  ∀ buf : List UInt32, 16 ∣ buf.length →
    fletcher4NativeImpl ops buf = fletcher4ScalarNative zero buf ∧
      fletcher4ByteswapImpl ops buf = fletcher4ScalarByteswap zero buf

theorem fletcher4ScalarOps_agrees : fletcher4ScalarOps.Agrees := fun _ _ => ⟨rfl, rfl⟩

theorem fletcher4SuperscalarOps_agrees : fletcher4SuperscalarOps.Agrees := by
  intro buf h
  have h2 : 2 ∣ buf.length := Nat.dvd_trans (by norm_num) h
  refine ⟨?_, ?_⟩
  · have := laneCompute_sim (by norm_num) laneFini2 laneFini2_laneStep id (laneInit 2) buf h2
    rwa [laneFini2_laneInit, List.map_id] at this
  · have := laneCompute_sim (by norm_num) laneFini2 laneFini2_laneStep bswap32 (laneInit 2) buf h2
    rwa [laneFini2_laneInit, ← fletcher4ScalarByteswap_eq] at this

theorem fletcher4Superscalar4Ops_agrees : fletcher4Superscalar4Ops.Agrees := by
  intro buf h
  have h4 : 4 ∣ buf.length := Nat.dvd_trans (by norm_num) h
  refine ⟨?_, ?_⟩
  · have := laneCompute_sim (by norm_num) laneFini4 laneFini4_laneStep id (laneInit 4) buf h4
    rwa [laneFini4_laneInit, List.map_id] at this
  · have := laneCompute_sim (by norm_num) laneFini4 laneFini4_laneStep bswap32 (laneInit 4) buf h4
    rwa [laneFini4_laneInit, ← fletcher4ScalarByteswap_eq] at this

theorem fletcher4Sse2Ops_agrees : fletcher4Sse2Ops.Agrees := by
  intro buf h
  have h4 : 4 ∣ buf.length := Nat.dvd_trans (by norm_num) h
  have h2 : 2 ∣ buf.length := Nat.dvd_trans (by norm_num) h
  refine ⟨?_, ?_⟩
  · have := fletcher4Sse2Native_sim (laneInit 2) buf h4
    rwa [laneFini2_laneInit] at this
  · have := fletcher4Sse2Byteswap_sim (laneInit 2) buf h2
    rwa [laneFini2_laneInit] at this

theorem fletcher4Ssse3Ops_agrees : fletcher4Ssse3Ops.Agrees := by
  intro buf h
  have h4 : 4 ∣ buf.length := Nat.dvd_trans (by norm_num) h
  refine ⟨?_, ?_⟩
  · have := fletcher4Sse2Native_sim (laneInit 2) buf h4
    rwa [laneFini2_laneInit] at this
  · have := fletcher4Ssse3Byteswap_sim (laneInit 2) buf h4
    rwa [laneFini2_laneInit] at this

theorem fletcher4Avx2Ops_agrees : fletcher4Avx2Ops.Agrees := by
  intro buf h
  have h4 : 4 ∣ buf.length := Nat.dvd_trans (by norm_num) h
  refine ⟨?_, ?_⟩
  · have := fletcher4Avx2Native_sim (laneInit 4) buf h4
    rwa [laneFini4_laneInit] at this
  · have := fletcher4Avx2Byteswap_sim (laneInit 4) buf h4
    rwa [laneFini4_laneInit] at this

theorem fletcher4Avx512fOps_agrees : fletcher4Avx512fOps.Agrees := by
  intro buf h
  have h8 : 8 ∣ buf.length := Nat.dvd_trans (by norm_num) h
  refine ⟨?_, ?_⟩
  · have := fletcher4Avx512fNative_sim (laneInit 8) buf h8
    rwa [fletcher4Avx512fFini_laneInit] at this
  · have := fletcher4Avx512fByteswap_sim (laneInit 8) buf h8
    rwa [fletcher4Avx512fFini_laneInit] at this

theorem fletcher4Aarch64NeonOps_agrees : fletcher4Aarch64NeonOps.Agrees := by
  intro buf h
  have h4 : 4 ∣ buf.length := Nat.dvd_trans (by norm_num) h
  refine ⟨?_, ?_⟩
  · have := fletcher4Aarch64NeonNative_sim (laneInit 2) buf h4
    rwa [laneFini2_laneInit] at this
  · have := fletcher4Aarch64NeonByteswap_sim (laneInit 2) buf h4
    rwa [laneFini2_laneInit] at this

theorem agrees_of_mem_fletcher4Impls {ops : Fletcher4Ops} (h : ops ∈ fletcher4Impls) :
    ops.Agrees := by
  simp only [fletcher4Impls, List.mem_cons, List.not_mem_nil, or_false] at h
  rcases h with rfl | rfl | rfl | rfl | rfl | rfl | rfl | rfl
  · exact fletcher4ScalarOps_agrees
  · exact fletcher4SuperscalarOps_agrees
  · exact fletcher4Superscalar4Ops_agrees
  · exact fletcher4Sse2Ops_agrees
  · exact fletcher4Ssse3Ops_agrees
  · exact fletcher4Avx2Ops_agrees
  · exact fletcher4Avx512fOps_agrees
  · exact fletcher4Aarch64NeonOps_agrees

/-- **Every implementation computes the scalar checksum.**  On every buffer of whole 64-byte
blocks, `init`/`compute`/`fini` of each entry of `fletcher_4_impls`, native and byte-swapped, give
the four words of `fletcher_4_scalar_native` / `fletcher_4_scalar_byteswap` from zero. -/
theorem fletcher4Impls_agree :
    ∀ ops ∈ fletcher4Impls, ∀ buf : List UInt32, 16 ∣ buf.length →
      fletcher4NativeImpl ops buf = fletcher4ScalarNative zero buf ∧
        fletcher4ByteswapImpl ops buf = fletcher4ScalarByteswap zero buf :=
  fun _ hops => agrees_of_mem_fletcher4Impls hops

theorem fletcher4Impls_agree_superscalar4 :
    16 ∣ (List.replicate 16 (0xFFFFFFFF : UInt32)).length ∧
      fletcher4NativeImpl fletcher4Superscalar4Ops (List.replicate 16 0xFFFFFFFF) =
        fletcher4ScalarNative zero (List.replicate 16 0xFFFFFFFF) ∧
      fletcher4ByteswapImpl fletcher4Superscalar4Ops (List.replicate 16 0xFFFFFFFF) =
        fletcher4ScalarByteswap zero (List.replicate 16 0xFFFFFFFF) :=
  ⟨by simp, fletcher4Impls_agree _ (by simp [fletcher4Impls]) _ (by simp)⟩

/-! ## `fletcher_4_native` and `fletcher_4_byteswap` -/

/-- `FLETCHER_MIN_SIMD_SIZE`: the implementations run over whole 64-byte blocks. -/
def fletcherMinSimdSize : ℕ := 64

/-- The body shared by `fletcher_4_native` and `fletcher_4_byteswap`: the implementation over the
64-byte-aligned prefix of the buffer of `size = 4 · length` bytes, then the scalar code over the
tail, continuing from the prefix's checksum. -/
def fletcher4Split (impl : List UInt32 → ZioCksum) (scalar : ZioCksum → List UInt32 → ZioCksum)
    (buf : List UInt32) : ZioCksum :=
  let size := 4 * buf.length
  let p2size := p2align size fletcherMinSimdSize
  if size = 0 ∨ p2size = 0 then
    if size > 0 then scalar zero buf else zero
  else
    let zcp := impl (buf.take (p2size / 4))
    if p2size < size then scalar zcp (buf.drop (p2size / 4)) else zcp

/-- `fletcher_4_native`, with `ops` the implementation `fletcher_4_impl_get` returns. -/
def fletcher4Native (ops : Fletcher4Ops) : List UInt32 → ZioCksum :=
  fletcher4Split (fletcher4NativeImpl ops) fletcher4ScalarNative

/-- `fletcher_4_byteswap`. -/
def fletcher4Byteswap (ops : Fletcher4Ops) : List UInt32 → ZioCksum :=
  fletcher4Split (fletcher4ByteswapImpl ops) fletcher4ScalarByteswap

/-- The words of the aligned prefix are a multiple of 16. -/
theorem p2align_div_four (n : ℕ) : p2align (4 * n) fletcherMinSimdSize / 4 = n / 16 * 16 := by
  unfold p2align fletcherMinSimdSize
  omega

/-- If the implementation agrees with a scalar code on whole blocks, and the scalar code is the
recurrence over the words read through `g`, the split computes the scalar code over the whole
buffer. -/
theorem fletcher4Split_eq {impl : List UInt32 → ZioCksum}
    {scalar : ZioCksum → List UInt32 → ZioCksum} (g : UInt32 → UInt32)
    (hscalar : ∀ ctx ws, scalar ctx ws = fletcher4ScalarNative ctx (ws.map g))
    (himpl : ∀ ws : List UInt32, 16 ∣ ws.length → impl ws = scalar zero ws) (buf : List UInt32) :
    fletcher4Split impl scalar buf = scalar zero buf := by
  have happ : ∀ ctx xs ys, scalar ctx (xs ++ ys) = scalar (scalar ctx xs) ys := by
    intro ctx xs ys
    simp only [hscalar, List.map_append, fletcher4ScalarNative_append]
  have hblocks : 16 ∣ (buf.take (buf.length / 16 * 16)).length := by
    rw [List.length_take, min_eq_left (Nat.div_mul_le_self _ _)]
    exact Nat.dvd_mul_left 16 _
  simp only [fletcher4Split, p2align_div_four]
  split_ifs with h0 hpos hlt
  · rfl
  · -- an empty buffer: `ZIO_SET_CHECKSUM(zcp, 0, 0, 0, 0)` is the scalar result
    obtain rfl : buf = [] := List.eq_nil_of_length_eq_zero (by omega)
    simp [hscalar]
  · rw [himpl _ hblocks, ← happ, List.take_append_drop]
  · have hfull : buf.length ≤ buf.length / 16 * 16 := by
      unfold p2align fletcherMinSimdSize at hlt
      omega
    rw [himpl _ hblocks, List.take_of_length_le hfull]

theorem fletcher4Native_eq {ops : Fletcher4Ops} (h : ops.Agrees) (buf : List UInt32) :
    fletcher4Native ops buf = fletcher4ScalarNative zero buf :=
  fletcher4Split_eq id (fun _ _ => by rw [List.map_id]) (fun ws hw => (h ws hw).1) buf

theorem fletcher4Byteswap_eq {ops : Fletcher4Ops} (h : ops.Agrees) (buf : List UInt32) :
    fletcher4Byteswap ops buf = fletcher4ScalarByteswap zero buf :=
  fletcher4Split_eq bswap32 fletcher4ScalarByteswap_eq (fun ws hw => (h ws hw).2) buf

/-- An empty buffer has the zero checksum, whatever the implementation: `fletcher_4_native` sets
it without calling one. -/
@[simp] theorem fletcher4Native_nil (ops : Fletcher4Ops) : fletcher4Native ops [] = zero := by
  simp [fletcher4Native, fletcher4Split]

@[simp] theorem fletcher4Byteswap_nil (ops : Fletcher4Ops) : fletcher4Byteswap ops [] = zero := by
  simp [fletcher4Byteswap, fletcher4Split]

/-! ## The incremental checksum -/

/-- `ZFS_FLETCHER_4_INC_MAX_SIZE`: the largest piece combined at once. -/
def zfsFletcher4IncMaxSize : ℕ := 8 <<< 20

/-- The constants `c1`, `c2`, `c3` of `fletcher_4_incremental_combine` for a piece of `size`
bytes, in 64-bit arithmetic. -/
def fletcher4CombineCoeffs (size : UInt64) : UInt64 × UInt64 × UInt64 :=
  let c1 := size / 4
  let c2 := c1 * (c1 + 1) / 2
  let c3 := c2 * (c1 + 2) / 3
  (c1, c2, c3)

/-- `fletcher_4_incremental_combine`: fold the checksum `nzcp` of a piece of `size` bytes,
computed from zero, into the running checksum `zcp`.  Each word is updated from the old ones. -/
def fletcher4IncrementalCombine (zcp : ZioCksum) (size : UInt64) (nzcp : ZioCksum) : ZioCksum :=
  match fletcher4CombineCoeffs size with
  | (c1, c2, c3) =>
    ⟨zcp.word0 + nzcp.word0,
      zcp.word1 + (nzcp.word1 + c1 * zcp.word0),
      zcp.word2 + (nzcp.word2 + c1 * zcp.word1 + c2 * zcp.word0),
      zcp.word3 + (nzcp.word3 + c1 * zcp.word2 + c2 * zcp.word1 + c3 * zcp.word0)⟩

/-- `fletcher_4_incremental_impl`: pieces of at most `ZFS_FLETCHER_4_INC_MAX_SIZE` bytes, the
`k`-th checksummed by `fletcher_4_native` (or `_byteswap`) with the implementation `sel k` that
`fletcher_4_impl_get` returns for it, and combined into `zcp`. -/
def fletcher4IncrementalImpl (native : Bool) (sel : ℕ → Fletcher4Ops) (zcp : ZioCksum)
    (buf : List UInt32) : ZioCksum :=
  (strideLoop (zfsFletcher4IncMaxSize / 4)
    (fun (s : ZioCksum × ℕ) ip =>
      let len := ip.take (zfsFletcher4IncMaxSize / 4)
      let nzc := if native then fletcher4Native (sel s.2) len else fletcher4Byteswap (sel s.2) len
      (fletcher4IncrementalCombine s.1 (UInt64.ofNat (4 * len.length)) nzc, s.2 + 1))
    (zcp, 0) buf).1

/-- The body shared by `fletcher_4_incremental_native` and `_byteswap`: buffers under
`SPA_MINBLOCKSIZE` bytes update `zcp` with the scalar code directly. -/
def fletcher4Incremental (native : Bool) (sel : ℕ → Fletcher4Ops) (zcp : ZioCksum)
    (buf : List UInt32) : ZioCksum :=
  if 4 * buf.length < spaMinblocksize then
    if native then fletcher4ScalarNative zcp buf else fletcher4ScalarByteswap zcp buf
  else fletcher4IncrementalImpl native sel zcp buf

/-- `fletcher_4_incremental_native`. -/
def fletcher4IncrementalNative : (ℕ → Fletcher4Ops) → ZioCksum → List UInt32 → ZioCksum :=
  fletcher4Incremental true

/-- `fletcher_4_incremental_byteswap`. -/
def fletcher4IncrementalByteswap : (ℕ → Fletcher4Ops) → ZioCksum → List UInt32 → ZioCksum :=
  fletcher4Incremental false

/-- `c3` is the tetrahedral number `n(n+1)(n+2)/6`. -/
theorem combineC3_eq (n : ℕ) : combineC3 n = n * (n + 1) * (n + 2) / 6 := by
  have h2 := two_mul_combineC2 n
  have h3 := three_mul_combineC3 n
  have h6 : n * (n + 1) * (n + 2) = 6 * combineC3 n := by
    calc n * (n + 1) * (n + 2) = 2 * combineC2 n * (n + 2) := by rw [h2]
      _ = 2 * (3 * combineC3 n) := by rw [h3, mul_assoc]
      _ = 6 * combineC3 n := by ring
  rw [h6, Nat.mul_div_cancel_left _ (by norm_num)]

/-- Neither product of the combine constants wraps for a piece of at most `2^21` words. -/
theorem combine_products_lt {n : ℕ} (h : n ≤ 2 ^ 21) :
    n * (n + 1) < 2 ^ 64 ∧ combineC2 n * (n + 2) < 2 ^ 64 := by
  have h1 : n * (n + 1) ≤ 2 ^ 21 * (2 ^ 21 + 1) := Nat.mul_le_mul h (by omega)
  have h2 : 2 * combineC2 n ≤ 2 ^ 21 * (2 ^ 21 + 1) := two_mul_combineC2 n ▸ h1
  refine ⟨lt_of_le_of_lt h1 (by norm_num), ?_⟩
  calc combineC2 n * (n + 2) ≤ 2 ^ 42 * (2 ^ 21 + 2) := Nat.mul_le_mul (by omega) (by omega)
    _ < 2 ^ 64 := by norm_num

/-- **The combine constants are exact** for every piece of at most `2^21` words: no product
wraps before its division. -/
theorem fletcher4CombineCoeffs_exact {n : ℕ} (h : n ≤ 2 ^ 21) :
    fletcher4CombineCoeffs (UInt64.ofNat (4 * n)) =
      (UInt64.ofNat n, UInt64.ofNat (combineC2 n), UInt64.ofNat (combineC3 n)) := by
  obtain ⟨h2, h3⟩ := combine_products_lt h
  have e1 : UInt64.ofNat (4 * n) / 4 = UInt64.ofNat n :=
    UInt64.toNat_inj.mp (by simp [UInt64.toNat_div]; omega)
  have e2 : UInt64.ofNat n * (UInt64.ofNat n + 1) / 2 = UInt64.ofNat (combineC2 n) := by
    apply UInt64.toNat_inj.mp
    simp [UInt64.toNat_div, UInt64.toNat_mul, UInt64.toNat_add, combineC2]
    omega
  have e3 :
      UInt64.ofNat (combineC2 n) * (UInt64.ofNat n + 2) / 3 = UInt64.ofNat (combineC3 n) := by
    apply UInt64.toNat_inj.mp
    simp [UInt64.toNat_div, UInt64.toNat_mul, UInt64.toNat_add, combineC3]
    omega
  simp only [fletcher4CombineCoeffs, e1, e2, e3]

/-- The constants as numbers: `n`, `n(n+1)/2` and `n(n+1)(n+2)/6`. -/
theorem toNat_fletcher4CombineCoeffs {n : ℕ} (h : n ≤ 2 ^ 21) :
    (fletcher4CombineCoeffs (UInt64.ofNat (4 * n))).1.toNat = n ∧
      (fletcher4CombineCoeffs (UInt64.ofNat (4 * n))).2.1.toNat = n * (n + 1) / 2 ∧
      (fletcher4CombineCoeffs (UInt64.ofNat (4 * n))).2.2.toNat = n * (n + 1) * (n + 2) / 6 := by
  obtain ⟨h2, h3⟩ := combine_products_lt h
  have hc2 : combineC2 n ≤ n * (n + 1) := Nat.div_le_self _ _
  have hc3 : combineC3 n ≤ combineC2 n * (n + 2) := Nat.div_le_self _ _
  rw [fletcher4CombineCoeffs_exact h, ← combineC3_eq]
  refine ⟨?_, ?_, ?_⟩ <;> simp only [UInt64.toNat_ofNat', combineC2] <;> omega

/-- **Combining is continuing the recurrence**: for a piece of at most `2^21` words, folding its
checksum from zero into `zcp` gives the checksum continued from `zcp` over the piece. -/
theorem fletcher4IncrementalCombine_eq (zcp : ZioCksum) {ws : List UInt32}
    (h : ws.length ≤ 2 ^ 21) :
    fletcher4IncrementalCombine zcp (UInt64.ofNat (4 * ws.length)) (fletcher4ScalarNative zero ws) =
      fletcher4ScalarNative zcp ws := by
  rw [fletcher4ScalarNative_eq_shift_add zcp ws, fletcher4IncrementalCombine,
    fletcher4CombineCoeffs_exact h]
  apply ZioCksum.ext <;> simp only [shift, add_word0, add_word1, add_word2, add_word3] <;> ring

/-! ## Incremental equals one-shot -/

/-- How the word stream is read: as stored, or each word byte-swapped. -/
def readWord : Bool → UInt32 → UInt32
  | true => id
  | false => bswap32

theorem fletcher4Scalar_readWord (native : Bool) (zcp : ZioCksum) (buf : List UInt32) :
    (if native then fletcher4ScalarNative zcp buf else fletcher4ScalarByteswap zcp buf) =
      fletcher4ScalarNative zcp (buf.map (readWord native)) := by
  cases native
  · exact fletcher4ScalarByteswap_eq zcp buf
  · rw [if_pos rfl, readWord, List.map_id]

theorem fletcher4OneShot_eq {ops : Fletcher4Ops} (h : ops.Agrees) (native : Bool)
    (buf : List UInt32) :
    (if native then fletcher4Native ops buf else fletcher4Byteswap ops buf) =
      fletcher4ScalarNative zero (buf.map (readWord native)) := by
  rw [← fletcher4Scalar_readWord]
  cases native
  · exact fletcher4Byteswap_eq h buf
  · exact fletcher4Native_eq h buf

/-- The loop of `fletcher_4_incremental_impl` continues the recurrence from `zcp`, whichever
implementation each piece gets. -/
theorem fletcher4IncrementalImpl_eq (native : Bool) {sel : ℕ → Fletcher4Ops}
    (hsel : ∀ k, (sel k).Agrees) (zcp : ZioCksum) (buf : List UInt32) :
    fletcher4IncrementalImpl native sel zcp buf =
      fletcher4ScalarNative zcp (buf.map (readWord native)) := by
  -- one turn combines one piece; no invariant on the words left is needed
  refine strideLoop_sim (by decide) _ Prod.fst (readWord native) (fun _ => True)
    (fun _ _ _ => trivial) ?_ (zcp, 0) buf trivial
  rintro ⟨s, k⟩ ws - -
  have hlen : ((ws.take (zfsFletcher4IncMaxSize / 4)).map (readWord native)).length ≤ 2 ^ 21 := by
    rw [List.length_map]
    exact (List.length_take_le _ _).trans (by decide)
  have hcomb := fletcher4IncrementalCombine_eq s hlen
  rw [List.length_map] at hcomb
  simp only
  rw [fletcher4OneShot_eq (hsel k), hcomb]

theorem fletcher4Incremental_eq (native : Bool) {sel : ℕ → Fletcher4Ops}
    (hsel : ∀ k, (sel k).Agrees) (zcp : ZioCksum) (buf : List UInt32) :
    fletcher4Incremental native sel zcp buf =
      fletcher4ScalarNative zcp (buf.map (readWord native)) := by
  rw [fletcher4Incremental]
  split
  · exact fletcher4Scalar_readWord native zcp buf
  · exact fletcher4IncrementalImpl_eq native hsel zcp buf

/-- Feeding the pieces of a buffer in order continues the recurrence over their concatenation. -/
theorem foldl_fletcher4Incremental (native : Bool) {sel : ℕ → Fletcher4Ops}
    (hsel : ∀ k, (sel k).Agrees) (zcp : ZioCksum) (chunks : List (List UInt32)) :
    chunks.foldl (fletcher4Incremental native sel) zcp =
      fletcher4ScalarNative zcp (chunks.flatten.map (readWord native)) := by
  induction chunks generalizing zcp with
  | nil => rfl
  | cons c cs ih =>
    rw [List.foldl_cons, ih, fletcher4Incremental_eq native hsel, List.flatten_cons,
      List.map_append, fletcher4ScalarNative_append]

/-- **Incremental equals one-shot.**  With any implementations `fletcher_4_impl_get` returns,
starting from zero and applying `fletcher_4_incremental_native` (resp. `_byteswap`) to the pieces
of a buffer in order gives `fletcher_4_native` (resp. `fletcher_4_byteswap`) of the whole, which
is the scalar recurrence over all its words; the constants of `fletcher_4_incremental_combine`
are exact for every piece of at most `ZFS_FLETCHER_4_INC_MAX_SIZE` bytes, and combining such a
piece's checksum continues the recurrence over it. -/
theorem fletcher4Incremental_chunks {ops : Fletcher4Ops} (hops : ops ∈ fletcher4Impls)
    {sel : ℕ → Fletcher4Ops} (hsel : ∀ k, sel k ∈ fletcher4Impls) (chunks : List (List UInt32)) :
    chunks.foldl (fletcher4IncrementalNative sel) zero = fletcher4Native ops chunks.flatten ∧
      chunks.foldl (fletcher4IncrementalByteswap sel) zero =
        fletcher4Byteswap ops chunks.flatten ∧
      fletcher4Native ops chunks.flatten = fletcher4ScalarNative zero chunks.flatten ∧
      fletcher4Byteswap ops chunks.flatten = fletcher4ScalarByteswap zero chunks.flatten ∧
      (∀ n, 4 * n ≤ zfsFletcher4IncMaxSize →
        (fletcher4CombineCoeffs (UInt64.ofNat (4 * n))).1.toNat = n ∧
          (fletcher4CombineCoeffs (UInt64.ofNat (4 * n))).2.1.toNat = n * (n + 1) / 2 ∧
          (fletcher4CombineCoeffs (UInt64.ofNat (4 * n))).2.2.toNat =
            n * (n + 1) * (n + 2) / 6) ∧
      (∀ (zcp : ZioCksum) (ws : List UInt32), 4 * ws.length ≤ zfsFletcher4IncMaxSize →
        fletcher4IncrementalCombine zcp (UInt64.ofNat (4 * ws.length))
          (fletcher4ScalarNative zero ws) = fletcher4ScalarNative zcp ws) := by
  have hagree := agrees_of_mem_fletcher4Impls hops
  have hsel' : ∀ k, (sel k).Agrees := fun k => agrees_of_mem_fletcher4Impls (hsel k)
  have hmax : ∀ n, 4 * n ≤ zfsFletcher4IncMaxSize → n ≤ 2 ^ 21 := by
    intro n hn
    unfold zfsFletcher4IncMaxSize at hn
    omega
  refine ⟨?_, ?_, fletcher4Native_eq hagree _, fletcher4Byteswap_eq hagree _,
    fun n hn => toNat_fletcher4CombineCoeffs (hmax n hn),
    fun zcp ws hn => fletcher4IncrementalCombine_eq zcp (hmax _ hn)⟩
  · rw [fletcher4Native_eq hagree, fletcher4IncrementalNative,
      foldl_fletcher4Incremental true hsel', readWord, List.map_id]
  · rw [fletcher4Byteswap_eq hagree, fletcher4IncrementalByteswap,
      foldl_fletcher4Incremental false hsel', fletcher4ScalarByteswap_eq, readWord]

theorem fletcher4Incremental_chunks_sse2 :
    fletcher4Superscalar4Ops ∈ fletcher4Impls ∧ (∀ _ : ℕ, fletcher4Sse2Ops ∈ fletcher4Impls) ∧
      ([[1, 2], [3]] : List (List UInt32)).foldl
          (fletcher4IncrementalNative fun _ => fletcher4Sse2Ops) zero =
        fletcher4Native fletcher4Superscalar4Ops [1, 2, 3] := by
  refine ⟨by simp [fletcher4Impls], fun _ => by simp [fletcher4Impls], ?_⟩
  exact (@fletcher4Incremental_chunks fletcher4Superscalar4Ops (by simp [fletcher4Impls])
    (fun _ => fletcher4Sse2Ops) (fun _ => by simp [fletcher4Impls]) [[1, 2], [3]]).1

end Zfs
