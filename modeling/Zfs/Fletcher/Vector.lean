import Zfs.Fletcher.Lanes
import Zfs.Simd.Register
import Mathlib.Tactic.FinCases

/-!
# Fletcher/Vector — the SSE2, SSSE3, AVX2, AVX-512F and NEON Fletcher-4 loops

Each compute function restores the lane context into four registers, runs its loop of
instructions over the buffer, and saves the registers back.  Every turn ends with the same chain
of four 64-bit additions (`paddChain`); what differs is how the turn brings the buffer's words
into a register of zero-extended 32-bit lanes:

* SSE2 and NEON load four words and split them with `punpckldq`/`punpckhdq` (`zip1`/`zip2`)
  against a zero register, giving two two-lane steps per turn;
* AVX2 and AVX-512F load four or eight words with `vpmovzxdq`, one step per turn;
* the byte-swapping variants swap with `pshufb`/`vpshufb` masks, `rev32`, shifts and masks
  (AVX-512F), or `BSWAP_32` before `movd` (SSE2).

`pshufb_ssse3Mask`, `pshufb_avx2Mask`, `rev32_loadDwords` and `avx512fBswap_vpmovzxdq` show that
each swap is `BSWAP_32` on every word, and the `_step` lemmas reduce every turn to `laneStep`.
-/

open Simd

open scoped UInt64.CommRing

namespace Zfs

/-- The lane numerals of four-accumulator contexts and of eight-lane registers take these
instances. -/
theorem neZero_four : NeZero (4 : ℕ) := ⟨by decide⟩

theorem neZero_eight : NeZero (8 : ℕ) := ⟨by decide⟩

attribute [local instance] neZero_four neZero_eight

/-- `getD` through a map that fixes the default. -/
theorem getD_map_bswap32 (ws : List UInt32) (i : ℕ) :
    (ws.map bswap32).getD i 0 = bswap32 (ws.getD i 0) := by
  rw [List.getD_eq_getElem?_getD, List.getElem?_map, List.getD_eq_getElem?_getD]
  cases ws[i]? <;> rfl

/-! ## The addition chain -/

/-- The four additions that end each turn: `paddq x, r0; paddq r0, r1; paddq r1, r2;
paddq r2, r3`, the accumulators `a`, `b`, `c`, `d` in registers 0 to 3. -/
def paddChain {n : ℕ} (acc : LaneCtx n) (x : Vreg n) : LaneCtx n :=
  let r0 := paddq (acc 0) x
  let r1 := paddq (acc 1) r0
  let r2 := paddq (acc 2) r1
  ![r0, r1, r2, paddq (acc 3) r2]

/-- On zero-extended words the chain is one lane step. -/
theorem paddChain_vpmovzxdq {n : ℕ} (acc : LaneCtx n) (ws : List UInt32) :
    paddChain acc (vpmovzxdq ws) = laneStep acc fun j => ws.getD j 0 := by
  funext i j
  fin_cases i <;> rfl

/-! ## Bringing words into zero-extended lanes -/

theorem interleaveLo_loadDwords_zero (ws : List UInt32) :
    interleaveLo (loadDwords ws) zero = vpmovzxdq ws := by
  funext q
  fin_cases q <;> simp [interleaveLo, loadDwords, vpmovzxdq, zero, pack_zero]

theorem interleaveHi_loadDwords_zero (ws : List UInt32) :
    interleaveHi (loadDwords ws) zero = vpmovzxdq (ws.drop 2) := by
  funext q
  fin_cases q <;> simp [interleaveHi, loadDwords, vpmovzxdq, zero, pack_zero]

theorem punpcklqdq_movd (x y : UInt32) : punpcklqdq (movd x) (movd y) = vpmovzxdq [x, y] := by
  funext q
  fin_cases q <;> rfl

/-! ## The byte swaps -/

/-- The `pshufb` mask of `fletcher_4_ssse3_byteswap`. -/
def ssse3Mask : Vreg 2 := ![0x0405060700010203, 0x0C0D0E0F08090A0B]

/-- The `vpshufb` mask of `fletcher_4_avx2_byteswap`. -/
def avx2Mask : Vreg 4 :=
  ![0xFFFFFFFF00010203, 0xFFFFFFFF08090A0B, 0xFFFFFFFF00010203, 0xFFFFFFFF08090A0B]

theorem byte_ssse3Mask {i : ℕ} (h : i < 16) :
    byte ssse3Mask i = UInt64.ofNat (4 * (i / 4) + (3 - i % 4)) := by
  interval_cases i <;> decide

theorem byte_avx2Mask {i : ℕ} (h : i < 32) :
    byte avx2Mask i = if i % 8 < 4 then UInt64.ofNat (8 * (i / 8 % 2) + (3 - i % 8)) else 0xFF := by
  interval_cases i <;> decide

/-- **The SSSE3 mask swaps the bytes of every word.** -/
theorem pshufb_ssse3Mask (ws : List UInt32) :
    pshufb (loadDwords ws : Vreg 2) ssse3Mask = loadDwords (ws.map bswap32) := by
  funext q
  apply UInt64.toNat_inj.mp
  have hb : ∀ b, (if byte ssse3Mask (8 * q.val + b) &&& 0x80 = 0 then
      byte (loadDwords ws : Vreg 2) (16 * ((8 * q.val + b) / 16) +
        (byte ssse3Mask (8 * q.val + b) &&& 0x0f).toNat) else 0).toNat < 2 ^ 8 := by
    intro b
    split
    · exact byte_lt _ _
    · simp
  rw [pshufb, toNat_ofBytes _ hb, loadDwords, toNat_pack, getD_map_bswap32, getD_map_bswap32,
    toNat_bswap32, toNat_bswap32]
  fin_cases q
  · have := (ws[0]?.getD 0).toNat_lt
    have := (ws[1]?.getD 0).toNat_lt
    simp +decide [toNat_byte_loadDwords, byte_ssse3Mask]
    omega
  · have := (ws[2]?.getD 0).toNat_lt
    have := (ws[3]?.getD 0).toNat_lt
    simp +decide [toNat_byte_loadDwords, byte_ssse3Mask]
    omega

/-- **The AVX2 mask swaps the bytes of every zero-extended word.** -/
theorem pshufb_avx2Mask (ws : List UInt32) :
    pshufb (vpmovzxdq ws : Vreg 4) avx2Mask = vpmovzxdq (ws.map bswap32) := by
  funext q
  apply UInt64.toNat_inj.mp
  have hb : ∀ b, (if byte avx2Mask (8 * q.val + b) &&& 0x80 = 0 then
      byte (vpmovzxdq ws : Vreg 4) (16 * ((8 * q.val + b) / 16) +
        (byte avx2Mask (8 * q.val + b) &&& 0x0f).toNat) else 0).toNat < 2 ^ 8 := by
    intro b
    split
    · exact byte_lt _ _
    · simp
  rw [pshufb, toNat_ofBytes _ hb, vpmovzxdq, getD_map_bswap32, UInt32.toNat_toUInt64,
    toNat_bswap32]
  have := (ws.getD q.val 0).toNat_lt
  fin_cases q <;> simp +decide [toNat_byte_vpmovzxdq, byte_avx2Mask]

/-- **`rev32` swaps the bytes of every word.** -/
theorem rev32_loadDwords (ws : List UInt32) :
    rev32 (loadDwords ws : Vreg 2) = loadDwords (ws.map bswap32) := by
  funext q
  apply UInt64.toNat_inj.mp
  rw [rev32, toNat_ofBytes _ fun b => byte_lt _ _, loadDwords, toNat_pack, getD_map_bswap32,
    getD_map_bswap32, toNat_bswap32, toNat_bswap32]
  fin_cases q
  · have := (ws[0]?.getD 0).toNat_lt
    have := (ws[1]?.getD 0).toNat_lt
    simp [toNat_byte_loadDwords]
    omega
  · have := (ws[2]?.getD 0).toNat_lt
    have := (ws[3]?.getD 0).toNat_lt
    simp [toNat_byte_loadDwords]
    omega

/-- The AVX-512F byte swap of `fletcher_4_avx512f_byteswap`: with the masks `0xFF`,
`0xFF << 8`, `0xFF << 16` and `0xFF << 24` built once before the loop, each lane is
`(x >> 24) & m8 | (x >> 8) & m9 | (x << 8) & m10 | (x << 24) & m11`. -/
def avx512fBswap (zmm5 : Vreg 8) : Vreg 8 :=
  let zmm8 : Vreg 8 := vpbroadcastq 0xFF
  let zmm9 := vpsllq zmm8 8
  let zmm10 := vpsllq zmm8 16
  let zmm11 := vpsllq zmm8 24
  let zmm6 := vpandd (vpsrlq zmm5 24) zmm8
  let zmm7 := vpandd (vpsrlq zmm5 8) zmm9
  let zmm4 := vpord zmm7 zmm6
  let zmm6 := vpandd (vpsllq zmm5 8) zmm10
  let zmm4 := vpord zmm4 zmm6
  let zmm5 := vpandd (vpsllq zmm5 24) zmm11
  vpord zmm4 zmm5

/-- A mask of eight bits at position `k` keeps byte `k / 8` of the number in place. -/
theorem and_byte_mask (n k : ℕ) : n &&& (2 ^ 8 - 1) * 2 ^ k = n / 2 ^ k % 2 ^ 8 * 2 ^ k := by
  apply Nat.eq_of_testBit_eq
  intro i
  simp only [Nat.testBit_and, Nat.testBit_mul_two_pow, Nat.testBit_mod_two_pow,
    Nat.testBit_div_two_pow, Nat.testBit_two_pow_sub_one]
  by_cases h : k ≤ i
  · simp only [h, decide_true, Bool.true_and, Nat.sub_add_cancel h]
    cases n.testBit i <;> simp
  · simp [h]

/-- **The AVX-512F shifts and masks swap the bytes of every zero-extended word.** -/
theorem avx512fBswap_vpmovzxdq (ws : List UInt32) :
    avx512fBswap (vpmovzxdq ws) = vpmovzxdq (ws.map bswap32) := by
  funext q
  apply UInt64.toNat_inj.mp
  have hw := (ws.getD q.val 0).toNat_lt
  set w := (ws.getD q.val 0).toNat with hw_def
  have hx : ((vpmovzxdq ws : Vreg 8) q).toNat = w := UInt32.toNat_toUInt64 _
  have m8 : (0xFF : UInt64).toNat = (2 ^ 8 - 1) * 2 ^ 0 := rfl
  have m9 : ((0xFF : UInt64) <<< 8).toNat = (2 ^ 8 - 1) * 2 ^ 8 := rfl
  have m10 : ((0xFF : UInt64) <<< 16).toNat = (2 ^ 8 - 1) * 2 ^ 16 := rfl
  have m11 : ((0xFF : UInt64) <<< 24).toNat = (2 ^ 8 - 1) * 2 ^ 24 := rfl
  have t6 : (((vpmovzxdq ws : Vreg 8) q >>> 24) &&& 0xFF).toNat = w / 2 ^ 24 % 2 ^ 8 := by
    rw [UInt64.toNat_and, m8, and_byte_mask, UInt64.toNat_shiftRight, hx]
    simp [Nat.shiftRight_eq_div_pow]
  have t7 : (((vpmovzxdq ws : Vreg 8) q >>> 8) &&& ((0xFF : UInt64) <<< 8)).toNat =
      w / 2 ^ 16 % 2 ^ 8 * 2 ^ 8 := by
    rw [UInt64.toNat_and, m9, and_byte_mask, UInt64.toNat_shiftRight, hx]
    simp only [UInt64.reduceToNat, Nat.reduceMod, Nat.shiftRight_eq_div_pow, Nat.div_div_eq_div_mul]
    norm_num
  have t10 : (((vpmovzxdq ws : Vreg 8) q <<< 8) &&& ((0xFF : UInt64) <<< 16)).toNat =
      w / 2 ^ 8 % 2 ^ 8 * 2 ^ 16 := by
    rw [UInt64.toNat_and, m10, and_byte_mask, UInt64.toNat_shiftLeft, hx]
    simp only [UInt64.reduceToNat, Nat.reduceMod, Nat.shiftLeft_eq]
    omega
  have t11 : (((vpmovzxdq ws : Vreg 8) q <<< 24) &&& ((0xFF : UInt64) <<< 24)).toNat =
      w % 2 ^ 8 * 2 ^ 24 := by
    rw [UInt64.toNat_and, m11, and_byte_mask, UInt64.toNat_shiftLeft, hx]
    simp only [UInt64.reduceToNat, Nat.reduceMod, Nat.shiftLeft_eq]
    omega
  -- the four pieces occupy disjoint bytes, so each `or` is a sum
  have o1 : w / 2 ^ 16 % 2 ^ 8 * 2 ^ 8 ||| w / 2 ^ 24 % 2 ^ 8 =
      w / 2 ^ 16 % 2 ^ 8 * 2 ^ 8 + w / 2 ^ 24 % 2 ^ 8 :=
    mul_two_pow_or_of_lt (Nat.mod_lt _ (by norm_num))
  have o2 : w / 2 ^ 16 % 2 ^ 8 * 2 ^ 8 + w / 2 ^ 24 % 2 ^ 8 ||| w / 2 ^ 8 % 2 ^ 8 * 2 ^ 16 =
      w / 2 ^ 8 % 2 ^ 8 * 2 ^ 16 + (w / 2 ^ 16 % 2 ^ 8 * 2 ^ 8 + w / 2 ^ 24 % 2 ^ 8) := by
    rw [Nat.or_comm]
    exact mul_two_pow_or_of_lt (by omega)
  have o3 : w / 2 ^ 8 % 2 ^ 8 * 2 ^ 16 + (w / 2 ^ 16 % 2 ^ 8 * 2 ^ 8 + w / 2 ^ 24 % 2 ^ 8) |||
      w % 2 ^ 8 * 2 ^ 24 =
      w % 2 ^ 8 * 2 ^ 24 + (w / 2 ^ 8 % 2 ^ 8 * 2 ^ 16 + (w / 2 ^ 16 % 2 ^ 8 * 2 ^ 8 +
        w / 2 ^ 24 % 2 ^ 8)) := by
    rw [Nat.or_comm]
    exact mul_two_pow_or_of_lt (by omega)
  simp only [avx512fBswap, vpord, vpandd, vpsllq, vpsrlq, vpbroadcastq]
  rw [UInt64.toNat_or, UInt64.toNat_or, UInt64.toNat_or, t6, t7, t10, t11, o1, o2, o3]
  rw [vpmovzxdq, getD_map_bswap32, UInt32.toNat_toUInt64, toNat_bswap32, ← hw_def]
  omega

/-! ## One turn of each loop

The SSE2 native loop, the SSSE3 byte-swapping loop and both NEON loops share one turn: load four
words, shuffle their bytes (or not), split the pairs into zero-extended lanes, add each pair.
The AVX2 and AVX-512F loops share another: load zero-extended words, shuffle (or not), add. -/

/-- A turn of the two-lane loops: `movdqu`/`ld1`, then `pshufb` or `rev32` if byte-swapping,
then `punpckldq`/`zip1` and `punpckhdq`/`zip2` against the zero register, then two addition
chains. -/
def splitLoadTurn (shuffle : Vreg 2 → Vreg 2) (acc : LaneCtx 2) (ip : List UInt32) :
    LaneCtx 2 :=
  let src := shuffle (loadDwords ip)
  paddChain (paddChain acc (interleaveLo src zero)) (interleaveHi src zero)

/-- A turn of the AVX2 and AVX-512F loops: `vpmovzxdq`, the shuffle if byte-swapping, one
addition chain. -/
def zextLoadTurn {n : ℕ} (shuffle : Vreg n → Vreg n) (acc : LaneCtx n) (ip : List UInt32) :
    LaneCtx n :=
  paddChain acc (shuffle (vpmovzxdq ip))

/-- A turn of `fletcher_4_sse2_byteswap`: two words through `BSWAP_32`, `movd` each, join them
with `punpcklqdq`, one addition chain. -/
def sse2ByteswapTurn (acc : LaneCtx 2) (ip : List UInt32) : LaneCtx 2 :=
  let scratch1 := bswap32 (ip.getD 0 0)
  let scratch2 := bswap32 (ip.getD 1 0)
  paddChain acc (punpcklqdq (movd scratch1) (movd scratch2))

/-- `fletcher_4_sse2_native`. -/
def fletcher4Sse2Native : LaneCtx 2 → List UInt32 → LaneCtx 2 := strideLoop 4 (splitLoadTurn id)

/-- `fletcher_4_sse2_byteswap`. -/
def fletcher4Sse2Byteswap : LaneCtx 2 → List UInt32 → LaneCtx 2 := strideLoop 2 sse2ByteswapTurn

/-- `fletcher_4_ssse3_byteswap`. -/
def fletcher4Ssse3Byteswap : LaneCtx 2 → List UInt32 → LaneCtx 2 :=
  strideLoop 4 (splitLoadTurn fun r => pshufb r ssse3Mask)

/-- `fletcher_4_avx2_native`. -/
def fletcher4Avx2Native : LaneCtx 4 → List UInt32 → LaneCtx 4 := strideLoop 4 (zextLoadTurn id)

/-- `fletcher_4_avx2_byteswap`. -/
def fletcher4Avx2Byteswap : LaneCtx 4 → List UInt32 → LaneCtx 4 :=
  strideLoop 4 (zextLoadTurn fun r => pshufb r avx2Mask)

/-- `fletcher_4_avx512f_native`. -/
def fletcher4Avx512fNative : LaneCtx 8 → List UInt32 → LaneCtx 8 :=
  strideLoop 8 (zextLoadTurn id)

/-- `fletcher_4_avx512f_byteswap`. -/
def fletcher4Avx512fByteswap : LaneCtx 8 → List UInt32 → LaneCtx 8 :=
  strideLoop 8 (zextLoadTurn avx512fBswap)

/-- `fletcher_4_aarch64_neon_native`. -/
def fletcher4Aarch64NeonNative : LaneCtx 2 → List UInt32 → LaneCtx 2 :=
  strideLoop 4 (splitLoadTurn id)

/-- `fletcher_4_aarch64_neon_byteswap`. -/
def fletcher4Aarch64NeonByteswap : LaneCtx 2 → List UInt32 → LaneCtx 2 :=
  strideLoop 4 (splitLoadTurn rev32)

/-! ## Every turn is one or two lane steps -/

theorem laneFini2_splitLoadTurn (shuffle : Vreg 2 → Vreg 2) (g : UInt32 → UInt32)
    (hshuf : ∀ ws, shuffle (loadDwords ws) = loadDwords (ws.map g)) (acc : LaneCtx 2)
    (ws : List UInt32) (h : 4 ≤ ws.length) :
    laneFini2 (splitLoadTurn shuffle acc ws) =
      fletcher4ScalarNative (laneFini2 acc) ((ws.take 4).map g) := by
  simp only [splitLoadTurn, hshuf, interleaveLo_loadDwords_zero, interleaveHi_loadDwords_zero,
    paddChain_vpmovzxdq, laneFini2_laneStep, ← fletcher4ScalarNative_append]
  match ws, h with
  | a :: b :: c :: d :: _, _ => rfl

theorem laneFini2_sse2ByteswapTurn (acc : LaneCtx 2) (ws : List UInt32) (h : 2 ≤ ws.length) :
    laneFini2 (sse2ByteswapTurn acc ws) =
      fletcher4ScalarNative (laneFini2 acc) ((ws.take 2).map bswap32) := by
  simp only [sse2ByteswapTurn, punpcklqdq_movd, paddChain_vpmovzxdq, laneFini2_laneStep]
  match ws, h with
  | a :: b :: _, _ => rfl

theorem zextLoadTurn_sim {n : ℕ} (F : LaneCtx n → ZioCksum)
    (hF : ∀ ctx x, F (laneStep ctx x) = fletcher4ScalarNative (F ctx) (List.ofFn x))
    (shuffle : Vreg n → Vreg n) (g : UInt32 → UInt32)
    (hshuf : ∀ ws, shuffle (vpmovzxdq ws) = vpmovzxdq (ws.map g)) (acc : LaneCtx n)
    (ws : List UInt32) (h : n ≤ ws.length) :
    F (zextLoadTurn shuffle acc ws) = fletcher4ScalarNative (F acc) ((ws.take n).map g) := by
  rw [zextLoadTurn, hshuf, paddChain_vpmovzxdq, hF,
    ofFn_getD_eq_take _ (by rw [List.length_map]; exact h), List.map_take]

/-! ## The AVX-512F mixing matrix -/

/-- `CcA` of `fletcher_4_avx512f_fini`. -/
def avx512CcA : Fin 8 → UInt64 := ![0, 0, 1, 3, 6, 10, 15, 21]
/-- `CcB`. -/
def avx512CcB : Fin 8 → UInt64 := ![28, 36, 44, 52, 60, 68, 76, 84]
/-- `DcA`. -/
def avx512DcA : Fin 8 → UInt64 := ![0, 0, 0, 1, 4, 10, 20, 35]
/-- `DcB`. -/
def avx512DcB : Fin 8 → UInt64 := ![56, 84, 120, 164, 216, 276, 344, 420]
/-- `DcC`. -/
def avx512DcC : Fin 8 → UInt64 := ![448, 512, 576, 640, 704, 768, 832, 896]

/-- `fletcher_4_avx512f_fini`: lane 0 first, then `for (i = 1; i < 8; i++)` adds lane `i`. -/
def fletcher4Avx512fFini (ctx : LaneCtx 8) : ZioCksum :=
  ([1, 2, 3, 4, 5, 6, 7] : List (Fin 8)).foldl
    (fun s i => ⟨s.word0 + ctx 0 i,
      s.word1 + (8 * ctx 1 i - UInt64.ofNat i.val * ctx 0 i),
      s.word2 + (64 * ctx 2 i - avx512CcB i * ctx 1 i + avx512CcA i * ctx 0 i),
      s.word3 + (512 * ctx 3 i - avx512DcC i * ctx 2 i + avx512DcB i * ctx 1 i -
        avx512DcA i * ctx 0 i)⟩)
    ⟨ctx 0 0, 8 * ctx 1 0, 64 * ctx 2 0 - avx512CcB 0 * ctx 1 0,
      512 * ctx 3 0 - avx512DcC 0 * ctx 2 0 + avx512DcB 0 * ctx 1 0⟩

theorem fletcher4Avx512fFini_laneInit : fletcher4Avx512fFini (laneInit 8) = ZioCksum.zero := by
  apply ZioCksum.ext <;> simp [fletcher4Avx512fFini]

/-- **Eight lanes.**  The AVX-512F mixing matrix after one step is eight scalar steps. -/
theorem fletcher4Avx512fFini_laneStep (ctx : LaneCtx 8) (x : Fin 8 → UInt32) :
    fletcher4Avx512fFini (laneStep ctx x) =
      fletcher4ScalarNative (fletcher4Avx512fFini ctx) (List.ofFn x) := by
  apply ZioCksum.ext <;>
    simp [fletcher4Avx512fFini, avx512CcA, avx512CcB, avx512DcA, avx512DcB, avx512DcC,
      fletcher4ScalarNative, fletcher4Step, List.ofFn_succ]
  <;> ring

/-! ## Each compute function checksums whole turns

Restore and save move the context in and out of the accumulator registers unchanged, so each
compute function, read through its mixing matrix, is the scalar recurrence from the mixed
context over every buffer of whole turns. -/

section Sim

variable (ctx2 : LaneCtx 2) (ctx4 : LaneCtx 4) (ctx8 : LaneCtx 8) (buf : List UInt32)

theorem fletcher4Sse2Native_sim (h : 4 ∣ buf.length) :
    laneFini2 (fletcher4Sse2Native ctx2 buf) = fletcher4ScalarNative (laneFini2 ctx2) buf := by
  have := strideLoop_sim_dvd (by norm_num) (splitLoadTurn id) laneFini2 id
    (laneFini2_splitLoadTurn id id fun ws => by simp) ctx2 buf h
  rwa [List.map_id] at this

theorem fletcher4Sse2Byteswap_sim (h : 2 ∣ buf.length) :
    laneFini2 (fletcher4Sse2Byteswap ctx2 buf) =
      fletcher4ScalarByteswap (laneFini2 ctx2) buf := by
  rw [fletcher4ScalarByteswap_eq]
  exact strideLoop_sim_dvd (by norm_num) sse2ByteswapTurn laneFini2 bswap32
    laneFini2_sse2ByteswapTurn ctx2 buf h

theorem fletcher4Ssse3Byteswap_sim (h : 4 ∣ buf.length) :
    laneFini2 (fletcher4Ssse3Byteswap ctx2 buf) =
      fletcher4ScalarByteswap (laneFini2 ctx2) buf := by
  rw [fletcher4ScalarByteswap_eq]
  exact strideLoop_sim_dvd (by norm_num) _ laneFini2 bswap32
    (laneFini2_splitLoadTurn _ bswap32 pshufb_ssse3Mask) ctx2 buf h

theorem fletcher4Aarch64NeonNative_sim (h : 4 ∣ buf.length) :
    laneFini2 (fletcher4Aarch64NeonNative ctx2 buf) =
      fletcher4ScalarNative (laneFini2 ctx2) buf :=
  fletcher4Sse2Native_sim ctx2 buf h

theorem fletcher4Aarch64NeonByteswap_sim (h : 4 ∣ buf.length) :
    laneFini2 (fletcher4Aarch64NeonByteswap ctx2 buf) =
      fletcher4ScalarByteswap (laneFini2 ctx2) buf := by
  rw [fletcher4ScalarByteswap_eq]
  exact strideLoop_sim_dvd (by norm_num) _ laneFini2 bswap32
    (laneFini2_splitLoadTurn _ bswap32 rev32_loadDwords) ctx2 buf h

theorem fletcher4Avx2Native_sim (h : 4 ∣ buf.length) :
    laneFini4 (fletcher4Avx2Native ctx4 buf) = fletcher4ScalarNative (laneFini4 ctx4) buf := by
  have := strideLoop_sim_dvd (by norm_num) (zextLoadTurn id) laneFini4 id
    (zextLoadTurn_sim laneFini4 laneFini4_laneStep id id fun ws => by simp) ctx4 buf h
  rwa [List.map_id] at this

theorem fletcher4Avx2Byteswap_sim (h : 4 ∣ buf.length) :
    laneFini4 (fletcher4Avx2Byteswap ctx4 buf) =
      fletcher4ScalarByteswap (laneFini4 ctx4) buf := by
  rw [fletcher4ScalarByteswap_eq]
  exact strideLoop_sim_dvd (by norm_num) _ laneFini4 bswap32
    (zextLoadTurn_sim laneFini4 laneFini4_laneStep _ bswap32 pshufb_avx2Mask) ctx4 buf h

theorem fletcher4Avx512fNative_sim (h : 8 ∣ buf.length) :
    fletcher4Avx512fFini (fletcher4Avx512fNative ctx8 buf) =
      fletcher4ScalarNative (fletcher4Avx512fFini ctx8) buf := by
  have := strideLoop_sim_dvd (by norm_num) (zextLoadTurn id) fletcher4Avx512fFini id
    (zextLoadTurn_sim _ fletcher4Avx512fFini_laneStep id id fun ws => by simp) ctx8 buf h
  rwa [List.map_id] at this

theorem fletcher4Avx512fByteswap_sim (h : 8 ∣ buf.length) :
    fletcher4Avx512fFini (fletcher4Avx512fByteswap ctx8 buf) =
      fletcher4ScalarByteswap (fletcher4Avx512fFini ctx8) buf := by
  rw [fletcher4ScalarByteswap_eq]
  exact strideLoop_sim_dvd (by norm_num) _ fletcher4Avx512fFini bswap32
    (zextLoadTurn_sim _ fletcher4Avx512fFini_laneStep _ bswap32 avx512fBswap_vpmovzxdq) ctx8
    buf h

end Sim

end Zfs
