import Mathlib
import Zfs.Spl.Byteorder

/-!
# Simd/Register — vector registers as 64-bit lanes, and the instructions that move words

A register is read as its 64-bit lanes (`Vreg n`: `n = 2` for an `xmm` or NEON `v` register, `4`
for `ymm`, `8` for `zmm`), little-endian: the 32-bit element `2q` is the low half of lane `q`, and
byte `i` is byte `i % 8` of lane `i / 8`.  Each instruction is given its architectural meaning on
that view; memory operands are the list of 32-bit words starting at the address.

The lemmas read registers back as numbers: `toNat_pack`, `toNat_byte` and `toNat_ofBytes` turn
the packing, byte selection and byte assembly into arithmetic that `omega` can close.
-/

namespace Simd

/-- A register of two lanes has a lane 0: the named instance its lane numerals use. -/
theorem neZero_two : NeZero (2 : ℕ) := ⟨by decide⟩

attribute [local instance] neZero_two

/-- A vector register of `n` 64-bit lanes. -/
def Vreg (n : ℕ) := Fin n → UInt64

/-! ## Lanes, elements and bytes -/

/-- A 64-bit lane holding the 32-bit elements `lo` (low half) and `hi`. -/
def pack (lo hi : UInt32) : UInt64 := lo.toUInt64 ||| (hi.toUInt64 <<< 32)

/-- The low 32-bit element of a lane. -/
def lo32 (q : UInt64) : UInt32 := q.toUInt32

/-- The high 32-bit element of a lane. -/
def hi32 (q : UInt64) : UInt32 := (q >>> 32).toUInt32

/-- Byte `b` (`b < 8`) of a lane, zero-extended. -/
def laneByte (q : UInt64) (b : ℕ) : UInt64 := (q >>> UInt64.ofNat (8 * b)) &&& 0xff

/-- Byte `i` of a register; bytes past its width read `0`. -/
def byte {n : ℕ} (r : Vreg n) (i : ℕ) : UInt64 :=
  if h : i / 8 < n then laneByte (r ⟨i / 8, h⟩) (i % 8) else 0

/-- The lane whose bytes `0, …, b - 1` are `f 0, …, f (b - 1)`, the others clear. -/
def bytesUpTo (f : ℕ → UInt64) : ℕ → UInt64
  | 0 => 0
  | b + 1 => bytesUpTo f b ||| f b <<< UInt64.ofNat (8 * b)

/-- The lane whose byte `b` is `f b`, for `b < 8`. -/
def ofBytes (f : ℕ → UInt64) : UInt64 := bytesUpTo f 8

/-! ## The instructions -/

/-- The all-zero register (`pxor x, x`, `eor v.16b, v.16b, v.16b`). -/
def zero {n : ℕ} : Vreg n := fun _ => 0

/-- A full-width load of consecutive 32-bit words (`movdqu`, `vmovdqu`, `ld1 {v.4s}`). -/
def loadDwords {n : ℕ} (ws : List UInt32) : Vreg n :=
  fun q => pack (ws.getD (2 * q) 0) (ws.getD (2 * q + 1) 0)

/-- `vpmovzxdq`: `n` consecutive 32-bit words, each zero-extended into a lane. -/
def vpmovzxdq {n : ℕ} (ws : List UInt32) : Vreg n := fun q => (ws.getD q 0).toUInt64

/-- Lane-wise 64-bit addition (`paddq`, `vpaddq`, `add v.2d`). -/
def paddq {n : ℕ} (a b : Vreg n) : Vreg n := fun q => a q + b q

/-- Interleave the low 32-bit elements of two registers, `a`'s first: `punpckldq` with `a` the
destination, `zip1 .4s`. -/
def interleaveLo (a b : Vreg 2) : Vreg 2 :=
  ![pack (lo32 (a 0)) (lo32 (b 0)), pack (hi32 (a 0)) (hi32 (b 0))]

/-- Interleave the high 32-bit elements: `punpckhdq`, `zip2 .4s`. -/
def interleaveHi (a b : Vreg 2) : Vreg 2 :=
  ![pack (lo32 (a 1)) (lo32 (b 1)), pack (hi32 (a 1)) (hi32 (b 1))]

/-- `movd r32, xmm`: the word in the low element, the rest cleared. -/
def movd (x : UInt32) : Vreg 2 := ![x.toUInt64, 0]

/-- `punpcklqdq`: the low lanes of the destination and the source. -/
def punpcklqdq (a b : Vreg 2) : Vreg 2 := ![a 0, b 0]

/-- `pshufb` / `vpshufb`: byte `i` of the result is `0` if bit 7 of byte `i` of the mask is set,
and otherwise byte `mask[i] & 0xf` of the same 128-bit lane of the source. -/
def pshufb {n : ℕ} (src mask : Vreg n) : Vreg n := fun q =>
  ofBytes fun b =>
    let i := 8 * q + b
    let m := byte mask i
    if m &&& 0x80 = 0 then byte src (16 * (i / 16) + (m &&& 0x0f).toNat) else 0

/-- `rev32 v.16b`: the bytes of each 32-bit element reversed. -/
def rev32 {n : ℕ} (a : Vreg n) : Vreg n := fun q =>
  ofBytes fun b => byte a (8 * q + 4 * (b / 4) + (3 - b % 4))

/-- `vpsllq $s`: each lane shifted left. -/
def vpsllq {n : ℕ} (a : Vreg n) (s : UInt64) : Vreg n := fun q => a q <<< s

/-- `vpsrlq $s`: each lane shifted right. -/
def vpsrlq {n : ℕ} (a : Vreg n) (s : UInt64) : Vreg n := fun q => a q >>> s

/-- `vpandd`: bitwise and. -/
def vpandd {n : ℕ} (a b : Vreg n) : Vreg n := fun q => a q &&& b q

/-- `vpord`: bitwise or. -/
def vpord {n : ℕ} (a b : Vreg n) : Vreg n := fun q => a q ||| b q

/-- `vpbroadcastq r64`: the value in every lane. -/
def vpbroadcastq {n : ℕ} (x : UInt64) : Vreg n := fun _ => x

/-! ## Reading registers as numbers -/

theorem toNat_pack (lo hi : UInt32) : (pack lo hi).toNat = hi.toNat * 2 ^ 32 + lo.toNat := by
  have hlo := lo.toNat_lt
  have hhi := hi.toNat_lt
  rw [pack, UInt64.toNat_or, Nat.or_comm, UInt64.toNat_shiftLeft, UInt32.toNat_toUInt64,
    UInt32.toNat_toUInt64]
  simp only [UInt64.reduceToNat, Nat.reduceMod, Nat.shiftLeft_eq]
  rw [Nat.mod_eq_of_lt (by omega), Zfs.mul_two_pow_or_of_lt hlo]

@[simp] theorem lo32_pack (lo hi : UInt32) : lo32 (pack lo hi) = lo := by
  apply UInt32.toNat_inj.mp
  rw [lo32, UInt64.toNat_toUInt32, toNat_pack]
  have := lo.toNat_lt
  omega

@[simp] theorem hi32_pack (lo hi : UInt32) : hi32 (pack lo hi) = hi := by
  apply UInt32.toNat_inj.mp
  rw [hi32, UInt64.toNat_toUInt32, UInt64.toNat_shiftRight, toNat_pack]
  simp only [UInt64.reduceToNat, Nat.reduceMod, Nat.shiftRight_eq_div_pow]
  have := lo.toNat_lt
  have := hi.toNat_lt
  omega

@[simp] theorem lo32_zero : lo32 0 = 0 := rfl

@[simp] theorem hi32_zero : hi32 0 = 0 := rfl

/-- A zero-extended word is a lane with a clear high element. -/
theorem pack_zero (x : UInt32) : pack x 0 = x.toUInt64 := by
  apply UInt64.toNat_inj.mp
  rw [toNat_pack, UInt32.toNat_toUInt64]
  simp

/-- Byte `c` of a lane is byte `c` of its low element, or byte `c - 4` of its high one. -/
theorem toNat_pack_div_mod (lo hi : UInt32) {c : ℕ} (hc : c < 8) :
    (pack lo hi).toNat / 2 ^ (8 * c) % 2 ^ 8 =
      if c < 4 then lo.toNat / 2 ^ (8 * c) % 2 ^ 8 else hi.toNat / 2 ^ (8 * (c - 4)) % 2 ^ 8 := by
  have := lo.toNat_lt
  have := hi.toNat_lt
  rw [toNat_pack]
  interval_cases c <;> simp <;> omega

theorem toNat_laneByte (q : UInt64) {b : ℕ} (hb : b < 8) :
    (laneByte q b).toNat = q.toNat / 2 ^ (8 * b) % 2 ^ 8 := by
  rw [laneByte, UInt64.toNat_and, UInt64.toNat_shiftRight, UInt64.toNat_ofNat',
    Nat.mod_eq_of_lt (show 8 * b < 2 ^ 64 by omega), Nat.mod_eq_of_lt (show 8 * b < 64 by omega),
    Nat.shiftRight_eq_div_pow]
  exact Nat.and_two_pow_sub_one_eq_mod _ 8

theorem toNat_byte {n : ℕ} (r : Vreg n) (i : ℕ) (h : i / 8 < n) :
    (byte r i).toNat = (r ⟨i / 8, h⟩).toNat / 2 ^ (8 * (i % 8)) % 2 ^ 8 := by
  rw [byte, dif_pos h, toNat_laneByte _ (Nat.mod_lt _ (by norm_num))]

theorem byte_lt {n : ℕ} (r : Vreg n) (i : ℕ) : (byte r i).toNat < 2 ^ 8 := by
  unfold byte
  split
  · rw [toNat_laneByte _ (Nat.mod_lt _ (by norm_num))]
    exact Nat.mod_lt _ (by norm_num)
  · simp

/-- Byte `i` of a loaded register is byte `i % 4` of word `i / 4`. -/
theorem toNat_byte_loadDwords {n : ℕ} (ws : List UInt32) {i : ℕ} (h : i / 8 < n) :
    (byte (loadDwords ws : Vreg n) i).toNat =
      (ws.getD (i / 4) 0).toNat / 2 ^ (8 * (i % 4)) % 2 ^ 8 := by
  rw [toNat_byte _ _ h, loadDwords]
  simp only
  rw [toNat_pack_div_mod _ _ (Nat.mod_lt _ (by norm_num))]
  split_ifs with hc
  · rw [show i / 4 = 2 * (i / 8) by omega, show i % 4 = i % 8 by omega]
  · rw [show i / 4 = 2 * (i / 8) + 1 by omega, show i % 4 = i % 8 - 4 by omega]

/-- Byte `i` of a `vpmovzxdq` register is a byte of word `i / 8`, or a cleared high byte. -/
theorem toNat_byte_vpmovzxdq {n : ℕ} (ws : List UInt32) {i : ℕ} (h : i / 8 < n) :
    (byte (vpmovzxdq ws : Vreg n) i).toNat =
      if i % 8 < 4 then (ws.getD (i / 8) 0).toNat / 2 ^ (8 * (i % 8)) % 2 ^ 8 else 0 := by
  rw [toNat_byte _ _ h, vpmovzxdq]
  simp only
  rw [← pack_zero, toNat_pack_div_mod _ _ (Nat.mod_lt _ (by norm_num))]
  simp

/-- One more byte on top of the ones already assembled. -/
theorem toNat_or_shiftLeft {acc x : UInt64} {k : ℕ} (hk : k < 64) (hacc : acc.toNat < 2 ^ k)
    (hx : x.toNat * 2 ^ k < 2 ^ 64) :
    (acc ||| x <<< UInt64.ofNat k).toNat = x.toNat * 2 ^ k + acc.toNat := by
  rw [UInt64.toNat_or, Nat.or_comm, UInt64.toNat_shiftLeft, UInt64.toNat_ofNat',
    Nat.mod_eq_of_lt (show k < 2 ^ 64 by omega), Nat.mod_eq_of_lt (show k < 64 by omega),
    Nat.shiftLeft_eq, Nat.mod_eq_of_lt hx, Zfs.mul_two_pow_or_of_lt hacc]

section Bytes

variable (f : ℕ → UInt64) (hf : ∀ b, (f b).toNat < 2 ^ 8)
include hf

theorem toNat_bytesUpTo_lt : ∀ b, b ≤ 8 → (bytesUpTo f b).toNat < 2 ^ (8 * b)
  | 0, _ => by simp [bytesUpTo]
  | b + 1, hb => by
    have ih := toNat_bytesUpTo_lt b (by omega)
    have hfb := hf b
    have hpow : 2 ^ (8 * (b + 1)) = 2 ^ 8 * 2 ^ (8 * b) := by rw [← pow_add]; ring_nf
    have hle : 2 ^ (8 * (b + 1)) ≤ 2 ^ 64 := Nat.pow_le_pow_right (by norm_num) (by omega)
    have hx : (f b).toNat * 2 ^ (8 * b) < 2 ^ (8 * (b + 1)) := by
      rw [hpow]
      exact Nat.mul_lt_mul_of_pos_right hfb (by positivity)
    rw [bytesUpTo, toNat_or_shiftLeft (by omega) ih (by omega)]
    -- the new byte sits above the old ones
    calc (f b).toNat * 2 ^ (8 * b) + (bytesUpTo f b).toNat
        < (f b).toNat * 2 ^ (8 * b) + 2 ^ (8 * b) := by omega
      _ = ((f b).toNat + 1) * 2 ^ (8 * b) := by ring
      _ ≤ 2 ^ 8 * 2 ^ (8 * b) := Nat.mul_le_mul_right _ hfb
      _ = 2 ^ (8 * (b + 1)) := hpow.symm

theorem toNat_bytesUpTo_succ (b : ℕ) (hb : b < 8) :
    (bytesUpTo f (b + 1)).toNat = (f b).toNat * 2 ^ (8 * b) + (bytesUpTo f b).toNat := by
  have hx : (f b).toNat * 2 ^ (8 * b) < 2 ^ 64 :=
    calc (f b).toNat * 2 ^ (8 * b) < 2 ^ 8 * 2 ^ (8 * b) :=
          Nat.mul_lt_mul_of_pos_right (hf b) (by positivity)
      _ = 2 ^ (8 * b + 8) := by rw [← pow_add, add_comm]
      _ ≤ 2 ^ 64 := Nat.pow_le_pow_right (by norm_num) (by omega)
  rw [bytesUpTo, toNat_or_shiftLeft (by omega) (toNat_bytesUpTo_lt f hf b hb.le) hx]

/-- **Assembling bytes**: a lane built from eight bytes is their little-endian value. -/
theorem toNat_ofBytes :
    (ofBytes f).toNat = (f 7).toNat * 2 ^ 56 + (f 6).toNat * 2 ^ 48 + (f 5).toNat * 2 ^ 40 +
      (f 4).toNat * 2 ^ 32 + (f 3).toNat * 2 ^ 24 + (f 2).toNat * 2 ^ 16 +
      (f 1).toNat * 2 ^ 8 + (f 0).toNat := by
  have e := toNat_bytesUpTo_succ f hf
  rw [ofBytes, show (8 : ℕ) = 7 + 1 from rfl, e 7 (by norm_num), e 6 (by norm_num),
    e 5 (by norm_num), e 4 (by norm_num), e 3 (by norm_num), e 2 (by norm_num), e 1 (by norm_num),
    e 0 (by norm_num)]
  simp [bytesUpTo]
  ring

end Bytes

end Simd
