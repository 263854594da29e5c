import Mathlib.Data.UInt
import Mathlib.Tactic.NormNum

/-!
# Spl/Byteorder — the byte-swap macros of `sys/byteorder.h`, and host-order loads

`BSWAP_32` is built from `BSWAP_16` and `BSWAP_8` by shifts and masks in the 32-bit type of its
argument.  `toNat_bswap32` reads it back as the reversal of the four bytes of its argument, the
form the vector implementations of Fletcher-4 are compared against.

A load of a word from a buffer of bytes is in the (little-endian) host byte order.  A byte load
that a decoder makes from a buffer it was given the length of is checked: past the end it is
the offset it tried to read (`bufAt`, `bufRange`).
-/

namespace Zfs

/-- `BSWAP_8(x)`: the low byte. -/
def bswap8 (x : UInt32) : UInt32 := x &&& 0xff

/-- `BSWAP_16(x)`: the two low bytes, exchanged. -/
def bswap16 (x : UInt32) : UInt32 := (bswap8 x <<< 8) ||| bswap8 (x >>> 8)

/-- `BSWAP_32(x)`: the four bytes, reversed. -/
def bswap32 (x : UInt32) : UInt32 := (bswap16 x <<< 16) ||| bswap16 (x >>> 16)

/-- `BSWAP_64(x)`: the eight bytes, reversed; `BSWAP_32` and below are evaluated in the 64-bit
type of the argument. -/
def bswap64 (x : UInt64) : UInt64 :=
  let b8 := fun y : UInt64 => y &&& 0xff
  let b16 := fun y : UInt64 => (b8 y <<< 8) ||| b8 (y >>> 8)
  let b32 := fun y : UInt64 => (b16 y <<< 16) ||| b16 (y >>> 16)
  (b32 x <<< 32) ||| b32 (x >>> 32)

/-- The byte at offset `i` of a buffer, or the offset if it lies past the end. -/
def bufAt (buf : List UInt8) (i : ℕ) : Except ℕ UInt8 :=
  if h : i < buf.length then .ok buf[i] else .error i

/-- `len` bytes from offset `i`, loaded one at a time. -/
def bufRange (buf : List UInt8) (i : ℕ) : ℕ → Except ℕ (List UInt8)
  | 0 => .ok []
  | len + 1 => do
    let b ← bufAt buf i
    let bs ← bufRange buf (i + 1) len
    pure (b :: bs)

theorem bufAt_of_lt {buf : List UInt8} {i : ℕ} (h : i < buf.length) : bufAt buf i = .ok buf[i] :=
  dif_pos h

/-- The byte that starts the buffer's suffix at `i` loads. -/
theorem bufAt_of_drop {buf rest : List UInt8} {i : ℕ} {b : UInt8} (h : buf.drop i = b :: rest) :
    bufAt buf i = .ok b := by
  have hi : i < buf.length := by
    by_contra hle
    rw [List.drop_eq_nil_of_le (by omega)] at h
    exact List.cons_ne_nil _ _ h.symm
  rw [List.drop_eq_getElem_cons hi] at h
  rw [bufAt_of_lt hi, (List.cons_eq_cons.mp h).1]

/-- A range inside the buffer loads its bytes. -/
theorem bufRange_of_le {buf : List UInt8} :
    ∀ {i len : ℕ}, i + len ≤ buf.length → bufRange buf i len = .ok ((buf.drop i).take len)
  | _, 0, _ => by simp [bufRange]
  | i, len + 1, h => by
    have hi : i < buf.length := by omega
    rw [bufRange, bufAt_of_lt hi, bufRange_of_le (by omega : i + 1 + len ≤ buf.length),
      List.drop_eq_getElem_cons hi, List.take_succ_cons]
    rfl

/-- The 64-bit word at byte `o` of a buffer, in the (little-endian) host byte order. -/
def le64 (buf : List UInt8) (o : ℕ) : UInt64 :=
  (List.range 8).foldr (fun k acc => (acc <<< 8) ||| (buf.getD (o + k) 0).toUInt64) 0

/-- The 32-bit word at byte `o` of a buffer, in the host byte order. -/
def le32 (buf : List UInt8) (o : ℕ) : UInt32 :=
  (List.range 4).foldr (fun k acc => (acc <<< 8) ||| (buf.getD (o + k) 0).toUInt32) 0

/-- The 16-bit word at byte `o` of a buffer, in the host byte order. -/
def le16 (buf : List UInt8) (o : ℕ) : UInt16 :=
  (List.range 2).foldr (fun k acc => (acc <<< 8) ||| (buf.getD (o + k) 0).toUInt16) 0

/-- An `or` of bits that do not overlap is their sum. -/
theorem mul_two_pow_or_of_lt {a b k : ℕ} (ha : a < 2 ^ k) : b * 2 ^ k ||| a = b * 2 ^ k + a := by
  rw [← Nat.shiftLeft_eq, Nat.shiftLeft_add_eq_or_of_lt ha]

theorem toNat_bswap8 (x : UInt32) : (bswap8 x).toNat = x.toNat % 2 ^ 8 := by
  rw [bswap8, UInt32.toNat_and]
  exact Nat.and_two_pow_sub_one_eq_mod _ 8

theorem toNat_bswap16 (x : UInt32) :
    (bswap16 x).toNat = x.toNat % 2 ^ 8 * 2 ^ 8 + x.toNat / 2 ^ 8 % 2 ^ 8 := by
  have hhi : (bswap8 x <<< 8).toNat = x.toNat % 2 ^ 8 * 2 ^ 8 := by
    rw [UInt32.toNat_shiftLeft, toNat_bswap8]
    simp only [UInt32.reduceToNat, Nat.reduceMod, Nat.shiftLeft_eq]
    have := Nat.mod_lt x.toNat (show 0 < 2 ^ 8 by norm_num)
    omega
  rw [bswap16, UInt32.toNat_or, hhi, toNat_bswap8, UInt32.toNat_shiftRight]
  simp only [UInt32.reduceToNat, Nat.reduceMod, Nat.shiftRight_eq_div_pow]
  exact mul_two_pow_or_of_lt (Nat.mod_lt _ (by norm_num))

/-- **`BSWAP_32` reverses the bytes**: byte `i` of the result is byte `3 - i` of the argument. -/
theorem toNat_bswap32 (x : UInt32) :
    (bswap32 x).toNat = x.toNat % 2 ^ 8 * 2 ^ 24 + x.toNat / 2 ^ 8 % 2 ^ 8 * 2 ^ 16 +
      x.toNat / 2 ^ 16 % 2 ^ 8 * 2 ^ 8 + x.toNat / 2 ^ 24 % 2 ^ 8 := by
  have hx := x.toNat_lt
  have hhi : (bswap16 x <<< 16).toNat =
      (x.toNat % 2 ^ 8 * 2 ^ 8 + x.toNat / 2 ^ 8 % 2 ^ 8) * 2 ^ 16 := by
    rw [UInt32.toNat_shiftLeft, toNat_bswap16]
    simp only [UInt32.reduceToNat, Nat.reduceMod, Nat.shiftLeft_eq]
    omega
  have hlo : (bswap16 (x >>> 16)).toNat =
      x.toNat / 2 ^ 16 % 2 ^ 8 * 2 ^ 8 + x.toNat / 2 ^ 24 % 2 ^ 8 := by
    rw [toNat_bswap16, UInt32.toNat_shiftRight]
    simp only [UInt32.reduceToNat, Nat.reduceMod, Nat.shiftRight_eq_div_pow]
    omega
  rw [bswap32, UInt32.toNat_or, hhi, hlo, mul_two_pow_or_of_lt (by omega)]
  omega

end Zfs
