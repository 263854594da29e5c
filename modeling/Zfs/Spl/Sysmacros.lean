import Mathlib.Data.Nat.Log

/-!
# Spl/Sysmacros — the arithmetic macros of `sys/sysmacros.h`

`P2ALIGN` rounds down to a power of two, `highbit64` is the index (from one) of the highest set
bit; both are used on sizes and offsets that the surrounding models keep as natural numbers.
`P2ROUNDUP_TYPED` and `P2ROUNDUP` round up in the 64- or 32-bit type of their argument, where `0`
stays `0`.
-/

namespace Zfs

/-- `P2ALIGN(x, align)`, `x & -align`: `x` rounded down to a multiple of the power of two
`align`. -/
def p2align (x align : ℕ) : ℕ := x / align * align

/-- `P2ROUNDUP_TYPED(x, align, uint64_t)`, `((x - 1) | (align - 1)) + 1` in 64 bits: `x` rounded
up to a multiple of the power of two `align`, and `0` for `0`. -/
def p2roundup64 (x align : UInt64) : UInt64 := ((x - 1) ||| (align - 1)) + 1

/-- `P2ROUNDUP(x, align)` on a size or an offset that the model keeps as a natural number: `x`
rounded up to a multiple of the power of two `align`. -/
def p2roundup (x align : ℕ) : ℕ := (x + align - 1) / align * align

theorem le_p2roundup (x : ℕ) : x ≤ p2roundup x 8 := by
  unfold p2roundup
  omega

/-- `P2ROUNDUP(x, align)` on a `uint32_t`: the same `((x - 1) | (align - 1)) + 1`, in 32 bits. -/
def p2roundup32 (x align : UInt32) : UInt32 := ((x - 1) ||| (align - 1)) + 1

/-- `highbit64(i)`: the number, counted from one, of the highest set bit of `i`; `0` for `0`. -/
def highbit64 (i : ℕ) : ℕ := if i = 0 then 0 else Nat.log2 i + 1

end Zfs
