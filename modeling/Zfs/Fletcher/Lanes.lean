import Zfs.Fletcher.Scalar
import Mathlib.Data.Fin.VecNotation

/-!
# Fletcher/Lanes — lane-parallel Fletcher-4 and the mixing matrices that undo it

The fast implementations keep `k` independent copies of the accumulators, lane `j` taking the
words `j, j + k, j + 2k, …` of the buffer, and their `fini` functions recombine the `4k` lane
accumulators into `(A, B, C, D)` with fixed integer coefficients.  The recombination is a
simulation: applied after one lane step it is the scalar recurrence over the `k` words of that
step (`laneFini2_laneStep`, `laneFini4_laneStep`, `fletcher4Avx512fFini_laneStep`), and it sends
the zeroed context to zero.  `strideLoop_sim` turns that into agreement over any buffer made of
whole steps.

`fletcher_4_superscalar` and `fletcher_4_superscalar4` are the plain C instances, with two and
four lanes; the vector implementations (`Fletcher/Vector`) reach the same lane steps through
their instructions.
-/

open scoped UInt64.CommRing

namespace Zfs

open ZioCksum

/-! ## Lane contexts and the lane step -/

/-- The context of a `k`-lane implementation: `ctx i j` is accumulator `i` (`a`, `b`, `c`, `d`)
of lane `j`, the field `ctx->superscalar[i].v[j]` (or `sse`, `avx`, `avx512`,
`aarch64_neon`). -/
def LaneCtx (k : ℕ) := Fin 4 → Fin k → UInt64

/-- The zeroed context every `init` function writes with `bzero`. -/
def laneInit (k : ℕ) : LaneCtx k := fun _ _ => 0

/-- One step of all lanes, lane `j` on the word `x j`: `a += x; b += a; c += b; d += c`. -/
def laneStep {k : ℕ} (ctx : LaneCtx k) (x : Fin k → UInt32) : LaneCtx k :=
  let a := fun j => ctx 0 j + (x j).toUInt64
  let b := fun j => ctx 1 j + a j
  let c := fun j => ctx 2 j + b j
  ![a, b, c, fun j => ctx 3 j + c j]

section LaneStep

variable {k : ℕ} (ctx : LaneCtx k) (x : Fin k → UInt32) (j : Fin k)

@[simp] theorem laneInit_apply (i : Fin 4) : laneInit k i j = 0 := rfl

@[simp] theorem laneStep_a : laneStep ctx x 0 j = ctx 0 j + (x j).toUInt64 := rfl

@[simp] theorem laneStep_b : laneStep ctx x 1 j = ctx 1 j + (ctx 0 j + (x j).toUInt64) := rfl

@[simp] theorem laneStep_c :
    laneStep ctx x 2 j = ctx 2 j + (ctx 1 j + (ctx 0 j + (x j).toUInt64)) := rfl

@[simp] theorem laneStep_d :
    laneStep ctx x 3 j = ctx 3 j + (ctx 2 j + (ctx 1 j + (ctx 0 j + (x j).toUInt64))) := rfl

end LaneStep

/-! ## The strided loop

`for (ip = buf; ip < ipend; ip += k) body` hands the body the words from `ip` on.  Every caller
passes a multiple of 64 bytes, so the body never reads past `ipend`; a read there gives `0` in
this model. -/

/-- The loop with an explicit bound on its turns. -/
def strideLoopAux {σ : Type} (k : ℕ) (body : σ → List UInt32 → σ) :
    ℕ → σ → List UInt32 → σ
  | 0, s, _ => s
  | _ + 1, s, [] => s
  | n + 1, s, w :: ws => strideLoopAux k body n (body s (w :: ws)) ((w :: ws).drop k)

/-- `for (; ip < ipend; ip += k) body`; it turns at most once per word. -/
def strideLoop {σ : Type} (k : ℕ) (body : σ → List UInt32 → σ) (s : σ) (ws : List UInt32) : σ :=
  strideLoopAux k body ws.length s ws

/-- **The loop simulates the scalar recurrence.**  If one turn of `body` is, through `F`, the
scalar recurrence over its (at most `k`) words, each passed through `g`, on every buffer left
that satisfies `Q`, and `Q` survives a turn, then so is the whole loop. -/
theorem strideLoop_sim {σ : Type} {k : ℕ} (hk : 0 < k) (body : σ → List UInt32 → σ)
    (F : σ → ZioCksum) (g : UInt32 → UInt32) (Q : List UInt32 → Prop)
    (hQ : ∀ ws, ws ≠ [] → Q ws → Q (ws.drop k))
    (hstep : ∀ s ws, ws ≠ [] → Q ws →
      F (body s ws) = fletcher4ScalarNative (F s) ((ws.take k).map g))
    (s : σ) (ws : List UInt32) (hws : Q ws) :
    F (strideLoop k body s ws) = fletcher4ScalarNative (F s) (ws.map g) := by
  -- induction on the bound of turns, which is at least the number of words left
  suffices h : ∀ n s ws, ws.length ≤ n → Q ws →
      F (strideLoopAux k body n s ws) = fletcher4ScalarNative (F s) (ws.map g) from
    h _ s ws le_rfl hws
  intro n
  induction n with
  | zero =>
    intro s ws hlen _
    rw [List.length_eq_zero_iff.mp (Nat.le_zero.mp hlen)]
    rfl
  | succ n ih =>
    intro s ws hlen hq
    cases ws with
    | nil => rfl
    | cons w ws =>
      have hdrop_le : ((w :: ws).drop k).length ≤ n := by
        rw [List.length_drop]
        simp only [List.length_cons] at hlen ⊢
        omega
      rw [strideLoopAux, ih _ _ hdrop_le (hQ _ (List.cons_ne_nil w ws) hq),
        hstep s _ (List.cons_ne_nil w ws) hq, ← fletcher4ScalarNative_append, ← List.map_append,
        List.take_append_drop]

/-- The loop over a buffer of whole turns: `Q` is "a multiple of `k` words are left". -/
theorem strideLoop_sim_dvd {σ : Type} {k : ℕ} (hk : 0 < k) (body : σ → List UInt32 → σ)
    (F : σ → ZioCksum) (g : UInt32 → UInt32)
    (hstep : ∀ s ws, k ≤ ws.length →
      F (body s ws) = fletcher4ScalarNative (F s) ((ws.take k).map g))
    (s : σ) (ws : List UInt32) (hws : k ∣ ws.length) :
    F (strideLoop k body s ws) = fletcher4ScalarNative (F s) (ws.map g) := by
  refine strideLoop_sim hk body F g (fun ws => k ∣ ws.length) (fun ws _ hq => ?_)
    (fun s ws hne hq => hstep s ws (Nat.le_of_dvd (List.length_pos_iff.mpr hne) hq)) s ws hws
  rw [List.length_drop]
  exact Nat.dvd_sub hq (dvd_refl k)

/-- The first `n` words, each read with `getD`, are the first `n` words. -/
theorem ofFn_getD_eq_take (ws : List UInt32) {n : ℕ} (h : n ≤ ws.length) :
    List.ofFn (fun j : Fin n => ws.getD j 0) = ws.take n := by
  apply List.ext_getElem
  · simp [h]
  · intro i h1 h2
    simp only [List.getElem_ofFn, List.getElem_take]
    rw [List.getD_eq_getElem?_getD, List.getElem?_eq_getElem (by simp at h1; omega),
      Option.getD_some]

/-! ## The compute functions of the plain C implementations

`fletcher_4_superscalar_native` and its three siblings differ only in the number of lanes and
whether each word is byte-swapped first. -/

/-- The loop of the plain lane-parallel compute functions: `k` lanes, word map `g`. -/
def laneCompute (k : ℕ) (g : UInt32 → UInt32) (ctx : LaneCtx k) (buf : List UInt32) :
    LaneCtx k :=
  strideLoop k (fun ctx ip => laneStep ctx fun j => g (ip.getD j 0)) ctx buf

/-- `fletcher_4_superscalar_native`: two lanes. -/
def fletcher4SuperscalarNative : LaneCtx 2 → List UInt32 → LaneCtx 2 := laneCompute 2 id

/-- `fletcher_4_superscalar_byteswap`: two lanes, each word through `BSWAP_32`. -/
def fletcher4SuperscalarByteswap : LaneCtx 2 → List UInt32 → LaneCtx 2 := laneCompute 2 bswap32

/-- `fletcher_4_superscalar4_native`: four lanes. -/
def fletcher4Superscalar4Native : LaneCtx 4 → List UInt32 → LaneCtx 4 := laneCompute 4 id

/-- `fletcher_4_superscalar4_byteswap`: four lanes, each word through `BSWAP_32`. -/
def fletcher4Superscalar4Byteswap : LaneCtx 4 → List UInt32 → LaneCtx 4 :=
  laneCompute 4 bswap32

/-! ## The mixing matrices -/

/-- The two-lane mixing matrix, written out in `fletcher_4_superscalar_fini`, `fletcher_4_sse2_fini`
and `fletcher_4_aarch64_neon_fini`:
`a = a0 + a1`, `b = 2b0 + 2b1 - a1`, `c = 4c0 - b0 + 4c1 - 3b1`, `d = 8d0 - 4c0 + 8d1 - 8c1 + b1`. -/
def laneFini2 (ctx : LaneCtx 2) : ZioCksum :=
  ⟨ctx 0 0 + ctx 0 1,
   2 * ctx 1 0 + 2 * ctx 1 1 - ctx 0 1,
   4 * ctx 2 0 - ctx 1 0 + 4 * ctx 2 1 - 3 * ctx 1 1,
   8 * ctx 3 0 - 4 * ctx 2 0 + 8 * ctx 3 1 - 8 * ctx 2 1 + ctx 1 1⟩

/-- The four-lane mixing matrix of `fletcher_4_superscalar4_fini` and `fletcher_4_avx2_fini`. -/
def laneFini4 (ctx : LaneCtx 4) : ZioCksum :=
  ⟨ctx 0 0 + ctx 0 1 + ctx 0 2 + ctx 0 3,
   0 - ctx 0 1 - 2 * ctx 0 2 - 3 * ctx 0 3 + 4 * ctx 1 0 + 4 * ctx 1 1 + 4 * ctx 1 2 +
     4 * ctx 1 3,
   ctx 0 2 + 3 * ctx 0 3 - 6 * ctx 1 0 - 10 * ctx 1 1 - 14 * ctx 1 2 - 18 * ctx 1 3 +
     16 * ctx 2 0 + 16 * ctx 2 1 + 16 * ctx 2 2 + 16 * ctx 2 3,
   0 - ctx 0 3 + 4 * ctx 1 0 + 10 * ctx 1 1 + 20 * ctx 1 2 + 34 * ctx 1 3 - 48 * ctx 2 0 -
     64 * ctx 2 1 - 80 * ctx 2 2 - 96 * ctx 2 3 + 64 * ctx 3 0 + 64 * ctx 3 1 +
     64 * ctx 3 2 + 64 * ctx 3 3⟩

/-- `fletcher_4_superscalar_fini`. -/
def fletcher4SuperscalarFini : LaneCtx 2 → ZioCksum := laneFini2

/-- `fletcher_4_superscalar4_fini`. -/
def fletcher4Superscalar4Fini : LaneCtx 4 → ZioCksum := laneFini4

theorem laneFini2_laneInit : laneFini2 (laneInit 2) = zero := by
  apply ZioCksum.ext <;> simp [laneFini2]

theorem laneFini4_laneInit : laneFini4 (laneInit 4) = zero := by
  apply ZioCksum.ext <;> simp [laneFini4]

/-- **Two lanes.**  The mixing matrix after one step is two scalar steps. -/
theorem laneFini2_laneStep (ctx : LaneCtx 2) (x : Fin 2 → UInt32) :
    laneFini2 (laneStep ctx x) = fletcher4ScalarNative (laneFini2 ctx) (List.ofFn x) := by
  apply ZioCksum.ext <;>
    simp [laneFini2, fletcher4ScalarNative, fletcher4Step, List.ofFn_succ] <;> ring

/-- **Four lanes.**  The mixing matrix after one step is four scalar steps. -/
theorem laneFini4_laneStep (ctx : LaneCtx 4) (x : Fin 4 → UInt32) :
    laneFini4 (laneStep ctx x) = fletcher4ScalarNative (laneFini4 ctx) (List.ofFn x) := by
  apply ZioCksum.ext <;>
    simp [laneFini4, fletcher4ScalarNative, fletcher4Step, List.ofFn_succ] <;> ring

/-- **A lane implementation computes the checksum.**  If the mixing matrix `F` turns a lane step
into the scalar recurrence over its words and sends the zeroed context to zero, the plain loop
with word map `g` checksums every buffer of whole steps. -/
theorem laneCompute_sim {k : ℕ} (hk : 0 < k) (F : LaneCtx k → ZioCksum)
    (hF : ∀ ctx x, F (laneStep ctx x) = fletcher4ScalarNative (F ctx) (List.ofFn x))
    (g : UInt32 → UInt32) (ctx : LaneCtx k) (buf : List UInt32) (hbuf : k ∣ buf.length) :
    F (laneCompute k g ctx buf) = fletcher4ScalarNative (F ctx) (buf.map g) := by
  refine strideLoop_sim_dvd hk _ F g (fun ctx ws hws => ?_) ctx buf hbuf
  rw [hF, ← ofFn_getD_eq_take ws hws, List.map_ofFn]
  rfl

end Zfs
