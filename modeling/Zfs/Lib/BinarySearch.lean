import Mathlib.Tactic.Ring

/-!
# Lib/BinarySearch — the three-way binary search loop

`loop comp fuel min max` is the loop

    while (max > min) {
        idx = (min + max) / 2;
        c = comp(idx);
        if (c == -1) min = idx + 1; else if (c == 1) max = idx; else return (idx, found);
    }
    return (max, before);

over a probe `comp : ℕ → ℤ` that compares slot `idx` with the value sought.  It stops with
`(idx, false)` on a probe that is neither `-1` nor `1`, and otherwise with `(max, true)`.  The
fuel bounds the turns; `max - min` of it is always enough, since every turn shrinks the window.

On a window where the probe is *three-way monotone* (`-1`s, then anything, then `1`s), a
`(k, true)` answer splits the window into `-1`s below `k` and `1`s from `k` on.
-/

namespace BinarySearch

/-- The search loop, with at most `fuel` turns. -/
def loop (comp : ℕ → ℤ) : ℕ → ℕ → ℕ → ℕ × Bool
  | 0, _, max => (max, true)
  | fuel + 1, min, max =>
    if min < max then
      if comp ((min + max) / 2) = -1 then loop comp fuel ((min + max) / 2 + 1) max
      else if comp ((min + max) / 2) = 1 then loop comp fuel min ((min + max) / 2)
      else ((min + max) / 2, false)
    else (max, true)

/-- The probe is `-1` on a prefix and `1` on a suffix of `[lo, hi)`: a `-1` forces `-1` below
it, a `1` forces `1` above it. -/
def Monotone3 (comp : ℕ → ℤ) (lo hi : ℕ) : Prop :=
  ∀ i j, lo ≤ i → i ≤ j → j < hi → (comp j = -1 → comp i = -1) ∧ (comp i = 1 → comp j = 1)

variable {comp : ℕ → ℤ}

/-- **A found slot is a hit**, inside the window: the probe there is neither `-1` nor `1`. -/
theorem loop_found {fuel min max k : ℕ} (h : loop comp fuel min max = (k, false)) :
    min ≤ k ∧ k < max ∧ comp k ≠ -1 ∧ comp k ≠ 1 := by
  fun_induction loop comp fuel min max with
  | case1 => cases h
  | case2 fuel min max hlt hneg ih =>
    obtain ⟨h1, h2, h3⟩ := ih h
    exact ⟨by omega, h2, h3⟩
  | case3 fuel min max hlt hneg hpos ih =>
    obtain ⟨h1, h2, h3⟩ := ih h
    exact ⟨h1, by omega, h3⟩
  | case4 fuel min max hlt hneg hpos =>
    obtain ⟨rfl, -⟩ := Prod.mk.inj h
    exact ⟨by omega, by omega, hneg, hpos⟩
  | case5 => cases h

/-- **A miss splits the window.**  On a three-way monotone window `[lo, hi)`, starting from a
window whose outside is already known (`-1` below `min`, `1` from `max` on) and with enough
fuel, a `(k, true)` answer has `-1` on `[lo, k)` and `1` on `[k, hi)`. -/
theorem loop_before (hmono : Monotone3 comp lo hi) {fuel min max k : ℕ}
    (hlo : lo ≤ min) (hhi : max ≤ hi) (hle : min ≤ max) (hfuel : max - min ≤ fuel)
    (hbelow : ∀ i, lo ≤ i → i < min → comp i = -1) (habove : ∀ i, max ≤ i → i < hi → comp i = 1)
    (h : loop comp fuel min max = (k, true)) :
    lo ≤ k ∧ k ≤ hi ∧ (∀ i, lo ≤ i → i < k → comp i = -1) ∧ (∀ i, k ≤ i → i < hi → comp i = 1) := by
  fun_induction loop comp fuel min max with
  | case1 min max =>
    -- no fuel left: the window is already empty
    obtain ⟨rfl, -⟩ := Prod.mk.inj h
    have : max = min := by omega
    subst this
    exact ⟨hlo, hhi, hbelow, habove⟩
  | case2 fuel min max hlt hneg ih =>
    -- the probe at the midpoint is `-1`, so is every slot below it
    refine ih (by omega) hhi (by omega) (by omega) (fun i hi1 hi2 => ?_) habove h
    rcases Nat.lt_or_ge i min with him | him
    · exact hbelow i hi1 him
    · exact (hmono i ((min + max) / 2) hi1 (by omega) (by omega)).1 hneg
  | case3 fuel min max hlt hneg hpos ih =>
    -- the probe at the midpoint is `1`, so is every slot above it
    refine ih hlo (by omega) (by omega) (by omega) hbelow (fun i hi1 hi2 => ?_) h
    rcases Nat.lt_or_ge i max with him | him
    · exact (hmono ((min + max) / 2) i (by omega) hi1 hi2).2 hpos
    · exact habove i him hi2
  | case4 => cases h
  | case5 fuel min max hge =>
    obtain ⟨rfl, -⟩ := Prod.mk.inj h
    have : max = min := by omega
    subst this
    exact ⟨hlo, hhi, hbelow, habove⟩

end BinarySearch
