import Mathlib.Data.List.OfFn
import Mathlib.Data.List.Basic
import Mathlib.Tactic.Ring

/-!
# Lib/Slots — arrays of slots, `memmove` between them, and their list views

A fixed-size array of slots is a function `ℕ → β`: slot `i` holds whatever was last written
there, read or not.  `move` is `memmove(dst + d, src + s, n)`: slots `d .. d+n` of the result hold
source slots `s .. s+n` as they were before the call, every other slot is untouched.  The first
`n` slots read in order are `toList f n`.

The list view is read through its one spec lemma `getElem_toList`: membership, prefixes and
suffixes follow by `List.ext_getElem`.
-/

namespace Slots

variable {β : Type}

/-! ## Moves -/

/-- `memmove(dst + d, src + s, n)` on slot arrays; `src` is read as it was before the copy. -/
def move (src : ℕ → β) (s : ℕ) (dst : ℕ → β) (d n : ℕ) : ℕ → β :=
  fun i => if d ≤ i ∧ i < d + n then src (i - d + s) else dst i

/-! ## The list of the first `n` slots -/

/-- Slots `0 .. n` in order. -/
def toList (f : ℕ → β) (n : ℕ) : List β := List.ofFn fun i : Fin n => f i

@[simp] theorem length_toList (f : ℕ → β) (n : ℕ) : (toList f n).length = n := by
  simp [toList]

@[simp] theorem getElem_toList (f : ℕ → β) (n i : ℕ) (h : i < (toList f n).length) :
    (toList f n)[i] = f i := by
  simp [toList]

theorem mem_toList {f : ℕ → β} {n : ℕ} {b : β} : b ∈ toList f n ↔ ∃ i < n, f i = b := by
  simp [toList, List.mem_ofFn]
  constructor
  · rintro ⟨i, rfl⟩
    exact ⟨i, i.isLt, rfl⟩
  · rintro ⟨i, hi, rfl⟩
    exact ⟨⟨i, hi⟩, rfl⟩

theorem take_toList (f : ℕ → β) {m n : ℕ} (h : m ≤ n) : (toList f n).take m = toList f m := by
  apply List.ext_getElem (by simp; omega)
  intro i h1 h2
  simp

theorem drop_toList (f : ℕ → β) (m n : ℕ) :
    (toList f n).drop m = toList (fun i => f (m + i)) (n - m) := by
  apply List.ext_getElem (by simp)
  intro i h1 h2
  simp

/-! ## The slots in use

A table whose slot `i` holds an entry or nothing is read as the list of the entries in use,
`(List.range n).filterMap f`.  Filling one empty slot adds its entry to that list, up to order;
slots past `n` that are empty add nothing. -/

/-- **Filling slot `i`**, empty before, adds its entry to the entries in use, up to order. -/
theorem filterMap_range_fill {f g : ℕ → Option β} {i n : ℕ} {x : β} (hi : i < n)
    (hfg : ∀ j, j ≠ i → g j = f j) (hf : f i = none) (hg : g i = some x) :
    ((List.range n).filterMap g).Perm (x :: (List.range n).filterMap f) := by
  induction n with
  | zero => exact absurd hi (Nat.not_lt_zero i)
  | succ n ih =>
    rw [List.range_succ, List.filterMap_append, List.filterMap_append]
    by_cases hin : i < n
    · have hlast : g n = f n := hfg n (by omega)
      simp only [List.filterMap_cons, List.filterMap_nil, hlast]
      exact (ih hin).append_right _
    · -- the slot filled is the last one
      obtain rfl : i = n := by omega
      have hpre : (List.range i).filterMap g = (List.range i).filterMap f :=
        List.filterMap_congr fun j hj => hfg j (by simp at hj; omega)
      simp only [hpre, List.filterMap_cons, List.filterMap_nil, hf, hg, List.append_nil]
      exact List.perm_append_singleton x ((List.range i).filterMap f)

/-- Empty slots from `n` on add nothing to the entries in use. -/
theorem filterMap_range_of_none {f : ℕ → Option β} {n m : ℕ} (hnm : n ≤ m)
    (hf : ∀ j, n ≤ j → f j = none) : (List.range m).filterMap f = (List.range n).filterMap f := by
  obtain ⟨k, rfl⟩ := Nat.exists_eq_add_of_le hnm
  have hnil : ((List.range k).map (n + ·)).filterMap f = [] :=
    List.filterMap_eq_nil_iff.mpr fun j hj => by
      obtain ⟨l, -, rfl⟩ := List.mem_map.mp hj
      exact hf _ (Nat.le_add_right n l)
  rw [List.range_add, List.filterMap_append, hnil, List.append_nil]

end Slots
