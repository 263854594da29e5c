import Zfs.Lib.BinarySearch
import Mathlib.Data.List.Sort

/-!
# Lib/Compar — three-way comparators and bounded increasing chains

A C comparator returns `-1`, `0` or `1`.  `Compar.On cmp S` asks of it, on the admissible values
`S`, only what ordered containers rely on: the three answers, antisymmetry (`cmp b a = -cmp a b`)
and transitivity of `-1`.  Nothing makes `0` an equivalence, so a comparator that answers `0` to
every overlap of two intervals qualifies on pairwise disjoint ones.

`Inc cmp S lo es hi` says that `es` is admissible and strictly increasing from the bound `lo` to
the bound `hi`, neighbour by neighbour.  Being stated between neighbours it is built and taken
apart without any law of `cmp`; the laws turn it into the global facts: every element is between
the bounds, the list is pairwise increasing, and a search probe along it is three-way
monotone.
-/

namespace Compar

variable {α : Type} (cmp : α → α → ℤ) (S : α → Prop)

/-- **The comparator laws** on the admissible values `S`. -/
structure On : Prop where
  trichotomy : ∀ a b, S a → S b → cmp a b = -1 ∨ cmp a b = 0 ∨ cmp a b = 1
  swap : ∀ a b, S a → S b → cmp b a = -cmp a b
  trans : ∀ a b c, S a → S b → S c → cmp a b = -1 → cmp b c = -1 → cmp a c = -1

/-- `a < b` for bounds, `none` being no bound at all. -/
def BoundLt : Option α → Option α → Prop
  | some a, some b => cmp a b = -1
  | _, _ => True

/-- The elements are admissible and increase strictly from `lo` through the list to `hi`,
neighbour by neighbour. -/
def Inc : Option α → List α → Option α → Prop
  | lo, [], hi => BoundLt cmp lo hi
  | lo, e :: es, hi => S e ∧ BoundLt cmp lo (some e) ∧ Inc (some e) es hi

/-- A bound whose value, if any, is admissible. -/
def BoundS : Option α → Prop
  | some a => S a
  | none => True

variable {cmp S}

@[simp] theorem boundLt_none_left {b : Option α} : BoundLt cmp none b := by
  cases b <;> trivial

@[simp] theorem boundLt_none_right {a : Option α} : BoundLt cmp a none := by
  cases a <;> trivial

@[simp] theorem boundLt_some {a b : α} : BoundLt cmp (some a) (some b) ↔ cmp a b = -1 := Iff.rfl

@[simp] theorem boundS_some {a : α} : BoundS S (some a) ↔ S a := Iff.rfl

@[simp] theorem boundS_none : BoundS S (none : Option α) := trivial

@[simp] theorem inc_nil {lo hi : Option α} : Inc cmp S lo [] hi ↔ BoundLt cmp lo hi := Iff.rfl

@[simp] theorem inc_cons {lo hi : Option α} {e : α} {es : List α} :
    Inc cmp S lo (e :: es) hi ↔ S e ∧ BoundLt cmp lo (some e) ∧ Inc cmp S (some e) es hi :=
  Iff.rfl

/-- **A chain splits at any of its elements.** -/
theorem inc_append {lo hi : Option α} {s : α} :
    ∀ {as bs : List α}, Inc cmp S lo (as ++ s :: bs) hi ↔
      Inc cmp S lo as (some s) ∧ S s ∧ Inc cmp S (some s) bs hi
  | [], bs => by simp [and_left_comm]
  | a :: as, bs => by
    simp only [List.cons_append, inc_cons]
    rw [inc_append]
    simp only [and_assoc]

/-- **A value goes into a chain at a gap**: where everything before is below it and everything
after above it, and it is between the bounds. -/
theorem inc_insert {lo hi : Option α} {v : α} (hv : S v) (hlo : BoundLt cmp lo (some v))
    (hhi : BoundLt cmp (some v) hi) :
    ∀ {as bs : List α}, (∀ a ∈ as, cmp a v = -1) → (∀ b ∈ bs, cmp v b = -1) →
      Inc cmp S lo (as ++ bs) hi → Inc cmp S lo (as ++ v :: bs) hi
  | [], [], _, _, _ => ⟨hv, hlo, hhi⟩
  | [], b :: bs, _, hb, ⟨hbs, _, hrest⟩ => ⟨hv, hlo, hbs, hb b (by simp), hrest⟩
  | a :: as, bs, ha, hb, ⟨has, hloa, hrest⟩ =>
    ⟨has, hloa, inc_insert hv (show BoundLt cmp (some a) (some v) from ha a (by simp)) hhi
      (fun a' ha' => ha a' (by simp [ha'])) hb hrest⟩

/-- Every element of a chain is admissible. -/
theorem Inc.mem_s {lo hi : Option α} {es : List α} (h : Inc cmp S lo es hi) :
    ∀ e ∈ es, S e := by
  intro e he
  obtain ⟨as, bs, rfl⟩ := List.append_of_mem he
  exact (inc_append.mp h).2.1

/-! ## Consequences of the laws -/

section Laws

variable (hc : On cmp S)
include hc

theorem On.gt_iff {a b : α} (ha : S a) (hb : S b) : cmp b a = 1 ↔ cmp a b = -1 := by
  rw [hc.swap a b ha hb]
  omega

theorem BoundLt.trans {a : Option α} {b : α} {c : Option α} (ha : BoundS S a) (hb : S b)
    (hc' : BoundS S c) (h1 : BoundLt cmp a (some b)) (h2 : BoundLt cmp (some b) c) :
    BoundLt cmp a c := by
  cases a <;> cases c <;> simp_all [hc.trans _ b _]

/-- **A chain lies between its bounds.** -/
theorem Inc.bounds {lo hi : Option α} {es : List α} (hlo : BoundS S lo) (hhi : BoundS S hi)
    (h : Inc cmp S lo es hi) :
    BoundLt cmp lo hi ∧ ∀ e ∈ es, BoundLt cmp lo (some e) ∧ BoundLt cmp (some e) hi := by
  induction es generalizing lo with
  | nil => exact ⟨h, by simp⟩
  | cons e es ih =>
    obtain ⟨he, hloe, hrest⟩ := h
    obtain ⟨hehi, hall⟩ := ih (by simpa using he) hrest
    refine ⟨BoundLt.trans hc hlo he hhi hloe hehi, ?_⟩
    intro x hx
    rcases List.mem_cons.mp hx with rfl | hx
    · exact ⟨hloe, hehi⟩
    · obtain ⟨hex, hxhi⟩ := hall x hx
      exact ⟨BoundLt.trans hc hlo he (hrest.mem_s x hx) hloe hex, hxhi⟩

/-- Everything in a chain is above its lower bound. -/
theorem Inc.lt_of_mem {a : α} {hi : Option α} {es : List α} (ha : S a)
    (h : Inc cmp S (some a) es hi) : ∀ x ∈ es, cmp a x = -1 := by
  induction es generalizing a with
  | nil => intro x hx; cases hx
  | cons e es ih =>
    obtain ⟨he, hae, hrest⟩ := h
    intro x hx
    rcases List.mem_cons.mp hx with rfl | hx
    · exact hae
    · exact hc.trans _ _ _ ha he (hrest.mem_s x hx) hae (ih he hrest x hx)

/-- **A chain is pairwise increasing.** -/
theorem Inc.pairwise {lo hi : Option α} {es : List α} (h : Inc cmp S lo es hi) :
    es.Pairwise fun a b => cmp a b = -1 := by
  induction es generalizing lo with
  | nil => exact List.Pairwise.nil
  | cons e es ih =>
    obtain ⟨he, -, hrest⟩ := h
    exact List.Pairwise.cons (hrest.lt_of_mem hc he) (ih hrest)

/-- **A three-way probe along an increasing run is monotone**: slots `0 .. n` of `f` increase,
so comparing them with an admissible `v` gives `-1`s, then anything, then `1`s. -/
theorem monotone3_of_lt (f : ℕ → α) (n : ℕ) {v : α} (hv : S v) (hf : ∀ i < n, S (f i))
    (hlt : ∀ i j, i < j → j < n → cmp (f i) (f j) = -1) :
    BinarySearch.Monotone3 (fun i => cmp (f i) v) 0 n := by
  intro i j _ hij hj
  rcases Nat.eq_or_lt_of_le hij with rfl | hij
  · exact ⟨id, id⟩
  have hfi := hf i (by omega)
  have hfj := hf j hj
  have hfij := hlt i j hij hj
  refine ⟨fun hjv => hc.trans _ _ _ hfi hfj hv hfij hjv, fun hiv => ?_⟩
  dsimp only at hiv ⊢
  rw [hc.gt_iff hv hfj]
  exact hc.trans _ _ _ hv hfi hfj ((hc.gt_iff hv hfi).mp hiv) hfij

end Laws

end Compar
