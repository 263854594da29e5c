import Mathlib

/-!
# Lib/Intervals — lists of separated intervals in increasing order

An element `a` of a list stands for the interval `[lo a, hi a)` of the naturals.  A list is
*separated* when every interval ends before the next one starts; its intervals are then disjoint
and in increasing order of `lo`.  The lemmas say where `List.orderedInsert` may put an interval
that meets none of the others, that two intervals of a separated list never cover the same point,
and which element `List.find?` and `List.getLast?` pick from a separated list: the one of least
start among those it accepts, and the one of greatest start.  A sum over a separated list of a
quantity that only the intervals covering `x` carry is the quantity of the one covering `x`
(`Separated.sum_eq_of_covers`), and intervals inside `[a, b)` that cover all of it add up to its
length (`Separated.sum_length`); when every gap between them is covered, each ends where the next
starts (`Separated.isChain_of_covers`).  On a list in order, `List.takeWhile` and `List.dropWhile`
of a property that holds of everything before whatever has it split the list where it stops
holding (`mem_takeWhile_of_pairwise`, `mem_dropWhile_of_pairwise`).
-/

namespace Intervals

variable {α : Type*} (lo hi : α → ℕ)

/-- Every interval ends before any later one starts. -/
def Separated (l : List α) : Prop := l.Pairwise fun a b => hi a ≤ lo b

/-- The intervals of `a` and `b` do not meet. -/
def Apart (a b : α) : Prop := hi a ≤ lo b ∨ hi b ≤ lo a

variable {lo hi}

theorem separated_nil : Separated lo hi ([] : List α) := List.Pairwise.nil

theorem separated_cons {a : α} {l : List α} :
    Separated lo hi (a :: l) ↔ (∀ b ∈ l, hi a ≤ lo b) ∧ Separated lo hi l :=
  List.pairwise_cons

theorem Separated.sublist {l l' : List α} (h : l'.Sublist l) (hs : Separated lo hi l) :
    Separated lo hi l' :=
  List.Pairwise.sublist h hs

/-- Two distinct elements of a separated list are apart. -/
theorem Separated.apart {l : List α} (hs : Separated lo hi l) {a b : α} (ha : a ∈ l) (hb : b ∈ l)
    (hab : a ≠ b) : Apart lo hi a b := by
  induction l with
  | nil => simp at ha
  | cons c l ih =>
    rw [Separated, List.pairwise_cons] at hs
    rcases List.mem_cons.mp ha with rfl | ha'
    · rcases List.mem_cons.mp hb with rfl | hb'
      · exact absurd rfl hab
      · exact .inl (hs.1 b hb')
    · rcases List.mem_cons.mp hb with rfl | hb'
      · exact .inr (hs.1 a ha')
      · exact ih hs.2 ha' hb'

/-- In a separated list of nonempty intervals, one point is covered at most once. -/
theorem Separated.eq_of_covers {l : List α} (hs : Separated lo hi l) {a b : α} (ha : a ∈ l)
    (hb : b ∈ l) {x : ℕ} (hxa : lo a ≤ x ∧ x < hi a) (hxb : lo b ≤ x ∧ x < hi b) : a = b := by
  by_contra hab
  rcases hs.apart ha hb hab with h | h <;> omega

/-- Nonempty intervals of a separated list start in increasing order. -/
theorem Separated.lo_lt {l : List α} (hs : Separated lo hi l) (hpos : ∀ a ∈ l, lo a < hi a) :
    l.Pairwise fun a b => lo a < lo b := by
  induction l with
  | nil => exact List.Pairwise.nil
  | cons c l ih =>
    rw [Separated, List.pairwise_cons] at hs
    refine List.pairwise_cons.mpr ⟨fun b hb => ?_, ih hs.2 fun a ha => hpos a (by simp [ha])⟩
    have := hs.1 b hb
    have := hpos c (by simp)
    omega

/-- `List.orderedInsert` by start keeps a list separated when the new interval is nonempty and
meets none of the list's nonempty intervals. -/
theorem Separated.orderedInsert {l : List α} (hs : Separated lo hi l) {r : α → α → Prop}
    [DecidableRel r] (hr : ∀ a b, r a b ↔ lo a ≤ lo b) {a : α}
    (hpos : ∀ b ∈ l, lo b < hi b) (ha : lo a < hi a) (hap : ∀ b ∈ l, Apart lo hi a b) :
    Separated lo hi (l.orderedInsert r a) := by
  induction l with
  | nil => simp [Separated]
  | cons b l ih =>
    rw [separated_cons] at hs
    rw [List.orderedInsert_cons]
    have hb := hpos b (by simp)
    split_ifs with hle
    · rw [hr] at hle
      -- `a` goes first: it ends before `b`, and so before everything after `b`
      have hab : hi a ≤ lo b := by
        rcases hap b (by simp) with h | h
        · exact h
        · omega
      refine separated_cons.mpr ⟨fun c hc => ?_, separated_cons.mpr hs⟩
      rcases List.mem_cons.mp hc with rfl | hc
      · exact hab
      · have := hs.1 c hc
        omega
    · rw [hr] at hle
      have hba : hi b ≤ lo a := by
        rcases hap b (by simp) with h | h
        · omega
        · exact h
      refine separated_cons.mpr ⟨fun c hc => ?_, ih hs.2 (fun c hc => hpos c (by simp [hc]))
        (fun c hc => hap c (by simp [hc]))⟩
      rcases (List.mem_orderedInsert _).mp hc with rfl | hc
      · exact hba
      · exact hs.1 c hc

/-- `List.find?` on a list in increasing order of start picks, among the elements it accepts,
the one of least start. -/
theorem find?_le {l : List α} (hl : l.Pairwise fun a b => lo a < lo b) {p : α → Bool} {a : α}
    (h : l.find? p = some a) {b : α} (hb : b ∈ l) (hpb : p b = true) : lo a ≤ lo b := by
  obtain ⟨-, as, bs, rfl, has⟩ := List.find?_eq_some_iff_append.mp h
  rw [List.pairwise_append, List.pairwise_cons] at hl
  rcases List.mem_append.mp hb with hb | hb
  · have hnot := has b hb
    rw [hpb] at hnot
    exact absurd hnot (by decide)
  · rcases List.mem_cons.mp hb with rfl | hb
    · exact le_refl _
    · exact (hl.2.1.1 b hb).le

/-- `List.getLast?` of a list in increasing order of start is the element of greatest start. -/
theorem getLast?_ge {l : List α} (hl : l.Pairwise fun a b => lo a < lo b) {a : α}
    (h : l.getLast? = some a) {b : α} (hb : b ∈ l) : lo b ≤ lo a := by
  obtain ⟨ys, rfl⟩ := List.getLast?_eq_some_iff.mp h
  rw [List.pairwise_append] at hl
  rcases List.mem_append.mp hb with hb | hb
  · exact (hl.2.2 b hb a (by simp)).le
  · rw [List.mem_singleton.mp hb]

/-- A quantity that only the intervals covering `x` carry, summed over a separated list, is that
of the interval covering `x`. -/
theorem Separated.sum_eq_of_covers {l : List α} (hs : Separated lo hi l) {a : α} (ha : a ∈ l)
    {x : ℕ} (hx : lo a ≤ x ∧ x < hi a) (f : α → ℕ) (hf : ∀ b, ¬ (lo b ≤ x ∧ x < hi b) → f b = 0) :
    (l.map f).sum = f a := by
  induction l with
  | nil => simp at ha
  | cons c l ih =>
    rw [separated_cons] at hs
    rw [List.map_cons, List.sum_cons]
    rcases List.mem_cons.mp ha with rfl | ha'
    · -- the later intervals start after `a` ends, past `x`
      have hrest : (l.map f).sum = 0 := by
        refine List.sum_eq_zero_iff_forall_eq_nat.mpr fun n hn => ?_
        obtain ⟨b, hb, rfl⟩ := List.mem_map.mp hn
        exact hf b (by have := hs.1 b hb; omega)
      rw [hrest, Nat.add_zero]
    · have hc : f c = 0 := hf c (by have := hs.1 a ha'; omega)
      rw [hc, Nat.zero_add, ih hs.2 ha']

/-- Nonempty intervals of a separated list, inside `[a, b)` and covering every point of it, add
up to its length. -/
theorem Separated.sum_length {l : List α} (hs : Separated lo hi l) (hpos : ∀ c ∈ l, lo c < hi c)
    {a b : ℕ} (hin : ∀ c ∈ l, a ≤ lo c ∧ hi c ≤ b)
    (hcov : ∀ x, a ≤ x → x < b → ∃ c ∈ l, lo c ≤ x ∧ x < hi c) :
    (l.map fun c => hi c - lo c).sum = b - a := by
  induction l generalizing a with
  | nil =>
    have hba : b ≤ a := by
      by_contra hlt
      obtain ⟨c, hc, -⟩ := hcov a le_rfl (by omega)
      simp at hc
    simp [hba]
  | cons c l ih =>
    rw [separated_cons] at hs
    have hc := hpos c (by simp)
    have hcin := hin c (by simp)
    -- the first interval starts at `a`: whatever covers `a` ends before the others start
    have hca : lo c = a := by
      obtain ⟨d, hd, hda⟩ := hcov a le_rfl (by omega)
      rcases List.mem_cons.mp hd with rfl | hd
      · omega
      · have := hs.1 d hd
        have := (hin d (by simp [hd])).1
        omega
    have hrest : (l.map fun c => hi c - lo c).sum = b - hi c := by
      refine ih hs.2 (fun d hd => hpos d (by simp [hd])) (fun d hd => ⟨hs.1 d hd, (hin d (by simp [hd])).2⟩)
        fun x hx hxb => ?_
      obtain ⟨d, hd, hdx⟩ := hcov x (by omega) hxb
      rcases List.mem_cons.mp hd with rfl | hd
      · omega
      · exact ⟨d, hd, hdx⟩
    rw [List.map_cons, List.sum_cons, hrest]
    omega

/-- In a list ordered by `r`, an element satisfying a property that holds of everything before
whatever satisfies it is in the prefix `List.takeWhile` keeps. -/
theorem mem_takeWhile_of_pairwise {r : α → α → Prop} {l : List α} (hl : l.Pairwise r)
    {p : α → Bool} (hp : ∀ a b, r a b → p b = true → p a = true) {b : α} (hb : b ∈ l)
    (hpb : p b = true) : b ∈ l.takeWhile p := by
  induction l with
  | nil => simp at hb
  | cons c l ih =>
    rw [List.pairwise_cons] at hl
    rcases List.mem_cons.mp hb with rfl | hb
    · simp [hpb]
    · have hpc := hp c b (hl.1 b hb) hpb
      simp [hpc, ih hl.2 hb]

/-- In a list ordered by `r`, the elements `List.dropWhile` keeps are those that fail a property
holding of everything before whatever has it. -/
theorem mem_dropWhile_of_pairwise {r : α → α → Prop} {l : List α} (hl : l.Pairwise r)
    {p : α → Bool} (hp : ∀ a b, r a b → p b = true → p a = true) {b : α} :
    b ∈ l.dropWhile p ↔ b ∈ l ∧ p b = false := by
  induction l with
  | nil => simp
  | cons c l ih =>
    rw [List.pairwise_cons] at hl
    rw [List.dropWhile_cons]
    split_ifs with hc
    · rw [ih hl.2, List.mem_cons]
      constructor
      · rintro ⟨hb, hpb⟩
        exact ⟨.inr hb, hpb⟩
      · rintro ⟨rfl | hb, hpb⟩
        · rw [hc] at hpb
          cases hpb
        · exact ⟨hb, hpb⟩
    · refine ⟨fun hb => ⟨hb, ?_⟩, fun h => h.1⟩
      rcases List.mem_cons.mp hb with rfl | hb
      · simpa using hc
      · cases hpb : p b
        · rfl
        · exact absurd (hp c b (hl.1 b hb) hpb) hc

/-- In a separated list of nonempty intervals whose gaps are covered by its own intervals, each
interval ends where the next one starts. -/
theorem Separated.isChain_of_covers : ∀ {l : List α}, Separated lo hi l →
    (∀ a ∈ l, lo a < hi a) →
    (∀ a ∈ l, ∀ b ∈ l, ∀ x, hi a ≤ x → x < lo b → ∃ c ∈ l, lo c ≤ x ∧ x < hi c) →
    l.IsChain fun a b => hi a = lo b
  | [], _, _, _ => List.IsChain.nil
  | [a], _, _, _ => List.IsChain.singleton a
  | a :: b :: l, hs, hpos, hcov => by
    rw [separated_cons] at hs
    have hab := hs.1 b List.mem_cons_self
    refine List.isChain_cons_cons.mpr ⟨?_, Separated.isChain_of_covers hs.2
      (fun c hc => hpos c (List.mem_cons_of_mem _ hc)) fun a' ha' b' hb' x h₁ h₂ => ?_⟩
    · -- a gap after `a` would be covered by an interval that fits nowhere
      by_contra hne
      obtain ⟨c, hc, hcx⟩ := hcov a List.mem_cons_self b
        (List.mem_cons_of_mem _ List.mem_cons_self) (hi a) le_rfl (by omega)
      rcases List.mem_cons.mp hc with rfl | hc
      · omega
      rcases List.mem_cons.mp hc with rfl | hc
      · omega
      · have := (separated_cons.mp hs.2).1 c hc
        have := hpos b (List.mem_cons_of_mem _ List.mem_cons_self)
        omega
    · obtain ⟨c, hc, hcx⟩ := hcov a' (List.mem_cons_of_mem _ ha') b' (List.mem_cons_of_mem _ hb')
        x h₁ h₂
      rcases List.mem_cons.mp hc with rfl | hc
      · -- `a` ends before `a'` starts, so before `x`
        have := hs.1 a' ha'
        have := hpos a' (List.mem_cons_of_mem _ ha')
        omega
      · exact ⟨c, hc, hcx⟩

end Intervals
