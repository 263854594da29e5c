import Mathlib

/-!
# Lib/HashChains — a list indexed by chains of buckets

A hash index keeps the elements of a list a second time, on chains: the element `x` sits on
chain `f x`.  `Indexes f tab l` says that the chains `tab` hold, each up to order, exactly the
elements of `l` in their bucket, as often as `l` holds them.  Every update of such an index is
one of three: push an element on the head of its chain, erase the element at some position of
its chain, or push every element of some chains, one by one, into a fresh table under another
bucket function.  A search of one chain for a predicate that only elements of that bucket
satisfy finds what a search of the whole list finds, as long as at most one element matches.

* `Indexes.push`, `Indexes.eraseIdx` — the two updates of one chain;
* `foldl_push_apply`, `Indexes.flatMap_range_perm` — rehashing, and what the chains of the
  buckets below `n` hold together;
* `Indexes.find?_eq` — a search of one chain is a search of the list.
-/

namespace HashChains

variable {α : Type*}

/-! ## Lists with at most one match -/

/-- Two orders of a list in which at most one element matches give the same search result. -/
theorem find?_eq_of_perm {p : α → Bool} {l₁ l₂ : List α} (h : l₁.Perm l₂)
    (hp : (l₁.filter p).length ≤ 1) : l₁.find? p = l₂.find? p := by
  rw [← List.head?_filter, ← List.head?_filter]
  have hperm := h.filter p
  rcases Nat.le_one_iff_eq_zero_or_eq_one.mp hp with h0 | h1
  · rw [List.length_eq_zero_iff] at h0
    rw [h0] at hperm ⊢
    rw [List.nil_perm.mp hperm]
  · obtain ⟨a, ha⟩ := List.length_eq_one_iff.mp h1
    rw [ha] at hperm ⊢
    rw [List.perm_singleton.mp hperm.symm]

/-- In a list whose keys are distinct, the elements of one key are at most one. -/
theorem length_filter_le_one {β : Type*} {key : α → β} {l : List α} (hk : (l.map key).Nodup)
    {p : α → Bool} {b : β} (hp : ∀ x ∈ l, p x = true → key x = b) : (l.filter p).length ≤ 1 := by
  classical
  have hn : ((l.filter p).map key).Nodup := List.Nodup.sublist ((List.filter_sublist).map key) hk
  have hall : ∀ c ∈ (l.filter p).map key, b = c := by
    intro c hc
    obtain ⟨x, hx, rfl⟩ := List.mem_map.mp hc
    rw [List.mem_filter] at hx
    exact (hp x hx.1 hx.2).symm
  rw [← List.length_map (f := key), ← List.count_eq_length.mpr hall]
  exact List.nodup_iff_count_le_one.mp hn b

/-- In a list whose keys are distinct, erasing an element drops the one element of its key. -/
theorem erase_eq_filter_key {β : Type*} [DecidableEq α] [BEq β] [LawfulBEq β] {key : α → β}
    {l : List α} (hk : (l.map key).Nodup) {x : α} (hx : x ∈ l) :
    l.erase x = l.filter fun y => key y != key x := by
  rw [(hk.of_map key).erase_eq_filter]
  apply List.filter_congr
  intro y hy
  by_cases hxy : y = x
  · simp [hxy]
  · have hkey : key y ≠ key x := fun he => hxy (List.inj_on_of_nodup_map hk hy hx he)
    rw [bne_iff_ne.mpr hxy, bne_iff_ne.mpr hkey]

/-- Erasing at a position where `x` stands erases `x`, up to order. -/
theorem eraseIdx_perm_erase [DecidableEq α] {xs : List α} {k : ℕ} {x : α} (hk : xs[k]? = some x) :
    (xs.eraseIdx k).Perm (xs.erase x) := by
  have hc : xs.Perm (x :: xs.eraseIdx k) := by
    obtain ⟨hlt, rfl⟩ := List.getElem?_eq_some_iff.mp hk
    conv_lhs => rw [← List.take_append_drop k xs, ← List.getElem_cons_drop hlt]
    rw [List.eraseIdx_eq_take_drop_succ]
    exact List.perm_middle
  exact (List.perm_cons x).mp (hc.symm.trans (List.perm_cons_erase (List.mem_of_getElem? hk)))

/-- A search of a list whose matches are all one element finds exactly that element. -/
theorem find?_eq_some_iff_of_unique {p : α → Bool} {l : List α}
    (hu : ∀ x ∈ l, ∀ y ∈ l, p x = true → p y = true → x = y) {x : α} :
    l.find? p = some x ↔ x ∈ l ∧ p x = true := by
  constructor
  · intro h
    exact ⟨List.mem_of_find?_eq_some h, List.find?_some h⟩
  · rintro ⟨hx, hpx⟩
    obtain ⟨y, hy⟩ := Option.isSome_iff_exists.mp (List.find?_isSome.mpr ⟨x, hx, hpx⟩)
    rw [hy, hu y (List.mem_of_find?_eq_some hy) x hx (List.find?_some hy) hpx]

/-! ## Pushing onto chains -/

/-- **Pushing the elements of `c` one by one, each on the head of its chain**, leaves on chain `j`
the elements of `c` in bucket `j`, the last pushed first, before what the chain held. -/
theorem foldl_push_apply (f : α → ℕ) : ∀ (c : List α) (t : ℕ → List α) (j : ℕ),
    c.foldl (fun t x => Function.update t (f x) (x :: t (f x))) t j =
      (c.filter fun x => f x = j).reverse ++ t j := by
  intro c
  induction c with
  | nil => simp
  | cons x c ih =>
    intro t j
    rw [List.foldl_cons, ih]
    by_cases hj : f x = j
    · subst hj
      simp
    · simp [Function.update_of_ne (Ne.symm hj), hj]

/-! ## Chains that index a list -/

/-- **The chains `tab` index `l` under the bucket function `f`**: chain `j` holds, up to order,
the elements of `l` in bucket `j`. -/
def Indexes (f : α → ℕ) (tab : ℕ → List α) (l : List α) : Prop :=
  ∀ j, (tab j).Perm (l.filter fun x => f x = j)

variable {f : α → ℕ} {tab : ℕ → List α} {l : List α}

theorem Indexes.mem_iff (h : Indexes f tab l) {x : α} {j : ℕ} : x ∈ tab j ↔ x ∈ l ∧ f x = j := by
  rw [(h j).mem_iff, List.mem_filter, decide_eq_true_iff]

/-- The empty table indexes the empty list. -/
theorem indexes_nil (f : α → ℕ) : Indexes f (fun _ => []) [] := fun _ => by simp

/-- **Pushing `x` on the head of its chain indexes the list with `x` appended.** -/
theorem Indexes.push (h : Indexes f tab l) (x : α) :
    Indexes f (Function.update tab (f x) (x :: tab (f x))) (l ++ [x]) := by
  intro j
  rw [List.filter_append]
  by_cases hj : f x = j
  · subst hj
    rw [Function.update_self]
    simpa using ((h (f x)).cons x).trans (List.perm_append_singleton _ _).symm
  · rw [Function.update_of_ne (Ne.symm hj)]
    simpa [hj] using h j

/-- **Erasing `x` where it stands on its chain indexes the list without `x`.** -/
theorem Indexes.eraseIdx [DecidableEq α] (h : Indexes f tab l) {x : α} {k : ℕ}
    (hk : (tab (f x))[k]? = some x) :
    Indexes f (Function.update tab (f x) ((tab (f x)).eraseIdx k)) (l.erase x) := by
  intro j
  rw [← List.erase_filter]
  by_cases hj : f x = j
  · subst hj
    rw [Function.update_self]
    exact (eraseIdx_perm_erase hk).trans ((h (f x)).erase x)
  · rw [Function.update_of_ne (Ne.symm hj), List.erase_of_not_mem (by simp [hj])]
    exact h j

/-! ## All the chains together -/

theorem Indexes.count [DecidableEq α] (h : Indexes f tab l) (a : α) (j : ℕ) :
    (tab j).count a = if f a = j then l.count a else 0 := by
  rw [(h j).count_eq]
  split_ifs with hj
  · exact List.count_filter (by simpa using hj)
  · exact List.count_eq_zero_of_not_mem (by simp [hj])

/-- The chains of the buckets below `n` hold each element once for each time `l` holds it, if
its bucket is below `n`. -/
theorem Indexes.count_flatMap_range [DecidableEq α] (h : Indexes f tab l) (a : α) :
    ∀ n, ((List.range n).flatMap tab).count a = if f a < n then l.count a else 0
  | 0 => by simp
  | n + 1 => by
    rw [List.range_succ, List.flatMap_append, List.count_append, h.count_flatMap_range a n,
      List.flatMap_singleton, h.count a n]
    by_cases hlt : f a < n
    · rw [if_pos hlt, if_neg (by omega), if_pos (by omega), Nat.add_zero]
    · by_cases heq : f a = n
      · rw [if_neg hlt, if_pos heq, if_pos (by omega), Nat.zero_add]
      · rw [if_neg hlt, if_neg heq, if_neg (by omega)]

/-- **When every bucket is below `n`, the chains below `n` hold the whole list.** -/
theorem Indexes.flatMap_range_perm [DecidableEq α] (h : Indexes f tab l) {n : ℕ}
    (hl : ∀ x ∈ l, f x < n) : ((List.range n).flatMap tab).Perm l := by
  rw [List.perm_iff_count]
  intro a
  rw [h.count_flatMap_range a n]
  by_cases ha : a ∈ l
  · rw [if_pos (hl a ha)]
  · rw [List.count_eq_zero_of_not_mem ha, ite_self]

theorem Indexes.sum_length [DecidableEq α] (h : Indexes f tab l) {n : ℕ}
    (hl : ∀ x ∈ l, f x < n) : ((List.range n).map fun i => (tab i).length).sum = l.length := by
  rw [← List.length_flatMap]
  exact (h.flatMap_range_perm hl).length_eq

/-! ## Searching one chain -/

/-- **A search of the chain of bucket `j`, for elements only of that bucket, is a search of the
list**, when at most one element of the list matches. -/
theorem Indexes.find?_eq (h : Indexes f tab l) {p : α → Bool} {j : ℕ}
    (hj : ∀ x, p x = true → f x = j) (hu : (l.filter p).length ≤ 1) :
    (tab j).find? p = l.find? p := by
  have hsub : ((l.filter fun x => f x = j).filter p).length ≤ 1 :=
    le_trans ((List.filter_sublist).filter p).length_le hu
  rw [find?_eq_of_perm (h j) (by rw [((h j).filter p).length_eq]; exact hsub), List.find?_filter]
  congr 1
  funext x
  by_cases hx : p x = true
  · simp [hx, hj x hx]
  · simp [hx]

/-- A search of the chain of bucket `j`, for elements only of that bucket, finds an element of
the list that matches, or nothing when none does. -/
theorem Indexes.find?_eq_none_iff (h : Indexes f tab l) {p : α → Bool} {j : ℕ}
    (hj : ∀ x, p x = true → f x = j) : (tab j).find? p = none ↔ ∀ x ∈ l, p x = false := by
  rw [List.find?_eq_none]
  constructor
  · intro hn x hx
    by_contra hpx
    exact hn x (h.mem_iff.mpr ⟨hx, hj x (by simpa using hpx)⟩) (by simpa using hpx)
  · intro hn x hx hpx
    rw [hn x (h.mem_iff.mp hx).1] at hpx
    exact Bool.false_ne_true hpx

theorem Indexes.mem_of_find? (h : Indexes f tab l) {p : α → Bool} {j : ℕ} {x : α}
    (hx : (tab j).find? p = some x) : x ∈ l ∧ p x = true :=
  ⟨(h.mem_iff.mp (List.mem_of_find?_eq_some hx)).1, List.find?_some hx⟩

end HashChains
