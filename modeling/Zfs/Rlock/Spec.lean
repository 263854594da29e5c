import Zfs.Rlock.Tree
import Zfs.Lib.Intervals

/-!
# Rlock/Spec — what the tree operations do to the ranges and counts

An entry's range is read as the naturals `[lo, hi)`, `hi` being `lr_offset + lr_length` without
the wrap of `uint64_t`; `readerCount t x` adds the `lr_count` of the reader entries of `t` that
hold `x`, and `readersHeld hs x` counts the held reader locks that hold `x`.  A tree in which no
entry's end wraps and the entries are separated (`Intervals.Separated`) is one the code's
comparisons read correctly.

Each list operation of `Rlock/Tree` gets its membership lemma and its effect on `readerCount`,
up to permutation; the AVL queries get what they pick in a separated tree.
-/

namespace Zfs

namespace LockedRange

/-- The first offset of the range. -/
def lo (e : LockedRange) : ℕ := e.lrOffset.toNat

/-- The offset after the range, as a number. -/
def hi (e : LockedRange) : ℕ := e.lrOffset.toNat + e.lrLength.toNat

/-- The range holds offset `x`. -/
def Covers (e : LockedRange) (x : ℕ) : Prop := e.lo ≤ x ∧ x < e.hi

instance (e : LockedRange) (x : ℕ) : Decidable (e.Covers x) :=
  inferInstanceAs (Decidable (_ ∧ _))

/-- The range of `e` lies inside that of `f`. -/
def Within (e f : LockedRange) : Prop := f.lo ≤ e.lo ∧ e.hi ≤ f.hi

/-- What an entry counts at `x`: its `lr_count`, if it is a reader's and holds `x`. -/
def countAt (e : LockedRange) (x : ℕ) : ℕ :=
  if e.lrType = .reader ∧ e.Covers x then e.lrCount else 0

/-- What a held lock counts at `x`: one, if it is a reader holding `x`. -/
def heldAt (h : LockedRange) (x : ℕ) : ℕ :=
  if h.lrType = .reader ∧ h.Covers x then 1 else 0

theorem toNat_lrEnd {e : LockedRange} (h : e.hi < 2 ^ 64) : e.lrEnd.toNat = e.hi := by
  rw [lrEnd, UInt64.toNat_add]
  exact Nat.mod_eq_of_lt h

end LockedRange

open LockedRange

/-- The count the reader entries of a tree give offset `x`. -/
def readerCount (t : List LockedRange) (x : ℕ) : ℕ := (t.map (·.countAt x)).sum

/-- The held reader locks that hold offset `x`. -/
def readersHeld (hs : List LockedRange) (x : ℕ) : ℕ := (hs.map (·.heldAt x)).sum

/-- The entries' ranges are separated, in offset order. -/
def TreeSeparated (t : List LockedRange) : Prop := Intervals.Separated lo hi t

section Ops

variable {t t' : List LockedRange} {lr e f : LockedRange}

/-! ## Membership -/

@[simp] theorem mem_avlAdd : f ∈ avlAdd t lr ↔ f = lr ∨ f ∈ t := List.mem_orderedInsert _

theorem avlAdd_perm (t : List LockedRange) (lr : LockedRange) : (avlAdd t lr).Perm (lr :: t) :=
  List.perm_orderedInsert _ _ _

@[simp] theorem mem_avlRemove {id : ℕ} : f ∈ avlRemove t id ↔ f ∈ t ∧ f.lrId ≠ id := by
  simp [avlRemove]

theorem mem_setEntry : f ∈ setEntry t lr ↔ (f ∈ t ∧ f.lrId ≠ lr.lrId) ∨
    (f = lr ∧ ∃ g ∈ t, g.lrId = lr.lrId) := by
  simp only [setEntry, List.mem_map]
  constructor
  · rintro ⟨g, hg, rfl⟩
    split_ifs with hid
    · exact .inr ⟨rfl, g, hg, hid⟩
    · exact .inl ⟨hg, hid⟩
  · rintro (⟨hf, hid⟩ | ⟨rfl, g, hg, hid⟩)
    · exact ⟨f, hf, by simp [hid]⟩
    · exact ⟨g, hg, by simp [hid]⟩

/-- A store to an entry keeps the addresses. -/
@[simp] theorem map_lrId_setEntry : (setEntry t lr).map (·.lrId) = t.map (·.lrId) := by
  simp only [setEntry, List.map_map]
  congr 1
  funext e
  simp only [Function.comp_apply]
  split_ifs with h
  · exact h.symm
  · rfl

/-! ## Up to permutation -/

/-- In a tree of distinct addresses, an entry and the others. -/
theorem perm_avlRemove (he : e ∈ t) (hnd : (t.map (·.lrId)).Nodup) :
    t.Perm (e :: avlRemove t e.lrId) := by
  induction t with
  | nil => simp at he
  | cons a t ih =>
    rw [List.map_cons, List.nodup_cons] at hnd
    have hrest : avlRemove t a.lrId = t := by
      refine List.filter_eq_self.mpr fun g hg => ?_
      have : g.lrId ≠ a.lrId := fun h => hnd.1 (h ▸ List.mem_map_of_mem hg)
      simpa using this
    rcases List.mem_cons.mp he with heq | he
    · have hself : avlRemove (a :: t) a.lrId = t := by
        rw [avlRemove, List.filter_cons_of_neg (by simp)]
        exact hrest
      rw [heq, hself]
    · have hne : a.lrId ≠ e.lrId := fun h => hnd.1 (h ▸ List.mem_map_of_mem he)
      have hcons : avlRemove (a :: t) e.lrId = a :: avlRemove t e.lrId := by
        simp [avlRemove, hne]
      rw [hcons]
      exact ((ih he hnd.2).cons a).trans (List.Perm.swap e a _)

/-- A store to the entry of `lr`'s address puts `lr` in its place. -/
theorem setEntry_perm (he : e ∈ t) (hid : e.lrId = lr.lrId) (hnd : (t.map (·.lrId)).Nodup) :
    (setEntry t lr).Perm (lr :: avlRemove t lr.lrId) := by
  -- the other entries keep their addresses, so the store leaves them as they are
  have hrest : setEntry (avlRemove t lr.lrId) lr = avlRemove t lr.lrId := by
    have hkeep : ∀ g ∈ avlRemove t lr.lrId, (if g.lrId = lr.lrId then lr else g) = g := by
      intro g hg
      exact if_neg (mem_avlRemove.mp hg).2
    exact (List.map_congr_left hkeep).trans (List.map_id _)
  have hmap := (perm_avlRemove he hnd).map fun g => if g.lrId = lr.lrId then lr else g
  simp only [List.map_cons, hid, if_true] at hmap
  change (setEntry t lr).Perm (lr :: setEntry (avlRemove t lr.lrId) lr) at hmap
  rwa [hrest] at hmap

/-! ## Counts -/

theorem readerCount_perm (h : t.Perm t') (x : ℕ) : readerCount t x = readerCount t' x :=
  (h.map _).sum_nat

@[simp] theorem readerCount_nil (x : ℕ) : readerCount [] x = 0 := rfl

@[simp] theorem readerCount_cons (x : ℕ) : readerCount (e :: t) x = e.countAt x + readerCount t x :=
  List.sum_cons

theorem readerCount_avlAdd (x : ℕ) : readerCount (avlAdd t lr) x = lr.countAt x + readerCount t x := by
  rw [readerCount_perm (avlAdd_perm t lr), readerCount_cons]

theorem readerCount_avlRemove (he : e ∈ t) (hnd : (t.map (·.lrId)).Nodup) (x : ℕ) :
    readerCount t x = e.countAt x + readerCount (avlRemove t e.lrId) x := by
  rw [readerCount_perm (perm_avlRemove he hnd), readerCount_cons]

theorem readerCount_setEntry (he : e ∈ t) (hid : e.lrId = lr.lrId) (hnd : (t.map (·.lrId)).Nodup)
    (x : ℕ) : readerCount (setEntry t lr) x + e.countAt x = lr.countAt x + readerCount t x := by
  rw [readerCount_perm (setEntry_perm he hid hnd), readerCount_cons,
    readerCount_avlRemove he hnd x, ← hid]
  omega

@[simp] theorem readersHeld_nil (x : ℕ) : readersHeld [] x = 0 := rfl

@[simp] theorem readersHeld_append (hs hs' : List LockedRange) (x : ℕ) :
    readersHeld (hs ++ hs') x = readersHeld hs x + readersHeld hs' x := by
  simp [readersHeld]

/-! ## Separation -/

theorem TreeSeparated.avlAdd (hs : TreeSeparated t) (hpos : ∀ f ∈ t, f.lo < f.hi)
    (hlr : lr.lo < lr.hi) (hap : ∀ f ∈ t, Intervals.Apart lo hi lr f) :
    TreeSeparated (avlAdd t lr) :=
  Intervals.Separated.orderedInsert hs (fun _ _ => UInt64.le_iff_toNat_le) hpos hlr hap

theorem TreeSeparated.avlRemove (hs : TreeSeparated t) (id : ℕ) :
    TreeSeparated (avlRemove t id) :=
  Intervals.Separated.sublist List.filter_sublist hs

/-- A store that only shrinks the range of the entry it replaces keeps the tree separated. -/
theorem TreeSeparated.setEntry (hs : TreeSeparated t)
    (hw : ∀ g ∈ t, g.lrId = lr.lrId → lr.Within g) : TreeSeparated (setEntry t lr) := by
  unfold TreeSeparated Intervals.Separated Zfs.setEntry
  rw [List.pairwise_map]
  refine List.Pairwise.imp_of_mem ?_ hs
  intro a b ha hb hab
  have hwa : ∀ a ∈ t, hi (if a.lrId = lr.lrId then lr else a) ≤ hi a ∧
      lo a ≤ lo (if a.lrId = lr.lrId then lr else a) := by
    intro a ha
    split_ifs with h
    · exact ⟨(hw a ha h).2, (hw a ha h).1⟩
    · exact ⟨le_refl _, le_refl _⟩
  have := hwa a ha
  have := hwa b hb
  omega

/-! ## What the queries pick -/

theorem avlFind_eq_some {off : UInt64} (h : avlFind t off = some e) : e ∈ t ∧ e.lrOffset = off := by
  have hmem := List.mem_of_find?_eq_some h
  have hp := List.find?_some h
  simp only [beq_iff_eq] at hp
  exact ⟨hmem, hp⟩

theorem avlFind_eq_none {off : UInt64} (h : avlFind t off = none) : ∀ e ∈ t, e.lrOffset ≠ off := by
  intro e he hoff
  have := List.find?_eq_none.mp h e he
  simp [hoff] at this

/-- The entry before: the last of those that start before `off`. -/
theorem avlNearestBefore_eq_some (hs : TreeSeparated t) (hpos : ∀ f ∈ t, f.lo < f.hi)
    {off : UInt64} (h : avlNearestBefore t off = some e) :
    e ∈ t ∧ e.lo < off.toNat ∧ ∀ f ∈ t, f.lo < off.toNat → f.lo ≤ e.lo := by
  have hmem := List.mem_of_getLast? h
  rw [List.mem_filter] at hmem
  have hlt : (t.filter (·.lrOffset < off)).Pairwise fun a b => a.lo < b.lo :=
    ((hs.sublist List.filter_sublist).lo_lt fun a ha => hpos a (List.mem_of_mem_filter ha))
  refine ⟨hmem.1, by simpa [lo, UInt64.lt_iff_toNat_lt] using hmem.2, fun f hf hflt => ?_⟩
  refine Intervals.getLast?_ge hlt h (List.mem_filter.mpr ⟨hf, ?_⟩)
  simpa [lo, UInt64.lt_iff_toNat_lt] using hflt

theorem avlNearestBefore_eq_none {off : UInt64} (h : avlNearestBefore t off = none) :
    ∀ f ∈ t, off.toNat ≤ f.lo := by
  intro f hf
  rw [avlNearestBefore, List.getLast?_eq_none_iff, List.filter_eq_nil_iff] at h
  have := h f hf
  simp only [decide_eq_true_eq, UInt64.lt_iff_toNat_lt, not_lt] at this
  exact this

/-- The entry after: the first of those that start after `off`. -/
theorem avlNearestAfter_eq_some (hs : TreeSeparated t) (hpos : ∀ f ∈ t, f.lo < f.hi)
    {off : UInt64} (h : avlNearestAfter t off = some e) :
    e ∈ t ∧ off.toNat < e.lo ∧ ∀ f ∈ t, off.toNat < f.lo → e.lo ≤ f.lo := by
  have hp := List.find?_some h
  simp only [decide_eq_true_eq, UInt64.lt_iff_toNat_lt] at hp
  refine ⟨List.mem_of_find?_eq_some h, hp, fun f hf hflt => ?_⟩
  exact Intervals.find?_le (hs.lo_lt hpos) h hf (by simpa [lo, UInt64.lt_iff_toNat_lt] using hflt)

theorem avlNearestAfter_eq_none {off : UInt64} (h : avlNearestAfter t off = none) :
    ∀ f ∈ t, f.lo ≤ off.toNat := by
  intro f hf
  have := List.find?_eq_none.mp h f hf
  simp only [decide_eq_true_eq, UInt64.lt_iff_toNat_lt, not_lt] at this
  exact this

@[simp] theorem mem_avlAfter {off : UInt64} : f ∈ avlAfter t off ↔ f ∈ t ∧ off.toNat < f.lo := by
  simp [avlAfter, lo, UInt64.lt_iff_toNat_lt]

end Ops

end Zfs
