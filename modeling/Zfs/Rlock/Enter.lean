import Zfs.Rlock.AddReader

/-!
# Rlock/Enter — what the gates of `zfs_rangelock_enter` let through

An enter that does not wait has checked the tree.  A reader gets in only when no writer overlaps
its range: the entry at its offset or the one before it is looked at first, then the entries
after it one by one (`enterReaderScan`).  A writer gets in only when the entry at its offset, the
next one and the one before all stay out of its range, which the code compares as `uint64_t`
ends: that is sound only for a range that does not wrap.

* `zfsRangelockEnterReader_spec`: a reader let in overlaps no writer, and the tree then gets it
  from `zfs_rangelock_add_reader`.
* `zfsRangelockEnterWriter_spec`: a writer let in, with a range that does not wrap, is apart from
  every entry and goes into the tree.
* `clampLength_fits`: the clamped range of `zfs_rangelock_enter` never wraps.
-/

namespace Zfs

open LockedRange

section Queries

variable {t : List LockedRange} {n : ℕ} {off : UInt64} {p : LockedRange}

/-- The entry `zfs_rangelock_enter_reader` starts from, at `off` or the nearest before: it starts
last among those that start by `off`. -/
theorem avlPrev_eq_some (ht : TreeOk t n)
    (h : (avlFind t off).or (avlNearestBefore t off) = some p) :
    p ∈ t ∧ p.lo ≤ off.toNat ∧ ∀ f ∈ t, f.lo ≤ off.toNat → f.lo ≤ p.lo := by
  rcases hfind : avlFind t off with _ | q
  · rw [hfind, Option.none_or] at h
    obtain ⟨hp, hplo, hmax⟩ := avlNearestBefore_eq_some ht.sep ht.pos h
    refine ⟨hp, hplo.le, fun f hf hle => hmax f hf (lt_of_le_of_ne hle fun heq => ?_)⟩
    exact avlFind_eq_none hfind f hf (UInt64.toNat_inj.mp heq)
  · rw [hfind, Option.some_or, Option.some.injEq] at h
    subst h
    obtain ⟨hq, hqoff⟩ := avlFind_eq_some hfind
    have hqlo : q.lo = off.toNat := by rw [lo, hqoff]
    exact ⟨hq, hqlo.le, fun f _ hf => hqlo ▸ hf⟩

/-- With no entry at `off` or before it, every entry starts after `off`. -/
theorem avlPrev_eq_none (h : (avlFind t off).or (avlNearestBefore t off) = none) :
    ∀ f ∈ t, off.toNat < f.lo := by
  rw [Option.or_eq_none_iff] at h
  intro f hf
  refine lt_of_le_of_ne (avlNearestBefore_eq_none h.2 f hf) fun heq => ?_
  exact avlFind_eq_none h.1 f hf (UInt64.toNat_inj.mp heq.symm)

end Queries

/-! ## Readers -/

section Readers

variable {s : Rangelock} {t : List LockedRange} {n O : ℕ} {new p : LockedRange}

/-- **The scan** over entries in order: when it lets the reader in, no entry that starts before
`endR` is a writer. -/
theorem enterReaderScan_spec {endR : UInt64} :
    ∀ {L : List LockedRange}, Intervals.Separated lo hi L → (∀ e ∈ L, EntryOk e) →
      enterReaderScan endR L = true → ∀ e ∈ L, e.lo < endR.toNat → e.lrType ≠ .writer
  | [], _, _, _ => fun e he => absurd he List.not_mem_nil
  | next :: rest, hs, hok, h => by
    rw [Intervals.separated_cons] at hs
    have hnext := hok next List.mem_cons_self
    have hend := toNat_lrEnd hnext.fits
    intro e he helt
    -- an entry after `next` starts where `next` ends or later
    have hrest : e ∈ rest → next.hi ≤ e.lo := hs.1 e
    rw [enterReaderScan] at h
    split_ifs at h with h₁ h₂ h₃
    · -- the range ends before `next`
      rw [UInt64.le_iff_toNat_le] at h₁
      change endR.toNat ≤ next.lo at h₁
      have := hnext.pos
      rcases List.mem_cons.mp he with rfl | he
      · exact absurd helt (Nat.not_lt_of_le h₁)
      · have := hrest he
        exact absurd helt (by show ¬ e.lo < endR.toNat; omega)
    · -- the range ends inside `next`, a reader
      rw [UInt64.le_iff_toNat_le, hend] at h₃
      change endR.toNat ≤ next.hi at h₃
      rcases List.mem_cons.mp he with rfl | he
      · exact h₂
      · have := hrest he
        exact absurd helt (by show ¬ e.lo < endR.toNat; omega)
    · rcases List.mem_cons.mp he with rfl | he
      · exact h₂
      · exact enterReaderScan_spec hs.2 (fun f hf => hok f (List.mem_cons_of_mem _ hf)) h e he helt

/-- The scan over the entries after offset `a`. -/
theorem enterReaderScan_after (ht : TreeOk t n) {a endR : UInt64}
    (h : enterReaderScan endR (avlAfter t a) = true) :
    ∀ e ∈ t, a.toNat < e.lo → e.lo < endR.toNat → e.lrType ≠ .writer := fun e he hae =>
  enterReaderScan_spec (ht.sep.sublist List.filter_sublist)
    (fun f hf => ht.entry f (mem_avlAfter.mp hf).1) h e (mem_avlAfter.mpr ⟨he, hae⟩)

/-- An entry that overlaps `[O, E)` and starts by `p`, the last to start by `O`, is `p` itself
when `p` reaches past `O`. -/
theorem eq_of_overlap_prev {t : List LockedRange} (ht : TreeOk t n) (hp : p ∈ t)
    {e : LockedRange} (he : e ∈ t) (hle : e.lo ≤ p.lo) (hpO : p.lo ≤ O) (hO : O < e.hi) : e = p := by
  by_contra hne
  have := ht.pos e he
  have := ht.pos p hp
  rcases ht.apart he hp hne with h | h <;> omega

/-- **The reader gate**: a reader `zfs_rangelock_enter_reader` lets in overlaps no writer of the
tree, and the tree then gets it from `zfs_rangelock_add_reader`, from the entry at its offset or
the nearest before. -/
theorem zfsRangelockEnterReader_spec {r : Rangelock × LockedRange} (ht : TreeOk s.rlTree n)
    (hfit : new.hi < 2 ^ 64) (h : zfsRangelockEnterReader s new = some r) :
    (∀ e ∈ s.rlTree, e.lo < new.hi → new.lo < e.hi → e.lrType ≠ .writer) ∧
      r = zfsRangelockAddReader s new
        ((avlFind s.rlTree new.lrOffset).or (avlNearestBefore s.rlTree new.lrOffset)) := by
  have hend := toNat_add_of_lt hfit
  rw [zfsRangelockEnterReader] at h
  rcases hprev : (avlFind s.rlTree new.lrOffset).or (avlNearestBefore s.rlTree new.lrOffset)
    with _ | p
  · -- nothing at or before the offset: every overlapping entry is after it
    simp only [hprev] at h
    split_ifs at h with hscan
    have hgt := avlPrev_eq_none hprev
    refine ⟨fun e he heE _ => ?_, (Option.some.inj h).symm⟩
    exact enterReaderScan_after ht hscan e he (hgt e he) (by rw [hend]; exact heE)
  obtain ⟨hp, hplo, hmax⟩ := avlPrev_eq_some ht hprev
  have hpend := toNat_lrEnd (ht.entry p hp).fits
  simp only [hprev] at h
  -- an overlapping entry starts after `p`, or is `p`
  have hcases : ∀ e ∈ s.rlTree, new.lo < e.hi → p.lo < e.lo ∨ e = p := by
    intro e he hO
    by_cases hlt : p.lo < e.lo
    · exact .inl hlt
    · exact .inr (eq_of_overlap_prev ht hp he (Nat.le_of_not_lt hlt) hplo hO)
  split_ifs at h with hin hw hinside hscan hscan
  · -- `p` is a reader holding the whole range
    rw [UInt64.lt_iff_toNat_lt, hend, hpend] at hinside
    change new.hi < p.hi at hinside
    refine ⟨fun e he heE hO => ?_, (Option.some.inj h).symm⟩
    rcases hcases e he hO with hlt | rfl
    · have := ht.pos e he
      exact absurd (ht.eq_of_covers he hp ⟨le_rfl, this⟩ ⟨hlt.le, by omega⟩ ▸ hlt)
        (lt_irrefl _)
    · exact hw
  · -- `p` is a reader, and the entries after it are scanned
    refine ⟨fun e he heE hO => ?_, (Option.some.inj h).symm⟩
    rcases hcases e he hO with hlt | rfl
    · exact enterReaderScan_after ht hscan e he hlt (by rw [hend]; exact heE)
    · exact hw
  · -- `p` ends by the offset, and the entries after it are scanned
    rw [UInt64.lt_iff_toNat_lt, hpend] at hin
    change ¬ new.lo < p.hi at hin
    refine ⟨fun e he heE hO => ?_, (Option.some.inj h).symm⟩
    rcases hcases e he hO with hlt | rfl
    · exact enterReaderScan_after ht hscan e he hlt (by rw [hend]; exact heE)
    · exact absurd hO (by show ¬ new.lo < e.hi; omega)

end Readers

/-! ## Writers -/

section Writers

variable {s s' : Rangelock} {n : ℕ} {new : LockedRange}

/-- **The writer gate**: a writer `zfs_rangelock_enter_writer` lets in, with a range that does not
wrap, is apart from every entry and goes into the tree. -/
theorem zfsRangelockEnterWriter_spec (ht : TreeOk s.rlTree n) (hfit : new.hi < 2 ^ 64)
    (h : zfsRangelockEnterWriter s new = some s') :
    s' = { s with rlTree := avlAdd s.rlTree new } ∧
      ∀ f ∈ s.rlTree, Intervals.Apart lo hi new f := by
  have hend := toNat_lrEnd hfit
  rw [zfsRangelockEnterWriter] at h
  split_ifs at h with hnil hat hnext hprev
  · refine ⟨(Option.some.inj h).symm, fun f hf => ?_⟩
    rw [hnil] at hf
    exact absurd hf List.not_mem_nil
  refine ⟨(Option.some.inj h).symm, fun f hf => ?_⟩
  rw [Option.isSome_iff_ne_none, not_not] at hat
  rcases lt_trichotomy f.lo new.lo with hlt | heq | hgt
  · -- before the offset: the entry before ends by it
    rcases hb : avlNearestBefore s.rlTree new.lrOffset with _ | b
    · exact absurd hlt (Nat.not_lt_of_le (avlNearestBefore_eq_none hb f hf))
    obtain ⟨hb', -, hmax⟩ := avlNearestBefore_eq_some ht.sep ht.pos hb
    rw [hb] at hprev
    simp only [Option.any_some, decide_eq_true_eq, GT.gt, UInt64.lt_iff_toNat_lt,
      toNat_lrEnd (ht.entry b hb').fits, not_lt] at hprev
    change b.hi ≤ new.lo at hprev
    refine .inr ?_
    by_cases hfb : f = b
    · exact hfb ▸ hprev
    · have := hmax f hf hlt
      have := ht.pos b hb'
      rcases ht.apart hf hb' hfb with h | h <;> omega
  · exact absurd (UInt64.toNat_inj.mp heq) (avlFind_eq_none hat f hf)
  · -- after the offset: the next entry starts after the range
    rcases hn : avlNearestAfter s.rlTree new.lrOffset with _ | m
    · exact absurd hgt (Nat.not_lt_of_le (avlNearestAfter_eq_none hn f hf))
    obtain ⟨-, -, hmin⟩ := avlNearestAfter_eq_some ht.sep ht.pos hn
    rw [hn] at hnext
    simp only [Option.any_some, decide_eq_true_eq, UInt64.lt_iff_toNat_lt, hend,
      not_lt] at hnext
    exact .inl (le_trans hnext (hmin f hf hgt))

end Writers

/-! ## The clamp -/

/-- **The clamp** of `zfs_rangelock_enter`: the range it locks ends by `UINT64_MAX`. -/
theorem clampLength_fits (off len : UInt64) :
    off.toNat + (clampLength off len).toNat < 2 ^ 64 := by
  rw [clampLength]
  split_ifs with h
  · have hle : off ≤ uint64Max := UInt64.le_iff_toNat_le.mpr (by
      have := off.toNat_lt
      show off.toNat ≤ 2 ^ 64 - 1
      omega)
    rw [UInt64.toNat_sub_of_le _ _ hle]
    have := off.toNat_lt
    show off.toNat + (2 ^ 64 - 1 - off.toNat) < 2 ^ 64
    omega
  · rw [UInt64.lt_iff_toNat_lt, UInt64.toNat_add, not_lt] at h
    have := len.toNat_lt
    have := off.toNat_lt
    by_contra hge
    rw [Nat.mod_eq_sub_mod (by omega), Nat.mod_eq_of_lt (by omega)] at h
    omega

end Zfs
