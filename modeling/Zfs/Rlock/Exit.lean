import Mathlib.Data.List.TakeWhile
import Zfs.Rlock.Reader

/-!
# Rlock/Exit — `zfs_rangelock_exit_reader` releases the proxies of a lock

A reader whose range proxies hold leaves by walking the tree from the entry at its offset, taking
each proxy's length from its own until nothing is left: each proxy counts one reader less, and
one at its last reader leaves the tree.  The walk relies on the proxies from the offset on tiling
the lock's range exactly; when they do (`ProxyTiled`), the proxies it visits are that tiling, in
order, and their lengths add up to the lock's (`walk_split`).

`Released t R t'` says what releasing the proxies `R` does to a tree, entry by entry and in the
count of every offset (`coverCount`).

* `exitReaderWalk_released`: the walk over `R ++ rest`, with `R`'s lengths as its length,
  releases `R`.
* `zfsRangelockExitReader_tiled`: a count-0 lock tiled by proxies releases exactly the proxies of
  its range, one reader less at each of its offsets.
-/

namespace Zfs

open LockedRange

/-- How many of the entries of `R` hold offset `x`. -/
def coverCount (R : List LockedRange) (x : ℕ) : ℕ := (R.map fun p => if p.Covers x then 1 else 0).sum

@[simp] theorem coverCount_nil (x : ℕ) : coverCount [] x = 0 := rfl

@[simp] theorem coverCount_cons (p : LockedRange) (R : List LockedRange) (x : ℕ) :
    coverCount (p :: R) x = (if p.Covers x then 1 else 0) + coverCount R x :=
  List.sum_cons

/-! ## Releasing proxies -/

/-- `t'` is `t` with one reader less on each entry of `R`: an entry at its last reader leaves the
tree, the others count one less. -/
structure Released (t R t' : List LockedRange) : Prop where
  count : ∀ x, readerCount t' x + coverCount R x = readerCount t x
  old : ∀ f ∈ t', (f ∈ t ∧ f.lrId ∉ R.map (·.lrId)) ∨
    ∃ p ∈ R, 2 ≤ p.lrCount ∧ f = { p with lrCount := p.lrCount - 1 }
  keep : ∀ f ∈ t, f.lrId ∉ R.map (·.lrId) → f ∈ t'
  dec : ∀ p ∈ R, 2 ≤ p.lrCount → { p with lrCount := p.lrCount - 1 } ∈ t'

section Released

variable {n : ℕ} {t t₁ t' R : List LockedRange} {p : LockedRange}

theorem Released.nil (t : List LockedRange) : Released t [] t :=
  ⟨fun x => by rw [coverCount_nil, Nat.add_zero], fun f hf => .inl ⟨hf, List.not_mem_nil⟩,
    fun f hf _ => hf, fun p hp => absurd hp List.not_mem_nil⟩

/-- **One proxy released**, as a turn of the walk does it. -/
theorem released_one (ht : TreeOk t n) (hp : p ∈ t) (hpx : p.lrProxy = true) :
    TreeOk (if p.lrCount - 1 = 0 then avlRemove t p.lrId
      else setEntry t { p with lrCount := p.lrCount - 1 }) n ∧
    Released t [p] (if p.lrCount - 1 = 0 then avlRemove t p.lrId
      else setEntry t { p with lrCount := p.lrCount - 1 }) := by
  have hok := ht.entry p hp
  have hr := hok.proxyReader hpx
  have hc := hok.readerPos hr
  have hids : ∀ f : LockedRange, f.lrId ∉ [p].map (·.lrId) ↔ f.lrId ≠ p.lrId := by simp
  split_ifs with h0
  · -- its last reader: the proxy leaves
    refine ⟨ht.avlRemove _, ⟨fun x => ?_, fun f hf => .inl ?_, fun f hf hid => ?_,
      fun q hq h2 => by rw [List.mem_singleton.mp hq] at h2; omega⟩⟩
    · rw [readerCount_avlRemove hp ht.nodup x, countAt_of_reader hr, coverCount_cons,
        coverCount_nil]
      split_ifs <;> omega
    · exact ⟨(mem_avlRemove.mp hf).1, (hids f).mpr (mem_avlRemove.mp hf).2⟩
    · exact mem_avlRemove.mpr ⟨hf, (hids f).mp hid⟩
  · -- one reader less
    have hok' : EntryOk { p with lrCount := p.lrCount - 1 } :=
      ⟨hok.pos, hok.fits, fun _ => by show 0 < p.lrCount - 1; omega, hok.proxyReader,
        fun h => absurd hpx (by rw [show p.lrProxy = false from h]; decide)⟩
    have hw : ∀ g ∈ t, g.lrId = p.lrId → ({ p with lrCount := p.lrCount - 1 }).Within g := by
      intro g hg hid
      rw [ht.eq_of_lrId hg hp hid]
      exact ⟨le_rfl, le_rfl⟩
    refine ⟨ht.setEntry hok' hw, ⟨fun x => ?_, fun f hf => ?_, fun f hf hid => ?_,
      fun q hq _ => ?_⟩⟩
    · have := readerCount_setEntry hp
        (show p.lrId = ({ p with lrCount := p.lrCount - 1 } : LockedRange).lrId from rfl) ht.nodup x
      rw [countAt_of_reader hr, countAt_of_reader (e := { p with lrCount := p.lrCount - 1 }) hr]
        at this
      rw [coverCount_cons, coverCount_nil]
      have hcov : ({ p with lrCount := p.lrCount - 1 } : LockedRange).Covers x ↔ p.Covers x :=
        Iff.rfl
      simp only [hcov] at this
      split_ifs at this ⊢ <;> omega
    · rcases mem_setEntry.mp hf with ⟨hf, hid⟩ | ⟨rfl, -⟩
      · exact .inl ⟨hf, (hids f).mpr hid⟩
      · exact .inr ⟨p, List.mem_singleton_self p, by omega, rfl⟩
    · exact mem_setEntry.mpr (.inl ⟨hf, (hids f).mp hid⟩)
    · rw [List.mem_singleton.mp hq]
      exact mem_setEntry.mpr (.inr ⟨rfl, p, hp, rfl⟩)

/-- Releasing `p`, then `R`, releases `p :: R`. -/
theorem Released.cons (h₁ : Released t [p] t₁) (h₂ : Released t₁ R t')
    (hpR : p.lrId ∉ R.map (·.lrId)) : Released t (p :: R) t' where
  count x := by
    rw [← h₁.count x, ← h₂.count x, coverCount_cons, coverCount_cons, coverCount_nil]
    omega
  old f hf := by
    rcases h₂.old f hf with ⟨hf₁, hid⟩ | ⟨q, hq, h2, rfl⟩
    · rcases h₁.old f hf₁ with ⟨hf₀, hid₀⟩ | ⟨q, hq, h2, rfl⟩
      · refine .inl ⟨hf₀, ?_⟩
        rw [List.map_cons, List.mem_cons, not_or]
        exact ⟨by simpa using hid₀, hid⟩
      · exact .inr ⟨q, List.mem_cons.mpr (.inl (List.mem_singleton.mp hq)), h2, rfl⟩
    · exact .inr ⟨q, List.mem_cons_of_mem _ hq, h2, rfl⟩
  keep f hf hid := by
    rw [List.map_cons, List.mem_cons, not_or] at hid
    exact h₂.keep f (h₁.keep f hf (by simpa using hid.1)) hid.2
  dec q hq h2 := by
    rcases List.mem_cons.mp hq with rfl | hq
    · exact h₂.keep _ (h₁.dec q (List.mem_singleton_self q) h2) hpR
    · exact h₂.dec q hq h2

end Released

/-! ## The walk -/

section Walk

variable {n : ℕ} {len : UInt64} {p : LockedRange} {rest : List LockedRange} {s : Rangelock}

/-- A turn of the walk with some length left. -/
theorem exitReaderWalk_cons (hlen : len ≠ 0) :
    exitReaderWalk len (p :: rest) s = exitReaderWalk (len - p.lrLength) rest
      { s with rlTree := if p.lrCount - 1 = 0 then avlRemove s.rlTree p.lrId
          else setEntry s.rlTree { p with lrCount := p.lrCount - 1 } } := by
  rw [exitReaderWalk, if_neg hlen]
  dsimp only
  split_ifs <;> rfl

/-- The walk only touches the tree. -/
theorem exitReaderWalk_rest (L : List LockedRange) (len : UInt64) (s : Rangelock) :
    (exitReaderWalk len L s).rlHandles = s.rlHandles ∧
      (exitReaderWalk len L s).nextId = s.nextId := by
  induction L generalizing len s with
  | nil => exact ⟨rfl, rfl⟩
  | cons p rest ih =>
    by_cases h0 : len = 0
    · rw [exitReaderWalk, if_pos h0]
      exact ⟨rfl, rfl⟩
    · rw [exitReaderWalk_cons h0]
      exact ih _ _

/-- **The walk** over `R ++ rest`, its length that of the proxies `R`, releases `R`. -/
theorem exitReaderWalk_released : ∀ (R rest : List LockedRange) (len : UInt64) (s : Rangelock),
    TreeOk s.rlTree n → (∀ p ∈ R, p ∈ s.rlTree ∧ p.lrProxy = true) → (R.map (·.lrId)).Nodup →
    (∀ p ∈ R, p.lo < p.hi) → len.toNat = (R.map fun p => p.hi - p.lo).sum →
    TreeOk (exitReaderWalk len (R ++ rest) s).rlTree n ∧
      Released s.rlTree R (exitReaderWalk len (R ++ rest) s).rlTree
  | [], rest, len, s, ht, _, _, _, hlen => by
    -- nothing is left to take
    have h0 : len = 0 := UInt64.toNat_inj.mp (by rw [hlen]; rfl)
    subst h0
    cases rest with
    | nil => exact ⟨ht, Released.nil _⟩
    | cons q rest => exact ⟨ht, by rw [List.nil_append, exitReaderWalk, if_pos rfl]; exact Released.nil _⟩
  | p :: R, rest, len, s, ht, hR, hnd, hpos, hlen => by
    rw [List.map_cons, List.nodup_cons] at hnd
    rw [List.map_cons, List.sum_cons] at hlen
    obtain ⟨hp, hpx⟩ := hR p List.mem_cons_self
    have hp₀ := hpos p List.mem_cons_self
    have hplen : p.lrLength.toNat = p.hi - p.lo := by
      show p.lrLength.toNat = p.lrOffset.toNat + p.lrLength.toNat - p.lrOffset.toNat
      omega
    have hne : len ≠ 0 := fun h => by
      rw [h] at hlen
      change 0 = _ at hlen
      omega
    have hle : p.lrLength ≤ len := UInt64.le_iff_toNat_le.mpr (by omega)
    obtain ⟨ht₁, h₁⟩ := released_one ht hp hpx
    rw [List.cons_append, exitReaderWalk_cons hne]
    -- the other proxies are still in the tree as they were
    have hR₁ : ∀ q ∈ R, q ∈ (if p.lrCount - 1 = 0 then avlRemove s.rlTree p.lrId
        else setEntry s.rlTree { p with lrCount := p.lrCount - 1 }) ∧ q.lrProxy = true := by
      intro q hq
      obtain ⟨hq₀, hqx⟩ := hR q (List.mem_cons_of_mem _ hq)
      refine ⟨h₁.keep q hq₀ ?_, hqx⟩
      rw [List.map_cons, List.map_nil, List.mem_singleton]
      exact fun hid => hnd.1 (hid ▸ List.mem_map_of_mem hq)
    obtain ⟨ht', h₂⟩ := exitReaderWalk_released R rest (len - p.lrLength) { s with rlTree := _ }
      ht₁ hR₁ hnd.2
      (fun q hq => hpos q (List.mem_cons_of_mem _ hq))
      (by rw [UInt64.toNat_sub_of_le _ _ hle]; omega)
    exact ⟨ht', h₁.cons h₂ hnd.1⟩

end Walk

/-! ## The proxies of a lock -/

section Exit

variable {n : ℕ} {t : List LockedRange} {h e : LockedRange} {s : Rangelock}

/-- **The walk's list** from the entry `e` at a tiled lock's offset starts with the proxies of the
lock's range, in order: they hold each of its offsets once and add up to its length. -/
theorem walk_split (ht : TreeOk t n) (htile : ProxyTiled t h)
    (helo : e.lo = h.lo) :
    ∃ R rest, t.filter (e.lrOffset ≤ ·.lrOffset) = R ++ rest ∧
      (∀ p ∈ R, p ∈ t ∧ p.lrProxy = true ∧ p.Within h) ∧ (R.map (·.lrId)).Nodup ∧
      (∀ x, coverCount R x = if h.Covers x then 1 else 0) ∧
      (R.map fun p => p.hi - p.lo).sum = h.hi - h.lo := by
  set L := t.filter (e.lrOffset ≤ ·.lrOffset) with hL
  have hsub : L.Sublist t := List.filter_sublist
  have hmemL : ∀ p, p ∈ L ↔ p ∈ t ∧ h.lo ≤ p.lo := by
    intro p
    rw [hL, List.mem_filter, decide_eq_true_iff, UInt64.le_iff_toNat_le, ← helo]
    rfl
  have hsep : Intervals.Separated lo hi L := ht.sep.sublist hsub
  have hsorted := hsep.lo_lt fun a ha => ht.pos a (hsub.subset ha)
  set R := L.takeWhile fun p => decide (p.lo < h.hi) with hR
  have hRsub : R.Sublist t := (List.takeWhile_sublist _).trans hsub
  -- an offset of the lock is held by a proxy of the tiling, and that proxy is in `R`
  have hcov : ∀ x, h.Covers x → ∃ q ∈ R, q.Covers x ∧ q.lrProxy = true ∧ q.Within h := by
    intro x hx
    obtain ⟨q, hq, hqx, hxq, hw⟩ := htile x hx
    have hqL := (hmemL q).mpr ⟨hq, hw.1⟩
    refine ⟨q, Intervals.mem_takeWhile_of_pairwise hsorted (fun a b hab hb => ?_) hqL ?_,
      hxq, hqx, hw⟩
    · rw [decide_eq_true_iff] at hb ⊢
      omega
    · rw [decide_eq_true_iff]
      exact lt_of_le_of_lt hxq.1 hx.2
  -- every entry of `R` is a proxy of the tiling
  have hRp : ∀ p ∈ R, p ∈ t ∧ p.lrProxy = true ∧ p.Within h := by
    intro p hp
    have hlt : p.lo < h.hi := by simpa using List.mem_takeWhile_imp hp
    obtain ⟨hpt, hge⟩ := (hmemL p).mp ((List.takeWhile_sublist _).subset hp)
    obtain ⟨q, hq, hqx, hxq, hw⟩ := htile p.lo ⟨hge, hlt⟩
    have hpq := ht.eq_of_covers hpt hq ⟨le_rfl, ht.pos p hpt⟩ hxq
    subst hpq
    exact ⟨hpt, hqx, hw⟩
  refine ⟨R, L.dropWhile fun p => decide (p.lo < h.hi), List.takeWhile_append_dropWhile.symm,
    hRp, ht.nodup.sublist (hRsub.map _), fun x => ?_, ?_⟩
  · by_cases hx : h.Covers x
    · obtain ⟨q, hq, hxq, -⟩ := hcov x hx
      rw [if_pos hx, coverCount, Intervals.Separated.sum_eq_of_covers
        (hsep.sublist (List.takeWhile_sublist _)) hq hxq (fun p => if p.Covers x then 1 else 0)
        fun b hb => if_neg hb, if_pos hxq]
    · rw [if_neg hx, coverCount]
      refine List.sum_eq_zero_iff_forall_eq_nat.mpr fun k hk => ?_
      obtain ⟨p, hp, rfl⟩ := List.mem_map.mp hk
      have hw := (hRp p hp).2.2
      refine if_neg fun hxp => hx ⟨?_, ?_⟩
      · exact le_trans hw.1 hxp.1
      · exact lt_of_lt_of_le hxp.2 hw.2
  · refine (hsep.sublist (List.takeWhile_sublist _)).sum_length
      (fun c hc => ht.pos c (hRsub.subset hc)) (fun c hc => (hRp c hc).2.2) fun x h₁ h₂ => ?_
    obtain ⟨q, hq, hxq, -⟩ := hcov x ⟨h₁, h₂⟩
    exact ⟨q, hq, hxq⟩

/-- **The exit of a count-0 reader** whose range proxies tile: exactly the proxies of its range
are released, one reader less at each of its offsets. -/
theorem zfsRangelockExitReader_tiled (ht : TreeOk s.rlTree n) (hc : h.lrCount ≠ 1)
    (hpos : h.lo < h.hi) (htile : ProxyTiled s.rlTree h) :
    (zfsRangelockExitReader s h).rlHandles = s.rlHandles ∧
      (zfsRangelockExitReader s h).nextId = s.nextId ∧
      TreeOk (zfsRangelockExitReader s h).rlTree n ∧
      ∃ R, (∀ p ∈ R, p ∈ s.rlTree ∧ p.lrProxy = true ∧ p.Within h) ∧
        (∀ x, coverCount R x = if h.Covers x then 1 else 0) ∧
        Released s.rlTree R (zfsRangelockExitReader s h).rlTree := by
  rw [zfsRangelockExitReader, if_neg hc]
  -- the proxy at the lock's offset is found
  obtain ⟨q, hq, -, hxq, hw⟩ := htile h.lo ⟨le_rfl, hpos⟩
  have hqlo : q.lrOffset = h.lrOffset := UInt64.toNat_inj.mp (le_antisymm hxq.1 hw.1)
  rcases hf : avlFind s.rlTree h.lrOffset with _ | e
  · exact absurd hqlo (avlFind_eq_none hf q hq)
  obtain ⟨-, heoff⟩ := avlFind_eq_some hf
  simp only
  obtain ⟨R, rest, hL, hRp, hnd, hcount, hsum⟩ :=
    walk_split ht htile (e := e) (by rw [lo, heoff]; rfl)
  rw [hL]
  obtain ⟨hrest, hnext⟩ := exitReaderWalk_rest (R ++ rest) h.lrLength s
  obtain ⟨ht', hrel⟩ := exitReaderWalk_released R rest h.lrLength s ht
    (fun p hp => ⟨(hRp p hp).1, (hRp p hp).2.1⟩) hnd
    (fun p hp => ht.pos p (hRp p hp).1) (by
      rw [hsum]
      show h.lrLength.toNat = h.lrOffset.toNat + h.lrLength.toNat - h.lrOffset.toNat
      omega)
  exact ⟨hrest, hnext, ht', R, hRp, hcount, hrel⟩

end Exit

end Zfs
