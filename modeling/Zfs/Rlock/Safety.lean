import Zfs.Rlock.Invariant

/-!
# Rlock/Safety — range locks are exclusive and exactly counted

What the invariant gives a reachable range lock, in the terms of `zfs_rlock.c`: the entries of
`rl_tree` hold disjoint nonempty ranges; a writer's range meets no other lock's; a reader is in
the tree with count 1, or at count 0 with its range tiled by a run of consecutive proxies
(`ProxyRun`); every reader entry counts exactly the readers that hold its offsets; and
`zfs_rangelock_exit` takes away exactly the leaving lock's count.

* `ProxyTiled.run`: proxies that tile a range in a well-formed tree are one run of it.
* `rangelock_safe`: every state reachable with ranges from `rl_cb` that do not wrap is
  `RangelockSafe`.
* `rangelock_wrapping_writer_overlaps`: when `rl_cb` may hand out any range, a writer whose range
  wraps is let in over a held reader.
-/

namespace Zfs

open LockedRange

/-- `h`'s range is tiled by a run of consecutive entries of `t`, all proxies, each ending where
the next starts, from `h`'s offset to its end. -/
def ProxyRun (t : List LockedRange) (h : LockedRange) : Prop :=
  ∃ run, run <:+: t ∧ (∀ p ∈ run, p.lrProxy = true) ∧ run.IsChain (fun a b => a.hi = b.lo) ∧
    run.head?.map lo = some h.lo ∧ run.getLast?.map hi = some h.hi

section Run

variable {t : List LockedRange} {n : ℕ} {h : LockedRange}

/-- **A tiling by proxies is a run**: in a well-formed tree, the entries that start inside a
tiled range are the proxies of the tiling, one after the other. -/
theorem ProxyTiled.run (ht : TreeOk t n) (hpos : h.lo < h.hi) (htile : ProxyTiled t h) :
    ProxyRun t h := by
  have hsorted := ht.sep.lo_lt ht.pos
  have hDsub : (t.dropWhile fun p => decide (p.lo < h.lo)).Sublist t :=
    (List.dropWhile_suffix _).sublist
  have hDmem : ∀ p, p ∈ t.dropWhile (fun p => decide (p.lo < h.lo)) ↔ p ∈ t ∧ h.lo ≤ p.lo := by
    intro p
    rw [Intervals.mem_dropWhile_of_pairwise hsorted fun a b hab hb => by
      rw [decide_eq_true_iff] at hb ⊢
      omega, decide_eq_false_iff_not, not_lt]
  set run := (t.dropWhile fun p => decide (p.lo < h.lo)).takeWhile fun p => decide (p.lo < h.hi)
  have hrunsub : run.Sublist t := (List.takeWhile_sublist _).trans hDsub
  have hmem : ∀ p, p ∈ run ↔ p ∈ t ∧ h.lo ≤ p.lo ∧ p.lo < h.hi := by
    intro p
    constructor
    · intro hp
      have hlt : p.lo < h.hi := by simpa using List.mem_takeWhile_imp hp
      exact ⟨hrunsub.subset hp, ((hDmem p).mp ((List.takeWhile_sublist _).subset hp)).2, hlt⟩
    · rintro ⟨hp, hge, hlt⟩
      refine Intervals.mem_takeWhile_of_pairwise (hsorted.sublist hDsub) (fun a b hab hb => ?_)
        ((hDmem p).mpr ⟨hp, hge⟩) (decide_eq_true hlt)
      rw [decide_eq_true_iff] at hb ⊢
      omega
  have hrunsorted := hsorted.sublist hrunsub
  -- every entry of the run is a proxy of the tiling
  have hproxy : ∀ p ∈ run, p.lrProxy = true ∧ p.Within h := by
    intro p hp
    obtain ⟨hpt, hge, hlt⟩ := (hmem p).mp hp
    obtain ⟨q, hq, hqx, hxq, hw⟩ := htile p.lo ⟨hge, hlt⟩
    rw [ht.eq_of_covers hpt hq ⟨le_rfl, ht.pos p hpt⟩ hxq]
    exact ⟨hqx, hw⟩
  -- and every offset of `h` is held by an entry of the run
  have hcov : ∀ x, h.Covers x → ∃ q ∈ run, q.Covers x := by
    intro x hx
    obtain ⟨q, hq, -, hxq, hw⟩ := htile x hx
    exact ⟨q, (hmem q).mpr ⟨hq, hw.1, lt_of_le_of_lt hxq.1 hx.2⟩, hxq⟩
  obtain ⟨q₀, hq₀, hxq₀⟩ := hcov h.lo ⟨le_rfl, hpos⟩
  obtain ⟨q₁, hq₁, hxq₁⟩ := hcov (h.hi - 1) ⟨by omega, by omega⟩
  refine ⟨run, (List.takeWhile_prefix _).isInfix.trans (List.dropWhile_suffix _).isInfix,
    fun p hp => (hproxy p hp).1, ?_, ?_, ?_⟩
  · refine (ht.sep.sublist hrunsub).isChain_of_covers (fun a ha => ht.pos a (hrunsub.subset ha))
      fun a ha b hb x h₁ h₂ => ?_
    obtain ⟨q, hq, hxq⟩ := hcov x ⟨le_trans ((hmem a).mp ha).2.1 (le_trans (ht.pos a
      (hrunsub.subset ha)).le h₁), lt_trans h₂ ((hmem b).mp hb).2.2⟩
    exact ⟨q, hq, hxq⟩
  · -- the run starts at `h`'s offset: its first entry starts no later than the one holding it
    obtain ⟨a, rest, hrun⟩ := List.exists_cons_of_ne_nil (List.ne_nil_of_mem hq₀)
    rw [hrun, List.head?_cons, Option.map_some]
    have ha := (hmem a).mp (by rw [hrun]; exact List.mem_cons_self)
    rw [hrun] at hq₀ hrunsorted
    have : a.lo ≤ q₀.lo := by
      rcases List.mem_cons.mp hq₀ with rfl | hq
      · exact le_rfl
      · exact (List.rel_of_pairwise_cons hrunsorted hq).le
    have := ((hproxy q₀ (by rw [hrun]; exact hq₀)).2).1
    have := hxq₀.1
    congr 1
    omega
  · -- the run ends at `h`'s end: its last entry is the one holding the last offset
    rcases hz : run.getLast? with _ | z
    · rw [List.getLast?_eq_none_iff] at hz
      rw [hz] at hq₁
      exact absurd hq₁ List.not_mem_nil
    have hzr := List.mem_of_getLast? hz
    have hge := Intervals.getLast?_ge hrunsorted hz hq₁
    have hwz := (hproxy z hzr).2
    have hwq := (hproxy q₁ hq₁).2
    rw [Option.map_some]
    congr 1
    by_cases hzq : z = q₁
    · rw [hzq]
      have := hxq₁.2
      have := hwq.2
      omega
    · have := ht.pos z (hrunsub.subset hzr)
      have := hxq₁.2
      have := hwz.2
      rcases ht.apart (hrunsub.subset hzr) (hrunsub.subset hq₁) hzq with h' | h' <;> omega

end Run

/-! ## What a reachable range lock satisfies -/

/-- **Safety of a range lock**, `zfs_rlock.c`'s contract on `rl_tree` and the locks held:
(a) the entries hold disjoint nonempty ranges; (b) a writer's range meets no other held lock's;
(c) a held reader is in the tree with count 1, or at count 0 with a run of proxies tiling its
range, and a reader entry holding `x` counts the held readers that hold `x`; (d) the exit of a held
lock lets it go, lowers the count at each offset by its own, leaves no reader entry at count 0,
and leaves only old entries and proxies with one reader less. -/
def RangelockSafe (s : Rangelock) : Prop :=
  (TreeSeparated s.rlTree ∧ ∀ e ∈ s.rlTree, e.lo < e.hi) ∧
  (∀ w ∈ s.rlHandles, w.lrType = .writer → ∀ h ∈ s.rlHandles, h ≠ w →
    Intervals.Apart lo hi w h) ∧
  (∀ h ∈ s.rlHandles, h.lrType = .reader →
    (h ∈ s.rlTree ∧ h.lrCount = 1) ∨ (h.lrCount = 0 ∧ ProxyRun s.rlTree h)) ∧
  (∀ x, ∀ e ∈ s.rlTree, e.lrType = .reader → e.Covers x →
    e.lrCount = readersHeld s.rlHandles x) ∧
  (∀ h ∈ s.rlHandles,
    (zfsRangelockExit s h).rlHandles = s.rlHandles.filter (·.lrId != h.lrId) ∧
    (∀ x, readerCount (zfsRangelockExit s h).rlTree x + h.heldAt x = readerCount s.rlTree x) ∧
    (∀ e ∈ (zfsRangelockExit s h).rlTree, e.lrType = .reader → 0 < e.lrCount) ∧
    (∀ e ∈ (zfsRangelockExit s h).rlTree, e ∈ s.rlTree ∨
      ∃ g ∈ s.rlTree, g.lrProxy = true ∧ e = { g with lrCount := g.lrCount - 1 }))

section Safe

variable {s : Rangelock}

/-- A writer's range meets no other held lock's. -/
theorem RlInv.writer_apart (hinv : RlInv s) {w : LockedRange} (hw : w ∈ s.rlHandles)
    (hww : w.lrType = .writer) {h : LockedRange} (hh : h ∈ s.rlHandles) (hne : h ≠ w) :
    Intervals.Apart lo hi w h := by
  have ht := hinv.rd.tree
  have hwt := hinv.handles.writer w hw hww
  have hid : h.lrId ≠ w.lrId := fun hid => hne (List.inj_on_of_nodup_map hinv.rd.handleNodup hh hw hid)
  cases hty : h.lrType
  · rcases hinv.handles.reader h hh hty with ⟨-, hin⟩ | ⟨-, htile⟩
    · exact ht.apart_of_lrId hwt hin hid
    · -- a proxy of `h`'s tiling under `w` would be `w`, which is no proxy
      by_contra hap
      have hx : h.Covers (max w.lo h.lo) := by
        simp only [Intervals.Apart, not_or, not_le] at hap
        exact ⟨le_max_right _ _, by have := hinv.handles.pos h hh; omega⟩
      obtain ⟨q, hq, hqx, hxq, -⟩ := htile _ hx
      have hxw : w.Covers (max w.lo h.lo) := by
        simp only [Intervals.Apart, not_or, not_le] at hap
        exact ⟨le_max_left _ _, by have := ht.pos w hwt; omega⟩
      rw [ht.eq_of_covers hq hwt hxq hxw, hinv.rd.handleNonProxy w hw] at hqx
      cases hqx
  · exact ht.apart_of_lrId hwt (hinv.handles.writer h hh hty) hid
  · exact absurd hty (hinv.handles.kind h hh)

/-- **The invariant is safety.** -/
theorem RlInv.safe (hinv : RlInv s) : RangelockSafe s := by
  have ht := hinv.rd.tree
  refine ⟨⟨ht.sep, ht.pos⟩, fun w hw hww h hh hne => hinv.writer_apart hw hww hh hne,
    fun h hh hr => ?_, fun x e he hr hx => ?_, fun h hh => ?_⟩
  · rcases hinv.handles.reader h hh hr with ⟨h1, hin⟩ | ⟨h0, htile⟩
    · exact .inl ⟨hin, h1⟩
    · exact .inr ⟨h0, htile.run ht (hinv.handles.pos h hh)⟩
  · rw [← readerCount_of_covers ht he hr hx, hinv.count x]
  · have hex := hinv.exit hh
    exact ⟨hex.handles, hex.count, fun e he hr =>
      (hex.inv.rd.tree.entry e he).readerPos hr, hex.old⟩

end Safe

/-- **Range locks are safe**: every state reached from `zfs_rangelock_init` by enters, exits and
reduces, with `rl_cb` and the caller of `zfs_rangelock_reduce` handing out nonempty ranges that
end by `UINT64_MAX`, satisfies (a)–(d). -/
theorem rangelock_safe {s : Rangelock} (hs : RlReachable CbFits s) : RangelockSafe s :=
  hs.inv.safe

/-- The locks of two readers of `[0, 10)` and `[5, 15)` and a writer of `[100, 105)`: the second
reader splits the first's entry into the proxies `[0, 5)` and `[5, 10)`, which both hold, and
adds the proxy `[10, 15)`. -/
def rangelockTwoReadersWriter : Rangelock :=
  ⟨[⟨3, 0, 5, 1, .reader, true⟩, ⟨2, 5, 5, 2, .reader, true⟩, ⟨4, 10, 5, 1, .reader, true⟩,
      ⟨5, 100, 5, 1, .writer, false⟩],
    [⟨0, 0, 10, 0, .reader, false⟩, ⟨1, 5, 10, 0, .reader, false⟩, ⟨5, 100, 5, 1, .writer, false⟩],
    6⟩

theorem rlReachable_two_readers_writer : RlReachable CbFits rangelockTwoReadersWriter := by
  have h1 : RlReachable CbFits
      ⟨[⟨0, 0, 10, 1, .reader, false⟩], [⟨0, 0, 10, 1, .reader, false⟩], 1⟩ :=
    .step .init (.enter 0 10 .reader (0, 0) (by decide) (fun h => absurd rfl h) rfl)
  have h2 : RlReachable CbFits
      ⟨[⟨3, 0, 5, 1, .reader, true⟩, ⟨2, 5, 5, 2, .reader, true⟩, ⟨4, 10, 5, 1, .reader, true⟩],
        [⟨0, 0, 10, 0, .reader, false⟩, ⟨1, 5, 10, 0, .reader, false⟩], 5⟩ :=
    .step h1 (.enter 5 10 .reader (0, 0) (by decide) (fun h => absurd rfl h) rfl)
  exact .step h2 (.enter 100 5 .writer (100, 5) (by decide) (fun _ => by decide) rfl)

theorem rangelock_safe_two_readers_writer :
    RlReachable CbFits rangelockTwoReadersWriter ∧ RangelockSafe rangelockTwoReadersWriter :=
  ⟨rlReachable_two_readers_writer, rangelock_safe rlReachable_two_readers_writer⟩

/-- With `rl_cb` free to hand out any writer's range: a reader holds `[100, 101)`, and a writer
whose range `[50, 50 + UINT64_MAX)` wraps to end at 49 passes every check of
`zfs_rangelock_enter_writer`; both hold offset 100. -/
theorem rangelock_wrapping_writer_overlaps :
    ∃ s, RlReachable (fun _ _ => True) s ∧ ∃ w ∈ s.rlHandles, ∃ h ∈ s.rlHandles,
      w.lrType = .writer ∧ h ≠ w ∧ w.Covers 100 ∧ h.Covers 100 := by
  refine ⟨_, .step (.step .init (.enter 100 1 .reader (0, 0) (by decide) (fun _ => trivial) rfl))
    (.enter 50 1 .writer (50, uint64Max) (by decide) (fun _ => trivial) rfl), ?_⟩
  refine ⟨⟨1, 50, uint64Max, 1, .writer, false⟩, by decide, ⟨0, 100, 1, 1, .reader, false⟩,
    by decide, rfl, by decide, ?_, ?_⟩
  · show 50 ≤ 100 ∧ 100 < 50 + uint64Max.toNat
    decide
  · show 100 ≤ 100 ∧ 100 < 100 + 1
    decide

end Zfs
