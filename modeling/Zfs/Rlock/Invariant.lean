import Zfs.Rlock.Enter
import Zfs.Rlock.Exit

/-!
# Rlock/Invariant — what every reachable range lock satisfies

`RlInv` is the invariant of `rl_tree` and the locks held: the well-formed tree of the reader
operations (`RdOk`); each held lock nonempty, at an address below the next one, and a reader or a
writer; a writer's lock in the tree; a reader's lock in the tree with count 1, or at count 0 with
its range tiled by proxies (`HandlesOk`); and at every offset, the readers the tree counts are the
readers held there.  It holds of `zfs_rangelock_init` and every step keeps it, as long as `rl_cb`
and the caller of `zfs_rangelock_reduce` only hand out ranges that do not wrap (`CbFits`).

* `rlInv_init`, `RlInv.enter`, `RlInv.exit`, `RlInv.reduce`: the invariant and each step.
* `RlReachable.inv`: every reachable state satisfies it.
-/

namespace Zfs

open LockedRange

/-- A range `rl_cb`, or the caller of `zfs_rangelock_reduce`, may hand out: at least one byte,
ending by `UINT64_MAX`. -/
def CbFits (off len : UInt64) : Prop := 0 < len.toNat ∧ off.toNat + len.toNat < 2 ^ 64

instance (off len : UInt64) : Decidable (CbFits off len) := inferInstanceAs (Decidable (_ ∧ _))

/-- What the held locks satisfy. -/
structure HandlesOk (s : Rangelock) : Prop where
  pos : ∀ h ∈ s.rlHandles, h.lo < h.hi
  fresh : ∀ h ∈ s.rlHandles, h.lrId < s.nextId
  kind : ∀ h ∈ s.rlHandles, h.lrType ≠ .append
  writer : ∀ h ∈ s.rlHandles, h.lrType = .writer → h ∈ s.rlTree
  reader : ∀ h ∈ s.rlHandles, h.lrType = .reader →
    (h.lrCount = 1 ∧ h ∈ s.rlTree) ∨ (h.lrCount = 0 ∧ ProxyTiled s.rlTree h)

/-- **The invariant** of a range lock. -/
structure RlInv (s : Rangelock) : Prop where
  rd : RdOk s
  handles : HandlesOk s
  count : ∀ x, readerCount s.rlTree x = readersHeld s.rlHandles x

theorem rlInv_init : RlInv zfsRangelockInit where
  rd := ⟨⟨Intervals.separated_nil, fun _ h => absurd h List.not_mem_nil, List.nodup_nil,
    fun _ h => absurd h List.not_mem_nil⟩, fun _ h => absurd h List.not_mem_nil,
    fun _ h => absurd h List.not_mem_nil, List.nodup_nil⟩
  handles := ⟨fun _ h => absurd h List.not_mem_nil, fun _ h => absurd h List.not_mem_nil,
    fun _ h => absurd h List.not_mem_nil, fun _ h => absurd h List.not_mem_nil,
    fun _ h => absurd h List.not_mem_nil⟩
  count _ := rfl

/-! ## Counting -/

section Counting

variable {t hs : List LockedRange} {n : ℕ} {e h : LockedRange}

/-- The count of the reader entry holding `x` is the tree's count at `x`. -/
theorem readerCount_of_covers (ht : TreeOk t n) (he : e ∈ t) (hr : e.lrType = .reader) {x : ℕ}
    (hx : e.Covers x) : readerCount t x = e.lrCount := by
  rw [readerCount, ht.sep.sum_eq_of_covers he hx (·.countAt x) fun b hb => if_neg fun h => hb h.2,
    countAt_of_reader hr, if_pos hx]

/-- Letting a held lock go, among held locks at distinct addresses. -/
theorem readersHeld_avlRemove (hh : h ∈ hs) (hnd : (hs.map (·.lrId)).Nodup) (x : ℕ) :
    readersHeld hs x = h.heldAt x + readersHeld (avlRemove hs h.lrId) x := by
  rw [readersHeld, ((perm_avlRemove hh hnd).map _).sum_nat, List.map_cons, List.sum_cons]
  rfl

theorem heldAt_le_readersHeld (hh : h ∈ hs) (hnd : (hs.map (·.lrId)).Nodup) (x : ℕ) :
    h.heldAt x ≤ readersHeld hs x := by
  rw [readersHeld_avlRemove hh hnd x]
  exact Nat.le_add_right _ _

theorem countAt_eq_heldAt (hc : h.lrCount = 1) (x : ℕ) : h.countAt x = h.heldAt x := by
  simp only [countAt, heldAt, hc]

end Counting

/-! ## The held locks along the reader operations -/

section Handles

variable {s s' : Rangelock} {new : LockedRange}

/-- No entry of the tree is an append: the held ones are not, and proxies are readers. -/
theorem RlInv.treeKind (hinv : RlInv s) : ∀ e ∈ s.rlTree, e.lrType ≠ .append := by
  intro e he
  cases hp : e.lrProxy
  · exact hinv.handles.kind e (hinv.rd.held e he hp)
  · rw [(hinv.rd.tree.entry e he).proxyReader hp]
    decide

/-- **The held locks keep their guarantees** as the tree grows by the reader operations. -/
theorem HandlesOk.grows (hh : HandlesOk s) (hg : Grows s s') : HandlesOk s' := by
  have hlo : ∀ {h h' : LockedRange}, HandleStep s.rlTree s'.rlTree h h' → h'.lo = h.lo ∧ h'.hi = h.hi :=
    fun hs => by
      obtain ⟨-, ho, hl, -⟩ := hs.same
      exact ⟨by rw [lo, ho]; rfl, by rw [hi, ho, hl]; rfl⟩
  refine ⟨fun h' hm => ?_, fun h' hm => ?_, fun h' hm => ?_, fun h' hm hw => ?_, fun h' hm hr => ?_⟩
  · obtain ⟨h, hh₀, hstep⟩ := hg.mem_handles hm
    rw [(hlo hstep).1, (hlo hstep).2]
    exact hh.pos h hh₀
  · obtain ⟨h, hh₀, hstep⟩ := hg.mem_handles hm
    rw [hstep.same.1]
    exact lt_of_lt_of_le (hh.fresh h hh₀) hg.nextId
  · obtain ⟨h, hh₀, hstep⟩ := hg.mem_handles hm
    rw [hstep.same.2.2.2.1]
    exact hh.kind h hh₀
  · obtain ⟨h, hh₀, hstep⟩ := hg.mem_handles hm
    rw [hstep.same.2.2.2.1] at hw
    rcases hstep with ⟨rfl, hkeep⟩ | ⟨hr, -, -⟩
    · exact hkeep (hh.writer _ hh₀ hw)
    · rw [hw] at hr
      cases hr
  · obtain ⟨h, hh₀, hstep⟩ := hg.mem_handles hm
    rw [hstep.same.2.2.2.1] at hr
    rcases hstep with ⟨rfl, hkeep⟩ | ⟨-, rfl, htile⟩
    · rcases hh.reader _ hh₀ hr with ⟨h1, hin⟩ | ⟨h0, htile⟩
      · exact .inl ⟨h1, hkeep hin⟩
      · exact .inr ⟨h0, htile.refines hg.refines⟩
    · exact .inr ⟨rfl, proxyTiled_zero.mpr htile⟩

/-- **A lock granted** on a tree that only gained entries. -/
theorem HandlesOk.grant (hh : HandlesOk s) {t : List LockedRange} {n : ℕ}
    (hsub : ∀ e ∈ s.rlTree, e ∈ t) (hn : s.nextId ≤ n) (hpos : new.lo < new.hi) (hlt : new.lrId < n)
    (hkind : new.lrType ≠ .append) (hw : new.lrType = .writer → new ∈ t)
    (hr : new.lrType = .reader →
      (new.lrCount = 1 ∧ new ∈ t) ∨ (new.lrCount = 0 ∧ ProxyTiled t new)) :
    HandlesOk ⟨t, s.rlHandles ++ [new], n⟩ := by
  have hmem : ∀ h, h ∈ s.rlHandles ++ [new] ↔ h ∈ s.rlHandles ∨ h = new := fun h => by simp
  have href : Refines s.rlTree t := Refines.of_subset fun e he _ => hsub e he
  refine ⟨fun h hm => ?_, fun h hm => ?_, fun h hm => ?_, fun h hm hw' => ?_, fun h hm hr' => ?_⟩
  all_goals rcases (hmem h).mp hm with hm | rfl
  · exact hh.pos h hm
  · exact hpos
  · exact lt_of_lt_of_le (hh.fresh h hm) hn
  · exact hlt
  · exact hh.kind h hm
  · exact hkind
  · exact hsub h (hh.writer h hm hw')
  · exact hw hw'
  · rcases hh.reader h hm hr' with ⟨h1, hin⟩ | ⟨h0, htile⟩
    · exact .inl ⟨h1, hsub h hin⟩
    · exact .inr ⟨h0, htile.refines href⟩
  · exact hr hr'

/-- A held lock added to a well-formed state, at a fresh address. -/
theorem RdOk.grant_handle (hs : RdOk s) (hnp : new.lrProxy = false)
    (hfresh : new.lrId ∉ s.rlHandles.map (·.lrId)) :
    RdOk ⟨s.rlTree, s.rlHandles ++ [new], s.nextId⟩ where
  tree := hs.tree
  held e he hp := List.mem_append_left _ (hs.held e he hp)
  handleNonProxy h hm := by
    rcases List.mem_append.mp hm with hm | hm
    · exact hs.handleNonProxy h hm
    · rw [List.mem_singleton.mp hm]
      exact hnp
  handleNodup := by
    rw [List.map_append, List.nodup_append]
    refine ⟨hs.handleNodup, List.nodup_singleton _, fun a ha b hb hab => ?_⟩
    rw [List.map_cons, List.map_nil, List.mem_singleton] at hb
    rw [hab, hb] at ha
    exact hfresh ha

/-- A held lock added to the tree and the held locks, apart from every entry. -/
theorem RdOk.grant_entry (hs : RdOk s) (hnew : EntryOk new) (hnp : new.lrProxy = false)
    (hap : ∀ f ∈ s.rlTree, Intervals.Apart lo hi new f) (hlt : new.lrId < s.nextId)
    (htree : ∀ e ∈ s.rlTree, e.lrId ≠ new.lrId) (hfresh : new.lrId ∉ s.rlHandles.map (·.lrId)) :
    RdOk ⟨avlAdd s.rlTree new, s.rlHandles ++ [new], s.nextId⟩ := by
  have hs' := hs.grant_handle hnp hfresh
  refine ⟨hs.tree.avlAdd hnew (fun hm => ?_) le_rfl hlt hap, fun e he hp => ?_, hs'.handleNonProxy,
    hs'.handleNodup⟩
  · obtain ⟨e, he, hid⟩ := List.mem_map.mp hm
    exact htree e he hid
  · rcases mem_avlAdd.mp he with rfl | he
    · exact List.mem_append_right _ (List.mem_singleton_self _)
    · exact hs'.held e he hp

end Handles

/-! ## `zfs_rangelock_enter` -/

section Enter

variable {s s₂ : Rangelock} {new : LockedRange}

/-- The state with the next address taken. -/
theorem RlInv.bump (hinv : RlInv s) : RlInv { s with nextId := s.nextId + 1 } where
  rd := ⟨hinv.rd.tree.mono (Nat.le_succ _), hinv.rd.held, hinv.rd.handleNonProxy,
    hinv.rd.handleNodup⟩
  handles := ⟨hinv.handles.pos, fun h hm => Nat.lt_succ_of_lt (hinv.handles.fresh h hm),
    hinv.handles.kind, hinv.handles.writer, hinv.handles.reader⟩
  count := hinv.count

/-- The new lock's address is fresh: every entry and held lock of `s` is below `s.nextId`. -/
theorem RlInv.fresh (hinv : RlInv s) :
    (∀ e ∈ s.rlTree, e.lrId ≠ s.nextId) ∧ s.nextId ∉ s.rlHandles.map (·.lrId) := by
  refine ⟨fun e he => (hinv.rd.tree.fresh e he).ne, fun hm => ?_⟩
  obtain ⟨h, hh, hid⟩ := List.mem_map.mp hm
  exact (hinv.handles.fresh h hh).ne hid

/-- **A lock that goes into the tree as it is**: `s₂` grew from `s` with the same counts, and the
new lock, counting 1 where it is a reader, is apart from all of `s₂`'s entries. -/
theorem RlInv.grant_entry (hinv : RlInv { s with nextId := s.nextId + 1 })
    (hg : Grows { s with nextId := s.nextId + 1 } s₂) (hrd : RdOk s₂)
    (hcount : ∀ x, readerCount s₂.rlTree x = readerCount s.rlTree x) (hnew : EntryOk new)
    (hnp : new.lrProxy = false) (hc : new.lrCount = 1) (hkind : new.lrType ≠ .append)
    (hid : new.lrId = s.nextId) (hfresh : (∀ e ∈ s.rlTree, e.lrId ≠ s.nextId) ∧
      s.nextId ∉ s.rlHandles.map (·.lrId))
    (hap : ∀ f ∈ s₂.rlTree, Intervals.Apart lo hi new f) :
    RlInv ⟨avlAdd s₂.rlTree new, s₂.rlHandles ++ [new], s₂.nextId⟩ := by
  have hlt : new.lrId < s₂.nextId := lt_of_lt_of_le (by rw [hid]; exact Nat.lt_succ_self _) hg.nextId
  refine ⟨hrd.grant_entry hnew hnp hap hlt ?_ ?_, ?_, fun x => ?_⟩
  · exact hg.lrId_ne (hid ▸ hfresh.1) (by rw [hid]; exact Nat.lt_succ_self _)
  · rw [hg.map_lrId_handles, hid]
    exact hfresh.2
  · exact (hinv.handles.grows hg).grant (fun e he => mem_avlAdd.mpr (.inr he)) le_rfl hnew.pos hlt
      hkind (fun _ => mem_avlAdd.mpr (.inl rfl)) fun _ => .inl ⟨hc, mem_avlAdd.mpr (.inl rfl)⟩
  · show readerCount (avlAdd s₂.rlTree new) x = readersHeld (s₂.rlHandles ++ [new]) x
    rw [readerCount_avlAdd, hcount x, readersHeld_append, hg.readersHeld_eq x, ← hinv.count x,
      countAt_eq_heldAt hc]
    simp only [readersHeld, List.map_cons, List.map_nil, List.sum_cons, List.sum_nil]
    exact Nat.add_comm _ _

/-- **A reader held by proxies**: the tree grew from `s` with one more reader on the new range,
which proxies tile, and the lock is held at count 0. -/
theorem RlInv.grant_proxies (hinv : RlInv { s with nextId := s.nextId + 1 })
    (hF : AddFront { s with nextId := s.nextId + 1 } new.lo new.hi new.hi s₂)
    (hnp : new.lrProxy = false) (hr : new.lrType = .reader) (hpos : new.lo < new.hi)
    (hid : new.lrId = s.nextId) (hfresh : s.nextId ∉ s.rlHandles.map (·.lrId)) :
    RlInv ⟨s₂.rlTree, s₂.rlHandles ++ [{ new with lrCount := 0 }], s₂.nextId⟩ := by
  have hlt : new.lrId < s₂.nextId :=
    lt_of_lt_of_le (by rw [hid]; exact Nat.lt_succ_self _) hF.grows.nextId
  have htile : ProxyTiled s₂.rlTree { new with lrCount := 0 } := by
    intro x hx
    obtain ⟨p, hp, hpx, hxp, hplo, hphi⟩ := hF.covered x hx.1 hx.2
    exact ⟨p, hp, hpx, hxp, hplo, hphi⟩
  refine ⟨hF.rd.grant_handle hnp ?_, ?_, fun x => ?_⟩
  · rw [hF.grows.map_lrId_handles]
    exact hid ▸ hfresh
  · exact (hinv.handles.grows hF.grows).grant (fun e he => he) le_rfl hpos hlt
      (by rw [show ({ new with lrCount := 0 } : LockedRange).lrType = new.lrType from rfl, hr]
          decide)
      (fun hw => absurd (hr.symm.trans hw) (by decide)) fun _ => .inr ⟨rfl, htile⟩
  · show readerCount s₂.rlTree x = readersHeld (s₂.rlHandles ++ [{ new with lrCount := 0 }]) x
    rw [hF.count x, readersHeld_append, hF.grows.readersHeld_eq x, ← hinv.count x]
    simp only [readersHeld, List.map_cons, List.map_nil, List.sum_cons, List.sum_nil, heldAt, hr,
      Covers, true_and]
    rfl

/-- The lock `zfs_rangelock_enter` makes is a well-formed entry when its range is. -/
theorem entryOk_enter {id : ℕ} {off len : UInt64} {type : RangelockType} (hpos : 0 < len.toNat)
    (hfit : off.toNat + len.toNat < 2 ^ 64) : EntryOk ⟨id, off, len, 1, type, false⟩ :=
  ⟨show off.toNat < off.toNat + len.toNat by omega, hfit, fun _ => Nat.one_pos,
    fun h => absurd h Bool.false_ne_true, fun _ _ => rfl⟩

/-- **`zfs_rangelock_enter`** keeps the invariant, for a request of at least one byte once
clamped and a writer's range that does not wrap. -/
theorem RlInv.enter {s' : Rangelock} {lr : LockedRange} {off len : UInt64} {type : RangelockType}
    {cb : UInt64 × UInt64} (hinv : RlInv s) (hlen : 1 ≤ clampLength off len)
    (hcb : type ≠ .reader → CbFits cb.1 cb.2)
    (h : zfsRangelockEnter s off len type cb = some (s', lr)) : RlInv s' := by
  have hinv₁ := hinv.bump
  have hfresh := hinv.fresh
  have hpos : 0 < (clampLength off len).toNat := by
    rw [UInt64.le_iff_toNat_le] at hlen
    exact hlen
  rw [zfsRangelockEnter] at h
  dsimp only at h
  set new : LockedRange := ⟨s.nextId, off, clampLength off len, 1, type, false⟩ with hnew
  have hok : EntryOk new := entryOk_enter hpos (clampLength_fits off len)
  split_ifs at h with hty hnil
  · -- a reader on an empty tree goes in as it is
    obtain ⟨rfl, rfl⟩ := Prod.mk.inj (Option.some.inj h)
    exact hinv₁.grant_entry (Grows.refl _) hinv₁.rd (fun _ => rfl) hok rfl rfl
      (by show type ≠ .append; rw [hty]; decide) rfl hfresh
      fun f hf => absurd (hnil ▸ hf) List.not_mem_nil
  · -- a reader let in by the gate
    rcases hr : zfsRangelockEnterReader { s with nextId := s.nextId + 1 } new with _ | r
    · rw [hr] at h
      cases h
    rw [hr, Option.map_some, Option.some.injEq] at h
    obtain ⟨hgate, rfl⟩ := zfsRangelockEnterReader_spec hinv₁.rd.tree hok.fits hr
    -- the entries the new range meets are readers: not writers, and no entry is an append
    have hread : ∀ e ∈ s.rlTree, e.lo < new.hi → new.lo < e.hi → e.lrType = .reader := by
      intro e he h₁ h₂
      have hw := hgate e he h₁ h₂
      have ha := hinv₁.treeKind e he
      cases hty' : e.lrType
      · rfl
      · exact absurd hty' hw
      · exact absurd hty' ha
    rcases zfsRangelockAddReader_spec hinv₁.rd hok.pos hok.fits hread rfl with
      ⟨s₂, hF, hap, heq⟩ | ⟨hr2, hF⟩
    · rw [heq] at h
      obtain ⟨rfl, rfl⟩ := Prod.mk.inj h
      exact hinv₁.grant_entry hF.grows hF.rd
        (fun x => by rw [hF.count x, if_neg (by omega), Nat.add_zero])
        hok rfl rfl (by show type ≠ .append; rw [hty]; decide) rfl hfresh hap
    · obtain ⟨rfl, rfl⟩ := Prod.mk.inj h
      rw [hr2]
      exact hinv₁.grant_proxies hF rfl hty hok.pos rfl hfresh.2
  · -- a writer, on the range `rl_cb` set
    obtain ⟨hcpos, hcfit⟩ := hcb hty
    have hokw : EntryOk { new with lrOffset := cb.1, lrLength := cb.2, lrType := .writer } :=
      entryOk_enter hcpos hcfit
    rcases hw : zfsRangelockEnterWriter { s with nextId := s.nextId + 1 }
      { new with lrOffset := cb.1, lrLength := cb.2, lrType := .writer } with _ | s₂
    · rw [hw] at h
      cases h
    rw [hw, Option.map_some, Option.some.injEq] at h
    obtain ⟨rfl, rfl⟩ := Prod.mk.inj h
    obtain ⟨rfl, hap⟩ := zfsRangelockEnterWriter_spec hinv₁.rd.tree hokw.fits hw
    exact hinv₁.grant_entry (Grows.refl _) hinv₁.rd (fun _ => rfl) hokw rfl rfl
      (by show RangelockType.writer ≠ .append; decide) rfl hfresh hap

end Enter

/-! ## `zfs_rangelock_exit` -/

/-- What the exit of the held lock `h` does: the invariant again, `h` no longer held, the counts
down by `h`'s own at every offset, and every entry left an old one or a proxy with one reader
less. -/
structure ExitOk (s : Rangelock) (h : LockedRange) (s' : Rangelock) : Prop where
  inv : RlInv s'
  handles : s'.rlHandles = s.rlHandles.filter (·.lrId != h.lrId)
  count : ∀ x, readerCount s'.rlTree x + h.heldAt x = readerCount s.rlTree x
  old : ∀ e ∈ s'.rlTree, e ∈ s.rlTree ∨
    ∃ g ∈ s.rlTree, g.lrProxy = true ∧ e = { g with lrCount := g.lrCount - 1 }

section Exit

variable {s : Rangelock} {h : LockedRange}

/-- A held lock other than `h` is at another address. -/
theorem mem_filter_handles {h' : LockedRange} :
    h' ∈ s.rlHandles.filter (·.lrId != h.lrId) ↔ h' ∈ s.rlHandles ∧ h'.lrId ≠ h.lrId :=
  mem_avlRemove

/-- **The exit of a lock that is itself in the tree**, a writer's or a reader's at count 1: it
leaves the tree. -/
theorem RlInv.exit_remove (hinv : RlInv s) (hh : h ∈ s.rlHandles) (ht : h ∈ s.rlTree)
    (hcnt : ∀ x, h.countAt x = h.heldAt x) :
    ExitOk s h ⟨avlRemove s.rlTree h.lrId, s.rlHandles.filter (·.lrId != h.lrId), s.nextId⟩ := by
  have hT := hinv.rd.tree
  have hnd := hinv.rd.handleNodup
  have hsub : (s.rlHandles.filter (·.lrId != h.lrId)).Sublist s.rlHandles := List.filter_sublist
  -- a proxy is never at `h`'s address: `h` is no proxy
  have hproxy : ∀ q ∈ s.rlTree, q.lrProxy = true → q.lrId ≠ h.lrId := fun q hq hqx hid => by
    have := hinv.rd.handleNonProxy h hh
    rw [hT.eq_of_lrId hq ht hid] at hqx
    simp_all
  have hcount : ∀ x, readerCount (avlRemove s.rlTree h.lrId) x + h.heldAt x =
      readerCount s.rlTree x := fun x => by
    rw [readerCount_avlRemove ht hT.nodup x, hcnt x, Nat.add_comm]
  refine ⟨⟨⟨hT.avlRemove _, fun e he hp => ?_, fun h' hm => hinv.rd.handleNonProxy h' (hsub.subset hm),
    hnd.sublist (hsub.map _)⟩, ⟨fun h' hm => ?_, fun h' hm => ?_, fun h' hm => ?_,
    fun h' hm hw => ?_, fun h' hm hr => ?_⟩, fun x => ?_⟩, rfl, hcount,
    fun e he => .inl (mem_avlRemove.mp he).1⟩
  · obtain ⟨he, hid⟩ := mem_avlRemove.mp he
    exact mem_filter_handles.mpr ⟨hinv.rd.held e he hp, hid⟩
  · exact hinv.handles.pos h' (mem_filter_handles.mp hm).1
  · exact hinv.handles.fresh h' (mem_filter_handles.mp hm).1
  · exact hinv.handles.kind h' (mem_filter_handles.mp hm).1
  · obtain ⟨hm, hid⟩ := mem_filter_handles.mp hm
    exact mem_avlRemove.mpr ⟨hinv.handles.writer h' hm hw, hid⟩
  · obtain ⟨hm, hid⟩ := mem_filter_handles.mp hm
    rcases hinv.handles.reader h' hm hr with ⟨h1, hin⟩ | ⟨h0, htile⟩
    · exact .inl ⟨h1, mem_avlRemove.mpr ⟨hin, hid⟩⟩
    · refine .inr ⟨h0, fun x hx => ?_⟩
      obtain ⟨q, hq, hqx, hxq, hw⟩ := htile x hx
      exact ⟨q, mem_avlRemove.mpr ⟨hq, hproxy q hq hqx⟩, hqx, hxq, hw⟩
  · have := hcount x
    have := readersHeld_avlRemove hh hnd x
    have := hinv.count x
    show readerCount (avlRemove s.rlTree h.lrId) x = readersHeld (avlRemove s.rlHandles h.lrId) x
    omega

/-- **The exit of a reader held by proxies**: the walk releases the proxies of its range. -/
theorem RlInv.exit_tiled (hinv : RlInv s) (hh : h ∈ s.rlHandles) (hr : h.lrType = .reader)
    (h0 : h.lrCount = 0) (htile : ProxyTiled s.rlTree h) :
    ExitOk s h (zfsRangelockExitReader { s with rlHandles := s.rlHandles.filter (·.lrId != h.lrId) } h) := by
  have hT := hinv.rd.tree
  have hnd := hinv.rd.handleNodup
  have hsub : (s.rlHandles.filter (·.lrId != h.lrId)).Sublist s.rlHandles := List.filter_sublist
  have hnd' := hnd.sublist (hsub.map _)
  obtain ⟨hhs, hnext, ht', R, hRp, hcov, hrel⟩ := zfsRangelockExitReader_tiled
    (s := { s with rlHandles := s.rlHandles.filter (·.lrId != h.lrId) }) hT (by omega)
    (hinv.handles.pos h hh) htile
  set s' := zfsRangelockExitReader { s with rlHandles := s.rlHandles.filter (·.lrId != h.lrId) } h
  -- an entry at the address of a proxy of `R` is that proxy
  have hinR : ∀ f ∈ s.rlTree, f.lrId ∈ R.map (·.lrId) → f ∈ R := by
    intro f hf hid
    obtain ⟨p, hp, hpid⟩ := List.mem_map.mp hid
    rw [← hT.eq_of_lrId (hRp p hp).1 hf hpid]
    exact hp
  have hheld : ∀ x, h.heldAt x = if h.Covers x then 1 else 0 := fun x => by simp [heldAt, hr]
  have hcount : ∀ x, readerCount s'.rlTree x + h.heldAt x = readerCount s.rlTree x := fun x => by
    rw [hheld x, ← hcov x]
    exact hrel.count x
  refine ⟨⟨⟨hnext ▸ ht', fun e he hp => ?_, fun h' hm => ?_, by rw [hhs]; exact hnd'⟩,
    ⟨fun h' hm => ?_, fun h' hm => ?_, fun h' hm => ?_, fun h' hm hw => ?_, fun h' hm hr' => ?_⟩,
    fun x => ?_⟩, hhs, hcount, fun e he => ?_⟩
  · -- an entry that is no proxy was there before, and held by another lock than `h`
    rcases hrel.old e he with ⟨he₀, -⟩ | ⟨p, hpR, -, rfl⟩
    · have heh := hinv.rd.held e he₀ hp
      rw [hhs]
      refine mem_filter_handles.mpr ⟨heh, fun hid => ?_⟩
      have heq : e = h := List.inj_on_of_nodup_map hnd heh hh hid
      have hsingle := (hT.entry e he₀).single hp (heq ▸ hr)
      rw [heq, h0] at hsingle
      cases hsingle
    · have hpx : p.lrProxy = false := hp
      rw [(hRp p hpR).2.1] at hpx
      cases hpx
  · rw [hhs] at hm
    exact hinv.rd.handleNonProxy h' (hsub.subset hm)
  · rw [hhs] at hm
    exact hinv.handles.pos h' (hsub.subset hm)
  · rw [hhs] at hm
    rw [hnext]
    exact hinv.handles.fresh h' (hsub.subset hm)
  · rw [hhs] at hm
    exact hinv.handles.kind h' (hsub.subset hm)
  · -- a writer's entry is no proxy, so not released
    rw [hhs] at hm
    have hm₀ := hsub.subset hm
    have hin := hinv.handles.writer h' hm₀ hw
    refine hrel.keep h' hin fun hid => ?_
    have := (hRp h' (hinR h' hin hid)).2.1
    have := hinv.rd.handleNonProxy h' hm₀
    simp_all
  · rw [hhs] at hm
    obtain ⟨hm₀, hid⟩ := mem_filter_handles.mp hm
    rcases hinv.handles.reader h' hm₀ hr' with ⟨h1, hin⟩ | ⟨h0', htile'⟩
    · refine .inl ⟨h1, hrel.keep h' hin fun hid' => ?_⟩
      have := (hRp h' (hinR h' hin hid')).2.1
      have := hinv.rd.handleNonProxy h' hm₀
      simp_all
    · refine .inr ⟨h0', fun x hx => ?_⟩
      obtain ⟨q, hq, hqx, hxq, hw⟩ := htile' x hx
      by_cases hqR : q.lrId ∈ R.map (·.lrId)
      · -- a released proxy under another reader keeps a reader: it counted two or more
        have hqR' := hinR q hq hqR
        have hxh : h.Covers x := ⟨le_trans (hRp q hqR').2.2.1 hxq.1,
          lt_of_lt_of_le hxq.2 (hRp q hqR').2.2.2⟩
        have h2 : 2 ≤ q.lrCount := by
          rw [← readerCount_of_covers hT hq ((hT.entry q hq).proxyReader hqx) hxq, hinv.count x,
            readersHeld_avlRemove hh hnd x]
          have h₁ : h.heldAt x = 1 := by simp [heldAt, hr, hxh]
          have h₂ : h'.heldAt x = 1 := by simp [heldAt, hr', hx]
          have := heldAt_le_readersHeld (mem_filter_handles.mpr ⟨hm₀, hid⟩) hnd' x
          show 2 ≤ h.heldAt x + readersHeld (s.rlHandles.filter (·.lrId != h.lrId)) x
          omega
        exact ⟨_, hrel.dec q hqR' h2, hqx, hxq, hw⟩
      · exact ⟨q, hrel.keep q hq hqR, hqx, hxq, hw⟩
  · rw [hhs]
    have := hcount x
    have := readersHeld_avlRemove hh hnd x
    have := hinv.count x
    show readerCount s'.rlTree x = readersHeld (avlRemove s.rlHandles h.lrId) x
    omega
  · rcases hrel.old e he with ⟨he₀, -⟩ | ⟨p, hp, -, rfl⟩
    · exact .inl he₀
    · exact .inr ⟨p, (hRp p hp).1, (hRp p hp).2.1, rfl⟩

/-- **`zfs_rangelock_exit`** of a held lock keeps the invariant and takes away exactly the lock's
own count. -/
theorem RlInv.exit (hinv : RlInv s) (hh : h ∈ s.rlHandles) :
    ExitOk s h (zfsRangelockExit s h) := by
  rw [zfsRangelockExit]
  dsimp only
  split_ifs with hw
  · exact hinv.exit_remove hh (hinv.handles.writer h hh hw) fun x => by simp [countAt, heldAt, hw]
  have hr : h.lrType = .reader := by
    have := hinv.handles.kind h hh
    cases hty : h.lrType
    · rfl
    · exact absurd hty hw
    · exact absurd hty this
  rcases hinv.handles.reader h hh hr with ⟨h1, hin⟩ | ⟨h0, htile⟩
  · rw [zfsRangelockExitReader, if_pos h1]
    exact hinv.exit_remove hh hin (countAt_eq_heldAt h1)
  · exact hinv.exit_tiled hh hr h0 htile

end Exit

/-! ## `zfs_rangelock_reduce` -/

section Reduce

variable {s : Rangelock} {lr : LockedRange} {off len : UInt64}

/-- With a writer the only entry, it is the only lock held. -/
theorem RlInv.eq_of_only (hinv : RlInv s) (htree : s.rlTree = [lr]) (hw : lr.lrType = .writer) :
    ∀ h ∈ s.rlHandles, h = lr := by
  intro h hh
  have hlr : lr ∈ s.rlTree := by
    rw [htree]
    exact List.mem_singleton_self lr
  cases hty : h.lrType
  · rcases hinv.handles.reader h hh hty with ⟨-, hin⟩ | ⟨-, htile⟩
    · rw [htree, List.mem_singleton] at hin
      exact hin
    · -- a reader held by proxies would need a proxy, and the only entry is a writer
      obtain ⟨e, he, hex, -, -⟩ := htile h.lo ⟨le_rfl, hinv.handles.pos h hh⟩
      rw [htree, List.mem_singleton] at he
      subst he
      have := (hinv.rd.tree.entry e hlr).proxyReader hex
      rw [hw] at this
      cases this
  · have hin := hinv.handles.writer h hh hty
    rw [htree, List.mem_singleton] at hin
    exact hin
  · exact absurd hty (hinv.handles.kind h hh)

/-- **`zfs_rangelock_reduce`** of the only lock, a writer, to a range that does not wrap keeps
the invariant. -/
theorem RlInv.reduce (hinv : RlInv s) (hmem : lr ∈ s.rlHandles) (htree : s.rlTree = [lr])
    (hw : lr.lrType = .writer) (hcb : CbFits off len) : RlInv (zfsRangelockReduce s lr off len) := by
  have hlr : lr ∈ s.rlTree := by
    rw [htree]
    exact List.mem_singleton_self lr
  have hnp := hinv.rd.handleNonProxy lr hmem
  rw [zfsRangelockReduce]
  set lr' : LockedRange := { lr with lrOffset := off, lrLength := len }
  have hT : setEntry s.rlTree lr' = [lr'] := by
    rw [htree]
    simp [setEntry, lr']
  have hH : ∀ h ∈ s.rlHandles.map (fun h => if h.lrId = lr.lrId then lr' else h), h = lr' := by
    intro h hm
    obtain ⟨h₀, hh₀, rfl⟩ := List.mem_map.mp hm
    rw [hinv.eq_of_only htree hw h₀ hh₀, if_pos rfl]
  have hlr' : lr' ∈ s.rlHandles.map (fun h => if h.lrId = lr.lrId then lr' else h) :=
    List.mem_map.mpr ⟨lr, hmem, if_pos rfl⟩
  have hpos : lr'.lo < lr'.hi := show off.toNat < off.toNat + len.toNat by have := hcb.1; omega
  have hok : EntryOk lr' :=
    ⟨hpos, hcb.2, fun h => absurd (hw.symm.trans h) (by decide),
      fun h => absurd (hnp.symm.trans h) (by decide), fun _ h => absurd (hw.symm.trans h) (by decide)⟩
  rw [hT]
  refine ⟨⟨⟨List.pairwise_singleton _ _, fun e he => ?_, List.nodup_singleton _, fun e he => ?_⟩,
    fun e he _ => ?_, fun h hm => ?_, ?_⟩, ⟨fun h hm => ?_, fun h hm => ?_, fun h hm => ?_,
    fun h hm _ => ?_, fun h hm hr => ?_⟩, fun x => ?_⟩
  · rw [List.mem_singleton.mp he]
    exact hok
  · rw [List.mem_singleton.mp he]
    exact hinv.rd.tree.fresh lr hlr
  · rw [List.mem_singleton.mp he]
    exact hlr'
  · rw [hH h hm]
    exact hnp
  · -- the store keeps every held lock's address
    rw [List.map_map]
    refine (List.map_congr_left fun h _ => ?_).symm ▸ hinv.rd.handleNodup
    show (if h.lrId = lr.lrId then lr' else h).lrId = h.lrId
    split_ifs with hid
    · exact hid.symm
    · rfl
  · rw [hH h hm]
    exact hpos
  · rw [hH h hm]
    exact hinv.rd.tree.fresh lr hlr
  · rw [hH h hm]
    show lr.lrType ≠ .append
    rw [hw]
    decide
  · rw [hH h hm]
    exact List.mem_singleton_self _
  · rw [hH h hm] at hr
    exact absurd (hw.symm.trans hr) (by decide)
  · -- a writer counts no reader, and it is all that is held
    have h0 : lr'.countAt x = 0 := if_neg fun h => absurd (hw.symm.trans h.1) (by decide)
    rw [show readerCount [lr'] x = lr'.countAt x + 0 from readerCount_cons x, h0]
    refine (List.sum_eq_zero_iff_forall_eq_nat.mpr fun k hk => ?_).symm
    obtain ⟨h, hm, rfl⟩ := List.mem_map.mp hk
    rw [hH h hm]
    exact if_neg fun h => absurd (hw.symm.trans h.1) (by decide)

end Reduce

/-- **Every reachable state satisfies the invariant**, when `rl_cb` and the caller of
`zfs_rangelock_reduce` only hand out ranges that do not wrap. -/
theorem RlReachable.inv {s : Rangelock} (h : RlReachable CbFits s) : RlInv s := by
  induction h with
  | init => exact rlInv_init
  | step _ hstep ih =>
    cases hstep with
    | enter off len type cb hlen hcb h => exact ih.enter hlen hcb h
    | exit lr hmem => exact (ih.exit hmem).inv
    | reduce lr off len hmem htree hwriter _ _ hcb => exact ih.reduce hmem htree hwriter hcb

end Zfs
