import Zfs.Rlock.Spec

/-!
# Rlock/Reader — the proxy operations of `zfs_rangelock_add_reader`

A tree is well formed (`TreeOk`) when its entries are separated, nonempty, end below `2 ^ 64`, sit
at distinct addresses below the next one, and a reader's entry counts at least one; a reader's own
entry, not a proxy, counts exactly one.  A held reader whose entry was made a proxy keeps count 0,
and its range is then tiled by proxies (`ProxyTiled`).

`Grows s s'` says what the operations `zfs_rangelock_add_reader` is made of do to a state: proxies
are only ever refined into proxies inside them, the only entries that are not proxies are held
locks already in the tree, a held lock either stays as it is or becomes a count-0 reader tiled by
proxies (`HandleStep`), and new entries take fresh addresses.  It is a preorder
(`Grows.refl`, `Grows.trans`).

Each operation is then taken apart once:

* `zfsRangelockNewProxy`: `grows_newProxy`, `treeOk_newProxy`, `readerCount_newProxy`;
* `zfsRangelockProxify`: `proxified` — the entry is replaced by a proxy of its range and count;
* `bumpCount`: `bumped` — one more reader on the proxy's range;
* `zfsRangelockSplit`: `split_replaced` — the entry is replaced by a front and a rear proxy.

The last three are stated as `Replaced s e c k s'`: the entry `e` given up for proxies inside its
range, with `k` more readers on `[e.lo, c)`.
-/

namespace Zfs

open LockedRange

/-! ## Well-formed trees -/

/-- What every entry of the tree satisfies. -/
structure EntryOk (e : LockedRange) : Prop where
  pos : e.lo < e.hi
  fits : e.hi < 2 ^ 64
  readerPos : e.lrType = .reader → 0 < e.lrCount
  proxyReader : e.lrProxy = true → e.lrType = .reader
  single : e.lrProxy = false → e.lrType = .reader → e.lrCount = 1

/-- A tree of well-formed, separated entries at distinct addresses below `n`. -/
structure TreeOk (t : List LockedRange) (n : ℕ) : Prop where
  sep : TreeSeparated t
  entry : ∀ e ∈ t, EntryOk e
  nodup : (t.map (·.lrId)).Nodup
  fresh : ∀ e ∈ t, e.lrId < n

section TreeOk

variable {t : List LockedRange} {n : ℕ} {e f lr : LockedRange}

theorem TreeOk.pos (ht : TreeOk t n) : ∀ f ∈ t, f.lo < f.hi := fun f hf => (ht.entry f hf).pos

theorem TreeOk.eq_of_lrId (ht : TreeOk t n) (he : e ∈ t) (hf : f ∈ t) (h : e.lrId = f.lrId) :
    e = f :=
  List.inj_on_of_nodup_map ht.nodup he hf h

theorem TreeOk.eq_of_covers (ht : TreeOk t n) (he : e ∈ t) (hf : f ∈ t) {x : ℕ} (hxe : e.Covers x)
    (hxf : f.Covers x) : e = f :=
  ht.sep.eq_of_covers he hf hxe hxf

theorem TreeOk.apart (ht : TreeOk t n) (he : e ∈ t) (hf : f ∈ t) (hne : e ≠ f) :
    Intervals.Apart lo hi e f :=
  ht.sep.apart he hf hne

/-- Entries at other addresses than `e` are apart from it. -/
theorem TreeOk.apart_of_lrId (ht : TreeOk t n) (he : e ∈ t) (hf : f ∈ t) (hne : f.lrId ≠ e.lrId) :
    Intervals.Apart lo hi e f :=
  ht.apart he hf fun h => hne (h ▸ rfl)

theorem TreeOk.mono (ht : TreeOk t n) {n' : ℕ} (hn : n ≤ n') : TreeOk t n' :=
  ⟨ht.sep, ht.entry, ht.nodup, fun e he => lt_of_lt_of_le (ht.fresh e he) hn⟩

theorem TreeOk.avlRemove (ht : TreeOk t n) (id : ℕ) : TreeOk (avlRemove t id) n where
  sep := ht.sep.avlRemove id
  entry f hf := ht.entry f (mem_avlRemove.mp hf).1
  nodup := ht.nodup.sublist (List.filter_sublist.map _)
  fresh f hf := ht.fresh f (mem_avlRemove.mp hf).1

/-- A fresh entry apart from all the others goes into the tree. -/
theorem TreeOk.avlAdd (ht : TreeOk t n) (hlr : EntryOk lr) (hid : lr.lrId ∉ t.map (·.lrId))
    {n' : ℕ} (hn : n ≤ n') (hlt : lr.lrId < n') (hap : ∀ f ∈ t, Intervals.Apart lo hi lr f) :
    TreeOk (avlAdd t lr) n' where
  sep := ht.sep.avlAdd ht.pos hlr.pos hap
  entry f hf := by
    rcases mem_avlAdd.mp hf with rfl | hf
    · exact hlr
    · exact ht.entry f hf
  nodup := by
    rw [((avlAdd_perm t lr).map _).nodup_iff, List.map_cons, List.nodup_cons]
    exact ⟨hid, ht.nodup⟩
  fresh f hf := by
    rcases mem_avlAdd.mp hf with rfl | hf
    · exact hlt
    · exact lt_of_lt_of_le (ht.fresh f hf) hn

/-- A store of a well-formed entry inside the range of the one at its address. -/
theorem TreeOk.setEntry (ht : TreeOk t n) (hlr : EntryOk lr)
    (hw : ∀ g ∈ t, g.lrId = lr.lrId → lr.Within g) : TreeOk (setEntry t lr) n where
  sep := ht.sep.setEntry hw
  entry f hf := by
    rcases mem_setEntry.mp hf with ⟨hf, -⟩ | ⟨rfl, -⟩
    · exact ht.entry f hf
    · exact hlr
  nodup := by rw [map_lrId_setEntry]; exact ht.nodup
  fresh f hf := by
    rcases mem_setEntry.mp hf with ⟨hf, -⟩ | ⟨rfl, g, hg, hid⟩
    · exact ht.fresh f hf
    · exact hid ▸ ht.fresh g hg

end TreeOk

/-! ## Tiling by proxies -/

/-- The proxies of `t` inside `h`'s range cover all of it. -/
def ProxyTiled (t : List LockedRange) (h : LockedRange) : Prop :=
  ∀ x, h.Covers x → ∃ e ∈ t, e.lrProxy = true ∧ e.Covers x ∧ e.Within h

/-- Every proxy of `t` is tiled by proxies of `t'`. -/
def Refines (t t' : List LockedRange) : Prop :=
  ∀ e ∈ t, e.lrProxy = true → ProxyTiled t' e

section Tiling

variable {t t' t'' : List LockedRange} {n : ℕ} {h e : LockedRange}

theorem LockedRange.Within.refl (e : LockedRange) : e.Within e := ⟨le_rfl, le_rfl⟩

theorem LockedRange.Within.trans {a b c : LockedRange} (hab : a.Within b) (hbc : b.Within c) :
    a.Within c :=
  ⟨le_trans hbc.1 hab.1, le_trans hab.2 hbc.2⟩

theorem ProxyTiled.refines (ht : ProxyTiled t h) (hr : Refines t t') : ProxyTiled t' h := by
  intro x hx
  obtain ⟨e, he, hp, hxe, hwe⟩ := ht x hx
  obtain ⟨e', he', hp', hxe', hwe'⟩ := hr e he hp x hxe
  exact ⟨e', he', hp', hxe', hwe'.trans hwe⟩

/-- The count does not enter a tiling. -/
theorem proxyTiled_zero : ProxyTiled t { h with lrCount := 0 } ↔ ProxyTiled t h := Iff.rfl

/-- An entry of a well-formed tree tiled by proxies is itself a proxy. -/
theorem ProxyTiled.proxy_of_mem (ht : TreeOk t n) (hh : h ∈ t) (htile : ProxyTiled t h) :
    h.lrProxy = true := by
  have hpos := ht.pos h hh
  obtain ⟨e, he, hp, hxe, -⟩ := htile h.lo ⟨le_rfl, hpos⟩
  rw [ht.eq_of_covers hh he ⟨le_rfl, hpos⟩ hxe]
  exact hp

theorem Refines.refl (t : List LockedRange) : Refines t t :=
  fun e he hp _ hx => ⟨e, he, hp, hx, Within.refl e⟩

theorem Refines.trans (h₁ : Refines t t') (h₂ : Refines t' t'') : Refines t t'' :=
  fun e he hp => (h₁ e he hp).refines h₂

theorem Refines.of_subset (h : ∀ e ∈ t, e.lrProxy = true → e ∈ t') : Refines t t' :=
  fun e he hp _ hx => ⟨e, h e he hp, hp, hx, Within.refl e⟩

end Tiling

/-! ## What the reader operations do to a state -/

/-- How the reader operations may change a held lock: not at all, keeping it in the tree if it
was there; or, its own entry made a proxy, to count 0 with its range tiled by proxies. -/
def HandleStep (t t' : List LockedRange) (h h' : LockedRange) : Prop :=
  (h' = h ∧ (h ∈ t → h ∈ t')) ∨
    (h.lrType = .reader ∧ h' = { h with lrCount := 0 } ∧ ProxyTiled t' h)

/-- The effect of the operations `zfs_rangelock_add_reader` is made of. -/
structure Grows (s s' : Rangelock) : Prop where
  refines : Refines s.rlTree s'.rlTree
  nonProxy : ∀ e ∈ s'.rlTree, e.lrProxy = false → e ∈ s.rlTree
  handles : ∃ g : LockedRange → LockedRange, s'.rlHandles = s.rlHandles.map g ∧
    ∀ h ∈ s.rlHandles, HandleStep s.rlTree s'.rlTree h (g h)
  ids : ∀ e ∈ s'.rlTree, e.lrId ∈ s.rlTree.map (·.lrId) ∨ s.nextId ≤ e.lrId
  nextId : s.nextId ≤ s'.nextId

/-- What the reader operations need of a state: a well-formed tree whose entries that are not
proxies are held locks, and held locks that are not proxies, at distinct addresses. -/
structure RdOk (s : Rangelock) : Prop where
  tree : TreeOk s.rlTree s.nextId
  held : ∀ e ∈ s.rlTree, e.lrProxy = false → e ∈ s.rlHandles
  handleNonProxy : ∀ h ∈ s.rlHandles, h.lrProxy = false
  handleNodup : (s.rlHandles.map (·.lrId)).Nodup

section Steps

variable {t₀ t₁ t₂ : List LockedRange} {h h' h'' : LockedRange}

/-- A held lock keeps its address, range, type and flag. -/
theorem HandleStep.same (hs : HandleStep t₀ t₁ h h') :
    h'.lrId = h.lrId ∧ h'.lrOffset = h.lrOffset ∧ h'.lrLength = h.lrLength ∧
      h'.lrType = h.lrType ∧ h'.lrProxy = h.lrProxy := by
  rcases hs with ⟨rfl, -⟩ | ⟨-, rfl, -⟩ <;> exact ⟨rfl, rfl, rfl, rfl, rfl⟩

theorem HandleStep.heldAt (hs : HandleStep t₀ t₁ h h') (x : ℕ) : h'.heldAt x = h.heldAt x := by
  obtain ⟨-, ho, hl, hty, -⟩ := hs.same
  have hc : h'.Covers x ↔ h.Covers x := by simp only [Covers, lo, hi, ho, hl]
  exact if_congr (and_congr (by rw [hty]) hc) rfl rfl

theorem HandleStep.trans (h₁ : HandleStep t₀ t₁ h h') (h₂ : HandleStep t₁ t₂ h' h'')
    (hr : Refines t₁ t₂) : HandleStep t₀ t₂ h h'' := by
  rcases h₁ with ⟨rfl, hm₁⟩ | ⟨hty, rfl, htile⟩
  · rcases h₂ with ⟨rfl, hm₂⟩ | h₂
    · exact .inl ⟨rfl, hm₂ ∘ hm₁⟩
    · exact .inr h₂
  · -- already at count 0: a second zeroing is the first, and the tiling is refined
    rcases h₂ with ⟨rfl, -⟩ | ⟨-, rfl, htile₂⟩
    · exact .inr ⟨hty, rfl, htile.refines hr⟩
    · exact .inr ⟨hty, rfl, htile₂⟩

end Steps

section Grows

variable {s s' s'' : Rangelock}

theorem Grows.refl (s : Rangelock) : Grows s s where
  refines := Refines.refl _
  nonProxy _ he _ := he
  handles := ⟨id, by simp, fun _ _ => .inl ⟨rfl, id⟩⟩
  ids e he := .inl (List.mem_map_of_mem he)
  nextId := le_rfl

theorem Grows.trans (h₁ : Grows s s') (h₂ : Grows s' s'') : Grows s s'' where
  refines := h₁.refines.trans h₂.refines
  nonProxy e he hp := h₁.nonProxy e (h₂.nonProxy e he hp) hp
  handles := by
    obtain ⟨g₁, hg₁, hs₁⟩ := h₁.handles
    obtain ⟨g₂, hg₂, hs₂⟩ := h₂.handles
    refine ⟨g₂ ∘ g₁, by rw [hg₂, hg₁, List.map_map], fun h hh => ?_⟩
    have hmem : g₁ h ∈ s'.rlHandles := by rw [hg₁]; exact List.mem_map_of_mem hh
    exact (hs₁ h hh).trans (hs₂ (g₁ h) hmem) h₂.refines
  ids e he := by
    rcases h₂.ids e he with hid | hid
    · obtain ⟨e', he', hid'⟩ := List.mem_map.mp hid
      rcases h₁.ids e' he' with hid₁ | hid₁
      · exact .inl (hid' ▸ hid₁)
      · exact .inr (hid' ▸ hid₁)
    · exact .inr (le_trans h₁.nextId hid)
  nextId := le_trans h₁.nextId h₂.nextId

/-- The held locks after, each the image of one before. -/
theorem Grows.mem_handles (hg : Grows s s') {h' : LockedRange} (hh : h' ∈ s'.rlHandles) :
    ∃ h ∈ s.rlHandles, HandleStep s.rlTree s'.rlTree h h' := by
  obtain ⟨g, hg, hs⟩ := hg.handles
  rw [hg] at hh
  obtain ⟨h, hmem, rfl⟩ := List.mem_map.mp hh
  exact ⟨h, hmem, hs h hmem⟩

theorem Grows.map_lrId_handles (hg : Grows s s') :
    s'.rlHandles.map (·.lrId) = s.rlHandles.map (·.lrId) := by
  obtain ⟨g, hg, hs⟩ := hg.handles
  rw [hg, List.map_map]
  exact List.map_congr_left fun h hh => (hs h hh).same.1

/-- The held readers hold the same offsets: only counts change. -/
theorem Grows.readersHeld_eq (hg : Grows s s') (x : ℕ) :
    readersHeld s'.rlHandles x = readersHeld s.rlHandles x := by
  obtain ⟨g, hg, hs⟩ := hg.handles
  rw [readersHeld, readersHeld, hg, List.map_map]
  congr 1
  exact List.map_congr_left fun h hh => (hs h hh).heldAt x

/-- A fresh address stays out of the tree. -/
theorem Grows.lrId_ne (hg : Grows s s') {id : ℕ} (hid : ∀ e ∈ s.rlTree, e.lrId ≠ id)
    (hlt : id < s.nextId) : ∀ e ∈ s'.rlTree, e.lrId ≠ id := by
  intro e he heq
  rcases hg.ids e he with hmem | hge
  · obtain ⟨e', he', hid'⟩ := List.mem_map.mp hmem
    exact hid e' he' (hid'.trans heq)
  · omega

theorem RdOk.of_grows (hs : RdOk s) (hg : Grows s s') (ht : TreeOk s'.rlTree s'.nextId) :
    RdOk s' where
  tree := ht
  held e he hp := by
    obtain ⟨g, hgh, hstep⟩ := hg.handles
    have he₀ := hg.nonProxy e he hp
    have hmem : g e ∈ s'.rlHandles := hgh ▸ List.mem_map_of_mem (hs.held e he₀ hp)
    rcases hstep e (hs.held e he₀ hp) with ⟨heq, -⟩ | ⟨-, -, htile⟩
    · exact heq ▸ hmem
    · -- an entry that is no proxy cannot be tiled by proxies
      have := htile.proxy_of_mem ht he
      simp_all
  handleNonProxy h' hh := by
    obtain ⟨h, hh, hstep⟩ := hg.mem_handles hh
    rw [hstep.same.2.2.2.2]
    exact hs.handleNonProxy h hh
  handleNodup := by rw [hg.map_lrId_handles]; exact hs.handleNodup

end Grows

/-! ## The operations, one at a time -/

/-- `s'` is `s` with the entry `e` given up for proxies inside its range, one of them running
from `e.lo` to `c`, and `k` more readers on `[e.lo, c)`; a new proxy starting before `c` ends by
it. -/
structure Replaced (s : Rangelock) (e : LockedRange) (c k : ℕ) (s' : Rangelock) : Prop where
  rd : RdOk s'
  grows : Grows s s'
  keep : ∀ f ∈ s.rlTree, f.lrId ≠ e.lrId → f ∈ s'.rlTree
  new : ∀ f ∈ s'.rlTree, (f ∈ s.rlTree ∧ f.lrId ≠ e.lrId) ∨
    (f.lrProxy = true ∧ f.Within e ∧ (f.lo < c → f.hi ≤ c))
  front : ∃ p ∈ s'.rlTree, p.lrProxy = true ∧ p.lo = e.lo ∧ p.hi = c
  count : ∀ x, readerCount s'.rlTree x = readerCount s.rlTree x + if e.lo ≤ x ∧ x < c then k else 0

section Ops

variable {s s' s₁ : Rangelock} {e p : LockedRange} {off len : UInt64}

theorem countAt_of_reader (h : e.lrType = .reader) (x : ℕ) :
    e.countAt x = if e.Covers x then e.lrCount else 0 := by
  simp [countAt, h]

theorem countAt_eq (h : e.lrType = .reader) {a b : ℕ} (ha : e.lo = a) (hb : e.hi = b) (x : ℕ) :
    e.countAt x = if a ≤ x ∧ x < b then e.lrCount else 0 := by
  rw [countAt_of_reader h]
  exact if_congr (by rw [Covers, ha, hb]) rfl rfl

/-- An entry at another address than `e`'s in a tree with `e` does not start where `e` does. -/
theorem TreeOk.ne_of_lo_eq {t : List LockedRange} {n : ℕ} (ht : TreeOk t n) (he : e ∈ t)
    {f g : LockedRange} (hf : f ∈ t) (hfe : f.lrId ≠ e.lrId) (hg : g.lo = e.lo) (hpos : g.lo < g.hi) :
    f ≠ g := by
  rintro rfl
  rcases ht.apart_of_lrId he hf hfe with h | h
  · have := ht.pos e he
    omega
  · omega

/-! ### `zfs_rangelock_new_proxy` -/

theorem grows_newProxy : Grows s (zfsRangelockNewProxy s off len) where
  refines := Refines.of_subset fun _ he _ => mem_avlAdd.mpr (.inr he)
  nonProxy f hf hp := by
    rcases mem_avlAdd.mp hf with rfl | hf
    · simp at hp
    · exact hf
  handles := ⟨id, by simp [zfsRangelockNewProxy], fun _ _ => .inl ⟨rfl, fun hm => mem_avlAdd.mpr (.inr hm)⟩⟩
  ids f hf := by
    rcases mem_avlAdd.mp hf with rfl | hf
    · exact .inr le_rfl
    · exact .inl (List.mem_map_of_mem hf)
  nextId := Nat.le_succ _

/-- A new proxy over a gap of the tree keeps it well formed. -/
theorem treeOk_newProxy (ht : TreeOk s.rlTree s.nextId) (hpos : 0 < len.toNat)
    (hfit : off.toNat + len.toNat < 2 ^ 64)
    (hap : ∀ f ∈ s.rlTree, f.hi ≤ off.toNat ∨ off.toNat + len.toNat ≤ f.lo) :
    TreeOk (zfsRangelockNewProxy s off len).rlTree (zfsRangelockNewProxy s off len).nextId := by
  have hok : EntryOk ⟨s.nextId, off, len, 1, .reader, true⟩ :=
    ⟨by simp only [lo, hi]; omega, hfit, fun _ => Nat.one_pos, fun _ => rfl, fun h => by simp at h⟩
  refine ht.avlAdd hok ?_ (Nat.le_succ _) (Nat.lt_succ_self _) fun f hf => (hap f hf).symm
  · intro hmem
    obtain ⟨f, hf, hid⟩ := List.mem_map.mp hmem
    exact absurd (ht.fresh f hf) (by simp [hid])

theorem readerCount_newProxy (x : ℕ) :
    readerCount (zfsRangelockNewProxy s off len).rlTree x =
      readerCount s.rlTree x + if off.toNat ≤ x ∧ x < off.toNat + len.toNat then 1 else 0 := by
  show readerCount (avlAdd s.rlTree _) x = _
  rw [readerCount_avlAdd, countAt_of_reader rfl, Nat.add_comm]
  rfl

/-! ### `zfs_rangelock_proxify` -/

/-- **Proxify**: a reader's entry is replaced by a proxy of its range and count; its holder, if
it is not a proxy already, is left at count 0 with the proxy tiling its range. -/
theorem proxified (hs : RdOk s) (he : e ∈ s.rlTree) (hr : e.lrType = .reader)
    (hpx : zfsRangelockProxify s e = (s', p)) :
    Replaced s e e.hi 0 s' ∧ p ∈ s'.rlTree ∧ p.lrProxy = true ∧ p.lo = e.lo ∧ p.hi = e.hi ∧
      p.lrCount = e.lrCount := by
  have ht := hs.tree
  cases hp : e.lrProxy
  · -- an original lock: a new proxy at the next address takes its place
    simp only [zfsRangelockProxify, hp, Bool.false_eq_true, if_false, Prod.mk.injEq] at hpx
    obtain ⟨rfl, rfl⟩ := hpx
    have hcount : e.lrCount = 1 := (ht.entry e he).single hp hr
    have hmem : ∀ f, f ∈ avlAdd (avlRemove s.rlTree e.lrId)
        ⟨s.nextId, e.lrOffset, e.lrLength, 1, .reader, true⟩ ↔
        f = ⟨s.nextId, e.lrOffset, e.lrLength, 1, .reader, true⟩ ∨
          (f ∈ s.rlTree ∧ f.lrId ≠ e.lrId) := by
      simp
    have htree : TreeOk (avlAdd (avlRemove s.rlTree e.lrId)
        ⟨s.nextId, e.lrOffset, e.lrLength, 1, .reader, true⟩) (s.nextId + 1) := by
      have hok : EntryOk ⟨s.nextId, e.lrOffset, e.lrLength, 1, .reader, true⟩ :=
        ⟨(ht.entry e he).pos, (ht.entry e he).fits, fun _ => Nat.one_pos, fun _ => rfl,
          fun h => by simp at h⟩
      refine (ht.avlRemove _).avlAdd hok ?_ (Nat.le_succ _) (Nat.lt_succ_self _) fun f hf => ?_
      · intro hm
        obtain ⟨f, hf, hid⟩ := List.mem_map.mp hm
        exact absurd (ht.fresh f (mem_avlRemove.mp hf).1) (by simp [hid])
      · rw [mem_avlRemove] at hf
        have hap := ht.apart_of_lrId he hf.1 hf.2
        exact hap
    have hgrows : Grows s ⟨avlAdd (avlRemove s.rlTree e.lrId)
        ⟨s.nextId, e.lrOffset, e.lrLength, 1, .reader, true⟩,
        s.rlHandles.map fun h => if h.lrId = e.lrId then { h with lrCount := 0 } else h,
        s.nextId + 1⟩ := by
      refine ⟨Refines.of_subset fun f hf hfp => (hmem f).mpr (.inr ⟨hf, fun hid => ?_⟩), ?_,
        ⟨_, rfl, fun h hh => ?_⟩, fun f hf => ?_, Nat.le_succ _⟩
      · rw [ht.eq_of_lrId hf he hid, hp] at hfp
        exact Bool.false_ne_true hfp
      · intro f hf hfp
        rcases (hmem f).mp hf with rfl | hf
        · simp at hfp
        · exact hf.1
      · by_cases hid : h.lrId = e.lrId
        · -- the holder of `e` itself
          have heq : h = e := List.inj_on_of_nodup_map hs.handleNodup hh
            (hs.held e he hp) hid
          subst heq
          refine .inr ⟨hr, if_pos rfl, fun x hx => ?_⟩
          exact ⟨_, (hmem _).mpr (.inl rfl), rfl, hx, Within.refl _⟩
        · exact .inl ⟨if_neg hid, fun hm => (hmem h).mpr (.inr ⟨hm, hid⟩)⟩
      · rcases (hmem f).mp hf with rfl | hf
        · exact .inr le_rfl
        · exact .inl (List.mem_map_of_mem hf.1)
    refine ⟨⟨hs.of_grows hgrows htree, hgrows, fun f hf hid => (hmem f).mpr (.inr ⟨hf, hid⟩),
      fun f hf => ?_, ⟨_, (hmem _).mpr (.inl rfl), rfl, rfl, rfl⟩, fun x => ?_⟩,
      (hmem _).mpr (.inl rfl), rfl, rfl, rfl, hcount.symm⟩
    · rcases (hmem f).mp hf with rfl | hf
      · exact .inr ⟨rfl, Within.refl e, fun _ => le_rfl⟩
      · exact .inl hf
    · show readerCount (avlAdd _ _) x = _
      rw [readerCount_avlAdd, readerCount_avlRemove he ht.nodup x, countAt_of_reader rfl,
        countAt_of_reader hr, hcount]
      rw [ite_self, Nat.add_zero]
      rfl
  · -- already a proxy: nothing changes
    simp only [zfsRangelockProxify, hp, if_true, Prod.mk.injEq] at hpx
    obtain ⟨rfl, rfl⟩ := hpx
    refine ⟨⟨hs, Grows.refl _, fun f hf _ => hf, fun f hf => ?_, ⟨e, he, hp, rfl, rfl⟩,
      fun x => by simp⟩, he, hp, rfl, rfl, rfl⟩
    by_cases hid : f.lrId = e.lrId
    · rw [ht.eq_of_lrId hf he hid]
      exact .inr ⟨hp, Within.refl e, fun _ => le_rfl⟩
    · exact .inl ⟨hf, hid⟩

/-! ### `lr->lr_count++` -/

/-- **Bump**: one more reader on a proxy's range. -/
theorem bumped (hs : RdOk s) (hp : p ∈ s.rlTree) (hpx : p.lrProxy = true) :
    Replaced s p p.hi 1 (bumpCount s p) := by
  have ht := hs.tree
  have hok := ht.entry p hp
  have hw : ∀ g ∈ s.rlTree, g.lrId = p.lrId → ({ p with lrCount := p.lrCount + 1 }).Within g := by
    intro g hg hid
    rw [ht.eq_of_lrId hg hp hid]
    exact Within.refl p
  have htree : TreeOk (bumpCount s p).rlTree (bumpCount s p).nextId :=
    ht.setEntry ⟨hok.pos, hok.fits, fun _ => Nat.succ_pos _, hok.proxyReader,
      fun h => by simp [hpx] at h⟩ hw
  have hmem : ∀ f, f ∈ (bumpCount s p).rlTree ↔ (f ∈ s.rlTree ∧ f.lrId ≠ p.lrId) ∨
      f = { p with lrCount := p.lrCount + 1 } := by
    intro f
    refine mem_setEntry.trans (or_congr Iff.rfl ⟨fun h => h.1, fun h => ⟨h, p, hp, rfl⟩⟩)
  have hgrows : Grows s (bumpCount s p) := by
    refine ⟨fun f hf hfp x hx => ?_, fun f hf hfp => ?_, ⟨id, by simp [bumpCount], fun h hh => ?_⟩,
      fun f hf => .inl ?_, le_rfl⟩
    · by_cases hid : f.lrId = p.lrId
      · obtain rfl := ht.eq_of_lrId hf hp hid
        exact ⟨_, (hmem _).mpr (.inr rfl), hpx, hx, Within.refl f⟩
      · exact ⟨f, (hmem f).mpr (.inl ⟨hf, hid⟩), hfp, hx, Within.refl f⟩
    · rcases (hmem f).mp hf with h | rfl
      · exact h.1
      · simp [hpx] at hfp
    · -- a holder is no proxy, so it is not the entry bumped
      refine .inl ⟨rfl, fun hm => (hmem h).mpr (.inl ⟨hm, fun hid => ?_⟩)⟩
      have := hs.handleNonProxy h hh
      rw [ht.eq_of_lrId hm hp hid, hpx] at this
      exact Bool.noConfusion this
    · rcases (hmem f).mp hf with h | rfl
      · exact List.mem_map_of_mem h.1
      · show p.lrId ∈ _
        exact List.mem_map_of_mem hp
  refine ⟨hs.of_grows hgrows htree, hgrows, fun f hf hid => (hmem f).mpr (.inl ⟨hf, hid⟩),
    fun f hf => ?_, ⟨_, (hmem _).mpr (.inr rfl), hpx, rfl, rfl⟩, fun x => ?_⟩
  · rcases (hmem f).mp hf with h | rfl
    · exact .inl h
    · exact .inr ⟨hpx, Within.refl p, fun _ => le_rfl⟩
  · have := readerCount_setEntry hp
      (show p.lrId = ({ p with lrCount := p.lrCount + 1 } : LockedRange).lrId from rfl) ht.nodup x
    rw [countAt_of_reader (e := p) (hok.proxyReader hpx),
      countAt_of_reader (e := { p with lrCount := p.lrCount + 1 }) (hok.proxyReader hpx)] at this
    change readerCount (setEntry s.rlTree _) x = _
    simp only [Covers, lo, hi] at this ⊢
    by_cases hx : p.lrOffset.toNat ≤ x ∧ x < p.lrOffset.toNat + p.lrLength.toNat <;>
      simp only [hx, and_self, if_true, if_false] at this ⊢ <;> omega

/-! ### A bump after a replacement -/

/-- A state grows from `s` through `s₁` when the last step only refines `s₁`'s proxies, keeps the
held locks, and takes addresses of `s₁` or fresh ones for `s`. -/
theorem Grows.extend {s₂ : Rangelock} (hg : Grows s s₁) (hr : Refines s₁.rlTree s₂.rlTree)
    (hnp : ∀ e ∈ s₂.rlTree, e.lrProxy = false → e ∈ s₁.rlTree)
    (hh : s₂.rlHandles = s₁.rlHandles) (hkeep : ∀ h ∈ s₁.rlHandles, h ∈ s₁.rlTree → h ∈ s₂.rlTree)
    (hids : ∀ e ∈ s₂.rlTree, e.lrId ∈ s₁.rlTree.map (·.lrId) ∨ s.nextId ≤ e.lrId)
    (hn : s₁.nextId ≤ s₂.nextId) : Grows s s₂ where
  refines := hg.refines.trans hr
  nonProxy e he hp := hg.nonProxy e (hnp e he hp) hp
  handles := by
    obtain ⟨g, hgh, hstep⟩ := hg.handles
    refine ⟨g, hh.trans hgh, fun h hm => (hstep h hm).trans (.inl ⟨rfl, hkeep (g h) ?_⟩) hr⟩
    rw [hgh]
    exact List.mem_map_of_mem hm
  ids e he := by
    rcases hids e he with hid | hid
    · obtain ⟨e', he', hid'⟩ := List.mem_map.mp hid
      rcases hg.ids e' he' with h | h
      · exact .inl (hid' ▸ h)
      · exact .inr (hid' ▸ h)
    · exact .inr hid
  nextId := le_trans hg.nextId hn

/-- What a replacement leaves from `e.lo` is new: no entry of the tree before. -/
theorem Replaced.not_old (h₁ : Replaced s e c k s₁) (ht : TreeOk s.rlTree s.nextId) (he : e ∈ s.rlTree)
    (hp : p ∈ s₁.rlTree) (hlo : p.lo = e.lo) : p.Within e := by
  rcases h₁.new p hp with ⟨hp₀, hid⟩ | ⟨-, hw, -⟩
  · exact absurd rfl (ht.ne_of_lo_eq he hp₀ hid hlo (h₁.rd.tree.pos p hp))
  · exact hw

/-- **A replacement, then a bump of the proxy it left from `e.lo` to `c`**: one more reader on
`[e.lo, c)`. -/
theorem Replaced.bump (h₁ : Replaced s e c 0 s₁) (ht : TreeOk s.rlTree s.nextId) (he : e ∈ s.rlTree)
    (hp : p ∈ s₁.rlTree) (hpx : p.lrProxy = true) (hlo : p.lo = e.lo) (hhi : p.hi = c) :
    Replaced s e c 1 (bumpCount s₁ p) := by
  have h₂ := bumped h₁.rd hp hpx
  have hpw := h₁.not_old ht he hp hlo
  refine ⟨h₂.rd, h₁.grows.trans h₂.grows, fun f hf hid => ?_, fun f hf => ?_, ?_, fun x => ?_⟩
  · -- an old entry elsewhere is not the proxy that starts at `e.lo`
    have hf₁ := h₁.keep f hf hid
    refine h₂.keep f hf₁ fun hfp => ?_
    have hfeq := h₁.rd.tree.eq_of_lrId hf₁ hp hfp
    exact ht.ne_of_lo_eq he hf hid hlo (h₁.rd.tree.pos p hp) hfeq
  · rcases h₂.new f hf with ⟨hf₁, -⟩ | ⟨hfp, hfw, hfc⟩
    · exact h₁.new f hf₁
    · exact .inr ⟨hfp, hfw.trans hpw, hhi ▸ hfc⟩
  · obtain ⟨q, hq, hqp, hqlo, hqhi⟩ := h₂.front
    exact ⟨q, hq, hqp, hqlo.trans hlo, hqhi.trans hhi⟩
  · rw [h₂.count, h₁.count, hlo, hhi, ite_self, Nat.add_zero]

/-! ### `zfs_rangelock_split` -/

/-- **Split**: a reader's entry is cut at `off` into a front and a rear proxy, each with its
count; the front is returned. -/
theorem split_replaced (hs : RdOk s) (he : e ∈ s.rlTree) (hr : e.lrType = .reader)
    (hlo : e.lo < off.toNat) (hhi : off.toNat < e.hi) (hsp : zfsRangelockSplit s e off = (s', p)) :
    Replaced s e off.toNat 0 s' ∧ p ∈ s'.rlTree ∧ p.lrProxy = true ∧ p.lo = e.lo ∧
      p.hi = off.toNat ∧ ∃ q ∈ s'.rlTree, q.lrProxy = true ∧ q.lo = off.toNat ∧ q.hi = e.hi := by
  have ht := hs.tree
  have hok := ht.entry e he
  have hfit := hok.fits
  -- the rear takes the next address, and a proxy of `e` the one after
  have hs₀ : RdOk { s with nextId := s.nextId + 1 } :=
    ⟨ht.mono (Nat.le_succ _), hs.held, hs.handleNonProxy, hs.handleNodup⟩
  have hg₀ : Grows s { s with nextId := s.nextId + 1 } :=
    ⟨Refines.refl _, fun _ he _ => he, ⟨id, by simp, fun _ _ => .inl ⟨rfl, id⟩⟩,
      fun e he => .inl (List.mem_map_of_mem he), Nat.le_succ _⟩
  rcases hq : zfsRangelockProxify { s with nextId := s.nextId + 1 } e with ⟨s₁, p₀⟩
  obtain ⟨R₁, hp₀, hpx₀, hlo₀, hhi₀, hcnt₀⟩ := proxified hs₀ he hr hq
  simp only [zfsRangelockSplit, hq, Prod.mk.injEq] at hsp
  obtain ⟨rfl, rfl⟩ := hsp
  have ht₁ := R₁.rd.tree
  have hok₀ := ht₁.entry p₀ hp₀
  have hle : e.lrOffset ≤ off := UInt64.le_iff_toNat_le.mpr (le_of_lt hlo)
  have hend : (e.lrOffset + e.lrLength).toNat = e.hi := toNat_lrEnd hok.fits
  have hle' : off ≤ e.lrOffset + e.lrLength := UInt64.le_iff_toNat_le.mpr (by omega)
  set front : LockedRange := { p₀ with lrLength := off - e.lrOffset } with hfront
  set rear : LockedRange :=
    ⟨s.nextId, off, e.lrOffset + e.lrLength - off, e.lrCount, .reader, true⟩ with hrear
  have hflo : front.lo = e.lo := hlo₀
  have hrlo : rear.lo = off.toNat := rfl
  have hfhi : front.hi = off.toNat := by
    have : p₀.lrOffset.toNat = e.lrOffset.toNat := hlo₀
    simp only [hfront, hi, UInt64.toNat_sub_of_le _ _ hle, this]
    simp only [lo] at hlo
    omega
  have hrhi : rear.hi = e.hi := by
    show off.toNat + (e.lrOffset + e.lrLength - off).toNat = e.hi
    rw [UInt64.toNat_sub_of_le _ _ hle', hend]
    omega
  -- the entries of `s₁` other than the proxy of `e` are the old ones
  have hother : ∀ f ∈ s₁.rlTree, f.lrId ≠ p₀.lrId → f ∈ s.rlTree ∧ f.lrId ≠ e.lrId := by
    intro f hf hid
    rcases R₁.new f hf with h | ⟨-, hfw, -⟩
    · exact h
    · have hpos := ht₁.pos f hf
      have hcov : p₀.Covers f.lo := ⟨by have := hfw.1; omega, by have := hfw.2; omega⟩
      exact absurd (congrArg (·.lrId) (ht₁.eq_of_covers hf hp₀ ⟨le_rfl, hpos⟩ hcov)) hid
  have hmem : ∀ f, f ∈ avlAdd (setEntry s₁.rlTree front) rear ↔
      f = rear ∨ f = front ∨ (f ∈ s.rlTree ∧ f.lrId ≠ e.lrId) := by
    intro f
    rw [mem_avlAdd, mem_setEntry]
    constructor
    · rintro (h | ⟨hf, hid⟩ | ⟨h, -⟩)
      · exact .inl h
      · exact .inr (.inr (hother f hf hid))
      · exact .inr (.inl h)
    · rintro (h | h | ⟨hf, hid⟩)
      · exact .inl h
      · exact .inr (.inr ⟨h, p₀, hp₀, rfl⟩)
      · refine .inr (.inl ⟨R₁.keep f hf hid, fun hfp => ?_⟩)
        have hfeq := ht₁.eq_of_lrId (R₁.keep f hf hid) hp₀ hfp
        exact ht.ne_of_lo_eq he hf hid hlo₀ (ht₁.pos p₀ hp₀) hfeq
  have hokf : EntryOk front :=
    ⟨by omega, by omega, fun _ => hcnt₀ ▸ hok.readerPos hr, hok₀.proxyReader,
      fun h => by simp [hfront, hpx₀] at h⟩
  have hokr : EntryOk rear :=
    ⟨by rw [hrlo, hrhi]; exact hhi, by omega, fun _ => hok.readerPos hr, fun _ => rfl,
      fun h => by simp [hrear] at h⟩
  have htree : TreeOk (avlAdd (setEntry s₁.rlTree front) rear) s₁.nextId := by
    refine (ht₁.setEntry hokf fun g hg hid => ?_).avlAdd hokr ?_ le_rfl ?_ fun f hf => ?_
    · rw [ht₁.eq_of_lrId hg hp₀ hid]
      exact ⟨le_of_eq (hlo₀.trans hflo.symm), by rw [hfhi, hhi₀]; omega⟩
    · rw [map_lrId_setEntry]
      intro hm
      obtain ⟨f, hf, hid⟩ := List.mem_map.mp hm
      exact R₁.grows.lrId_ne (fun g hg => (Nat.ne_of_lt (ht.fresh g hg))) (Nat.lt_succ_self _)
        f hf hid
    · exact lt_of_lt_of_le (Nat.lt_succ_self _) R₁.grows.nextId
    · rcases mem_setEntry.mp hf with ⟨hf, hid⟩ | ⟨rfl, -⟩
      · obtain ⟨hf, hid⟩ := hother f hf hid
        rcases ht.apart_of_lrId he hf hid with h | h
        · exact .inl (hrhi ▸ h)
        · exact .inr (by rw [hrlo]; omega)
      · exact .inr (le_of_eq hfhi)
  have hgrows : Grows s ⟨avlAdd (setEntry s₁.rlTree front) rear, s₁.rlHandles, s₁.nextId⟩ := by
    refine (hg₀.trans R₁.grows).extend (fun g hg hgp x hx => ?_) (fun f hf hfp => ?_) rfl
      (fun h hh hm => ?_) (fun f hf => ?_) le_rfl
    · by_cases hid : g.lrId = p₀.lrId
      · -- the proxy of `e`: its offsets before `off` are the front's, the others the rear's
        obtain rfl := ht₁.eq_of_lrId hg hp₀ hid
        have hx' : e.lo ≤ x ∧ x < e.hi := ⟨hlo₀ ▸ hx.1, hhi₀ ▸ hx.2⟩
        by_cases hxo : x < off.toNat
        · exact ⟨front, (hmem _).mpr (.inr (.inl rfl)), hpx₀, ⟨hflo ▸ hx'.1, hfhi ▸ hxo⟩,
            ⟨le_of_eq (hflo.trans hlo₀.symm).symm, by omega⟩⟩
        · exact ⟨rear, (hmem _).mpr (.inl rfl), rfl, ⟨by rw [hrlo]; omega, by omega⟩,
            ⟨by rw [hrlo, hlo₀]; omega, by rw [hrhi, hhi₀]⟩⟩
      · exact ⟨g, mem_avlAdd.mpr (.inr (mem_setEntry.mpr (.inl ⟨hg, hid⟩))), hgp, hx,
          Within.refl g⟩
    · rcases (hmem f).mp hf with rfl | rfl | ⟨hf, hid⟩
      · simp [hrear] at hfp
      · simp [hfront, hpx₀] at hfp
      · exact R₁.keep f hf hid
    · refine mem_avlAdd.mpr (.inr (mem_setEntry.mpr (.inl ⟨hm, fun hid => ?_⟩)))
      have := R₁.rd.handleNonProxy h hh
      rw [ht₁.eq_of_lrId hm hp₀ hid, hpx₀] at this
      exact Bool.noConfusion this
    · rcases mem_avlAdd.mp hf with rfl | hf
      · exact .inr le_rfl
      · rcases mem_setEntry.mp hf with ⟨hf, -⟩ | ⟨rfl, -⟩
        · exact .inl (List.mem_map_of_mem hf)
        · exact .inl (List.mem_map_of_mem (f := (·.lrId)) hp₀)
  refine ⟨⟨hs.of_grows hgrows htree, hgrows, fun f hf hid => (hmem f).mpr (.inr (.inr ⟨hf, hid⟩)),
    fun f hf => ?_, ⟨front, (hmem _).mpr (.inr (.inl rfl)), hpx₀, hflo, hfhi⟩, fun x => ?_⟩,
    (hmem _).mpr (.inr (.inl rfl)), hpx₀, hflo, hfhi, rear, (hmem _).mpr (.inl rfl), rfl, rfl, hrhi⟩
  · rcases (hmem f).mp hf with rfl | rfl | h
    · exact .inr ⟨rfl, ⟨by rw [hrlo]; omega, le_of_eq hrhi⟩, fun h => by rw [hrlo] at h; omega⟩
    · exact .inr ⟨hpx₀, ⟨le_of_eq hflo.symm, by omega⟩, fun _ => le_of_eq hfhi⟩
    · exact .inl h
  · -- the front and the rear together count what the proxy of `e` counted
    have hc₁ := R₁.count x
    rw [ite_self, Nat.add_zero] at hc₁
    have hc₂ := readerCount_setEntry hp₀ (show _ = front.lrId from rfl) ht₁.nodup x
    have hr₀ := hok₀.proxyReader hpx₀
    rw [countAt_eq hr₀ hlo₀ hhi₀, countAt_eq (e := front) hr₀ hflo hfhi] at hc₂
    show readerCount (avlAdd _ rear) x = _
    rw [readerCount_avlAdd, countAt_eq (e := rear) rfl hrlo hrhi, ite_self, Nat.add_zero]
    change readerCount s₁.rlTree x = readerCount s.rlTree x at hc₁
    have hrc : rear.lrCount = e.lrCount := rfl
    have hfc : front.lrCount = e.lrCount := hcnt₀
    rw [hrc]
    rw [hfc] at hc₂
    split_ifs at hc₂ ⊢ <;> omega

end Ops

end Zfs
