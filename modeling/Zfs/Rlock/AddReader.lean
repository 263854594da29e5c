import Zfs.Rlock.Reader

/-!
# Rlock/AddReader — `zfs_rangelock_add_reader` tiles the new range with proxies

The loop of `zfs_rangelock_add_reader` walks the entries the new range `[O, E)` overlaps, in
offset order.  Its invariant (`LoopInv`) is a *front* `cur`: the proxies inside `[O, E)` cover
`[O, cur)`, one more reader is counted there and nowhere else, and no entry straddles `cur`
(`AddFront`); the entries still to visit are those of the tree from `cur` on, and those before
`E` are readers.  Each turn moves the front: a gap proxy to the start of the entry
(`AddFront.newProxy`), then the entry given up for proxies and bumped up to its end or to `E`
(`AddFront.replaced`).

* `addReaderLoop_spec`: the loop ends with the front at `E`.
* `zfsRangelockAddReader_spec`: a new reader that overlaps nothing goes into the tree as it is;
  otherwise the tree ends with proxies tiling its range, each counting it once.
-/

namespace Zfs

open LockedRange

/-! ## Fronts -/

/-- The proxies of `t` inside `[lo, hi)` cover `[lo, cur)`. -/
def ProxyCovers (t : List LockedRange) (lo cur hi : ℕ) : Prop :=
  ∀ x, lo ≤ x → x < cur → ∃ p ∈ t, p.lrProxy = true ∧ p.Covers x ∧ lo ≤ p.lo ∧ p.hi ≤ hi

theorem ProxyCovers.refines {t t' : List LockedRange} {lo cur hi : ℕ}
    (h : ProxyCovers t lo cur hi) (hr : Refines t t') : ProxyCovers t' lo cur hi := by
  intro x h₁ h₂
  obtain ⟨p, hp, hpx, hxp, hlo, hhi⟩ := h x h₁ h₂
  obtain ⟨p', hp', hpx', hxp', hw⟩ := hr p hp hpx x hxp
  exact ⟨p', hp', hpx', hxp', le_trans hlo hw.1, le_trans hw.2 hhi⟩

/-- A new reader lock on `[O, E)` taken as far as `cur` from `s₀`: the proxies inside `[O, E)`
cover `[O, cur)`, which is counted once more, and no entry straddles `cur`. -/
structure AddFront (s₀ : Rangelock) (O E cur : ℕ) (s : Rangelock) : Prop where
  rd : RdOk s
  grows : Grows s₀ s
  below : ∀ e ∈ s.rlTree, e.lo < cur → e.hi ≤ cur
  covered : ProxyCovers s.rlTree O cur E
  count : ∀ x, readerCount s.rlTree x =
    readerCount s₀.rlTree x + if O ≤ x ∧ x < cur then 1 else 0
  le : O ≤ cur

section Front

variable {s₀ s s' : Rangelock} {O E cur c : ℕ} {e : LockedRange}

/-- **A gap proxy** `[cur, c)`, where no entry starts, moves the front to `c`. -/
theorem AddFront.newProxy (h : AddFront s₀ O E cur s) {a b : UInt64} (ha : a.toNat = cur)
    (hb : cur + b.toNat = c) (hc : cur < c) (hcE : c ≤ E) (hE : E < 2 ^ 64)
    (hafter : ∀ f ∈ s.rlTree, cur ≤ f.lo → c ≤ f.lo) :
    AddFront s₀ O E c (zfsRangelockNewProxy s a b) := by
  have hap : ∀ f ∈ s.rlTree, f.hi ≤ a.toNat ∨ a.toNat + b.toNat ≤ f.lo := by
    intro f hf
    by_cases hlt : f.lo < cur
    · exact .inl (ha ▸ h.below f hf hlt)
    · exact .inr (by rw [ha, hb]; exact hafter f hf (by omega))
  have htree := treeOk_newProxy h.rd.tree (by omega) (by omega) hap
  have hmem : ∀ f, f ∈ (zfsRangelockNewProxy s a b).rlTree ↔
      f = ⟨s.nextId, a, b, 1, .reader, true⟩ ∨ f ∈ s.rlTree := fun f => mem_avlAdd
  refine ⟨h.rd.of_grows grows_newProxy htree, h.grows.trans grows_newProxy,
    fun f hf hlt => ?_, fun x h₁ h₂ => ?_, fun x => ?_, by have := h.le; omega⟩
  · rcases (hmem f).mp hf with rfl | hf
    · show a.toNat + b.toNat ≤ c
      omega
    · by_cases hlt' : f.lo < cur
      · have := h.below f hf hlt'
        omega
      · have := hafter f hf (by omega)
        omega
  · by_cases hx : x < cur
    · obtain ⟨p, hp, hrest⟩ := h.covered x h₁ hx
      exact ⟨p, (hmem p).mpr (.inr hp), hrest⟩
    · have := h.le
      exact ⟨_, (hmem _).mpr (.inl rfl), rfl, ⟨show a.toNat ≤ x by omega,
        show x < a.toNat + b.toNat by omega⟩, show O ≤ a.toNat by omega,
        show a.toNat + b.toNat ≤ E by omega⟩
  · have := h.le
    rw [readerCount_newProxy, h.count x, ha, hb]
    split_ifs <;> omega

/-- **An entry given up for proxies** from the front `cur`, where it starts, to `c`, with one
more reader there, moves the front to `c`. -/
theorem AddFront.replaced (h : AddFront s₀ O E cur s) (he : e ∈ s.rlTree) (helo : e.lo = cur)
    (hR : Replaced s e c 1 s') (hc : c ≤ e.hi) (hcE : c ≤ E) (hcur : cur < c) :
    AddFront s₀ O E c s' := by
  refine ⟨hR.rd, h.grows.trans hR.grows, fun f hf hlt => ?_, fun x h₁ h₂ => ?_, fun x => ?_,
    by have := h.le; omega⟩
  · rcases hR.new f hf with ⟨hf₀, hid⟩ | ⟨-, -, hfc⟩
    · -- an old entry other than `e` lies wholly before or after it
      rcases h.rd.tree.apart_of_lrId he hf₀ hid with hap | hap <;> omega
    · exact hfc hlt
  · by_cases hx : x < cur
    · exact h.covered.refines hR.grows.refines x h₁ hx
    · obtain ⟨p, hp, hpx, hplo, hphi⟩ := hR.front
      have := h.le
      exact ⟨p, hp, hpx, ⟨by omega, by omega⟩, by omega, by omega⟩
  · have := h.le
    rw [hR.count x, h.count x, helo]
    split_ifs <;> omega

/-- The front at `O` before any proxy of the new range: a state grown from `s₀` with the same
counts, where no entry straddles `O`. -/
theorem AddFront.start (hs : RdOk s) (hg : Grows s₀ s)
    (hbelow : ∀ f ∈ s.rlTree, f.lo < O → f.hi ≤ O)
    (hcount : ∀ x, readerCount s.rlTree x = readerCount s₀.rlTree x) : AddFront s₀ O E O s := by
  refine ⟨hs, hg, hbelow, fun x h₁ h₂ => absurd h₂ (by omega), fun x => ?_, le_rfl⟩
  rw [hcount x, if_neg (by omega), Nat.add_zero]

/-- The entries over `[O, E)` are readers in a state grown from one where they were: the others
are proxies. -/
theorem Grows.reader (hg : Grows s₀ s) (ht : TreeOk s.rlTree s.nextId)
    (hread : ∀ e ∈ s₀.rlTree, e.lo < E → O < e.hi → e.lrType = .reader) :
    ∀ e ∈ s.rlTree, e.lo < E → O < e.hi → e.lrType = .reader := by
  intro e he h₁ h₂
  cases hp : e.lrProxy
  · exact hread e (hg.nonProxy e he hp) h₁ h₂
  · exact (ht.entry e he).proxyReader hp

end Front

/-! ## The loop -/

/-- The state of the loop over `L`: the front at `cur`, where the entries still to visit start;
those that start before `E` are readers.  On the first turn `L` starts at the front, and on the
others `prevEnd` is the front. -/
structure LoopInv (s₀ : Rangelock) (O E : ℕ) (L : List LockedRange) (prevEnd : Option UInt64)
    (cur : ℕ) (s : Rangelock) : Prop where
  front : AddFront s₀ O E cur s
  list : ∀ e, e ∈ L ↔ e ∈ s.rlTree ∧ cur ≤ e.lo
  sorted : L.Pairwise fun a b => a.lo < b.lo
  readers : ∀ e ∈ L, e.lo < E → e.lrType = .reader
  lt : cur < E
  first : prevEnd = none → ∃ n rest, L = n :: rest ∧ n.lo = cur
  prev : ∀ pe, prevEnd = some pe → pe.toNat = cur

section Loop

variable {s₀ : Rangelock} {off len : UInt64}

/-- The end of the new range, as the code computes it. -/
theorem toNat_add_of_lt (h : off.toNat + len.toNat < 2 ^ 64) :
    (off + len).toNat = off.toNat + len.toNat := by
  rw [UInt64.toNat_add]
  exact Nat.mod_eq_of_lt h

/-- **The end range**: past the last entry the new range overlaps, a proxy from the front to
`E`. -/
theorem LoopInv.endRange {L : List LockedRange} {prevEnd : Option UInt64} {cur : ℕ}
    {s : Rangelock} (h : LoopInv s₀ off.toNat (off.toNat + len.toNat) L prevEnd cur s)
    (hE : off.toNat + len.toNat < 2 ^ 64) (hafter : ∀ e ∈ L, off.toNat + len.toNat ≤ e.lo) :
    AddFront s₀ off.toNat (off.toNat + len.toNat) (off.toNat + len.toNat)
      (addEndRange off len prevEnd s) := by
  cases prevEnd with
  | none =>
    obtain ⟨n, rest, rfl, hn⟩ := h.first rfl
    have := hafter n List.mem_cons_self
    have := h.lt
    omega
  | some pe =>
    have hpe := h.prev pe rfl
    have hlt := h.lt
    have hle : pe ≤ off + len := by
      rw [UInt64.le_iff_toNat_le, toNat_add_of_lt hE]
      omega
    refine h.front.newProxy hpe ?_ hlt le_rfl hE fun f hf hcur => hafter f ((h.list f).mpr ⟨hf, hcur⟩)
    rw [UInt64.toNat_sub_of_le _ _ hle, toNat_add_of_lt hE]
    omega

/-- **The gap of a turn**: after it the front is at the start of `next`. -/
theorem LoopInv.gap {next : LockedRange} {rest : List LockedRange} {prevEnd : Option UInt64}
    {cur : ℕ} {s : Rangelock}
    (h : LoopInv s₀ off.toNat (off.toNat + len.toNat) (next :: rest) prevEnd cur s)
    (hE : off.toNat + len.toNat < 2 ^ 64) (hnE : next.lo < off.toNat + len.toNat) :
    LoopInv s₀ off.toNat (off.toNat + len.toNat) (next :: rest) none next.lo
      (addGap prevEnd next s) := by
  have hcur : cur ≤ next.lo := ((h.list next).mp List.mem_cons_self).2
  -- the entries from `cur` on start at `next` or after it
  have hafter : ∀ f ∈ s.rlTree, cur ≤ f.lo → next.lo ≤ f.lo := by
    intro f hf hcf
    rcases List.mem_cons.mp ((h.list f).mpr ⟨hf, hcf⟩) with rfl | hf'
    · exact le_rfl
    · exact (List.rel_of_pairwise_cons h.sorted hf').le
  cases prevEnd with
  | none =>
    obtain ⟨n, rest', hL, hn⟩ := h.first rfl
    obtain ⟨rfl, rfl⟩ := List.cons_eq_cons.mp hL
    rw [← hn] at h
    exact h
  | some pe =>
    have hpe := h.prev pe rfl
    by_cases hgap : pe < next.lrOffset
    · -- a proxy over the gap moves the front to `next`
      have hlt : cur < next.lo := by
        rw [UInt64.lt_iff_toNat_lt] at hgap
        exact hpe ▸ hgap
      have hle : pe ≤ next.lrOffset := UInt64.le_of_lt hgap
      have hF := h.front.newProxy (b := next.lrOffset - pe) hpe
        (by rw [UInt64.toNat_sub_of_le _ _ hle, hpe]; show cur + (next.lo - cur) = next.lo; omega)
        hlt hnE.le hE hafter
      simp only [addGap, if_pos hgap]
      refine ⟨hF, fun f => ?_, h.sorted, h.readers, hnE, fun _ => ⟨next, rest, rfl, rfl⟩,
        fun _ h => by cases h⟩
      rw [h.list f]
      constructor
      · rintro ⟨hf, hcf⟩
        exact ⟨mem_avlAdd.mpr (.inr hf), hafter f hf hcf⟩
      · rintro ⟨hf, hnf⟩
        rcases mem_avlAdd.mp hf with rfl | hf
        · exact absurd hnf (by show ¬ next.lo ≤ pe.toNat; omega)
        · exact ⟨hf, by omega⟩
    · -- no gap: the entry before ended where `next` starts
      have heq : cur = next.lo := by
        rw [UInt64.lt_iff_toNat_lt] at hgap
        show cur = next.lo
        have : next.lo = next.lrOffset.toNat := rfl
        omega
      simp only [addGap, if_neg hgap]
      subst heq
      exact ⟨h.front, h.list, h.sorted, h.readers, h.lt, fun _ => ⟨next, rest, rfl, rfl⟩,
        fun _ h => by cases h⟩

/-- The entries still to visit after `next`, once it was given up for proxies up to its end: those
from its end on. -/
theorem LoopInv.rest_list {next : LockedRange} {rest : List LockedRange} {s₁ s₂ : Rangelock}
    {O E : ℕ} (hg : LoopInv s₀ O E (next :: rest) none next.lo s₁)
    (hR : Replaced s₁ next next.hi 1 s₂) (f : LockedRange) :
    f ∈ rest ↔ f ∈ s₂.rlTree ∧ next.hi ≤ f.lo := by
  have ht := hg.front.rd.tree
  have hnext : next ∈ s₁.rlTree := ((hg.list next).mp List.mem_cons_self).1
  constructor
  · intro hf
    have hlt : next.lo < f.lo := List.rel_of_pairwise_cons hg.sorted hf
    have hf₁ : f ∈ s₁.rlTree := ((hg.list f).mp (List.mem_cons_of_mem _ hf)).1
    have hid : f.lrId ≠ next.lrId := fun hid => by
      rw [ht.eq_of_lrId hf₁ hnext hid] at hlt
      exact lt_irrefl _ hlt
    refine ⟨hR.keep f hf₁ hid, ?_⟩
    rcases ht.apart_of_lrId hnext hf₁ hid with hap | hap
    · exact hap
    · have := ht.pos f hf₁
      omega
  · rintro ⟨hf, hnf⟩
    have hpos := hR.rd.tree.pos f hf
    rcases hR.new f hf with ⟨hf₁, hid⟩ | ⟨-, hw, -⟩
    · have hnp := ht.pos next hnext
      rcases List.mem_cons.mp ((hg.list f).mpr ⟨hf₁, by omega⟩) with rfl | hf'
      · exact absurd rfl hid
      · exact hf'
    · have := hw.2
      omega

/-- **The loop** ends with the front at `E`. -/
theorem addReaderLoop_spec (hE : off.toNat + len.toNat < 2 ^ 64) :
    ∀ (L : List LockedRange) (prevEnd : Option UInt64) (cur : ℕ) (s : Rangelock),
      LoopInv s₀ off.toNat (off.toNat + len.toNat) L prevEnd cur s →
      AddFront s₀ off.toNat (off.toNat + len.toNat) (off.toNat + len.toNat)
        (addReaderLoop off len prevEnd L s)
  | [], prevEnd, cur, s, h => by
    rw [addReaderLoop]
    exact h.endRange hE fun e he => absurd he List.not_mem_nil
  | next :: rest, prevEnd, cur, s, h => by
    have hend := toNat_add_of_lt hE
    rw [addReaderLoop]
    by_cases hbrk : off + len ≤ next.lrOffset
    · -- the range ends before `next`
      rw [if_pos hbrk]
      rw [UInt64.le_iff_toNat_le, hend] at hbrk
      refine h.endRange hE fun e he => ?_
      rcases List.mem_cons.mp he with rfl | he
      · exact hbrk
      · exact le_trans hbrk (List.rel_of_pairwise_cons h.sorted he).le
    rw [if_neg hbrk]
    have hnE : next.lo < off.toNat + len.toNat := by
      rw [UInt64.le_iff_toNat_le, hend] at hbrk
      exact Nat.lt_of_not_le hbrk
    have hg := h.gap hE hnE
    generalize addGap prevEnd next s = s₁ at hg ⊢
    have hnext : next ∈ s₁.rlTree := ((hg.list next).mp List.mem_cons_self).1
    have hr : next.lrType = .reader := hg.readers next List.mem_cons_self hnE
    have hok := hg.front.rd.tree.entry next hnext
    have hnend : next.lrEnd.toNat = next.hi := toNat_lrEnd hok.fits
    by_cases hex : off + len = next.lrEnd
    · -- the range ends with `next`
      have hEq : off.toNat + len.toNat = next.hi := by rw [← hend, hex, hnend]
      rw [if_pos hex]
      rcases hq : zfsRangelockProxify s₁ next with ⟨s₂, p⟩
      obtain ⟨R, hp, hpx, hplo, hphi, -⟩ := proxified hg.front.rd hnext hr hq
      have hF := hg.front.replaced hnext rfl (R.bump hg.front.rd.tree hnext hp hpx hplo hphi)
        le_rfl hEq.ge hok.pos
      rw [← hEq] at hF
      exact hF
    rw [if_neg hex]
    by_cases hlt : off + len < next.lrEnd
    · -- the range ends inside `next`, which is split there
      have hElt : off.toNat + len.toNat < next.hi := by
        rw [UInt64.lt_iff_toNat_lt, hend, hnend] at hlt
        exact hlt
      rw [if_pos hlt]
      rcases hq : zfsRangelockSplit s₁ next (off + len) with ⟨s₂, p⟩
      obtain ⟨R, hp, hpx, hplo, hphi, -⟩ :=
        split_replaced hg.front.rd hnext hr (by rw [hend]; exact hnE) (by rw [hend]; exact hElt) hq
      rw [hend] at R hphi
      exact hg.front.replaced hnext rfl (R.bump hg.front.rd.tree hnext hp hpx hplo hphi)
        hElt.le le_rfl hnE
    · -- the range goes on past `next`
      have hgt : next.hi < off.toNat + len.toNat := by
        rw [UInt64.lt_iff_toNat_lt, hend, hnend] at hlt
        have hne : off.toNat + len.toNat ≠ next.hi := fun heq =>
          hex (UInt64.toNat_inj.mp (by rw [hend, hnend, heq]))
        omega
      rw [if_neg hlt]
      rcases hq : zfsRangelockProxify s₁ next with ⟨s₂, p⟩
      obtain ⟨R, hp, hpx, hplo, hphi, -⟩ := proxified hg.front.rd hnext hr hq
      have hR := R.bump hg.front.rd.tree hnext hp hpx hplo hphi
      have hpend : p.lrEnd.toNat = next.hi := by
        rw [toNat_lrEnd (hphi ▸ hok.fits), hphi]
      exact addReaderLoop_spec hE rest (some p.lrEnd) next.hi _
        ⟨hg.front.replaced hnext rfl hR le_rfl hgt.le hok.pos, hg.rest_list hR,
          hg.sorted.of_cons, fun f hf => hg.readers f (List.mem_cons_of_mem _ hf), hgt,
          fun h => (by cases h), fun pe hpe => by cases hpe; exact hpend⟩

/-- The loop started from `n`, the first entry from the front on, ends with the front at `E`. -/
theorem addReaderLoop_start {n : LockedRange} {s : Rangelock}
    (hE : off.toNat + len.toNat < 2 ^ 64)
    (hF : AddFront s₀ off.toNat (off.toNat + len.toNat) n.lo s) (hn : n ∈ s.rlTree)
    (hnE : n.lo < off.toNat + len.toNat)
    (hread : ∀ e ∈ s.rlTree, e.lo < off.toNat + len.toNat → off.toNat < e.hi →
      e.lrType = .reader) :
    AddFront s₀ off.toNat (off.toNat + len.toNat) (off.toNat + len.toNat)
      (addReaderLoop off len none (s.rlTree.filter (n.lrOffset ≤ ·.lrOffset)) s) := by
  have ht := hF.rd.tree
  have hlist : ∀ e, e ∈ s.rlTree.filter (n.lrOffset ≤ ·.lrOffset) ↔ e ∈ s.rlTree ∧ n.lo ≤ e.lo := by
    intro e
    rw [List.mem_filter, decide_eq_true_iff, UInt64.le_iff_toNat_le]
    rfl
  have hsorted : (s.rlTree.filter (n.lrOffset ≤ ·.lrOffset)).Pairwise fun a b => a.lo < b.lo :=
    (ht.sep.sublist List.filter_sublist).lo_lt fun a ha => ht.pos a (List.mem_of_mem_filter ha)
  have hnL := (hlist n).mpr ⟨hn, le_rfl⟩
  refine addReaderLoop_spec hE _ none n.lo s
    ⟨hF, hlist, hsorted, fun e he heE => ?_, hnE, fun _ => ?_, fun _ h => (by cases h)⟩
  · have he' := (hlist e).mp he
    have := hF.le
    have := ht.pos e he'.1
    exact hread e he'.1 heE (by omega)
  · -- the first entry visited starts at the front: `n` starts no earlier
    obtain ⟨m, rest, hL⟩ := List.exists_cons_of_ne_nil (List.ne_nil_of_mem hnL)
    have hm := (hlist m).mp (by rw [hL]; exact List.mem_cons_self)
    refine ⟨m, rest, hL, le_antisymm ?_ hm.2⟩
    rw [hL] at hnL hsorted
    rcases List.mem_cons.mp hnL with rfl | hnr
    · exact le_rfl
    · exact (List.rel_of_pairwise_cons hsorted hnr).le

end Loop

/-! ## `zfs_rangelock_add_reader` -/

section AddReader

variable {off : UInt64} {E : ℕ} {s s₁ : Rangelock} {p : LockedRange}

/-- In a well-formed tree, if `p` starts last among the entries before `O` and ends by `O`, no
entry straddles `O`. -/
theorem TreeOk.below_of_last {t : List LockedRange} {n O : ℕ} (ht : TreeOk t n) (hp : p ∈ t)
    (hpO : p.lo ≤ O) (hmax : ∀ f ∈ t, f.lo < O → f.lo ≤ p.lo) (hphi : p.lo < O → p.hi ≤ O) :
    ∀ f ∈ t, f.lo < O → f.hi ≤ O := by
  intro f hf hlt
  by_cases hfp : f = p
  · subst hfp
    exact hphi hlt
  · have := hmax f hf hlt
    have := ht.pos p hp
    rcases ht.apart hf hp hfp with h | h <;> omega

/-- **The entry before** the new range, once `zfs_rangelock_add_reader` has settled it: a front at
`O` with nothing straddling it, and the entry handed on starts at `O`; when none is handed on,
no entry starts there. -/
theorem addReaderPrev_spec {prev prev₁ : Option LockedRange} (hs : RdOk s) (hOE : off.toNat < E)
    (hread : ∀ e ∈ s.rlTree, e.lo < E → off.toNat < e.hi → e.lrType = .reader)
    (hprev : prev = (avlFind s.rlTree off).or (avlNearestBefore s.rlTree off))
    (hq : addReaderPrev s off prev = (s₁, prev₁)) :
    AddFront s off.toNat E off.toNat s₁ ∧
      (∀ n, prev₁ = some n → n ∈ s₁.rlTree ∧ n.lo = off.toNat) ∧
      (prev₁ = none → ∀ f ∈ s₁.rlTree, f.lo ≠ off.toNat) := by
  have ht := hs.tree
  have hlo_ne : avlFind s.rlTree off = none → ∀ f ∈ s.rlTree, f.lo ≠ off.toNat :=
    fun hfind f hf hlo => avlFind_eq_none hfind f hf (UInt64.toNat_inj.mp hlo)
  rcases hfind : avlFind s.rlTree off with _ | p
  · rw [hfind, Option.none_or] at hprev
    rcases hb : avlNearestBefore s.rlTree off with _ | p
    · -- nothing starts before `off` or at it
      rw [hb] at hprev
      subst hprev
      rw [addReaderPrev, Prod.mk.injEq] at hq
      obtain ⟨rfl, rfl⟩ := hq
      have hge := avlNearestBefore_eq_none hb
      exact ⟨AddFront.start hs (Grows.refl s) (fun f hf hlt => absurd (hge f hf) (by omega))
        fun _ => rfl, fun _ h => (by cases h), fun _ => hlo_ne hfind⟩
    rw [hb] at hprev
    subst hprev
    obtain ⟨hp, hplo, hmax⟩ := avlNearestBefore_eq_some ht.sep ht.pos hb
    have hpend := toNat_lrEnd (ht.entry p hp).fits
    by_cases hend : p.lrEnd ≤ off
    · -- `p` ends by `off`
      rw [addReaderPrev, if_pos hend, Prod.mk.injEq] at hq
      obtain ⟨rfl, rfl⟩ := hq
      rw [UInt64.le_iff_toNat_le, hpend] at hend
      exact ⟨AddFront.start hs (Grows.refl s)
        (ht.below_of_last hp hplo.le hmax fun _ => hend) fun _ => rfl,
        fun _ h => (by cases h), fun _ => hlo_ne hfind⟩
    -- `p` straddles `off`: it is split there, and the rear is handed on
    have hlt : off.toNat < p.hi := by
      rw [UInt64.le_iff_toNat_le, hpend] at hend
      omega
    have hpo : p.lrOffset ≠ off := fun h => by
      rw [lo, h] at hplo
      exact lt_irrefl _ hplo
    rw [addReaderPrev, if_neg hend, if_pos hpo] at hq
    rcases hsp : zfsRangelockSplit s p off with ⟨s₂, front⟩
    simp only [hsp, Prod.mk.injEq] at hq
    obtain ⟨rfl, rfl⟩ := hq
    obtain ⟨R, hf, -, hflo, hfhi, q, hq, -, hqlo, -⟩ :=
      split_replaced hs hp (hread p hp (by omega) hlt) hplo hlt hsp
    have hbelow : ∀ f ∈ s₂.rlTree, f.lo < off.toNat → f.hi ≤ off.toNat := by
      intro f hf hflt
      rcases R.new f hf with ⟨hf₀, hid⟩ | ⟨-, -, hfc⟩
      · rcases ht.apart_of_lrId hp hf₀ hid with h | h <;> omega
      · exact hfc hflt
    refine ⟨AddFront.start R.rd R.grows hbelow fun x => by rw [R.count, ite_self, Nat.add_zero],
      fun n hn => ?_, fun hn => ?_⟩
    · obtain ⟨hn, hnlt, hmin⟩ := avlNearestAfter_eq_some R.rd.tree.sep R.rd.tree.pos hn
      change front.lo < n.lo at hnlt
      have hnq := hmin q hq (by rw [hqlo]; show front.lo < off.toNat; rw [hflo]; exact hplo)
      refine ⟨hn, le_antisymm (hqlo ▸ hnq) ?_⟩
      -- `n` starts after the front, so it starts where the front ends
      have hne : n ≠ front := fun h => by rw [h] at hnlt; exact lt_irrefl _ hnlt
      have := R.rd.tree.pos n hn
      rcases R.rd.tree.apart hn hf hne with h | h
      · exact absurd hnlt (by show ¬ front.lo < n.lo; omega)
      · omega
    · have hqf : q.lo ≤ front.lo := avlNearestAfter_eq_none hn q hq
      omega
  · rw [hfind, Option.some_or] at hprev
    subst hprev
    -- `p` starts at `off`, and is handed on
    obtain ⟨hp, hpoff⟩ := avlFind_eq_some hfind
    have hplo : p.lo = off.toNat := by rw [lo, hpoff]
    have hend : ¬ p.lrEnd ≤ off := by
      rw [UInt64.le_iff_toNat_le, toNat_lrEnd (ht.entry p hp).fits]
      have := ht.pos p hp
      omega
    rw [addReaderPrev, if_neg hend, if_neg (not_not.mpr hpoff), Prod.mk.injEq] at hq
    obtain ⟨rfl, rfl⟩ := hq
    refine ⟨AddFront.start hs (Grows.refl s)
      (ht.below_of_last hp hplo.le (fun f _ h => by omega) fun h => by omega) fun _ => rfl,
      fun n hn => ?_, fun h => by cases h⟩
    cases hn
    exact ⟨hp, hplo⟩

/-- **`zfs_rangelock_add_reader`** of a new reader whose range meets only readers, with `prev`
as `zfs_rangelock_enter_reader` finds it: either the new range meets no entry and goes into the
tree as it is, or the tree ends with proxies tiling it, each counting it once, and the lock is
returned with count 0. -/
theorem zfsRangelockAddReader_spec {new : LockedRange} {prev : Option LockedRange} (hs : RdOk s)
    (hpos : new.lo < new.hi) (hfit : new.hi < 2 ^ 64)
    (hread : ∀ e ∈ s.rlTree, e.lo < new.hi → new.lo < e.hi → e.lrType = .reader)
    (hprev : prev = (avlFind s.rlTree new.lrOffset).or (avlNearestBefore s.rlTree new.lrOffset)) :
    (∃ s₁, AddFront s new.lo new.hi new.lo s₁ ∧ (∀ f ∈ s₁.rlTree, Intervals.Apart lo hi new f) ∧
        zfsRangelockAddReader s new prev = ({ s₁ with rlTree := avlAdd s₁.rlTree new }, new)) ∨
      ((zfsRangelockAddReader s new prev).2 = { new with lrCount := 0 } ∧
        AddFront s new.lo new.hi new.hi (zfsRangelockAddReader s new prev).1) := by
  have hend := toNat_add_of_lt hfit
  rcases hq : addReaderPrev s new.lrOffset prev with ⟨s₁, prev₁⟩
  obtain ⟨hF, hsome, hnone⟩ := addReaderPrev_spec hs hpos hread hprev hq
  rw [zfsRangelockAddReader, hq]
  simp only
  split
  · -- no entry from `O` on: the new range goes in as it is
    rename_i hN
    have hlt : ∀ f ∈ s₁.rlTree, f.lo < new.lo := by
      split at hN
      · cases hN
      · intro f hf
        exact lt_of_le_of_ne (avlNearestAfter_eq_none hN f hf) (hnone rfl f hf)
    exact .inl ⟨s₁, hF, fun f hf => .inr (hF.below f hf (hlt f hf)), rfl⟩
  rename_i n hN
  -- `n`, the entry the loop starts from, is the first from `O` on
  have hn : n ∈ s₁.rlTree ∧ new.lo ≤ n.lo ∧ ∀ f ∈ s₁.rlTree, new.lo ≤ f.lo → n.lo ≤ f.lo := by
    split at hN
    · cases hN
      obtain ⟨hn, hnlo⟩ := hsome _ rfl
      exact ⟨hn, hnlo.ge, fun f _ hf => hnlo ▸ hf⟩
    · obtain ⟨hn, hnlt, hmin⟩ := avlNearestAfter_eq_some hF.rd.tree.sep hF.rd.tree.pos hN
      exact ⟨hn, hnlt.le, fun f hf hle => hmin f hf (lt_of_le_of_ne hle (hnone rfl f hf).symm)⟩
  obtain ⟨hn, hnO, hmin⟩ := hn
  split_ifs with hbrk hgap
  · -- the new range ends before `n`
    rw [UInt64.le_iff_toNat_le, hend] at hbrk
    refine .inl ⟨s₁, hF, fun f hf => ?_, rfl⟩
    by_cases hfO : f.lo < new.lo
    · exact .inr (hF.below f hf hfO)
    · exact .inl (le_trans hbrk (hmin f hf (by omega)))
  · -- a proxy over the gap before `n`, then the loop from `n`
    rw [UInt64.le_iff_toNat_le, hend] at hbrk
    rw [UInt64.lt_iff_toNat_lt] at hgap
    have hnE : n.lo < new.hi := Nat.lt_of_not_le hbrk
    have hF₂ := hF.newProxy (c := n.lo) rfl
      (by rw [UInt64.toNat_sub_of_le _ _ (UInt64.le_of_lt (UInt64.lt_iff_toNat_lt.mpr hgap))]
          show new.lo + (n.lo - new.lo) = n.lo
          omega) hgap hnE.le hfit hmin
    exact .inr ⟨rfl, addReaderLoop_start hfit hF₂ (mem_avlAdd.mpr (.inr hn)) hnE
      (hF₂.grows.reader hF₂.rd.tree hread)⟩
  · -- `n` starts at `O`: the loop from `n`
    rw [UInt64.le_iff_toNat_le, hend] at hbrk
    rw [UInt64.lt_iff_toNat_lt] at hgap
    have hnlo : n.lo = new.lo := le_antisymm (Nat.le_of_not_lt hgap) hnO
    have hF₂ : AddFront s new.lo new.hi n.lo s₁ := by
      rw [hnlo]
      exact hF
    exact .inr ⟨rfl, addReaderLoop_start hfit hF₂ hn (Nat.lt_of_not_le hbrk)
      (hF.grows.reader hF.rd.tree hread)⟩

end AddReader

end Zfs
